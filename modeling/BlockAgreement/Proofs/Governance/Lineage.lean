import BlockAgreement.Proofs.Ledger.Lawful
import BlockAgreement.HeaderRules

/-!
# The snapshot of a chain

What the snapshot after a block is, told from the headers alone: that of a checkpoint is in its header,
and any other is its parent's with one header more. An archive that remembers nothing else answers with
this snapshot, and answers whenever there is one.
-/

set_option autoImplicit false

namespace BlockAgreement

namespace Lru

variable {κ α : Type} [DecidableEq κ] {c : Lru κ α} {k : κ} {a : α}

theorem mem_put {e : κ × α} (he : e ∈ (c.put k a).entries) : e = (k, a) ∨ e ∈ c.entries := by
  rcases List.mem_cons.mp (List.mem_of_mem_take he) with he | he
  · exact .inl he
  · exact .inr (List.mem_filter.mp he).1

theorem mem_of_peek? (h : c.peek? k = some a) : (k, a) ∈ c.entries := by
  obtain ⟨⟨j, b⟩, hf, rfl⟩ := Option.map_eq_some_iff.mp h
  have hj := List.find?_some hf
  have hj : j = k := of_decide_eq_true hj
  exact hj ▸ List.mem_of_find?_eq_some hf

end Lru

variable [Scheme]

namespace Snapshot

variable {s t : Snapshot} {h : Header} {hs ks : List Header}

omit [Scheme] in
theorem countVote_frame (s : Snapshot) (v : Vote) :
    (s.countVote v).number = s.number ∧ (s.countVote v).hash = s.hash ∧
      (s.countVote v).epoch = s.epoch := by
  have hw : ∀ (s : Snapshot) (a b : Address), (s.withdraw a b).number = s.number ∧
      (s.withdraw a b).hash = s.hash ∧ (s.withdraw a b).epoch = s.epoch := by
    intro s a b
    unfold withdraw
    split <;> exact ⟨rfl, rfl, rfl⟩
  have hc : ∀ (s : Snapshot) (v : Vote), (s.cast v).number = s.number ∧
      (s.cast v).hash = s.hash ∧ (s.cast v).epoch = s.epoch := by
    intro s v
    unfold cast
    split <;> exact ⟨rfl, rfl, rfl⟩
  have hs : ∀ (s : Snapshot) (a : Address), (s.settle a).number = s.number ∧
      (s.settle a).hash = s.hash ∧ (s.settle a).epoch = s.epoch := by
    intro s a
    unfold settle
    split
    · exact ⟨rfl, rfl, rfl⟩
    · split
      · exact ⟨rfl, rfl, rfl⟩
      · split <;> exact ⟨rfl, rfl, rfl⟩
  obtain ⟨h1, h2, h3⟩ := hw s v.signer v.target
  obtain ⟨h4, h5, h6⟩ := hc (s.withdraw v.signer v.target) v
  obtain ⟨h7, h8, h9⟩ := hs ((s.withdraw v.signer v.target).cast v) v.target
  exact ⟨h7.trans (h4.trans h1), h8.trans (h5.trans h2), h9.trans (h6.trans h3)⟩

theorem applyHeader_frame (ha : s.applyHeader h = .ok t) :
    t.number = h.number ∧ t.hash = h.hash ∧ t.epoch = s.epoch := by
  obtain ⟨author, -, -, ⟨-, rfl⟩ | ⟨-, -, rfl⟩ | ⟨v, -, -, rfl⟩⟩ := applyHeader_ok.mp ha
  · exact ⟨rfl, rfl, rfl⟩
  · exact ⟨rfl, rfl, rfl⟩
  · exact countVote_frame _ _

theorem apply_nil (s : Snapshot) : s.apply [] = .ok s := rfl

theorem apply_cons : s.apply (h :: hs) = .ok t ↔
    next? s.number = some h.number ∧ h.parentHash = s.hash ∧
      ∃ u, s.applyHeader h = .ok u ∧ u.apply hs = .ok t := by
  unfold apply
  rw [isLinked, List.foldlM_cons]
  cases ha : s.applyHeader h with
  | error e =>
    simp only [bind, Except.bind]
    split <;> simp
  | ok u =>
    obtain ⟨hn, hh, -⟩ := applyHeader_frame ha
    simp only [bind, Except.bind, hn, hh, Bool.and_eq_true, beq_iff_eq, Except.ok.injEq,
      exists_eq_left']
    by_cases h1 : next? s.number = some h.number <;> by_cases h2 : h.parentHash = s.hash <;>
      simp [h1, h2]

theorem apply_singleton : s.apply [h] = .ok t ↔
    next? s.number = some h.number ∧ h.parentHash = s.hash ∧ s.applyHeader h = .ok t := by
  rw [apply_cons]
  constructor
  · rintro ⟨hn, hh, u, hu, ht⟩
    rw [apply_nil] at ht
    cases ht
    exact ⟨hn, hh, hu⟩
  · rintro ⟨hn, hh, ht⟩
    exact ⟨hn, hh, t, ht, apply_nil t⟩

theorem apply_append : s.apply (hs ++ ks) = .ok t ↔
    ∃ u, s.apply hs = .ok u ∧ u.apply ks = .ok t := by
  induction hs generalizing s with
  | nil => simp [apply_nil]
  | cons h hs ih =>
    simp only [List.cons_append, apply_cons, ih]
    constructor
    · rintro ⟨h1, h2, u, hu, v, hv, ht⟩
      exact ⟨v, ⟨h1, h2, u, hu, hv⟩, ht⟩
    · rintro ⟨v, ⟨h1, h2, u, hu, hv⟩, ht⟩
      exact ⟨h1, h2, u, hu, v, hv, ht⟩

end Snapshot

inductive SnapshotOf (epoch : Epoch) (policy : ProposerPolicy) (find : Digest → Option Header) :
    Digest → Snapshot → Prop where
  | checkpoint {d : Digest} {h : Header} (hf : find d = some h)
      (hc : epoch.isCheckpoint h.number = true) (hv : h.extra.validators.isEmpty = false) :
      SnapshotOf epoch policy find d
        (.initial epoch h.number d (.ofList h.extra.validators policy))
  | later {d : Digest} {h : Header} {s t : Snapshot} (hf : find d = some h)
      (hc : epoch.isCheckpoint h.number = false)
      (hs : SnapshotOf epoch policy find h.parentHash s) (hn : next? s.number = some h.number)
      (ht : s.applyHeader h = .ok t) : SnapshotOf epoch policy find d t

namespace SnapshotOf

variable {epoch : Epoch} {policy : ProposerPolicy} {find : Digest → Option Header} {d : Digest}
  {s t : Snapshot}

theorem unique (hs : SnapshotOf epoch policy find d s) (ht : SnapshotOf epoch policy find d t) :
    s = t := by
  induction hs generalizing t with
  | checkpoint hf hc hv =>
    cases ht with
    | checkpoint hf' => rw [Option.some.inj (hf.symm.trans hf')]
    | later hf' hc' =>
      rw [← Option.some.inj (hf.symm.trans hf'), hc] at hc'
      cases hc'
  | later hf hc _ _ ha ih =>
    cases ht with
    | checkpoint hf' hc' =>
      rw [← Option.some.inj (hf.symm.trans hf'), hc] at hc'
      cases hc'
    | later hf' _ hs' _ ha' =>
      obtain rfl := Option.some.inj (hf.symm.trans hf')
      rw [ih hs', ha'] at ha
      exact (Except.ok.inj ha).symm

theorem mono {find' : Digest → Option Header} (hf : ∀ d h, find d = some h → find' d = some h)
    (hs : SnapshotOf epoch policy find d s) : SnapshotOf epoch policy find' d s := by
  induction hs with
  | checkpoint h hc hv => exact .checkpoint (hf _ _ h) hc hv
  | later h hc _ hn ht ih => exact .later (hf _ _ h) hc ih hn ht

theorem epoch_eq (hs : SnapshotOf epoch policy find d s) : s.epoch = epoch := by
  induction hs with
  | checkpoint => rfl
  | later _ _ _ _ ht ih => exact (Snapshot.applyHeader_frame ht).2.2.trans ih

theorem frame (hash_of_find : ∀ d h, find d = some h → h.hash = d)
    (hs : SnapshotOf epoch policy find d s) :
    ∃ h, find d = some h ∧ s.number = h.number ∧ s.hash = d := by
  cases hs with
  | checkpoint hf => exact ⟨_, hf, rfl, rfl⟩
  | later hf _ _ _ ht =>
    obtain ⟨hn, hh, -⟩ := Snapshot.applyHeader_frame ht
    exact ⟨_, hf, hn, hh.trans (hash_of_find _ _ hf)⟩

end SnapshotOf

namespace Archive

variable {σ : Type} [Ledger σ] {epoch : Epoch} {policy : ProposerPolicy}

structure Recalls (epoch : Epoch) (policy : ProposerPolicy) (ledger : σ) (a : Archive) : Prop where
  epoch_eq : a.epoch = epoch
  policy_eq : a.policy = policy
  recent : ∀ e ∈ a.recent.entries, SnapshotOf epoch policy (Ledger.lookup ledger) e.1 e.2

variable {ledger : σ} {a b : Archive} {d : Digest} {s : Snapshot}

theorem empty_recalls (epoch : Epoch) (policy : ProposerPolicy) (capacity : Nat) (ledger : σ) :
    (empty epoch policy capacity).Recalls epoch policy ledger :=
  ⟨rfl, rfl, fun _ he => by cases he⟩

theorem Recalls.mono {ledger' : σ} (ha : a.Recalls epoch policy ledger)
    (hf : ∀ d h, Ledger.lookup ledger d = some h → Ledger.lookup ledger' d = some h) :
    a.Recalls epoch policy ledger' :=
  ⟨ha.epoch_eq, ha.policy_eq, fun e he => (ha.recent e he).mono hf⟩

theorem Recalls.get? (ha : a.Recalls epoch policy ledger) {recent : Lru Digest Snapshot}
    (hg : a.recent.get? d = (some s, recent)) :
    SnapshotOf epoch policy (Ledger.lookup ledger) d s ∧
      ({ a with recent } : Archive).Recalls epoch policy ledger := by
  unfold Lru.get? at hg
  split at hg
  · cases hg
  · rename_i t hp
    obtain ⟨hs, rfl⟩ := Prod.mk.inj hg
    obtain rfl := Option.some.inj hs
    have hm := ha.recent _ (Lru.mem_of_peek? hp)
    refine ⟨hm, ha.epoch_eq, ha.policy_eq, fun e he => ?_⟩
    rcases Lru.mem_put he with rfl | he
    · exact hm
    · exact ha.recent e he

theorem Recalls.base (ha : a.Recalls epoch policy ledger) (n : Nat) (d : Digest)
    (later : List Header) :
    (a.base ledger n d later).2.Recalls epoch policy ledger ∧
      ∀ s rest, (a.base ledger n d later).1 = .ok (s, rest) → ∃ between, rest = between ++ later ∧
        ∀ t, s.apply between = .ok t → SnapshotOf epoch policy (Ledger.lookup ledger) d t := by
  fun_induction a.base ledger n d later with
  | case1 n d later s recent hg =>
    obtain ⟨hs, hr⟩ := ha.get? hg
    refine ⟨hr, fun t rest h => ?_⟩
    obtain ⟨rfl, rfl⟩ := Prod.mk.inj (Except.ok.inj h)
    refine ⟨[], rfl, fun t ht => ?_⟩
    rw [Snapshot.apply_nil] at ht
    exact Except.ok.inj ht ▸ hs
  | case5 n d later fst hg h hh hn hc hv =>
    refine ⟨ha, fun t rest h => ?_⟩
    obtain ⟨rfl, rfl⟩ := Prod.mk.inj (Except.ok.inj h)
    refine ⟨[], rfl, fun t ht => ?_⟩
    rw [Snapshot.apply_nil] at ht
    obtain rfl := Except.ok.inj ht
    rw [ha.epoch_eq, ha.policy_eq]
    have hs : SnapshotOf epoch policy (Ledger.lookup ledger) d _ :=
      .checkpoint (lookup_of_headerOf? hh) (ha.epoch_eq ▸ hc) (Bool.eq_false_iff.mpr hv)
    exact hs
  | case7 d later fst hg h hh hc n hn ih =>
    refine ⟨ih.1, fun s rest he => ?_⟩
    obtain ⟨between, rfl, hb⟩ := ih.2 s rest he
    -- the header is applied after all those between the base and its parent
    refine ⟨between ++ [h], by simp, fun t ht => ?_⟩
    obtain ⟨u, hu, ht⟩ := Snapshot.apply_append.mp ht
    obtain ⟨hnext, -, v, hv, ht⟩ := Snapshot.apply_cons.mp ht
    rw [Snapshot.apply_nil] at ht
    obtain rfl := Except.ok.inj ht
    refine .later (lookup_of_headerOf? hh) ?_ (hb u hu) hnext hv
    rw [← ha.epoch_eq]
    exact Bool.eq_false_iff.mpr hc
  | _ => exact ⟨ha, by simp⟩

/-- Whatever the archive is asked, it remembers nothing but snapshots, and its answer is one. The ledger
need only find headers under their own hashes. -/
theorem Recalls.snapshot_of_lookup
    (hash_of_lookup : ∀ d h, Ledger.lookup ledger d = some h → h.hash = d)
    (ha : a.Recalls epoch policy ledger) (number : Height) (d : Digest) :
    (a.snapshot ledger number d).2.Recalls epoch policy ledger ∧
      ∀ s, (a.snapshot ledger number d).1 = .ok s →
        SnapshotOf epoch policy (Ledger.lookup ledger) d s := by
  obtain ⟨hb, hbase⟩ := ha.base number.toNat d []
  unfold Archive.snapshot
  split
  · rename_i e b he
    rw [he] at hb
    exact ⟨hb, by simp⟩
  · rename_i s later b he
    rw [he] at hb hbase
    obtain ⟨between, rfl, hs⟩ := hbase s later rfl
    rw [List.append_nil]
    cases happ : s.apply between with
    | error e => exact ⟨hb, by simp⟩
    | ok t =>
      have ht := hs t happ
      refine ⟨⟨hb.epoch_eq, hb.policy_eq, fun e he => ?_⟩, fun u hu => Except.ok.inj hu ▸ ht⟩
      rcases Lru.mem_put he with rfl | he
      · obtain ⟨-, -, -, hd⟩ := ht.frame hash_of_lookup
        exact hd ▸ ht
      · exact hb.recent e he

theorem Recalls.snapshot [LawfulLedger σ] (ha : a.Recalls epoch policy ledger) (number : Height)
    (d : Digest) :
    (a.snapshot ledger number d).2.Recalls epoch policy ledger ∧
      ∀ s, (a.snapshot ledger number d).1 = .ok s →
        SnapshotOf epoch policy (Ledger.lookup ledger) d s :=
  ha.snapshot_of_lookup (fun _ _ => lookup_hash) number d

theorem base_of_snapshot
    (hash_of_lookup : ∀ d h, Ledger.lookup ledger d = some h → h.hash = d)
    (ha : a.Recalls epoch policy ledger)
    (hs : SnapshotOf epoch policy (Ledger.lookup ledger) d s) (later : List Header) :
    ∃ u between, (a.base ledger s.number.toNat d later).1 = .ok (u, between ++ later) ∧
      u.apply between = .ok s := by
  -- whatever is remembered for the block is this snapshot, since there is only one
  have hrecent {d : Digest} {s t : Snapshot} {recent : Lru Digest Snapshot}
      (hs : SnapshotOf epoch policy (Ledger.lookup ledger) d s)
      (hg : a.recent.get? d = (some t, recent)) : t = s := (ha.get? hg).1.unique hs
  induction hs generalizing later with
  | @checkpoint d h hf hc hv =>
    have hone : SnapshotOf epoch policy _ d
        (.initial epoch h.number d (.ofList h.extra.validators policy)) := .checkpoint hf hc hv
    obtain ⟨g, hg, rfl⟩ := Option.map_eq_some_iff.mp hf
    rw [base.eq_def]
    split
    · rename_i t recent hr
      obtain rfl := hrecent hone hr
      exact ⟨_, [], rfl, Snapshot.apply_nil _⟩
    · rw [hg]
      dsimp only
      rw [if_neg (by simp [Snapshot.initial]; rfl), if_pos (by rw [ha.epoch_eq]; exact hc),
        if_neg (by rw [Bool.not_eq_true]; exact hv)]
      refine ⟨_, [], rfl, ?_⟩
      rw [ha.epoch_eq, ha.policy_eq]
      exact Snapshot.apply_nil _
  | @later d h s t hf hc hs hn ht ih =>
    have hone := SnapshotOf.later hf hc hs hn ht
    obtain ⟨g, hg, rfl⟩ := Option.map_eq_some_iff.mp hf
    have hnum : t.number.toNat = s.number.toNat + 1 := by
      rw [(Snapshot.applyHeader_frame ht).1]
      exact toNat_of_next? hn
    rw [hnum, base.eq_def]
    split
    · rename_i u recent hr
      obtain rfl := hrecent hone hr
      exact ⟨_, [], rfl, Snapshot.apply_nil _⟩
    · rw [hg]
      dsimp only
      rw [if_neg (by rw [Ne, not_not]; exact toNat_of_next? hn),
        if_neg (by rw [ha.epoch_eq, Bool.not_eq_true]; exact hc)]
      obtain ⟨u, between, hb, happ⟩ := ih (g :: later)
      have hb : (a.base ledger s.number.toNat g.parentHash (g :: later)).1 = _ := hb
      refine ⟨u, between ++ [g], by simpa using hb, Snapshot.apply_append.mpr ⟨s, happ, ?_⟩⟩
      obtain ⟨-, -, -, hh⟩ := hs.frame hash_of_lookup
      exact Snapshot.apply_cons.mpr ⟨hn, hh.symm, t, ht, Snapshot.apply_nil t⟩

theorem snapshot_eq_of_lookup
    (hash_of_lookup : ∀ d h, Ledger.lookup ledger d = some h → h.hash = d)
    (ha : a.Recalls epoch policy ledger)
    (hs : SnapshotOf epoch policy (Ledger.lookup ledger) d s) :
    (a.snapshot ledger s.number d).1 = .ok s := by
  obtain ⟨u, between, hb, happ⟩ := base_of_snapshot hash_of_lookup ha hs []
  rw [List.append_nil] at hb
  unfold snapshot
  split
  · rename_i e b he
    rw [he] at hb
    cases hb
  · rename_i t later b he
    rw [he] at hb
    obtain ⟨rfl, rfl⟩ := Prod.mk.inj (Except.ok.inj hb)
    rw [happ]

theorem snapshot_eq [LawfulLedger σ] (ha : a.Recalls epoch policy ledger)
    (hs : SnapshotOf epoch policy (Ledger.lookup ledger) d s) :
    (a.snapshot ledger s.number d).1 = .ok s :=
  snapshot_eq_of_lookup (fun _ _ => lookup_hash) ha hs

theorem snapshot_of_mem [LawfulLedger σ] (ha : a.Recalls epoch policy ledger) (hc : Chained ledger)
    {g : Header} (hg : g ∈ headers ledger)
    (hk : SnapshotOf epoch policy (Ledger.lookup ledger) g.hash s) :
    (a.snapshot ledger g.number g.hash).1 = .ok s := by
  obtain ⟨k, hfound, hn, -⟩ := hk.frame fun _ _ => lookup_hash
  obtain rfl := Option.some.inj (hfound.symm.trans (hc.lookup_mem hg))
  have hn : s.number = g.number := hn
  rw [← hn]
  exact snapshot_eq ha hk

theorem snapshot_head [LawfulLedger σ] (ha : a.Recalls epoch policy ledger) (hc : Chained ledger)
    (hk : SnapshotOf epoch policy (Ledger.lookup ledger) (Ledger.head ledger).hash s) :
    (a.snapshot ledger (Ledger.head ledger).number (Ledger.head ledger).hash).1 =
      .ok s := snapshot_of_mem ha hc hc.head_mem hk

end Archive

end BlockAgreement
