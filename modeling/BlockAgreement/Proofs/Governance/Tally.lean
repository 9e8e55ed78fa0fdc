import BlockAgreement.Governance.Snapshot
import BlockAgreement.Proofs.Scheme.Plain

/-!
# The tally of the pending votes

A snapshot keeps its pending votes twice, one by one and counted per target. Withdrawing a vote does
nothing if the count goes the other way, so the two agree only because every pending vote goes the way
that its target's membership leaves open. Headers keep this together with the other rules on votes.
-/

set_option autoImplicit false

namespace BlockAgreement.Snapshot

def onTarget (votes : List Vote) (target : Address) : Nat := votes.countP (·.target = target)

def direction (s : Snapshot) (target : Address) : Bool := !s.committee.contains target

def Counts (dir : Address → Bool) (votes : List Vote) (tally : SortedMap Address Tally) : Prop :=
  ∀ t, tally.find? t = if onTarget votes t = 0 then none else some ⟨dir t, onTarget votes t⟩

/-- What every snapshot keeps of its votes and its tally. -/
structure Consistent (s : Snapshot) : Prop where
  counts : Counts s.direction s.votes s.tally
  directed : ∀ v ∈ s.votes, v.authorize = s.direction v.target
  distinct : s.votes.Pairwise fun v w => ¬ (v.signer = w.signer ∧ v.target = w.target)
  signed : ∀ v ∈ s.votes, s.committee.contains v.signer

section Counting

variable {dir : Address → Bool} {votes rest : List Vote} {tally : SortedMap Address Tally} {v : Vote}

theorem isMeaningful_iff {s : Snapshot} {target : Address} {authorize : Bool} :
    s.isMeaningful target authorize ↔ authorize = s.direction target := by
  cases h : s.committee.contains target <;> cases authorize <;>
    simp [isMeaningful, direction, h]

theorem onTarget_cons (v : Vote) (votes : List Vote) (t : Address) :
    onTarget (v :: votes) t = onTarget votes t + if v.target = t then 1 else 0 := by
  simp [onTarget, List.countP_cons]

theorem onTarget_eq_zero {t : Address} : onTarget votes t = 0 ↔ ∀ v ∈ votes, v.target ≠ t := by
  simp [onTarget, List.countP_eq_zero]

theorem onTarget_ne_zero {t : Address} : onTarget votes t ≠ 0 ↔ ∃ v ∈ votes, v.target = t := by
  rw [Ne, onTarget_eq_zero]
  simp

theorem counts_nil : Counts dir [] [] := by
  intro t
  simp [onTarget]

theorem counts_perm (hp : votes.Perm rest) (h : Counts dir votes tally) : Counts dir rest tally := by
  intro t
  have he : onTarget rest t = onTarget votes t := (hp.countP_eq _).symm
  rw [he]
  exact h t

theorem counts_insert (h : Counts dir votes tally) (hv : v.authorize = dir v.target) :
    Counts dir (votes ++ [v])
      (tally.insert v.target
        (match tally.find? v.target with
          | none => ⟨v.authorize, 1⟩
          | some t => { t with votes := t.votes + 1 })) := by
  apply counts_perm (List.perm_append_singleton v votes).symm
  intro t
  rw [SortedMap.find?_insert, onTarget_cons]
  by_cases ht : v.target = t
  · subst ht
    have hf := h v.target
    by_cases h0 : onTarget votes v.target = 0
    · simp [hf, h0, hv]
    · simp [hf, h0]
  · simpa [ht] using h t

theorem counts_uncount (h : Counts dir (v :: votes) tally) (hv : v.authorize = dir v.target) :
    Counts dir votes (uncount tally v) := by
  intro t
  have hf := h v.target
  rw [onTarget_cons, if_pos rfl, if_neg (Nat.succ_ne_zero _)] at hf
  have ht := h t
  rw [onTarget_cons] at ht
  simp only [uncount, hf, hv, if_true]
  by_cases hvt : v.target = t
  · subst hvt
    split
    · simp [SortedMap.find?_insert, show onTarget votes v.target ≠ 0 by omega]
    · simp [SortedMap.find?_erase, show onTarget votes v.target = 0 by omega]
  · rw [if_neg hvt, Nat.add_zero] at ht
    split
    · rw [SortedMap.find?_insert, if_neg hvt, ht]
    · rw [SortedMap.find?_erase, if_neg hvt, ht]

theorem counts_foldl_uncount (h : Counts dir (votes ++ rest) tally)
    (hv : ∀ v ∈ votes, v.authorize = dir v.target) :
    Counts dir rest (votes.foldl uncount tally) := by
  induction votes generalizing tally with
  | nil => exact h
  | cons v votes ih =>
    exact ih (counts_uncount h (hv v List.mem_cons_self))
      (fun w hw => hv w (List.mem_cons_of_mem v hw))

theorem counts_erase (h : Counts dir votes tally) (target : Address) :
    Counts dir (votes.filter (·.target ≠ target)) (tally.erase target) := by
  intro t
  rw [SortedMap.find?_erase]
  by_cases ht : target = t
  · subst ht
    have h0 : onTarget (votes.filter (·.target ≠ target)) target = 0 := by
      rw [onTarget_eq_zero]
      intro v hv
      simpa using (List.mem_filter.mp hv).2
    rw [if_pos rfl, if_pos h0]
  · have he : onTarget (votes.filter (·.target ≠ target)) t = onTarget votes t := by
      rw [onTarget, onTarget, List.countP_filter]
      apply List.countP_congr
      intro v _
      simp only [Bool.and_eq_true, decide_eq_true_eq]
      exact ⟨And.left, fun hv => ⟨hv, fun hw => ht (hw.symm.trans hv)⟩⟩
    rw [if_neg ht, he]
    exact h t

end Counting

variable {s : Snapshot}

theorem initial_consistent (epoch : Epoch) (number : Height) (hash : Digest) (committee : Committee) :
    Consistent (.initial epoch number hash committee) where
  counts := counts_nil
  directed := by simp [initial]
  distinct := by simp [initial]
  signed := by simp [initial]

theorem Consistent.sublist (h : Consistent s) {votes : List Vote} {tally : SortedMap Address Tally}
    (hs : votes.Sublist s.votes) (hc : Counts s.direction votes tally) :
    Consistent { s with votes, tally } where
  counts := hc
  directed v hv := h.directed v (hs.mem hv)
  distinct := h.distinct.sublist hs
  signed v hv := h.signed v (hs.mem hv)

theorem withdraw_consistent (h : Consistent s) (signer target : Address) :
    Consistent (s.withdraw signer target) := by
  unfold withdraw
  split
  · exact h
  · rename_i old hold
    have hm : old ∈ s.votes := List.mem_of_find?_eq_some hold
    exact h.sublist List.erase_sublist
      (counts_uncount (counts_perm (List.perm_cons_erase hm) h.counts) (h.directed old hm))

theorem withdraw_fresh (h : Consistent s) {signer target : Address} :
    ∀ v ∈ (s.withdraw signer target).votes, ¬ (v.signer = signer ∧ v.target = target) := by
  unfold withdraw
  split
  · rename_i hnone
    intro v hv
    simpa using List.find?_eq_none.mp hnone v hv
  · rename_i old hold
    have hm : old ∈ s.votes := List.mem_of_find?_eq_some hold
    have ho : old.signer = signer ∧ old.target = target := by
      simpa using List.find?_some hold
    have hsymm : ∀ {x y : Vote}, ¬ (x.signer = y.signer ∧ x.target = y.target) →
        ¬ (y.signer = x.signer ∧ y.target = x.target) :=
      fun hxy hyx => hxy ⟨hyx.1.symm, hyx.2.symm⟩
    have hd := ((List.perm_cons_erase hm).pairwise_iff hsymm).mp h.distinct
    intro v hv hvo
    exact (List.pairwise_cons.mp hd).1 v hv ⟨ho.1.trans hvo.1.symm, ho.2.trans hvo.2.symm⟩

theorem withdraw_votes (s : Snapshot) (signer target : Address) :
    (s.withdraw signer target).votes.Sublist s.votes := by
  unfold withdraw
  split
  · exact .refl _
  · exact List.erase_sublist

theorem withdraw_committee (signer target : Address) :
    (s.withdraw signer target).committee = s.committee := by
  unfold withdraw
  split <;> rfl

theorem cast_committee (s : Snapshot) (v : Vote) : (s.cast v).committee = s.committee := by
  unfold cast
  split <;> rfl

theorem withdraw_cast_votes {v : Vote} (hv : s.isMeaningful v.target v.authorize = true) :
    ((s.withdraw v.signer v.target).cast v).votes = (s.withdraw v.signer v.target).votes ++ [v] := by
  have hmean : (s.withdraw v.signer v.target).isMeaningful v.target v.authorize = true := by
    rw [isMeaningful, withdraw_committee]
    exact hv
  rw [cast, if_pos hmean]

theorem withdraw_cast_committee (s : Snapshot) (v : Vote) :
    ((s.withdraw v.signer v.target).cast v).committee = s.committee :=
  (cast_committee _ v).trans (withdraw_committee v.signer v.target)

theorem cast_consistent (h : Consistent s) {v : Vote} (hs : s.committee.contains v.signer)
    (hf : ∀ w ∈ s.votes, ¬ (w.signer = v.signer ∧ w.target = v.target)) :
    Consistent (s.cast v) := by
  unfold cast
  split
  · rename_i hm
    have hd : v.authorize = s.direction v.target := isMeaningful_iff.mp hm
    constructor
    · exact counts_insert h.counts hd
    · intro w hw
      rcases List.mem_append.mp hw with hw | hw
      · exact h.directed w hw
      · rw [List.mem_singleton.mp hw]; exact hd
    · refine List.pairwise_append.mpr ⟨h.distinct, List.pairwise_singleton _ _, ?_⟩
      intro w hw x hx
      rw [List.mem_singleton.mp hx]
      exact hf w hw
    · intro w hw
      rcases List.mem_append.mp hw with hw | hw
      · exact h.signed w hw
      · rw [List.mem_singleton.mp hw]; exact hs
  · exact h

theorem dropVotesOf_consistent (h : Consistent s) (signer : Address) :
    Consistent (s.dropVotesOf signer) := by
  apply h.sublist List.filter_sublist
  have hp : s.votes.Perm (s.votes.filter (·.signer = signer) ++ s.votes.filter (·.signer ≠ signer)) := by
    simpa using (List.filter_append_perm (·.signer = signer) s.votes).symm
  exact counts_foldl_uncount (counts_perm hp h.counts)
    (fun v hv => h.directed v (List.mem_filter.mp hv).1)

theorem dropVotesOn_consistent (h : Consistent s) {target : Address} {committee : Committee}
    (hc : ∀ x ≠ target, committee.contains x = s.committee.contains x)
    (hs : ∀ v ∈ s.votes, committee.contains v.signer) :
    Consistent ({ s with committee }.dropVotesOn target) := by
  have hd : ∀ v ∈ s.votes.filter (·.target ≠ target),
      s.direction v.target = ({ s with committee }).direction v.target := by
    intro v hv
    have ht : v.target ≠ target := by simpa using (List.mem_filter.mp hv).2
    simp only [direction, hc _ ht]
  constructor
  · intro t
    refine (counts_erase h.counts target t).trans ?_
    by_cases h0 : onTarget (s.votes.filter (·.target ≠ target)) t = 0
    · exact (if_pos h0).trans (if_pos h0).symm
    · obtain ⟨v, hv, rfl⟩ := onTarget_ne_zero.mp h0
      refine (if_neg h0).trans (Eq.trans ?_ (if_neg h0).symm)
      rw [hd v hv]
      rfl
  · intro v hv
    exact (h.directed v (List.mem_filter.mp hv).1).trans (hd v hv)
  · exact h.distinct.filter _
  · exact fun v hv => hs v (List.mem_filter.mp hv).1

theorem settle_consistent (h : Consistent s) (target : Address) : Consistent (s.settle target) := by
  unfold settle
  split
  · exact h
  · split
    · exact h
    · split
      · apply dropVotesOn_consistent h
        · intro x hx
          rw [Bool.eq_iff_iff, Committee.contains_add?]
          simp [hx]
        · intro v hv
          exact Committee.contains_add?.mpr (.inr (h.signed v hv))
      · -- The votes that the target cast go before it leaves, so that only members have votes pending.
        apply dropVotesOn_consistent (dropVotesOf_consistent h target)
        · intro x hx
          rw [Bool.eq_iff_iff]
          exact Committee.contains_remove?.trans (and_iff_right hx)
        · intro v hv
          obtain ⟨hv, hne⟩ := List.mem_filter.mp hv
          exact Committee.contains_remove?.mpr ⟨by simpa using hne, h.signed v hv⟩

theorem settle_votes (s : Snapshot) (target : Address) :
    (s.settle target).votes.Sublist s.votes := by
  unfold settle
  split
  · exact .refl _
  · split
    · exact .refl _
    · split
      · exact List.filter_sublist
      · exact List.filter_sublist.trans List.filter_sublist

theorem settle_or (h : Consistent s) (target : Address) : s.settle target = s ∨
    (s.settle target).committee.contains target = !s.committee.contains target := by
  unfold settle
  split
  · exact .inl rfl
  · rename_i t ht
    have hdir : t.authorize = !s.committee.contains target := by
      have hc := h.counts target
      rw [ht] at hc
      split at hc
      · cases hc
      · exact congrArg Tally.authorize (Option.some.inj hc)
    split
    · exact .inl rfl
    · refine .inr ?_
      split
      · rename_i ha
        rw [← hdir, ha]
        exact Committee.contains_add?.mpr (.inl rfl)
      · rename_i ha
        rw [← hdir, Bool.eq_false_iff.mpr ha, Bool.eq_false_iff]
        exact fun h => (Committee.contains_remove?.mp h).1 rfl

theorem withdraw_cast_consistent (h : Consistent s) {v : Vote}
    (hs : s.committee.contains v.signer) :
    Consistent ((s.withdraw v.signer v.target).cast v) := by
  apply cast_consistent (withdraw_consistent h v.signer v.target)
  · rw [withdraw_committee]; exact hs
  · exact withdraw_fresh h

theorem countVote_consistent (h : Consistent s) {v : Vote} (hs : s.committee.contains v.signer) :
    Consistent (s.countVote v) :=
  settle_consistent (withdraw_cast_consistent h hs) v.target

theorem Consistent.moveTo [Scheme] (h : Consistent s) (header : Header) :
    Consistent (s.moveTo header) :=
  ⟨h.counts, h.directed, h.distinct, h.signed⟩

theorem applyHeader_consistent [Scheme] (h : Consistent s) {header : Header} {s' : Snapshot}
    (ha : s.applyHeader header = .ok s') : Consistent s' := by
  obtain ⟨author, -, hm, ⟨-, rfl⟩ | ⟨-, -, rfl⟩ | ⟨v, -, -, rfl⟩⟩ := applyHeader_ok.mp ha
  · exact (h.moveTo header).sublist (List.nil_sublist _) counts_nil
  · exact h.moveTo header
  · exact countVote_consistent (h.moveTo header) hm

theorem apply_preserves [Scheme] {P : Snapshot → Prop}
    (hP : ∀ {s s' : Snapshot} {header : Header}, P s → s.applyHeader header = .ok s' → P s')
    {headers : List Header} {s' : Snapshot} (h : P s) (ha : s.apply headers = .ok s') : P s' := by
  unfold apply at ha
  split at ha
  · rename_i hl
    clear hl
    induction headers generalizing s with
    | nil => cases ha; exact h
    | cons header headers ih =>
      rw [List.foldlM_cons] at ha
      cases hh : s.applyHeader header with
      | error e => rw [hh] at ha; cases ha
      | ok m => rw [hh] at ha; exact ih (hP h hh) ha
  · cases ha

/-- The snapshots that headers lead to from one with nothing pending. -/
inductive Reachable [Scheme] : Snapshot → Prop where
  | initial (epoch : Epoch) (number : Height) (hash : Digest) (committee : Committee) :
      Reachable (.initial epoch number hash committee)
  | apply {s s' : Snapshot} {headers : List Header} (h : Reachable s)
      (ha : s.apply headers = .ok s') : Reachable s'

theorem reachable_consistent [Scheme] (h : Reachable s) : Consistent s := by
  induction h with
  | initial epoch number hash committee => exact initial_consistent epoch number hash committee
  | apply _ ha ih => exact apply_preserves (fun h ha => applyHeader_consistent h ha) ih ha

/-- The tally of a snapshot is that of its votes. Every vote would change the membership of its target,
comes from a member, and is the only one of this member on this target. -/
theorem tally_of_votes [Scheme] (h : Reachable s) :
    (∀ t, ((s.tally.find? t).isSome ↔ ∃ v ∈ s.votes, v.target = t) ∧
      ∀ e ∈ s.tally.find? t, e.votes = (s.votes.filter (·.target = t)).length) ∧
    (∀ v ∈ s.votes, ∃ e, s.tally.find? v.target = some e ∧ v.authorize = e.authorize ∧
      e.authorize = !s.committee.contains v.target) ∧
    s.votes.Pairwise (fun v w => ¬ (v.signer = w.signer ∧ v.target = w.target)) ∧
    ∀ v ∈ s.votes, v.signer ∈ s.committee.members := by
  have hc := reachable_consistent h
  refine ⟨fun t => ?_, fun v hv => ?_, hc.distinct, fun v hv => ?_⟩
  · have ht := hc.counts t
    by_cases h0 : onTarget s.votes t = 0
    · rw [if_pos h0] at ht
      rw [onTarget_eq_zero] at h0
      simpa [ht] using h0
    · rw [if_neg h0] at ht
      simpa [ht, onTarget, List.countP_eq_length_filter] using onTarget_ne_zero.mp h0
  · have hn : onTarget s.votes v.target ≠ 0 := fun h0 => onTarget_eq_zero.mp h0 v hv rfl
    refine ⟨_, (hc.counts v.target).trans (if_neg hn), hc.directed v hv, rfl⟩
  · exact Committee.contains_iff.mp (hc.signed v hv)

def examplePoll : Header :=
  let unsealed : Header :=
    ⟨7, 1, 0, engineMarker, 0, some ⟨9, true⟩, Extra.empty⟩
  let digest := @Header.sealHash Scheme.plain unsealed
  { unsealed with extra := { Extra.empty with proposerSeal := (Signer.plain 2).sign digest } }

theorem tally_of_pending_vote : ∃ s, @Reachable Scheme.plain s ∧ s.votes.length = 1 ∧
    (∀ t, ((s.tally.find? t).isSome ↔ ∃ v ∈ s.votes, v.target = t) ∧
      ∀ e ∈ s.tally.find? t, e.votes = (s.votes.filter (·.target = t)).length) ∧
    (∀ v ∈ s.votes, ∃ e, s.tally.find? v.target = some e ∧ v.authorize = e.authorize ∧
      e.authorize = !s.committee.contains v.target) ∧
    s.votes.Pairwise (fun v w => ¬ (v.signer = w.signer ∧ v.target = w.target)) ∧
    ∀ v ∈ s.votes, v.signer ∈ s.committee.members := by
  let start := initial 10 0 7 (.ofList [1, 2, 3, 4] .roundRobin)
  have hv : (@apply Scheme.plain start [examplePoll]).toOption.any (·.votes.length = 1) := by
    decide +kernel
  cases ha : @apply Scheme.plain start [examplePoll] with
  | error e => rw [ha] at hv; cases hv
  | ok s =>
    rw [ha] at hv
    have hr : @Reachable Scheme.plain s :=
      @Reachable.apply Scheme.plain _ _ _ (@Reachable.initial Scheme.plain ..) ha
    exact ⟨s, hr, by simpa [Except.toOption] using hv, @tally_of_votes s Scheme.plain hr⟩

end BlockAgreement.Snapshot
