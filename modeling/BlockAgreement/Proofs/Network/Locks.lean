import BlockAgreement.Proofs.Network.Agreement
import BlockAgreement.Proofs.Replica.Locks

/-!
# Locks of different replicas

Replicas lock in a round what a quorum has supported in it, and two quorums share a replica, which
supports one thing in a round. So locks that conflict rest on different rounds, and once a quorum has
committed itself to a block, nothing else is locked in that round or a later one. An earlier lock that
was not shared by a quorum binds nobody else, and nothing makes it known to the others.
-/

set_option autoImplicit false

namespace BlockAgreement

section Chains

variable {n : Height} {hs ks : List Header}

def beneath (n : Height) (hs : List Header) : List Header := hs.filter fun g => g.number < n

def Reaches (n : Height) (hs : List Header) : Prop := ∃ g ∈ hs, n.toNat ≤ g.number.toNat + 1

theorem beneath_eq_self (h : ∀ g ∈ hs, g.number.toNat < n.toNat) : beneath n hs = hs :=
  List.filter_eq_self.mpr fun g hg => decide_eq_true (UInt64.lt_iff_toNat_lt.mpr (h g hg))

theorem beneath_eq_nil (h : ∀ g ∈ hs, n.toNat ≤ g.number.toNat) : beneath n hs = [] :=
  List.filter_eq_nil_iff.mpr fun g hg => by
    have := h g hg
    rw [decide_eq_true_iff, UInt64.lt_iff_toNat_lt]
    omega

variable [Scheme]

theorem Reaches.beneath_eq (hr : Reaches n hs) (h : hs <:+ ks) (hk : Linked ks) :
    beneath n ks = beneath n hs := by
  obtain ⟨front, rfl⟩ := h
  obtain ⟨g, hg, hn⟩ := hr
  have hfront : beneath n front = [] := beneath_eq_nil fun k hkf => by
    obtain ⟨xs, ys, rfl⟩ := List.append_of_mem hkf
    have hlinked : Linked (k :: (ys ++ hs)) := hk.suffix ⟨xs, by simp⟩
    have := hlinked.number_lt g (List.mem_append_right _ hg)
    omega
  rw [beneath, List.filter_append]
  exact (congrArg (· ++ beneath n hs) hfront).trans (List.nil_append _)

theorem Comparable.beneath_eq (h : Comparable hs ks) (hl : Linked hs) (hk : Linked ks)
    (hr : Reaches n hs) (hr' : Reaches n ks) : beneath n hs = beneath n ks := by
  rcases h with h | h
  · exact (hr.beneath_eq h hk).symm
  · exact hr'.beneath_eq h hl

theorem Linked.beneath_number {g : Header} (hk : Linked ks) (h : g :: hs <:+ ks) :
    beneath g.number ks = hs := by
  have hlinked : Linked (g :: hs) := hk.suffix h
  have hreach : Reaches g.number (g :: hs) := ⟨g, List.mem_cons_self, Nat.le_succ _⟩
  rw [hreach.beneath_eq h hk, beneath, List.filter_cons_of_neg (by simp [UInt64.lt_irrefl])]
  exact beneath_eq_self hlinked.number_lt

theorem Linked.number_le {g k : Header} (hl : Linked (g :: hs)) (hk : k ∈ g :: hs) :
    k.number ≤ g.number := by
  rcases List.mem_cons.mp hk with rfl | hk
  · exact UInt64.le_refl _
  · exact UInt64.le_iff_toNat_le.mpr (Nat.le_of_lt (hl.number_lt k hk))

end Chains

section Seats

variable [Scheme] {epoch : Epoch} {policy : ProposerPolicy} {σ : Type} [Ledger σ] [LawfulLedger σ]

theorem Stance.Seated.office {s : Stance σ} {a : Attempt} (hs : s.Seated epoch policy)
    (hc : Chained s.ledger) (ha : s.attempt = some a) :
    InForce epoch policy (beneath a.view.sequence (bare s.ledger)) s.committee.members ∧
      Reaches a.view.sequence (bare s.ledger) := by
  obtain ⟨gs, hbare⟩ := hc.bare_cons
  have hlinked : Linked (bare s.ledger) := hc.linked.bare
  cases hs with
  | idle hnone =>
    rw [ha] at hnone
    cases hnone
  | before ha' hn hp hm =>
    obtain rfl := Option.some.inj (ha.symm.trans ha')
    have hnext := toNat_of_next? hn
    refine ⟨?_, (Ledger.head s.ledger).withoutCommittedSeals, ?_, hnext.le⟩
    · rw [beneath_eq_self fun g hg => ?_]
      · exact hm
      · have hle := UInt64.le_iff_toNat_le.mp ((hbare ▸ hlinked).number_le (hbare ▸ hg))
        have hle : g.number.toNat ≤ (Ledger.head s.ledger).number.toNat := hle
        omega
    · rw [hbare]
      exact List.mem_cons_self
  | @after a' g hs' ha' hn hd hl hm =>
    obtain rfl := Option.some.inj (ha.symm.trans ha')
    obtain ⟨rfl, rfl⟩ := List.cons.inj (hbare.symm.trans hl)
    have hnumber : (Ledger.head s.ledger).withoutCommittedSeals.number = a.view.sequence := hn
    refine ⟨?_, (Ledger.head s.ledger).withoutCommittedSeals, ?_, ?_⟩
    · have hsuf : (Ledger.head s.ledger).withoutCommittedSeals :: gs <:+ bare s.ledger :=
        hbare.symm ▸ List.suffix_refl _
      rw [← hnumber, hlinked.beneath_number hsuf]
      exact hm
    · rw [hbare]
      exact List.mem_cons_self
    · rw [hnumber]
      exact Nat.le_succ _

namespace Replica

variable {start r : Replica σ} {h : List (Moment σ)}

theorem head_le {l l' : σ} (hs : headers l <:+ headers l') (hn : headers l ≠ [])
    (hl : Linked (headers l')) : (Ledger.head l).number ≤ (Ledger.head l').number := by
  obtain ⟨g, gs, hg⟩ := List.exists_cons_of_ne_nil hn
  have hmem : g ∈ headers l' := hs.subset (hg ▸ List.mem_cons_self)
  obtain ⟨k, ks, hk⟩ := List.exists_cons_of_ne_nil (List.ne_nil_of_mem hmem)
  rw [LawfulLedger.head_of_cons hg, LawfulLedger.head_of_cons hk]
  rw [hk] at hl hmem
  exact hl.number_le hmem

/-- The height of a replica is above the chain that it has begun with. -/
theorem Run.above (hr : Run start h r) (hs : start.attempt = none)
    (hl : ∀ m ∈ h, ∀ l, m.event ≠ .replace l) (hn : headers start.ledger ≠ [])
    (hk : Linked (headers r.ledger)) : r.position.Above (Ledger.head start.ledger).number := by
  induction hr with
  | nil =>
    refine ⟨UInt64.le_refl _, fun view hview => ?_⟩
    rw [show start.position.view = none from congrArg (Option.map _) hs] at hview
    cases hview
  | @step h r e hr ih =>
    have hgrow := (Moment.moves (m := ⟨r, e⟩) (hl _ List.mem_cons_self)).2.1.suffix
    have hlh : ∀ m ∈ h, ∀ l, m.event ≠ .replace l := fun m hm => hl m (List.mem_cons_of_mem _ hm)
    have ih := ih hlh (List.IsChain.suffix hk hgrow)
    exact (Moment.steps ⟨r, e⟩).above (head_le ((hr.suffix hlh).trans hgrow) hn hk) ih

end Replica

end Seats

namespace Network

open Replica

variable [Scheme] {epoch : Epoch} {policy : ProposerPolicy} {σ : Type} [Ledger σ] [LawfulLedger σ]
variable {ι : Type} [DecidableEq ι] {genesis : List Header} {start net : ι → Replica σ}
  {h : List (ι × Moment σ)} {i j : ι} {view : View} {d e : Digest} {a b : Attempt}

def VotedIn (h : List (ι × Moment σ)) (i : ι) (view : View) (d : Digest) : Prop :=
  ∃ x ∈ (own i h).flatMap Moment.ballots, x.view = view ∧ x.digest = d

/-- The replica has voted to commit to the block with this hash, in this round or before. -/
def CommittedBy (h : List (ι × Moment σ)) (i : ι) (view : View) (d : Digest) : Prop :=
  ∃ x ∈ (own i h).flatMap Moment.ballots,
    x.kind = .commit ∧ x.view.sequence = view.sequence ∧ x.view.round ≤ view.round ∧ x.digest = d

/-- The block with this hash is final for the replica. -/
def Final (net : ι → Replica σ) (i : ι) (d : Digest) : Prop := ∃ g ∈ bare (net i).ledger, g.hash = d

/-- In this view a quorum of the committee in office stands for the block with this hash: every replica
among them has voted for it in the view, or it is final for the replica. -/
def Rests (epoch : Epoch) (policy : ProposerPolicy) (start net : ι → Replica σ)
    (h : List (ι × Moment σ)) (i : ι) (view : View) (d : Digest) : Prop :=
  Backed epoch policy (fun j => (start j).signer.address)
    (beneath view.sequence (bare (net i).ledger)) fun j => VotedIn h j view d ∨ Final net j d

/-- What is locked rests on a round of the height. -/
theorem Execution.rests (he : Execution start h net) (ho : Opening epoch policy genesis start)
    (hf : Faithful start net h) (ha : (net i).attempt = some a) (hd : a.lock = some d) :
    ∃ round, round ≤ a.view.round ∧
      Rests epoch policy start net h i ⟨a.view.sequence, round⟩ d := by
  obtain ⟨hseat, hchain⟩ := he.seated ho hf i
  obtain ⟨round, c, votes, hle, hc, hw⟩ := (he.run i).warranted (ho.idle i) a ha d hd
  refine ⟨round, hle, c, votes.map Message.sender, hc ▸ (hseat.office hchain ha).1, ?_, hw.distinct,
    fun x hx => ?_, by rw [List.length_map]; exact hw.quorum, fun j hj => ?_⟩
  · obtain ⟨m, hm, rfl⟩ := hw.committee
    exact hf.tolerated _ (mem_own.mp hm)
  · obtain ⟨m, hm, rfl⟩ := List.mem_map.mp hx
    exact hw.members m hm
  · obtain ⟨m, hm, hmj⟩ := List.mem_map.mp hj
    obtain ⟨hsup, hheard⟩ := hw.supports m hm
    have hsigned := he.heard_signed hf.unforged hf.distinct ho.quiet hf.owned hheard hsup.verified
      hmj.symm
    have hballot := Message.ballot?_of_subject hsup.kind hsup.subject
    exact (he.cast_or hf hsigned hballot).imp_left fun hx => ⟨_, hx, rfl, rfl⟩

/-- A replica votes for one block in a view. -/
theorem Execution.one_choice (he : Execution start h net) (ho : Opening epoch policy genesis start)
    (hf : Faithful start net h) (hd : VotedIn h i view d) (hv : VotedIn h i view e) : d = e := by
  obtain ⟨x, hx, hxv, rfl⟩ := hd
  obtain ⟨y, hy, hyv, rfl⟩ := hv
  have hagree := ((he.run i).devoted (ho.idle i) (hf.own i).1).agree
  exact hagree.forall_of_forall_of_flip (fun _ _ _ => rfl)
    (hagree.imp fun h hv => (h hv.symm).symm) hx hy (hxv.trans hyv.symm)

/-- What a replica has committed itself to it votes for later. -/
theorem Execution.bound (he : Execution start h net) (ho : Opening epoch policy genesis start)
    (hf : Faithful start net h) (hd : CommittedBy h i view d) (hv : VotedIn h i view e) : d = e := by
  obtain ⟨x, hx, hk, hn, hr, rfl⟩ := hd
  by_cases hlt : x.view < view
  · obtain ⟨y, hy, rfl, rfl⟩ := hv
    have hpair := ((he.run i).keeps (ho.idle i) (hf.own i).1).follows
    exact (Ballot.bound_of_lt hpair hx hy hk hn.symm hlt).symm
  · have hge : ¬ view < x.view := by
      rintro (h | ⟨-, h⟩)
      · exact UInt64.lt_irrefl _ (hn ▸ h)
      · exact UInt64.not_lt.mpr hr h
    exact he.one_choice ho hf ⟨x, hx, View.eq_of_not_lt hlt hge, rfl⟩ hv

/-- The committee in office at a height is the same for all replicas that have come to it. -/
theorem Execution.beneath_eq (he : Execution start h net) (ho : Opening epoch policy genesis start)
    (hf : Faithful start net h) {n : Height} (hi : Reaches n (bare (net i).ledger))
    (hj : Reaches n (bare (net j).ledger)) :
    beneath n (bare (net i).ledger) = beneath n (bare (net j).ledger) :=
  ((he.agreeing ho hf).comparable i j).beneath_eq (he.seated ho hf i).2.linked.bare
    (he.seated ho hf j).2.linked.bare hi hj

theorem Execution.reaches (he : Execution start h net) (ho : Opening epoch policy genesis start)
    (hf : Faithful start net h) (ha : (net i).attempt = some a) :
    Reaches a.view.sequence (bare (net i).ledger) :=
  have hs := he.seated ho hf i
  (hs.1.office hs.2 ha).2

/-- No header of a ledger shares its hash with a proposal that a replica has accepted, unless it is the
header of the proposal. -/
def Distinctive (net : ι → Replica σ) : Prop :=
  ∀ i, ∀ a ∈ (net i).attempt, ∀ b ∈ a.proposal, ∀ j, ∀ g ∈ headers (net j).ledger,
    g.hash = b.hash → g.withoutCommittedSeals = b.header.withoutCommittedSeals

/-- A block that is locked at a height and final for someone has been voted for at this height. -/
theorem Execution.final_backed (he : Execution start h net) (ho : Opening epoch policy genesis start)
    (hf : Faithful start net h) (hp : Distinctive net) (ha : (net i).attempt = some a)
    (hd : a.lock = some d) (hj : Final net j d) :
    Backed epoch policy (fun k => (start k).signer.address)
      (beneath a.view.sequence (bare (net i).ledger)) fun k => Voted h k a.view.sequence d := by
  have hchain (k : ι) : Chained (net k).ledger := (he.seated ho hf k).2
  obtain ⟨g, hg, rfl⟩ := hj
  have hfit := (he.run i).coherent (ho.idle i) a ha
  obtain ⟨b, hb, hhash⟩ := hfit.locked _ hd
  have hnumber : g.number = a.view.sequence := by
    obtain ⟨k, hk, rfl⟩ := List.mem_map.mp hg
    have hbare := hp i a ha b hb j k hk hhash.symm
    exact (congrArg Header.number hbare).trans (hfit.number b hb)
  -- below the final block the two chains are the same
  obtain ⟨front, gs, hsplit⟩ := List.append_of_mem hg
  have hsuf : g :: gs <:+ bare (net j).ledger := ⟨front, hsplit.symm⟩
  have hgs : beneath a.view.sequence (bare (net j).ledger) = gs :=
    hnumber ▸ (hchain j).linked.bare.beneath_number hsuf
  have hreach : Reaches a.view.sequence (bare (net j).ledger) :=
    ⟨g, hg, hnumber ▸ Nat.le_succ _⟩
  rw [he.beneath_eq ho hf (he.reaches ho hf ha) hreach, hgs, ← hnumber]
  refine (he.agreeing ho hf).certified j g gs hsuf ?_
  -- the block is not one of those that all replicas have begun with
  have hbegin : genesis.map Header.withoutCommittedSeals <:+ bare (net j).ledger := by
    rw [← ho.shared j]
    exact (he.suffix hf j).map _
  have hnew : g ∉ genesis.map Header.withoutCommittedSeals := by
    intro hmem
    obtain ⟨k, hk, rfl⟩ := List.mem_map.mp hmem
    have habove := ((he.run i).above (ho.idle i) (hf.own i).2 (by rw [ho.shared]; exact ho.nonempty)
      (hchain i).linked).view _ (congrArg (Option.map _) ha)
    obtain ⟨l, ls, hl⟩ := List.exists_cons_of_ne_nil ho.nonempty
    have hlinked := ho.linked
    rw [hl] at hlinked hk
    have hle := hlinked.number_le hk
    rw [LawfulLedger.head_of_cons ((ho.shared i).trans hl)] at habove
    exact UInt64.not_lt.mpr hle (hnumber.symm ▸ habove)
  rcases List.suffix_or_suffix_of_suffix hbegin hsuf with h | h
  · rcases List.suffix_cons_iff.mp h with h | h
    · exact absurd (h ▸ List.mem_cons_self) hnew
    · exact h
  · exact absurd (h.subset List.mem_cons_self) hnew

/-- Two blocks that rest on one round are the same, unless one of them is final. -/
theorem Execution.rests_once (he : Execution start h net) (ho : Opening epoch policy genesis start)
    (hf : Faithful start net h) (hd : Rests epoch policy start net h i view d)
    (hv : Rests epoch policy start net h j view e) (hi : Reaches view.sequence (bare (net i).ledger))
    (hj : Reaches view.sequence (bare (net j).ledger)) : d = e ∨ ∃ k, Final net k d ∨ Final net k e := by
  rw [Rests, ← he.beneath_eq ho hf hi hj] at hv
  obtain ⟨k, hd | hd, hv | hv⟩ := hd.meet hv
  · exact .inl (he.one_choice ho hf hd hv)
  · exact .inr ⟨k, .inr hv⟩
  · exact .inr ⟨k, .inl hd⟩
  · exact .inr ⟨k, .inl hd⟩

/-- Once a quorum has committed itself to a block, what is locked on this round or a later one is this
block. -/
theorem Execution.rests_on_committed (he : Execution start h net)
    (ho : Opening epoch policy genesis start) (hf : Faithful start net h) (hp : Distinctive net)
    (ha : (net i).attempt = some a) (hd : a.lock = some d)
    (hr : Rests epoch policy start net h i view d) (hv : view.sequence = a.view.sequence)
    (hq : Backed epoch policy (fun k => (start k).signer.address)
      (beneath view.sequence (bare (net i).ledger)) fun k => CommittedBy h k view e) : d = e := by
  obtain ⟨k, hvote | hfinal, hcom⟩ := hr.meet hq
  · exact (he.bound ho hf hcom hvote).symm
  · have hback := he.final_backed ho hf hp ha hd hfinal
    rw [← hv] at hback
    obtain ⟨l, hvoted, x, hx, hk, hn, -, rfl⟩ := hback.meet hq
    exact he.single ho hf hvoted ⟨x, hx, hk, hn, rfl⟩

/-- In every execution of a network of replicas that begin with the same chain, a lock lasts as long as
the height, and what is locked rests on a round of the height. If different blocks rest on one round, one
of them is final already. If a quorum has committed itself to a block, in one round or in several, nothing
else is locked that rests on the last of them or on a later round. -/
theorem locks_agree {signer : ι → Signer} {ledger : ι → σ} {snapshots : ι → Nat} {gossip : ι → Gossip}
    {timer : ι → Timer} {capacity : ι → Nat}
    (hc : ∀ i, create (signer i) (ledger i) (.empty epoch policy (snapshots i)) (gossip i) (timer i)
      (capacity i) = .ok (start i))
    (hl : ∀ i, headers (ledger i) = genesis) (hg : Linked genesis) (hn : genesis ≠ [])
    (he : Execution start h net) (hf : Faithful start net h) (hp : Distinctive net) :
    (∀ i a d, (net i).attempt = some a → a.lock = some d → ∃ round, round ≤ a.view.round ∧
      Rests epoch policy start net h i ⟨a.view.sequence, round⟩ d) ∧
    (∀ i a j b, (net i).attempt = some a → (net j).attempt = some b →
      a.view.sequence = b.view.sequence → ∀ round d e,
      Rests epoch policy start net h i ⟨a.view.sequence, round⟩ d →
      Rests epoch policy start net h j ⟨b.view.sequence, round⟩ e →
      d = e ∨ ∃ k, Final net k d ∨ Final net k e) ∧
    (∀ i a d, (net i).attempt = some a → a.lock = some d → ∀ round e,
      Rests epoch policy start net h i ⟨a.view.sequence, round⟩ d →
      Backed epoch policy (fun k => (start k).signer.address)
        (beneath a.view.sequence (bare (net i).ledger))
        (fun k => CommittedBy h k ⟨a.view.sequence, round⟩ e) → d = e) ∧
    ∀ i m a b d, (i, m) ∈ h → m.before.attempt = some a → a.lock = some d →
      m.after.attempt = some b → b.view.sequence = a.view.sequence → b.lock = some d := by
  have ho (i : ι) : Opening epoch policy genesis start := .of_faithful i hc hl hg hn he hf
  refine ⟨fun i a d ha hd => he.rests (ho i) hf ha hd, fun i a j b ha hb hv round d e hd he' => ?_,
    fun i a d ha hd round e hr hq => he.rests_on_committed (ho i) hf hp ha hd hr rfl hq,
    fun i m a b d hm ha hd hb hv => ?_⟩
  · rw [← hv] at he'
    exact he.rests_once (ho i) hf hd he' (he.reaches (ho i) hf ha) (hv ▸ he.reaches (ho i) hf hb)
  · obtain ⟨k, hrun, -⟩ := (he.run i).before (mem_own.mpr hm)
    have hcoh := (hrun.coherent ((ho i).idle i)).mono fun _ _ => trivial
    exact Moment.lock_lasts (hf.accepted _ hm) hcoh ha hd hb hv

end Network

/-! Three validators lock different blocks in different rounds of one height. -/

namespace Trio

open Replica Network Schedule

attribute [local instance] Scheme.plain

def signer : Fin 3 → Signer
  | 0 => .plain 1
  | 1 => .plain 2
  | 2 => .plain 3

def genesis : Header := .genesis [1, 2, 3] 0

def block (k : Signer) (data : Bytes) : Block :=
  let unsealed : Block := .create
    { parentHash := genesis.hash, number := 1, timestamp := 1, marker := engineMarker, dataHash := 0
      vote := none, extra := .empty } data
  (unsealed.sealedBy k).getD unsealed

def early : Block := block (signer 0) [7]

def late : Block := block (signer 1) [8]

def replica (k : Signer) : Except HeaderFault (Replica MemoryLedger) :=
  Replica.create k (.ofHeaders [genesis]) (.empty 100 .roundRobin 8) (.empty 8 8) (.idle 10 20) 8

theorem replica_isSome (i : Fin 3) : (replica (signer i)).toOption.isSome := by
  revert i
  decide +kernel

def start (i : Fin 3) : Replica MemoryLedger := (replica (signer i)).toOption.get (replica_isSome i)

theorem replica_eq (i : Fin 3) : replica (signer i) = .ok (start i) := by
  have hs : (replica (signer i)).toOption = some (start i) := (Option.some_get _).symm
  cases hr : replica (signer i) with
  | error e =>
    rw [hr] at hs
    cases hs
  | ok r =>
    rw [hr] at hs
    exact congrArg Except.ok (Option.some.inj hs)

def hear (m : Option Message) : List (Event MemoryLedger) :=
  m.toList.map fun c => .input (.message ⟨c, Wire.encode c⟩)

/-- With the second validator's Prepare the first one locks its block. Its Commit is lost, and so are all
other messages of the round. The second and the third one change the round, in which the second one
proposes another block and locks it with the third one's Prepare. -/
def schedule : Schedule (Fin 3) MemoryLedger :=
  [(1, hear (Message.prepare (signer 2) ⟨⟨1, 1⟩, late.hash⟩)),
    (2, hear (Message.roundChange (signer 1) ⟨1, 1⟩) ++
      hear (Message.ofPreprepare (signer 1) ⟨⟨1, 1⟩, late⟩) ++ [.process]),
    (1, [.input (.timeout ⟨1, 0⟩), .process] ++ hear (Message.roundChange (signer 2) ⟨1, 1⟩) ++
      [.input (.request late), .process, .process]),
    (2, [.start, .input (.timeout ⟨1, 0⟩), .process]),
    (0, hear (Message.prepare (signer 1) ⟨⟨1, 0⟩, early.hash⟩)),
    (1, [.start] ++ hear (Message.ofPreprepare (signer 0) ⟨⟨1, 0⟩, early⟩) ++ [.process]),
    (0, [.start, .input (.request early), .process, .process])]

def net (i : Fin 3) : Replica MemoryLedger := last start i schedule

theorem schedule_checked :
    (∀ x ∈ history start schedule, x.2.Accepted ∧ x.2.before.committee.members = [1, 2, 3]) ∧
    Honest start schedule ∧ Owned schedule = true ∧
    (∀ i, headers (net i).ledger = [genesis] ∧ (net i).attempt.all
      (fun a => a.proposal.all fun b => b.hash ≠ genesis.hash) = true) ∧
    (net 0).attempt.any (fun a => a.view = ⟨1, 0⟩ ∧ a.lock = some early.hash) = true ∧
    (net 1).attempt.any (fun a => a.view = ⟨1, 1⟩ ∧ a.lock = some late.hash) = true ∧
    early.hash ≠ late.hash ∧ genesis.hash ≠ early.hash ∧ genesis.hash ≠ late.hash := by
  decide +kernel

theorem signer_inj {i j : Fin 3} (h : (signer i).address = (signer j).address) : i = j := by
  revert i j
  decide

theorem start_signer (i : Fin 3) : (start i).signer = signer i := by
  obtain ⟨-, -, hsigner, -⟩ := create_spec (replica_eq i)
  exact hsigner

theorem mem_ledger {i : Fin 3} {g : Header} (hg : g ∈ headers (net i).ledger) : g = genesis := by
  obtain ⟨-, -, -, hl, -⟩ := schedule_checked
  rw [(hl i).1] at hg
  exact List.mem_singleton.mp hg

theorem faithful : Faithful start net (history start schedule) := by
  obtain ⟨hsteady, hhonest, howned, -⟩ := schedule_checked
  have hdistinct (i j : Fin 3) (h : (start i).signer.address = (start j).signer.address) : i = j := by
    rw [start_signer, start_signer] at h
    exact signer_inj h
  constructor
  · exact hdistinct
  · exact hhonest.unforged hdistinct
  · intro x hx
    refine ⟨[], Nat.zero_le _, fun a ha => .inr ?_⟩
    rw [(hsteady x hx).2] at ha
    simp only [start_signer]
    rcases List.mem_cons.mp ha with rfl | ha
    · exact ⟨0, rfl⟩
    · rcases List.mem_pair.mp ha with rfl | rfl
      · exact ⟨1, rfl⟩
      · exact ⟨2, rfl⟩
  · exact fun x hx => (hsteady x hx).1
  · exact fun x hx => Owned.ne_replace howned hx
  · intro i j g hg k hk _
    rw [mem_ledger hg, mem_ledger hk]

theorem distinctive : Distinctive net := by
  obtain ⟨-, -, -, hl, -⟩ := schedule_checked
  intro i a ha b hb j g hg hh
  have hall := (hl i).2
  rw [Option.mem_def.mp ha, Option.all_some, Option.mem_def.mp hb, Option.all_some] at hall
  rw [mem_ledger hg] at hh
  exact absurd hh.symm (of_decide_eq_true hall)

theorem locked : ∃ a b, (net 0).attempt = some a ∧ a.view = ⟨1, 0⟩ ∧ a.lock = some early.hash ∧
    (net 1).attempt = some b ∧ b.view = ⟨1, 1⟩ ∧ b.lock = some late.hash := by
  obtain ⟨-, -, -, -, h0, h1, -⟩ := schedule_checked
  obtain ⟨a, ha, h0⟩ := (Option.any_eq_true _ _).mp h0
  obtain ⟨b, hb, h1⟩ := (Option.any_eq_true _ _).mp h1
  obtain ⟨hav, hal⟩ := of_decide_eq_true h0
  obtain ⟨hbv, hbl⟩ := of_decide_eq_true h1
  exact ⟨a, b, ha, hav, hal, hb, hbv, hbl⟩

/-- The first and the second validator have locked different blocks at one height. -/
theorem locks_conflict : ∃ start net h, (∀ i, replica (signer i) = .ok (start i)) ∧
    Execution start h net ∧ Faithful start net h ∧ Distinctive net ∧
    ∃ a b d e, (net 0).attempt = some a ∧ (net 1).attempt = some b ∧
      a.view.sequence = b.view.sequence ∧ a.lock = some d ∧ b.lock = some e ∧ d ≠ e := by
  obtain ⟨a, b, ha, hav, hal, hb, hbv, hbl⟩ := locked
  obtain ⟨-, -, -, -, -, -, hne, -⟩ := schedule_checked
  exact ⟨start, net, _, replica_eq, execution start schedule, faithful, distinctive, a, b, _, _, ha, hb,
    by rw [hav, hbv], hal, hbl, hne⟩

/-- The block that the first validator has locked rests on a round on which the other one does not
rest. -/
theorem locks_rest_apart : ∃ start net h, (∀ i, replica (signer i) = .ok (start i)) ∧
    Execution start h net ∧ Faithful start net h ∧ Distinctive net ∧
    ∃ a, (net 0).attempt = some a ∧ a.lock = some early.hash ∧ ∃ round, round ≤ a.view.round ∧
      Rests 100 .roundRobin start net h 0 ⟨a.view.sequence, round⟩ early.hash ∧
      ¬ Rests 100 .roundRobin start net h 1 ⟨a.view.sequence, round⟩ late.hash := by
  obtain ⟨a, b, ha, hav, hal, hb, hbv, hbl⟩ := locked
  obtain ⟨-, -, -, -, -, -, hne, hearly, hlate⟩ := schedule_checked
  obtain ⟨hrest, honce, -⟩ := locks_agree replica_eq (fun _ => rfl) (List.isChain_singleton genesis)
    (List.cons_ne_nil _ _) (execution start schedule) faithful distinctive
  obtain ⟨round, hle, hr⟩ := hrest 0 a _ ha hal
  refine ⟨start, net, _, replica_eq, execution start schedule, faithful, distinctive, a, ha, hal, round,
    hle, hr, fun hr' => ?_⟩
  have hseq : a.view.sequence = b.view.sequence := by rw [hav, hbv]
  have hfinal {d : Digest} (hd : genesis.hash ≠ d) (k : Fin 3) : ¬ Final net k d := by
    rintro ⟨g, hbare, rfl⟩
    obtain ⟨k, hk, rfl⟩ := List.mem_map.mp hbare
    exact hd (congrArg Header.hash (mem_ledger hk)).symm
  rcases honce 0 a 1 b ha hb hseq round _ _ hr (hseq ▸ hr') with h | ⟨k, h | h⟩
  · exact hne h
  · exact hfinal hearly k h
  · exact hfinal hlate k h

end Trio

end BlockAgreement
