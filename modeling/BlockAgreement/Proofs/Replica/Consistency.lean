import BlockAgreement.Proofs.Replica.OwnVotes

/-!
# What a replica holds fits its phase

The phase is left as it is while a replica waits for a round, and proposal, lock and counted votes each
change on their own. All the same they fit together at all times: what is locked is the accepted
proposal, a replica that has come further than to begin its view has a proposal for its height, which it
has locked if it is prepared, and every vote that is counted is a member's, for this proposal in this
view.
-/

set_option autoImplicit false

namespace BlockAgreement

namespace Stance

variable {σ : Type} [Scheme] [Ledger σ] {origin s t : Stance σ} {heard : Option Message}
  {es : List Effect}

omit [Ledger σ] in
def Bound (s : Stance σ) : Prop :=
  s.waiting = false → s.phase = .prepared →
    ∃ a b, s.attempt = some a ∧ a.proposal = some b ∧ a.lock = some b.hash

theorem Move.bound (h : Move origin heard s es t) (hs : s.Bound) : t.Bound := by
  intro hw hp
  cases h with
  | consult => exact hs hw hp
  | request x ha hx =>
    obtain ⟨a, b, ha', hb, hl⟩ := hs hw hp
    obtain rfl := Option.some.inj (ha.symm.trans ha')
    exact ⟨_, b, rfl, hb, hl⟩
  | propose => exact hs hw hp
  | ask ha hr => cases hw
  | enterSequence hn ha => cases hp
  | enterRound ha hn h0 hr hwait => cases hp
  | accept hm hprop hl => cases hp
  | support hm hprop hl => exact ⟨_, _, rfl, rfl, hl⟩
  | answer => exact hs hw hp
  | countPrepare hm hc hadd hn =>
    obtain ⟨a, b, ha, hb, hl⟩ := hs hw hp
    obtain rfl := Option.some.inj (hc.attempt.symm.trans ha)
    exact ⟨_, b, rfl, hb, hl⟩
  | lock hm hc hadd hq hn => exact ⟨_, _, rfl, hc.proposal, rfl⟩
  | countCommit hm hc hseal hadd hn =>
    obtain ⟨a, b, ha, hb, hl⟩ := hs hw hp
    obtain rfl := Option.some.inj (hc.attempt.symm.trans ha)
    exact ⟨_, b, rfl, hb, hl⟩
  | finalize hm hc hseal hadd hq hn hl => cases hp
  | refuse hm hc hseal hadd hq hn hl => cases hp

end Stance

namespace Replica

open Stance

variable {σ : Type} [Scheme]

/-- Proposal, lock and counted votes fit the phase. -/
structure Consistent (r : Replica σ) : Prop where
  /-- What is locked is the accepted proposal. -/
  locked : ∀ a ∈ r.attempt, ∀ d ∈ a.lock, ∃ b, a.proposal = some b ∧ b.hash = d
  /-- A replica that neither waits nor begins has a proposal, and has locked it if it is prepared. -/
  proposed : r.waiting = false → r.phase ≠ .newRound → ∃ a b, r.attempt = some a ∧
    a.proposal = some b ∧ b.number = a.view.sequence ∧
      (r.phase = .prepared → a.lock = some b.hash)
  /-- The Prepares are of members, for the proposal in this view. -/
  seconded : ∀ a ∈ r.attempt, ∀ c ∈ a.prepares.messages, c.sender ∈ r.committee.members ∧
    ∃ b, a.proposal = some b ∧ c.Seconds ⟨a.view, b.hash⟩
  /-- The Commits are too, and each has its sender's seal over the hash of the proposal. -/
  committed : ∀ a ∈ r.attempt, ∀ c ∈ a.commits.messages, c.sender ∈ r.committee.members ∧
    ∃ b sig, a.proposal = some b ∧ c.CommitsTo ⟨a.view, b.hash⟩ ∧ c.committedSeal = some sig ∧
      recover (commitDigest b.hash) sig = some c.sender

variable [Ledger σ] {start r : Replica σ} {h : List (Moment σ)}

theorem Run.bound (hr : Run start h r) (hs : start.stance.Bound) : r.stance.Bound :=
  hr.follow (P := fun _ s => s.Bound) hs id (fun _ hs => hs) fun _ hm hs => hm.bound hs

/-- Whatever has happened to a replica since it was created, what it holds fits its phase. -/
theorem always_consistent {signer : Signer} {ledger : σ} {archive : Archive} {gossip : Gossip}
    {timer : Timer} {capacity : Nat}
    (hc : create signer ledger archive gossip timer capacity = .ok start) (hr : Run start h r) :
    r.Consistent := by
  obtain ⟨-, -, -, -, -, hnone, -⟩ := create_spec hc
  have hplaced := create_placed hc
  have hcoherent := hr.coherent hnone
  have hseconded := hr.seconded hnone
  have hbound : r.stance.Bound := hr.bound fun hw hp => by
    -- a replica that has not begun has nothing to lock
    obtain ⟨a, _, ha, _⟩ := hplaced.proposed hw (by rw [hp]; decide)
    cases hnone.symm.trans ha
  refine ⟨fun a ha => (hcoherent a ha).locked, fun hw hp => ?_, fun a ha c hc => ?_, fun a ha c hc => ?_⟩
  · obtain ⟨a, b, ha, hb⟩ := (hr.placed hplaced).proposed hw hp
    refine ⟨a, b, ha, hb, (hcoherent a ha).number b hb, fun hprepared => ?_⟩
    obtain ⟨a', b', ha', hb', hl⟩ := hbound hw hprepared
    obtain rfl := Option.some.inj (ha.symm.trans ha')
    obtain rfl := Option.some.inj (hb.symm.trans hb')
    exact hl
  · have hbacks := hseconded a ha
    obtain ⟨b, hb, hvote, -⟩ := hbacks.counted c hc
    exact ⟨hbacks.committee ▸ a.prepares.authorized c hc, b, hb, hvote⟩
  · have hfits := hcoherent a ha
    obtain ⟨b, hb, hvote, -⟩ := hfits.counted c hc
    obtain ⟨sig, hsig, hrecover⟩ := verifyCommittedSeal_ok hvote.sealed
    exact ⟨hfits.committee ▸ a.commits.authorized c hc, b, sig, hb, hvote, hsig, hrecover⟩

end Replica

namespace Pair

open Replica

attribute [local instance] Scheme.plain

def preparedEvents : List (Event MemoryLedger) :=
  [.start, .input (.request block), .process, .process] ++ hear (Message.prepare second subject) ++
    [.process]

/-- A validator that has locked its proposal and counted votes for it. If the time is up it waits in the
next round, where it still counts as prepared: it keeps the lock, but no vote. -/
theorem always_consistent_prepared : ∃ start, replica first = .ok start ∧
    let r := preparedEvents.foldl react start
    let late := r.react (.input (.timeout ⟨1, 0⟩))
    (r.phase = .prepared ∧ r.waiting = false ∧
      r.attempt.any (fun a => a.prepares.size = 2 ∧ a.commits.size = 1) ∧ r.Consistent) ∧
    late.phase = .prepared ∧ late.waiting = true ∧
      late.attempt.any (fun a => a.lock = some block.hash ∧ a.prepares.size = 0) ∧ late.Consistent := by
  obtain ⟨start, hc, hprepared, hlate⟩ := exists_replica (k := first) (P := fun start =>
    let r := preparedEvents.foldl react start
    let late := r.react (.input (.timeout ⟨1, 0⟩))
    (r.phase = .prepared ∧ r.waiting = false ∧
      r.attempt.any (fun a => a.prepares.size = 2 ∧ a.commits.size = 1)) ∧
    late.phase = .prepared ∧ late.waiting = true ∧
      late.attempt.any (fun a => a.lock = some block.hash ∧ a.prepares.size = 0)) (by decide +kernel)
  have hr := moments_run start preparedEvents
  exact ⟨start, hc, ⟨hprepared.1, hprepared.2.1, hprepared.2.2, always_consistent hc hr⟩, hlate.1,
    hlate.2.1, hlate.2.2, always_consistent hc (.step _ hr)⟩

end Pair

end BlockAgreement
