import BlockAgreement.Proofs.Replica.Counting
import BlockAgreement.Proofs.Replica.Refusals

/-!
# Further proposals in a view

A replica that has accepted a proposal takes no other one in the same view. Still it checks what else the
proposer proposes there, and if that is not valid, it gives up the view and asks for the next round.
-/

set_option autoImplicit false

namespace BlockAgreement

namespace Replica

variable {σ : Type} [Scheme] [Ledger σ] {r : Replica σ} {m : Message} {p : Preprepare} {a : Attempt}

/-- The message is a Preprepare for the view, in which the replica has accepted a proposal. -/
structure Repeats (r : Replica σ) (a : Attempt) (p : Preprepare) (m : Message) : Prop where
  attempt : r.attempt = some a
  active : r.waiting = false
  accepted : r.phase = .preprepared ∨ r.phase = .prepared
  kind : m.kind = .preprepare
  body : m.preprepare = .ok p
  view : p.view = a.view

/-- The proposer of the view proposes a block that is not valid. -/
structure ProposesInvalid (r : Replica σ) (p : Preprepare) (m : Message) (fault : HeaderFault) :
    Prop where
  verified : m.verify = .ok ()
  member : m.sender ∈ r.committee.members
  proposer : r.committee.isProposer m.sender = true
  invalid : (r.verifyProposal p.proposal).1 = .error fault

theorem handlePreprepare_of_repeats (h : r.Repeats a p m) :
    ∃ archive, r.handlePreprepare m =
      if r.committee.isProposer m.sender then
        match (r.verifyProposal p.proposal).1 with
        | .error e => (.error (.invalidProposal e), { r with archive }.sendNextRoundChange)
        | .ok () => (.ok (), { r with archive })
      else (.error .notFromProposer, r) := by
  obtain ⟨archive, hs, -⟩ := verifyProposal_spec r p.proposal
  have hcheck : r.checkMessage .preprepare p.view = .ok () := by
    rw [h.view]
    exact checkMessage_eq h.attempt h.active (by decide) fun _ => rfl
  have hphase : r.phase ≠ .newRound := by
    rcases h.accepted with hp | hp <;> simp [hp]
  refine ⟨archive, ?_⟩
  simp only [handlePreprepare, h.body, hcheck]
  cases hprop : r.committee.isProposer m.sender with
  | false => rfl
  | true =>
    rcases hv : r.verifyProposal p.proposal with ⟨e | u, s⟩ <;> rw [hv] at hs <;> subst hs
    · rfl
    · simp [hphase]

/-- Another proposal in the view of an accepted one leaves the replica as it was, but for what it looked
up and what it relays or reports, unless the proposer's block is not valid and there is a next round. -/
theorem receive_repeats {d : Delivery} (h : r.Repeats a p d.message)
    (hv : ∀ fault, r.ProposesInvalid p d.message fault → next? a.view.round = none) :
    ∃ archive gossip shown,
      r.receive d = { r with archive, gossip, effects := shown ++ r.effects } ∧
      Effect.broadcasts shown = [] := by
  have hdrop (archive : Archive) {e : Rejection}
      (hr : r.receive d = { r with archive }.drop d.message e) : ∃ archive gossip shown,
        r.receive d = { r with archive, gossip, effects := shown ++ r.effects } ∧
        Effect.broadcasts shown = [] := ⟨archive, r.gossip, [_], hr, rfl⟩
  by_cases hforged : d.message.verify ≠ .ok () ∨ d.message.sender ∉ r.committee.members
  · obtain ⟨e, -, -, hr⟩ := receive_forged hforged
    exact hdrop r.archive hr
  · obtain ⟨hverified, hmember⟩ : d.message.verify = .ok () ∧ d.message.sender ∈ r.committee.members := by
      simpa [not_or] using hforged
    obtain ⟨archive, hhandle⟩ := handlePreprepare_of_repeats h
    have hprocess := process_eq (r := r) hverified hmember
    rw [h.kind] at hprocess
    replace hprocess := hprocess.trans hhandle
    cases hprop : r.committee.isProposer d.message.sender with
    | false =>
      rw [hprop] at hprocess
      exact hdrop _ ((receive_error hprocess).resolve_right (by simp))
    | true =>
      rw [hprop, if_pos rfl] at hprocess
      cases hresult : (r.verifyProposal p.proposal).1 with
      | error fault =>
        -- there is no next round to ask for
        have hlast := hv fault ⟨hverified, hmember, hprop, hresult⟩
        have hstays : ({ r with archive } : Replica σ).sendNextRoundChange = { r with archive } := by
          simp [sendNextRoundChange, view?, h.attempt, hlast]
        rw [hresult] at hprocess
        dsimp only at hprocess
        rw [hstays] at hprocess
        exact hdrop _ ((receive_error hprocess).resolve_right (by simp))
      | ok u =>
        rw [hresult] at hprocess
        obtain ⟨gossip, sends, hr, hsends⟩ := receive_acted hprocess
        refine ⟨archive, gossip, sends, hr, List.filterMap_eq_nil_iff.mpr fun e he => ?_⟩
        obtain ⟨x, rfl⟩ := hsends e he
        rfl

theorem receive_invalid {d : Delivery} {fault : HeaderFault} {round : Round}
    (h : r.Repeats a p d.message) (hv : r.ProposesInvalid p d.message fault)
    (hn : next? a.view.round = some round) :
    ∃ archive said, (r.receive d).stance = ({ r.stance with archive } : Stance σ).asking a round ∧
      (r.receive d).effects = .notify (.dropMessage d.message.sender .preprepare
        (toString (Rejection.invalidProposal fault))) :: (said ++ r.effects) ∧
      Effect.broadcasts said = (Message.roundChange r.signer ⟨a.view.sequence, round⟩).toList := by
  obtain ⟨archive, hhandle⟩ := handlePreprepare_of_repeats h
  have hprocess : r.process d.message =
      (.error (.invalidProposal fault), { r with archive }.sendNextRoundChange) := by
    rw [process_eq hv.verified hv.member, h.kind]
    refine hhandle.trans ?_
    rw [hv.proposer, if_pos rfl, hv.invalid]
  have hreceive := (receive_error hprocess).resolve_right (by simp)
  obtain ⟨said, hasks⟩ := sendNextRoundChange_asks (r := { r with archive }) h.attempt hn
  refine ⟨archive, said, ?_, ?_, hasks.broadcasts⟩
  · rw [hreceive]
    exact hasks.stance
  · rw [hreceive, ← h.kind, ← show _ = said ++ r.effects from hasks.effects]
    rfl

/-- Once a replica has accepted a proposal, no other Preprepare for the view changes its view, its
phase, the accepted proposal, the lock or any count, whoever sends it, and nothing is broadcast. There
is one exception: if the proposer proposes a block that is not valid, the replica gives up the view and
asks for the next round, if there is one. Then of the accepted proposal and the votes it keeps only a
proposal that it has locked. -/
theorem accepted_proposal_stands (r : Replica σ) (a : Attempt) (p : Preprepare) (d : Delivery)
    (h : r.Repeats a p d.message) :
    ((∀ fault, r.ProposesInvalid p d.message fault → next? a.view.round = none) →
      ∃ archive gossip shown,
        r.receive d = { r with archive, gossip, effects := shown ++ r.effects } ∧
        Effect.broadcasts shown = [] ∧
        (r.started = true → r.ready = [] → r.handle (.message d) = r.receive d)) ∧
    ∀ fault round, r.ProposesInvalid p d.message fault → next? a.view.round = some round →
      (r.receive d).attempt = some (a.next ⟨a.view.sequence, round⟩ r.committee) ∧
      (r.receive d).waiting = true ∧ (r.receive d).phase = r.phase ∧
      ∃ said, (r.receive d).effects = .notify (.dropMessage d.message.sender .preprepare
          (toString (Rejection.invalidProposal fault))) :: (said ++ r.effects) ∧
        Effect.broadcasts said =
          (Message.roundChange r.signer ⟨a.view.sequence, round⟩).toList := by
  refine ⟨fun hv => ?_, fun fault round hv hn => ?_⟩
  · obtain ⟨archive, gossip, shown, hr, hshown⟩ := receive_repeats h hv
    refine ⟨archive, gossip, shown, hr, hshown, fun hs hready => ?_⟩
    simp only [handle, hs, if_true, dispatch]
    exact settled_eq (by rw [hr]; exact hready)
  · obtain ⟨archive, said, hs, he, hsaid⟩ := receive_invalid h hv hn
    exact ⟨congrArg Stance.attempt hs, congrArg Stance.waiting hs, congrArg Stance.phase hs, said, he,
      hsaid⟩

end Replica

namespace Pair

open Replica

attribute [local instance] Scheme.plain

def rival : Block :=
  let unsealed : Block := .create
    { parentHash := genesis.hash, number := 1, timestamp := 1, marker := engineMarker, dataHash := 0
      vote := none, extra := .empty } [8]
  (unsealed.sealedBy first).getD unsealed

def acceptEvents : List (Event MemoryLedger) :=
  [.start] ++ hear (Message.ofPreprepare first ⟨⟨1, 0⟩, block⟩) ++ [.process]

def accepting : Except HeaderFault (Replica MemoryLedger) :=
  (replica second).map fun start => acceptEvents.foldl react start

/-- It takes no notice of another block that the first one proposes in the view. -/
theorem accepted_proposal_stands_rival : ∃ r, accepting = .ok r ∧
    ∃ c a, Message.ofPreprepare first ⟨⟨1, 0⟩, rival⟩ = some c ∧ a.proposal = some block ∧
      r.Repeats a ⟨⟨1, 0⟩, rival⟩ c ∧ ∃ archive gossip shown,
        r.handle (.message ⟨c, Wire.encode c⟩) =
          { r with archive, gossip, effects := shown ++ r.effects } := by
  obtain ⟨r, hr, ⟨hstarted, hready, hwaiting, hphase⟩, hvalid, hattempt, hheld⟩ := exists_ok
    (x := accepting) (P := fun r =>
      (r.started = true ∧ r.ready = [] ∧ r.waiting = false ∧ r.phase = .preprepared) ∧
      (r.verifyProposal rival).1 = .ok () ∧ r.attempt.isSome ∧
      ∀ a ∈ r.attempt, a.view = ⟨1, 0⟩ ∧ a.proposal = some block) (by decide +kernel)
  obtain ⟨hsome, hbody⟩ : (Message.ofPreprepare first ⟨⟨1, 0⟩, rival⟩).isSome ∧
      ∀ c ∈ Message.ofPreprepare first ⟨⟨1, 0⟩, rival⟩, c.kind = .preprepare ∧
        c.preprepare = .ok ⟨⟨1, 0⟩, rival⟩ := by decide +kernel
  obtain ⟨c, hc⟩ := Option.isSome_iff_exists.mp hsome
  obtain ⟨a, ha⟩ := Option.isSome_iff_exists.mp hattempt
  obtain ⟨hkind, hp⟩ := hbody c hc
  obtain ⟨hview, hproposal⟩ := hheld a ha
  have hrepeats : r.Repeats a ⟨⟨1, 0⟩, rival⟩ c :=
    ⟨ha, hwaiting, .inl hphase, hkind, hp, hview.symm⟩
  obtain ⟨archive, gossip, shown, hreceive, -, hhandle⟩ :=
    (accepted_proposal_stands r a ⟨⟨1, 0⟩, rival⟩ ⟨c, Wire.encode c⟩ hrepeats).1
      fun fault hf => by cases hvalid.symm.trans hf.invalid
  exact ⟨r, hr, c, a, hc, hproposal, hrepeats, archive, gossip, shown,
    (hhandle hstarted hready).trans hreceive⟩

/-- A block that the first one has not sealed makes it leave the view and forget the block that it has
accepted. -/
theorem accepted_proposal_unseated : ∃ r, accepting = .ok r ∧
    r.started = true ∧ r.ready = [] ∧ r.waiting = false ∧ r.phase = .preprepared ∧
    r.view? = some ⟨1, 0⟩ ∧ r.attempt.bind (·.proposal) = some block ∧
    ∃ c, Message.ofPreprepare first ⟨⟨1, 0⟩, unsealed⟩ = some c ∧
      (r.handle (.message ⟨c, Wire.encode c⟩)).waiting = true ∧
      (r.handle (.message ⟨c, Wire.encode c⟩)).view? = some ⟨1, 1⟩ ∧
      (r.handle (.message ⟨c, Wire.encode c⟩)).attempt.bind (·.proposal) = none := by
  obtain ⟨r, hr, ⟨hstarted, hready, hwaiting, hphase, hview, hproposal⟩, hsome, hafter⟩ := exists_ok
    (x := accepting) (P := fun r =>
      (r.started = true ∧ r.ready = [] ∧ r.waiting = false ∧ r.phase = .preprepared ∧
        r.view? = some ⟨1, 0⟩ ∧ r.attempt.bind (·.proposal) = some block) ∧
      (Message.ofPreprepare first ⟨⟨1, 0⟩, unsealed⟩).isSome ∧
      ∀ c ∈ Message.ofPreprepare first ⟨⟨1, 0⟩, unsealed⟩,
        (r.handle (.message ⟨c, Wire.encode c⟩)).waiting = true ∧
        (r.handle (.message ⟨c, Wire.encode c⟩)).view? = some ⟨1, 1⟩ ∧
        (r.handle (.message ⟨c, Wire.encode c⟩)).attempt.bind (·.proposal) = none)
    (by decide +kernel)
  obtain ⟨c, hc⟩ := Option.isSome_iff_exists.mp hsome
  exact ⟨r, hr, hstarted, hready, hwaiting, hphase, hview, hproposal, c, hc, hafter c hc⟩

end Pair

end BlockAgreement
