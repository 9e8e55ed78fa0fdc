import BlockAgreement.Proofs.Replica.Run
import BlockAgreement.Proofs.Wire.Canonical
import BlockAgreement.Validator

/-!
# Announcements stay readable

A validator that proposes looks whether a block that is announced is its own. To do so it reads the
stream to its end, and must go back to where it was, whatever it has read, so that block synchronisation
finds all that was there. Told with the position in the stream, which a packet leaves out, it is always
left where it was.
-/

set_option autoImplicit false

namespace BlockAgreement

namespace Packet

/-- The payload of a packet, with how much of it has been read. -/
structure Stream where
  payload : Bytes
  position : Nat
  position_le : position ≤ payload.length
  deriving DecidableEq

namespace Stream

variable {s : Stream}

def unread (s : Stream) : Bytes := s.payload.drop s.position

def packet (code : UInt64) (s : Stream) : Packet := ⟨code, s.unread⟩

def read (s : Stream) : Bytes × Stream := (s.unread, ⟨s.payload, s.payload.length, Nat.le_refl _⟩)

def seek (s : Stream) (position : Nat) (h : position ≤ s.payload.length) : Stream :=
  ⟨s.payload, position, h⟩

def peek (s : Stream) : Bytes × Stream := (s.read.1, s.read.2.seek s.position s.position_le)

theorem unread_read (s : Stream) : s.read.2.unread = [] := List.drop_length

theorem peek_eq (s : Stream) : s.peek = (s.unread, s) := rfl

end Stream

end Packet

namespace Validator

open Packet

variable {σ : Type} [Scheme] {v : Validator σ} {peer : Address} {code : UInt64} {s : Stream} {p : Packet}

/-- Looks whether a stream announces the block that this validator is proposing. If another validator is
the proposer, nothing is read. -/
def inspect (v : Validator σ) (s : Stream) : Bool × Stream :=
  if !v.replica.isProposer then (false, s)
  else
    let (payload, s) := s.peek
    match (Wire.decode payload : Except DecodeError Announcement) with
    | .error _ => (false, s)
    | .ok a => (a.block.header.isMarked && v.replica.isCurrentProposal a.block.hash, s)

def takeIn (v : Validator σ) (peer : Address) (code : UInt64) (s : Stream) :
    Except IntakeFault Bool × Stream × Validator σ :=
  if code = consensusCode then
    if !v.replica.started then (.error .stoppedEngine, s, v)
    else
      let (payload, s) := s.read
      let (result, _, v) := v.intakeMessage peer (.consensus payload)
      (result, s, v)
  else if code = announcementCode then (.ok (v.inspect s).1, (v.inspect s).2, v)
  else (.ok false, s, v)

theorem intakeMessage_eq (hs : v.replica.started = true) (peer : Address) (p : Packet) :
    v.intakeMessage peer p = ((v.intakeMessage peer (.consensus p.unread)).1, p.read.2,
      (v.intakeMessage peer (.consensus p.unread)).2.2) := by
  simp only [intakeMessage, hs, Packet.read, Packet.consensus, Bool.not_true, Bool.false_eq_true,
    if_false]
  cases (Wire.decode p.unread : Except DecodeError Message) with
  | error e => rfl
  | ok m =>
    dsimp only
    split <;> rfl

theorem inspect_eq (v : Validator σ) (code : UInt64) (s : Stream) :
    v.inspect s = (v.announcesOwn (s.packet code), s) := by
  unfold inspect announcesOwn
  cases v.replica.isProposer with
  | false => rfl
  | true =>
    simp only [Stream.peek_eq, Packet.peek, Stream.packet]
    cases (Wire.decode s.unread : Except DecodeError Announcement) <;> rfl

theorem intake_packet (v : Validator σ) (peer : Address) (code : UInt64) (s : Stream) :
    v.intake peer (s.packet code) =
      ((v.takeIn peer code s).1, (v.takeIn peer code s).2.1.packet code, (v.takeIn peer code s).2.2) := by
  unfold takeIn intake
  rw [show (s.packet code).code = code from rfl]
  split
  · cases hs : v.replica.started with
    | false => simp [intakeMessage, hs]
    | true =>
      rw [intakeMessage_eq hs]
      simp only [Bool.not_true, Bool.false_eq_true, if_false, Packet.read, Stream.packet, s.unread_read]
      rfl
  · split
    · rw [inspect_eq v code]
    · rfl

/-- The bytes announce a marked block with the hash of the block that the validator is to propose. -/
def Announces (v : Validator σ) (bytes : Bytes) : Prop :=
  ∃ a : Announcement, a.Fits ∧ Wire.encode a = bytes ∧ a.block.header.marker = engineMarker ∧
    ∃ x b, v.replica.attempt = some x ∧ x.request = some b ∧ b.hash = a.block.hash

theorem announcesOwn_iff :
    v.announcesOwn p = true ↔ v.replica.committee.proposer = some v.address ∧ v.Announces p.unread := by
  have hdecode (a : Announcement) : Wire.decode p.unread = .ok a ↔ a.Fits ∧ Wire.encode a = p.unread :=
    (Wire.bijective_of_canonical announcement_canonical).decode_eq_ok
  have hannounces : v.Announces p.unread ↔ ∃ a : Announcement, Wire.decode p.unread = .ok a ∧
      a.block.header.isMarked = true ∧ v.replica.isCurrentProposal a.block.hash = true := by
    simp only [Announces, hdecode, and_assoc, Header.isMarked, beq_iff_eq, Replica.isCurrentProposal_iff]
  rw [announcesOwn, Bool.and_eq_true, Replica.isProposer_iff, hannounces, Packet.peek]
  refine and_congr_right fun _ => ?_
  cases (Wire.decode p.unread : Except DecodeError Announcement) <;> simp

/-- A packet that is no consensus message leaves the validator and its own stream as they are. It is for
this engine if, and only if, it is a block announcement, this validator is the proposer, and what is
still to be read is the encoding of an announcement, of a block with the engine's marker and with the
hash of the block that the validator is to propose. -/
theorem announcements_stay_readable (v : Validator σ) (peer : Address) (code : UInt64) (s : Stream)
    (hcode : code ≠ consensusCode) :
    ∃ own : Bool, v.takeIn peer code s = (.ok own, s, v) ∧
      v.intake peer (s.packet code) = (.ok own, s.packet code, v) ∧
      (own = true ↔ code = announcementCode ∧ v.replica.committee.proposer = some v.address ∧
        v.Announces s.unread) := by
  have htaken : ∃ own, v.takeIn peer code s = (.ok own, s, v) ∧
      (own = true ↔ code = announcementCode ∧ v.announcesOwn (s.packet code) = true) := by
    unfold takeIn
    rw [if_neg hcode]
    split
    · rename_i hannounces
      rw [inspect_eq v code]
      exact ⟨_, rfl, (and_iff_right hannounces).symm⟩
    · rename_i hother
      exact ⟨false, rfl, by simp [hother]⟩
  obtain ⟨own, htakes, hown⟩ := htaken
  rw [announcesOwn_iff] at hown
  exact ⟨own, htakes, by rw [intake_packet, htakes], hown⟩

end Validator

namespace Pair

open Packet

attribute [local instance] Scheme.plain

def proposing : Except HeaderFault (Validator MemoryLedger) :=
  (Validator.create { epoch := 100 } first (.ofHeaders [genesis])).map
    fun v => v.start.feed (.request block)

def heralded : Stream := ⟨[9, 9] ++ Wire.encode (⟨block, 7⟩ : Announcement), 2, by simp⟩

def prolonged : Stream := ⟨heralded.payload ++ [0], 2, by simp [heralded]⟩

/-- The validator holds the announcement back, but not with the byte after it. Both stay readable. -/
theorem announcements_stay_readable_proposing : ∃ v, proposing = .ok v ∧
    v.takeIn 2 announcementCode heralded = (.ok true, heralded, v) ∧ v.Announces heralded.unread ∧
    v.takeIn 2 announcementCode prolonged = (.ok false, prolonged, v) ∧
      ¬ v.Announces prolonged.unread := by
  obtain ⟨v, hv, hheralded, hprolonged⟩ := exists_ok (x := proposing)
    (P := fun v => (v.takeIn 2 announcementCode heralded).1.toOption = some true ∧
      (v.takeIn 2 announcementCode prolonged).1.toOption = some false) (by decide +kernel)
  obtain ⟨own, htaken, -, hown⟩ := v.announcements_stay_readable 2 announcementCode heralded (by decide)
  obtain ⟨other, hother, -, hnot⟩ :=
    v.announcements_stay_readable 2 announcementCode prolonged (by decide)
  rw [htaken] at hheralded
  rw [hother] at hprolonged
  obtain rfl := Option.some.inj hheralded
  obtain rfl := Option.some.inj hprolonged
  obtain ⟨-, hproposer, hannounces⟩ := hown.mp rfl
  exact ⟨v, hv, htaken, hannounces, hother, fun h => Bool.false_ne_true (hnot.mpr ⟨rfl, hproposer, h⟩)⟩

end Pair

end BlockAgreement
