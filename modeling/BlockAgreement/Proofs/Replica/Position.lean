import BlockAgreement.Replica.Inbound

/-!
# How a replica goes from view to view

The position of a replica is its view and phase, with the requests for other rounds that it has counted.
Whatever happens to a replica, its position changes by steps alone. A request that is heard is counted in
the position that the replica has at that time, the origin; all other steps can be taken anywhere.
-/

set_option autoImplicit false

namespace BlockAgreement

def Effect.entered? : Effect → Option View
  | .notify (.startRound view _ _) => some view
  | _ => none

def Effect.entered (es : List Effect) : List View := es.filterMap entered?

theorem Effect.entered_append (es fs : List Effect) : entered (es ++ fs) = entered es ++ entered fs :=
  List.filterMap_append

/-- The message is a valid request for the view. -/
structure Message.Requests [Scheme] (m : Message) (view : View) : Prop where
  verified : m.verify = .ok ()
  kind : m.kind = .roundChange
  subject : ∃ digest, m.subject = .ok ⟨view, digest⟩

structure Position where
  view : Option View
  waiting : Bool
  phase : Phase
  committee : Committee
  roundChanges : RoundChanges
  /-- The number of the last block of the ledger. -/
  head : Height

namespace Position

def entering (p : Position) (view : View) (committee : Committee) (last : Option Address) : Position :=
  { p with
    view := some view
    waiting := false
    phase := .newRound
    committee := committee.choose last view.round
    roundChanges := .empty view.sequence committee }

def counting (p : Position) (round : Round) (m : Message) : Position :=
  { p with roundChanges := (p.roundChanges.add round m).2 }

def Decides (p : Position) (view : View) (round : Round) (m : Message) : Prop :=
  (p.roundChanges.add round m).1 = .ok p.committee.quorum ∧
    (p.waiting = true ∨ view.round < round)

variable [Scheme]

structure Admits (p : Position) (view : View) (round : Round) (m : Message) : Prop where
  current : p.view = some view
  request : m.Requests ⟨view.sequence, round⟩
  member : m.sender ∈ p.committee.members
  above : ¬ round < view.round

/-- The steps from one position to another, with the views that are entered. The ledger ends at `head`
after a step that changes it. -/
inductive Step (origin : Position) (heard : Option Message) (head : Height) :
    Position → List View → Position → Prop where
  /-- A later phase is entered. -/
  | rise {p : Position} {phase : Phase} (hw : p.waiting = false) (hp : p.phase.rank ≤ phase.rank) :
      Step origin heard head p [] { p with phase }
  | append {p : Position} : Step origin heard head p [] { p with head }
  /-- The replica asks for a higher round and waits for it. -/
  | ask {p : Position} {view : View} {round : Round} (hv : p.view = some view)
      (hr : view.round < round) :
      Step origin heard head p []
        { p with
          view := some ⟨view.sequence, round⟩
          waiting := true
          roundChanges := p.roundChanges.clear round }
  | enterSequence {p : Position} {sequence : Height} {committee : Committee} {last : Option Address}
      (hn : next? p.head = some sequence) (hv : ∀ view ∈ p.view, view.sequence ≤ p.head) :
      Step origin heard head p [⟨sequence, 0⟩] (p.entering ⟨sequence, 0⟩ committee last)
  | enterRound {view : View} {round : Round} {m : Message} {last : Option Address}
      (hm : heard = some m) (ha : origin.Admits view round m) (hq : origin.Decides view round m)
      (h0 : round ≠ 0) (hn : next? origin.head = some view.sequence) :
      Step origin heard head origin [⟨view.sequence, round⟩]
        (origin.entering ⟨view.sequence, round⟩ origin.committee last)
  /-- A request is counted that does not make the replica enter the round. -/
  | count {view : View} {round : Round} {m : Message} (hm : heard = some m)
      (ha : origin.Admits view round m) (hq : ¬ origin.Decides view round m) :
      Step origin heard head origin [] (origin.counting round m)
  /-- There is a quorum for the round, but it cannot be entered: the ledger is full, or the sequence is
  not that of the next block. -/
  | miss {view : View} {round : Round} {m : Message} (hm : heard = some m)
      (ha : origin.Admits view round m) (hq : origin.Decides view round m)
      (hn : ∀ sequence, next? origin.head = some sequence →
        ¬ view.sequence ≤ origin.head ∧ (sequence = view.sequence → round = 0)) :
      Step origin heard head origin [] (origin.counting round m)

inductive Steps (origin : Position) (heard : Option Message) (head : Height) :
    Position → List View → Position → Prop where
  | refl (p : Position) : Steps origin heard head p [] p
  | step {p q t : Position} {us vs : List View} (hp : Steps origin heard head p us q)
      (hq : Step origin heard head q vs t) : Steps origin heard head p (vs ++ us) t

variable {origin p q t : Position} {heard : Option Message} {head : Height} {us vs : List View}

theorem Step.single (h : Step origin heard head p vs q) : Steps origin heard head p vs q := by
  simpa using Steps.step (.refl p) h

theorem Steps.trans (hp : Steps origin heard head p us q) (hq : Steps origin heard head q vs t) :
    Steps origin heard head p (vs ++ us) t := by
  induction hq with
  | refl => exact hp
  | step _ hs ih =>
    rw [List.append_assoc]
    exact .step ih hs

/-- Unless the ledger changes, its head stays. -/
theorem Steps.head_eq (h : Steps origin heard p.head p vs q) : q.head = p.head := by
  induction h with
  | refl => rfl
  | step _ hs ih =>
    cases hs with
    | append => rfl
    | _ => exact ih

end Position

end BlockAgreement
