import BlockAgreement.Ledger.Memory
import BlockAgreement.Proofs.Scheme.Plain
import BlockAgreement.Replica.Inbound

/-!
# Runs of a replica

A run is cut wherever the replica takes something up: an input, or one of the messages that became
ready. In between its ledger may be replaced from outside, and others may ask its archive. Handling an
input and starting are runs of this kind.
-/

set_option autoImplicit false

namespace BlockAgreement

namespace Replica

variable {σ : Type} [Scheme] [Ledger σ]

/-- What can happen to a replica. -/
inductive Event (σ : Type) where
  | start
  | stop
  | input (i : Input)
  /-- The replica takes up the next ready message. -/
  | process
  /-- Someone else asks the archive for a snapshot. -/
  | lookup (number : Height) (hash : Digest)
  | replace (ledger : σ)

/-- What becomes of the replica, before the messages that become ready by it. -/
def react (r : Replica σ) : Event σ → Replica σ
  | .start => if r.started then r else { r with started := true }.startRound 0
  | .stop => r.stop
  | .input i =>
    if r.started then r.dispatch i
    else
      match i with
      | .message d => r.drop d.message .stoppedEngine
      | _ => r
  | .process => r.advance.getD r
  | .lookup number hash => { r with archive := (r.archive.snapshot r.ledger number hash).2 }
  | .replace ledger => { r with ledger }

/-- An event and the replica that it happens to. -/
structure Moment (σ : Type) where
  before : Replica σ
  event : Event σ

namespace Moment

def after (m : Moment σ) : Replica σ := m.before.react m.event

/-- What the replica shows, newest first. -/
def shown (m : Moment σ) : List Effect :=
  m.after.effects.take (m.after.effects.length - m.before.effects.length)

def signed (m : Moment σ) : List Message :=
  m.shown.filterMap fun | .broadcast c => some c | _ => none

omit [Scheme] [Ledger σ] in
/-- The message that the replica processes. -/
def heard (m : Moment σ) : Option Message :=
  if m.before.started then
    match m.event with
    | .input (.message d) => some d.message
    | .process => m.before.ready.head?.map (·.message)
    | _ => none
  else none

/-- The ledger takes every block that it is handed. -/
def Accepted (m : Moment σ) : Prop :=
  ∀ b, .commit b ∈ m.shown → ∃ ledger, Ledger.append m.before.ledger b = .ok ledger

theorem accepted_iff {m : Moment σ} : m.Accepted ↔ (m.shown.all fun
    | .commit b => (Ledger.append m.before.ledger b).isOk
    | _ => true) = true := by
  have hok (b : Block) : (Ledger.append m.before.ledger b).isOk = true ↔
      ∃ ledger, Ledger.append m.before.ledger b = .ok ledger := by
    cases Ledger.append m.before.ledger b <;> simp [Except.isOk, Except.toBool]
  rw [List.all_eq_true]
  constructor
  · intro h e he
    cases e with
    | commit b => exact (hok b).mpr (h b he)
    | _ => rfl
  · exact fun h b hb => (hok b).mp (h _ hb)

instance (m : Moment σ) : Decidable m.Accepted := decidable_of_iff _ accepted_iff.symm

end Moment

/-- From the first replica the moments, of which the newest stands first, lead to the last one. -/
inductive Run (start : Replica σ) : List (Moment σ) → Replica σ → Prop where
  | nil : Run start [] start
  | step {h : List (Moment σ)} {r : Replica σ} (e : Event σ) (hr : Run start h r) :
      Run start (⟨r, e⟩ :: h) (r.react e)

theorem Run.append {r s t : Replica σ} {h k : List (Moment σ)} (hr : Run r h s) (hs : Run s k t) :
    Run r (k ++ h) t := by
  induction hs with
  | nil => exact hr
  | step e _ ih => exact .step e ih

/-- Before each moment of a run there is a run. -/
theorem Run.before {r s : Replica σ} {h : List (Moment σ)} (hr : Run r h s) {m : Moment σ}
    (hm : m ∈ h) : ∃ k, Run r k m.before ∧ m :: k <:+ h := by
  induction hr with
  | nil => cases hm
  | @step h s e hr ih =>
    rcases List.mem_cons.mp hm with rfl | hm
    · exact ⟨h, hr, List.suffix_refl _⟩
    · obtain ⟨k, hk, hs⟩ := ih hm
      exact ⟨k, hk, hs.trans (List.suffix_cons _ _)⟩

theorem settle_run (steps : Nat) (r : Replica σ) :
    ∃ h, Run r h (settle steps r) ∧ ∀ m ∈ h, m.event = .process := by
  induction steps generalizing r with
  | zero => exact ⟨[], .nil, by simp⟩
  | succ steps ih =>
    cases ha : r.advance with
    | none => exact ⟨[], by simpa only [settle, ha] using Run.nil, by simp⟩
    | some s =>
      obtain ⟨h, hs, he⟩ := ih s
      have hr : Run r [⟨r, .process⟩] s := by
        simpa only [react, ha, Option.getD_some] using Run.step .process (Run.nil : Run r [] r)
      refine ⟨_, by simpa only [settle, ha] using hr.append hs, fun m hm => ?_⟩
      rcases List.mem_append.mp hm with hm | hm
      · exact he m hm
      · rw [List.mem_singleton.mp hm]

theorem settled_run (r : Replica σ) (e : Event σ) :
    ∃ h, Run r h (r.react e).settled ∧ ∀ m ∈ h, m = ⟨r, e⟩ ∨ m.event = .process := by
  obtain ⟨h, hr, he⟩ := settle_run (r.react e).settleLimit (r.react e)
  refine ⟨h ++ [⟨r, e⟩], .append (.step e .nil) hr, fun m hm => ?_⟩
  rcases List.mem_append.mp hm with hm | hm
  · exact .inr (he m hm)
  · exact .inl (List.mem_singleton.mp hm)

theorem handle_run (r : Replica σ) (i : Input) :
    ∃ h, Run r h (r.handle i) ∧ ∀ m ∈ h, m = ⟨r, .input i⟩ ∨ m.event = .process := by
  cases hs : r.started with
  | false =>
    have he : r.handle i = r.react (.input i) := by
      cases i <;> simp [handle, react, hs]
    exact ⟨_, he ▸ .step _ .nil, fun m hm => .inl (List.mem_singleton.mp hm)⟩
  | true =>
    have he : r.handle i = (r.react (.input i)).settled := by
      simp only [handle, react, hs, if_true]
    exact he ▸ settled_run r (.input i)

theorem start_run (r : Replica σ) :
    ∃ h, Run r h r.start ∧ ∀ m ∈ h, m = ⟨r, .start⟩ ∨ m.event = .process := by
  cases hs : r.started with
  | true => exact ⟨[], by simpa only [start, hs, if_true] using Run.nil, by simp⟩
  | false =>
    have he : r.start = (r.react .start).settled := by
      simp only [start, react, hs, Bool.false_eq_true, if_false]
    exact he ▸ settled_run r .start

/-- Nothing but a start sets a replica going. -/
theorem react_stopped {r : Replica σ} {e : Event σ} (hs : r.started = false) (he : e ≠ .start) :
    (r.react e).started = false := by
  cases e with
  | start => exact absurd rfl he
  | stop => rfl
  | input i => cases i <;> simp [react, hs, drop, notify, emit]
  | process => simp [react, advance, hs]
  | lookup => exact hs
  | replace => exact hs

theorem startRound_stopped {r : Replica σ} (hn : next? (Ledger.head r.ledger).number = none)
    (round : Round) : r.startRound round = { r with started := false } := by
  simp only [startRound, hn]

/-- A replica that runs was running before, or was started where a height is left. -/
theorem react_runs {r : Replica σ} {e : Event σ} (hs : (r.react e).started = true) :
    r.started = true ∨ e = .start ∧ next? (Ledger.head r.ledger).number ≠ none := by
  cases hr : r.started with
  | true => exact .inl rfl
  | false =>
    by_cases he : e = .start
    · subst he
      refine .inr ⟨rfl, fun hn => ?_⟩
      simp only [react, hr, Bool.false_eq_true, if_false] at hs
      rw [startRound_stopped (r := { r with started := true }) hn] at hs
      cases hs
    · rw [react_stopped hr he] at hs
      cases hs

def moments (r : Replica σ) : List (Event σ) → List (Moment σ)
  | [] => []
  | e :: es => moments (r.react e) es ++ [⟨r, e⟩]

theorem moments_run (r : Replica σ) (es : List (Event σ)) :
    Run r (r.moments es) (es.foldl react r) := by
  induction es generalizing r with
  | nil => exact .nil
  | cons e es ih => exact Run.append (.step e .nil) (ih (r.react e))

theorem event_of_mem_moments {r : Replica σ} {es : List (Event σ)} {m : Moment σ}
    (hm : m ∈ r.moments es) : m.event ∈ es := by
  induction es generalizing r with
  | nil => cases hm
  | cons e es ih =>
    rcases List.mem_append.mp hm with hm | hm
    · exact List.mem_cons_of_mem _ (ih hm)
    · rw [List.mem_singleton.mp hm]
      exact List.mem_cons_self

theorem create_spec {signer : Signer} {ledger : σ} {archive : Archive} {gossip : Gossip}
    {timer : Timer} {capacity : Nat} {r : Replica σ}
    (hc : create signer ledger archive gossip timer capacity = .ok r) :
    ∃ s, archive.snapshot ledger (Ledger.head ledger).number (Ledger.head ledger).hash =
        (.ok s, r.archive) ∧
      r.signer = signer ∧ r.ledger = ledger ∧ r.committee = s.committee ∧ r.attempt = none ∧
      r.ready = [] ∧ r.backlog = .empty capacity ∧ r.effects = [] := by
  obtain ⟨s, _, _, hs, -, rfl⟩ := create_ok hc
  exact ⟨s, hs, rfl, rfl, rfl, rfl, rfl, rfl, rfl⟩

end Replica

/-! Two validators agree on a block: the first one proposes it, and each hears what the other signs. -/

namespace Pair

open Replica

attribute [local instance] Scheme.plain

def first : Signer := .plain 1

def second : Signer := .plain 2

def genesis : Header := .genesis [1, 2] 0

def block : Block :=
  let unsealed : Block := .create
    { parentHash := genesis.hash, number := 1, timestamp := 1, marker := engineMarker, dataHash := 0
      vote := none, extra := .empty } [7]
  (unsealed.sealedBy first).getD unsealed

def unsealed : Block :=
  .create
    { parentHash := genesis.hash, number := 1, timestamp := 1, marker := engineMarker, dataHash := 0
      vote := none, extra := .empty } [9]

def subject : Subject := ⟨⟨1, 0⟩, block.hash⟩

def replica (signer : Signer) : Except HeaderFault (Replica MemoryLedger) :=
  Replica.create signer (.ofHeaders [genesis]) (.empty 100 .roundRobin 8) (.empty 8 8) (.idle 10 20) 8

theorem exists_replica {k : Signer} {P : Replica MemoryLedger → Prop} [DecidablePred P]
    (h : (replica k).toOption.any (fun start => P start) = true) :
    ∃ start, replica k = .ok start ∧ P start :=
  exists_ok h

def hear (m : Option Message) : List (Event MemoryLedger) :=
  m.toList.map fun c => .input (.message ⟨c, Wire.encode c⟩)

theorem hear_ne_replace {m : Option Message} {e : Event MemoryLedger} (he : e ∈ hear m) :
    ∀ l, e ≠ .replace l := by
  obtain ⟨c, -, rfl⟩ := List.mem_map.mp he
  simp

def Hands (m : Moment MemoryLedger) (n : Height) : Bool :=
  m.shown.any fun
    | .commit b => b.number == n
    | _ => false

theorem Hands.exists_commit {m : Moment MemoryLedger} {n : Height} (h : Hands m n = true) :
    ∃ b, .commit b ∈ m.shown ∧ b.number = n := by
  obtain ⟨e, he, hn⟩ := List.any_eq_true.mp h
  cases e with
  | commit b => exact ⟨b, he, beq_iff_eq.mp hn⟩
  | _ => cases hn

def firstEvents : List (Event MemoryLedger) :=
  [.start, .input (.request block), .process, .process] ++ hear (Message.prepare second subject) ++
    [.process] ++ hear (Message.commit second subject)

def secondEvents : List (Event MemoryLedger) :=
  [.start] ++ hear (Message.ofPreprepare first ⟨⟨1, 0⟩, block⟩) ++ [.process] ++
    hear (Message.prepare first subject) ++ [.process] ++ hear (Message.commit first subject)

def idleEvents : List (Event MemoryLedger) :=
  [.start, .input (.timeout ⟨1, 0⟩), .process] ++ hear (Message.roundChange second ⟨1, 1⟩)

theorem ne_replace {e : Event MemoryLedger} (he : e ∈ firstEvents ∨ e ∈ secondEvents) :
    ∀ l, e ≠ .replace l := by
  simp only [firstEvents, secondEvents, List.mem_append, List.mem_cons, List.not_mem_nil,
    or_false] at he
  rcases he with ((((rfl | rfl | rfl | rfl) | he) | rfl) | he) |
    ((((rfl | he) | rfl) | he) | rfl) | he
  all_goals first | exact hear_ne_replace he | simp

end Pair

end BlockAgreement
