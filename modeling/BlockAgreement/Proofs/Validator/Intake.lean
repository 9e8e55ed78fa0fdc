import BlockAgreement.Proofs.Gossip.Recency
import BlockAgreement.Proofs.Replica.Requests
import BlockAgreement.Validator

/-!
# A payload is queued once

A validator remembers the payloads that it has queued and those that its replica has gossiped, and lets
none of them into the inbox again. How many it remembers is bounded, so this holds until as many others
have come after it. A payload for which there is no room waits until there is, and is remembered then,
or it is refused, is not remembered and can come again, as the inbox is set up.
-/

set_option autoImplicit false

namespace BlockAgreement

namespace Gossip

theorem offer_known (g : Gossip) (d : Digest) (peers : List Address) :
    (g.offer d peers).2.known = g.known := by
  induction peers generalizing g with
  | nil => rfl
  | cons peer peers ih =>
    have hmark {b : Bool} {s : Gossip} (hs : g.markPeer peer d = (b, s)) : s.known = g.known :=
      congrArg (·.2.known) hs.symm
    unfold offer
    split
    · rename_i s hs
      exact (ih s).trans (hmark hs)
    · rename_i s hs
      exact (ih s).trans (hmark hs)

theorem spread_known (g : Gossip) (me : Address) (committee : Committee) (d : Digest) :
    (g.spread me committee d).2.known = (g.known.mark d).2 :=
  offer_known _ _ _

end Gossip

namespace Inbox

theorem deliver_cases (b : Inbox) (i : Input) :
    b.queue.length < b.capacity ∧ b.deliver i = (.queued, { b with queue := b.queue ++ [i] }) ∨
      b.isOpen = false ∧ b.deliver i = (.refused, b) ∨
      b.capacity ≤ b.queue.length ∧ b.deliver i = (.mustWait, b) := by
  unfold deliver
  cases b.isOpen with
  | false => exact .inr (.inl ⟨rfl, rfl⟩)
  | true =>
    by_cases hroom : b.queue.length < b.capacity
    · exact .inl ⟨hroom, by simp [hroom]⟩
    · exact .inr (.inr ⟨not_lt.mp hroom, by simp [hroom]⟩)

theorem post_of_wait (b : Inbox) (h : b.overflow = .wait) (i : Input) : b.post i = b.deliver i := by
  unfold post
  rw [h]
  split
  · rename_i heq
    cases heq
  · rfl

theorem post_cases (b : Inbox) (i : Input) :
    b.post i = (.queued, { b with queue := b.queue ++ [i] }) ∨
      (b.overflow = .wait → b.isOpen = false) ∧ b.post i = (.refused, b) ∨ b.post i = (.mustWait, b) := by
  unfold post
  rcases b.deliver_cases i with ⟨-, hd⟩ | ⟨hclosed, hd⟩ | ⟨-, hd⟩
  · exact .inl (by rw [hd])
  · exact .inr (.inl ⟨fun _ => hclosed, by rw [hd]⟩)
  · rw [hd]
    cases b.overflow with
    | wait => exact .inr (.inr rfl)
    | dropIncoming => exact .inr (.inl ⟨nofun, rfl⟩)

end Inbox

namespace Memory

variable {m n : Memory} {ds : List Digest}

theorem request_gossip (m : Memory) (b : Block) : (m.request b).gossip = m.gossip := by
  unfold request
  split
  · rfl
  · split
    · rfl
    · split <;> rfl

theorem turn_gossip (m : Memory) : m.turn.gossip = m.gossip := by
  unfold turn
  split
  · rfl
  · dsimp only
    split
    · rfl
    · exact request_gossip _ _

end Memory

namespace Validator

variable {σ : Type} [Scheme] {fresh v w u : Validator σ} {ds es : List Digest} {peer : Address}
  {p : Packet} {m : Message} {payload : Bytes} {place : Nat}

/-- The inbox takes the packet. -/
def Takes (v : Validator σ) (peer : Address) (p : Packet) : Prop := (v.intake peer p).2.2.inbox ≠ v.inbox

instance (v : Validator σ) (peer : Address) (p : Packet) : Decidable (v.Takes peer p) :=
  inferInstanceAs (Decidable (_ ≠ _))

/-- Who brings the packet has to wait. -/
def Waits (v : Validator σ) (peer : Address) (p : Packet) : Prop :=
  (v.intake peer p).2.2.waiting ≠ v.waiting

instance (v : Validator σ) (peer : Address) (p : Packet) : Decidable (v.Waits peer p) :=
  inferInstanceAs (Decidable (_ ≠ _))

/-- There is room for the message that waits at this place, and this is its payload. -/
def LetsIn (v : Validator σ) (place : Nat) (payload : Bytes) : Prop :=
  ∃ m, v.waiting[place]? = some (.message ⟨m, payload⟩) ∧
    (v.inbox.deliver (.message ⟨m, payload⟩)).1 = .queued

def hears (v : Validator σ) (peer : Address) (d : Digest) : Validator σ :=
  { v with replica := { v.replica with gossip := (v.replica.gossip.markPeer peer d).2 } }

/-- What happens between two validators, with the hashes of the payloads that are marked as known. The
last one stands first. -/
inductive Traffic (v : Validator σ) : List Digest → Validator σ → Prop where
  | nil : Traffic v [] v
  /-- A packet comes in. Its payload is marked if the inbox takes it. -/
  | packet {ds : List Digest} {w : Validator σ} (hw : Traffic v ds w) (peer : Address) (p : Packet) :
      Traffic v ((if w.Takes peer p then [hash p.unread] else []) ++ ds) (w.intake peer p).2.2
  /-- A message gets in that waited. -/
  | letIn {ds : List Digest} {w : Validator σ} (hw : Traffic v ds w) {place : Nat} {payload : Bytes}
      (hin : w.LetsIn place payload) : Traffic v (hash payload :: ds) (w.letIn place)
  /-- The replica gossips a payload. Whatever else is done may go with it. -/
  | gossip {ds : List Digest} {w u : Validator σ} (hw : Traffic v ds w) (me : Address)
      (committee : Committee) (d : Digest)
      (hu : u.replica.gossip = (w.replica.gossip.spread me committee d).2) : Traffic v (d :: ds) u
  /-- Anything else. -/
  | other {ds : List Digest} {w u : Validator σ} (hw : Traffic v ds w)
      (hu : u.replica.gossip = w.replica.gossip) : Traffic v ds u

def handed (i : Input) (receipt : Receipt) : List Digest :=
  match i, receipt with
  | .message d, .queued => [hash d.payload]
  | _, _ => []

theorem handIn_gossip (v : Validator σ) (i : Input) (answer : Receipt × Inbox) :
    (v.handIn i answer).replica.gossip =
      { v.replica.gossip with known := v.replica.gossip.known.marks (handed i answer.1) } := by
  obtain ⟨receipt, inbox⟩ := answer
  cases receipt <;> cases i <;> rfl

section Intake

variable (hs : v.replica.started = true) (hp : p.code = Packet.consensusCode)
  (hm : (Wire.decode p.unread : Except DecodeError Message) = .ok m)

include hs hp hm

theorem intake_of_known (hk : v.replica.gossip.isKnown (hash p.unread) = true) :
    v.intake peer p = (.ok true, p.read.2, v.hears peer (hash p.unread)) := by
  have hk : ((v.replica.gossip.markPeer peer (hash p.unread)).2).isKnown (hash p.unread) = true := hk
  simp [intake, hp, intakeMessage, hs, Packet.read, hm, hk, hears]

theorem intake_of_unknown (hk : v.replica.gossip.isKnown (hash p.unread) = false) :
    v.intake peer p = (.ok true, p.read.2,
      (v.hears peer (hash p.unread)).handIn (.message ⟨m, p.unread⟩)
        (v.inbox.post (.message ⟨m, p.unread⟩))) := by
  have hk : ((v.replica.gossip.markPeer peer (hash p.unread)).2).isKnown (hash p.unread) = false := hk
  simp [intake, hp, intakeMessage, hs, Packet.read, hm, hk, hears]

theorem takes_iff : v.Takes peer p ↔ v.replica.gossip.isKnown (hash p.unread) = false ∧
    (v.inbox.post (.message ⟨m, p.unread⟩)).1 = .queued := by
  unfold Takes
  cases hk : v.replica.gossip.isKnown (hash p.unread) with
  | true =>
    rw [intake_of_known hs hp hm hk]
    simp [hears]
  | false =>
    rw [intake_of_unknown hs hp hm hk, handIn_inbox]
    rcases v.inbox.post_cases (.message ⟨m, p.unread⟩) with hpost | ⟨-, hpost⟩ | hpost
    · rw [hpost]
      refine iff_of_true (fun hsame => ?_) ⟨rfl, rfl⟩
      simpa using congrArg Inbox.queue hsame
    · simp [hpost]
    · simp [hpost]

theorem waits_iff : v.Waits peer p ↔ v.replica.gossip.isKnown (hash p.unread) = false ∧
    (v.inbox.post (.message ⟨m, p.unread⟩)).1 = .mustWait := by
  unfold Waits
  cases hk : v.replica.gossip.isKnown (hash p.unread) with
  | true =>
    rw [intake_of_known hs hp hm hk]
    simp [hears]
  | false =>
    rw [intake_of_unknown hs hp hm hk, handIn_waiting]
    by_cases hwait : (v.inbox.post (.message ⟨m, p.unread⟩)).1 = .mustWait
    · simp [hwait, hears]
    · simp [hwait, hears]

end Intake

theorem intake_or (v : Validator σ) (peer : Address) (p : Packet) :
    (v.intake peer p).2.2 = v ∨ v.replica.started = true ∧ p.code = Packet.consensusCode ∧
      ∃ m, (Wire.decode p.unread : Except DecodeError Message) = .ok m := by
  by_cases hp : p.code = Packet.consensusCode
  · cases hs : v.replica.started with
    | false => exact .inl (by simp [intake, hp, intakeMessage, hs])
    | true =>
      cases hm : (Wire.decode p.unread : Except DecodeError Message) with
      | error e => exact .inl (by simp [intake, hp, intakeMessage, hs, Packet.read, hm])
      | ok m => exact .inr ⟨rfl, hp, m, rfl⟩
  · unfold intake
    rw [if_neg hp]
    split <;> exact .inl rfl

theorem intake_known (v : Validator σ) (peer : Address) (p : Packet) :
    (v.intake peer p).2.2.replica.gossip.known =
      v.replica.gossip.known.marks (if v.Takes peer p then [hash p.unread] else []) := by
  rcases intake_or v peer p with hsame | ⟨hs, hp, m, hm⟩
  · rw [if_neg fun h => h (congrArg inbox hsame), hsame]
    rfl
  · have htakes : v.Takes peer p ↔ _ := takes_iff hs hp hm
    cases hk : v.replica.gossip.isKnown (hash p.unread) with
    | true =>
      have hnot : ¬ v.Takes peer p := fun ht => nomatch hk.symm.trans (htakes.mp ht).1
      rw [if_neg hnot, intake_of_known hs hp hm hk]
      rfl
    | false =>
      rw [intake_of_unknown hs hp hm hk, handIn_gossip,
        if_congr (htakes.trans (and_iff_right hk)) rfl rfl]
      rcases v.inbox.post_cases (.message ⟨m, p.unread⟩) with hpost | ⟨-, hpost⟩ | hpost <;>
        rw [hpost] <;> rfl

theorem letIn_or (v : Validator σ) (place : Nat) :
    (∀ payload, ¬ v.LetsIn place payload) ∧ v.letIn place = v ∨
      ∃ i, v.waiting[place]? = some i ∧ v.letIn place =
        { v with waiting := v.waiting.eraseIdx place }.handIn i (v.inbox.deliver i) := by
  unfold letIn LetsIn
  cases hplace : v.waiting[place]? with
  | none => exact .inl ⟨fun payload ⟨m, hm, _⟩ => (nomatch hm), rfl⟩
  | some i =>
    by_cases hwait : (v.inbox.deliver i).1 = .mustWait
    · refine .inl ⟨?_, by simp [hwait]⟩
      rintro payload ⟨m, hm, hq⟩
      obtain rfl := Option.some.inj hm
      cases hwait.symm.trans hq
    · exact .inr ⟨i, rfl, by simp [hwait]⟩

theorem LetsIn.gossip (h : v.LetsIn place payload) : (v.letIn place).replica.gossip =
    { v.replica.gossip with known := (v.replica.gossip.known.mark (hash payload)).2 } := by
  rcases v.letIn_or place with ⟨hnone, -⟩ | ⟨i, hi, heq⟩
  · exact absurd h (hnone payload)
  · obtain ⟨m, hm, hq⟩ := h
    obtain rfl := Option.some.inj (hi.symm.trans hm)
    rw [heq, handIn_gossip, hq]
    rfl

theorem letIn_gossip (h : ∀ payload, ¬ v.LetsIn place payload) :
    (v.letIn place).replica.gossip = v.replica.gossip := by
  rcases v.letIn_or place with ⟨-, heq⟩ | ⟨i, hi, heq⟩
  · rw [heq]
  · have hnone : handed i (v.inbox.deliver i).1 = [] := by
      cases i with
      | message d =>
        rcases v.inbox.deliver_cases (.message d) with ⟨-, hd⟩ | ⟨-, hd⟩ | ⟨-, hd⟩
        · exact absurd ⟨d.message, hi, by rw [hd]⟩ (h d.payload)
        · rw [hd]
          rfl
        · rw [hd]
          rfl
      | _ => rfl
    rw [heq, handIn_gossip, hnone]
    rfl

namespace Traffic

theorem known (h : Traffic v ds w) : w.replica.gossip.known = v.replica.gossip.known.marks ds := by
  induction h with
  | nil => rfl
  | packet _ peer p ih => rw [intake_known, ih, ← Lru.marks_append]
  | letIn _ hin ih =>
    rw [hin.gossip, ih]
    rfl
  | gossip _ me committee d hu ih =>
    rw [hu, Gossip.spread_known, ih]
    rfl
  | other _ hu ih => rw [hu, ih]

theorem trans (hw : Traffic v ds w) (hu : Traffic w es u) : Traffic v (es ++ ds) u := by
  induction hu with
  | nil => exact hw
  | packet _ peer p ih =>
    rw [List.append_assoc]
    exact ih.packet peer p
  | letIn _ hin ih => exact ih.letIn hin
  | gossip _ me committee d hu ih => exact ih.gossip me committee d hu
  | other _ hu ih => exact ih.other hu

theorem steps {m n : Memory} (hw : Traffic v ds w) (hs : Memory.Steps m es n)
    (hm : m.gossip = w.replica.gossip) (hu : u.replica.gossip = n.gossip) : Traffic v (es ++ ds) u := by
  induction hs generalizing u with
  | refl => exact hw.other (hu.trans hm)
  | @step n t _ _ _ hn ih =>
    have hbefore := ih (u := { w with replica := { w.replica with gossip := n.gossip } }) rfl
    cases hn with
    | spread committee payload => exact hbefore.gossip n.me committee payload hu
    | reach => exact hbefore.other (hu.trans (Memory.turn_gossip _))
    | review => exact hbefore.other (hu.trans (Memory.turn_gossip _))

variable [Ledger σ]

theorem react (hw : Traffic v ds w) (e : Replica.Event σ) :
    ∃ es, Traffic v (es ++ ds) { w with replica := w.replica.react e } := by
  obtain ⟨es, hs⟩ := Replica.react_remembers w.replica e
  refine ⟨es, hw.steps hs ?_ rfl⟩
  unfold Replica.Moment.told
  cases Replica.Moment.requested ⟨w.replica, e⟩ with
  | none => rfl
  | some b => exact Memory.request_gossip _ b

theorem run {r : Replica σ} {h : List (Replica.Moment σ)} (hw : Traffic v ds w)
    (hr : Replica.Run w.replica h r) : ∃ es, Traffic v (es ++ ds) { w with replica := r } := by
  induction hr with
  | nil => exact ⟨[], hw⟩
  | step e _ ih =>
    obtain ⟨es, hes⟩ := ih
    obtain ⟨fs, hfs⟩ := hes.react e
    exact ⟨fs ++ es, by rwa [List.append_assoc]⟩

theorem start (hw : Traffic v ds w) : ∃ es, Traffic v (es ++ ds) w.start := by
  obtain ⟨h, hr, -⟩ := Replica.start_run w.replica
  exact hw.run hr

theorem feed (hw : Traffic v ds w) (i : Input) : ∃ es, Traffic v (es ++ ds) (w.feed i) := by
  obtain ⟨h, hr, -⟩ := Replica.handle_run w.replica i
  exact hw.run hr

omit [Ledger σ] in
theorem lets (hw : Traffic v ds w) (place : Nat) : ∃ es, Traffic v (es ++ ds) (w.letIn place) := by
  by_cases hin : ∃ payload, w.LetsIn place payload
  · obtain ⟨payload, hin⟩ := hin
    exact ⟨[hash payload], hw.letIn hin⟩
  · exact ⟨[], hw.other (letIn_gossip fun payload h => hin ⟨payload, h⟩)⟩

theorem drains (hw : Traffic v ds w) (n : Nat) : ∃ es, Traffic v (es ++ ds) (w.steps n).2 := by
  induction n generalizing ds w with
  | zero => exact ⟨[], hw⟩
  | succ n ih =>
    rw [Validator.steps]
    cases hstep : w.step? with
    | none => exact ⟨[], hw⟩
    | some u =>
      unfold step? at hstep
      split at hstep
      · cases hstep
      · rename_i i inbox _
        obtain rfl := Option.some.inj hstep
        obtain ⟨es, hes⟩ := (hw.other (u := { w with inbox }) rfl).lets 0
        obtain ⟨fs, hfs⟩ := hes.feed i
        obtain ⟨gs, hgs⟩ := ih hfs
        exact ⟨gs ++ fs ++ es, by simpa only [List.append_assoc] using hgs⟩

theorem pump (hw : Traffic v ds w) : ∃ es, Traffic v (es ++ ds) w.pump.2 := hw.drains _

end Traffic

section Waiting

/-- Everything that is still to be handled, in this order. -/
def line (v : Validator σ) : List Input := v.inbox.queue ++ v.waiting

/-- The replica reads the inbox, and nobody waits unless the inbox is full. -/
structure Serves (v : Validator σ) : Prop where
  isOpen : v.inbox.isOpen = true
  room : 0 < v.inbox.capacity
  full : v.waiting ≠ [] → v.inbox.capacity ≤ v.inbox.queue.length

theorem create_serves [Ledger σ] {settings : Settings} {signer : Signer} {ledger : σ}
    (hc : create settings signer ledger = .ok fresh) (hroom : 0 < settings.inboxCapacity) :
    fresh.Serves := by
  obtain ⟨r, -, rfl⟩ := create_ok hc
  exact ⟨rfl, hroom, fun hsome => absurd rfl hsome⟩

theorem Serves.start [Ledger σ] (h : v.Serves) : v.start.Serves := ⟨h.isOpen, h.room, h.full⟩

theorem Serves.deliver (h : v.Serves) (i : Input) :
    (v.handIn i (v.inbox.deliver i)).Serves ∧ (v.handIn i (v.inbox.deliver i)).line = v.line ++ [i] := by
  obtain ⟨hopen, hroom, hfull⟩ := h
  rcases v.inbox.deliver_cases i with ⟨hspace, hd⟩ | ⟨hclosed, -⟩ | ⟨hwait, hd⟩
  · have hnone : v.waiting = [] := by
      by_contra hsome
      exact absurd (hfull hsome) (not_le.mpr hspace)
    rw [hd]
    cases i <;>
      exact ⟨⟨hopen, hroom, fun hsome => absurd hnone hsome⟩, by simp [line, handIn, handedIn, hnone]⟩
  · exact absurd (hopen.symm.trans hclosed) nofun
  · rw [hd]
    exact ⟨⟨hopen, hroom, fun _ => hwait⟩, (List.append_assoc _ _ _).symm⟩

theorem letIn_line (hopen : v.inbox.isOpen = true) (hroom : 0 < v.inbox.capacity)
    (hfull : v.waiting ≠ [] → v.inbox.capacity ≤ v.inbox.queue.length + 1) :
    (v.letIn 0).Serves ∧ (v.letIn 0).line = v.line := by
  cases hwaiting : v.waiting with
  | nil =>
    have hsame : v.letIn 0 = v := by
      unfold letIn
      rw [hwaiting]
      rfl
    rw [hsame]
    exact ⟨⟨hopen, hroom, fun hsome => absurd hwaiting hsome⟩, rfl⟩
  | cons i rest =>
    have hlet : v.letIn 0 = if (v.inbox.deliver i).1 = .mustWait then v
        else { v with waiting := rest }.handIn i (v.inbox.deliver i) := by
      unfold letIn
      rw [hwaiting]
      rfl
    -- one input has been taken out, so there is room for the one in front and for nobody else
    have hnearly : v.inbox.capacity ≤ v.inbox.queue.length + 1 := hfull (hwaiting ▸ List.cons_ne_nil _ _)
    rcases v.inbox.deliver_cases i with ⟨-, hd⟩ | ⟨hclosed, -⟩ | ⟨hwait, hd⟩
    · rw [hlet, hd, if_neg nofun]
      cases i <;> exact ⟨⟨hopen, hroom, fun _ => hnearly.trans_eq (by simp [handIn, handedIn])⟩,
        by simp [line, handIn, handedIn, hwaiting]⟩
    · exact absurd (hopen.symm.trans hclosed) nofun
    · rw [hlet, hd, if_pos rfl]
      exact ⟨⟨hopen, hroom, fun _ => hwait⟩, rfl⟩

variable [Ledger σ]

theorem Serves.step (h : v.Serves) {i : Input} {rest : List Input} (hline : v.line = i :: rest) :
    ∃ u, v.step? = some u ∧ u.Serves ∧ u.line = rest := by
  obtain ⟨hopen, hroom, hfull⟩ := h
  cases hqueue : v.inbox.queue with
  | nil =>
    rw [line, hqueue, List.nil_append] at hline
    -- nobody waits in front of an empty inbox
    have hnone := hfull (by rw [hline]; exact List.cons_ne_nil _ _)
    rw [hqueue] at hnone
    exact absurd hnone (not_le.mpr hroom)
  | cons j queue =>
    let w : Validator σ := { v with inbox := { v.inbox with queue } }
    have hw : (w.letIn 0).Serves ∧ (w.letIn 0).line = w.line :=
      letIn_line hopen hroom fun hsome => (hfull hsome).trans_eq (by rw [hqueue]; rfl)
    rw [line, hqueue, List.cons_append] at hline
    obtain ⟨rfl, rfl⟩ := List.cons.inj hline
    refine ⟨(w.letIn 0).feed j, ?_, ⟨hw.1.isOpen, hw.1.room, hw.1.full⟩, hw.2⟩
    unfold step? Inbox.take
    rw [hqueue]
    rfl

theorem Serves.steps (h : v.Serves) {n : Nat} (hn : v.line.length = n) :
    (v.steps n).1 = n ∧ (v.steps n).2.Serves ∧ (v.steps n).2.line = [] := by
  induction n generalizing v with
  | zero => exact ⟨rfl, h, List.eq_nil_of_length_eq_zero hn⟩
  | succ n ih =>
    obtain ⟨i, rest, hline⟩ := List.exists_cons_of_length_eq_add_one hn
    obtain ⟨u, hstep, hu, hrest⟩ := h.step hline
    rw [hline, List.length_cons, ← hrest] at hn
    obtain ⟨hcount, hdone⟩ := ih hu (Nat.succ.inj hn)
    rw [Validator.steps, hstep]
    exact ⟨congrArg (· + 1) hcount, hdone⟩

theorem Serves.pump (h : v.Serves) :
    v.pump.1 = v.line.length ∧ v.pump.2.Serves ∧ v.pump.2.line = [] := by
  have hlength : v.line.length = v.inbox.queue.length + v.waiting.length := List.length_append
  rw [Validator.pump, ← hlength]
  exact h.steps rfl

end Waiting

/-- The replica gossips a payload. -/
def gossips (v : Validator σ) (payload : Bytes) : Validator σ :=
  { v with replica := v.replica.relay payload }

theorem Traffic.gossips (hw : Traffic v ds w) (payload : Bytes) :
    Traffic v (hash payload :: ds) (w.gossips payload) :=
  hw.gossip w.address w.replica.committee (hash payload)
    (congrArg Memory.gossip (Replica.relay_memory w.replica payload))

section Once

variable [Ledger σ] {settings : Settings} {signer : Signer} {ledger : σ} {before : List Digest}

theorem create_known (hc : create settings signer ledger = .ok fresh) :
    fresh.replica.gossip.known = .empty settings.messages := by
  obtain ⟨r, hr, rfl⟩ := create_ok hc
  exact congrArg (·.gossip.known) (Replica.create_memory hr)

theorem isKnown_iff (hc : create settings signer ledger = .ok fresh) (hw : Traffic fresh ds w)
    {d : Digest} :
    w.replica.gossip.isKnown d = true ↔ Lru.Fresh settings.messages ds d := by
  rw [Gossip.isKnown, hw.known, create_known hc, Lru.contains_marks]

theorem known_of_marked (hc : create settings signer ledger = .ok fresh) {d : Digest}
    (hw : Traffic fresh (ds ++ d :: before) w) (hfew : (ds.toFinset.erase d).card < settings.messages) :
    w.replica.gossip.isKnown d = true :=
  (isKnown_iff hc hw).mpr (Lru.fresh_of_few hfew)

/-- From this validator on, and until as many others have been marked as are remembered, the packet is not
queued and nothing is reported of it. -/
def Settles (messages : Nat) (p : Packet) (v : Validator σ) : Prop :=
  ∀ ds w, Traffic v ds w → w.replica.started = true →
    (ds.toFinset.erase (hash p.unread)).card < messages →
    ∀ peer, w.intake peer p = (.ok true, p.read.2, w.hears peer (hash p.unread))

theorem settles_of_marked (hc : create settings signer ledger = .ok fresh)
    (hv : Traffic fresh (hash p.unread :: before) v) (hp : p.code = Packet.consensusCode)
    (hm : (Wire.decode p.unread : Except DecodeError Message) = .ok m) :
    v.Settles settings.messages p := fun _ _ hw hs hfew _ =>
  intake_of_known hs hp hm (known_of_marked hc (hv.trans hw) hfew)

/-- A payload that the inbox has taken, at once or from one who waited, or that the replica has
gossiped, is not queued again. A payload that was refused is not known for that, and is handed in when
it comes again. An inbox that makes its senders wait refuses none: the message is in it, or waits at the
end of the line, and nothing is left of the line when the replica has handled what is there. -/
theorem queued_once (hc : create settings signer ledger = .ok fresh) (hv : Traffic fresh before v)
    (hp : p.code = Packet.consensusCode)
    (hm : (Wire.decode p.unread : Except DecodeError Message) = .ok m) :
    (∀ peer, v.Takes peer p → (v.intake peer p).2.2.Settles settings.messages p) ∧
    (∀ place, v.LetsIn place p.unread → (v.letIn place).Settles settings.messages p) ∧
    (v.gossips p.unread).Settles settings.messages p ∧
    (∀ peer, v.replica.gossip.isKnown (hash p.unread) = false → ¬ v.Takes peer p → ¬ v.Waits peer p →
      ∀ ds w, Traffic (v.intake peer p).2.2 ds w → w.replica.started = true → hash p.unread ∉ ds →
      w.replica.gossip.isKnown (hash p.unread) = false ∧
      ∀ other, w.intake other p = (.ok true, p.read.2, (w.hears other (hash p.unread)).handIn
        (.message ⟨m, p.unread⟩) (w.inbox.post (.message ⟨m, p.unread⟩)))) ∧
    ∀ peer, v.replica.gossip.isKnown (hash p.unread) = false → v.replica.started = true → v.Serves →
      v.inbox.overflow = .wait → (v.Takes peer p ∨ v.Waits peer p) ∧ (v.intake peer p).2.2.Serves ∧
      (v.intake peer p).2.2.line = v.line ++ [.message ⟨m, p.unread⟩] ∧
      (v.intake peer p).2.2.pump.2.line = [] := by
  refine ⟨fun peer ht => ?_, fun place hin => ?_, ?_, fun peer hk ht _ ds w hw hs hd => ?_,
    fun peer hk hs hserves hwait => ?_⟩
  · have harrived := hv.packet peer p
    rw [if_pos ht] at harrived
    exact settles_of_marked hc harrived hp hm
  · exact settles_of_marked hc (hv.letIn hin) hp hm
  · exact settles_of_marked hc (hv.gossips p.unread) hp hm
  · have hunknown : w.replica.gossip.isKnown (hash p.unread) = false := by
      rw [Bool.eq_false_iff] at hk ⊢
      have hrefused := hv.packet peer p
      rw [if_neg ht] at hrefused
      exact fun h =>
        hk ((isKnown_iff hc hv).mpr (((isKnown_iff hc (hrefused.trans hw)).mp h).of_append hd))
    exact ⟨hunknown, fun other => intake_of_unknown hs hp hm hunknown⟩
  · have hheard : (v.hears peer (hash p.unread)).Serves := ⟨hserves.isOpen, hserves.room, hserves.full⟩
    rw [intake_of_unknown hs hp hm hk, v.inbox.post_of_wait hwait]
    obtain ⟨hstill, hline⟩ := hheard.deliver (.message ⟨m, p.unread⟩)
    refine ⟨?_, hstill, hline, hstill.pump.2.2⟩
    rcases v.inbox.post_cases (.message ⟨m, p.unread⟩) with hpost | ⟨hclosed, -⟩ | hpost
    · exact .inl ((takes_iff hs hp hm).mpr ⟨hk, by rw [hpost]⟩)
    · exact absurd (hserves.isOpen.symm.trans (hclosed hwait)) nofun
    · exact .inr ((waits_iff hs hp hm).mpr ⟨hk, by rw [hpost]⟩)

end Once

end Validator

namespace Pair

open Validator

attribute [local instance] Scheme.plain

def busy (overflow : Overflow) : Except HeaderFault (Validator MemoryLedger) :=
  Validator.create { epoch := 100, inboxCapacity := 1, overflow, messages := 2 } first
    (.ofHeaders [genesis])

def parcel (m : Option Message) : Packet := .consensus ((m.map Wire.encode).getD [])

def proposed : Packet := parcel (Message.ofPreprepare second ⟨⟨1, 0⟩, block⟩)

def voted : Packet := parcel (Message.prepare second subject)

def loaded (v : Validator MemoryLedger) : Validator MemoryLedger := (v.start.intake 2 proposed).2.2

def relieved (v : Validator MemoryLedger) : Validator MemoryLedger :=
  let w := ((loaded v).intake 2 voted).2.2
  { w with inbox := w.inbox.take.2 }

/-- A proposal that has been taken in is not queued when it comes from another peer, and neither is one
that has been gossiped. A vote that finds the inbox full is handed in when it comes again, or it waits,
gets in when there is room and is not queued when it comes again. -/
theorem queued_once_busy : ∃ v u m, busy .dropIncoming = .ok v ∧ busy .wait = .ok u ∧
    (Wire.decode voted.unread : Except DecodeError Message) = .ok m ∧ v.start.Takes 2 proposed ∧
    ((loaded v).gossips voted.unread).intake 3 proposed =
      (.ok true, proposed.read.2, ((loaded v).gossips voted.unread).hears 3 (hash proposed.unread)) ∧
    (v.start.gossips proposed.unread).intake 3 proposed =
      (.ok true, proposed.read.2, (v.start.gossips proposed.unread).hears 3 (hash proposed.unread)) ∧
    (¬ (loaded v).Takes 2 voted ∧ ¬ (loaded v).Waits 2 voted) ∧
    (relieved v).intake 3 voted = (.ok true, voted.read.2,
      ((relieved v).hears 3 (hash voted.unread)).handIn (.message ⟨m, voted.unread⟩)
        ((relieved v).inbox.post (.message ⟨m, voted.unread⟩))) ∧
    ((loaded u).Waits 2 voted ∧ (relieved u).LetsIn 0 voted.unread) ∧
    ((relieved u).letIn 0).intake 3 voted =
      (.ok true, voted.read.2, ((relieved u).letIn 0).hears 3 (hash voted.unread)) := by
  obtain ⟨m, hm, -⟩ := exists_ok (x := (Wire.decode proposed.unread : Except DecodeError Message))
    (P := fun _ => True) (by decide +kernel)
  obtain ⟨n, hn, -⟩ := exists_ok (x := (Wire.decode voted.unread : Except DecodeError Message))
    (P := fun _ => True) (by decide +kernel)
  obtain ⟨v, hc, htakes, hloaded, hgossiped, hunknown, hfull, hrefused, hrelieved⟩ :=
    exists_ok (x := busy .dropIncoming) (P := fun v => v.start.Takes 2 proposed ∧
      ((loaded v).gossips voted.unread).replica.started = true ∧
      (v.start.gossips proposed.unread).replica.started = true ∧
      (loaded v).replica.gossip.isKnown (hash voted.unread) = false ∧ ¬ (loaded v).Takes 2 voted ∧
      ¬ (loaded v).Waits 2 voted ∧ (relieved v).replica.started = true) (by decide +kernel)
  obtain ⟨u, hu, hbegins, hfresh, hpolicy, hstarted, hnew, hwait, hnone, hnobody, hroom, hlet⟩ :=
    exists_ok (x := busy .wait)
    (P := fun u => u.start.replica.started = true ∧
      u.start.replica.gossip.isKnown (hash proposed.unread) = false ∧
      u.start.inbox.overflow = .wait ∧ (loaded u).replica.started = true ∧
      (loaded u).replica.gossip.isKnown (hash voted.unread) = false ∧
      (loaded u).inbox.overflow = .wait ∧ ¬ (loaded u).Takes 2 voted ∧
      (loaded u).waiting = [] ∧
      ((relieved u).waiting.all fun i => ((relieved u).inbox.deliver i).1 = .queued) = true ∧
      ((relieved u).letIn 0).replica.started = true) (by decide +kernel)
  obtain ⟨ds, hstart⟩ := (Traffic.nil (v := v)).start
  obtain ⟨htaken, -, hgone, -⟩ := queued_once hc hstart rfl hm
  obtain ⟨-, -, -, hagain, -⟩ := queued_once hc (hstart.packet 2 proposed) rfl hn
  obtain ⟨es, hbegun⟩ := (Traffic.nil (v := u)).start
  have hfilled : Traffic u _ (loaded u) := hbegun.packet 2 proposed
  have hcleared : Traffic u _ (relieved u) := (hfilled.packet 2 voted).other rfl
  obtain ⟨-, -, -, -, hbrought⟩ := queued_once hu hbegun rfl hm
  obtain ⟨-, hserves, -⟩ := hbrought 2 hfresh hbegins (create_serves hu Nat.one_pos).start hpolicy
  obtain ⟨-, -, -, -, hstands⟩ := queued_once hu hfilled rfl hn
  obtain ⟨-, hlets, -⟩ := queued_once hu hcleared rfl hn
  obtain ⟨hwaits, -, hline, -⟩ := hstands 2 hnew hstarted hserves hwait
  have hplace : (relieved u).waiting = [.message ⟨n, voted.unread⟩] := by
    have hsame : ((loaded u).intake 2 voted).2.2.inbox = (loaded u).inbox := not_not.mp hnone
    rw [line, line, hsame, hnobody, List.append_nil] at hline
    exact List.append_cancel_left hline
  have hin : (relieved u).LetsIn 0 voted.unread := by
    rw [hplace, List.all_cons, List.all_nil, Bool.and_true, decide_eq_true_eq] at hroom
    exact ⟨n, by rw [hplace]; rfl, hroom⟩
  refine ⟨v, u, n, hc, hu, hn, htakes, ?_, ?_, ⟨hfull, hrefused⟩, ?_,
    ⟨hwaits.resolve_left hnone, hin⟩, ?_⟩
  · have hfew : ([hash voted.unread].toFinset.erase (hash proposed.unread)).card < 2 :=
      (Finset.card_le_card (Finset.erase_subset _ _)).trans_lt
        ((List.toFinset_card_le _).trans_lt (by decide))
    exact htaken 2 htakes _ _ (Traffic.nil.gossips voted.unread) hloaded hfew 3
  · exact hgone [] _ .nil hgossiped (by decide) 3
  · exact (hagain 2 hunknown hfull hrefused [] (relieved v) (.other .nil rfl) hrelieved (by simp)).2 3
  · exact hlets 0 hin [] _ .nil hlet (by decide) 3

end Pair

end BlockAgreement
