import BlockAgreement.Proofs.Replica.Settling

/-!
# Messages that are refused

A message that is refused is refused before the replica acts on it. All that can come of it is that it
waits in the backlog, if it came too early, that it counts as a request, if the round that it asks for is
yet to come, and that it is reported as dropped.
-/

set_option autoImplicit false

namespace BlockAgreement

/-- The reasons for which a message is refused. The others come from acting on a message: a proposal that
is not valid makes the replica ask for the next round, and the ledger is asked about a block only when
that is decided. -/
def Rejection.isRefusal : Rejection → Bool
  | .oldMessage | .futureMessage | .futureRound | .inconsistentSubject | .notFromProposer
  | .invalidMessage | .unauthorizedAddress => true
  | .invalidProposal _ | .stoppedEngine | .ledger _ => false

theorem RoundChanges.count_add {rc : RoundChanges} {round : Round} {m : Message} {fault : PollFault}
    (h : (rc.add round m).1 = .error fault) (other : Round) :
    (rc.add round m).2.count other = rc.count other := by
  rw [count, poll_add]
  split
  · rename_i hround
    subst hround
    unfold RoundChanges.add at h
    split at h
    · cases h
    · rename_i hp
      rw [hp]
      rfl
  · rfl

namespace Replica

variable {σ : Type} [Scheme] [Ledger σ] {r s : Replica σ} {m : Message} {e : Rejection}

/-- The requests for rounds count as before, or the message was counted and its round is yet to come. -/
def Requested (rc : RoundChanges) (m : Message) (e : Rejection) (new : RoundChanges) : Prop :=
  (∀ round, new.count round = rc.count round) ∨
    e = .futureRound ∧ ∃ x, m.subject = .ok x ∧ new = (rc.add x.view.round m).2

/-- A message that is refused leaves the replica as it was, but for what it looked up in the archive and
a request that counts. -/
theorem Treats.refused (h : r.Treats m (.error e) s) (he : e.isRefusal) :
    ∃ archive roundChanges, s = { r with archive, roundChanges } ∧
      Requested r.roundChanges m e roundChanges := by
  have hsame : Requested r.roundChanges m e r.roundChanges := .inl fun _ => rfl
  cases h with
  | refuse => exact ⟨r.archive, r.roundChanges, rfl, hsame⟩
  | @consult _ archive => exact ⟨archive, r.roundChanges, rfl, hsame⟩
  | object _ _ _ hv =>
    obtain ⟨fault, hv⟩ := hv.resolve_left (by simp)
    obtain rfl := Except.error.inj hv
    cases he
  | release => cases he
  | tally ha _ _ hv =>
    refine ⟨r.archive, _, rfl, ?_⟩
    rcases hv with hv | hv | ⟨-, fault, hfault⟩
    · cases hv
    · obtain ⟨digest, hx⟩ := ha.request.subject
      exact .inr ⟨Except.error.inj hv, _, hx, rfl⟩
    · exact .inl (RoundChanges.count_add hfault)

theorem process_forged (hm : m.verify ≠ .ok () ∨ m.sender ∉ r.committee.members) :
    r.process m = (.error .invalidMessage, r) ∨ r.process m = (.error .unauthorizedAddress, r) := by
  unfold process
  split
  · exact .inl rfl
  · rename_i hv
    have hmember : r.committee.contains m.sender = false := by
      rw [Bool.eq_false_iff, Ne, Committee.contains_iff]
      exact hm.resolve_left fun h => h hv
    rw [hmember]
    exact .inr rfl

theorem process_eq (hv : m.verify = .ok ()) (hm : m.sender ∈ r.committee.members) :
    r.process m = match m.kind with
      | .preprepare => r.handlePreprepare m
      | .prepare => r.handlePrepare m
      | .commit => r.handleCommit m
      | .roundChange => r.handleRoundChange m := by
  have hmember : r.committee.contains m.sender = true := Committee.contains_iff.mpr hm
  cases hk : m.kind <;> simp [process, hv, hmember, hk]

omit [Scheme] [Ledger σ] in
theorem postpone_eq (r : Replica σ) (d : Delivery) :
    r.postpone d = r.drop d.message .futureMessage ∨
      ∃ view backlog, d.message.view = .ok view ∧ r.backlog.insert view d = (true, backlog) ∧
        r.postpone d = { r with backlog } := by
  unfold postpone
  split
  · exact .inl rfl
  · rename_i view hview
    split
    · rename_i backlog hins
      exact .inr ⟨view, backlog, hview, hins, rfl⟩
    · exact .inl rfl

theorem receive_acted {d : Delivery} {s : Replica σ} (h : r.process d.message = (.ok (), s)) :
    ∃ gossip sends, r.receive d = { s with gossip, effects := sends ++ s.effects } ∧
      ∀ e ∈ sends, ∃ a, e = .send a d.payload := by
  unfold receive
  simp only [h]
  split
  · exact ⟨s.gossip, [], rfl, by simp⟩
  · exact relay_eq s d.payload

theorem receive_error {d : Delivery} {s : Replica σ} (h : r.process d.message = (.error e, s)) :
    r.receive d = s.drop d.message e ∨ e = .futureMessage ∧
      ∃ view backlog, d.message.view = .ok view ∧ s.backlog.insert view d = (true, backlog) ∧
        r.receive d = { s with backlog } := by
  unfold receive
  simp only [h]
  split
  · rename_i hok
    cases hok
  · rename_i hfuture
    cases hfuture
    split
    · exact .inl rfl
    · exact (postpone_eq s d).imp_right fun hpost => ⟨rfl, hpost⟩
  · rename_i herr
    cases herr
    exact .inl rfl

/-- The message itself waits in the backlog, having come too early, and nothing else happens to the
backlog. -/
def Postponed (b : Backlog) (d : Delivery) (e : Rejection) (new : Backlog) : Prop :=
  new = b ∨ e = .futureMessage ∧ ∃ view, d.message.view = .ok view ∧ b.insert view d = (true, new)

theorem receive_refused {d : Delivery} (h : (r.process d.message).1 = .error e) (he : e.isRefusal) :
    ∃ archive backlog roundChanges shown,
      r.receive d = { r with archive, backlog, roundChanges, effects := shown ++ r.effects } ∧
      (∀ x ∈ shown,
        x = .notify (.dropMessage d.message.sender d.message.kind (toString e))) ∧
      Postponed r.backlog d e backlog ∧ Requested r.roundChanges d.message e roundChanges := by
  obtain ⟨archive, roundChanges, hs, hreq⟩ := (treats_of_eq (Prod.ext h rfl)).refused he
  rcases receive_error (Prod.ext h hs) with hr | ⟨rfl, view, backlog, hv, hins, hr⟩
  · exact ⟨archive, r.backlog, roundChanges, [_], hr, by simp, .inl rfl, hreq⟩
  · exact ⟨archive, backlog, roundChanges, [], hr, by simp, .inr ⟨rfl, view, hv, hins⟩, hreq⟩

theorem settled_of_advance (h : r.advance = none) : r.settled = r := by
  unfold settled
  cases r.settleLimit with
  | zero => rfl
  | succ steps => rw [settle, h]

theorem settled_eq (hr : r.ready = []) : r.settled = r :=
  settled_of_advance (advance_eq_none.mpr (.inr hr))

theorem settled_of_stopped (hs : r.started = false) : r.settled = r :=
  settled_of_advance (advance_eq_none.mpr (.inl hs))

theorem receive_forged {d : Delivery}
    (hd : d.message.verify ≠ .ok () ∨ d.message.sender ∉ r.committee.members) :
    ∃ e, e.isRefusal = true ∧ (r.process d.message).1 = .error e ∧
      r.receive d = r.drop d.message e := by
  rcases process_forged hd with hp | hp
  · exact ⟨_, rfl, congrArg Prod.fst hp, (receive_error hp).resolve_right (by simp)⟩
  · exact ⟨_, rfl, congrArg Prod.fst hp, (receive_error hp).resolve_right (by simp)⟩

/-- Of a message that is refused, for whatever reason, the replica keeps nothing but a message that came
too early and a request for a round that is yet to come. It relays and broadcasts nothing, and neither its
place in the protocol nor its ledger changes. With a message that is forged or comes from a stranger, it
does no more than to report it. -/
theorem refused_changes_nothing (r : Replica σ) (d : Delivery) :
    (∀ e, (r.process d.message).1 = .error e → e.isRefusal = true →
      ∃ archive backlog roundChanges shown,
        r.receive d = { r with archive, backlog, roundChanges, effects := shown ++ r.effects } ∧
        (∀ x ∈ shown,
          x = .notify (.dropMessage d.message.sender d.message.kind (toString e))) ∧
        Postponed r.backlog d e backlog ∧ Requested r.roundChanges d.message e roundChanges ∧
        (r.started = true → r.ready = [] → r.handle (.message d) = r.receive d)) ∧
    (d.message.verify ≠ .ok () ∨ d.message.sender ∉ r.committee.members →
      ∃ e, e.isRefusal = true ∧ (r.process d.message).1 = .error e ∧
        r.receive d = r.drop d.message e) := by
  refine ⟨fun e h he => ?_, receive_forged⟩
  obtain ⟨archive, backlog, roundChanges, shown, hr, hshown, hb, hreq⟩ := receive_refused h he
  refine ⟨archive, backlog, roundChanges, shown, hr, hshown, hb, hreq, fun hs hready => ?_⟩
  simp only [handle, hs, if_true, dispatch]
  exact settled_eq (by rw [hr]; exact hready)

end Replica

namespace Pair

open Replica

attribute [local instance] Scheme.plain

/-- The first validator hears the second one's Prepare before there is a proposal. -/
theorem refused_changes_nothing_early : ∃ start, replica first = .ok start ∧
    ∃ c, Message.prepare second subject = some c ∧
      ((start.react .start).process c).1 = .error .futureMessage ∧
      ∃ archive backlog roundChanges shown,
        (start.react .start).handle (.message ⟨c, Wire.encode c⟩) =
          { start.react .start with
            archive, backlog, roundChanges, effects := shown ++ (start.react .start).effects } := by
  obtain ⟨start, hstart, hstarted, hready, hsome, hp⟩ := exists_replica (k := first)
    (P := fun start => (start.react .start).started = true ∧ (start.react .start).ready = [] ∧
      (Message.prepare second subject).isSome ∧
      ∀ c ∈ Message.prepare second subject,
        ((start.react .start).process c).1 = .error .futureMessage) (by decide +kernel)
  obtain ⟨c, hc⟩ := Option.isSome_iff_exists.mp hsome
  obtain ⟨archive, backlog, roundChanges, shown, hr, -, -, -, hhandle⟩ :=
    (refused_changes_nothing (start.react .start) ⟨c, Wire.encode c⟩).1 .futureMessage (hp c hc) rfl
  exact ⟨start, hstart, c, hc, hp c hc, archive, backlog, roundChanges, shown,
    (hhandle hstarted hready).trans hr⟩

end Pair

end BlockAgreement
