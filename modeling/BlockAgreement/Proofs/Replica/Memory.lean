import BlockAgreement.Proofs.Replica.Shifts

/-!
# What a replica remembers beside the protocol

The block that it would propose at its height, the blocks that are held for later heights, and the
payloads that are around. Whatever happens to a replica, these change in few ways: a payload is spread,
a later height is reached, or the blocks held for the current one are looked through again. Only a
request puts a block there.
-/

set_option autoImplicit false

namespace BlockAgreement

structure Memory where
  me : Address
  height : Option Height
  /-- The block to be proposed at the height. -/
  block : Option Block
  held : SortedMap Height Block
  gossip : Gossip

namespace Memory

def request (m : Memory) (b : Block) : Memory :=
  match m.height with
  | none => m
  | some n =>
    if n < b.number then { m with held := m.held.insert b.number b }
    else if b.number < n then m
    else { m with block := some b }

def turn (m : Memory) : Memory :=
  match m.height with
  | none => m
  | some n =>
    let held := m.held.filter fun (height, _) => decide (n ≤ height)
    let m := { m with held := SortedMap.erase held n }
    match SortedMap.find? held n with
    | none => m
    | some b => m.request b

inductive Step : Memory → List Digest → Memory → Prop where
  | spread (m : Memory) (committee : Committee) (payload : Digest) :
      Step m [payload] { m with gossip := (m.gossip.spread m.me committee payload).2 }
  | reach {m : Memory} {n : Height} (hn : ∀ old ∈ m.height, old < n) :
      Step m [] { m with height := some n, block := none }.turn
  | review (m : Memory) : Step m [] m.turn

inductive Steps : Memory → List Digest → Memory → Prop where
  | refl (m : Memory) : Steps m [] m
  | step {m n t : Memory} {ds es : List Digest} (hm : Steps m ds n) (hn : Step n es t) :
      Steps m (es ++ ds) t

variable {m n t : Memory} {ds es : List Digest}

theorem Step.single (h : Step m ds n) : Steps m ds n := by
  simpa using Steps.step (.refl m) h

theorem Steps.trans (hm : Steps m ds n) (hn : Steps n es t) : Steps m (es ++ ds) t := by
  induction hn with
  | refl => exact hm
  | step _ hs ih =>
    rw [List.append_assoc]
    exact .step ih hs

end Memory

namespace Replica

open Memory

variable {σ : Type} {r s t : Replica σ} {a b : Attempt}

def memory (r : Replica σ) : Memory :=
  ⟨r.signer.address, r.view?.map (·.sequence), r.attempt.bind (·.request), r.held, r.gossip⟩

def Remembers (m : Memory) (s : Replica σ) : Prop := ∃ payloads, Steps m payloads s.memory

theorem remembers_of_eq {m : Memory} (h : s.memory = m) : Remembers m s := ⟨[], h ▸ .refl m⟩

theorem Remembers.refl (r : Replica σ) : Remembers r.memory r := remembers_of_eq rfl

theorem Remembers.trans {m : Memory} (hs : Remembers m s) (ht : Remembers s.memory t) :
    Remembers m t := by
  obtain ⟨ds, hs⟩ := hs
  obtain ⟨es, ht⟩ := ht
  exact ⟨es ++ ds, hs.trans ht⟩

theorem Remembers.of_eq {m : Memory} (hs : Remembers m s) (ht : t.memory = s.memory) : Remembers m t :=
  hs.trans (remembers_of_eq ht)

theorem attempt_memory (ha : r.attempt = some a) (hv : b.view.sequence = a.view.sequence)
    (hb : b.request = a.request) : ({ r with attempt := some b } : Replica σ).memory = r.memory := by
  simp [memory, view?, ha, hv, hb]

theorem drop_memory (r : Replica σ) (m : Message) (reason : Rejection) :
    (r.drop m reason).memory = r.memory := rfl

theorem announceView_memory (r : Replica σ) (view : View) : (r.announceView view).memory = r.memory := rfl

theorem replay_memory (r : Replica σ) : r.replay.memory = r.memory := by
  unfold replay
  split <;> rfl

theorem postpone_memory (r : Replica σ) (d : Delivery) : (r.postpone d).memory = r.memory := by
  unfold postpone
  split
  · rfl
  · split <;> rfl

theorem extendTime_memory (r : Replica σ) (phase : Phase) : (r.extendTime phase).memory = r.memory := by
  unfold extendTime
  split
  · split <;> rfl
  · rfl

theorem catchUp_memory {view : View} (hv : ∀ old ∈ r.view?, view.sequence = old.sequence)
    (ha : r.attempt ≠ none) : (r.catchUp view).memory = r.memory := by
  obtain ⟨a, ha⟩ := Option.ne_none_iff_exists'.mp ha
  have hseq : view.sequence = a.view.sequence := hv _ (view?_of_attempt ha)
  simp [memory, catchUp, view?, ha, hseq, Attempt.next, Attempt.start]

section Sending

variable [Scheme]

theorem relay_memory (r : Replica σ) (payload : Bytes) : (r.relay payload).memory =
    { r.memory with
      gossip := (r.gossip.spread r.signer.address r.committee (hash payload)).2 } := by
  have hsent (recipients : List Address) (s : Replica σ) :
      (recipients.foldl (fun s a => s.emit (.send a payload)) s).memory = s.memory := by
    induction recipients generalizing s with
    | nil => rfl
    | cons a recipients ih => exact ih _
  unfold relay
  dsimp only
  rw [hsent]
  rfl

theorem relay_remembers (r : Replica σ) (payload : Bytes) : Remembers r.memory (r.relay payload) := by
  refine ⟨[hash payload], ?_⟩
  rw [relay_memory]
  exact (Step.spread r.memory r.committee (hash payload)).single

theorem broadcast_remembers (r : Replica σ) (m : Option Message) (notice : Notice) :
    Remembers r.memory (r.broadcast m notice) := by
  cases m with
  | none => exact .refl r
  | some c => exact (relay_remembers (r.emit (.broadcast c)) (Wire.encode c)).of_eq rfl

theorem sendPreprepare_remembers (r : Replica σ) (b : Block) :
    Remembers r.memory (r.sendPreprepare b) := by
  unfold sendPreprepare
  split
  · exact .refl r
  · split
    · exact broadcast_remembers r _ _
    · exact .refl r

theorem sendPrepare_remembers (r : Replica σ) : Remembers r.memory r.sendPrepare := by
  unfold sendPrepare
  split
  · exact .refl r
  · exact broadcast_remembers r _ _

theorem sendCommitFor_remembers (r : Replica σ) (x : Subject) : Remembers r.memory (r.sendCommitFor x) :=
  broadcast_remembers r _ _

theorem sendCommit_remembers (r : Replica σ) : Remembers r.memory r.sendCommit := by
  unfold sendCommit
  split
  · exact .refl r
  · exact sendCommitFor_remembers r _

theorem handleRequest_remembers (r : Replica σ) (b : Block) :
    Remembers (r.memory.request b) (r.handleRequest b) := by
  unfold handleRequest
  cases ha : r.attempt with
  | none => exact remembers_of_eq (by simp [Memory.request, memory, view?, ha])
  | some a =>
    dsimp only
    split
    · rename_i hlater
      exact remembers_of_eq (by simp [Memory.request, memory, view?, ha, hlater])
    · rename_i hlater
      split
      · rename_i hearlier
        exact remembers_of_eq (by simp [Memory.request, memory, view?, ha, hlater, hearlier])
      · rename_i hearlier
        have hasked : ({ r with attempt := some { a with request := some b } } : Replica σ).memory =
            r.memory.request b := by simp [Memory.request, memory, view?, ha, hlater, hearlier]
        split
        · rw [← hasked]
          exact sendPreprepare_remembers _ b
        · exact remembers_of_eq hasked

theorem takeHeld_remembers (r : Replica σ) : Remembers r.memory.turn r.takeHeld := by
  unfold takeHeld Memory.turn
  cases hv : r.view? with
  | none => exact remembers_of_eq (by simp [memory, hv])
  | some view =>
    split
    · rename_i hnone
      simp [memory, hv] at hnone
    · rename_i n hn
      obtain rfl : view.sequence = n := by simpa [memory, hv] using hn
      have hheld : r.memory.held = r.held := rfl
      simp only [hheld]
      generalize r.held.filter (fun e => decide (view.sequence ≤ e.1)) = held
      cases SortedMap.find? held view.sequence with
      | none => exact remembers_of_eq rfl
      | some b =>
        exact handleRequest_remembers { r with held := SortedMap.erase held view.sequence } b

theorem proposeAgain_remembers (r : Replica σ) : Remembers r.memory r.proposeAgain := by
  unfold proposeAgain
  split
  · split
    · exact .refl r
    · exact sendPreprepare_remembers r _
  · exact .refl r

theorem beginPhase_remembers (r : Replica σ) : Remembers r.memory.turn (r.enterPhase .newRound) := by
  have hphase : ({ r.extendTime .newRound with phase := .newRound } : Replica σ).memory = r.memory :=
    extendTime_memory r .newRound
  unfold enterPhase
  dsimp only
  rw [if_pos rfl, ← hphase]
  exact (takeHeld_remembers _).of_eq (replay_memory _)

theorem enterPhase_memory (r : Replica σ) {phase : Phase} (hp : phase ≠ .newRound) :
    (r.enterPhase phase).memory = r.memory := by
  unfold enterPhase
  dsimp only
  rw [if_neg hp, replay_memory]
  exact extendTime_memory r phase

theorem sendRoundChange_remembers (r : Replica σ) (round : Round) :
    Remembers r.memory (r.sendRoundChange round) := by
  unfold sendRoundChange
  cases hv : r.view? with
  | none => exact .refl r
  | some view =>
    dsimp only
    split
    · have hcatch : (r.catchUp ⟨view.sequence, round⟩).memory = r.memory := by
        refine catchUp_memory (by simp [hv]) fun hnone => ?_
        simp [view?, hnone] at hv
      rw [← hcatch]
      exact broadcast_remembers _ _ _
    · exact .refl r

theorem sendNextRoundChange_remembers (r : Replica σ) :
    Remembers r.memory r.sendNextRoundChange := by
  unfold sendNextRoundChange
  split
  · exact .refl r
  · exact sendRoundChange_remembers r _

theorem voting_memory (archive : Archive) (ha : r.attempt = some a) (hv : b.view = a.view)
    (hb : b.request = a.request) {phase : Phase} (hp : phase ≠ .newRound) :
    (r.voting archive b phase).memory = r.memory := by
  have hattempt : ({ r with archive, attempt := some b } : Replica σ).memory = r.memory :=
    attempt_memory ha (congrArg View.sequence hv) hb
  exact (enterPhase_memory _ hp).trans hattempt

theorem voting_remembers (archive : Archive) (ha : r.attempt = some a) (hv : b.view = a.view)
    (hb : b.request = a.request) {phase : Phase} (hp : phase ≠ .newRound)
    (hs : Remembers (r.voting archive b phase).memory s) : Remembers r.memory s :=
  voting_memory archive ha hv hb hp ▸ hs

theorem decided_memory {x : Block} (ha : r.attempt = some a) (hv : b.view = a.view)
    (hb : b.request = a.request) : (r.decided b x).memory = r.memory := by
  have hphase : (r.voting r.archive { b with lock := some x.hash } .committed).memory = r.memory :=
    voting_memory (b := { b with lock := some x.hash }) r.archive ha hv hb (by decide)
  exact hphase

theorem released_memory {x : Block} (ha : r.attempt = some a) (hv : b.view = a.view)
    (hb : b.request = a.request) : (r.released b x).memory = r.memory := by
  have hreleased : (r.released b x).memory = (r.decided b x).memory :=
    attempt_memory (decided_attempt r b x) (by rfl) (by rfl)
  exact hreleased.trans (decided_memory ha hv hb)

theorem enterView_reaches (r : Replica σ) (head : Header) (hb : b.request = none)
    (hlater : ∀ old ∈ r.view?, old.sequence < b.view.sequence) :
    Remembers r.memory (r.enterView head b) := by
  have hentered : (r.entering head b).memory =
      { r.memory with height := some b.view.sequence, block := none } := by
    simp [memory, entering, view?, hb]
  have hreach : Step r.memory [] (r.entering head b).memory.turn := by
    rw [hentered]
    refine .reach fun old hold => ?_
    obtain ⟨view, hv, rfl⟩ := Option.map_eq_some_iff.mp hold
    exact hlater view hv
  obtain ⟨payloads, hsteps⟩ := beginPhase_remembers (r.entering head b)
  exact ⟨_, hreach.single.trans hsteps⟩

theorem enterView_reviews (head : Header) (ha : r.attempt = some a)
    (hv : b.view.sequence = a.view.sequence) (hb : b.request = a.request) :
    Remembers r.memory (r.enterView head b) := by
  have hentered : (r.entering head b).memory = r.memory := attempt_memory ha hv hb
  obtain ⟨payloads, hsteps⟩ := beginPhase_remembers (r.entering head b)
  rw [hentered] at hsteps
  exact ⟨_, (Step.review r.memory).single.trans hsteps⟩

theorem changeRound_remembers (head : Header) (ha : r.attempt = some a) (round : Round) :
    Remembers r.memory (r.changeRound head a round) := by
  have hentered := enterView_reviews (b := a.next ⟨a.view.sequence, round⟩ r.committee) head ha rfl rfl
  exact (hentered.trans (proposeAgain_remembers _)).of_eq (announceView_memory _ _)

variable [Ledger σ]

theorem startSequence_remembers (r : Replica σ) (head : Header) {sequence : Height}
    (hlater : ∀ old ∈ r.view?, old.sequence < sequence) :
    Remembers r.memory (r.startSequence head sequence) := by
  obtain ⟨archive, committee, new, he, -⟩ := refreshCommittee_eq r head
  have hrefreshed : (r.refreshCommittee head).memory = r.memory := by
    rw [he]
    rfl
  have hview : (r.refreshCommittee head).view? = r.view? := by
    rw [he]
    rfl
  have hentered := enterView_reaches (r.refreshCommittee head) head
    (b := .start ⟨sequence, 0⟩ (r.refreshCommittee head).committee) rfl (hview ▸ hlater)
  rw [hrefreshed] at hentered
  exact hentered.of_eq (announceView_memory _ _)

theorem startRound_remembers (r : Replica σ) (round : Round) :
    Remembers r.memory (r.startRound round) := by
  refine startRound_induction r round (fun sequence hn hle => ?_) (fun a ha _ _ _ => ?_)
    (fun _ _ _ _ _ _ => .refl r) fun _ => .refl r
  · exact startSequence_remembers r _ fun old hold =>
      UInt64.lt_of_le_of_lt (hle old hold) (lt_of_next? hn)
  · exact changeRound_remembers _ ha round

theorem finalized_remembers {x : Block} {ledger : σ} (ha : r.attempt = some a) (hv : b.view = a.view)
    (hb : b.request = a.request) :
    Remembers r.memory ((r.finalized b x ledger).startRound 0) := by
  have hfinalized : (r.finalized b x ledger).memory = r.memory := decided_memory (x := x) ha hv hb
  exact hfinalized ▸ startRound_remembers (r.finalized b x ledger) 0

theorem Treats.remembers {m : Message} {v : Except Rejection Unit} (h : r.Treats m v s) :
    Remembers r.memory s := by
  cases h with
  | refuse => exact .refl r
  | consult => exact .refl r
  | @answer _ _ _ archive => exact sendCommitFor_remembers { r with archive } _
  | @object _ archive => exact sendNextRoundChange_remembers { r with archive }
  | accept hp =>
    exact voting_remembers _ hp.attempt (by rfl) (by rfl) (by decide) (sendPrepare_remembers _)
  | support hp =>
    exact voting_remembers _ hp.attempt (by rfl) (by rfl) (by decide) (sendCommit_remembers _)
  | countPrepare hc => exact remembers_of_eq (attempt_memory hc.attempt (by rfl) (by rfl))
  | lock hc => exact voting_remembers _ hc.attempt (by rfl) (by rfl) (by decide) (sendCommit_remembers _)
  | countCommit hc => exact remembers_of_eq (attempt_memory hc.attempt (by rfl) (by rfl))
  | finalize hc => exact finalized_remembers hc.attempt (by rfl) (by rfl)
  | @release a x commits fault hc =>
    have hreleased : (r.released { a with commits } x).memory = r.memory :=
      released_memory hc.attempt (by rfl) (by rfl)
    exact hreleased ▸ sendNextRoundChange_remembers (r.released { a with commits } x)
  | tally => exact .refl r
  | @join _ round =>
    exact sendRoundChange_remembers { r with roundChanges := (r.roundChanges.add round m).2 } round
  | @enter _ round =>
    exact startRound_remembers { r with roundChanges := (r.roundChanges.add round m).2 } round

theorem receive_remembers (r : Replica σ) (d : Delivery) : Remembers r.memory (r.receive d) := by
  refine receive_induction r d (process_treats r d.message).remembers (fun s hs => ?_)
    (fun s _ _ hs => ?_)
    fun s e hs => hs.of_eq (drop_memory s _ e)
  · exact hs.trans (relay_remembers s _)
  · exact hs.of_eq (postpone_memory s d)

theorem handleTimeout_remembers (r : Replica σ) (view : View) :
    Remembers r.memory (r.handleTimeout view) :=
  handleTimeout_induction r view (fun _ => .refl r)
    (fun round _ _ _ _ => sendRoundChange_remembers (r.notify _) round)
    (fun _ _ => startRound_remembers (r.notify _) 0)
    fun _ _ _ => sendNextRoundChange_remembers (r.notify _)

/-- The block that the replica is asked to propose. -/
def Moment.requested (m : Moment σ) : Option Block :=
  if m.before.started then
    match m.event with
    | .input (.request b) => some b
    | _ => none
  else none

def Moment.told (m : Moment σ) : Memory := m.requested.elim m.before.memory m.before.memory.request

/-- Whatever happens to a replica, what it remembers changes by steps alone, a request apart. -/
theorem react_remembers (r : Replica σ) (e : Event σ) :
    Remembers (Moment.told ⟨r, e⟩) (r.react e) := by
  unfold Moment.told Moment.requested react
  cases e with
  | start =>
    simp only [ite_self, Option.elim_none]
    split
    · exact .refl r
    · exact startRound_remembers { r with started := true } 0
  | stop =>
    simp only [ite_self, Option.elim_none]
    exact .refl r
  | input i =>
    dsimp only
    split
    · cases i with
      | request b => exact handleRequest_remembers r b
      | message d => exact receive_remembers r d
      | timeout view => exact handleTimeout_remembers r view
      | headMoved => exact startRound_remembers r 0
    · cases i with
      | message d => exact .refl r
      | _ => exact .refl r
  | process =>
    simp only [ite_self, Option.elim_none]
    cases ha : r.advance with
    | none => exact .refl r
    | some s =>
      obtain ⟨d, ready, -, -, rfl⟩ := advance_eq_some ha
      exact receive_remembers { r with ready } d
  | lookup number hash =>
    simp only [ite_self, Option.elim_none]
    exact .refl r
  | replace ledger =>
    simp only [ite_self, Option.elim_none]
    exact .refl r

end Sending

end Replica

end BlockAgreement
