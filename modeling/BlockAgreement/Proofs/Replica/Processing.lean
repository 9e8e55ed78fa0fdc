import BlockAgreement.Proofs.Governance.Validity
import BlockAgreement.Proofs.Replica.Moves

/-!
# What comes of a message

A message that a replica processes is refused, or one thing is done about it, of which there is one
constructor for each. What is to be shown of every message is shown of these.
-/

set_option autoImplicit false

namespace BlockAgreement

theorem View.eq_of_not_lt {u v : View} (h : ¬ u < v) (h' : ¬ v < u) : u = v := by
  rw [lt_iff, not_or, not_and] at h h'
  have hs : u.sequence = v.sequence :=
    UInt64.le_antisymm (UInt64.not_lt.mp h'.1) (UInt64.not_lt.mp h.1)
  have hr : u.round = v.round :=
    UInt64.le_antisymm (UInt64.not_lt.mp (h'.2 hs.symm)) (UInt64.not_lt.mp (h.2 hs))
  cases u
  cases v
  exact congr (congrArg View.mk hs) hr

inductive Message.Names (m : Message) : View → Prop where
  | proposal {p : Preprepare} (hk : m.kind = .preprepare) (hp : m.preprepare = .ok p) : m.Names p.view
  | subject {x : Subject} (hk : m.kind ≠ .preprepare) (hx : m.subject = .ok x) : m.Names x.view

section Check

variable {current view : View} {waiting : Bool} {phase : Phase} {kind : MessageKind}

theorem checkView_ok (hk : kind ≠ .roundChange)
    (h : checkView current waiting phase kind view = .ok ()) :
    view = current ∧ waiting = false ∧ (phase = .newRound → kind = .preprepare) := by
  unfold checkView at h
  rw [if_neg hk] at h
  split at h
  · cases h
  · rename_i hlt
    split at h
    · cases h
    · rename_i hgt
      split at h
      · cases h
      · rename_i hw
        split at h
        · cases h
        · rename_i hp
          refine ⟨View.eq_of_not_lt hgt hlt, by simpa using hw, fun hn => ?_⟩
          exact Decidable.byContradiction fun hne => hp ⟨hn, hne⟩

theorem checkView_old (hk : kind ≠ .roundChange)
    (h : checkView current waiting phase kind view = .error .oldMessage) : view < current := by
  unfold checkView at h
  rw [if_neg hk] at h
  split at h
  · cases h
  · split at h
    · assumption
    · split at h
      · cases h
      · split at h <;> cases h

end Check

namespace Replica

variable {σ : Type} {r s : Replica σ} {m : Message} {view : View} {kind : MessageKind}

theorem checkMessage_ok (hk : kind ≠ .roundChange) (h : r.checkMessage kind view = .ok ()) :
    ∃ a, r.attempt = some a ∧ view = a.view ∧ r.waiting = false ∧
      (r.phase = .newRound → kind = .preprepare) := by
  rcases Option.eq_none_or_eq_some r.attempt with ha | ⟨a, ha⟩
  · simp [checkMessage, view?, ha] at h
  · simp only [checkMessage, view?_of_attempt ha] at h
    exact ⟨a, ha, checkView_ok hk h⟩

theorem checkMessage_old (hk : kind ≠ .roundChange) (h : r.checkMessage kind view = .error .oldMessage) :
    ∃ a, r.attempt = some a ∧ view < a.view := by
  rcases Option.eq_none_or_eq_some r.attempt with ha | ⟨a, ha⟩
  · simp [checkMessage, view?, ha] at h
  · simp only [checkMessage, view?_of_attempt ha] at h
    exact ⟨a, ha, checkView_old hk h⟩

theorem checkMessage_roundChange {current : View} (hv : r.view? = some current)
    (h : r.checkMessage .roundChange view = .ok ()) :
    view.sequence = current.sequence ∧ ¬ view.round < current.round := by
  simp only [checkMessage, hv, checkView, if_true] at h
  split at h
  · cases h
  · rename_i hgt
    split at h
    · cases h
    · rename_i hlt
      rw [View.lt_iff, not_or, not_and] at hlt
      have hs : view.sequence = current.sequence :=
        UInt64.le_antisymm (UInt64.not_lt.mp hgt) (UInt64.not_lt.mp hlt.1)
      exact ⟨hs, hlt.2 hs⟩

variable [Scheme]

theorem checkSubject_ok {x : Subject} (hc : r.stance.Admits m) (hk : m.kind = kind)
    (hr : kind = .prepare ∨ kind = .commit) (h : r.checkSubject m = .ok x) :
    ∃ a b, r.stance.Counts a b kind m ∧ x = ⟨a.view, b.hash⟩ := by
  unfold checkSubject at h
  split at h
  · cases h
  · rename_i t ht
    rcases hcm : r.checkMessage m.kind t.view with e | u
    · rw [hcm] at h
      cases h
    · rw [hcm] at h
      replace h : (if r.attempt.bind (·.subject) = some t then pure t else .error .inconsistentSubject
          : Except Rejection Subject) = .ok x := h
      split at h
      · rename_i hb
        obtain rfl : t = x := Except.ok.inj h
        obtain ⟨a, ha, hv, hw, hp⟩ := checkMessage_ok (by rcases hr with rfl | rfl <;> simp [hk]) hcm
        rw [ha, Option.bind_some, Attempt.subject, Option.map_eq_some_iff] at hb
        obtain ⟨b, hb, rfl⟩ := hb
        refine ⟨a, b, { toAdmits := hc, attempt := ha, kind := hk, proposal := hb, subject := ht
                        active := hw, proposed := fun hn => ?_ }, rfl⟩
        rcases hr with rfl | rfl <;> simpa [hk] using hp hn
      · cases h

theorem checkSubject_early (hk : m.kind ≠ .preprepare) (h : r.checkSubject m = .error .futureMessage) :
    ∃ view, m.Names view ∧ r.checkMessage m.kind view = .error .futureMessage := by
  unfold checkSubject at h
  split at h
  · cases h
  · rename_i x hx
    cases hc : r.checkMessage m.kind x.view with
    | error e =>
      rw [hc] at h
      obtain rfl := Except.error.inj (h : Except.error e = .error .futureMessage)
      exact ⟨x.view, .subject hk hx, hc⟩
    | ok u =>
      rw [hc] at h
      have h : (if r.attempt.bind (·.subject) = some x then pure x else .error .inconsistentSubject
        : Except Rejection Subject) = .error .futureMessage := h
      split at h <;> cases h

theorem locked_eq {a : Attempt} {b : Block} (hb : a.proposal = some b) :
    a.locked = { a with lock := some b.hash } := by
  simp [Attempt.locked, hb]

theorem acceptProposal_eq {a : Attempt} (ha : r.attempt = some a) (p : Preprepare) :
    r.acceptProposal p =
      if a.lock = none then
        ({ r with attempt := some { a with preprepare := some p } }.enterPhase
          .preprepared).sendPrepare
      else if a.lock = some p.proposal.hash then
        ({ r with attempt := some { a with preprepare := some p } }.enterPhase .prepared).sendCommit
      else r.sendNextRoundChange := by
  unfold acceptProposal
  simp only [ha]
  cases hl : a.lock with
  | none => rfl
  | some lock => simp

variable [Ledger σ]

theorem verifyProposal_spec (r : Replica σ) (b : Block) :
    ∃ archive, (r.verifyProposal b).2 = { r with archive } ∧
      Archive.Consulted r.ledger r.archive archive ∧
      ((r.verifyProposal b).1 = .ok () → ∀ a ∈ r.attempt, b.number = a.view.sequence ∧
        b.header.parentHash = (Ledger.head r.ledger).hash ∧
        HeaderRules.verifyProposal r.ledger r.archive b = (.ok (), archive)) := by
  rcases Option.eq_none_or_eq_some r.attempt with ha | ⟨a, ha⟩
  · have hv : r.verifyProposal b = (.error .stoppedEngine, r) := by
      simp [verifyProposal, view?, ha]
    exact ⟨r.archive, by rw [hv], .inl rfl, by simp [hv]⟩
  · simp only [verifyProposal, view?_of_attempt ha]
    split
    · rename_i hb
      refine ⟨_, rfl, Archive.verifyProposal_consulted r.archive r.ledger b, fun hok c hc => ?_⟩
      obtain rfl := Option.some.inj (ha.symm.trans hc)
      exact ⟨hb.1, hb.2, Prod.ext hok rfl⟩
    · exact ⟨r.archive, rfl, .inl rfl, by simp⟩

theorem isCommittedProposal_spec (r : Replica σ) (m : Message) (p : Preprepare) :
    ∃ archive, (r.isCommittedProposal m p).2 = { r with archive } ∧
      Archive.Consulted r.ledger r.archive archive ∧
      ((r.isCommittedProposal m p).1 = true →
        ∃ h, Ledger.headerOf? r.ledger p.proposal.hash = some h ∧ h.number = p.proposal.number) := by
  have hp := Archive.parentSnapshot_consulted r.archive r.ledger p.proposal.number
    p.proposal.header.parentHash
  unfold isCommittedProposal
  dsimp only
  split
  · exact ⟨r.archive, rfl, .inl rfl, by simp⟩
  · rename_i h hh
    split
    · exact ⟨r.archive, rfl, .inl rfl, by simp⟩
    · rename_i hn
      split
      · rename_i he
        rw [he] at hp
        exact ⟨_, rfl, hp, by simp⟩
      · rename_i he
        rw [he] at hp
        exact ⟨_, rfl, hp, fun _ => ⟨h, hh, by simpa using hn⟩⟩

omit [Ledger σ] in
def voting (r : Replica σ) (archive : Archive) (a : Attempt) (phase : Phase) : Replica σ :=
  { r with archive, attempt := some a }.enterPhase phase

omit [Ledger σ] in
def decided (r : Replica σ) (a : Attempt) (b : Block) : Replica σ :=
  (r.voting r.archive { a with lock := some b.hash } .committed).emit (.commit (b.withSealsOf a.commits))

omit [Ledger σ] in
def finalized (r : Replica σ) (a : Attempt) (b : Block) (ledger : σ) : Replica σ :=
  { r.decided a b with ledger }.notify (.finalCommitted (b.withSealsOf a.commits).hash
    (b.withSealsOf a.commits).number (b.withSealsOf a.commits).header.extra.committedSeals.length)

omit [Ledger σ] in
def released (r : Replica σ) (a : Attempt) (b : Block) : Replica σ :=
  { r.decided a b with attempt := some { a with lock := none } }

inductive Treats (r : Replica σ) (m : Message) : Except Rejection Unit → Replica σ → Prop where
  /-- Nothing is done. -/
  | refuse {e : Rejection} (hf : e = .futureMessage → ∃ view, m.Names view ∧
      r.checkMessage m.kind view = .error .futureMessage) : Treats r m (.error e) r
  /-- The archive is asked, and nothing else is done. -/
  | consult {v : Except Rejection Unit} {archive : Archive} (hv : v ≠ .error .futureMessage)
      (ha : Archive.Consulted r.ledger r.archive archive) : Treats r m v { r with archive }
  /-- An old proposal of a final block is answered with a Commit. -/
  | answer {a : Attempt} {p : Preprepare} {header : Header} {archive : Archive} (hm : r.stance.Admits m)
      (hk : m.kind = .preprepare) (hp : m.preprepare = .ok p) (ha : r.attempt = some a)
      (hv : p.view < a.view) (hh : Ledger.headerOf? r.ledger p.proposal.hash = some header)
      (hn : header.number = p.proposal.number) (hc : Archive.Consulted r.ledger r.archive archive) :
      Treats r m (.ok ()) ({ r with archive }.sendCommitFor ⟨p.view, p.proposal.hash⟩)
  /-- The proposal is not valid or not the locked one, and the replica asks for the next round. -/
  | object {v : Except Rejection Unit} {archive : Archive} (hk : m.kind = .preprepare)
      (hw : r.waiting = false) (hc : Archive.Consulted r.ledger r.archive archive)
      (hv : v = .ok () ∨ ∃ fault, v = .error (.invalidProposal fault)) :
      Treats r m v ({ r with archive }.sendNextRoundChange)
  | accept {a : Attempt} {p : Preprepare} {archive : Archive} (hp : r.stance.Proposes a p m archive)
      (hl : a.lock = none) :
      Treats r m (.ok ()) (r.voting archive { a with preprepare := some p } .preprepared).sendPrepare
  /-- The proposal is the locked one. -/
  | support {a : Attempt} {p : Preprepare} {archive : Archive} (hp : r.stance.Proposes a p m archive)
      (hl : a.lock = some p.proposal.hash) :
      Treats r m (.ok ()) (r.voting archive { a with preprepare := some p } .prepared).sendCommit
  | countPrepare {a : Attempt} {b : Block} {prepares : Poll} (hc : r.stance.Counts a b .prepare m)
      (hp : a.prepares.add m = .ok prepares)
      (hq : ¬((a.lock = some b.hash ∨ r.committee.quorum ≤ Attempt.supporters { a with prepares }) ∧
        r.phase < .prepared)) : Treats r m (.ok ()) { r with attempt := some { a with prepares } }
  | lock {a : Attempt} {b : Block} {prepares : Poll} (hc : r.stance.Counts a b .prepare m)
      (hp : a.prepares.add m = .ok prepares)
      (hs : a.lock = some b.hash ∨ r.committee.quorum ≤ Attempt.supporters { a with prepares })
      (hn : r.phase < .prepared) :
      Treats r m (.ok ())
        (r.voting r.archive { a with prepares, lock := some b.hash } .prepared).sendCommit
  | countCommit {a : Attempt} {b : Block} {commits : Poll} (hc : r.stance.Counts a b .commit m)
      (hs : m.verifyCommittedSeal b.hash = .ok ()) (hp : a.commits.add m = .ok commits)
      (hq : ¬(r.committee.quorum ≤ commits.size ∧ r.phase < .committed)) :
      Treats r m (.ok ()) { r with attempt := some { a with commits } }
  /-- The ledger takes the block, and the replica goes on to the next height. -/
  | finalize {a : Attempt} {b : Block} {commits : Poll} {ledger : σ} (hc : r.stance.Counts a b .commit m)
      (hs : m.verifyCommittedSeal b.hash = .ok ()) (hp : a.commits.add m = .ok commits)
      (hq : r.committee.quorum ≤ commits.size) (hn : r.phase < .committed)
      (hl : Ledger.append r.ledger (b.withSealsOf commits) = .ok ledger) :
      Treats r m (.ok ()) ((r.finalized { a with commits } b ledger).startRound 0)
  /-- The ledger refuses the block, and the replica asks for the next round. -/
  | release {a : Attempt} {b : Block} {commits : Poll} {fault : LedgerFault}
      (hc : r.stance.Counts a b .commit m) (hs : m.verifyCommittedSeal b.hash = .ok ())
      (hp : a.commits.add m = .ok commits) (hq : r.committee.quorum ≤ commits.size)
      (hn : r.phase < .committed) (hl : Ledger.append r.ledger (b.withSealsOf commits) = .error fault) :
      Treats r m (.error (.ledger fault)) (r.released { a with commits } b).sendNextRoundChange
  /-- A request is counted, or its sender has no seat, and nothing else is done. -/
  | tally {view : View} {round : Round} {v : Except Rejection Unit} (ha : r.position.Admits view round m)
      (hd : ¬ r.position.Decides view round m)
      (hj : ¬(r.waiting = true ∧ (r.roundChanges.add round m).1 = .ok (r.committee.faults + 1)))
      (hv : v = .ok () ∨ v = .error .futureRound ∨
        v = .error .unauthorizedAddress ∧ ∃ fault, (r.roundChanges.add round m).1 = .error fault) :
      Treats r m v { r with roundChanges := (r.roundChanges.add round m).2 }
  /-- A replica that waits joins those who ask for the round. -/
  | join {view : View} {round : Round} (ha : r.position.Admits view round m)
      (hd : ¬ r.position.Decides view round m) (hw : r.waiting = true)
      (hj : (r.roundChanges.add round m).1 = .ok (r.committee.faults + 1)) (hn : next? round ≠ none) :
      Treats r m (.ok ())
        ({ r with roundChanges := (r.roundChanges.add round m).2 }.sendRoundChange round)
  /-- A quorum asks for the round. -/
  | enter {view : View} {round : Round} (ha : r.position.Admits view round m)
      (hd : r.position.Decides view round m) (hn : next? round ≠ none) :
      Treats r m (.ok ()) ({ r with roundChanges := (r.roundChanges.add round m).2 }.startRound round)

theorem commit_of_proposal {a : Attempt} {b : Block} (hs : r.enterPhase .committed = s)
    (ha : s.attempt = some a) (hb : a.proposal = some b) :
    r.commit =
      match Ledger.append s.ledger (b.withSealsOf a.commits) with
      | .error e => (.error (.ledger e), { s.emit (.commit (b.withSealsOf a.commits)) with
          attempt := some { a with lock := none } }.sendNextRoundChange)
      | .ok ledger => (.ok (), ({ s.emit (.commit (b.withSealsOf a.commits)) with ledger }.notify
          (.finalCommitted (b.withSealsOf a.commits).hash (b.withSealsOf a.commits).number
            (b.withSealsOf a.commits).header.extra.committedSeals.length)).startRound 0) := by
  unfold commit
  dsimp only
  rw [hs, ha]
  dsimp only
  rw [hb]
  dsimp only [Block.withSealsOf]
  split <;> rename_i happ
  · rw [show Ledger.append s.ledger _ = _ from happ]
  · rw [show Ledger.append s.ledger _ = _ from happ]

theorem commit_eq {a : Attempt} {b : Block} (hb : a.proposal = some b) :
    ({ r with attempt := some { a with lock := some b.hash } } : Replica σ).commit =
      match Ledger.append r.ledger (b.withSealsOf a.commits) with
      | .error e => (.error (.ledger e), (r.released a b).sendNextRoundChange)
      | .ok ledger => (.ok (), (r.finalized a b ledger).startRound 0) := by
  have hstance := (enterPhase_frame { r with attempt := some { a with lock := some b.hash } }
    (show Phase.committed ≠ .newRound by decide)).1
  have hattempt : (r.voting r.archive { a with lock := some b.hash } .committed).attempt =
      some { a with lock := some b.hash } := congrArg Stance.attempt hstance
  have hledger : (r.voting r.archive { a with lock := some b.hash } .committed).ledger = r.ledger :=
    congrArg Stance.ledger hstance
  rw [commit_of_proposal (s := r.voting r.archive { a with lock := some b.hash } .committed) rfl hattempt
    (show ({ a with lock := some b.hash } : Attempt).proposal = some b from hb), hledger]
  rfl

theorem acceptProposal_treats {a : Attempt} {p : Preprepare} {archive : Archive}
    (hp : r.stance.Proposes a p m archive) :
    r.Treats m (.ok ()) ({ r with archive }.acceptProposal p) := by
  rw [acceptProposal_eq (r := { r with archive }) hp.attempt p]
  split
  · exact .accept hp ‹_›
  · split
    · exact .support hp ‹_›
    · have hc := Archive.verifyProposal_consulted r.archive r.ledger p.proposal
      rw [show HeaderRules.verifyProposal r.ledger r.archive p.proposal = _ from hp.valid] at hc
      exact .object hp.kind hp.active hc (.inl rfl)

theorem handlePreprepare_treats (hc : r.stance.Admits m) (hk : m.kind = .preprepare) :
    r.Treats m (r.handlePreprepare m).1 (r.handlePreprepare m).2 := by
  unfold handlePreprepare
  split
  · exact .refuse (by simp)
  · rename_i p hp
    split
    · rename_i hv
      obtain ⟨a, ha, hold⟩ := checkMessage_old (by decide) hv
      obtain ⟨archive, hs, hcon, hin⟩ := isCommittedProposal_spec r m p
      split
      · rename_i s he
        rw [he] at hs hin
        obtain rfl : s = { r with archive } := hs
        obtain ⟨header, hh, hn⟩ := hin rfl
        exact .answer hc hk hp ha hold hh hn hcon
      · rename_i s he
        rw [he] at hs
        obtain rfl : s = { r with archive } := hs
        exact .consult (by simp) hcon
    · rename_i e _ hv
      refine .refuse fun he => ?_
      subst he
      exact ⟨p.view, .proposal hk hp, hk ▸ hv⟩
    · rename_i hv
      obtain ⟨a, ha, hpv, hw, -⟩ := checkMessage_ok (by decide) hv
      split
      · exact .refuse (by simp)
      · rename_i hprop
        obtain ⟨archive, hs, hcon, hok⟩ := verifyProposal_spec r p.proposal
        split
        · rename_i s he
          rw [he] at hs
          obtain rfl : s = { r with archive } := hs
          exact .object hk hw hcon (.inr ⟨_, rfl⟩)
        · rename_i s he
          rw [he] at hs hok
          obtain rfl : s = { r with archive } := hs
          obtain ⟨hn, hpar, hval⟩ := hok rfl a ha
          dsimp only
          split
          · rename_i hph
            exact acceptProposal_treats
              { toAdmits := hc, attempt := ha, kind := hk, body := hp, view := hpv, active := hw
                fresh := hph, proposer := by simpa [stance] using hprop, number := hn, parent := hpar
                valid := hval }
          · exact .consult (by simp) hcon

theorem handlePrepare_treats (hc : r.stance.Admits m) (hk : m.kind = .prepare) :
    r.Treats m (r.handlePrepare m).1 (r.handlePrepare m).2 := by
  unfold handlePrepare
  split
  · rename_i e hs
    refine .refuse fun he => ?_
    subst he
    exact checkSubject_early (by simp [hk]) hs
  · exact .refuse (by simp)
  · rename_i x a hs ha
    obtain ⟨c, b, hcount, rfl⟩ := checkSubject_ok hc hk (.inl rfl) hs
    obtain rfl : a = c := Option.some.inj (ha.symm.trans hcount.attempt)
    split
    · exact .refuse (by simp)
    · rename_i prepares hadd
      dsimp only
      split
      · rename_i hq
        rw [lockAndCommit, locked_eq (a := { a with prepares }) (b := b) hcount.proposal]
        have htreats : r.Treats m (.ok ()) _ := .lock hcount hadd hq.1 hq.2
        exact htreats
      · exact .countPrepare hcount hadd ‹_›

theorem commit_treats {a : Attempt} {b : Block} {commits : Poll} (hc : r.stance.Counts a b .commit m)
    (hs : m.verifyCommittedSeal b.hash = .ok ()) (hp : a.commits.add m = .ok commits)
    (hq : r.committee.quorum ≤ commits.size) (hn : r.phase < .committed) :
    r.Treats m ({ r with attempt := some { a with commits, lock := some b.hash } }.commit).1
      ({ r with attempt := some { a with commits, lock := some b.hash } }.commit).2 := by
  rw [commit_eq (a := { a with commits }) hc.proposal]
  split
  · exact .release hc hs hp hq hn ‹_›
  · exact .finalize hc hs hp hq hn ‹_›

theorem handleCommit_treats (hc : r.stance.Admits m) (hk : m.kind = .commit) :
    r.Treats m (r.handleCommit m).1 (r.handleCommit m).2 := by
  unfold handleCommit
  split
  · rename_i e hs
    refine .refuse fun he => ?_
    subst he
    exact checkSubject_early (by simp [hk]) hs
  · exact .refuse (by simp)
  · rename_i x a hs ha
    obtain ⟨c, b, hcount, rfl⟩ := checkSubject_ok hc hk (.inr rfl) hs
    obtain rfl : a = c := Option.some.inj (ha.symm.trans hcount.attempt)
    split
    · exact .refuse (by simp)
    · exact .refuse (by simp)
    · rename_i commits hseal hadd
      dsimp only
      split
      · rename_i hq
        rw [locked_eq (a := { a with commits }) (b := b) hcount.proposal]
        have htreats := commit_treats hcount hseal hadd hq.1 hq.2
        exact htreats
      · exact .countCommit hcount hseal hadd ‹_›

theorem handleRoundChange_treats (hc : r.stance.Admits m) (hk : m.kind = .roundChange) :
    r.Treats m (r.handleRoundChange m).1 (r.handleRoundChange m).2 := by
  unfold handleRoundChange
  split
  · exact .refuse (by simp)
  · exact .refuse (by simp)
  · rename_i x current hx hv
    split
    · rename_i e hcheck
      refine .refuse fun he => ?_
      subst he
      exact ⟨x.view, .subject (by simp [hk]) hx, hk ▸ hcheck⟩
    · rename_i hcheck
      obtain ⟨hseq, habove⟩ := checkMessage_roundChange hv hcheck
      have ha : r.position.Admits current x.view.round m :=
        { current := hv
          request := ⟨hc.verified, hk, x.digest, by rw [hx, ← hseq]⟩
          member := Committee.contains_iff.mp hc.member
          above := habove }
      dsimp only
      split
      · exact .refuse (by simp)
      · rename_i hn
        have hn : next? x.view.round ≠ none := by simpa using hn
        split
        · rename_i fault roundChanges hadd
          obtain rfl : (r.roundChanges.add x.view.round m).2 = roundChanges := by rw [hadd]
          have hrefused := congrArg Prod.fst hadd
          exact .tally ha (fun hd => absurd (hd.1.symm.trans hrefused) (by simp))
            (fun hj => absurd (hj.2.symm.trans hrefused) (by simp)) (.inr (.inr ⟨rfl, fault, hrefused⟩))
        · rename_i count roundChanges hadd
          obtain rfl : (r.roundChanges.add x.view.round m).2 = roundChanges := by rw [hadd]
          have hcount : (r.roundChanges.add x.view.round m).1 = .ok count := by rw [hadd]
          split
          · rename_i hq
            exact .enter ha ⟨hcount.trans (congrArg _ hq.1), hq.2⟩ hn
          · rename_i hq
            have hd : ¬ r.position.Decides current x.view.round m := fun hd =>
              hq ⟨Except.ok.inj (hcount.symm.trans hd.1), hd.2⟩
            split
            · rename_i hj
              exact .join ha hd hj.1 (hcount.trans (congrArg _ hj.2)) hn
            · rename_i hj
              have hj : ¬(r.waiting = true ∧
                  (r.roundChanges.add x.view.round m).1 = .ok (r.committee.faults + 1)) := fun h =>
                hj ⟨h.1, Except.ok.inj (hcount.symm.trans h.2)⟩
              split
              · exact .tally ha hd hj (.inr (.inl rfl))
              · exact .tally ha hd hj (.inl rfl)

theorem process_treats (r : Replica σ) (m : Message) :
    r.Treats m (r.process m).1 (r.process m).2 := by
  unfold process
  split
  · exact .refuse (by simp)
  · rename_i hv
    split
    · exact .refuse (by simp)
    · rename_i hm
      have hc : r.stance.Admits m := ⟨hv, by simpa [stance] using hm⟩
      split
      · exact handlePreprepare_treats hc ‹_›
      · exact handlePrepare_treats hc ‹_›
      · exact handleCommit_treats hc ‹_›
      · exact handleRoundChange_treats hc ‹_›

theorem treats_of_eq {v : Except Rejection Unit} (h : r.process m = (v, s)) : r.Treats m v s := by
  have htreats := process_treats r m
  rwa [h] at htreats

theorem process_future (h : r.process m = (.error .futureMessage, s)) :
    s = r ∧ ∃ view, m.Names view ∧ r.checkMessage m.kind view = .error .futureMessage := by
  cases treats_of_eq h with
  | refuse hf => exact ⟨rfl, hf rfl⟩
  | consult hv => exact absurd rfl hv
  | object _ _ _ hv => simp at hv
  | tally _ _ _ hv => simp at hv

end Replica

end BlockAgreement
