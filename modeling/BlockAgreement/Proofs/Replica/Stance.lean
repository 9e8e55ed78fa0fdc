import BlockAgreement.Replica.Inbound

/-!
# What a replica can do

The stance of a replica is what it holds to in the protocol, without its queues, its timer and what it
has shown. Whatever happens to a replica, its stance changes by moves alone, of which there is one
constructor for each thing that a replica does. The messages that it hears move it from the stance
that it has at that time, the origin; the other moves are its own.
-/

set_option autoImplicit false

namespace BlockAgreement

structure Stance (σ : Type) where
  signer : Signer
  ledger : σ
  archive : Archive
  phase : Phase
  waiting : Bool
  attempt : Option Attempt
  committee : Committee

def Block.withSealsOf (b : Block) (commits : Poll) : Block :=
  { b with header := { b.header with extra := { b.header.extra with
    committedSeals := commits.messages.filterMap (·.committedSeal) } } }

namespace Stance

variable {σ : Type} [Scheme] [Ledger σ]

def refreshed (s : Stance σ) (head : Header) : Stance σ :=
  match s.archive.snapshot s.ledger head.number head.hash with
  | (.error _, archive) => { s with archive }
  | (.ok snap, archive) => { s with archive, committee := snap.committee }

omit [Ledger σ] in
def entering (s : Stance σ) (head : Header) (a : Attempt) : Stance σ :=
  { s with
    attempt := some a
    committee := s.committee.choose (Replica.lastProposer head) a.view.round
    waiting := false
    phase := .newRound }

omit [Scheme] [Ledger σ] in
def asking (s : Stance σ) (a : Attempt) (round : Round) : Stance σ :=
  { s with
    waiting := true
    attempt := some (a.next ⟨a.view.sequence, round⟩ s.committee) }

omit [Ledger σ] in
structure Admits (s : Stance σ) (m : Message) : Prop where
  verified : m.verify = .ok ()
  member : s.committee.contains m.sender

omit [Ledger σ] in
structure Counts (s : Stance σ) (a : Attempt) (b : Block) (kind : MessageKind) (m : Message) : Prop
    extends s.Admits m where
  attempt : s.attempt = some a
  kind : m.kind = kind
  proposal : a.proposal = some b
  subject : m.subject = .ok ⟨a.view, b.hash⟩
  active : s.waiting = false
  proposed : s.phase ≠ .newRound

/-- The message proposes a valid block in the view of the attempt. The check leaves the archive
behind. -/
structure Proposes (s : Stance σ) (a : Attempt) (p : Preprepare) (m : Message) (archive : Archive) :
    Prop extends s.Admits m where
  attempt : s.attempt = some a
  kind : m.kind = .preprepare
  body : m.preprepare = .ok p
  view : p.view = a.view
  active : s.waiting = false
  fresh : s.phase = .newRound
  proposer : s.committee.isProposer m.sender
  number : p.proposal.number = a.view.sequence
  parent : p.proposal.header.parentHash = (Ledger.head s.ledger).hash
  valid : HeaderRules.verifyProposal s.ledger s.archive p.proposal = (.ok (), archive)

def voice (m : Option Message) : List Effect := m.toList.map .broadcast

omit [Scheme] [Ledger σ] in
theorem mem_voice {m : Option Message} {e : Effect} (h : e ∈ voice m) :
    ∃ c, m = some c ∧ .broadcast c = e := by
  simpa [voice] using h

omit [Scheme] [Ledger σ] in
theorem broadcast_mem_voice {m : Option Message} {c : Message} : .broadcast c ∈ voice m ↔ m = some c := by
  simp [voice]

inductive Move (origin : Stance σ) (heard : Option Message) :
    Stance σ → List Effect → Stance σ → Prop where
  | consult {s : Stance σ} (number : Height) (hash : Digest) :
      Move origin heard s [] { s with archive := (s.archive.snapshot s.ledger number hash).2 }
  | request {s : Stance σ} {a : Attempt} (b : Block) (ha : s.attempt = some a)
      (hb : b.number = a.view.sequence) :
      Move origin heard s [] { s with attempt := some { a with request := some b } }
  | propose {s : Stance σ} {a : Attempt} {b : Block} (ha : s.attempt = some a)
      (hb : b.number = a.view.sequence) (hp : s.committee.isProposer s.signer.address)
      (hn : s.phase = .newRound)
      (hr : a.request = some b ∨ a.lock.isSome ∧ a.proposal = some b) :
      Move origin heard s (voice (Message.ofPreprepare s.signer ⟨a.view, b⟩)) s
  | ask {s : Stance σ} {a : Attempt} {round : Round} (ha : s.attempt = some a)
      (hr : a.view.round < round) :
      Move origin heard s (voice (Message.roundChange s.signer ⟨a.view.sequence, round⟩))
        (s.asking a round)
  | enterSequence {s : Stance σ} {sequence : Height}
      (hn : next? (Ledger.head s.ledger).number = some sequence)
      (ha : ∀ a ∈ s.attempt, a.view.sequence ≤ (Ledger.head s.ledger).number) :
      Move origin heard s []
        ((s.refreshed (Ledger.head s.ledger)).entering (Ledger.head s.ledger)
          (.start ⟨sequence, 0⟩ (s.refreshed (Ledger.head s.ledger)).committee))
  | enterRound {s : Stance σ} {a : Attempt} {round : Round} (ha : s.attempt = some a)
      (hn : next? (Ledger.head s.ledger).number = some a.view.sequence) (h0 : round ≠ 0)
      (hr : ¬ round < a.view.round) (hw : s.waiting = true ∨ a.view.round < round) :
      Move origin heard s []
        (s.entering (Ledger.head s.ledger) (a.next ⟨a.view.sequence, round⟩ s.committee))
  | accept {a : Attempt} {p : Preprepare} {m : Message} {archive : Archive} (hm : heard = some m)
      (hp : origin.Proposes a p m archive) (hl : a.lock = none) :
      Move origin heard origin (voice (Message.prepare origin.signer ⟨a.view, p.proposal.hash⟩))
        { origin with
          archive
          attempt := some { a with preprepare := some p }
          phase := .preprepared }
  | support {a : Attempt} {p : Preprepare} {m : Message} {archive : Archive} (hm : heard = some m)
      (hp : origin.Proposes a p m archive) (hl : a.lock = some p.proposal.hash) :
      Move origin heard origin (voice (Message.commit origin.signer ⟨a.view, p.proposal.hash⟩))
        { origin with
          archive
          attempt := some { a with preprepare := some p }
          phase := .prepared }
  | answer {a : Attempt} {p : Preprepare} {m : Message} {header : Header} {archive : Archive}
      (hm : heard = some m) (hc : origin.Admits m) (ha : origin.attempt = some a)
      (hk : m.kind = .preprepare) (hp : m.preprepare = .ok p) (hv : p.view < a.view)
      (hh : Ledger.headerOf? origin.ledger p.proposal.hash = some header)
      (hn : header.number = p.proposal.number) :
      Move origin heard { origin with archive }
        (voice (Message.commit origin.signer ⟨p.view, p.proposal.hash⟩)) { origin with archive }
  | countPrepare {a : Attempt} {b : Block} {m : Message} {prepares : Poll} (hm : heard = some m)
      (hc : origin.Counts a b .prepare m) (hp : a.prepares.add m = .ok prepares)
      (hs : ¬((a.lock = some b.hash ∨
        origin.committee.quorum ≤ Attempt.supporters { a with prepares }) ∧
          origin.phase < .prepared)) :
      Move origin heard origin [] { origin with attempt := some { a with prepares } }
  | lock {a : Attempt} {b : Block} {m : Message} {prepares : Poll} (hm : heard = some m)
      (hc : origin.Counts a b .prepare m) (hp : a.prepares.add m = .ok prepares)
      (hs : a.lock = some b.hash ∨
        origin.committee.quorum ≤ Attempt.supporters { a with prepares })
      (hn : origin.phase < .prepared) :
      Move origin heard origin (voice (Message.commit origin.signer ⟨a.view, b.hash⟩))
        { origin with attempt := some { a with prepares, lock := some b.hash }, phase := .prepared }
  | countCommit {a : Attempt} {b : Block} {m : Message} {commits : Poll} (hm : heard = some m)
      (hc : origin.Counts a b .commit m) (hs : m.verifyCommittedSeal b.hash = .ok ())
      (hp : a.commits.add m = .ok commits)
      (hq : ¬(origin.committee.quorum ≤ commits.size ∧ origin.phase < .committed)) :
      Move origin heard origin [] { origin with attempt := some { a with commits } }
  | finalize {a : Attempt} {b : Block} {m : Message} {commits : Poll} {ledger : σ}
      (hm : heard = some m) (hc : origin.Counts a b .commit m)
      (hs : m.verifyCommittedSeal b.hash = .ok ()) (hp : a.commits.add m = .ok commits)
      (hq : origin.committee.quorum ≤ commits.size) (hn : origin.phase < .committed)
      (hl : Ledger.append origin.ledger (b.withSealsOf commits) = .ok ledger) :
      Move origin heard origin [.commit (b.withSealsOf commits)]
        { origin with
          ledger
          attempt := some { a with commits, lock := some b.hash }
          phase := .committed }
  | refuse {a : Attempt} {b : Block} {m : Message} {commits : Poll} {fault : LedgerFault}
      (hm : heard = some m) (hc : origin.Counts a b .commit m)
      (hs : m.verifyCommittedSeal b.hash = .ok ()) (hp : a.commits.add m = .ok commits)
      (hq : origin.committee.quorum ≤ commits.size) (hn : origin.phase < .committed)
      (hl : Ledger.append origin.ledger (b.withSealsOf commits) = .error fault) :
      Move origin heard origin [.commit (b.withSealsOf commits)]
        { origin with attempt := some { a with commits, lock := none }, phase := .committed }

inductive Moves (origin : Stance σ) (heard : Option Message) :
    Stance σ → List Effect → Stance σ → Prop where
  | refl (s : Stance σ) : Moves origin heard s [] s
  | step {s t u : Stance σ} {es fs : List Effect} (hs : Moves origin heard s es t)
      (ht : Move origin heard t fs u) : Moves origin heard s (fs ++ es) u

variable {origin : Stance σ} {heard : Option Message}

theorem Move.single {s t : Stance σ} {es : List Effect} (h : Move origin heard s es t) :
    Moves origin heard s es t := by
  simpa using Moves.step (.refl s) h

theorem Moves.trans {s t u : Stance σ} {es fs : List Effect} (hs : Moves origin heard s es t)
    (ht : Moves origin heard t fs u) : Moves origin heard s (fs ++ es) u := by
  induction ht with
  | refl => exact hs
  | step _ hm ih =>
    rw [List.append_assoc]
    exact .step ih hm

/-- Whatever is said is said in a move. -/
theorem Moves.exists_move {s t : Stance σ} {es : List Effect} (hm : Moves origin heard s es t)
    {e : Effect} (he : e ∈ es) : ∃ u fs v, Move origin heard u fs v ∧ e ∈ fs := by
  induction hm with
  | refl => cases he
  | step _ hm ih =>
    rcases List.mem_append.mp he with he | he
    · exact ⟨_, _, _, hm, he⟩
    · exact ih he

/-- What every move keeps, moves keep. It is enough to look at moves that say nothing but what satisfies
`E`, and after which there are moves to the last stance. -/
theorem Moves.preserve {E : Effect → Prop} {P : Stance σ → List Effect → Prop} {s t : Stance σ}
    {es : List Effect} (log : List Effect) (hm : Moves origin heard s es t)
    (hP : ∀ {u v : Stance σ} {fs log : List Effect}, Move origin heard u fs v →
      (∀ e ∈ fs, E e) → (∃ gs, Moves origin heard v gs t) → P u log → P v (fs ++ log))
    (hE : ∀ e ∈ es, E e) (hs : P s log) : P t (es ++ log) := by
  suffices hw : ∀ {t' : Stance σ} {es : List Effect}, Moves origin heard s es t' →
      (∃ gs, Moves origin heard t' gs t) → (∀ e ∈ es, E e) → P t' (es ++ log) from
    hw hm ⟨[], .refl t⟩ hE
  intro t' es hm
  induction hm with
  | refl => exact fun _ _ => hs
  | step _ hm ih =>
    rintro ⟨gs, hg⟩ hE
    rw [List.append_assoc]
    exact hP hm (fun e he => hE e (List.mem_append_left _ he)) ⟨gs, hg⟩
      (ih ⟨_, hm.single.trans hg⟩ fun e he => hE e (List.mem_append_right _ he))

end Stance

end BlockAgreement
