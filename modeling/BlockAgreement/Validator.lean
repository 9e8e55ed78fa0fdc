import BlockAgreement.Governance.Candidates
import BlockAgreement.Packet
import BlockAgreement.Replica.Inbound

/-!
# Validators

A replica with its inbox: what comes from peers is taken in, once per payload, and pumped through the
replica. A sender for whom there is no room waits at the inbox, if it is to, and goes on when the
replica has taken an input out. Packets of other protocols are left alone; the announcement of the block
that this validator is proposing is held back, without being read, so that the block is not imported a
second time.
-/

set_option autoImplicit false

namespace BlockAgreement

/-- How a validator is set up. Times are in nanoseconds. -/
structure Settings where
  epoch : Epoch := 30000
  policy : ProposerPolicy := .roundRobin
  requestTimeout : Nat := 10_000_000_000
  maximumTimeout : Nat := 120_000_000_000
  inboxCapacity : Nat := 1024
  overflow : Overflow := .wait
  backlogCapacity : Nat := 1024
  /-- How many peers' messages are remembered. -/
  peers : Nat := 64
  /-- How many messages are remembered, in all and per peer. -/
  messages : Nat := 1024
  snapshots : Nat := 128

/-- Why a packet is not taken in. -/
inductive IntakeFault where
  | stoppedEngine
  | decodeFailed
  deriving DecidableEq, Repr

instance : ToString IntakeFault :=
  ⟨fun
    | .stoppedEngine => "StoppedEngine"
    | .decodeFailed => "DecodeFailed"⟩

/-- Why a validator does not start. -/
inductive StartFault where
  | unmarkedGenesis
  | emptyGenesisCommittee
  | invalidEpochLength
  | invalidInboxCapacity
  | invalidCacheCapacity
  | invalidRequestTimeout
  | header (fault : HeaderFault)
  deriving DecidableEq, Repr

instance : ToString StartFault :=
  ⟨fun
    | .unmarkedGenesis => "GenesisNotIstanbul"
    | .emptyGenesisCommittee => "EmptyGenesisValidatorSet"
    | .invalidEpochLength => "InvalidEpochLength"
    | .invalidInboxCapacity => "InvalidQueueCapacity"
    | .invalidCacheCapacity => "InvalidCacheCapacity"
    | .invalidRequestTimeout => "InvalidRequestTimeout"
    | .header fault => s!"Engine({fault})"⟩

def Settings.check (s : Settings) : Except StartFault Unit :=
  if s.epoch = 0 then .error .invalidEpochLength
  else if s.inboxCapacity = 0 then .error .invalidInboxCapacity
  else if s.peers = 0 ∨ s.messages = 0 ∨ s.snapshots = 0 then .error .invalidCacheCapacity
  else if s.requestTimeout = 0 ∨ s.maximumTimeout < s.requestTimeout then
    .error .invalidRequestTimeout
  else .ok ()

structure Validator (σ : Type) where
  replica : Replica σ
  inbox : Inbox
  /-- What the senders that wait for room in the inbox have to hand in, the one that came first in
  front. -/
  waiting : List Input
  candidates : Candidates
  /-- Packets that the network brought for other protocols, oldest first. -/
  foreign : List (Address × Packet)

namespace Validator

variable {σ : Type} [Scheme] [Ledger σ]

def create (s : Settings) (signer : Signer) (ledger : σ) : Except HeaderFault (Validator σ) :=
  (Replica.create signer ledger (.empty s.epoch s.policy s.snapshots) (.empty s.peers s.messages)
    (.idle s.requestTimeout s.maximumTimeout) s.backlogCapacity).map fun replica =>
      ⟨replica, .empty s.inboxCapacity s.overflow, [], [], []⟩

theorem create_ok {s : Settings} {signer : Signer} {ledger : σ} {v : Validator σ}
    (h : create s signer ledger = .ok v) : ∃ replica,
      Replica.create signer ledger (.empty s.epoch s.policy s.snapshots) (.empty s.peers s.messages)
        (.idle s.requestTimeout s.maximumTimeout) s.backlogCapacity = .ok replica ∧
      v = ⟨replica, .empty s.inboxCapacity s.overflow, [], [], []⟩ := by
  unfold create at h
  generalize Replica.create signer ledger _ _ _ _ = result at h ⊢
  cases result with
  | error e => cases h
  | ok replica => exact ⟨replica, rfl, (Except.ok.inj h).symm⟩

def launch (s : Settings) (signer : Signer) (ledger : σ) : Except StartFault (Validator σ) := do
  s.check
  match Ledger.headerAt? ledger 0 with
  | none => .error .unmarkedGenesis
  | some genesis =>
    if !genesis.isMarked then .error .unmarkedGenesis
    else if genesis.extra.validators.isEmpty then .error .emptyGenesisCommittee
    else
      let v ← (create s signer ledger).mapError .header
      return { v with replica := v.replica.start }

omit [Scheme] [Ledger σ] in
def address (v : Validator σ) : Address := v.replica.signer.address

def feed (v : Validator σ) (i : Input) : Validator σ := { v with replica := v.replica.handle i }

def start (v : Validator σ) : Validator σ := { v with replica := v.replica.start }

omit [Scheme] [Ledger σ] in
def stop (v : Validator σ) : Validator σ := { v with replica := v.replica.stop }

omit [Ledger σ] in
/-- The sender of an input that is in the inbox goes on. That of a message remembers the payload and
reports the message. -/
def handedIn (v : Validator σ) (i : Input) : Validator σ :=
  match i with
  | .message ⟨m, payload⟩ =>
    let replica := { v.replica with gossip := (v.replica.gossip.markKnown (hash payload)).2 }
    { v with replica := replica.notify (.receiveMessage m.sender m.kind) }
  | _ => v

omit [Ledger σ] in
/-- The sender of an input goes by what the inbox answers. -/
def handIn (v : Validator σ) (i : Input) : Receipt × Inbox → Validator σ
  | (.queued, inbox) => { v with inbox }.handedIn i
  | (.mustWait, inbox) => { v with inbox, waiting := v.waiting ++ [i] }
  | (.refused, inbox) => { v with inbox }

omit [Ledger σ] in
theorem handIn_inbox (v : Validator σ) (i : Input) (answer : Receipt × Inbox) :
    (v.handIn i answer).inbox = answer.2 := by
  obtain ⟨receipt, inbox⟩ := answer
  cases receipt <;> cases i <;> rfl

omit [Ledger σ] in
theorem handIn_waiting (v : Validator σ) (i : Input) (answer : Receipt × Inbox) :
    (v.handIn i answer).waiting = if answer.1 = .mustWait then v.waiting ++ [i] else v.waiting := by
  obtain ⟨receipt, inbox⟩ := answer
  cases receipt <;> cases i <;> rfl

omit [Ledger σ] in
/-- The sender at this place among those that wait tries again. -/
def letIn (v : Validator σ) (place : Nat) : Validator σ :=
  match v.waiting[place]? with
  | none => v
  | some i =>
    let answer := v.inbox.deliver i
    if answer.1 = .mustWait then v
    else { v with waiting := v.waiting.eraseIdx place }.handIn i answer

/-- The replica takes the oldest input out of the inbox, which lets in the sender that has waited
longest, and handles it. -/
def step? (v : Validator σ) : Option (Validator σ) :=
  match v.inbox.take with
  | (none, _) => none
  | (some i, inbox) => some (({ v with inbox }.letIn 0).feed i)

def steps : Nat → Validator σ → Nat × Validator σ
  | 0, v => (0, v)
  | n + 1, v =>
    match v.step? with
    | none => (0, v)
    | some v =>
      let (count, v) := steps n v
      (count + 1, v)

/-- Hands everything in the inbox to the replica, and everything that is let in meanwhile, and says how
many inputs there were. -/
def pump (v : Validator σ) : Nat × Validator σ := v.steps (v.inbox.queue.length + v.waiting.length)

omit [Ledger σ] in
/-- Takes in a consensus message. A payload that is known is not queued again; one that the inbox does
not take stays unknown, so that it can come again. The answer is the one that the sender gets in the end,
also if it has to wait. -/
def intakeMessage (v : Validator σ) (peer : Address) (p : Packet) :
    Except IntakeFault Bool × Packet × Validator σ :=
  if !v.replica.started then (.error .stoppedEngine, p, v)
  else
    let (payload, p) := p.read
    match (Wire.decode payload : Except DecodeError Message) with
    | .error _ => (.error .decodeFailed, p, v)
    | .ok m =>
      let digest := hash payload
      let gossip := (v.replica.gossip.markPeer peer digest).2
      let v := { v with replica := { v.replica with gossip } }
      if gossip.isKnown digest then (.ok true, p, v)
      else
        let i := .message ⟨m, payload⟩
        (.ok true, p, v.handIn i (v.inbox.post i))

omit [Ledger σ] in
def announcesOwn (v : Validator σ) (p : Packet) : Bool :=
  v.replica.isProposer &&
    match (Wire.decode p.peek : Except DecodeError Announcement) with
    | .error _ => false
    | .ok a => a.block.header.isMarked && v.replica.isCurrentProposal a.block.hash

omit [Ledger σ] in
/-- Takes a packet from a peer, and says whether it was for this engine. -/
def intake (v : Validator σ) (peer : Address) (p : Packet) :
    Except IntakeFault Bool × Packet × Validator σ :=
  if p.code = Packet.consensusCode then v.intakeMessage peer p
  else if p.code = Packet.announcementCode then (.ok (v.announcesOwn p), p, v)
  else (.ok false, p, v)

omit [Ledger σ] in
def receive (v : Validator σ) (peer : Address) (p : Packet) : Validator σ :=
  match v.intake peer p with
  | (.ok false, p, v) => { v with foreign := v.foreign ++ [(peer, p)] }
  | (_, _, v) => v

omit [Scheme] [Ledger σ] in
def takeForeign (v : Validator σ) : Option (Address × Packet) × Validator σ :=
  (v.foreign.head?, { v with foreign := v.foreign.tail })

/-- Fills in the fields of a header that are the engine's business, given the time and a number that
picks the vote. Number and parent are set already. -/
def prepare (v : Validator σ) (now : UInt64) (draw : Nat) (h : Header) :
    Except HeaderFault Header × Validator σ :=
  match Ledger.headerOf? v.replica.ledger h.parentHash with
  | none => (.error .unknownAncestor, v)
  | some parent =>
    if next? parent.number ≠ some h.number then (.error .unknownAncestor, v)
    else
      match v.replica.archive.parentSnapshot v.replica.ledger h.number h.parentHash with
      | (.error e, archive) =>
        (.error (.snapshot e), { v with replica := { v.replica with archive } })
      | (.ok s, archive) =>
        let checkpoint := archive.epoch.isCheckpoint h.number
        (.ok { h with
          timestamp := max now parent.timestamp
          marker := engineMarker
          vote := if checkpoint then none else v.candidates.pick s draw
          extra := { Extra.empty with validators := if checkpoint then s.committee.members else [] } },
         { v with replica := { v.replica with archive } })

def sealBlock (v : Validator σ) (b : Block) : Except HeaderFault Unit × Validator σ :=
  if !v.replica.started then (.error .stoppedEngine, v)
  else
    match v.replica.archive.parentSnapshot v.replica.ledger b.number b.header.parentHash with
    | (.error e, archive) =>
      (.error (.snapshot e), { v with replica := { v.replica with archive } })
    | (.ok s, archive) =>
      let v := { v with replica := { v.replica with archive } }
      if !s.committee.contains v.address then (.error (.unauthorizedProposer v.address), v)
      else
        match b.sealedBy v.replica.signer with
        | none => (.error .signing, v)
        | some b => (.ok (), v.handIn (.request b) (v.inbox.deliver (.request b)))

omit [Ledger σ] in
def headMoved (v : Validator σ) : Except HeaderFault Unit × Validator σ :=
  if v.replica.started then (.ok (), v.handIn .headMoved (v.inbox.deliver .headMoved))
  else (.error .stoppedEngine, v)

omit [Scheme] [Ledger σ] in
def close (v : Validator σ) : Except HeaderFault Unit × Validator σ :=
  if v.replica.started then (.ok (), v.stop) else (.error .stoppedEngine, v)

def verifyHeader (v : Validator σ) (h : Header) : Except HeaderFault Unit × Validator σ :=
  let (result, archive) := HeaderRules.verify v.replica.ledger v.replica.archive h true
  (result, { v with replica := { v.replica with archive } })

/-- A sealed block of this validator on top of the head. A checkpoint lists the committee and carries no
vote. -/
def draft (v : Validator σ) (data : Bytes) (timestamp : UInt64) (vote : Option MembershipVote) :
    Option Block × Validator σ :=
  let head := Ledger.head v.replica.ledger
  match next? head.number with
  | none => (none, v)
  | some number =>
    let (s, archive) := v.replica.archive.snapshot v.replica.ledger head.number head.hash
    let checkpoint := archive.epoch.isCheckpoint number
    let validators := if checkpoint then (s.map (·.committee.members)).toOption.getD [] else []
    let header : Header :=
      { parentHash := head.hash, number, timestamp, marker := engineMarker, dataHash := 0
        vote := if checkpoint then none else vote
        extra := { Extra.empty with validators } }
    ((Block.create header data).sealedBy v.replica.signer,
     { v with replica :=
       { v.replica with archive := if checkpoint then archive else v.replica.archive } })

end Validator

end BlockAgreement
