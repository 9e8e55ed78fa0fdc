import BlockAgreement.Replica.State

/-!
# What a replica sends

Every message that a replica broadcasts is sent to the other members and put among the messages that
the replica itself processes next. Asking for a higher round moves the replica to the view it asks for.
-/

set_option autoImplicit false

namespace BlockAgreement.Replica

variable {σ : Type} [Scheme]

def relay (r : Replica σ) (payload : Bytes) : Replica σ :=
  let (recipients, gossip) := r.gossip.spread r.signer.address r.committee (hash payload)
  recipients.foldl (fun r a => r.emit (.send a payload)) { r with gossip }

def broadcast (r : Replica σ) (message : Option Message) (notice : Notice) : Replica σ :=
  match message with
  | none => r
  | some m =>
    let payload := Wire.encode m
    let r := (r.emit (.broadcast m)).relay payload
    { r with ready := r.ready ++ [Delivery.mk m payload] }.notify notice

def sendPreprepare (r : Replica σ) (b : Block) : Replica σ :=
  match r.view? with
  | none => r
  | some view =>
    if b.number = view.sequence ∧ r.isProposer then
      r.broadcast (Message.ofPreprepare r.signer ⟨view, b⟩) (.propose view b.hash b.number)
    else r

def sendPrepare (r : Replica σ) : Replica σ :=
  match r.attempt.bind (·.subject) with
  | none => r
  | some s => r.broadcast (Message.prepare r.signer s) (.prepare s)

def sendCommitFor (r : Replica σ) (s : Subject) : Replica σ :=
  r.broadcast (Message.commit r.signer s) (.commit s)

def sendCommit (r : Replica σ) : Replica σ :=
  match r.attempt.bind (·.subject) with
  | none => r
  | some s => r.sendCommitFor s

omit [Scheme] in
def catchUp (r : Replica σ) (view : View) : Replica σ :=
  { r with
    waiting := true
    attempt := some <|
      match r.attempt with
      | none => .start view r.committee
      | some a => a.next view r.committee
    roundChanges := r.roundChanges.clear view.round
    timer := r.timer.arm view }

def sendRoundChange (r : Replica σ) (round : Round) : Replica σ :=
  match r.view? with
  | none => r
  | some current =>
    if current.round < round then
      let view : View := ⟨current.sequence, round⟩
      (r.catchUp view).broadcast (Message.roundChange r.signer view) (.roundChange view)
    else r

def sendNextRoundChange (r : Replica σ) : Replica σ :=
  match r.view?.bind fun view => next? view.round with
  | none => r
  | some round => r.sendRoundChange round

end BlockAgreement.Replica
