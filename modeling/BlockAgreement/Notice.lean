import BlockAgreement.Message

/-!
# Notices

What a running validator reports, each notice after the fact, and the line that is logged for it: the
name of the notice, the time in seconds, and its fields, with hashes and addresses abbreviated.
-/

set_option autoImplicit false

namespace BlockAgreement

inductive Notice where
  /-- A view was entered; its timeout is in nanoseconds. -/
  | startRound (view : View) (proposer : Option Address) (timeout : Nat)
  | viewTimeout (view : View)
  /-- A block was proposed by this validator. -/
  | propose (view : View) (block : Digest) (number : Height)
  | prepare (subject : Subject)
  | commit (subject : Subject)
  /-- This validator asked for the view. -/
  | roundChange (view : View)
  /-- A message new to this validator was put in its inbox. -/
  | receiveMessage (origin : Address) (kind : MessageKind)
  | dropMessage (origin : Address) (kind : MessageKind) (reason : String)
  /-- A block became final, with this many committed seals. -/
  | finalCommitted (block : Digest) (number : Height) (committedSeals : Nat)
  /-- The committee after the block with this number is another one. -/
  | updateValidatorSet (number : Height) (validators : List Address)
  deriving DecidableEq, Repr

inductive NoticeKind where
  | startRound
  | viewTimeout
  | propose
  | prepare
  | commit
  | roundChange
  | receiveMessage
  | dropMessage
  | finalCommitted
  | updateValidatorSet
  deriving DecidableEq, Repr

namespace NoticeKind

def all : List NoticeKind :=
  [startRound, viewTimeout, propose, prepare, commit, roundChange, receiveMessage, dropMessage,
   finalCommitted, updateValidatorSet]

instance : ToString NoticeKind :=
  ⟨fun
    | startRound => "StartRound"
    | viewTimeout => "ViewTimeout"
    | propose => "Propose"
    | prepare => "Prepare"
    | commit => "Commit"
    | roundChange => "RoundChange"
    | receiveMessage => "ReceiveMessage"
    | dropMessage => "DropMessage"
    | finalCommitted => "FinalCommitted"
    | updateValidatorSet => "UpdateValidatorSet"⟩

def ofName? (name : String) : Option NoticeKind := all.find? fun k => toString k == name

def level (k : NoticeKind) : String := if k = dropMessage then "DEBUG" else "INFO"

end NoticeKind

namespace Notice

def kind : Notice → NoticeKind
  | startRound .. => .startRound
  | viewTimeout _ => .viewTimeout
  | propose .. => .propose
  | prepare _ => .prepare
  | commit _ => .commit
  | roundChange _ => .roundChange
  | receiveMessage .. => .receiveMessage
  | dropMessage .. => .dropMessage
  | finalCommitted .. => .finalCommitted
  | updateValidatorSet .. => .updateValidatorSet

def shortDigest (d : Digest) : String := Base64.abbreviate (Wire.encode d)

def shortAddress (a : Address) : String := Base64.abbreviate (Wire.encode a)

def fields : Notice → List String
  | startRound view proposer _ =>
    [toString view.sequence, toString view.round, (proposer.map shortAddress).getD "-"]
  | viewTimeout view => [toString view.sequence, toString view.round]
  | propose view block number => [shortDigest block, toString number, toString view.round]
  | prepare subject => [shortDigest subject.digest, toString subject.view]
  | commit subject => [shortDigest subject.digest, toString subject.view]
  | roundChange view => [toString view.sequence, toString view.round]
  | receiveMessage origin kind => [shortAddress origin, toString kind]
  | dropMessage origin kind reason => [shortAddress origin, toString kind, reason]
  | finalCommitted block number seals => [shortDigest block, toString number, toString seals]
  | updateValidatorSet number validators =>
    [toString number, "[" ++ String.intercalate " " (validators.map shortAddress) ++ "]"]

def line (n : Notice) (seconds : Int) : String :=
  let values := toString n.kind :: toString seconds.toNat :: n.fields
  n.kind.level ++ " " ++ String.intercalate ", " values

end Notice

structure Subscription where
  logging : Bool
  handled : List NoticeKind

namespace Subscription

def ofNames (logging : Bool) (names : List String) : Subscription :=
  ⟨logging, names.filterMap NoticeKind.ofName?⟩

def isEmpty (s : Subscription) : Bool := !s.logging && s.handled.isEmpty

def log (s : Subscription) (n : Notice) (seconds : Int) : List String :=
  if s.logging then [n.line seconds] else []

def call (s : Subscription) (n : Notice) : List NoticeKind :=
  if n.kind ∈ s.handled then [n.kind] else []

end Subscription

end BlockAgreement
