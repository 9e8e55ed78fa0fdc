import BlockAgreement.Ledger.Memory
import BlockAgreement.Validator

/-!
# A cluster of validators

Validators with ledgers of their own and the parcels that are under way between them. Parcels can be
delivered in any order, more than once, or never.
-/

set_option autoImplicit false

namespace BlockAgreement

structure Parcel where
  sender : Nat
  recipient : Address
  payload : Bytes
  deriving DecidableEq, Repr

structure Cluster where
  nodes : List (Validator MemoryLedger)
  inFlight : List Parcel
  /-- What the validators have shown, in the order of collection. -/
  journal : List (Nat × Effect)

namespace Cluster

variable [Scheme]

def create (settings : Settings) (signers : List Signer) (genesis : Header) :
    Except HeaderFault Cluster :=
  (signers.mapM fun k => Validator.create settings k (MemoryLedger.ofHeaders [genesis])).map
    fun nodes => ⟨nodes, [], []⟩

omit [Scheme] in
def indexOf? (c : Cluster) (a : Address) : Option Nat := c.nodes.findIdx? (·.address = a)

omit [Scheme] in
def update (c : Cluster) (i : Nat) (f : Validator MemoryLedger → Validator MemoryLedger) : Cluster :=
  { c with nodes := c.nodes.modify i f }

omit [Scheme] in
def collect (c : Cluster) : Cluster :=
  let shown := c.nodes.zipIdx.flatMap fun (v, i) => v.replica.flush.1.map fun e => (i, e)
  let parcels := shown.filterMap fun
    | (i, .send recipient payload) => some ⟨i, recipient, payload⟩
    | _ => none
  { nodes := c.nodes.map fun v => { v with replica := v.replica.flush.2 }
    inFlight := c.inFlight ++ parcels
    journal := c.journal ++ shown }

def handOver (c : Cluster) (p : Parcel) : Option (Except IntakeFault Bool) × Cluster :=
  match c.indexOf? p.recipient, c.nodes[p.sender]? with
  | some i, some sender =>
    match c.nodes[i]? with
    | none => (none, c)
    | some v =>
      let (result, _, v) := v.intake sender.address (.consensus p.payload)
      (some result, { c with nodes := c.nodes.set i v.pump.2 })
  | _, _ => (none, c)

omit [Scheme] in
def pick? (c : Cluster) (n : Nat) : Option Parcel := c.inFlight[n % c.inFlight.length]?

omit [Scheme] in
def remove (c : Cluster) (n : Nat) : Cluster :=
  { c with inFlight := c.inFlight.eraseIdx (n % c.inFlight.length) }

omit [Scheme] in
def isolate (c : Cluster) (i : Nat) : Nat × Cluster :=
  let stays (p : Parcel) : Bool := p.sender != i && c.indexOf? p.recipient != some i
  let kept := c.inFlight.filter stays
  (c.inFlight.length - kept.length, { c with inFlight := kept })

/-- Delivers the oldest parcel again and again, at most as often as the first argument says, and says
how often. -/
def run : Nat → Cluster → Nat × Cluster
  | 0, c => (0, c)
  | n + 1, c =>
    match c.inFlight with
    | [] => (0, c)
    | p :: rest =>
      let (count, c) := run n ({ c with inFlight := rest }.handOver p).2.collect
      (count + 1, c)

def sync (c : Cluster) (i source : Nat) : Cluster :=
  match c.nodes[source]? with
  | none => c
  | some peer =>
    c.update i fun v =>
      let ledger := v.replica.ledger
      let ledger := (peer.replica.ledger.blocksFrom ledger.size).foldl MemoryLedger.push ledger
      { v with replica := { v.replica with ledger } }.feed .headMoved

def propose (c : Cluster) (i : Nat) (data : Bytes) (timestamp : UInt64)
    (vote : Option MembershipVote) : Option Block × Cluster :=
  match c.nodes[i]? with
  | none => (none, c)
  | some v =>
    match v.draft data timestamp vote with
    | (none, v) => (none, { c with nodes := c.nodes.set i v })
    | (some b, v) => (some b, { c with nodes := c.nodes.set i (v.feed (.request b)) })

end Cluster

end BlockAgreement
