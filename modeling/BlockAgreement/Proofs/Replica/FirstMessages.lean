import BlockAgreement.Poll
import Mathlib.Data.List.Induction
import Mathlib.Data.List.Nodup

/-!
# The first message counts

A poll holds the first message of each member among all those that it has heard, in the order in which
they came. It may be kept twice, as a table of messages by sender and as a list of senders: the table
tells how many have been heard, the list the order, and the answers are those of the poll.
-/

set_option autoImplicit false

namespace BlockAgreement

namespace Message

def firsts : List Message → List Message
  | [] => []
  | m :: ms => m :: (firsts ms).filter fun x => x.sender ≠ m.sender

def ofMembers (committee : Committee) (ms : List Message) : List Message :=
  ms.filter fun m => committee.contains m.sender

variable {ms : List Message} {a : Address}

theorem mem_senders_iff : a ∈ ms.map sender ↔ (ms.find? (·.sender = a)).isSome := by
  simp [List.find?_isSome]

theorem find?_firsts (ms : List Message) (a : Address) :
    (firsts ms).find? (·.sender = a) = ms.find? (·.sender = a) := by
  induction ms with
  | nil => rfl
  | cons m ms ih =>
    by_cases hm : m.sender = a
    · simp [firsts, hm]
    · rw [firsts, List.find?_cons_of_neg (by simpa using hm), List.find?_cons_of_neg (by simpa using hm),
        List.find?_filter, ← ih]
      congr 1
      funext x
      by_cases hx : x.sender = a <;> simp [hx, Ne.symm hm]

theorem mem_senders_firsts : a ∈ (firsts ms).map sender ↔ a ∈ ms.map sender := by
  rw [mem_senders_iff, find?_firsts, mem_senders_iff]

theorem firsts_concat (ms : List Message) (m : Message) :
    firsts (ms ++ [m]) = if m.sender ∈ ms.map sender then firsts ms else firsts ms ++ [m] := by
  induction ms with
  | nil => rfl
  | cons x ms ih =>
    rw [List.cons_append, firsts, ih, firsts, List.map_cons]
    by_cases hm : m.sender ∈ ms.map sender
    · rw [if_pos hm, if_pos (List.mem_cons_of_mem _ hm)]
    · rw [if_neg hm, List.filter_append]
      by_cases hx : m.sender = x.sender
      · simp [hx]
      · rw [if_neg fun h => (List.mem_cons.mp h).elim hx hm]
        simp [hx]

theorem ofMembers_concat (committee : Committee) (ms : List Message) (m : Message) :
    ofMembers committee (ms ++ [m]) =
      if m.sender ∈ committee.members then ofMembers committee ms ++ [m] else ofMembers committee ms := by
  simp only [ofMembers, List.filter_append, List.filter_cons, List.filter_nil, Committee.contains_iff]
  split
  · rfl
  · exact List.append_nil _

end Message

namespace Poll

def hear (p : Poll) (ms : List Message) : Poll := ms.foldl (fun p m => (p.add m).toOption.getD p) p

theorem hear_concat (p : Poll) (ms : List Message) (m : Message) :
    p.hear (ms ++ [m]) = ((p.hear ms).add m).toOption.getD (p.hear ms) := by
  rw [hear, List.foldl_append]
  rfl

theorem committee_hear (p : Poll) (ms : List Message) : (p.hear ms).committee = p.committee := by
  induction ms using List.reverseRecOn with
  | nil => rfl
  | append_singleton ms m ih =>
    rw [hear_concat, ← ih]
    cases h : (p.hear ms).add m with
    | ok q => exact (add_spec h).2.1
    | error e => rfl

theorem messages_hear (view : View) (committee : Committee) (ms : List Message) :
    ((empty view committee).hear ms).messages = Message.firsts (Message.ofMembers committee ms) := by
  induction ms using List.reverseRecOn with
  | nil => rfl
  | append_singleton ms m ih =>
    have hseats : ((empty view committee).hear ms).committee = committee := committee_hear _ ms
    have hheard : m.sender ∈ ((empty view committee).hear ms).senders ↔
        m.sender ∈ (Message.ofMembers committee ms).map Message.sender := by
      rw [senders, ih, Message.mem_senders_firsts]
    rw [hear_concat, Message.ofMembers_concat]
    by_cases hm : m.sender ∈ committee.members
    · obtain ⟨q, hq, -⟩ := add_member (p := (empty view committee).hear ms) (by rwa [hseats])
      rw [hq, if_pos hm, Message.firsts_concat]
      rcases add_cases hq with ⟨-, ⟨hs, rfl⟩ | ⟨hs, -, -, hmessages⟩⟩
      · rw [if_pos (hheard.mp hs)]
        exact ih
      · rw [if_neg (mt hheard.mpr hs), ← ih]
        exact hmessages
    · rw [add_of_outsider (by rwa [hseats]), if_neg hm]
      exact ih

/-- A poll kept twice: the messages by sender, and the senders in the order in which they were first
heard. -/
structure Register where
  view : View
  committee : Committee
  table : Std.HashMap Address Message
  order : List Address

namespace Register

def empty (view : View) (committee : Committee) : Register where
  view
  committee
  table := ∅
  order := []

def contains (r : Register) (sender : Address) : Bool := r.table.contains sender

def enter (r : Register) (m : Message) : Register :=
  { r with order := r.order ++ [m.sender], table := r.table.insert m.sender m }

def add (r : Register) (m : Message) : Except PollFault Unit × Register :=
  if r.committee.contains m.sender then
    if r.contains m.sender then (.ok (), r) else (.ok (), r.enter m)
  else (.error (.unauthorizedAddress m.sender), r)

theorem add_of_member {r : Register} {m : Message} (hm : m.sender ∈ r.committee.members) :
    r.add m = (.ok (), if r.contains m.sender then r else r.enter m) := by
  rw [add, if_pos (Committee.contains_iff.mpr hm)]
  split <;> rfl

theorem add_of_outsider {r : Register} {m : Message} (hm : m.sender ∉ r.committee.members) :
    r.add m = (.error (.unauthorizedAddress m.sender), r) :=
  if_neg (mt Committee.contains_iff.mp hm)

def size (r : Register) : Nat := r.table.size

def isEmpty (r : Register) : Bool := r.table.isEmpty

def get? (r : Register) (sender : Address) : Option Message := r.table[sender]?

def senders (r : Register) : List Address := r.order

def messages (r : Register) : List Message := r.order.filterMap r.get?

def hear (r : Register) (ms : List Message) : Register := ms.foldl (fun r m => (r.add m).2) r

/-- The order is that of the poll, and the table holds the poll's messages and nothing else. -/
structure Mirrors (r : Register) (p : Poll) : Prop where
  view : r.view = p.view
  committee : r.committee = p.committee
  senders : r.senders = p.senders
  size : r.size = p.size
  get? : ∀ a, r.get? a = p.get? a

end Register

theorem contains_eq_isSome (p : Poll) (a : Address) : p.contains a = (p.get? a).isSome := by
  rw [Bool.eq_iff_iff, contains_iff]
  exact Message.mem_senders_iff

theorem get?_sender {p : Poll} {m : Message} (hm : m ∈ p.messages) : p.get? m.sender = some m := by
  rw [get?]
  cases hx : p.messages.find? (·.sender = m.sender) with
  | none => exact absurd (decide_eq_true rfl) (List.find?_eq_none.mp hx m hm)
  | some x =>
    have hsender : x.sender = m.sender := by simpa using List.find?_some hx
    rw [List.inj_on_of_nodup_map p.distinct (List.mem_of_find?_eq_some hx) hm hsender]

theorem get?_add {p q : Poll} {m : Message} (h : p.add m = .ok q) (hs : m.sender ∉ p.senders)
    (a : Address) :
    q.get? a = if m.sender = a then some m else p.get? a := by
  rcases add_cases h with ⟨-, ⟨hin, -⟩ | ⟨-, -, -, hmessages⟩⟩
  · exact absurd hin hs
  · rw [get?, hmessages, List.find?_append]
    by_cases ha : m.sender = a
    · subst ha
      have hnone : p.messages.find? (·.sender = m.sender) = none := by
        rwa [← Option.not_isSome_iff_eq_none, ← Message.mem_senders_iff]
      simp [hnone]
    · simp [ha, get?]

namespace Register.Mirrors

variable {r : Register} {p : Poll}

theorem contains (h : r.Mirrors p) (a : Address) : r.contains a = p.contains a := by
  rw [contains_eq_isSome, ← h.get?]
  exact Std.HashMap.contains_eq_isSome_getElem?

theorem messages (h : r.Mirrors p) : r.messages = p.messages := by
  have hfound : ∀ m ∈ p.messages, (r.get? ∘ Message.sender) m = some m := by
    intro m hm
    rw [Function.comp_apply, h.get?, get?_sender hm]
  show r.senders.filterMap r.get? = p.messages
  rw [h.senders, Poll.senders, List.filterMap_map, List.filterMap_congr hfound, List.filterMap_some]

theorem isEmpty (h : r.Mirrors p) : r.isEmpty = p.isEmpty := by
  rw [Bool.eq_iff_iff, Register.isEmpty, Std.HashMap.isEmpty_eq_size_eq_zero, beq_iff_eq, Poll.isEmpty,
    List.isEmpty_iff_length_eq_zero]
  exact Eq.congr_left h.size

theorem enter (h : r.Mirrors p) {q : Poll} {m : Message} (hq : p.add m = .ok q)
    (hs : m.sender ∉ p.senders) :
    (r.enter m).Mirrors q := by
  have hnew : m.sender ∉ r.table := by
    rwa [← contains_iff, ← h.contains, Register.contains, Std.HashMap.contains_iff_mem] at hs
  rcases add_cases hq with ⟨-, ⟨hin, -⟩ | ⟨-, hview, hcommittee, hmessages⟩⟩
  · exact absurd hin hs
  · refine ⟨h.view.trans hview.symm, h.committee.trans hcommittee.symm, ?_, ?_, fun a => ?_⟩
    · show r.order ++ [m.sender] = q.messages.map Message.sender
      rw [hmessages, List.map_append]
      exact congrArg (· ++ [m.sender]) h.senders
    · show (r.table.insert m.sender m).size = q.messages.length
      rw [Std.HashMap.size_insert, if_neg hnew, hmessages, List.length_append]
      exact congrArg (· + 1) h.size
    · show (r.table.insert m.sender m)[a]? = q.get? a
      rw [Std.HashMap.getElem?_insert, get?_add hq hs, ← h.get?]
      simp [Register.get?]

theorem add (h : r.Mirrors p) (m : Message) :
    (r.add m).1 = (p.add m).map (fun _ => ()) ∧ (r.add m).2.Mirrors ((p.add m).toOption.getD p) := by
  by_cases hm : m.sender ∈ p.committee.members
  · obtain ⟨q, hq, -⟩ := add_member hm
    rw [Register.add_of_member (by rwa [h.committee]), h.contains, hq]
    rcases add_cases hq with ⟨-, ⟨hs, rfl⟩ | ⟨hs, -⟩⟩
    · rw [if_pos (contains_iff.mpr hs)]
      exact ⟨rfl, h⟩
    · rw [if_neg (mt contains_iff.mp hs)]
      exact ⟨rfl, h.enter hq hs⟩
  · rw [Poll.add_of_outsider hm, Register.add_of_outsider (by rwa [h.committee])]
    exact ⟨rfl, h⟩

theorem hear (h : r.Mirrors p) (ms : List Message) : (r.hear ms).Mirrors (p.hear ms) := by
  induction ms generalizing r p with
  | nil => exact h
  | cons m ms ih => exact ih (h.add m).2

end Register.Mirrors

theorem Register.empty_mirrors (view : View) (committee : Committee) :
    (Register.empty view committee).Mirrors (Poll.empty view committee) where
  view := rfl
  committee := rfl
  senders := rfl
  size := Std.HashMap.size_empty
  get? _ := Std.HashMap.getElem?_empty

/-- Whatever has been heard, a message is refused if and only if no member has sent it, and changes
nothing then. Of the others the first one of each sender is held, in the order in which they came, and
all answers are about these. -/
theorem first_message_counts (view : View) (committee : Committee) (ms : List Message) :
    let accepted := Message.ofMembers committee ms
    let kept := Message.firsts accepted
    let p := (Poll.empty view committee).hear ms
    let r := (Register.empty view committee).hear ms
    (∀ m, (r.add m).1 =
      if m.sender ∈ committee.members then .ok () else .error (.unauthorizedAddress m.sender)) ∧
    (∀ m, m.sender ∉ committee.members → (r.add m).2 = r) ∧
    (r.messages = kept ∧ r.senders = kept.map Message.sender ∧ r.senders.Nodup) ∧
    (r.size = kept.length ∧ r.isEmpty = kept.isEmpty) ∧
    (∀ a, r.get? a = kept.find? (·.sender = a) ∧ r.get? a = accepted.find? (·.sender = a) ∧
      (r.contains a = true ↔ a ∈ kept.map Message.sender)) ∧
    p.messages = kept ∧ r.Mirrors p ∧ ∀ m, (p.add m).map (fun _ => ()) = (r.add m).1 := by
  intro accepted kept p r
  have hkept : p.messages = kept := messages_hear view committee ms
  have hmirror : r.Mirrors p := (Register.empty_mirrors view committee).hear ms
  have hseats : r.committee = committee := hmirror.committee.trans (committee_hear _ ms)
  have hsenders : r.senders = kept.map Message.sender := by rw [hmirror.senders, senders, hkept]
  have hget (a : Address) : r.get? a = kept.find? (·.sender = a) := by rw [hmirror.get?, get?, hkept]
  refine ⟨fun m => ?_, fun m hm => ?_, ⟨?_, hsenders, ?_⟩, ⟨?_, ?_⟩, fun a => ⟨hget a, ?_, ?_⟩, hkept,
    hmirror, fun m => (hmirror.add m).1.symm⟩
  · by_cases hm : m.sender ∈ committee.members
    · rw [Register.add_of_member (by rwa [hseats]), if_pos hm]
    · rw [Register.add_of_outsider (by rwa [hseats]), if_neg hm]
  · rw [Register.add_of_outsider (by rwa [hseats])]
  · rw [hmirror.messages, hkept]
  · rw [hmirror.senders]
    exact p.distinct
  · rw [hmirror.size, size, hkept]
  · rw [hmirror.isEmpty, Poll.isEmpty, hkept]
  · rw [hget, Message.find?_firsts]
  · rw [hmirror.contains, contains_iff, ← hmirror.senders, hsenders]

end Poll

namespace Pair

def prepareOf (a : Address) (body : Bytes) : Message := ⟨.prepare, body, a, .empty, none⟩

/-- Of two validators the second one is heard first, and says something else later. In between come an
outsider and the first one. -/
theorem first_message_counts_equivocation :
    let r := (Poll.Register.empty ⟨1, 0⟩ (.ofList [1, 2] .roundRobin)).hear
      [prepareOf 2 [], prepareOf 3 [], prepareOf 1 [], prepareOf 2 [7]]
    r.messages = [prepareOf 2 [], prepareOf 1 []] ∧ r.size = 2 ∧ r.get? 2 = some (prepareOf 2 []) ∧
      r.contains 3 = false ∧ r.add (prepareOf 3 [7]) = (.error (.unauthorizedAddress 3), r) ∧
      (r.add (prepareOf 2 [8])).1 = .ok () := by
  intro r
  obtain ⟨hverdict, hsame, ⟨hmessages, -⟩, ⟨hsize, -⟩, hlookup, -⟩ :=
    Poll.first_message_counts ⟨1, 0⟩ (.ofList [1, 2] .roundRobin)
      [prepareOf 2 [], prepareOf 3 [], prepareOf 1 [], prepareOf 2 [7]]
  have hthree : r.contains 3 = false :=
    Bool.eq_false_iff.mpr fun h => absurd ((hlookup 3).2.2.mp h) (by decide)
  have houtsider : (prepareOf 3 [7]).sender ∉ (Committee.ofList [1, 2] .roundRobin).members := by decide
  have hrefused : r.add (prepareOf 3 [7]) = (.error (.unauthorizedAddress 3), r) :=
    Prod.ext ((hverdict _).trans (if_neg houtsider)) (hsame _ houtsider)
  have hmember := (hverdict (prepareOf 2 [8])).trans (if_pos (by decide))
  exact ⟨hmessages, hsize, (hlookup 2).1, hthree, hrefused, hmember⟩

end Pair

end BlockAgreement
