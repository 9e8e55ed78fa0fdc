import BlockAgreement.Committee
import BlockAgreement.Message

/-!
# Polls

The messages of one phase of one view, at most one from each member of the committee. The first
message of a sender stays, so a sender that says two things counts once.
-/

set_option autoImplicit false

namespace BlockAgreement

/-- Why a message is not counted. -/
inductive PollFault where
  | unauthorizedAddress (sender : Address)
  deriving DecidableEq, Repr

instance : ToString PollFault :=
  ⟨fun | .unauthorizedAddress a => s!"UnauthorizedAddress({a.text})"⟩

structure Poll where
  view : View
  committee : Committee
  /-- In the order in which their senders were first heard. -/
  messages : List Message
  distinct : (messages.map Message.sender).Nodup
  authorized : ∀ m ∈ messages, m.sender ∈ committee.members

namespace Poll

def empty (view : View) (committee : Committee) : Poll where
  view
  committee
  messages := []
  distinct := by simp
  authorized := by simp

def size (p : Poll) : Nat := p.messages.length

def isEmpty (p : Poll) : Bool := p.messages.isEmpty

def senders (p : Poll) : List Address := p.messages.map Message.sender

def get? (p : Poll) (sender : Address) : Option Message :=
  p.messages.find? (·.sender = sender)

def contains (p : Poll) (sender : Address) : Bool := p.senders.contains sender

theorem contains_iff {p : Poll} {sender : Address} : p.contains sender ↔ sender ∈ p.senders :=
  List.contains_iff_mem

def add (p : Poll) (m : Message) : Except PollFault Poll :=
  if hm : p.committee.contains m.sender then
    if hs : p.contains m.sender then .ok p
    else
      .ok
        { p with
          messages := p.messages ++ [m]
          distinct := by
            rw [List.map_append, List.nodup_append]
            refine ⟨p.distinct, by simp, ?_⟩
            intro a ha b hb hab
            simp only [List.map_cons, List.map_nil, List.mem_singleton] at hb
            exact hs (contains_iff.mpr (hb ▸ hab ▸ ha))
          authorized := by
            intro x hx
            rcases List.mem_append.mp hx with hx | hx
            · exact p.authorized x hx
            · rw [List.mem_singleton.mp hx]; exact Committee.contains_iff.mp hm }
  else .error (.unauthorizedAddress m.sender)

theorem add_cases {p q : Poll} {m : Message} (h : p.add m = .ok q) :
    m.sender ∈ p.committee.members ∧
      (m.sender ∈ p.senders ∧ q = p ∨
        m.sender ∉ p.senders ∧ q.view = p.view ∧ q.committee = p.committee ∧
          q.messages = p.messages ++ [m]) := by
  unfold add at h
  split at h
  · rename_i hm
    refine ⟨Committee.contains_iff.mp hm, ?_⟩
    split at h
    · rename_i hs
      exact .inl ⟨contains_iff.mp hs, (Except.ok.inj h).symm⟩
    · rename_i hs
      obtain rfl := Except.ok.inj h
      exact .inr ⟨mt contains_iff.mpr hs, rfl, rfl, rfl⟩
  · cases h

theorem add_of_outsider {p : Poll} {m : Message} (hm : m.sender ∉ p.committee.members) :
    p.add m = .error (.unauthorizedAddress m.sender) :=
  dif_neg (mt Committee.contains_iff.mp hm)

theorem add_spec {p q : Poll} {m : Message} (h : p.add m = .ok q) :
    q.view = p.view ∧ q.committee = p.committee ∧ m.sender ∈ p.committee.members ∧
      ∀ c ∈ q.messages, c ∈ p.messages ∨ c = m := by
  rcases add_cases h with ⟨hm, ⟨-, rfl⟩ | ⟨-, hview, hcommittee, hmessages⟩⟩
  · exact ⟨rfl, rfl, hm, fun c hc => .inl hc⟩
  · refine ⟨hview, hcommittee, hm, fun c hc => ?_⟩
    rw [hmessages] at hc
    exact (List.mem_append.mp hc).imp_right List.mem_singleton.mp

theorem size_add {p q : Poll} {m : Message} (h : p.add m = .ok q) :
    p.size ≤ q.size ∧ q.size ≤ p.size + 1 := by
  rcases add_cases h with ⟨-, ⟨-, rfl⟩ | ⟨-, -, -, hmessages⟩⟩
  · omega
  · simp [size, hmessages]

theorem senders_add {p q : Poll} {m : Message} (h : p.add m = .ok q) :
    m.sender ∈ q.senders ∧ p.senders ⊆ q.senders := by
  rcases add_cases h with ⟨-, ⟨hs, rfl⟩ | ⟨-, -, -, hmessages⟩⟩
  · exact ⟨hs, List.Subset.refl _⟩
  · simp [senders, hmessages]

theorem add_member {p : Poll} {m : Message} (hm : m.sender ∈ p.committee.members) :
    ∃ q, p.add m = .ok q ∧ q.committee = p.committee ∧ m.sender ∈ q.senders ∧
      p.senders ⊆ q.senders := by
  have hok : ∃ q, p.add m = .ok q := by
    unfold add
    rw [dif_pos (Committee.contains_iff.mpr hm)]
    split <;> exact ⟨_, rfl⟩
  obtain ⟨q, hq⟩ := hok
  exact ⟨q, hq, (add_spec hq).2.1, senders_add hq⟩

end Poll

end BlockAgreement
