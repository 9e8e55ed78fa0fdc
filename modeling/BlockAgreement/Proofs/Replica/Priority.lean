import BlockAgreement.Proofs.Replica.Backlog
import Mathlib.Data.List.Sort
import Mathlib.Data.List.TakeWhile

/-!
# The backlog is a bounded priority list

Told without queues: waiting messages are one list in the order of replay, a message goes behind all that
do not come after it, and what exceeds the capacity is cut off at the end. A backlog answers any series of
calls as this list does.
-/

set_option autoImplicit false

namespace BlockAgreement

theorem Slot.lt_or_eq_or_gt (a b : Slot) : a < b ∨ a = b ∨ b < a :=
  trichotomous_of (· < ·) a b

namespace Backlog

/-- What is asked of a backlog. -/
inductive Call where
  | insert (view : View) (d : Delivery)
  | drain (classify : View → MessageKind → Disposition)

inductive Answer where
  | stored (stored : Bool)
  | ready (ready : List Delivery)

def call (b : Backlog) : Call → Answer × Backlog
  | .insert view d => (.stored (b.insert view d).1, (b.insert view d).2)
  | .drain classify => (.ready (b.drain classify).1, (b.drain classify).2)

def calls (b : Backlog) : List Call → List (Answer × Nat) × Backlog
  | [] => ([], b)
  | c :: cs =>
    let b' := (b.call c).2
    (((b.call c).1, b'.size) :: (calls b' cs).1, (calls b' cs).2)

end Backlog

/-- Waiting messages with their views, in the order of replay, at most as many as the capacity says. -/
structure Waitlist where
  capacity : Nat
  entries : List (View × Delivery)

namespace Waitlist

def empty (capacity : Nat) : Waitlist := ⟨capacity, []⟩

def turns : List MessageKind := [.preprepare, .commit, .prepare, .roundChange]

def Before (w x : View × Delivery) : Prop :=
  w.1 < x.1 ∨ w.1 = x.1 ∧ turns.idxOf w.2.message.kind < turns.idxOf x.2.message.kind

instance : DecidableRel Before := fun w x =>
  inferInstanceAs (Decidable (w.1 < x.1 ∨ w.1 = x.1 ∧ _))

def ahead (w : View × Delivery) (ws : List (View × Delivery)) : List (View × Delivery) :=
  ws.takeWhile fun x => ¬ Before w x

def place (w : View × Delivery) (ws : List (View × Delivery)) : List (View × Delivery) :=
  ahead w ws ++ w :: ws.dropWhile fun x => ¬ Before w x

/-- Puts a message in its place, cuts the list off at the capacity, and says whether the message is still
there. -/
def insert (l : Waitlist) (view : View) (d : Delivery) : Bool × Waitlist :=
  ((ahead (view, d) l.entries).length < l.capacity,
    { l with entries := (place (view, d) l.entries).take l.capacity })

def filed (classify : View → MessageKind → Disposition) (x : Disposition)
    (ws : List (View × Delivery)) : List (View × Delivery) :=
  ws.filter fun (view, d) => classify view d.message.kind = x

def drain (l : Waitlist) (classify : View → MessageKind → Disposition) : List Delivery × Waitlist :=
  ((filed classify .process l.entries).map (·.2), { l with entries := filed classify .keep l.entries })

def call (l : Waitlist) : Backlog.Call → Backlog.Answer × Waitlist
  | .insert view d => (.stored (l.insert view d).1, (l.insert view d).2)
  | .drain classify => (.ready (l.drain classify).1, (l.drain classify).2)

def calls (l : Waitlist) : List Backlog.Call → List (Backlog.Answer × Nat) × Waitlist
  | [] => ([], l)
  | c :: cs =>
    let l' := (l.call c).2
    (((l.call c).1, l'.entries.length) :: (calls l' cs).1, (calls l' cs).2)

/-- No message stands in front of one that is to be replayed before it. -/
def InOrder (ws : List (View × Delivery)) : Prop := ws.Pairwise fun x y => ¬ Before y x

variable {w x y : View × Delivery} {ws xs : List (View × Delivery)}

theorem idxOf_turns (kind : MessageKind) : turns.idxOf kind = kind.rank := by
  cases kind <;> rfl

def slotOf (w : View × Delivery) : Slot := .of w.1 w.2.message.kind

theorem before_iff : Before w x ↔ slotOf w < slotOf x := by
  rw [Before, idxOf_turns, idxOf_turns]
  exact Iff.rfl

theorem place_eq (w : View × Delivery) (ws : List (View × Delivery)) :
    place w ws = ws.orderedInsert Before w :=
  (List.orderedInsert_eq_take_drop Before w ws).symm

theorem length_place (w : View × Delivery) (ws : List (View × Delivery)) :
    (place w ws).length = ws.length + 1 := by
  rw [place_eq]
  exact List.orderedInsert_length Before ws w

theorem place_append (h : ∀ x ∈ xs, ¬ Before w x) : place w (xs ++ ws) = xs ++ place w ws := by
  induction xs with
  | nil => rfl
  | cons x xs ih =>
    obtain ⟨hx, hxs⟩ := List.forall_mem_cons.mp h
    rw [List.cons_append, place_eq, List.orderedInsert_of_not_le _ _ hx, ← place_eq, ih hxs,
      List.cons_append]

theorem place_of_before (h : ∀ x ∈ ws, Before w x) : place w ws = w :: ws := by
  cases ws with
  | nil => rfl
  | cons x ws =>
    rw [place_eq]
    exact List.orderedInsert_cons_of_le _ _ (h x List.mem_cons_self)

theorem place_concat (h : Before w x) : place w (ws ++ [x]) = place w ws ++ [x] := by
  induction ws with
  | nil => exact place_of_before (by simpa using h)
  | cons y ws ih =>
    by_cases hy : Before w y
    · simp [place_eq, hy]
    · simpa [place_eq, hy] using ih

theorem length_ahead_le (w : View × Delivery) (ws : List (View × Delivery)) :
    (ahead w ws).length ≤ ws.length :=
  (List.takeWhile_prefix _).length_le

theorem ahead_concat (h : Before w x) : ahead w (ws ++ [x]) = ahead w ws := by
  induction ws with
  | nil => simp [ahead, h]
  | cons y ws ih =>
    by_cases hy : Before w y
    · simp [ahead, hy]
    · simpa [ahead, hy] using ih

theorem InOrder.not_before (h : InOrder (ws ++ [x])) (hx : ¬ Before w x) (hy : y ∈ ws ++ [x]) :
    ¬ Before w y := by
  rw [before_iff] at hx ⊢
  rcases List.mem_append.mp hy with hy | hy
  · intro hw
    have hxy : ¬ slotOf x < slotOf y := by
      rw [← before_iff]
      exact (List.pairwise_append.mp h).2.2 y hy x (List.mem_singleton_self x)
    rcases Slot.lt_or_eq_or_gt (slotOf y) (slotOf x) with hlt | heq | hlt
    · exact hx (Slot.lt_trans hw hlt)
    · exact hx (heq ▸ hw)
    · exact hxy hlt
  · rwa [List.mem_singleton.mp hy]

variable {l : Waitlist} {view : View} {d : Delivery}

theorem insert_of_room (h : l.entries.length < l.capacity) :
    l.insert view d = (true, { l with entries := place (view, d) l.entries }) := by
  have hahead := (length_ahead_le (view, d) l.entries).trans_lt h
  have hall : (place (view, d) l.entries).length ≤ l.capacity := by
    rw [length_place]
    exact h
  rw [insert, decide_eq_true hahead, List.take_of_length_le hall]

theorem call_capacity (l : Waitlist) (c : Backlog.Call) : (l.call c).2.capacity = l.capacity := by
  cases c <;> rfl

theorem calls_capacity (l : Waitlist) (cs : List Backlog.Call) :
    (l.calls cs).2.capacity = l.capacity := by
  induction cs generalizing l with
  | nil => rfl
  | cons c cs ih => exact (ih _).trans (l.call_capacity c)

theorem insert_behind (hfull : l.entries.length = l.capacity)
    (h : ∀ y ∈ l.entries, ¬ Before (view, d) y) : l.insert view d = (false, l) := by
  have hplace : place (view, d) (l.entries ++ []) = l.entries ++ [(view, d)] := place_append h
  rw [List.append_nil] at hplace
  have hahead : ahead (view, d) l.entries = l.entries :=
    List.takeWhile_eq_self_iff.mpr fun y hy => decide_eq_true (h y hy)
  rw [insert, hahead, hplace, List.take_left' hfull, hfull]
  simp

theorem insert_over (hfull : l.entries.length = l.capacity) (hws : l.entries = ws ++ [x])
    (h : Before (view, d) x) :
    l.insert view d = (true, { l with entries := place (view, d) ws }) := by
  have hlen : (place (view, d) ws).length = l.capacity := by
    rw [length_place, ← hfull, hws, List.length_append, List.length_singleton]
  have hahead : (ahead (view, d) ws).length < l.capacity := by
    rw [← hlen, length_place]
    exact Nat.lt_succ_of_le (length_ahead_le _ _)
  rw [insert, hws, ahead_concat h, place_concat h, List.take_left' hlen, decide_eq_true hahead]

theorem perm_filed (classify : View → MessageKind → Disposition) (ws : List (View × Delivery)) :
    (filed classify .process ws ++ (filed classify .keep ws ++ filed classify .discard ws)).Perm ws := by
  induction ws with
  | nil => exact .nil
  | cons w ws ih =>
    obtain ⟨view, d⟩ := w
    have hw {x : Disposition} : filed classify x ((view, d) :: ws) =
        if classify view d.message.kind = x then (view, d) :: filed classify x ws
        else filed classify x ws := by
      simp [filed, List.filter_cons]
    simp only [hw]
    cases classify view d.message.kind with
    | process => exact ih.cons _
    | keep => exact List.perm_middle.trans (ih.cons _)
    | discard =>
      simp only [reduceCtorEq, if_true, if_false]
      rw [← List.append_assoc] at ih ⊢
      exact List.perm_middle.trans (ih.cons _)

end Waitlist

namespace Backlog

open Waitlist

def entriesOf (qs : SortedMap Slot (List Delivery)) : List (View × Delivery) :=
  qs.flatMap fun (slot, ds) => ds.map fun d => (slot.view, d)

structure Tidy (qs : SortedMap Slot (List Delivery)) : Prop where
  ascending : SortedMap.Ascending qs
  placed : ∀ q ∈ qs, ∀ d ∈ q.2, slotOf (q.1.view, d) = q.1
  filled : ∀ q ∈ qs, q.2 ≠ []

variable {qs : SortedMap Slot (List Delivery)} {slot : Slot} {ds : List Delivery} {x : View × Delivery}

@[simp] theorem entriesOf_nil : entriesOf [] = [] := rfl

@[simp] theorem entriesOf_cons :
    entriesOf ((slot, ds) :: qs) = ds.map (fun d => (slot.view, d)) ++ entriesOf qs := rfl

@[simp] theorem entriesOf_append (qs rs : SortedMap Slot (List Delivery)) :
    entriesOf (qs ++ rs) = entriesOf qs ++ entriesOf rs :=
  List.flatMap_append

theorem length_entriesOf (qs : SortedMap Slot (List Delivery)) :
    (qs.flatMap fun (_, ds) => ds).length = (entriesOf qs).length := by
  induction qs with
  | nil => rfl
  | cons q qs ih =>
    rw [List.flatMap_cons, List.length_append, ih, entriesOf_cons, List.length_append, List.length_map]

theorem tidy_nil : Tidy [] := ⟨List.Pairwise.nil, by simp, by simp⟩

theorem Tidy.tail {q : Slot × List Delivery} (h : Tidy (q :: qs)) : Tidy qs where
  ascending := (List.pairwise_cons.mp h.ascending).2
  placed := fun q' hq => h.placed q' (List.mem_cons_of_mem _ hq)
  filled := fun q' hq => h.filled q' (List.mem_cons_of_mem _ hq)

theorem Tidy.slotOf_mem (h : Tidy qs) (hx : x ∈ entriesOf qs) : ∃ q ∈ qs, slotOf x = q.1 := by
  obtain ⟨q, hq, hx⟩ := List.mem_flatMap.mp hx
  obtain ⟨d, hd, rfl⟩ := List.mem_map.mp hx
  exact ⟨q, hq, h.placed q hq d hd⟩

theorem Tidy.slotOf_head (h : Tidy ((slot, ds) :: qs)) (hx : x ∈ ds.map fun d => (slot.view, d)) :
    slotOf x = slot := by
  obtain ⟨d, hd, rfl⟩ := List.mem_map.mp hx
  exact h.placed _ List.mem_cons_self d hd

theorem Tidy.slot_lt (h : Tidy ((slot, ds) :: qs)) (hx : x ∈ entriesOf qs) : slot < slotOf x := by
  obtain ⟨q, hq, heq⟩ := h.tail.slotOf_mem hx
  exact heq ▸ (List.pairwise_cons.mp h.ascending).1 q hq

theorem Tidy.inOrder (h : Tidy qs) : InOrder (entriesOf qs) := by
  induction qs with
  | nil => exact List.Pairwise.nil
  | cons q qs ih =>
    obtain ⟨slot, ds⟩ := q
    refine List.pairwise_append.mpr ⟨?_, ih h.tail, fun x hx y hy => ?_⟩
    · refine List.pairwise_of_forall_mem_list fun x hx y hy => ?_
      rw [before_iff, h.slotOf_head hx, h.slotOf_head hy]
      exact irrefl_of (· < ·) slot
    · rw [before_iff, h.slotOf_head hx]
      exact asymm_of (· < ·) (h.slot_lt hy)

theorem Tidy.entriesOf_insert (h : Tidy qs) (view : View) (d : Delivery) :
    entriesOf (qs.insert (slotOf (view, d)) ((qs.find? (slotOf (view, d))).getD [] ++ [d])) =
      place (view, d) (entriesOf qs) := by
  induction qs with
  | nil => rfl
  | cons q qs ih =>
    obtain ⟨slot, ds⟩ := q
    have hhead {x : View × Delivery} (hx : x ∈ ds.map fun d => (slot.view, d)) :
        Before (view, d) x ↔ slotOf (view, d) < slot := by
      rw [before_iff, h.slotOf_head hx]
    -- the new queue comes first, or the message joins the first queue, or it belongs further on
    rcases Slot.lt_or_eq_or_gt (slotOf (view, d)) slot with hlt | heq | hgt
    · have hall : ∀ x ∈ entriesOf ((slot, ds) :: qs), Before (view, d) x := by
        intro x hx
        rcases List.mem_append.mp hx with hx | hx
        · exact (hhead hx).mpr hlt
        · exact before_iff.mpr (Slot.lt_trans hlt (h.slot_lt hx))
      have hnone : SortedMap.find? ((slot, ds) :: qs) (slotOf (view, d)) = none := by
        refine SortedMap.find?_eq_none_of_lt fun q hq => ?_
        rcases List.mem_cons.mp hq with rfl | hq
        · exact hlt
        · exact Slot.lt_trans hlt ((List.pairwise_cons.mp h.ascending).1 q hq)
      rw [place_of_before hall, SortedMap.insert, if_pos hlt, hnone]
      rfl
    · have hirr : ¬ slotOf (view, d) < slot := heq ▸ irrefl_of (· < ·) slot
      have hrest : place (view, d) (entriesOf qs) = (view, d) :: entriesOf qs :=
        place_of_before fun x hx => before_iff.mpr (heq ▸ h.slot_lt hx)
      have hview : slot.view = view := (congrArg Slot.view heq).symm
      rw [entriesOf_cons, place_append fun x hx => (hhead hx).not.mpr hirr, hrest,
        SortedMap.insert, if_neg hirr, if_pos heq, SortedMap.find?_cons, if_pos heq.symm]
      simp [heq, hview]
    · have hnot : ¬ slotOf (view, d) < slot := asymm_of (· < ·) hgt
      have hne : slotOf (view, d) ≠ slot := fun heq => irrefl_of (· < ·) slot (heq ▸ hgt)
      rw [entriesOf_cons, place_append fun x hx => (hhead hx).not.mpr hnot, ← ih h.tail,
        SortedMap.insert, if_neg hnot, if_neg hne, SortedMap.find?_cons, if_neg hne.symm,
        entriesOf_cons]

theorem Tidy.insert (h : Tidy qs) (view : View) (d : Delivery) :
    Tidy (qs.insert (slotOf (view, d)) ((qs.find? (slotOf (view, d))).getD [] ++ [d])) where
  ascending := h.ascending.insert _ _
  placed := by
    intro q hq e he
    rcases SortedMap.mem_insert hq with rfl | hq
    swap
    · exact h.placed q hq e he
    rcases List.mem_append.mp he with he | he
    · cases hf : qs.find? (slotOf (view, d)) with
      | none => simp [hf] at he
      | some es =>
        rw [hf] at he
        exact h.placed _ (SortedMap.mem_of_find? hf) e he
    · rw [List.mem_singleton.mp he]
      rfl
  filled := by
    intro q hq
    rcases SortedMap.mem_insert hq with rfl | hq
    · exact List.append_ne_nil_of_right_ne_nil _ (List.cons_ne_nil _ _)
    · exact h.filled q hq

theorem Tidy.shrink {rs : SortedMap Slot (List Delivery)} (h : Tidy qs)
    (hkeys : (rs.map Prod.fst).Sublist (qs.map Prod.fst)) (hfilled : ∀ r ∈ rs, r.2 ≠ [])
    (hsub : ∀ r ∈ rs, ∃ q ∈ qs, r.1 = q.1 ∧ r.2 ⊆ q.2) : Tidy rs where
  ascending := h.ascending.of_keys hkeys
  placed := by
    intro r hr d hd
    obtain ⟨q, hq, hslot, hds⟩ := hsub r hr
    rw [hslot]
    exact h.placed q hq d (hds hd)
  filled := hfilled

structure Lists (b : Backlog) (ws : List (View × Delivery)) : Prop where
  tidy : Tidy b.queues
  toList : b.toList = ws
  size : b.size = ws.length

variable {b : Backlog} {ws : List (View × Delivery)}

theorem Lists.push (h : Lists b ws) (view : View) (d : Delivery) :
    Lists (b.push (slotOf (view, d)) d) (place (view, d) ws) where
  tidy := h.tidy.insert view d
  toList := h.toList ▸ h.tidy.entriesOf_insert view d
  size := by
    rw [length_place, ← h.size]
    rfl

theorem Tidy.eq_nil_or_concat (h : Tidy qs) :
    qs = [] ∨ ∃ rest slot front d, qs = rest ++ [(slot, front ++ [d])] := by
  rcases List.eq_nil_or_concat' qs with hnil | ⟨rest, ⟨slot, ds⟩, hqs⟩
  · exact .inl hnil
  · have hne : ds ≠ [] := h.filled (slot, ds) (hqs ▸ List.mem_concat_self)
    obtain ⟨front, d, rfl⟩ := (List.eq_nil_or_concat' ds).resolve_left hne
    exact .inr ⟨rest, slot, front, d, hqs⟩

theorem evict_of_nil (hqs : b.queues = []) : b.evict = b := by
  rw [Backlog.evict, hqs]
  rfl

theorem evict_of_concat {rest : SortedMap Slot (List Delivery)} {front : List Delivery} {d : Delivery}
    (hqs : b.queues = rest ++ [(slot, front ++ [d])]) :
    b.evict = { b with
      queues := rest ++ if front = [] then [] else [(slot, front)]
      size := b.size - 1 } := by
  rw [Backlog.evict, hqs, List.getLast?_concat]
  simp [List.length_eq_zero_iff]

theorem Tidy.evict (h : Tidy b.queues) : Tidy b.evict.queues := by
  rcases h.eq_nil_or_concat with hnil | ⟨rest, slot, front, d, hqs⟩
  · rwa [evict_of_nil hnil]
  · rw [evict_of_concat hqs]
    rw [hqs] at h
    have hrest {q : Slot × List Delivery} (hq : q ∈ rest) :
        ∃ q' ∈ rest ++ [(slot, front ++ [d])], q.1 = q'.1 ∧ q.2 ⊆ q'.2 :=
      ⟨q, List.mem_append_left _ hq, rfl, List.Subset.refl _⟩
    by_cases hf : front = []
    · rw [if_pos hf, List.append_nil]
      exact h.shrink (by simp) (fun q hq => h.filled q (List.mem_append_left _ hq)) fun q hq => hrest hq
    · rw [if_neg hf]
      refine h.shrink (by simp) (fun q hq => ?_) fun q hq => ?_ <;>
        rcases List.mem_append.mp hq with hq | hq
      · exact h.filled q (List.mem_append_left _ hq)
      · rwa [List.mem_singleton.mp hq]
      · exact hrest hq
      · rw [List.mem_singleton.mp hq]
        exact ⟨_, List.mem_concat_self, rfl, List.subset_append_left _ _⟩

theorem Lists.evict (h : Lists b ws) : Lists b.evict ws.dropLast := by
  have htidy := h.tidy.evict
  obtain ⟨hqueues, rfl, hsize⟩ := h
  rcases hqueues.eq_nil_or_concat with hnil | ⟨rest, slot, front, d, hqs⟩
  · have hnone : b.toList = [] := congrArg entriesOf hnil
    rw [evict_of_nil hnil] at htidy ⊢
    exact ⟨htidy, by rw [hnone]; rfl, by rw [hsize, hnone]; rfl⟩
  · have hlast : b.toList = entriesOf rest ++ (front ++ [d]).map fun d => (slot.view, d) :=
      (congrArg entriesOf hqs).trans (by simp)
    refine ⟨htidy, ?_, ?_⟩ <;> rw [evict_of_concat hqs]
    · have hentries : entriesOf (if front = [] then [] else [(slot, front)]) =
          front.map fun d => (slot.view, d) := by
        split <;> simp [*]
      rw [hlast, List.map_append, ← List.append_assoc, List.map_singleton, List.dropLast_concat,
        ← hentries]
      exact entriesOf_append _ _
    · rw [List.length_dropLast, ← hsize]

theorem Lists.exists_last (h : Lists b ws) (hl : b.queues.getLast? = some (slot, ds)) :
    ∃ front x, ws = front ++ [x] ∧ slotOf x = slot := by
  obtain ⟨htidy, rfl, -⟩ := h
  rcases htidy.eq_nil_or_concat with hnil | ⟨rest, slot', front, d, hqs⟩
  · rw [hnil] at hl
    exact nomatch hl
  · rw [hqs, List.getLast?_concat] at hl
    obtain ⟨rfl, rfl⟩ := Prod.mk.inj (Option.some.inj hl)
    have hmem : (slot', front ++ [d]) ∈ b.queues := hqs ▸ List.mem_concat_self
    refine ⟨entriesOf rest ++ front.map fun d => (slot'.view, d), (slot'.view, d), ?_,
      htidy.placed _ hmem d List.mem_concat_self⟩
    exact (congrArg entriesOf hqs).trans (by simp)

/-- A backlog and a list with the same messages and the same capacity. -/
structure Mirrors (b : Backlog) (l : Waitlist) : Prop extends Lists b l.entries where
  capacity : b.capacity = l.capacity
  bounded : l.entries.length ≤ l.capacity

variable {l : Waitlist}

theorem empty_mirrors (capacity : Nat) : Mirrors (empty capacity) (.empty capacity) :=
  ⟨⟨tidy_nil, rfl, rfl⟩, rfl, Nat.zero_le _⟩

theorem evict_capacity (b : Backlog) : b.evict.capacity = b.capacity := by
  unfold Backlog.evict
  split <;> rfl

theorem Mirrors.insert (h : Mirrors b l) (view : View) (d : Delivery) :
    (b.insert view d).1 = (l.insert view d).1 ∧
      Mirrors (b.insert view d).2 (l.insert view d).2 := by
  have hsize : b.size = l.entries.length := h.size
  have hcap := h.capacity
  unfold Backlog.insert
  dsimp only
  by_cases hroom : b.size < b.capacity
  · have hlt : l.entries.length < l.capacity := hsize ▸ hcap ▸ hroom
    rw [if_pos hroom, insert_of_room hlt]
    exact ⟨rfl, h.toLists.push view d, hcap, (length_place _ _).trans_le hlt⟩
  rw [if_neg hroom]
  -- the list is full now, and its last message decides
  have hfull : l.entries.length = l.capacity :=
    Nat.le_antisymm h.bounded (hsize ▸ hcap ▸ Nat.le_of_not_lt hroom)
  split
  · rename_i hl
    have hnil : l.entries = [] := h.toList ▸ congrArg entriesOf (List.getLast?_eq_none_iff.mp hl)
    rw [insert_behind hfull (by simp [hnil])]
    exact ⟨rfl, h⟩
  · rename_i slot ds hl
    obtain ⟨front, x, hws, rfl⟩ := h.exists_last hl
    have hiff : Before (view, d) x ↔ Slot.of view d.message.kind < slotOf x := before_iff
    split
    · rename_i hlt
      rw [insert_over hfull hws (hiff.mpr hlt)]
      have hevict : Lists b.evict front := by
        simpa [hws] using h.toLists.evict
      refine ⟨rfl, hevict.push view d, (evict_capacity b).trans hcap, ?_⟩
      rw [length_place, ← hfull, hws, List.length_append, List.length_singleton]
    · rename_i hlt
      have horder : InOrder (front ++ [x]) := by
        rw [← hws, ← h.toList]
        exact h.tidy.inOrder
      rw [insert_behind hfull fun y hy => horder.not_before (hiff.not.mpr hlt) (hws ▸ hy)]
      exact ⟨rfl, h⟩

def kept (classify : View → MessageKind → Disposition) (qs : SortedMap Slot (List Delivery)) :
    SortedMap Slot (List Delivery) :=
  (qs.map fun (slot, ds) => (slot, ds.filter fun d => classify slot.view d.message.kind = .keep)).filter
    fun (_, ds) => !ds.isEmpty

theorem entriesOf_kept (classify : View → MessageKind → Disposition)
    (qs : SortedMap Slot (List Delivery)) :
    entriesOf (kept classify qs) = filed classify .keep (entriesOf qs) := by
  induction qs with
  | nil => rfl
  | cons q qs ih =>
    obtain ⟨slot, ds⟩ := q
    have hhead : filed classify .keep (ds.map fun d => (slot.view, d)) =
        (ds.filter fun d => classify slot.view d.message.kind = .keep).map fun d => (slot.view, d) :=
      List.filter_map
    rw [entriesOf_cons, filed, List.filter_append]
    change _ = filed classify .keep _ ++ filed classify .keep _
    rw [hhead, ← ih, kept, List.map_cons, List.filter_cons]
    dsimp only
    split
    · rfl
    · rename_i he
      rw [show ds.filter _ = [] by simpa using he]
      rfl

theorem Tidy.kept (h : Tidy qs) (classify : View → MessageKind → Disposition) :
    Tidy (kept classify qs) := by
  refine h.shrink ?_ (fun r hr => ?_) fun r hr => ?_
  · refine (List.filter_sublist.map Prod.fst).trans ?_
    rw [List.map_map]
    exact .refl _
  · simpa using (List.mem_filter.mp hr).2
  · obtain ⟨q, hq, rfl⟩ := List.mem_map.mp (List.mem_filter.mp hr).1
    exact ⟨q, hq, rfl, List.filter_sublist.subset⟩

theorem Mirrors.drain (h : Mirrors b l) (classify : View → MessageKind → Disposition) :
    (b.drain classify).1 = (l.drain classify).1 ∧
      Mirrors (b.drain classify).2 (l.drain classify).2 := by
  have hready : (b.drain classify).1 = (l.drain classify).1 := by
    rw [Backlog.drain, Waitlist.drain, h.toList]
    rfl
  have hkept : (b.drain classify).2.toList = filed classify .keep l.entries := by
    rw [← h.toList]
    exact entriesOf_kept classify b.queues
  refine ⟨hready, ⟨h.tidy.kept classify, hkept, ?_⟩, h.capacity,
    (List.length_filter_le _ _).trans h.bounded⟩
  rw [Waitlist.drain, ← hkept]
  exact length_entriesOf _

theorem Mirrors.call (h : Mirrors b l) (c : Call) :
    (b.call c).1 = (l.call c).1 ∧ Mirrors (b.call c).2 (l.call c).2 := by
  cases c with
  | insert view d => exact (h.insert view d).imp_left (congrArg Answer.stored)
  | drain classify => exact (h.drain classify).imp_left (congrArg Answer.ready)

theorem Mirrors.calls (h : Mirrors b l) (cs : List Call) :
    (b.calls cs).1 = (l.calls cs).1 ∧ Mirrors (b.calls cs).2 (l.calls cs).2 := by
  induction cs generalizing b l with
  | nil => exact ⟨rfl, h⟩
  | cons c cs ih =>
    obtain ⟨hanswer, hnext⟩ := h.call c
    obtain ⟨hanswers, hlast⟩ := ih hnext
    refine ⟨?_, hlast⟩
    simp only [Backlog.calls, Waitlist.calls, hanswer, hnext.size, hanswers]

theorem Mirrors.insert_evicts (h : Mirrors b l) (view : View) (d : Delivery) :
    ∃ evicted, (b.insert view d).2.toList ++ evicted = place (view, d) b.toList ∧
      evicted.length ≤ 1 ∧ (b.size < l.capacity → evicted = []) := by
  have hbounded := h.bounded
  refine ⟨(place (view, d) l.entries).drop l.capacity, ?_, ?_, fun hroom => ?_⟩
  · rw [(h.insert view d).2.toList, h.toList]
    exact List.take_append_drop _ _
  · rw [List.length_drop, length_place]
    omega
  · have hsize : b.size = l.entries.length := h.size
    rw [List.drop_eq_nil_iff, length_place]
    omega

theorem Mirrors.drain_perm (h : Mirrors b l) (classify : View → MessageKind → Disposition) :
    ((b.drain classify).1 ++ ((b.drain classify).2.toList ++
      filed classify .discard b.toList).map (·.2)).Perm (b.toList.map (·.2)) := by
  obtain ⟨hready, hkept⟩ := h.drain classify
  rw [hready, hkept.toList, h.toList]
  simpa only [Waitlist.drain, List.map_append] using (perm_filed classify l.entries).map (·.2)

/-- After any calls, a backlog has given the answers of the list, and has its messages in its order. Of
what there is then, no call loses anything but the last message of all, where there is no room for one
more, and what is discarded. -/
theorem calls_refine_waitlist (capacity : Nat) (cs : List Call) :
    let (answers, b) := (empty capacity).calls cs
    let (expected, l) := (Waitlist.empty capacity).calls cs
    (answers = expected ∧ b.toList = l.entries ∧ b.size = l.entries.length) ∧
      InOrder l.entries ∧ l.entries.length ≤ capacity ∧
      (∀ view d, ∃ evicted, (b.insert view d).2.toList ++ evicted = place (view, d) b.toList ∧
        evicted.length ≤ 1 ∧ (b.size < capacity → evicted = [])) ∧
      ∀ classify, ((b.drain classify).1 ++ ((b.drain classify).2.toList ++
        filed classify .discard b.toList).map (·.2)).Perm (b.toList.map (·.2)) := by
  obtain ⟨hanswers, hlast⟩ := (empty_mirrors capacity).calls cs
  have hcap : ((Waitlist.empty capacity).calls cs).2.capacity = capacity := calls_capacity _ cs
  have hevicts := hlast.insert_evicts
  rw [hcap] at hevicts
  exact ⟨⟨hanswers, hlast.toList, hlast.size⟩, hlast.toList ▸ hlast.tidy.inOrder,
    hlast.bounded.trans_eq hcap, hevicts, hlast.drain_perm⟩

end Backlog

end BlockAgreement
