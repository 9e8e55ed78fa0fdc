import BlockAgreement.Proofs.Replica.Hearing
import Mathlib.Order.Defs.Unbundled

/-!
# What waits in the backlog

The queues of a backlog stay in ascending order, so that a message that is stored is added and no other
message is. What is taken out and what is kept of the messages that wait is no more than there was.
-/

set_option autoImplicit false

namespace BlockAgreement

namespace SortedMap

variable {κ α : Type} [LT κ]

def Ascending (m : SortedMap κ α) : Prop := m.Pairwise fun d e => d.1 < e.1

theorem Ascending.of_keys {β : Type} {m : SortedMap κ α} {n : SortedMap κ β} (hm : m.Ascending)
    (hn : (n.map Prod.fst).Sublist (m.map Prod.fst)) : n.Ascending := by
  have hkeys : (m.map Prod.fst).Pairwise (· < ·) := List.pairwise_map.mpr hm
  exact List.pairwise_map.mp (hkeys.sublist hn)

variable [DecidableEq κ] [DecidableLT κ] [IsStrictTotalOrder κ (· < ·)]

theorem Ascending.insert {m : SortedMap κ α} (hm : m.Ascending) (k : κ) (a : α) :
    (m.insert k a).Ascending := by
  induction m with
  | nil => exact List.pairwise_singleton _ _
  | cons e m ih =>
    obtain ⟨j, b⟩ := e
    obtain ⟨hj, htail⟩ := List.pairwise_cons.mp hm
    simp only [SortedMap.insert]
    split
    · rename_i hlt
      refine List.pairwise_cons.mpr ⟨fun e he => ?_, List.pairwise_cons.mpr ⟨hj, htail⟩⟩
      rcases List.mem_cons.mp he with rfl | he
      · exact hlt
      · exact trans_of (· < ·) hlt (hj e he)
    · split
      · rename_i heq
        subst heq
        exact List.pairwise_cons.mpr ⟨hj, htail⟩
      · rename_i hlt hne
        have hjk : j < k := (trichotomous_of (· < ·) j k).resolve_right
          fun h => h.elim (fun h => hne h.symm) hlt
        refine List.pairwise_cons.mpr ⟨fun e he => ?_, ih htail⟩
        rcases mem_insert he with rfl | he
        · exact hjk
        · exact hj e he

omit [DecidableLT κ] in
theorem find?_eq_none_of_lt {m : SortedMap κ α} {k : κ} (h : ∀ e ∈ m, k < e.1) :
    m.find? k = none := by
  rw [find?, Option.map_eq_none_iff, List.find?_eq_none]
  intro e he hk
  have heq : e.1 = k := of_decide_eq_true hk
  exact irrefl_of (· < ·) k (heq ▸ h e he)

theorem Ascending.perm_push {m : SortedMap κ (List α)} (hm : m.Ascending) (k : κ) (a : α) :
    ((m.insert k ((m.find? k).getD [] ++ [a])).flatMap Prod.snd).Perm (a :: m.flatMap Prod.snd) := by
  induction m with
  | nil => simp [SortedMap.insert]
  | cons e m ih =>
    obtain ⟨j, b⟩ := e
    obtain ⟨hj, hm⟩ := List.pairwise_cons.mp hm
    simp only [SortedMap.insert]
    split
    · rename_i hlt
      have hnone : find? ((j, b) :: m) k = none := by
        refine find?_eq_none_of_lt fun e he => ?_
        rcases List.mem_cons.mp he with rfl | he
        · exact hlt
        · exact trans_of (· < ·) hlt (hj e he)
      simp [hnone]
    · split
      · rename_i heq
        subst heq
        simp only [find?_cons, if_true, Option.getD_some, List.flatMap_cons, List.append_assoc]
        exact List.perm_middle
      · rename_i hne
        simp only [find?_cons, if_neg (Ne.symm hne), List.flatMap_cons]
        exact ((ih hm).append_left b).trans List.perm_middle

end SortedMap

namespace Slot

theorem lt_iff {a b : Slot} : a < b ↔ a.view < b.view ∨ a.view = b.view ∧ a.rank < b.rank := Iff.rfl

theorem lt_trans {a b c : Slot} (h : a < b) (h' : b < c) : a < c := by
  rcases h with h | ⟨h, hr⟩ <;> rcases h' with h' | ⟨h', hr'⟩
  · exact .inl (View.lt_trans h h')
  · exact .inl (h' ▸ h)
  · exact .inl (h ▸ h')
  · exact .inr ⟨h.trans h', Nat.lt_trans hr hr'⟩

instance : IsStrictTotalOrder Slot (· < ·) where
  irrefl a h := h.elim (View.lt_irrefl _) fun h => Nat.lt_irrefl _ h.2
  trans _ _ _ := lt_trans
  trichotomous a b h h' := by
    rw [lt_iff, not_or, not_and] at h h'
    have hview := View.eq_of_not_lt h.1 h'.1
    have hrank : a.rank = b.rank :=
      Nat.le_antisymm (Nat.not_lt.mp (h'.2 hview.symm)) (Nat.not_lt.mp (h.2 hview))
    cases a
    cases b
    exact congr (congrArg Slot.mk hview) hrank

end Slot

namespace Backlog

variable {b : Backlog}

def Ordered (b : Backlog) : Prop := SortedMap.Ascending b.queues

theorem empty_ordered (capacity : Nat) : (empty capacity).Ordered := List.Pairwise.nil

theorem Ordered.push (hb : b.Ordered) (slot : Slot) (d : Delivery) : (b.push slot d).Ordered :=
  SortedMap.Ascending.insert hb slot _

theorem Ordered.perm_push (hb : b.Ordered) (slot : Slot) (d : Delivery) :
    (b.push slot d).messages.Perm (d.message :: b.messages) :=
  (SortedMap.Ascending.perm_push hb slot d).map _

theorem Ordered.evict (hb : b.Ordered) : b.evict.Ordered := by
  unfold Backlog.evict
  split
  · exact hb
  · rename_i slot ds hl
    obtain ⟨qs, hq⟩ := List.getLast?_eq_some_iff.mp hl
    refine SortedMap.Ascending.of_keys hb ?_
    rw [hq, List.dropLast_concat]
    split <;> simp

theorem evict_sublist (b : Backlog) : b.evict.messages.Sublist b.messages := by
  unfold Backlog.evict
  split
  · exact .refl _
  · rename_i slot ds hl
    obtain ⟨qs, hq⟩ := List.getLast?_eq_some_iff.mp hl
    unfold messages
    rw [hq, List.dropLast_concat, List.flatMap_append, List.flatMap_append]
    refine ((List.Sublist.refl _).append ?_).map _
    split
    · simp
    · simpa using List.dropLast_sublist ds

theorem Ordered.insert (hb : b.Ordered) (view : View) (d : Delivery) :
    (b.insert view d).2.Ordered := by
  unfold Backlog.insert
  dsimp only
  split
  · exact hb.push _ d
  · split
    · exact hb
    · split
      · exact hb.evict.push _ d
      · exact hb

theorem Ordered.drain (hb : b.Ordered) (classify : View → MessageKind → Disposition) :
    (b.drain classify).2.Ordered := by
  refine SortedMap.Ascending.of_keys hb ?_
  refine (List.filter_sublist.map Prod.fst).trans ?_
  rw [List.map_map]
  exact .refl _

end Backlog

def Message.weight (m : Message) : Nat := if m.kind = .preprepare then 2 else 1

def weigh : List Message → Nat
  | [] => 0
  | c :: cs => c.weight + weigh cs

section Weight

variable {cs ds : List Message} {c : Message}

theorem Message.weight_preprepare (h : c.kind = .preprepare) : c.weight = 2 := if_pos h

theorem Message.weight_pos (c : Message) : 0 < c.weight := by
  unfold weight
  split <;> decide

theorem Message.weight_le (c : Message) : c.weight ≤ 2 := by
  unfold weight
  split <;> decide

@[simp] theorem weigh_nil : weigh [] = 0 := rfl

@[simp] theorem weigh_cons (c : Message) (cs : List Message) : weigh (c :: cs) = c.weight + weigh cs :=
  rfl

@[simp] theorem weigh_append (cs ds : List Message) : weigh (cs ++ ds) = weigh cs + weigh ds := by
  induction cs with
  | nil => simp
  | cons c cs ih => simp [ih, Nat.add_assoc]

theorem weigh_perm (h : cs.Perm ds) : weigh cs = weigh ds := by
  induction h with
  | nil => rfl
  | cons c _ ih => simp [ih]
  | swap c d cs => simp [Nat.add_left_comm]
  | trans _ _ ih ih' => exact ih.trans ih'

theorem weigh_sublist (h : cs.Sublist ds) : weigh cs ≤ weigh ds := by
  induction h with
  | slnil => exact Nat.le_refl _
  | cons c _ ih => exact ih.trans (Nat.le_add_left _ _)
  | cons_cons c _ ih => exact Nat.add_le_add_left ih _

theorem weigh_le (cs : List Message) : weigh cs ≤ 2 * cs.length := by
  induction cs with
  | nil => exact Nat.le_refl _
  | cons c cs ih =>
    have := c.weight_le
    rw [weigh_cons, List.length_cons]
    omega

theorem weigh_filter_add (ds : List Delivery) {P Q : Delivery → Bool} (h : ∀ d, P d → ¬ Q d) :
    weigh ((ds.filter P).map (·.message)) + weigh ((ds.filter Q).map (·.message)) ≤
      weigh (ds.map (·.message)) := by
  induction ds with
  | nil => exact Nat.le_refl _
  | cons d ds ih =>
    have := h d
    rw [List.filter_cons, List.filter_cons, List.map_cons, weigh_cons]
    cases hp : P d <;> cases hq : Q d <;> simp_all <;> omega

end Weight

namespace Backlog

variable {b : Backlog}

theorem Ordered.weigh_insert (hb : b.Ordered) (view : View) (d : Delivery) :
    weigh (b.insert view d).2.messages ≤ weigh b.messages + d.message.weight := by
  have hpush {b : Backlog} (hb : b.Ordered) (slot : Slot) :
      weigh (b.push slot d).messages = d.message.weight + weigh b.messages :=
    weigh_perm (hb.perm_push slot d)
  have hevict := weigh_sublist (evict_sublist b)
  unfold Backlog.insert
  dsimp only
  split
  · rw [hpush hb]
    omega
  · split
    · exact Nat.le_add_right _ _
    · split
      · rw [hpush hb.evict]
        omega
      · exact Nat.le_add_right _ _

theorem flatMap_nonempty (qs : SortedMap Slot (List Delivery)) :
    (qs.filter fun q => !q.2.isEmpty).flatMap (·.2) = qs.flatMap (·.2) := by
  induction qs with
  | nil => rfl
  | cons q qs ih =>
    rw [List.filter_cons, List.flatMap_cons]
    split
    · rw [List.flatMap_cons, ih]
    · rename_i hq
      rw [ih, show q.2 = [] by simpa using hq, List.nil_append]

theorem weigh_drain (b : Backlog) (classify : View → MessageKind → Disposition) :
    weigh ((b.drain classify).1.map (·.message)) + weigh (b.drain classify).2.messages ≤
      weigh b.messages := by
  simp only [drain, messages, toList, flatMap_nonempty]
  induction b.queues with
  | nil => exact Nat.le_refl _
  | cons q qs ih =>
    obtain ⟨slot, ds⟩ := q
    have hone := weigh_filter_add ds
      (P := fun d => classify slot.view d.message.kind = .process)
      (Q := fun d => classify slot.view d.message.kind = .keep) (by simp_all)
    simp only [List.map_cons, List.flatMap_cons, List.filter_append, List.map_append, weigh_append,
      List.filter_map, List.map_map, Function.comp_def] at ih hone ⊢
    omega

end Backlog

end BlockAgreement
