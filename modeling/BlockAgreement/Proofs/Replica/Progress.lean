import BlockAgreement.Proofs.Replica.Course
import Mathlib.Data.Prod.Lex
import Mathlib.Order.WithBot

/-!
# Progress

How far a replica has come is its sequence, its round and its phase, in lexicographic order. A replica
that waits in its round comes before all phases of it. Whatever happens to a replica, it does not fall
back, so that a view is never entered twice.
-/

set_option autoImplicit false

namespace BlockAgreement

abbrev Progress := ℕ ×ₗ ℕ ×ₗ ℕ

namespace Progress

def of (view : View) (stage : ℕ) : Progress :=
  toLex (view.sequence.toNat, toLex (view.round.toNat, stage))

def entry (view : View) : Progress := of view 1

variable {u v : View} {i j : ℕ}

theorem of_lt_of : of u i < of v j ↔ u < v ∨ u = v ∧ i < j := by
  have hview : u = v ↔ u.sequence = v.sequence ∧ u.round = v.round := by
    cases u
    cases v
    simp
  simp only [of, Prod.Lex.toLex_lt_toLex, View.lt_iff, hview, UInt64.lt_iff_toNat_lt,
    ← UInt64.toNat_inj]
  tauto

theorem of_le_of (h : u < v ∨ u = v ∧ i ≤ j) : of u i ≤ of v j := by
  rcases h with h | ⟨rfl, h⟩
  · exact (of_lt_of.mpr (.inl h)).le
  · rcases Nat.lt_or_eq_of_le h with h | rfl
    · exact (of_lt_of.mpr (.inr ⟨rfl, h⟩)).le
    · exact le_rfl

theorem entry_lt_entry : entry u < entry v ↔ u < v := by
  simp [entry, of_lt_of]

end Progress

structure Advances (p : WithBot Progress) (views : List View) (q : WithBot Progress) : Prop where
  le : p ≤ q
  lt_entry : ∀ view ∈ views, p < (Progress.entry view : WithBot Progress)
  entry_le : ∀ view ∈ views, (Progress.entry view : WithBot Progress) ≤ q
  ordered : views.Pairwise fun later earlier => earlier < later

namespace Advances

variable {p q t : WithBot Progress} {us vs : List View}

theorem stay (h : p ≤ q) : Advances p [] q := ⟨h, by simp, by simp, .nil⟩

theorem enter {view : View} (h : p < (Progress.entry view : WithBot Progress)) :
    Advances p [view] (Progress.entry view : WithBot Progress) :=
  ⟨h.le, by simpa using h, by simp, List.pairwise_singleton _ _⟩

theorem trans (hp : Advances p us q) (hq : Advances q vs t) : Advances p (vs ++ us) t where
  le := hp.le.trans hq.le
  lt_entry view hv := by
    rcases List.mem_append.mp hv with hv | hv
    · exact hp.le.trans_lt (hq.lt_entry view hv)
    · exact hp.lt_entry view hv
  entry_le view hv := by
    rcases List.mem_append.mp hv with hv | hv
    · exact hq.entry_le view hv
    · exact (hp.entry_le view hv).trans hq.le
  ordered := by
    refine List.pairwise_append.mpr ⟨hq.ordered, hp.ordered, fun later hl earlier he => ?_⟩
    have hlt := (hp.entry_le earlier he).trans_lt (hq.lt_entry later hl)
    exact Progress.entry_lt_entry.mp (WithBot.coe_lt_coe.mp hlt)

end Advances

namespace Position

def progress (p : Position) : WithBot Progress :=
  p.view.elim ⊥ fun view => (Progress.of view (if p.waiting then 0 else p.phase.rank + 1) : Progress)

theorem progress_of_view {p : Position} {view : View} (hv : p.view = some view) :
    p.progress = (Progress.of view (if p.waiting then 0 else p.phase.rank + 1) : Progress) := by
  rw [progress, hv]
  rfl

variable [Scheme] {origin p q : Position} {heard : Option Message} {head : Height} {vs : List View}

theorem Step.advances (h : Step origin heard head p vs q) : Advances p.progress vs q.progress := by
  cases h with
  | @rise _ phase hw hp =>
    refine .stay ?_
    rcases Option.eq_none_or_eq_some p.view with hv | ⟨view, hv⟩
    · simp [progress, hv]
    · rw [progress_of_view hv, progress_of_view (p := { p with phase }) hv, WithBot.coe_le_coe, hw]
      exact Progress.of_le_of (.inr ⟨rfl, Nat.succ_le_succ hp⟩)
  | append => exact .stay le_rfl
  | ask hv hr =>
    refine .stay ?_
    rw [progress_of_view hv, progress_of_view rfl, WithBot.coe_le_coe]
    exact Progress.of_le_of (.inl (.inr ⟨rfl, hr⟩))
  | @enterSequence _ sequence _ _ hn hv =>
    refine .enter ?_
    rcases Option.eq_none_or_eq_some p.view with hview | ⟨view, hview⟩
    · rw [progress, hview]
      exact WithBot.bot_lt_coe _
    · rw [progress_of_view hview, WithBot.coe_lt_coe]
      have hle := UInt64.le_iff_toNat_le.mp (hv view hview)
      have hnext := toNat_of_next? hn
      have hlt : view.sequence < sequence := UInt64.lt_iff_toNat_lt.mpr (by omega)
      exact Progress.of_lt_of.mpr (.inl (.inl hlt))
  | @enterRound view round m last hm ha hq h0 hn =>
    refine .enter ?_
    rw [progress_of_view ha.current, WithBot.coe_lt_coe]
    -- a replica that has not waited in the round comes from a lower one
    by_cases hlt : view.round < round
    · exact Progress.of_lt_of.mpr (.inl (.inr ⟨rfl, hlt⟩))
    · have hround : view.round = round :=
        UInt64.le_antisymm (UInt64.not_lt.mp ha.above) (UInt64.not_lt.mp hlt)
      rw [hq.2.resolve_right hlt]
      exact Progress.of_lt_of.mpr (.inr ⟨by rw [← hround], Nat.zero_lt_one⟩)
  | count hm ha hq => exact .stay le_rfl
  | miss hm ha hq hn => exact .stay le_rfl

theorem Steps.advances (h : Steps origin heard head p vs q) :
    Advances p.progress vs q.progress := by
  induction h with
  | refl => exact .stay le_rfl
  | step _ hs ih => exact ih.trans hs.advances

end Position

namespace Replica

variable {σ : Type}

/-- How far the replica has come, if it has entered a view. Waiting counts as stage 0 and the phases as
stages 1 to 4. -/
def progress (r : Replica σ) : WithBot Progress :=
  r.view?.elim ⊥ fun view => (Progress.of view (if r.waiting then 0 else r.phase.rank + 1) : Progress)

variable [Ledger σ] [Scheme] {start r : Replica σ} {h : List (Moment σ)}

theorem Moment.advances (m : Moment σ) : Advances m.before.progress m.entered m.after.progress :=
  m.steps.advances

theorem Run.advances (hr : Run start h r) :
    Advances start.progress (h.flatMap Moment.entered) r.progress := by
  induction hr with
  | nil => exact .stay le_rfl
  | @step h r e _ ih => exact ih.trans (Moment.advances ⟨r, e⟩)

end Replica

namespace Pair

open Replica

attribute [local instance] Scheme.plain

end Pair

end BlockAgreement
