import BlockAgreement.Proofs.Replica.Heights
import BlockAgreement.Proofs.Replica.Memory
import BlockAgreement.Proofs.Replica.Proposals

/-!
# Requests are neither lost nor revived

A block can be asked for long before its height comes. It is held until then, taken up when the height is
entered, and kept through every round of it. What the replica would propose is therefore always the block
that it was asked for last at its height, and what it holds is for later heights.
-/

set_option autoImplicit false

namespace BlockAgreement

namespace Memory

variable {m n : Memory} {asked : List Block} {b : Block}

def blockFor (m : Memory) (n : Height) : Option Block :=
  (SortedMap.find? m.held n).or (if m.height = some n then m.block else none)

/-- For no height that is still to be decided a block has been forgotten, or is there in place of one that
was asked for later. What was asked for last stands first. -/
structure Tracks (m : Memory) (asked : List Block) : Prop where
  numbered : ∀ e ∈ m.held, e.2.number = e.1
  latest : ∀ n, (∀ old ∈ m.height, old ≤ n) → m.blockFor n = asked.find? (·.number = n)

theorem request_eq {n : Height} (hn : m.height = some n) (b : Block) :
    m.request b =
      if n < b.number then { m with held := m.held.insert b.number b }
      else if b.number < n then m
      else { m with block := some b } := by
  cases m
  cases hn
  rfl

theorem turn_eq {n : Height} (hn : m.height = some n) (hnum : ∀ e ∈ m.held, e.2.number = e.1) :
    m.turn = { m with
      held := SortedMap.erase (m.held.filter fun e => decide (n ≤ e.1)) n
      block := m.blockFor n } := by
  have hfound :
      SortedMap.find? (m.held.filter fun e => decide (n ≤ e.1)) n = SortedMap.find? m.held n := by
    rw [SortedMap.find?_filter m.held (fun height => decide (n ≤ height)) n]
    simp
  simp only [turn, hn, hfound, blockFor, if_true]
  cases hb : SortedMap.find? m.held n with
  | none => rfl
  | some b =>
    have hnumber : b.number = n := hnum _ (SortedMap.mem_of_find? hb)
    have hlt : ¬ b.number < n := hnumber ▸ UInt64.lt_irrefl b.number
    have hgt : ¬ n < b.number := hnumber ▸ UInt64.lt_irrefl b.number
    exact (request_eq rfl b).trans ((if_neg hgt).trans (if_neg hlt))

theorem Tracks.turn (h : m.Tracks asked) : m.turn.Tracks asked := by
  cases hn : m.height with
  | none =>
    have hsame : m.turn = m := by simp only [Memory.turn, hn]
    rwa [hsame]
  | some n =>
    rw [turn_eq hn h.numbered]
    refine ⟨fun e he => h.numbered e (List.mem_filter.mp (List.mem_filter.mp he).1).1, fun k hk => ?_⟩
    rw [← h.latest k hk]
    have hle : n ≤ k := hk n hn
    have hkept := SortedMap.find?_filter m.held (fun height => decide (n ≤ height)) k
    simp only [blockFor, hn, SortedMap.find?_erase, hkept, hle, Option.some.injEq, decide_true, if_true]
    split <;> simp_all

theorem Tracks.request {n : Height} (h : m.Tracks asked) (hn : m.height = some n)
    (hnone : SortedMap.find? m.held n = none) : (m.request b).Tracks (b :: asked) := by
  -- a request for another height leaves what there is for this one
  have hother {k : Height} (hk : ∀ old ∈ m.height, old ≤ k) (hb : b.number ≠ k) :
      m.blockFor k = (b :: asked).find? (·.number = k) := by
    rw [h.latest k hk, List.find?_cons_of_neg (by simpa using hb)]
  rw [request_eq hn]
  split
  · rename_i hlater
    refine ⟨fun e he => ?_, fun k hk => ?_⟩
    · rcases SortedMap.mem_insert he with rfl | he
      · rfl
      · exact h.numbered e he
    · by_cases hb : b.number = k
      · subst hb
        simp [blockFor, SortedMap.find?_insert]
      · rw [← hother hk hb]
        simp [blockFor, SortedMap.find?_insert, hb]
  · rename_i hlater
    split
    · rename_i hearlier
      refine ⟨h.numbered, fun k hk => hother hk ?_⟩
      rintro rfl
      exact absurd hearlier (UInt64.not_lt.mpr (hk n hn))
    · rename_i hearlier
      obtain rfl : b.number = n :=
        UInt64.le_antisymm (UInt64.not_lt.mp hlater) (UInt64.not_lt.mp hearlier)
      refine ⟨h.numbered, fun k hk => ?_⟩
      by_cases hb : b.number = k
      · subst hb
        simp [blockFor, hn, hnone]
      · rw [← hother hk hb]
        simp [blockFor, hn, hb]

theorem Step.tracks {ds : List Digest} (hs : Step m ds n) (h : m.Tracks asked) : n.Tracks asked := by
  cases hs with
  | spread => exact ⟨h.numbered, h.latest⟩
  | @reach n hlater =>
    refine Tracks.turn ⟨h.numbered, fun k hk => ?_⟩
    have hle : n ≤ k := hk n rfl
    have hold : m.height ≠ some k :=
      fun hk => UInt64.lt_irrefl _ (UInt64.lt_of_lt_of_le (hlater k hk) hle)
    rw [← h.latest k fun old hold => UInt64.le_of_lt (UInt64.lt_of_lt_of_le (hlater old hold) hle)]
    simp [blockFor, hold]
  | review => exact h.turn

theorem Steps.tracks {ds : List Digest} (hs : Steps m ds n) (h : m.Tracks asked) : n.Tracks asked := by
  induction hs with
  | refl => exact h
  | step _ hs ih => exact hs.tracks ih

end Memory

namespace Replica

variable {σ : Type} [Scheme] [Ledger σ] {start r : Replica σ} {h : List (Moment σ)}

theorem create_memory {signer : Signer} {ledger : σ} {archive : Archive} {gossip : Gossip}
    {timer : Timer} {capacity : Nat}
    (hc : create signer ledger archive gossip timer capacity = .ok r) :
    r.memory = ⟨signer.address, none, none, [], gossip⟩ := by
  obtain ⟨_, _, _, -, -, rfl⟩ := create_ok hc
  rfl

omit [Scheme] [Ledger σ] in
theorem HoldsLater.find?_eq_none {view : View} (hr : r.HoldsLater) (hv : r.view? = some view) :
    SortedMap.find? r.held view.sequence = none := by
  refine Option.eq_none_iff_forall_ne_some.mpr fun b hb => ?_
  exact UInt64.lt_irrefl _ (hr view hv _ (SortedMap.mem_of_find? hb))

theorem Run.tracks (hn : start.memory.Tracks []) (hv : start.view? = none) (hs : start.started = false)
    (hr : Run start h r) : r.memory.Tracks (h.filterMap Moment.requested) := by
  induction hr with
  | nil => exact hn
  | @step h r e hr ih =>
    obtain ⟨payloads, hsteps⟩ := react_remembers r e
    rw [List.filterMap_cons]
    unfold Moment.told at hsteps
    cases hb : Moment.requested ⟨r, e⟩ with
    | none =>
      rw [hb] at hsteps
      exact hsteps.tracks ih
    | some b =>
      rw [hb] at hsteps
      have hstarted : r.started = true := by
        by_contra hstopped
        simp [Moment.requested, hstopped] at hb
      obtain ⟨view, hview⟩ := Option.ne_none_iff_exists'.mp (hr.view_ne_none hs hstarted)
      have hheight : r.memory.height = some view.sequence := by simp [memory, hview]
      have hnone := (hr.sound hv).held.find?_eq_none hview
      exact hsteps.tracks (ih.request (b := b) hheight hnone)

/-- In every run of a replica, the block that it would propose is the last one that it was asked for at
its height, if any, whenever that was and whatever rounds and heights have come since. The blocks that
it holds are for later heights, and are the last ones that it was asked for there. -/
theorem latest_request {signer : Signer} {ledger : σ} {archive : Archive} {gossip : Gossip}
    {timer : Timer} {capacity : Nat}
    (hc : create signer ledger archive gossip timer capacity = .ok start) (hr : Run start h r) :
    ∀ a, r.attempt = some a →
      a.request = (h.filterMap Moment.requested).find? (·.number = a.view.sequence) ∧
      (∀ e ∈ r.held, a.view.sequence < e.1 ∧ e.2.number = e.1) ∧
      ∀ n, a.view.sequence < n →
        SortedMap.find? r.held n = (h.filterMap Moment.requested).find? (·.number = n) := by
  intro a ha
  obtain ⟨-, -, -, -, -, hattempt, -⟩ := create_spec hc
  have hmemory := create_memory hc
  have hstart : start.memory.Tracks [] := by
    rw [hmemory]
    exact ⟨by simp, fun n _ => by simp [Memory.blockFor]⟩
  have hview : start.view? = none := by simp [view?, hattempt]
  have htracks := hr.tracks hstart hview (create_started hc)
  have hlater := (hr.sound hview).held
  have hnone := hlater.find?_eq_none (view?_of_attempt ha)
  have hle {n : Height} (hn : a.view.sequence ≤ n) : ∀ old ∈ r.memory.height, old ≤ n := by
    intro old hold
    obtain rfl : a.view.sequence = old := by simpa [memory, view?, ha] using hold
    exact hn
  refine ⟨?_, fun e he => ⟨hlater _ (view?_of_attempt ha) e he, htracks.numbered e he⟩, fun n hn => ?_⟩
  · rw [← htracks.latest _ (hle (UInt64.le_refl _))]
    simp [Memory.blockFor, memory, view?, ha, hnone]
  · rw [← htracks.latest n (hle (UInt64.le_of_lt hn))]
    simp [Memory.blockFor, memory, view?, ha, UInt64.ne_of_lt hn]

end Replica

namespace Pair

open Replica

attribute [local instance] Scheme.plain

def outdated : Block := { successor with header := { successor.header with timestamp := 3 } }

/-- At height 1 the first validator is asked for two blocks of height 2 and one of height 3, and runs out
of time. Then someone else adds the block of height 1. -/
def requestEvents : List (Event MemoryLedger) :=
  [.start, .input (.request outdated), .input (.request successor),
    .input (.request { successor with header := { successor.header with number := 3 } }),
    .input (.timeout ⟨1, 0⟩), .process, .replace grown, .input .headMoved]

/-- At height 2 it would propose the later one of the two, and holds the block of height 3. -/
theorem latest_request_held : ∃ start a, replica first = .ok start ∧
    (requestEvents.foldl react start).attempt = some a ∧ a.view = ⟨2, 0⟩ ∧ a.request = some successor ∧
    ∃ b, (3, b) ∈ (requestEvents.foldl react start).held ∧ a.view.sequence < 3 := by
  obtain ⟨start, hc, hview, hasked, hheld⟩ := exists_replica (k := first) (P := fun start =>
    (requestEvents.foldl react start).view? = some ⟨2, 0⟩ ∧
    ((start.moments requestEvents).filterMap Moment.requested).find? (·.number = 2) = some successor ∧
    (requestEvents.foldl react start).held.map (·.1) = [3]) (by decide +kernel)
  obtain ⟨a, ha, hview⟩ := Option.map_eq_some_iff.mp hview
  obtain ⟨hrequest, hlater, -⟩ :=
    latest_request hc (moments_run start requestEvents) a ha
  obtain ⟨⟨n, b⟩, hb, rfl⟩ := List.mem_map.mp (hheld ▸ List.mem_singleton_self 3)
  rw [hview] at hrequest
  exact ⟨start, a, hc, ha, hview, hrequest.trans hasked, b, hb, (hlater _ hb).1⟩

end Pair

end BlockAgreement
