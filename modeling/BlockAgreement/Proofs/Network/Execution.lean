import BlockAgreement.Proofs.Replica.Votes
import Mathlib.Logic.Function.Basic

/-!
# Executions of a network

Events happen to the replicas of a network one at a time and in any order. What a replica hears from
outside is up to the environment, short of messages that verify as another replica's without being
signed by it: so messages may be lost, doubled, delayed and made up by whoever is not a replica here.
-/

set_option autoImplicit false

namespace BlockAgreement.Network

open Replica

variable {ι σ : Type} [DecidableEq ι] [Scheme] [Ledger σ]

/-- From the first replicas the moments, of which the newest stands first, lead to the last ones. -/
inductive Execution (start : ι → Replica σ) : List (ι × Moment σ) → (ι → Replica σ) → Prop where
  | nil : Execution start [] start
  | step {h : List (ι × Moment σ)} {net : ι → Replica σ} (i : ι) (e : Event σ)
      (he : Execution start h net) :
      Execution start ((i, ⟨net i, e⟩) :: h) (Function.update net i ((net i).react e))

def own (i : ι) (h : List (ι × Moment σ)) : List (Moment σ) :=
  h.filterMap fun x => if x.1 = i then some x.2 else none

def Signed (h : List (ι × Moment σ)) (i : ι) (c : Message) : Prop :=
  ∃ m, (i, m) ∈ h ∧ ∃ d ∈ m.signed, { d with signature := c.signature } = c

def Unforged (start : ι → Replica σ) (h : List (ι × Moment σ)) : Prop :=
  ∀ x k, x :: k <:+ h → ∀ d, x.2.event = .input (.message d) → d.message.verify = .ok () →
    ∀ j, (start j).signer.address = d.message.sender → Signed k j d.message

variable {start net : ι → Replica σ} {h k : List (ι × Moment σ)} {i j : ι} {c : Message}

omit [Scheme] [Ledger σ] in
theorem mem_own {m : Moment σ} : m ∈ own i h ↔ (i, m) ∈ h := by
  simp only [own, List.mem_filterMap]
  constructor
  · rintro ⟨⟨j, n⟩, hx, he⟩
    split at he
    · rename_i hj
      obtain rfl := Option.some.inj he
      exact hj ▸ hx
    · cases he
  · exact fun hm => ⟨(i, m), hm, if_pos rfl⟩

omit [Scheme] [Ledger σ] in
theorem own_cons_self (m : Moment σ) : own i ((i, m) :: h) = m :: own i h := by
  simp [own]

omit [Scheme] [Ledger σ] in
theorem own_cons_ne (m : Moment σ) (hj : j ≠ i) : own i ((j, m) :: h) = own i h := by
  simp [own, hj]

/-- Each replica runs on its own. -/
theorem Execution.run (he : Execution start h net) (i : ι) : Run (start i) (own i h) (net i) := by
  induction he with
  | nil => exact .nil
  | @step h net j e _ ih =>
    by_cases hj : j = i
    · subst hj
      rw [own_cons_self, Function.update_self]
      exact .step e ih
    · rw [own_cons_ne _ hj, Function.update_of_ne (Ne.symm hj)]
      exact ih

/-- What happens to one replica in a row happens in the network. -/
theorem Execution.extend (he : Execution start h net) (i : ι) {k : List (Moment σ)} {r : Replica σ}
    (hr : Run (net i) k r) :
    Execution start (k.map (i, ·) ++ h) (Function.update net i r) := by
  induction hr with
  | nil =>
    rw [Function.update_eq_self]
    exact he
  | @step k r e _ ih =>
    have hs := Execution.step i e ih
    rw [Function.update_self, Function.update_idem] at hs
    exact hs

omit [DecidableEq ι] in
theorem Signed.mono (hs : Signed k i c) (hk : k ⊆ h) : Signed h i c := by
  obtain ⟨m, hm, hd⟩ := hs
  exact ⟨m, hk hm, hd⟩

omit [DecidableEq ι] in
theorem Unforged.of_suffix (hu : Unforged start h) (hk : k <:+ h) : Unforged start k :=
  fun x l hx => hu x l (hx.trans hk)

omit [DecidableEq ι] in
theorem Unforged.extend (hu : Unforged start h) (i : ι) {k : List (Moment σ)}
    (hk : ∀ m ∈ k, ∀ d, m.event = .input (.message d) → d.message.verify = .ok () →
      ∀ j, (start j).signer.address = d.message.sender → Signed h j d.message) :
    Unforged start (k.map (i, ·) ++ h) := by
  induction k with
  | nil => exact hu
  | cons m k ih =>
    intro x l hx
    rcases List.suffix_cons_iff.mp hx with he | hx
    · obtain ⟨rfl, rfl⟩ := List.cons.inj he
      intro d hd hv j hj
      exact (hk m List.mem_cons_self d hd hv j hj).mono (List.subset_append_right _ _)
    · exact ih (fun m hm => hk m (List.mem_cons_of_mem _ hm)) x l hx

def Sourced (start net : ι → Replica σ) (h : List (ι × Moment σ)) : Prop :=
  ∀ i, ∀ c ∈ (net i).queued, c.verify = .ok () →
    ∀ j, (start j).signer.address = c.sender → Signed h j c

omit [DecidableEq ι] in
theorem Sourced.heard {e : Event σ} (hs : Sourced start net h)
    (hu : Unforged start ((i, ⟨net i, e⟩) :: h)) (hc : Moment.heard ⟨net i, e⟩ = some c)
    (hv : c.verify = .ok ()) (hj : (start j).signer.address = c.sender) : Signed h j c := by
  unfold Moment.heard at hc
  dsimp only at hc
  split at hc
  · split at hc
    · rename_i d
      obtain rfl := Option.some.inj hc
      exact hu _ h (List.suffix_refl _) d rfl hv j hj
    · refine hs i c ?_ hv j hj
      obtain ⟨d, hd, rfl⟩ := Option.map_eq_some_iff.mp hc
      exact List.mem_append_left _ (List.mem_map.mpr ⟨d, List.mem_of_head? hd, rfl⟩)
    · cases hc
  · cases hc

theorem Execution.sourced (he : Execution start h net) (hu : Unforged start h)
    (ha : ∀ i j, (start i).signer.address = (start j).signer.address → i = j)
    (hq : ∀ i, (start i).queued = []) (hr : ∀ x ∈ h, ∀ l, x.2.event ≠ .replace l) :
    Sourced start net h := by
  induction he with
  | nil =>
    intro i c hc
    rw [hq i] at hc
    cases hc
  | @step h net i e he ih =>
    have ih := ih (hu.of_suffix (List.suffix_cons _ _)) fun x hx => hr x (List.mem_cons_of_mem _ hx)
    intro k c hc hv j hj
    by_cases hk : k = i
    · subst hk
      rw [Function.update_self] at hc
      obtain ⟨-, -, hqueue⟩ := Moment.moves (m := ⟨net k, e⟩) (hr _ List.mem_cons_self)
      rcases hqueue c hc with hc | hc | hc
      · exact (ih k c hc hv j hj).mono (List.subset_cons_self _ _)
      · exact (ih.heard hu hc hv hj).mono (List.subset_cons_self _ _)
      · -- the replica itself has just signed it
        have hc := Moment.mem_signed.mpr hc
        have hsender : c.sender = (start k).signer.address := by
          rw [(Moment.sender (m := ⟨net k, e⟩)).2 c hc, ← (he.run k).signer]
        obtain rfl := ha j k (hj.trans hsender)
        exact ⟨_, List.mem_cons_self, c, hc, rfl⟩
    · rw [Function.update_of_ne hk] at hc
      exact (ih k c hc hv j hj).mono (List.subset_cons_self _ _)

/-- Whatever a replica has heard and verifies as another one's has been signed by that one. -/
theorem Execution.heard_signed (he : Execution start h net) (hu : Unforged start h)
    (ha : ∀ i j, (start i).signer.address = (start j).signer.address → i = j)
    (hq : ∀ i, (start i).queued = []) (hr : ∀ x ∈ h, ∀ l, x.2.event ≠ .replace l)
    (hc : Heard (own i h) c) (hv : c.verify = .ok ())
    (hj : (start j).signer.address = c.sender) : Signed h j c := by
  induction he with
  | nil =>
    obtain ⟨m, hm, -⟩ := hc
    cases hm
  | @step h net k e he ih =>
    have huh := hu.of_suffix (List.suffix_cons _ _)
    have hrh : ∀ x ∈ h, ∀ l, x.2.event ≠ .replace l := fun x hx => hr x (List.mem_cons_of_mem _ hx)
    obtain ⟨m, hm, hheard⟩ := hc
    rcases List.mem_cons.mp (mem_own.mp hm) with hm | hm
    · obtain ⟨rfl, rfl⟩ := Prod.mk.inj hm
      exact ((he.sourced huh ha hq hrh).heard hu hheard hv hj).mono (List.subset_cons_self _ _)
    · exact (ih huh hrh ⟨m, mem_own.mpr hm, hheard⟩).mono (List.subset_cons_self _ _)

end BlockAgreement.Network
