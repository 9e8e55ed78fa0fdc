import BlockAgreement.Proofs.Network.Execution

/-!
# Executions by schedule

A schedule tells what happens to which replica, part by part. It makes an execution, in which nothing is
forged if every message has been signed in an earlier part by whom it names as its sender.
-/

set_option autoImplicit false

namespace BlockAgreement.Network

open Replica

variable {ι σ : Type} [DecidableEq ι] [Scheme] [Ledger σ]

abbrev Schedule (ι σ : Type) := List (ι × List (Event σ))

namespace Schedule

def last (start : ι → Replica σ) (i : ι) : Schedule ι σ → Replica σ
  | [] => start i
  | (j, es) :: s => if j = i then es.foldl react (last start i s) else last start i s

def history (start : ι → Replica σ) : Schedule ι σ → List (ι × Moment σ)
  | [] => []
  | (j, es) :: s => ((last start j s).moments es).map (j, ·) ++ history start s

def Told (start : ι → Replica σ) (h : List (ι × Moment σ)) : Event σ → Prop
  | .input (.message d) =>
    ∃ x ∈ h, (start x.1).signer.address = d.message.sender ∧ d.message ∈ x.2.signed
  | _ => True

instance (start : ι → Replica σ) (h : List (ι × Moment σ)) (e : Event σ) :
    Decidable (Told start h e) := by
  unfold Told
  split <;> infer_instance

def Honest (start : ι → Replica σ) : Schedule ι σ → Prop
  | [] => True
  | (_, es) :: s => (∀ e ∈ es, Told start (history start s) e) ∧ Honest start s

instance decidableHonest (start : ι → Replica σ) : (s : Schedule ι σ) → Decidable (Honest start s)
  | [] => inferInstanceAs (Decidable True)
  | (_, es) :: s =>
    have := decidableHonest start s
    inferInstanceAs (Decidable ((∀ e ∈ es, Told start (history start s) e) ∧ Honest start s))

variable {start : ι → Replica σ} {s : Schedule ι σ}

theorem execution (start : ι → Replica σ) (s : Schedule ι σ) :
    Execution start (history start s) fun i => last start i s := by
  induction s with
  | nil => exact .nil
  | cons part s ih =>
    obtain ⟨j, es⟩ := part
    have he := ih.extend j (moments_run (last start j s) es)
    have hnet : Function.update (fun i => last start i s) j (es.foldl react (last start j s)) =
        fun i => last start i ((j, es) :: s) := by
      funext i
      by_cases hj : j = i
      · subst hj
        rw [Function.update_self, last, if_pos rfl]
      · rw [Function.update_of_ne (Ne.symm hj), last, if_neg hj]
    exact hnet ▸ he

theorem event_of_mem_history {x : ι × Moment σ} (hx : x ∈ history start s) :
    ∃ es, (x.1, es) ∈ s ∧ x.2.event ∈ es := by
  induction s with
  | nil => cases hx
  | cons part s ih =>
    obtain ⟨j, es⟩ := part
    rcases List.mem_append.mp hx with hx | hx
    · obtain ⟨m, hm, rfl⟩ := List.mem_map.mp hx
      exact ⟨es, List.mem_cons_self, event_of_mem_moments hm⟩
    · obtain ⟨fs, hfs, he⟩ := ih hx
      exact ⟨fs, List.mem_cons_of_mem _ hfs, he⟩

theorem Honest.unforged (hs : Honest start s)
    (ha : ∀ i j, (start i).signer.address = (start j).signer.address → i = j) :
    Unforged start (history start s) := by
  induction s with
  | nil => exact fun x k hx => absurd (List.suffix_nil.mp hx) (List.cons_ne_nil x k)
  | cons part s ih =>
    obtain ⟨j, es⟩ := part
    refine (ih hs.2).extend j fun m hm d hd _ i hi => ?_
    have htold := hs.1 _ (event_of_mem_moments hm)
    rw [hd] at htold
    obtain ⟨x, hx, hsender, hsigned⟩ := htold
    obtain rfl := ha i x.1 (hi.trans hsender.symm)
    exact ⟨x.2, hx, _, hsigned, rfl⟩

def Owned (s : Schedule ι σ) : Bool :=
  s.all fun part => part.2.all fun
    | .replace _ => false
    | _ => true

theorem Owned.ne_replace (hs : Owned s = true) {x : ι × Moment σ} (hx : x ∈ history start s) (l : σ) :
    x.2.event ≠ .replace l := by
  intro he
  obtain ⟨es, hes, hin⟩ := event_of_mem_history hx
  have hall := List.all_eq_true.mp (List.all_eq_true.mp hs _ hes) _ hin
  rw [he] at hall
  cases hall

end Schedule

end BlockAgreement.Network
