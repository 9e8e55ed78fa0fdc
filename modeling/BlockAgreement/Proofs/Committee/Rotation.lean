import BlockAgreement.Proofs.Committee.Quorum
import Mathlib.Data.List.Nodup
import Mathlib.Data.List.Rotate
import Mathlib.Data.Nat.ModEq

/-!
# Every member's turn comes

The proposers of consecutive rounds are the members from some one on, in their circle. So in as many
rounds as there are members, each member is the proposer of one. Numbers of 64 bits suffice to tell
whose turn it is, whatever the round is.
-/

set_option autoImplicit false

namespace BlockAgreement

def sum? (m n : UInt64) : Option UInt64 := if m.toNat + n.toNat < UInt64.size then some (m + n) else none

theorem sum?_eq_some {m n : UInt64} (h : m.toNat + n.toNat < UInt64.size) :
    ∃ k, sum? m n = some k ∧ k.toNat = m.toNat + n.toNat := by
  refine ⟨m + n, if_pos h, ?_⟩
  rw [UInt64.toNat_add]
  exact Nat.mod_eq_of_lt h

namespace Committee

variable {c : Committee} {last : Option Address} {round : Round}

def start (c : Committee) : Option Address → Nat
  | none => 0
  | some a => (c.position? a).getD 0 + (match c.policy with | .roundRobin => 1 | .sticky => 0)

theorem turn_eq (c : Committee) (last : Option Address) (round : Round) :
    c.turn last round = (c.start last + round.toNat) % c.size := by
  cases last <;> exact Nat.add_mod_mod _ _ _

theorem turn_ne {next : Round} (hc : c.size ≠ 1) (hn : next? round = some next) :
    c.turn last round ≠ c.turn last next := by
  intro heq
  rw [turn_eq, turn_eq, toNat_of_next? hn, ← Nat.add_assoc] at heq
  have hone : c.size ∣ 1 := by
    have hdvd := (Nat.modEq_iff_dvd' (Nat.le_add_right _ 1)).mp heq
    rwa [Nat.add_sub_cancel_left] at hdvd
  exact hc (Nat.dvd_one.mp hone)

theorem isProposer_next {next : Round} {a : Address} (hp : (c.choose last round).isProposer a = true)
    (ha : c.members ≠ [a]) (hn : next? round = some next) :
    (c.choose last next).isProposer a = false := by
  have hturn : c.members[c.turn last round]? = some a := beq_iff_eq.mp hp
  obtain ⟨hlt, hget⟩ := List.getElem?_eq_some_iff.mp hturn
  have hsize : c.size ≠ 1 := by
    intro h1
    obtain ⟨x, hx⟩ := List.length_eq_one_iff.mp h1
    have hmem : a ∈ c.members := List.mem_of_getElem hget
    rw [hx, List.mem_singleton] at hmem
    exact ha (hmem ▸ hx)
  refine beq_eq_false_iff_ne.mpr fun hnext => ?_
  obtain ⟨hlt', hget'⟩ := List.getElem?_eq_some_iff.mp
    (hnext : c.members[c.turn last next]? = some a)
  exact turn_ne hsize hn ((List.Nodup.getElem_inj_iff c.members_nodup).mp (hget.trans hget'.symm))

def rounds (first : Round) (n : Nat) : List Round :=
  (List.range n).map fun i => UInt64.ofNat (first.toNat + i)

def proposers (c : Committee) (last : Option Address) : List Round → List (Option Address)
  | [] => []
  | r :: rs => (c.choose last r).proposer :: proposers (c.choose last r) last rs

theorem proposers_eq_map (c : Committee) (last : Option Address) (rs : List Round) :
    c.proposers last rs = rs.map fun r => (c.choose last r).proposer := by
  induction rs generalizing c with
  | nil => rfl
  | cons r rs ih =>
    -- Whose turn it is does not depend on the one chosen before.
    rw [proposers, ih]
    rfl

theorem toNat_ofNat_add {i : Nat} (hround : round.toNat + (c.size - 1) < UInt64.size) (hi : i < c.size) :
    (UInt64.ofNat (round.toNat + i)).toNat = round.toNat + i :=
  UInt64.toNat_ofNat_of_lt' (by omega)

theorem proposers_eq_rotate (hround : round.toNat + (c.size - 1) < UInt64.size) :
    c.proposers last (rounds round c.size) =
      (c.members.rotate (c.start last + round.toNat)).map some := by
  rw [proposers_eq_map]
  refine List.ext_getElem (by simp [rounds, size]) fun i hi _ => ?_
  have hi : i < c.size := by simpa [rounds] using hi
  have hturn : c.turn last (UInt64.ofNat (round.toNat + i)) =
      (i + (c.start last + round.toNat)) % c.members.length := by
    rw [turn_eq, toNat_ofNat_add hround hi, size]
    congr 1
    omega
  have hlt : (i + (c.start last + round.toNat)) % c.members.length < c.members.length :=
    Nat.mod_lt _ (Nat.zero_lt_of_lt hi)
  simp only [rounds, choose, List.getElem_map, List.getElem_range, hturn]
  rw [List.getElem?_eq_getElem hlt, List.getElem_rotate]

def turnWord? (c : Committee) (last : Option Address) (round : Round) : Option UInt64 := do
  let size := UInt64.ofNat c.size
  let round := round % size
  let seed ← match last with
    | none => some round
    | some a =>
      let shifted := sum? (UInt64.ofNat ((c.position? a).getD 0)) round
      match c.policy with
      | .roundRobin => shifted.bind (sum? · 1)
      | .sticky => shifted
  return seed % size

theorem position?_lt {a : Address} (hc : 0 < c.size) : (c.position? a).getD 0 < c.size := by
  cases hp : c.position? a with
  | none => exact hc
  | some i => exact (List.idxOf?_eq_some_iff.mp hp).1

theorem turnWord?_eq (hc : 0 < c.size) (hsize : c.size ≤ 2 ^ 63) (last : Option Address) (round : Round) :
    ∃ w, c.turnWord? last round = some w ∧ w.toNat = c.turn last round := by
  -- an offset and a reduced round are each below the size, so that their sum is far from the limit
  have hdouble : 2 * c.size ≤ UInt64.size := by
    show 2 * c.size ≤ 18446744073709551616
    omega
  have hmembers : (UInt64.ofNat c.size).toNat = c.size := UInt64.toNat_ofNat_of_lt' (by omega)
  have hround : (round % UInt64.ofNat c.size).toNat = round.toNat % c.size := by
    rw [UInt64.toNat_mod, hmembers]
  have hlt : round.toNat % c.size < c.size := Nat.mod_lt _ hc
  have hseed {seed : UInt64} (hs : seed.toNat = c.start last + round.toNat % c.size) :
      (seed % UInt64.ofNat c.size).toNat = c.turn last round := by
    rw [UInt64.toNat_mod, hmembers, hs, turn_eq, Nat.add_mod_mod]
  cases last with
  | none => exact ⟨_, rfl, hseed (by rw [hround, start, Nat.zero_add])⟩
  | some a =>
    have hfound := position?_lt (a := a) hc
    have hoffset : (UInt64.ofNat ((c.position? a).getD 0)).toNat = (c.position? a).getD 0 :=
      UInt64.toNat_ofNat_of_lt' (by omega)
    obtain ⟨shifted, hshifted, hval⟩ := sum?_eq_some (m := UInt64.ofNat ((c.position? a).getD 0))
      (n := round % UInt64.ofNat c.size) (by omega)
    have hval : shifted.toNat = (c.position? a).getD 0 + round.toNat % c.size := by omega
    cases hp : c.policy with
    | sticky =>
      refine ⟨shifted % UInt64.ofNat c.size, ?_, hseed ?_⟩
      · simp only [turnWord?, hp, hshifted]
        rfl
      · rw [hval, start, hp]
        rfl
    | roundRobin =>
      have hone : shifted.toNat + (1 : UInt64).toNat < UInt64.size := by
        rw [UInt64.toNat_one]
        omega
      obtain ⟨next, hnext, hsum⟩ := sum?_eq_some hone
      refine ⟨next % UInt64.ofNat c.size, ?_, hseed ?_⟩
      · simp only [turnWord?, hp, hshifted, Option.bind_some, hnext]
        rfl
      · rw [hsum, hval, start, hp, UInt64.toNat_one]
        show _ = (c.position? a).getD 0 + 1 + _
        omega

/-- Each member is the proposer of exactly one of as many rounds as there are members. Whose turn it is
can be told in numbers of 64 bits: the bound on members holds of every list in memory, where an address
takes 20 bytes and a list has fewer than 2 ^ 63 of them. -/
theorem everyone_in_turn (hc : 0 < c.size) (last : Option Address)
    (hround : round.toNat + (c.size - 1) < UInt64.size) :
    (c.proposers last (rounds round c.size)).Perm (c.members.map some) ∧
      (c.size ≤ 2 ^ 63 → ∀ r ∈ rounds round c.size, ∃ w, c.turnWord? last r = some w ∧
        c.members[w.toNat]? = (c.choose last r).proposer) := by
  constructor
  · rw [proposers_eq_rotate hround]
    exact (List.rotate_perm ..).map some
  · intro hsize r _
    obtain ⟨w, hw, hturn⟩ := turnWord?_eq hc hsize last r
    exact ⟨w, hw, by rw [hturn]; rfl⟩

/-- The last rounds of a committee of four, after a block by a member that has left. -/
theorem everyone_in_turn_of_four :
    let c := ofList [4, 2, 3, 1] .roundRobin
    (c.proposers (some 5) (rounds 18446744073709551612 4)).Perm [some 1, some 2, some 3, some 4] ∧
      ∀ r ∈ rounds 18446744073709551612 4, ∃ w, c.turnWord? (some 5) r = some w ∧
        c.members[w.toNat]? = (c.choose (some 5) r).proposer := by
  obtain ⟨hrotation, hwords⟩ := @everyone_in_turn (ofList [4, 2, 3, 1] .roundRobin) 18446744073709551612
    (by decide) (some 5) (by decide)
  exact ⟨hrotation, hwords (by decide)⟩

end Committee

end BlockAgreement
