import BlockAgreement.Committee
import Mathlib.Data.Finset.Card
import Mathlib.Data.List.Perm.Subperm
import Mathlib.Order.Bounds.Defs

/-!
# Quorums

Two quorums of a committee share more members than may be faulty, and the quorum is the least number for
which that is so. Without the faulty members there are enough left for a quorum. A committee that loses
no member needs no smaller one.
-/

set_option autoImplicit false

namespace BlockAgreement.Committee

variable {c d : Committee} {P Q : List Address}

theorem quorum_pos (c : Committee) : 0 < c.quorum := Nat.succ_pos _

theorem members_nodup (c : Committee) : c.members.Nodup :=
  c.ascending.imp fun h => BitVec.ne_of_lt h

theorem quorum_mono (h : ∀ a ∈ c.members, a ∈ d.members) : c.quorum ≤ d.quorum := by
  have hsize : c.members.length ≤ d.members.length := (c.members_nodup.subperm h).length_le
  unfold quorum faults size
  omega

theorem exists_left (h : d.quorum < c.quorum) : ∃ a, c.contains a = true ∧ d.contains a = false := by
  by_contra hnone
  refine absurd (quorum_mono fun a ha => ?_) (Nat.not_le.mpr h)
  have hd : d.contains a ≠ false := fun hd => hnone ⟨a, contains_iff.mpr ha, hd⟩
  exact contains_iff.mp (Bool.ne_false_iff.mp hd)

/-- All members but some, of which there are no more than the committee tolerates, satisfy `honest`. -/
def Tolerates (c : Committee) (honest : Address → Prop) : Prop :=
  ∃ byzantine : List Address, byzantine.length ≤ c.faults ∧
    ∀ a ∈ c.members, a ∈ byzantine ∨ honest a

theorem card_add_card_le {s P Q : Finset Address} (hP : P ⊆ s) (hQ : Q ⊆ s) :
    P.card + Q.card ≤ s.card + (P ∩ Q).card := by
  rw [← Finset.card_union_add_card_inter]
  exact Nat.add_le_add_right (Finset.card_le_card (Finset.union_subset hP hQ)) _

theorem card_members (c : Committee) : c.members.toFinset.card = c.size :=
  List.toFinset_card_of_nodup c.members_nodup

theorem faults_lt_inter (hP : ∀ a ∈ P, a ∈ c.members) (hQ : ∀ a ∈ Q, a ∈ c.members)
    (hPn : P.Nodup) (hQn : Q.Nodup) (hPq : c.quorum ≤ P.length) (hQq : c.quorum ≤ Q.length) :
    c.faults < (P.toFinset ∩ Q.toFinset).card := by
  have hgroup {as : List Address} (h : ∀ a ∈ as, a ∈ c.members) : as.toFinset ⊆ c.members.toFinset :=
    fun a ha => List.mem_toFinset.mpr (h a (List.mem_toFinset.mp ha))
  have hcards := card_add_card_le (hgroup hP) (hgroup hQ)
  rw [List.toFinset_card_of_nodup hPn, List.toFinset_card_of_nodup hQn, card_members] at hcards
  rw [quorum] at hPq hQq
  omega

theorem exists_honest {honest : Address → Prop} (hc : c.Tolerates honest)
    (hP : ∀ a ∈ P, a ∈ c.members) (hQ : ∀ a ∈ Q, a ∈ c.members)
    (hPn : P.Nodup) (hQn : Q.Nodup) (hPq : c.quorum ≤ P.length) (hQq : c.quorum ≤ Q.length) :
    ∃ a ∈ P, a ∈ Q ∧ honest a := by
  obtain ⟨byzantine, hl, hb⟩ := hc
  have hlt := faults_lt_inter hP hQ hPn hQn hPq hQq
  have hbyz : byzantine.toFinset.card < (P.toFinset ∩ Q.toFinset).card :=
    (byzantine.toFinset_card_le.trans hl).trans_lt hlt
  obtain ⟨a, ha, hnot⟩ := Finset.exists_mem_notMem_of_card_lt_card hbyz
  rw [Finset.mem_inter, List.mem_toFinset, List.mem_toFinset] at ha
  refine ⟨a, ha.1, ha.2, (hb a (hP a ha.1)).resolve_left fun h => hnot ?_⟩
  exact List.mem_toFinset.mpr h

/-- Any two groups of at least `q` members share more members than may be faulty. -/
def Overlaps (c : Committee) (q : Nat) : Prop :=
  ∀ P ⊆ c.members.toFinset, ∀ Q ⊆ c.members.toFinset, q ≤ P.card → q ≤ Q.card →
    c.faults + 1 ≤ (P ∩ Q).card

theorem exists_apart {s : Finset Address} {q : Nat} (hq : q ≤ s.card) :
    ∃ P ⊆ s, ∃ Q ⊆ s, P.card = q ∧ Q.card = q ∧ (P ∩ Q).card = 2 * q - s.card := by
  obtain ⟨P, hP, hPq⟩ := Finset.exists_subset_card_eq hq
  have hrest : (s \ P).card = s.card - q := by rw [Finset.card_sdiff_of_subset hP, hPq]
  by_cases hhalf : s.card - q ≤ q
  · -- The second group is all of the rest, and some of the first one.
    obtain ⟨Q, hsub, hQ, hQq⟩ := Finset.exists_subsuperset_card_eq
      (Finset.sdiff_subset : s \ P ⊆ s) (hrest.trans_le hhalf) hq
    have hunion : P ∪ Q = s := by
      refine Finset.Subset.antisymm (Finset.union_subset hP hQ) fun a ha => ?_
      by_cases haP : a ∈ P
      · exact Finset.mem_union_left Q haP
      · exact Finset.mem_union_right P (hsub (Finset.mem_sdiff.mpr ⟨ha, haP⟩))
    have hcards := Finset.card_union_add_card_inter P Q
    rw [hunion] at hcards
    exact ⟨P, hP, Q, hQ, hPq, hQq, by omega⟩
  · obtain ⟨Q, hQ, hQq⟩ := Finset.exists_subset_card_eq (s := s \ P) (n := q) (by omega)
    have hinter : P ∩ Q = ∅ :=
      Finset.disjoint_iff_inter_eq_empty.mp (Finset.disjoint_of_subset_right hQ Finset.disjoint_sdiff)
    refine ⟨P, hP, Q, hQ.trans Finset.sdiff_subset, hPq, hQq, ?_⟩
    rw [hinter, Finset.card_empty]
    omega

theorem overlaps_iff {q : Nat} : c.Overlaps q ↔ c.size + c.faults < 2 * q := by
  constructor
  · intro h
    by_contra hfew
    have hq : q ≤ c.size := by
      unfold faults at hfew
      omega
    obtain ⟨P, hP, Q, hQ, hPq, hQq, hinter⟩ := exists_apart (hq.trans_eq c.card_members.symm)
    have hshare := h P hP Q hQ hPq.ge hQq.ge
    rw [hinter, card_members] at hshare
    omega
  · intro h P hP Q hQ hPq hQq
    have hcards := card_add_card_le hP hQ
    rw [card_members] at hcards
    omega

/-- The quorum is the least number such that any two groups of as many members share more members than
may be faulty. Whichever members are faulty, as long as they are no more than the committee tolerates,
the others are a quorum. -/
theorem quorum_safe_and_live (hc : 0 < c.size) :
    IsLeast {q | c.Overlaps q} c.quorum ∧
      ∀ faulty : Finset Address, faulty.card ≤ c.faults →
        c.quorum ≤ (c.members.toFinset \ faulty).card := by
  refine ⟨⟨?_, ?_⟩, ?_⟩
  · show c.Overlaps c.quorum
    rw [overlaps_iff, quorum]
    omega
  · intro q hq
    have hlt := overlaps_iff.mp hq
    rw [quorum]
    omega
  · intro faulty hfaulty
    have hleft := Finset.le_card_sdiff faulty c.members.toFinset
    rw [card_members] at hleft
    rw [faults] at hfaulty
    rw [quorum, faults]
    omega

/-- Of six members one may be faulty. Any two groups of four share two members, groups of three need
not, and five honest members are more than a quorum. -/
theorem quorum_safe_and_live_of_six :
    let c := ofList [5, 3, 6, 1, 4, 2] .roundRobin
    c.faults = 1 ∧ IsLeast {q | c.Overlaps q} 4 ∧
      ∀ faulty : Finset Address, faulty.card ≤ 1 → 4 ≤ (c.members.toFinset \ faulty).card := by
  intro c
  have hquorum : c.quorum = 4 := by decide
  have hfaults : c.faults = 1 := by decide
  have hsix := quorum_safe_and_live (c := c) (by decide)
  rw [hquorum, hfaults] at hsix
  exact ⟨hfaults, hsix⟩

end BlockAgreement.Committee
