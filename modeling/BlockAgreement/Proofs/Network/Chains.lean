import BlockAgreement.Proofs.Committee.Quorum
import BlockAgreement.Proofs.Network.Execution
import BlockAgreement.Proofs.Replica.Office

/-!
# Chains that do not part

Of any two chains, one is a part of the other. Every header after the common beginning has a certificate,
a quorum of the committee in office of which every replica has voted to commit to it. Two certificates at
one height share a replica, and a replica votes to commit to one block at a height only. The answers to
old proposals are no such votes, but who answers has the block already, so that whoever is the first to
have a block at a height has it by votes alone.
-/

set_option autoImplicit false

namespace BlockAgreement

section Lists

variable {α : Type} {as bs : List α}

def Comparable (as bs : List α) : Prop := as <:+ bs ∨ bs <:+ as

theorem Comparable.symm (h : Comparable as bs) : Comparable bs as := h.elim .inr .inl

theorem exists_cons_suffix (h : as <:+ bs) (hne : as ≠ bs) : ∃ b, b :: as <:+ bs := by
  obtain ⟨front, rfl⟩ := h
  rcases List.eq_nil_or_concat front with rfl | ⟨init, b, rfl⟩
  · exact absurd rfl hne
  · exact ⟨b, init, by simp⟩

end Lists

variable [Scheme] {epoch : Epoch} {policy : ProposerPolicy}

theorem Comparable.eq_of_number {hs ks : List Header} (h : Comparable hs ks) (hl : Linked hs)
    (hk : Linked ks) {g k : Header} (hg : g ∈ hs) (hk' : k ∈ ks) (he : g.number = k.number) :
    g = k := by
  rcases h with h | h
  · exact hk.eq_of_number (h.subset hg) hk' he
  · exact hl.eq_of_number hg (h.subset hk') he

namespace Network

open Replica

variable {ι σ : Type} [DecidableEq ι] [Ledger σ]

/-- A quorum of the committee in office after the headers, of which every replica has cast its vote. -/
def Backed (epoch : Epoch) (policy : ProposerPolicy) (address : ι → Address) (hs : List Header)
    (vote : ι → Prop) : Prop :=
  ∃ (c : Committee) (Q : List Address), InForce epoch policy hs c.members ∧
    c.Tolerates (fun a => ∃ i, address i = a) ∧ Q.Nodup ∧ (∀ a ∈ Q, a ∈ c.members) ∧
    c.quorum ≤ Q.length ∧ ∀ i, address i ∈ Q → vote i

omit [DecidableEq ι] in
theorem Backed.mono {address : ι → Address} {hs : List Header} {v w : ι → Prop}
    (hv : Backed epoch policy address hs v) (h : ∀ i, v i → w i) :
    Backed epoch policy address hs w := by
  obtain ⟨c, Q, hm, ht, hn, hin, hq, hvote⟩ := hv
  exact ⟨c, Q, hm, ht, hn, hin, hq, fun i hi => h i (hvote i hi)⟩

omit [DecidableEq ι] in
theorem Backed.meet {address : ι → Address} {hs : List Header} {v w : ι → Prop}
    (hv : Backed epoch policy address hs v) (hw : Backed epoch policy address hs w) :
    ∃ i, v i ∧ w i := by
  obtain ⟨c, P, hc, ht, hPn, hPin, hPq, hP⟩ := hv
  obtain ⟨d, Q, hd, -, hQn, hQin, hQq, hQ⟩ := hw
  have hm : d.members = c.members := hd.unique hc
  rw [Committee.quorum_congr hm] at hQq
  rw [hm] at hQin
  obtain ⟨a, haP, haQ, i, rfl⟩ := Committee.exists_honest ht hPin hQin hPn hQn hPq hQq
  exact ⟨i, hP i haP, hQ i haQ⟩

def Voted (h : List (ι × Moment σ)) (i : ι) (n : Height) (d : Digest) : Prop :=
  ∃ x ∈ (own i h).flatMap Moment.ballots, x.kind = .commit ∧ x.view.sequence = n ∧ x.digest = d

/-- The chains of the replicas are comparable, and after their common beginning every header is
certified. -/
structure Agreeing (epoch : Epoch) (policy : ProposerPolicy) (address : ι → Address)
    (genesis : List Header) (h : List (ι × Moment σ)) (chain : ι → List Header) : Prop where
  comparable : ∀ i j, Comparable (chain i) (chain j)
  certified : ∀ i g hs, g :: hs <:+ chain i → genesis <:+ hs →
    Backed epoch policy address hs fun j => Voted h j g.number g.hash

variable {address : ι → Address} {genesis : List Header} {h k : List (ι × Moment σ)}
  {chain : ι → List Header} {i j : ι} {g : Header}

theorem Voted.mono {n : Height} {d : Digest} (hv : Voted k i n d) (hk : own i k ⊆ own i h) :
    Voted h i n d := by
  obtain ⟨x, hx, hxv⟩ := hv
  obtain ⟨m, hm, hx⟩ := List.mem_flatMap.mp hx
  exact ⟨x, List.mem_flatMap.mpr ⟨m, hk hm, hx⟩, hxv⟩

structure Adds (epoch : Epoch) (policy : ProposerPolicy) (address : ι → Address)
    (genesis : List Header) (h : List (ι × Moment σ)) (chain : ι → List Header) (i : ι)
    (g : Header) : Prop where
  beginning : genesis <:+ chain i
  linked : ∀ j, Linked (chain j)
  extending : chain i ≠ [] ∧ Linked (g :: chain i)
  collisionless : ∀ j, ∀ k ∈ chain j, k.hash = g.hash → k = g
  single : ∀ j n d e, Voted h j n d → Voted h j n e → d = e
  backed : Backed epoch policy address (chain i) fun j =>
    Voted h j g.number g.hash ∨ ∃ k ∈ chain j, k.hash = g.hash

theorem Adds.eq (ha : Adds epoch policy address genesis h chain i g)
    (hs : Agreeing epoch policy address genesis h chain) {k : Header}
    (hk : k :: chain i <:+ chain j) : k = g := by
  have hkl : Linked (k :: chain i) := (ha.linked j).suffix hk
  have hnum : k.number = g.number := by
    obtain ⟨c, cs, hc⟩ := List.exists_cons_of_ne_nil ha.extending.1
    have hgl := ha.extending.2
    rw [hc, Linked, List.isChain_cons_cons] at hkl hgl
    exact Option.some.inj (hkl.1.2.symm.trans hgl.1.2)
  have hmem : k ∈ chain j := hk.subset List.mem_cons_self
  obtain ⟨l, hvote, hg | ⟨k', hk', hkh⟩⟩ := (hs.certified j k _ hk ha.beginning).meet ha.backed
  · rw [← hnum] at hg
    exact ha.collisionless j k hmem (ha.single l _ _ _ hvote hg)
  · obtain rfl := ha.collisionless l k' hk' hkh
    exact (hs.comparable j l).eq_of_number (ha.linked j) (ha.linked l) hmem hk' hnum

/-- The header that is added has a certificate of votes: one from before if there is the header already,
and the one at hand if not. -/
theorem Adds.certified (ha : Adds epoch policy address genesis h chain i g)
    (hs : Agreeing epoch policy address genesis h chain) :
    Backed epoch policy address (chain i) fun j => Voted h j g.number g.hash := by
  by_cases hj : ∃ j k, k :: chain i <:+ chain j
  · obtain ⟨j, k, hk⟩ := hj
    obtain rfl := ha.eq hs hk
    exact hs.certified j k _ hk ha.beginning
  · refine ha.backed.mono fun j hv => hv.resolve_right ?_
    rintro ⟨k, hk, hkh⟩
    obtain rfl := ha.collisionless j k hk hkh
    have hsuf : chain j <:+ chain i := by
      rcases hs.comparable j i with hsuf | hsuf
      · exact hsuf
      · by_cases he : chain i = chain j
        · exact he ▸ List.suffix_refl _
        · obtain ⟨k', hk'⟩ := exists_cons_suffix hsuf he
          exact absurd ⟨j, k', hk'⟩ hj
    have hlt := ha.extending.2.number_lt k (hsuf.subset hk)
    exact Nat.lt_irrefl _ hlt

theorem Agreeing.add (hs : Agreeing epoch policy address genesis h chain)
    (ha : Adds epoch policy address genesis h chain i g) :
    Agreeing epoch policy address genesis h (Function.update chain i (g :: chain i)) := by
  have hone (j : ι) : Comparable (chain j) (g :: chain i) := by
    rcases hs.comparable j i with hsuf | hsuf
    · exact .inl (hsuf.trans (List.suffix_cons _ _))
    · by_cases he : chain i = chain j
      · exact .inl (he ▸ List.suffix_cons _ _)
      · obtain ⟨k, hk⟩ := exists_cons_suffix hsuf he
        obtain rfl := ha.eq hs hk
        exact .inr hk
  constructor
  · intro j l
    by_cases hj : j = i <;> by_cases hl : l = i
    · rw [hj, hl]
      exact .inl (List.suffix_refl _)
    · rw [hj, Function.update_self, Function.update_of_ne hl]
      exact (hone l).symm
    · rw [hl, Function.update_self, Function.update_of_ne hj]
      exact hone j
    · rw [Function.update_of_ne hj, Function.update_of_ne hl]
      exact hs.comparable j l
  · intro j k ks hk hbegin
    by_cases hj : j = i
    · rw [hj, Function.update_self] at hk
      rcases List.suffix_cons_iff.mp hk with he | hk
      · obtain ⟨rfl, rfl⟩ := List.cons.inj he
        exact ha.certified hs
      · exact hs.certified i k ks hk hbegin
    · rw [Function.update_of_ne hj] at hk
      exact hs.certified j k ks hk hbegin

theorem Agreeing.mono (hs : Agreeing epoch policy address genesis k chain)
    (hk : ∀ i, own i k ⊆ own i h) : Agreeing epoch policy address genesis h chain :=
  ⟨hs.comparable, fun i g gs hg hbegin =>
    (hs.certified i g gs hg hbegin).mono fun j hv => hv.mono (hk j)⟩

end Network

end BlockAgreement
