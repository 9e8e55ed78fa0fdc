import BlockAgreement.Ledger.Memory
import Mathlib.Data.List.Chain

/-!
# Lawful ledgers

A lawful ledger is a list of headers, to which appending adds one, and finds a header by its hash. What
its headers are like otherwise is stated apart: they are linked, and no two of them have one hash,
except for their committed seals.
-/

set_option autoImplicit false

namespace BlockAgreement

variable [Scheme]

def Header.Extends (g h : Header) : Prop :=
  g.parentHash = h.hash ∧ next? h.number = some g.number

instance (g h : Header) : Decidable (g.Extends h) := inferInstanceAs (Decidable (_ ∧ _))

/-- Newest first. -/
abbrev Linked (hs : List Header) : Prop := hs.IsChain Header.Extends

/-- Headers with one hash differ in their committed seals at most. -/
def Collisionless (hs : List Header) : Prop :=
  ∀ g ∈ hs, ∀ h ∈ hs, g.hash = h.hash → g.withoutCommittedSeals = h.withoutCommittedSeals

instance (hs : List Header) : Decidable (Collisionless hs) :=
  inferInstanceAs (Decidable (∀ g ∈ hs, ∀ h ∈ hs, _ → _))

theorem Collisionless.mono {hs ks : List Header} (hk : Collisionless ks) (h : hs ⊆ ks) :
    Collisionless hs := fun g hg k hk' => hk g (h hg) k (h hk')

theorem Linked.number_lt {g : Header} {hs : List Header} (hl : Linked (g :: hs)) :
    ∀ h ∈ hs, h.number.toNat < g.number.toNat := by
  induction hs generalizing g with
  | nil => simp
  | cons k hs ih =>
    rw [Linked, List.isChain_cons_cons] at hl
    have hlt := toNat_of_next? hl.1.2
    intro h hh
    rcases List.mem_cons.mp hh with rfl | hh
    · omega
    · have := ih hl.2 h hh
      omega

theorem Linked.eq_of_number {hs : List Header} (hl : Linked hs) {g h : Header} (hg : g ∈ hs)
    (hh : h ∈ hs) (he : g.number = h.number) : g = h := by
  induction hs with
  | nil => cases hg
  | cons k hs ih =>
    have hlt := hl.number_lt
    rcases List.mem_cons.mp hg with hgk | hg <;> rcases List.mem_cons.mp hh with hhk | hh
    · exact hgk.trans hhk.symm
    · exact absurd (hgk ▸ he ▸ hlt h hh) (Nat.lt_irrefl _)
    · exact absurd (hhk ▸ he ▸ hlt g hg) (Nat.lt_irrefl _)
    · exact ih hl.tail hg hh

/-- What a ledger does is told by its headers. -/
class LawfulLedger (σ : Type) [Ledger σ] where
  /-- Newest first. -/
  headers : σ → List Header
  head_of_cons {l : σ} {h : Header} {hs : List Header} (hl : headers l = h :: hs) :
    Ledger.head l = h
  found {l : σ} {d : Digest} {h : Header} (hl : Ledger.headerOf? l d = some h) :
    h ∈ headers l ∧ h.hash = d
  missing {l : σ} {d : Digest} (hl : Ledger.headerOf? l d = none) : ∀ h ∈ headers l, h.hash ≠ d
  appended {l l' : σ} {b : Block} (hl : Ledger.append l b = .ok l') :
    headers l' = b.header :: headers l

export LawfulLedger (headers)

instance : LawfulLedger MemoryLedger where
  headers l := l.blocks.map (·.header)
  head_of_cons {l h hs} hl := by
    show l.head = h
    cases hb : l.blocks with
    | nil => simp [hb] at hl
    | cons b bs =>
      simp only [hb, List.map_cons, List.cons.injEq] at hl
      simp [MemoryLedger.head, hb, hl.1]
  found {l d h} hl := by
    change l.headerOf? d = some h at hl
    simp only [MemoryLedger.headerOf?, Option.map_eq_some_iff] at hl
    obtain ⟨b, hb, rfl⟩ := hl
    have hd := List.find?_some hb
    exact ⟨List.mem_map.mpr ⟨b, List.mem_of_find?_eq_some hb, rfl⟩, of_decide_eq_true hd⟩
  missing {l d} hl := by
    change l.headerOf? d = none at hl
    simp only [MemoryLedger.headerOf?, Option.map_eq_none_iff, List.find?_eq_none] at hl
    intro h hh
    obtain ⟨b, hb, rfl⟩ := List.mem_map.mp hh
    have hd : ¬ b.hash = d := by simpa using hl b hb
    exact hd
  appended {l l' b} hl := by
    change l.append b = .ok l' at hl
    unfold MemoryLedger.append at hl
    split at hl
    · cases hl
    · split at hl
      · obtain rfl := Except.ok.inj hl
        rfl
      · cases hl

section Lookup

variable {σ : Type} [Ledger σ] [LawfulLedger σ] {l l' : σ}

omit [Scheme] [LawfulLedger σ] in
def Ledger.lookup (l : σ) (d : Digest) : Option Header :=
  (Ledger.headerOf? l d).map Header.withoutCommittedSeals

omit [Scheme] [LawfulLedger σ] in
theorem lookup_of_headerOf? {d : Digest} {h : Header} (hl : Ledger.headerOf? l d = some h) :
    Ledger.lookup l d = some h.withoutCommittedSeals := by
  rw [Ledger.lookup, hl, Option.map_some]

omit [LawfulLedger σ] in
theorem hash_of_lookup (hfound : ∀ d h, Ledger.headerOf? l d = some h → h.hash = d) (d : Digest)
    (h : Header) (hl : Ledger.lookup l d = some h) : h.hash = d := by
  obtain ⟨g, hg, rfl⟩ := Option.map_eq_some_iff.mp hl
  have hd : g.hash = d := hfound d g hg
  exact hd

theorem lookup_hash {d : Digest} {h : Header} (hl : Ledger.lookup l d = some h) : h.hash = d :=
  hash_of_lookup (fun _ _ hg => (LawfulLedger.found hg).2) d h hl

theorem lookup_eq_some (hc : Collisionless (headers l)) {d : Digest} {h : Header} :
    Ledger.lookup l d = some h ↔
      ∃ g ∈ headers l, g.hash = d ∧ g.withoutCommittedSeals = h := by
  constructor
  · intro hl
    obtain ⟨g, hg, rfl⟩ := Option.map_eq_some_iff.mp hl
    obtain ⟨hm, hd⟩ := LawfulLedger.found hg
    exact ⟨g, hm, hd, rfl⟩
  · rintro ⟨g, hg, rfl, rfl⟩
    cases hk : Ledger.headerOf? l g.hash with
    | none => exact absurd rfl (LawfulLedger.missing hk g hg)
    | some k =>
      obtain ⟨hm, hd⟩ := LawfulLedger.found hk
      rw [Ledger.lookup, hk, Option.map_some, hc k hm g hg hd]

theorem lookup_mono (hs : headers l ⊆ headers l') (hc : Collisionless (headers l')) {d : Digest}
    {h : Header} (hl : Ledger.lookup l d = some h) : Ledger.lookup l' d = some h := by
  rw [lookup_eq_some (hc.mono hs)] at hl
  obtain ⟨g, hg, hd, he⟩ := hl
  exact (lookup_eq_some hc).mpr ⟨g, hs hg, hd, he⟩

def findIn (hs : List Header) (d : Digest) : Option Header := hs.find? (·.hash = d)

omit [LawfulLedger σ] in
theorem findIn_spec {hs : List Header} {d : Digest} {h : Header} (hf : findIn hs d = some h) :
    h ∈ hs ∧ h.hash = d := by
  have hd := List.find?_some hf
  exact ⟨List.mem_of_find?_eq_some hf, of_decide_eq_true hd⟩

def bare (l : σ) : List Header := (headers l).map Header.withoutCommittedSeals

theorem bare_of_appended {b : Block} (ha : Ledger.append l b = .ok l') :
    bare l' = b.header.withoutCommittedSeals :: bare l :=
  congrArg (List.map _) (LawfulLedger.appended ha)

theorem Linked.bare (hl : Linked (headers l)) : Linked (bare l) := by
  rw [Linked, BlockAgreement.bare, List.isChain_map]
  exact hl

theorem lookup_eq_findIn (hc : Collisionless (headers l)) : Ledger.lookup l = findIn (bare l) := by
  funext d
  cases hf : findIn (bare l) d with
  | some h =>
    obtain ⟨hm, rfl⟩ := findIn_spec hf
    obtain ⟨g, hg, rfl⟩ := List.mem_map.mp hm
    exact (lookup_eq_some hc).mpr ⟨g, hg, rfl, rfl⟩
  | none =>
    cases hl : Ledger.lookup l d with
    | none => rfl
    | some h =>
      obtain ⟨g, hg, hd, rfl⟩ := (lookup_eq_some hc).mp hl
      have hnot := List.find?_eq_none.mp hf _ (List.mem_map.mpr ⟨g, hg, rfl⟩)
      exact absurd (decide_eq_true hd) hnot

structure Chained (l : σ) : Prop where
  nonempty : headers l ≠ []
  linked : Linked (headers l)
  collisionless : Collisionless (headers l)

instance (l : σ) : Decidable (Chained l) :=
  decidable_of_iff (headers l ≠ [] ∧ Linked (headers l) ∧ Collisionless (headers l))
    ⟨fun ⟨hn, hl, hc⟩ => ⟨hn, hl, hc⟩, fun h => ⟨h.nonempty, h.linked, h.collisionless⟩⟩

theorem Chained.head_cons (h : Chained l) : ∃ hs, headers l = Ledger.head l :: hs := by
  obtain ⟨g, hs, he⟩ := List.exists_cons_of_ne_nil h.nonempty
  exact ⟨hs, by rw [he, LawfulLedger.head_of_cons he]⟩

theorem Chained.lookup_mem (hc : Chained l) {g : Header}
    (hg : g ∈ headers l) :
    Ledger.lookup l g.hash = some g.withoutCommittedSeals :=
  (lookup_eq_some hc.collisionless).mpr ⟨g, hg, rfl, rfl⟩

theorem Chained.head_mem (hc : Chained l) :
    Ledger.head l ∈ headers l := by
  obtain ⟨hs, he⟩ := hc.head_cons
  rw [he]
  exact List.mem_cons_self

theorem Chained.bare_cons (hc : Chained l) :
    ∃ hs, bare l = (Ledger.head l).withoutCommittedSeals :: hs := by
  obtain ⟨hs, he⟩ := hc.head_cons
  exact ⟨hs.map Header.withoutCommittedSeals, congrArg (List.map _) he⟩

end Lookup

end BlockAgreement
