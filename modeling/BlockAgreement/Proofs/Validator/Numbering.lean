import BlockAgreement.Proofs.Validator.Authoring

/-!
# The number that a snapshot is asked for by

A snapshot is asked for by the number and the hash of a block. What is answered carries this hash and
the number of the block that has it. The number that was asked for is compared with this one where the
header is looked up, but a snapshot that is remembered is given out for every number. So a validator
that remembers the snapshot after a parent seals blocks of any number on it.
-/

set_option autoImplicit false

namespace BlockAgreement

theorem next?_of_previous? {n m : UInt64} (h : previous? m = some n) : next? n = some m := by
  unfold previous? at h
  split at h
  · cases h
  · rename_i hm
    obtain rfl := Option.some.inj h
    rw [next?, UInt64.sub_add_cancel, if_neg hm]

section Numbering

variable [Scheme] {σ : Type} [Ledger σ] {epoch : Epoch} {policy : ProposerPolicy} {ledger : σ}

namespace Archive

variable {a : Archive} {d : Digest} {s : Snapshot}

omit [Scheme] in
theorem base_of_recent (ledger : σ) (hd : a.isRecent d = true) :
    ∃ s, ∀ n later, (a.base ledger n d later).1 = .ok (s, later) := by
  obtain ⟨s, hs⟩ := Option.isSome_iff_exists.mp hd
  refine ⟨s, fun n later => ?_⟩
  rw [base.eq_def, Lru.get?, hs]

omit [Scheme] in
theorem header_of_base {n : Nat} {later : List Header} {found : Snapshot × List Header}
    (hd : a.isRecent d = false) (hb : (a.base ledger n d later).1 = .ok found) :
    ∃ h, Ledger.headerOf? ledger d = some h ∧ h.number.toNat = n := by
  have hnone : a.recent.peek? d = none := by
    simpa [isRecent, Lru.contains] using hd
  rw [base.eq_def, Lru.get?, hnone] at hb
  dsimp only at hb
  split at hb
  · cases hb
  · rename_i h hh
    split at hb
    · cases hb
    · rename_i hn
      exact ⟨h, hh, not_not.mp hn⟩

theorem snapshot_of_recent (hd : a.isRecent d = true) :
    ∃ s, ∀ number, (a.snapshot ledger number d).1 = .ok s := by
  obtain ⟨s, hb⟩ := base_of_recent ledger hd
  refine ⟨s, fun number => ?_⟩
  rw [snapshot_eq_resume, hb]
  rfl

theorem header_of_snapshot {number : Height} (hd : a.isRecent d = false)
    (hs : (a.snapshot ledger number d).1 = .ok s) :
    ∃ h, Ledger.headerOf? ledger d = some h ∧ h.number = number := by
  rw [snapshot_eq_resume] at hs
  cases hb : (a.base ledger number.toNat d []).1 with
  | error e =>
    rw [hb] at hs
    cases hs
  | ok found =>
    obtain ⟨h, hh, hn⟩ := header_of_base hd hb
    exact ⟨h, hh, UInt64.toNat_inj.mp hn⟩

end Archive

namespace Validator

variable {v : Validator σ}

theorem parent_of_sealBlock {b : Block} (hs : (v.sealBlock b).1 = .ok ())
    (hd : v.replica.archive.isRecent b.header.parentHash = false) :
    ∃ h, Ledger.headerOf? v.replica.ledger b.header.parentHash = some h ∧
      next? h.number = some b.number := by
  obtain ⟨s, -, hsnap, -⟩ := sealBlock_ok hs
  unfold Archive.parentSnapshot at hsnap
  split at hsnap
  · cases hsnap
  · rename_i parent hparent
    obtain ⟨h, hh, hn⟩ := Archive.header_of_snapshot hd hsnap
    exact ⟨h, hh, hn ▸ next?_of_previous? hparent⟩

/-- Whatever an archive has been asked before, its answer is of the block with the hash that it is asked
about, and carries the number of this block. If the snapshot is remembered, it is the answer for every
number; otherwise the answer is of the number that was asked for, and a block that is sealed on the header
has the number after it. -/
theorem snapshot_by_hash
    (hfound : ∀ d h, Ledger.headerOf? v.replica.ledger d = some h → h.hash = d)
    (hv : v.replica.archive.Reached epoch policy v.replica.ledger) :
    (∀ number d s, (v.replica.archive.snapshot v.replica.ledger number d).1 = .ok s →
      s.hash = d ∧ (∃ h, Ledger.headerOf? v.replica.ledger d = some h ∧ s.number = h.number) ∧
        (v.replica.archive.isRecent d = false → s.number = number)) ∧
    (∀ d, v.replica.archive.isRecent d = true →
      ∃ s, ∀ number, (v.replica.archive.snapshot v.replica.ledger number d).1 = .ok s) ∧
    ∀ b, (v.sealBlock b).1 = .ok () → v.replica.archive.isRecent b.header.parentHash = false →
      ∃ h, Ledger.headerOf? v.replica.ledger b.header.parentHash = some h ∧
        next? h.number = some b.number := by
  have hlookup := hash_of_lookup hfound
  refine ⟨fun number d s hs => ?_, fun d hd => Archive.snapshot_of_recent hd,
    fun b hs hd => parent_of_sealBlock hs hd⟩
  obtain ⟨-, hanswer⟩ := (hv.recalls hlookup).snapshot_of_lookup hlookup number d
  obtain ⟨k, hk, hnumber, hhash⟩ := (hanswer s hs).frame hlookup
  obtain ⟨h, hh, rfl⟩ := Option.map_eq_some_iff.mp hk
  refine ⟨hhash, ⟨h, hh, hnumber⟩, fun hd => ?_⟩
  obtain ⟨g, hg, hn⟩ := Archive.header_of_snapshot hd hs
  obtain rfl := Option.some.inj (hh.symm.trans hg)
  exact hnumber.trans hn

end Validator

end Numbering

namespace Pair

attribute [local instance] Scheme.plain

def offspring (number : Height) : Block :=
  .create { outline with number, marker := engineMarker } [7]

def forgetful (v : Validator MemoryLedger) : Validator MemoryLedger :=
  { v with replica := { v.replica with archive := .empty 100 .roundRobin 8 } }

/-- A validator that remembers nothing answers about the genesis block by its number, and seals block 1 on
it. -/
theorem snapshot_by_hash_genesis : ∃ v s, author = .ok v ∧
    (forgetful v).replica.archive.isRecent genesis.hash = false ∧
    ((forgetful v).replica.archive.snapshot v.replica.ledger 0 genesis.hash).1 = .ok s ∧
    s.hash = genesis.hash ∧ s.number = 0 ∧ ((forgetful v).sealBlock (offspring 1)).1 = .ok () ∧
    ∃ h, Ledger.headerOf? v.replica.ledger genesis.hash = some h ∧ next? h.number = some 1 := by
  obtain ⟨v, hv, hasked, hseal⟩ := exists_ok (x := author) (P := fun v =>
    (((forgetful v).replica.archive.snapshot v.replica.ledger 0 genesis.hash).1.toOption.any
        fun s => s.number = 0) = true ∧
      ((forgetful v).sealBlock (offspring 1)).1 = .ok ()) (by decide +kernel)
  obtain ⟨s, hs, -⟩ := exists_ok hasked
  obtain ⟨hsnapshot, -, hsealed⟩ := Validator.snapshot_by_hash (v := forgetful v)
    (fun d h hd => (LawfulLedger.found hd).2) (.empty v.replica.ledger 8)
  obtain ⟨hhash, -, hnumber⟩ := hsnapshot 0 genesis.hash s hs
  exact ⟨v, s, hv, rfl, hs, hhash, hnumber rfl, hseal, hsealed (offspring 1) hseal rfl⟩

/-- A validator that remembers the snapshot after the genesis block gives it out for block 5 too, and
seals block 6 on the genesis block. One that remembers nothing does neither. -/
theorem snapshot_of_other_number : ∃ v, author = .ok v ∧
    (v.replica.archive.snapshot v.replica.ledger 5 genesis.hash).1.map (·.number) = .ok 0 ∧
    (v.sealBlock (offspring 6)).1 = .ok () ∧
    Ledger.headerOf? v.replica.ledger (offspring 6).header.parentHash = some genesis ∧
    next? genesis.number ≠ some (offspring 6).number ∧
    ((forgetful v).replica.archive.snapshot v.replica.ledger 5 genesis.hash).1.map (·.number) =
      .error .unknownAncestor ∧
    ((forgetful v).sealBlock (offspring 6)).1 = .error (.snapshot .unknownAncestor) :=
  exists_ok (x := author) (by decide +kernel)

end Pair

end BlockAgreement
