import BlockAgreement.Proofs.Committee.Quorum
import BlockAgreement.Proofs.Governance.Transparency

/-!
# Final siblings

The committed seals of a final header are those of a quorum of the committee after its parent. Two final
headers with one parent are checked against one committee, whatever the archives that check them have
been asked before. So they have more committers in common than that committee tolerates faults.
-/

set_option autoImplicit false

namespace BlockAgreement

namespace Committee

variable {c : Committee} {as bs : List Address}

structure IsQuorum (c : Committee) (as : List Address) : Prop where
  members : ∀ a ∈ as, a ∈ c.members
  nodup : as.Nodup
  enough : c.quorum ≤ as.length

theorem IsQuorum.common (ha : c.IsQuorum as) (hb : c.IsQuorum bs) :
    c.faults + 1 ≤ (as.toFinset ∩ bs.toFinset).card :=
  faults_lt_inter ha.members hb.members ha.nodup hb.nodup ha.enough hb.enough

theorem IsQuorum.honest {honest : Address → Prop} (hc : c.Tolerates honest) (ha : c.IsQuorum as)
    (hb : c.IsQuorum bs) : ∃ a ∈ as, a ∈ bs ∧ honest a :=
  exists_honest hc ha.members hb.members ha.nodup hb.nodup ha.enough hb.enough

end Committee

section Siblings

variable [Scheme]

namespace HeaderRules

variable {σ : Type} [Ledger σ] {ledger : σ} {archive : Archive} {h : Header} {s : Snapshot}

theorem isQuorum_of_checkCommitters (hc : checkCommitters s h = .ok ()) :
    ∃ cs, h.committers = some cs ∧ s.committee.IsQuorum cs := by
  unfold checkCommitters at hc
  split at hc
  · cases hc
  · rename_i cs hcs
    split at hc
    · rename_i hall
      split at hc
      · rename_i hq
        refine ⟨cs, hcs, fun a ha => ?_, hall.2, hq⟩
        exact Committee.contains_iff.mp (List.all_eq_true.mp hall.1 a ha)
      · cases hc
    · cases hc

theorem isQuorum_of_verify (hv : (verify ledger archive h true).1 = .ok ()) (h0 : h.number ≠ 0) :
    ∃ s cs, (archive.parentSnapshot ledger h.number h.parentHash).1 = .ok s ∧
      h.committers = some cs ∧ s.committee.IsQuorum cs := by
  obtain ⟨hm, ⟨g, hg, hn, ht⟩, s, hs, he, ha⟩ := verify_ok hv h0
  have hc : checkCommitters s h = .ok () := by
    rw [verify, if_neg (by simp [hm]), if_neg h0, hg] at hv
    dsimp only at hv
    rw [if_neg (by simpa using hn), if_neg ht] at hv
    split at hv
    · cases hv
    · rename_i t b hb
      rw [hb] at hs he
      obtain rfl := Except.ok.inj hs
      simpa [he, ha, bind, Except.bind] using hv
  obtain ⟨cs, hcs, hq⟩ := isQuorum_of_checkCommitters hc
  exact ⟨s, cs, hs, hcs, hq⟩

end HeaderRules

namespace Archive

variable {σ : Type} [Ledger σ] {epoch : Epoch} {policy : ProposerPolicy}

/-- An archive that was made empty and has answered some questions since, while the ledger may have
grown. -/
inductive Reached (epoch : Epoch) (policy : ProposerPolicy) : σ → Archive → Prop where
  | empty (ledger : σ) (capacity : Nat) : Reached epoch policy ledger (.empty epoch policy capacity)
  | ask {ledger : σ} {a : Archive} (number : Height) (hash : Digest)
      (ha : Reached epoch policy ledger a) :
      Reached epoch policy ledger (a.snapshot ledger number hash).2
  | grow {ledger ledger' : σ} {a : Archive} (hl : Grows ledger ledger')
      (ha : Reached epoch policy ledger a) : Reached epoch policy ledger' a

variable {ledger : σ} {a b : Archive}

theorem Reached.consulted (ha : a.Reached epoch policy ledger) (hb : Consulted ledger a b) :
    b.Reached epoch policy ledger := by
  rcases hb with rfl | ⟨number, hash, rfl⟩
  · exact ha
  · exact ha.ask number hash

theorem Reached.verify (ha : a.Reached epoch policy ledger) (h : Header) (final : Bool) :
    (HeaderRules.verify ledger a h final).2.Reached epoch policy ledger :=
  ha.consulted (verify_consulted a ledger h final)

theorem Reached.recalls (hfound : ∀ d h, Ledger.lookup ledger d = some h → h.hash = d)
    (ha : a.Reached epoch policy ledger) : a.Recalls epoch policy ledger := by
  induction ha with
  | empty ledger capacity => exact empty_recalls epoch policy capacity ledger
  | ask number hash _ ih => exact ((ih hfound).snapshot_of_lookup hfound number hash).1
  | grow hl _ ih => exact (ih fun d h hd => hfound d h (hl d h hd)).mono hl

theorem Reached.snapshotOf_parent (hfound : ∀ d h, Ledger.lookup ledger d = some h → h.hash = d)
    (ha : a.Reached epoch policy ledger) {number : Height} {parent : Digest} {s : Snapshot}
    (hs : (a.parentSnapshot ledger number parent).1 = .ok s) :
    SnapshotOf epoch policy (Ledger.lookup ledger) parent s := by
  unfold parentSnapshot at hs
  split at hs
  · cases hs
  · exact ((ha.recalls hfound).snapshot_of_lookup hfound _ parent).2 s hs

/-- If two headers with one parent are both final, each by the check of an archive in whatever state,
then they have been checked against one snapshot, and more of its committee have sealed both of them
than may be faulty: if the other members are honest, an honest one has. -/
theorem siblings_share_committers
    (hfound : ∀ d h, Ledger.headerOf? ledger d = some h → h.hash = d)
    (ha : a.Reached epoch policy ledger) (hb : b.Reached epoch policy ledger) {g h : Header}
    (hparent : g.parentHash = h.parentHash) (hg0 : g.number ≠ 0) (hh0 : h.number ≠ 0)
    (hg : (HeaderRules.verify ledger a g true).1 = .ok ())
    (hh : (HeaderRules.verify ledger b h true).1 = .ok ()) :
    ∃ s as bs, (a.parentSnapshot ledger g.number g.parentHash).1 = .ok s ∧
      (b.parentSnapshot ledger h.number h.parentHash).1 = .ok s ∧
      g.committers = some as ∧ h.committers = some bs ∧
      s.committee.faults + 1 ≤ (as.toFinset ∩ bs.toFinset).card ∧
      ∀ honest, s.committee.Tolerates honest → ∃ x ∈ as, x ∈ bs ∧ honest x := by
  have hlookup : ∀ d h, Ledger.lookup ledger d = some h → h.hash = d := by
    intro d h hd
    obtain ⟨k, hk, rfl⟩ := Option.map_eq_some_iff.mp hd
    exact hfound d k hk
  obtain ⟨s, as, hs, has, hqa⟩ := HeaderRules.isQuorum_of_verify hg hg0
  obtain ⟨t, bs, ht, hbs, hqb⟩ := HeaderRules.isQuorum_of_verify hh hh0
  have hst : s = t := by
    have hsnap := ha.snapshotOf_parent hlookup hs
    rw [hparent] at hsnap
    exact hsnap.unique (hb.snapshotOf_parent hlookup ht)
  subst hst
  exact ⟨s, as, bs, hs, ht, has, hbs, hqa.common hqb, fun honest hc => hqa.honest hc hqb⟩

end Archive

end Siblings

namespace Archive

section Example

attribute [local instance] Scheme.plain

def siblingGenesis : Header := .genesis [1, 2, 3, 4] 0

/-- The header of an empty block on the genesis block, which the member 1 has proposed at this time and
these members have sealed. -/
def sibling (timestamp : UInt64) (committers : List Address) : Header :=
  let unsealed : Header :=
    ⟨siblingGenesis.hash, 1, timestamp, engineMarker, 0, none, Extra.empty⟩
  let proposed : Header :=
    { unsealed with
      extra := { unsealed.extra with
        proposerSeal := (Signer.plain 1).sign unsealed.sealHash } }
  { proposed with
    extra := { proposed.extra with
      committedSeals := committers.filterMap fun a =>
        (Signer.plain a).sign (commitDigest proposed.hash) } }

/-- One archive checks both of two siblings, the second one from what it remembers. -/
theorem siblings_share_committers_of_four :
    ∃ (s : Snapshot) (as bs : List Address),
      (sibling 1 [1, 2, 3]).committers = some as ∧ (sibling 2 [4, 3, 2]).committers = some bs ∧
      s.committee.members = [1, 2, 3, 4] ∧
      s.committee.faults + 1 ≤ (as.toFinset ∩ bs.toFinset).card := by
  let ledger : MemoryLedger := .ofHeaders [siblingGenesis]
  let a := empty 30000 .roundRobin 4
  have ha : a.Reached 30000 .roundRobin ledger := .empty ledger 4
  have hfound : ∀ d h, Ledger.headerOf? ledger d = some h → h.hash = d :=
    fun d h hd => (LawfulLedger.found hd).2
  obtain ⟨s, as, bs, hs, -, has, hbs, hcommon, -⟩ :=
    siblings_share_committers hfound ha (ha.verify (sibling 1 [1, 2, 3]) true) rfl
      (by decide +kernel) (by decide +kernel) (g := sibling 1 [1, 2, 3]) (h := sibling 2 [4, 3, 2])
      (by decide +kernel) (by decide +kernel)
  refine ⟨s, as, bs, has, hbs, ?_, hcommon⟩
  have hmembers : ((a.parentSnapshot ledger 1 siblingGenesis.hash).1.toOption.map
      (·.committee.members)) = some [1, 2, 3, 4] := by decide +kernel
  change (a.parentSnapshot ledger 1 siblingGenesis.hash).1 = .ok s at hs
  rw [hs] at hmembers
  exact Option.some.inj hmembers

end Example

end Archive

end BlockAgreement
