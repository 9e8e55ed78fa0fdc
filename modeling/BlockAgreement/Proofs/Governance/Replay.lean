import BlockAgreement.Proofs.Governance.Tally
import BlockAgreement.Proofs.Governance.Validity

/-!
# Checkpoints and replay

A checkpoint lists the committee that all headers before it lead to, if they have been checked. So the
snapshot that an archive makes from the nearest checkpoint, or from what it remembers, is the one that
all headers from the genesis block on lead to, apart from the proposer, which no header depends on.
-/

set_option autoImplicit false

namespace BlockAgreement

theorem insertAscending_of_lt {a : Address} {bs : List Address} (h : ∀ b ∈ bs, a < b) :
    insertAscending a bs = a :: bs := by
  cases bs with
  | nil => rfl
  | cons b bs => simp [insertAscending, h b List.mem_cons_self]

namespace Committee

theorem members_ofList (c : Committee) (policy : ProposerPolicy) :
    (ofList c.members policy).members = c.members := by
  have hfold : ∀ as : List Address, as.Pairwise (· < ·) → as.foldr insertAscending [] = as := by
    intro as has
    induction as with
    | nil => rfl
    | cons a as ih =>
      rw [List.pairwise_cons] at has
      rw [List.foldr_cons, ih has.2, insertAscending_of_lt has.1]
  exact hfold c.members c.ascending

def vacant (c : Committee) : Committee := { c with proposer := none, proposer_mem := by simp }

theorem vacant_ofList (c : Committee) : (ofList c.members c.policy).vacant = c.vacant := by
  simp only [vacant, members_ofList]
  rfl

theorem add?_vacant (c : Committee) (a : Address) :
    ((c.add? a).getD c).vacant = (c.vacant.add? a).getD c.vacant := by
  by_cases h : a ∈ c.members <;> simp [add?, vacant, h]

theorem remove?_vacant (c : Committee) (a : Address) :
    ((c.remove? a).getD c).vacant = (c.vacant.remove? a).getD c.vacant := by
  by_cases h : a ∈ c.members <;> simp [remove?, vacant, h]

end Committee

namespace Snapshot

def vacant (s : Snapshot) : Snapshot := { s with committee := s.committee.vacant }

theorem withdraw_vacant (s : Snapshot) (signer target : Address) :
    (s.withdraw signer target).vacant = s.vacant.withdraw signer target := by
  rw [withdraw, withdraw, show s.vacant.votes = s.votes from rfl]
  split <;> rfl

theorem cast_vacant (s : Snapshot) (v : Vote) : (s.cast v).vacant = s.vacant.cast v := by
  have hm : s.vacant.isMeaningful v.target v.authorize = s.isMeaningful v.target v.authorize := rfl
  rw [cast, cast, hm]
  split <;> rfl

theorem settle_vacant (s : Snapshot) (target : Address) :
    (s.settle target).vacant = s.vacant.settle target := by
  have hq : s.vacant.committee.quorum = s.committee.quorum := rfl
  rw [settle, settle, hq, show s.vacant.tally = s.tally from rfl]
  split
  · rfl
  · split
    · rfl
    · split
      · simp only [vacant, dropVotesOn, Committee.add?_vacant]
      · simp only [vacant, dropVotesOn, dropVotesOf, Committee.remove?_vacant]

theorem countVote_vacant (s : Snapshot) (v : Vote) :
    (s.countVote v).vacant = s.vacant.countVote v := by
  rw [countVote, settle_vacant, cast_vacant, withdraw_vacant]
  rfl

theorem countVote_policy (s : Snapshot) (v : Vote) :
    (s.countVote v).committee.policy = s.committee.policy := by
  have hadd (c : Committee) (a : Address) : ((c.add? a).getD c).policy = c.policy := by
    unfold Committee.add?
    split <;> rfl
  have hremove (c : Committee) (a : Address) : ((c.remove? a).getD c).policy = c.policy := by
    unfold Committee.remove?
    split <;> rfl
  have hcast : ((s.withdraw v.signer v.target).cast v).committee = s.committee :=
    (cast_committee _ v).trans (withdraw_committee ..)
  refine Eq.trans ?_ (congrArg Committee.policy hcast)
  rw [countVote, settle]
  split
  · rfl
  · split
    · rfl
    · split
      · exact hadd _ _
      · exact hremove _ _

variable [Scheme] {s t : Snapshot} {h : Header}

theorem applyHeader_policy (ha : s.applyHeader h = .ok t) :
    t.committee.policy = s.committee.policy := by
  obtain ⟨author, -, -, ⟨-, rfl⟩ | ⟨-, -, rfl⟩ | ⟨v, -, -, rfl⟩⟩ := applyHeader_ok.mp ha
  · rfl
  · rfl
  · exact countVote_policy _ _

theorem applyHeader_vacant (ha : s.applyHeader h = .ok t) :
    s.vacant.applyHeader h = .ok t.vacant := by
  obtain ⟨author, hauth, hm, hcases⟩ := applyHeader_ok.mp ha
  refine applyHeader_ok.mpr ⟨author, hauth, hm, ?_⟩
  rcases hcases with ⟨hc, rfl⟩ | ⟨hc, hv, rfl⟩ | ⟨v, hc, hv, rfl⟩
  · exact .inl ⟨hc, rfl⟩
  · exact .inr (.inl ⟨hc, hv, rfl⟩)
  · exact .inr (.inr ⟨v, hc, hv, countVote_vacant _ _⟩)

theorem applyHeader_exists {author : Address} (ha : h.author = some author)
    (hm : s.committee.contains author = true) : ∃ t, s.applyHeader h = .ok t := by
  cases hc : s.epoch.isCheckpoint h.number with
  | true => exact ⟨_, applyHeader_ok.mpr ⟨author, ha, hm, .inl ⟨hc, rfl⟩⟩⟩
  | false =>
    cases hv : h.vote with
    | none => exact ⟨_, applyHeader_ok.mpr ⟨author, ha, hm, .inr (.inl ⟨hc, hv, rfl⟩)⟩⟩
    | some v => exact ⟨_, applyHeader_ok.mpr ⟨author, ha, hm, .inr (.inr ⟨v, hc, hv, rfl⟩)⟩⟩

theorem applyHeader_checkpoint (hc : s.epoch.isCheckpoint h.number = true)
    (ha : s.applyHeader h = .ok t) :
    t = .initial s.epoch h.number h.hash s.committee := by
  obtain ⟨author, -, -, ⟨-, rfl⟩ | ⟨hc', -, -⟩ | ⟨v, hc', -, -⟩⟩ := applyHeader_ok.mp ha
  · rfl
  · rw [hc] at hc'
    cases hc'
  · rw [hc] at hc'
    cases hc'

theorem applyHeader_congr {s' : Snapshot} (hs : s.vacant = s'.vacant) (ha : s.applyHeader h = .ok t) :
    ∃ t', s'.applyHeader h = .ok t' ∧ t.vacant = t'.vacant := by
  obtain ⟨author, hauth, hm, -⟩ := applyHeader_ok.mp ha
  have hm' : s'.committee.contains author = true := by
    rw [show s'.committee.contains author = s'.vacant.committee.contains author from rfl, ← hs]
    exact hm
  obtain ⟨t', ht'⟩ := applyHeader_exists hauth hm'
  have hv := applyHeader_vacant ha
  rw [hs, applyHeader_vacant ht'] at hv
  exact ⟨t', ht', (Except.ok.inj hv).symm⟩

structure Agrees (epoch : Epoch) (policy : ProposerPolicy) (s t : Snapshot) : Prop where
  vacant : s.vacant = t.vacant
  epoch : s.epoch = epoch
  policy : t.committee.policy = policy

section Agrees

variable {epoch : Epoch} {policy : ProposerPolicy}

omit [Scheme]

theorem Agrees.number (ha : Agrees epoch policy s t) : s.number = t.number :=
  (congrArg Snapshot.number ha.vacant :)

theorem Agrees.hash (ha : Agrees epoch policy s t) : s.hash = t.hash :=
  (congrArg Snapshot.hash ha.vacant :)

theorem Agrees.votes (ha : Agrees epoch policy s t) : s.votes = t.votes :=
  (congrArg Snapshot.votes ha.vacant :)

theorem Agrees.tally (ha : Agrees epoch policy s t) : s.tally = t.tally :=
  (congrArg Snapshot.tally ha.vacant :)

theorem Agrees.members (ha : Agrees epoch policy s t) :
    s.committee.members = t.committee.members :=
  (congrArg (·.committee.members) ha.vacant :)

end Agrees

theorem Agrees.applyHeader {epoch : Epoch} {policy : ProposerPolicy} {u : Snapshot}
    (ha : Agrees epoch policy s t) (hu : s.applyHeader h = .ok u) :
    ∃ v, t.applyHeader h = .ok v ∧ Agrees epoch policy u v := by
  obtain ⟨v, hv, huv⟩ := applyHeader_congr ha.vacant hu
  exact ⟨v, hv, huv, (applyHeader_frame hu).2.2.trans ha.epoch,
    (applyHeader_policy hv).trans ha.policy⟩

theorem Agrees.checkpoint {epoch : Epoch} {policy : ProposerPolicy} {u : Snapshot}
    (ha : Agrees epoch policy s t) (hc : epoch.isCheckpoint h.number = true)
    (hl : h.extra.validators = s.committee.members) (hu : t.applyHeader h = .ok u) :
    Agrees epoch policy (initial epoch h.number h.hash (.ofList h.extra.validators policy)) u := by
  have hepoch : t.epoch = epoch := (congrArg Snapshot.epoch ha.vacant).symm.trans ha.epoch
  obtain rfl := applyHeader_checkpoint (hepoch.symm ▸ hc) hu
  refine ⟨?_, rfl, ha.policy⟩
  have hcommittee := t.committee.vacant_ofList
  rw [ha.policy, ← ha.members, ← hl] at hcommittee
  simp only [Snapshot.vacant, initial, hepoch]
  exact congrArg _ hcommittee

/-- The snapshot after the last of the headers, oldest first. It begins with the committee that the
first one lists and applies all the others one after the other. -/
def replay (epoch : Epoch) (policy : ProposerPolicy) : List Header → Except SnapshotFault Snapshot
  | [] => .error .unknownAncestor
  | g :: later =>
    (initial epoch g.number g.hash (.ofList g.extra.validators policy)).apply later

variable {epoch : Epoch} {policy : ProposerPolicy} {headers : List Header}

theorem replay_push (hs : replay epoch policy headers = .ok s) (hn : next? s.number = some h.number)
    (hp : h.parentHash = s.hash) (ha : s.applyHeader h = .ok t) :
    replay epoch policy (headers ++ [h]) = .ok t := by
  cases headers with
  | nil => cases hs
  | cons g later => exact apply_append.mpr ⟨s, hs, apply_cons.mpr ⟨hn, hp, t, ha, apply_nil t⟩⟩

end Snapshot

namespace HeaderRules

variable [Scheme] {epoch : Epoch} {s : Snapshot} {h : Header}

theorem checkAuthor_ok (hc : checkAuthor s h = .ok ()) :
    ∃ a, h.author = some a ∧ s.committee.contains a = true := by
  unfold checkAuthor author at hc
  cases ha : h.author with
  | none => simp [ha, bind, Except.bind] at hc
  | some a =>
    cases hm : s.committee.contains a with
    | false => simp [ha, hm, bind, Except.bind, throw, throwThe, MonadExceptOf.throw] at hc
    | true => exact ⟨a, rfl, hm⟩

omit [Scheme] in
theorem checkExtra_checkpoint (hc : checkExtra epoch s h = .ok ())
    (he : epoch.isCheckpoint h.number = true) : h.extra.validators = s.committee.members := by
  rw [checkExtra, if_pos he] at hc
  split at hc
  · cases hc
  · split at hc
    · cases hc
    · rename_i hv
      exact not_not.mp hv

theorem Holds.snapshotOf {policy : ProposerPolicy} {find : Digest → Option Header} {t : Snapshot}
    (hh : Holds epoch policy find h s) (ha : s.Agrees epoch policy t)
    (hn : next? s.number = some h.number) (hfind : find h.hash = some h.withoutCommittedSeals) :
    ∃ u v, SnapshotOf epoch policy find h.hash u ∧ t.applyHeader h = .ok v ∧
      u.Agrees epoch policy v := by
  obtain ⟨author, hauth, hm⟩ := checkAuthor_ok hh.author
  obtain ⟨u, hu⟩ := Snapshot.applyHeader_exists hauth hm
  obtain ⟨v, hv, huv⟩ := ha.applyHeader hu
  cases hc : epoch.isCheckpoint h.number with
  | false => exact ⟨u, v, .later hfind hc hh.snapshot hn hu, hv, huv⟩
  | true =>
    have hlisted := checkExtra_checkpoint hh.extra hc
    have hne : h.extra.validators ≠ [] := by
      rw [hlisted]
      exact List.ne_nil_of_mem (Committee.contains_iff.mp hm)
    exact ⟨_, v, .checkpoint hfind hc (List.isEmpty_eq_false_iff.mpr hne), hv,
      ha.checkpoint hc hlisted hv⟩

end HeaderRules

section Chains

variable [Scheme] {σ : Type} [Ledger σ] [LawfulLedger σ]

/-- What an archive can remember that has been asked for snapshots while the ledger grew. -/
inductive Archive.Asked (epoch : Epoch) (policy : ProposerPolicy) : σ → Archive → Prop where
  | empty (ledger : σ) (capacity : Nat) : Asked epoch policy ledger (.empty epoch policy capacity)
  | ask {ledger : σ} {a : Archive} (number : Height) (hash : Digest)
      (ha : Asked epoch policy ledger a) : Asked epoch policy ledger (a.snapshot ledger number hash).2
  | grow {ledger ledger' : σ} {a : Archive} (hl : headers ledger <:+ headers ledger')
      (ha : Asked epoch policy ledger a) : Asked epoch policy ledger' a

/-- The ledger is a genesis block that lists a committee, and headers on top of it that have been
checked when they were added. -/
inductive Verified (epoch : Epoch) (policy : ProposerPolicy) : σ → Prop where
  | genesis {ledger : σ} {g : Header} (hl : headers ledger = [g]) (h0 : g.number = 0)
      (hv : g.extra.validators ≠ []) : Verified epoch policy ledger
  | extend {ledger ledger' : σ} {a : Archive} {h : Header} {final : Bool}
      (hl : Verified epoch policy ledger) (ha : a.Asked epoch policy ledger)
      (hx : h.Extends (Ledger.head ledger))
      (hok : (HeaderRules.verify ledger a h final).1 = .ok ())
      (hl' : headers ledger' = h :: headers ledger) : Verified epoch policy ledger'

variable {epoch : Epoch} {policy : ProposerPolicy} {ledger : σ}

theorem Archive.Asked.recalls {a : Archive} (ha : a.Asked epoch policy ledger)
    (hc : Collisionless (headers ledger)) : a.Recalls epoch policy ledger := by
  induction ha with
  | empty ledger capacity => exact Archive.empty_recalls epoch policy capacity ledger
  | ask number hash _ ih => exact ((ih hc).snapshot number hash).1
  | grow hl _ ih => exact (ih (hc.mono hl.subset)).mono fun d h hd => lookup_mono hl.subset hc hd

namespace Verified

theorem head_cons (hv : Verified epoch policy ledger) :
    ∃ hs, headers ledger = Ledger.head ledger :: hs := by
  cases hv with
  | genesis hl => exact ⟨[], by rw [LawfulLedger.head_of_cons hl, hl]⟩
  | extend _ _ _ _ hl' => exact ⟨_, by rw [LawfulLedger.head_of_cons hl', hl']⟩

theorem lookup_head (hv : Verified epoch policy ledger) (hc : Collisionless (headers ledger)) :
    Ledger.lookup ledger (Ledger.head ledger).hash =
      some (Ledger.head ledger).withoutCommittedSeals := by
  obtain ⟨hs, hl⟩ := hv.head_cons
  exact (lookup_eq_some hc).mpr ⟨_, by simp [hl], rfl, rfl⟩

theorem before (hv : Verified epoch policy ledger) {later earlier : List Header} {h : Header}
    (hl : headers ledger = later ++ h :: earlier) :
    ∃ ledger' : σ, Verified epoch policy ledger' ∧ headers ledger' = h :: earlier := by
  induction hv generalizing later with
  | genesis hg h0 hv =>
    cases later with
    | nil => exact ⟨_, .genesis hg h0 hv, hl⟩
    | cons k later => simp [hg] at hl
  | extend hv ha hx hok hl' ih =>
    cases later with
    | nil => exact ⟨_, .extend hv ha hx hok hl', hl⟩
    | cons k later =>
      rw [hl', List.cons_append, List.cons.injEq] at hl
      exact ih hl.2

theorem replays (hv : Verified epoch policy ledger) (hc : Collisionless (headers ledger)) :
    ∃ s t, SnapshotOf epoch policy (Ledger.lookup ledger) (Ledger.head ledger).hash s ∧
      Snapshot.replay epoch policy (headers ledger).reverse = .ok t ∧ s.Agrees epoch policy t := by
  have hlookup := hv.lookup_head hc
  induction hv with
  | @genesis ledger g hl h0 hv =>
    rw [LawfulLedger.head_of_cons hl] at hlookup ⊢
    have hnum : epoch.isCheckpoint g.withoutCommittedSeals.number = true := by
      show epoch.isCheckpoint g.number = true
      simp [Epoch.isCheckpoint, h0]
    have hs : SnapshotOf epoch policy _ _ _ :=
      .checkpoint hlookup hnum (List.isEmpty_eq_false_iff.mpr hv)
    refine ⟨_, _, hs, ?_, rfl, rfl, rfl⟩
    rw [hl]
    rfl
  | @extend ledger ledger' a h final hv ha hx hok hl' ih =>
    have hsub : headers ledger ⊆ headers ledger' := by simp [hl']
    have hold := hc.mono hsub
    rw [LawfulLedger.head_of_cons hl'] at hlookup ⊢
    obtain ⟨s, t, hs, ht, hst⟩ := ih hold (hv.lookup_head hold)
    -- the snapshot that the header has been checked with is that of the head
    have h0 : h.number ≠ 0 := by
      intro h0
      have := toNat_of_next? hx.2
      simp [h0] at this
    obtain ⟨s', hh⟩ := HeaderRules.verify_holds (ha.recalls hold) hok h0
    have hsnap := hh.snapshot
    rw [hx.1] at hsnap
    obtain rfl := hsnap.unique hs
    obtain ⟨k, hk, hnum, hhash⟩ := hs.frame fun _ _ => lookup_hash
    obtain rfl := Option.some.inj (hk.symm.trans (hv.lookup_head hold))
    have hn : next? s'.number = some h.number := hnum ▸ hx.2
    obtain ⟨u, v, hu, happ, huv⟩ :=
      (hh.mono fun _ _ => lookup_mono hsub hc).snapshotOf hst hn hlookup
    refine ⟨u, v, hu, ?_, huv⟩
    rw [hl', List.reverse_cons]
    exact Snapshot.replay_push ht (hst.number ▸ hn) (hst.hash ▸ hx.1.trans hhash.symm) happ

end Verified

namespace Archive

/-- On a checked chain an archive has a snapshot after every block, whatever it has been asked before.
Apart from the proposer it is the one that all headers from the genesis block on lead to. -/
theorem snapshot_replays (hv : Verified epoch policy ledger) (hc : Collisionless (headers ledger))
    {a : Archive} (ha : a.Asked epoch policy ledger) :
    ∀ later h earlier, headers ledger = later ++ h :: earlier →
      ∃ s t, (a.snapshot ledger h.number h.hash).1 = .ok s ∧
        Snapshot.replay epoch policy (h :: earlier).reverse = .ok t ∧
        s.committee.members = t.committee.members ∧ s.votes = t.votes ∧ s.tally = t.tally := by
  intro later h earlier hl
  obtain ⟨ledger', hv', hl'⟩ := hv.before hl
  have hsub : headers ledger' ⊆ headers ledger := by simp [hl, hl']
  obtain ⟨s, t, hs, ht, hst⟩ := hv'.replays (hc.mono hsub)
  rw [LawfulLedger.head_of_cons hl'] at hs
  have hs := hs.mono fun _ _ => lookup_mono hsub hc
  obtain ⟨k, hk, hn, -⟩ := hs.frame fun _ _ => lookup_hash
  have hfound := (lookup_eq_some hc).mpr ⟨h, by simp [hl], rfl, rfl⟩
  obtain rfl := Option.some.inj (hk.symm.trans hfound)
  have hn : s.number = h.number := hn
  rw [hl'] at ht
  refine ⟨s, t, ?_, ht, hst.members, hst.votes, hst.tally⟩
  rw [← hn]
  exact snapshot_eq (ha.recalls hc) hs

end Archive

end Chains

namespace Archive

section Example

attribute [local instance] Scheme.plain

def exampleHeader (parent : Header) (author : Address) (vote : Option MembershipVote)
    (validators : List Address) : Header :=
  let unsealed : Header :=
    ⟨parent.hash, parent.number + 1, 0, engineMarker, 0, vote, { Extra.empty with validators }⟩
  { unsealed with
    extra := { unsealed.extra with
      proposerSeal := (Signer.plain author).sign unsealed.sealHash } }

def exampleGenesis : Header := .genesis [1, 2, 3] 0

def exampleFirst : Header := exampleHeader exampleGenesis 1 (some ⟨9, true⟩) []

def exampleSecond : Header := exampleHeader exampleFirst 2 (some ⟨9, true⟩) []

def exampleThird : Header := exampleHeader exampleSecond 3 none [1, 2, 3, 9]

def exampleChain : MemoryLedger :=
  .ofHeaders [exampleGenesis, exampleFirst, exampleSecond, exampleThird]

def exampleArchive : Archive :=
  ((empty 3 .roundRobin 4).snapshot exampleChain exampleSecond.number exampleSecond.hash).2

theorem snapshot_replays_third :
    ∃ s t, (exampleArchive.snapshot exampleChain exampleThird.number exampleThird.hash).1 = .ok s ∧
      Snapshot.replay 3 .roundRobin [exampleGenesis, exampleFirst, exampleSecond, exampleThird] =
        .ok t ∧
      s.committee.members = t.committee.members ∧ s.votes = t.votes ∧ s.tally = t.tally := by
  let one : MemoryLedger := .ofHeaders [exampleGenesis]
  let two : MemoryLedger := .ofHeaders [exampleGenesis, exampleFirst]
  let three : MemoryLedger := .ofHeaders [exampleGenesis, exampleFirst, exampleSecond]
  let a := empty 3 .roundRobin 4
  have ha (l : MemoryLedger) : a.Asked 3 .roundRobin l := .empty l 4
  have hfirst : (HeaderRules.verify one a exampleFirst false).1 = .ok () := by decide +kernel
  have hsecond : (HeaderRules.verify two a exampleSecond false).1 = .ok () := by decide +kernel
  have hthird : (HeaderRules.verify three a exampleThird false).1 = .ok () := by decide +kernel
  have hone : Verified 3 .roundRobin one := .genesis rfl rfl (by decide)
  have htwo : Verified 3 .roundRobin two := .extend hone (ha _) (by decide +kernel) hfirst rfl
  have hthree : Verified 3 .roundRobin three := .extend htwo (ha _) (by decide +kernel) hsecond rfl
  have hchain : Verified 3 .roundRobin exampleChain :=
    .extend hthree (ha _) (by decide +kernel) hthird rfl
  exact snapshot_replays hchain (by decide +kernel) (.ask _ _ (ha _)) [] exampleThird
    [exampleSecond, exampleFirst, exampleGenesis] rfl

end Example

end Archive

end BlockAgreement
