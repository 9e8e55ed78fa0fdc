import BlockAgreement.Proofs.Network.Chains
import BlockAgreement.Proofs.Network.Schedule

/-!
# Agreement

Replicas that begin with the same chain and add to it only what they decide on have chains that do not
part, in whatever order things happen to them. So no two of them hand different blocks of one height to
their ledgers.
-/

set_option autoImplicit false

namespace BlockAgreement

namespace Network

open Replica

variable {ι σ : Type} [DecidableEq ι] [Scheme] [Ledger σ] [LawfulLedger σ]

/-- What the replicas of a network may rely on. -/
structure Faithful (start net : ι → Replica σ) (h : List (ι × Moment σ)) : Prop where
  distinct : ∀ i j, (start i).signer.address = (start j).signer.address → i = j
  unforged : Unforged start h
  /-- No committee has more members outside the network than it tolerates. -/
  tolerated : ∀ x ∈ h, x.2.before.committee.Tolerates fun a => ∃ i, (start i).signer.address = a
  accepted : ∀ x ∈ h, x.2.Accepted
  /-- Only the replica itself adds to its ledger. -/
  owned : ∀ x ∈ h, ∀ l, x.2.event ≠ .replace l
  collisionless : ∀ i j, ∀ g ∈ headers (net i).ledger, ∀ k ∈ headers (net j).ledger,
    g.hash = k.hash → g.withoutCommittedSeals = k.withoutCommittedSeals

structure Opening (epoch : Epoch) (policy : ProposerPolicy) (genesis : List Header)
    (start : ι → Replica σ) : Prop where
  nonempty : genesis ≠ []
  linked : Linked genesis
  shared : ∀ i, headers (start i).ledger = genesis
  idle : ∀ i, (start i).attempt = none
  quiet : ∀ i, (start i).queued = []
  recalls : ∀ i, (start i).archive.Recalls epoch policy (start i).ledger
  office : ∀ i, InForce epoch policy (bare (start i).ledger) (start i).committee.members

variable {epoch : Epoch} {policy : ProposerPolicy} {genesis : List Header}
  {start net : ι → Replica σ} {h : List (ι × Moment σ)} {i j : ι}

theorem Faithful.own (hf : Faithful start net h) (i : ι) :
    (∀ m ∈ own i h, m.Accepted) ∧ ∀ m ∈ own i h, ∀ l, m.event ≠ .replace l :=
  ⟨fun m hm => hf.accepted (i, m) (mem_own.mp hm), fun m hm => hf.owned (i, m) (mem_own.mp hm)⟩

theorem Execution.suffix (he : Execution start h net) (hf : Faithful start net h) (i : ι) :
    headers (start i).ledger <:+ headers (net i).ledger :=
  (he.run i).suffix (hf.own i).2

theorem Faithful.grows (net : ι → Replica σ) (i : ι) {e : Event σ} (hl : ∀ l, e ≠ .replace l) (j : ι) :
    headers (net j).ledger <:+ headers (Function.update net i ((net i).react e) j).ledger := by
  by_cases hj : j = i
  · rw [hj, Function.update_self]
    exact (Moment.moves (m := ⟨net i, e⟩) hl).2.1.suffix
  · rw [Function.update_of_ne hj]

theorem Faithful.before {e : Event σ}
    (hf : Faithful start (Function.update net i ((net i).react e)) ((i, ⟨net i, e⟩) :: h)) :
    Faithful start net h := by
  have hgrow := Faithful.grows net i (hf.owned _ List.mem_cons_self)
  constructor
  · exact hf.distinct
  · exact hf.unforged.of_suffix (List.suffix_cons _ _)
  · exact fun x hx => hf.tolerated x (List.mem_cons_of_mem _ hx)
  · exact fun x hx => hf.accepted x (List.mem_cons_of_mem _ hx)
  · exact fun x hx => hf.owned x (List.mem_cons_of_mem _ hx)
  · exact fun j l g hg k hk =>
      hf.collisionless j l g ((hgrow j).subset hg) k ((hgrow l).subset hk)

/-- Each replica has a chain and the committee in office. -/
theorem Execution.seated (he : Execution start h net) (ho : Opening epoch policy genesis start)
    (hf : Faithful start net h) (i : ι) :
    (net i).stance.Seated epoch policy ∧ Chained (net i).ledger := by
  have hc : Collisionless (headers (net i).ledger) := hf.collisionless i i
  have hstart : Chained (start i).ledger :=
    ⟨by rw [ho.shared]; exact ho.nonempty, by rw [ho.shared]; exact ho.linked,
      hc.mono (he.suffix hf i).subset⟩
  exact ((he.run i).seated (ho.idle i) (ho.recalls i) (ho.office i) (hf.own i).2 hstart hc).2

/-- A replica votes to commit to one block at a height. -/
theorem Execution.single (he : Execution start h net) (ho : Opening epoch policy genesis start)
    (hf : Faithful start net h) {n : Height} {d e : Digest} (hd : Voted h i n d)
    (hv : Voted h i n e) : d = e := by
  obtain ⟨x, hx, hxk, hxn, rfl⟩ := hd
  obtain ⟨y, hy, hyk, hyn, rfl⟩ := hv
  have hpair := ((he.run i).keeps (ho.idle i) (hf.own i).1).follows
  exact Ballot.digest_eq hpair hx hy hxk hyk (hxn.trans hyn.symm)

/-- Who has signed a ballot has cast it or has the block in the ledger. -/
theorem Execution.cast_or (he : Execution start h net) (hf : Faithful start net h) {c : Message}
    {x : Ballot} (hs : Signed h i c) (hx : c.ballot? = some x) :
    x ∈ (own i h).flatMap Moment.ballots ∨ ∃ k ∈ bare (net i).ledger, k.hash = x.digest := by
  obtain ⟨m, hm, d, hd, hdc⟩ := hs
  have hb : d.ballot? = some x := (congrArg Message.ballot? hdc).trans hx
  by_cases ha : m.before.stance.answers m.heard d = true
  · obtain ⟨header, hh⟩ := Stance.answers_spec ha hb
    obtain ⟨hin, hhash⟩ := LawfulLedger.found hh
    have hgrow := (Moment.moves (hf.owned _ hm)).2.1.suffix.trans
      ((he.run i).suffix_after (hf.own i).2 m (mem_own.mpr hm))
    exact .inr ⟨_, List.mem_map.mpr ⟨header, hgrow.subset hin, rfl⟩, hhash⟩
  · refine .inl (List.mem_flatMap.mpr ⟨m, mem_own.mpr hm, ?_⟩)
    refine List.mem_filterMap.mpr ⟨.broadcast d, Moment.mem_signed.mp hd, ?_⟩
    exact (if_neg ha).trans hb

/-- Who has signed a Commit has voted for the block or has it in the ledger. -/
theorem Execution.voted_or (he : Execution start h net) (hf : Faithful start net h) {c : Message}
    {s : Subject} (hs : Signed h i c) (hc : c.CommitsTo s) :
    Voted h i s.view.sequence s.digest ∨ ∃ k ∈ bare (net i).ledger, k.hash = s.digest := by
  have hb : c.ballot? = some ⟨.commit, s⟩ := by
    rw [Message.ballot?_of_subject (.inr hc.kind) hc.subject, hc.kind]
  exact (he.cast_or hf hs hb).imp_left fun hx => ⟨_, hx, rfl, rfl, rfl⟩

/-- A block that a replica decides on is backed by a quorum of those who voted for it or have it. -/
theorem Execution.backed {e : Event σ} {b : Block} (he : Execution start h net)
    (ho : Opening epoch policy genesis start)
    (hf : Faithful start (Function.update net i ((net i).react e)) ((i, ⟨net i, e⟩) :: h))
    (hb : .commit b ∈ (⟨net i, e⟩ : Moment σ).shown) :
    Backed epoch policy (fun j => (start j).signer.address) (bare (net i).ledger) fun j =>
      Voted h j b.number b.hash ∨ ∃ k ∈ bare (net j).ledger, k.hash = b.hash := by
  have hfb := hf.before
  obtain ⟨hseat, -⟩ := he.seated ho hfb i
  have hcoh := (he.run i).coherent (ho.idle i)
  obtain ⟨a, c, m, commits, hheard, hd, rfl⟩ := Moment.decides hb
  obtain ⟨-, hto⟩ := hd.commits hcoh
  obtain ⟨hdistinct, hin, hq⟩ := hd.senders hcoh rfl
  have hnum : c.number = a.view.sequence := (hcoh a hd.attempt).number c hd.proposal
  have hsigned : ∀ y ∈ commits.messages, ∀ j, (start j).signer.address = y.sender →
      Signed h j y := by
    intro y hy j hj
    obtain ⟨hyto, hy | rfl⟩ := hto y hy
    · exact he.heard_signed hfb.unforged hfb.distinct ho.quiet hfb.owned hy hyto.verified hj
    · exact (he.sourced hfb.unforged hfb.distinct ho.quiet hfb.owned).heard hf.unforged hheard
        hyto.verified hj
  refine ⟨(net i).committee, commits.senders, (hseat.decides hcoh hd).2,
    hf.tolerated _ List.mem_cons_self, hdistinct, hin, hq, fun j hj => ?_⟩
  obtain ⟨y, hy, hyj⟩ := List.mem_map.mp hj
  have hvote := he.voted_or hfb (hsigned y hy j hyj.symm) (hto y hy).1
  rw [← hnum] at hvote
  exact hvote

theorem Execution.adds {e : Event σ} {b : Block} (he : Execution start h net)
    (ho : Opening epoch policy genesis start)
    (hf : Faithful start (Function.update net i ((net i).react e)) ((i, ⟨net i, e⟩) :: h))
    (hb : .commit b ∈ (⟨net i, e⟩ : Moment σ).shown)
    (happ : Ledger.append (net i).ledger b = .ok ((net i).react e).ledger) :
    Adds epoch policy (fun j => (start j).signer.address) (genesis.map Header.withoutCommittedSeals)
      h (fun j => bare (net j).ledger) i b.header.withoutCommittedSeals := by
  have hfb := hf.before
  have hchain (j : ι) : Chained (net j).ledger := (he.seated ho hfb j).2
  have hgrow : headers ((net i).react e).ledger = b.header :: headers (net i).ledger :=
    LawfulLedger.appended happ
  have hsuf := Faithful.grows net i (hf.owned _ List.mem_cons_self)
  constructor
  · rw [← ho.shared i]
    exact (he.suffix hfb i).map _
  · exact fun j => (hchain j).linked.bare
  · refine ⟨fun h0 => (hchain i).nonempty (List.map_eq_nil_iff.mp h0), ?_⟩
    have hafter := ((Execution.step i e he).seated ho hf i).2.linked.bare
    rw [Function.update_self, bare_of_appended happ] at hafter
    exact hafter
  · intro j k hk hhash
    obtain ⟨g, hg, rfl⟩ := List.mem_map.mp hk
    refine hf.collisionless j i g ((hsuf j).subset hg) b.header ?_ hhash
    rw [Function.update_self, hgrow]
    exact List.mem_cons_self
  · exact fun j n d e hd hv => he.single ho hfb hd hv
  · exact he.backed ho hf hb

/-- The chains of a network do not part. -/
theorem Execution.agreeing (he : Execution start h net) (ho : Opening epoch policy genesis start)
    (hf : Faithful start net h) :
    Agreeing epoch policy (fun j => (start j).signer.address)
      (genesis.map Header.withoutCommittedSeals) h fun j => bare (net j).ledger := by
  induction he with
  | nil =>
    have hsame (i : ι) : bare (start i).ledger = genesis.map Header.withoutCommittedSeals := by
      rw [bare, ho.shared]
    refine ⟨fun i j => .inl ?_, fun i g hs hg hbegin => ?_⟩
    · rw [hsame, hsame]
    · have hlen := hg.length_le
      rw [hsame, List.length_cons] at hlen
      exact absurd hbegin.length_le (Nat.not_le_of_lt hlen)
  | @step h net i e he ih =>
    have hs := ih hf.before
    have hown (j : ι) : own j h ⊆ own j ((i, ⟨net i, e⟩) :: h) := fun m hm =>
      mem_own.mpr (List.mem_cons_of_mem _ (mem_own.mp hm))
    have hupdate : (fun j => bare (Function.update net i ((net i).react e) j).ledger) =
        Function.update (fun j => bare (net j).ledger) i (bare ((net i).react e).ledger) := by
      funext j
      by_cases hj : j = i
      · rw [hj, Function.update_self, Function.update_self]
      · rw [Function.update_of_ne hj, Function.update_of_ne hj]
    rw [hupdate]
    rcases Moment.ledger (m := ⟨net i, e⟩) (hf.owned _ List.mem_cons_self) with hl | ⟨b, hb, happ⟩
    · have hl : ((net i).react e).ledger = (net i).ledger := hl
      rw [hl, Function.update_eq_self]
      exact hs.mono hown
    · have happ : Ledger.append (net i).ledger b = .ok ((net i).react e).ledger := happ
      rw [bare_of_appended happ]
      exact (hs.add (he.adds ho hf hb happ)).mono hown

omit [DecidableEq ι] in
theorem Opening.of_create {signer : ι → Signer} {ledger : ι → σ} {snapshots : ι → Nat}
    {gossip : ι → Gossip} {timer : ι → Timer} {capacity : ι → Nat}
    (hc : ∀ i, create (signer i) (ledger i) (.empty epoch policy (snapshots i)) (gossip i) (timer i)
      (capacity i) = .ok (start i))
    (hl : ∀ i, headers (ledger i) = genesis) (hg : Linked genesis) (hn : genesis ≠ [])
    (hd : Collisionless genesis) : Opening epoch policy genesis start := by
  have hchain (i : ι) : Chained (ledger i) := ⟨hl i ▸ hn, hl i ▸ hg, hl i ▸ hd⟩
  have hledger (i : ι) : (start i).ledger = ledger i := by
    obtain ⟨-, -, -, hledger, -⟩ := create_spec (hc i)
    exact hledger
  constructor
  · exact hn
  · exact hg
  · intro i
    rw [hledger, hl]
  · intro i
    obtain ⟨-, -, -, -, -, hidle, -⟩ := create_spec (hc i)
    exact hidle
  · intro i
    obtain ⟨-, -, -, -, -, -, hready, hbacklog, -⟩ := create_spec (hc i)
    rw [queued, hready, hbacklog]
    rfl
  · intro i
    obtain ⟨-, hrec, -⟩ := create_recalls (hc i)
    exact hrec
  · intro i
    rw [hledger]
    exact create_office (hc i) (hchain i)

/-- The chain with which a replica of the network begins is in its ledger still, so its hashes do not
collide. -/
theorem Opening.of_faithful {signer : ι → Signer} {ledger : ι → σ} {snapshots : ι → Nat}
    {gossip : ι → Gossip} {timer : ι → Timer} {capacity : ι → Nat} (i : ι)
    (hc : ∀ i, create (signer i) (ledger i) (.empty epoch policy (snapshots i)) (gossip i) (timer i)
      (capacity i) = .ok (start i))
    (hl : ∀ i, headers (ledger i) = genesis) (hg : Linked genesis) (hn : genesis ≠ [])
    (he : Execution start h net) (hf : Faithful start net h) : Opening epoch policy genesis start := by
  obtain ⟨s, -, -, hledger, -⟩ := create_spec (hc i)
  have hsuf := he.suffix hf i
  rw [hledger, hl] at hsuf
  exact .of_create hc hl hg hn (Collisionless.mono (hf.collisionless i i) hsuf.subset)

/-- In every execution of a network of replicas that begin with the same chain, no two of them hand
different blocks of one height to their ledgers. The replicas rely on ledgers that take what they are
handed and to which nobody else adds, on signatures that cannot be forged, on hashes that do not collide,
and on committees with no more strangers than they tolerate. -/
theorem agreement {signer : ι → Signer} {ledger : ι → σ} {snapshots : ι → Nat} {gossip : ι → Gossip}
    {timer : ι → Timer} {capacity : ι → Nat}
    (hc : ∀ i, create (signer i) (ledger i) (.empty epoch policy (snapshots i)) (gossip i) (timer i)
      (capacity i) = .ok (start i))
    (hl : ∀ i, headers (ledger i) = genesis) (hg : Linked genesis) (hn : genesis ≠ [])
    (he : Execution start h net) (hf : Faithful start net h) :
    ∀ i m b, (i, m) ∈ h → .commit b ∈ m.shown → ∀ j n c, (j, n) ∈ h → .commit c ∈ n.shown →
      b.number = c.number → b.hash = c.hash := by
  intro i m b hm hb j n c hn' hcm hnum
  have ho : Opening epoch policy genesis start := .of_faithful i hc hl hg hn he hf
  have hmem (i : ι) (m : Moment σ) (b : Block) (hm : (i, m) ∈ h) (hb : .commit b ∈ m.shown) :
      b.header.withoutCommittedSeals ∈ bare (net i).ledger := by
    have hin := Moment.mem_headers (hf.accepted _ hm) (hf.owned _ hm) hb
    have hsuf := (he.run i).suffix_after (hf.own i).2 m (mem_own.mpr hm)
    exact List.mem_map.mpr ⟨_, hsuf.subset hin, rfl⟩
  have hlinked (i : ι) : Linked (bare (net i).ledger) := (he.seated ho hf i).2.linked.bare
  have heq := ((he.agreeing ho hf).comparable i j).eq_of_number (hlinked i) (hlinked j)
    (hmem i m b hm hb) (hmem j n c hn' hcm) hnum
  have hhash : b.header.withoutCommittedSeals.hash = c.header.withoutCommittedSeals.hash :=
    congrArg Header.hash heq
  exact hhash

end Network

/-! The two validators take turns. Each of them stops once it has signed what the other one is to hear. -/

namespace Pair

open Replica Network Schedule

attribute [local instance] Scheme.plain

def validator : Bool → Signer
  | false => first
  | true => second

def schedule : Schedule Bool MemoryLedger :=
  [(true, secondEvents.drop 4), (false, firstEvents.drop 4), (true, secondEvents.take 4),
    (false, firstEvents.take 4)]

theorem validator_inj {i j : Bool} (h : (validator i).address = (validator j).address) : i = j := by
  revert i j
  decide

structure Orderly (start : Bool → Replica MemoryLedger) : Prop where
  steady : ∀ x ∈ history start schedule, x.2.Accepted ∧
    x.2.before.committee.members = [first.address, second.address]
  honest : Honest start schedule
  owned : Owned schedule = true
  collisionless : Collisionless (headers (last start false schedule).ledger ++
    headers (last start true schedule).ledger)

variable {start : Bool → Replica MemoryLedger}

instance : Decidable (Orderly start) :=
  decidable_of_iff (_ ∧ _ ∧ _ ∧ _)
    ⟨fun ⟨h1, h2, h3, h4⟩ => ⟨h1, h2, h3, h4⟩, fun ⟨h1, h2, h3, h4⟩ => ⟨h1, h2, h3, h4⟩⟩

theorem Orderly.faithful (ho : Orderly start) (hs : ∀ i, (start i).signer = validator i) :
    Faithful start (fun i => last start i schedule) (history start schedule) := by
  have hdistinct (i j : Bool) (h : (start i).signer.address = (start j).signer.address) : i = j := by
    rw [hs, hs] at h
    exact validator_inj h
  have hin (i : Bool) : headers (last start i schedule).ledger ⊆
      headers (last start false schedule).ledger ++ headers (last start true schedule).ledger := by
    cases i with
    | false => exact List.subset_append_left _ _
    | true => exact List.subset_append_right _ _
  constructor
  · exact hdistinct
  · exact ho.honest.unforged hdistinct
  · intro x hx
    refine ⟨[], Nat.zero_le _, fun a ha => .inr ?_⟩
    rw [(ho.steady x hx).2] at ha
    rcases List.mem_pair.mp ha with rfl | rfl
    · exact ⟨false, by rw [hs]; rfl⟩
    · exact ⟨true, by rw [hs]; rfl⟩
  · exact fun x hx => (ho.steady x hx).1
  · exact fun x hx => Owned.ne_replace ho.owned hx
  · exact fun i j g hg k hk => ho.collisionless g (hin i hg) k (hin j hk)

/-- Both validators commit the block. -/
theorem agreement_pair : ∃ start net h, (∀ i, replica (validator i) = .ok (start i)) ∧
    Execution start h net ∧ Faithful start net h ∧
    ∃ m b n c, (false, m) ∈ h ∧ .commit b ∈ m.shown ∧ (true, n) ∈ h ∧ .commit c ∈ n.shown ∧
      b.number = c.number ∧ b.hash = c.hash := by
  have hv : (replica first).toOption.any (fun r => (replica second).toOption.any fun s =>
      Orderly (fun i => if i then s else r) ∧
      ∀ i, ∃ x ∈ history (fun i : Bool => if i then s else r) schedule, x.1 = i ∧ Hands x.2 1) := by
    decide +kernel
  cases hr : replica first with
  | error e =>
    rw [hr] at hv
    cases hv
  | ok r =>
    cases hs : replica second with
    | error e =>
      rw [hr, hs] at hv
      cases hv
    | ok s =>
      rw [hr, hs] at hv
      obtain ⟨ho, hands⟩ := of_decide_eq_true hv
      have hcreate : ∀ i, replica (validator i) = .ok (if i then s else r) := by
        intro i
        cases i with
        | false => exact hr
        | true => exact hs
      have hsig : ∀ i, (if i then s else r).signer = validator i := by
        intro i
        obtain ⟨-, -, hsig, -⟩ := create_spec (hcreate i)
        exact hsig
      have he := execution (fun i : Bool => if i then s else r) schedule
      have hf := ho.faithful hsig
      obtain ⟨⟨i, m⟩, hm, rfl, hmc⟩ := hands false
      obtain ⟨⟨j, n⟩, hn, rfl, hnc⟩ := hands true
      obtain ⟨b, hb, hbn⟩ := Hands.exists_commit hmc
      obtain ⟨c, hc, hcn⟩ := Hands.exists_commit hnc
      have hgenesis : Linked [genesis] := List.isChain_singleton _
      have hnumber : b.number = c.number := hbn.trans hcn.symm
      exact ⟨_, _, _, hcreate, he, hf, m, b, n, c, hm, hb, hn, hc, hnumber,
        agreement hcreate (fun _ => rfl) hgenesis (List.cons_ne_nil _ _) he hf _ m b hm hb _ n c hn hc
          hnumber⟩

end Pair

end BlockAgreement
