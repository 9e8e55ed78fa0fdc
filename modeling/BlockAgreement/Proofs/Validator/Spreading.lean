import BlockAgreement.Proofs.Gossip.Forgetting
import BlockAgreement.Proofs.Validator.Intake

/-!
# A payload is sent once

While all peers and all payloads that come up are remembered, a validator sends no payload to a peer that
has it: because it was sent there before, or because it came from there. All others in the committee get
it. Payloads are known by their hashes, so two of the same hash count as one.
-/

set_option autoImplicit false

namespace BlockAgreement

namespace Gossip

variable {peers payloads : Nat} {ms ns : List (Address × Digest)} {peer : Address} {payload : Digest}
  {g : Gossip}

/-- All peers and all payloads of these marks are remembered. -/
def Fits (peers payloads : Nat) (ms : List (Address × Digest)) : Prop :=
  (ms.map Prod.fst).toFinset.card ≤ peers ∧ (ms.map Prod.snd).toFinset.card ≤ payloads

theorem Fits.mono (h : Fits peers payloads ms) (hsub : ns ⊆ ms) : Fits peers payloads ns := by
  have hmap {α : Type} [DecidableEq α] (f : Address × Digest → α) :
      (ns.map f).toFinset.card ≤ (ms.map f).toFinset.card :=
    Finset.card_le_card fun x hx => List.mem_toFinset.mpr
      (List.map_subset f hsub (List.mem_toFinset.mp hx))
  exact ⟨(hmap _).trans h.1, (hmap _).trans h.2⟩

theorem Fits.held_iff (h : Fits peers payloads ms) :
    Held peers payloads ms peer payload ↔ (peer, payload) ∈ ms := by
  constructor
  · rintro ⟨newer, older, rfl, -⟩
    exact List.mem_append_right _ List.mem_cons_self
  · intro hmem
    obtain ⟨newer, older, rfl, hnew⟩ := List.eq_append_cons_of_mem hmem
    refine ⟨newer, older, rfl, hnew, fun later earlier he hforgotten => ?_, ?_⟩
    · have hrest : earlier ++ (peer, payload) :: older ⊆ newer ++ (peer, payload) :: older := by
        rw [he, List.append_assoc]
        exact List.subset_append_right _ _
      obtain ⟨hpeer, hfresh⟩ := Lru.forgotten_iff.mp hforgotten
      exact hfresh (Lru.fresh_of_mem hpeer (h.mono hrest).1)
    · have hsub : payloadsOf peer newer ⊆ (newer ++ (peer, payload) :: older).map Prod.snd :=
        fun d hd => List.mem_map_of_mem (List.mem_append_left _ (mem_payloadsOf.mp hd))
      refine (Finset.card_le_card (Lru.toFinset_subset_erase (k := payload) ?_ hsub)).trans_lt ?_
      · exact fun hd => hnew (mem_payloadsOf.mp hd)
      · exact (Finset.card_erase_lt_of_mem (by simp)).trans_le h.2

theorem Tracks.peerHas_iff (h : Tracks peers payloads ms g) (hfits : Fits peers payloads ms)
    (peer : Address) (payload : Digest) : g.peerHas peer payload = true ↔ (peer, payload) ∈ ms :=
  h.peerHas.trans hfits.held_iff

def offers (payload : Digest) (as : List Address) : List (Address × Digest) :=
  (as.map fun a => (a, payload)).reverse

theorem offers_cons (payload : Digest) (a : Address) (as : List Address) :
    offers payload (a :: as) ++ ms = offers payload as ++ (a, payload) :: ms := by
  simp [offers]

theorem mem_offers {d : Digest} {as : List Address} :
    (peer, d) ∈ offers payload as ↔ d = payload ∧ peer ∈ as := by
  simp [offers, and_comm, eq_comm]

theorem Tracks.offer {as : List Address} (h : Tracks peers payloads ms g)
    (hfits : Fits peers payloads (offers payload as ++ ms)) (has : as.Nodup) :
    Tracks peers payloads (offers payload as ++ ms) (g.offer payload as).2 ∧
      (g.offer payload as).1 = as.filter fun b => (b, payload) ∉ ms := by
  induction as generalizing g ms with
  | nil => exact ⟨h, rfl⟩
  | cons a as ih =>
    obtain ⟨ha, has⟩ := List.nodup_cons.mp has
    rw [offers_cons] at hfits ⊢
    obtain ⟨htracks, hrest⟩ := ih (h.markPeer a payload) hfits has
    have hthere := h.peerHas_iff
      (hfits.mono fun m hm => List.mem_append_right _ (List.mem_cons_of_mem _ hm)) a payload
    rw [← markPeer_fst] at hthere
    have hothers : (as.filter fun b => (b, payload) ∉ (a, payload) :: ms) =
        as.filter fun b => (b, payload) ∉ ms := by
      refine List.filter_congr fun b hb => ?_
      have hne : b ≠ a := fun he => ha (he ▸ hb)
      simp [hne]
    rw [hothers] at hrest
    rw [Gossip.offer]
    rcases hmark : g.markPeer a payload with ⟨marked, s⟩
    rw [hmark] at htracks hrest hthere
    cases marked with
    | true => exact ⟨htracks, by rw [hrest, List.filter_cons_of_neg (by simpa using hthere.mp rfl)]⟩
    | false =>
      have hnot : (a, payload) ∉ ms := fun hm => by simpa using hthere.mpr hm
      exact ⟨htracks, by rw [List.filter_cons_of_pos (by simpa using hnot), ← hrest]⟩

end Gossip

namespace Validator

/-- A payload that is gossiped or comes in. -/
inductive Talk where
  | gossip (committee : Committee) (payload : Bytes)
  | hear (peer : Address) (payload : Bytes)

namespace Talk

/-- Those that get the payload from `me`, or the one that it came from. -/
def peers (me : Address) : Talk → List Address
  | gossip committee _ => committee.members.filter (· ≠ me)
  | hear peer _ => [peer]

def payload : Talk → Bytes
  | gossip _ payload => payload
  | hear _ payload => payload

def marks [Scheme] (me : Address) (t : Talk) : List (Address × Digest) :=
  Gossip.offers (hash t.payload) (t.peers me)

end Talk

variable {σ : Type}

/-- What has been sent since the effects were last collected, oldest first. -/
def sent (v : Validator σ) : List (Address × Bytes) := Effect.sends v.replica.flush.1

variable [Scheme]

def gossipsTo (v : Validator σ) (committee : Committee) (payload : Bytes) : Validator σ :=
  { v with replica := { v.replica with committee }.relay payload }

/-- What is gossiped and what is heard between two validators, the last one first. Whatever else is done
that sends nothing may go with it, also if payloads become known by it. -/
inductive Talks (v : Validator σ) : List Talk → Validator σ → Prop where
  | nil : Talks v [] v
  | gossip {ts : List Talk} {w : Validator σ} (hw : Talks v ts w) (committee : Committee)
      (payload : Bytes) : Talks v (.gossip committee payload :: ts) (w.gossipsTo committee payload)
  | hear {ts : List Talk} {w : Validator σ} (hw : Talks v ts w) (hs : w.replica.started = true)
      (peer : Address) (p : Packet) (hp : p.code = Packet.consensusCode) (m : Message)
      (hm : (Wire.decode p.unread : Except DecodeError Message) = .ok m) :
      Talks v (.hear peer p.unread :: ts) (w.intake peer p).2.2
  | other {ts : List Talk} {w u : Validator σ} (hw : Talks v ts w) (ha : u.address = w.address)
      {known : Lru Digest Unit} (hg : u.replica.gossip = { w.replica.gossip with known })
      (hu : u.sent = w.sent) :
      Talks v ts u

variable {v w u : Validator σ} {ts us : List Talk} {peer : Address} {p : Packet} {committee : Committee}
  {payload : Bytes}

namespace Talks

theorem trans (hw : Talks v ts w) (hu : Talks w us u) : Talks v (us ++ ts) u := by
  induction hu with
  | nil => exact hw
  | gossip _ committee payload ih => exact ih.gossip committee payload
  | hear _ hs peer p hp m hm ih => exact ih.hear hs peer p hp m hm
  | other _ ha hg hu ih => exact ih.other ha hg hu

end Talks

omit [Scheme] in
theorem sent_emit (r : Replica σ) (e : Effect) : Effect.sends (r.emit e).flush.1 =
    Effect.sends r.flush.1 ++ Effect.sends [e] := by
  simp [Replica.emit, Replica.flush, Effect.sends]

theorem gossipsTo_spec (v : Validator σ) (committee : Committee) (payload : Bytes) :
    (v.gossipsTo committee payload).address = v.address ∧
      (v.gossipsTo committee payload).replica.gossip =
        (v.replica.gossip.spread v.address committee (hash payload)).2 ∧
      (v.gossipsTo committee payload).sent = v.sent ++
        (v.replica.gossip.spread v.address committee (hash payload)).1.map (·, payload) := by
  have hmemory := Replica.relay_memory { v.replica with committee } payload
  have hfold (as : List Address) (r : Replica σ) :
      Effect.sends (as.foldl (fun r a => r.emit (.send a payload)) r).flush.1 =
        Effect.sends r.flush.1 ++ as.map (·, payload) := by
    induction as generalizing r with
    | nil => simp
    | cons a as ih =>
      rw [List.foldl_cons, ih, sent_emit, List.append_assoc]
      rfl
  exact ⟨congrArg Memory.me hmemory, congrArg Memory.gossip hmemory, hfold _ _⟩

theorem handIn_spec (v : Validator σ) (i : Input) (answer : Receipt × Inbox) :
    (v.handIn i answer).address = v.address ∧ (v.handIn i answer).sent = v.sent := by
  obtain ⟨receipt, inbox⟩ := answer
  cases receipt with
  | queued =>
    cases i with
    | message => exact ⟨rfl, (sent_emit _ _).trans (List.append_nil _)⟩
    | _ => exact ⟨rfl, rfl⟩
  | _ => exact ⟨rfl, rfl⟩

theorem intake_spec (hs : v.replica.started = true) (hp : p.code = Packet.consensusCode) {m : Message}
    (hm : (Wire.decode p.unread : Except DecodeError Message) = .ok m) (peer : Address) :
    (v.intake peer p).2.2.address = v.address ∧ (v.intake peer p).2.2.sent = v.sent ∧
      ∃ known, (v.intake peer p).2.2.replica.gossip =
        { (v.replica.gossip.markPeer peer (hash p.unread)).2 with known } := by
  cases hk : v.replica.gossip.isKnown (hash p.unread) with
  | true =>
    rw [intake_of_known hs hp hm hk]
    exact ⟨rfl, rfl, _, rfl⟩
  | false =>
    rw [intake_of_unknown hs hp hm hk]
    obtain ⟨haddress, hsent⟩ := handIn_spec (v.hears peer (hash p.unread)) _ _
    exact ⟨haddress, hsent, _, handIn_gossip _ _ _⟩

variable {capacity messages : Nat} {me : Address}

def Remembered (capacity messages : Nat) (me : Address) (ts : List Talk) : Prop :=
  Gossip.Fits capacity messages (ts.flatMap (·.marks me))

/-- A payload with this hash was sent to the peer or came from it. -/
def Had (v : Validator σ) (ts : List Talk) (peer : Address) (d : Digest) : Prop :=
  ∃ payload, hash payload = d ∧ ((peer, payload) ∈ v.sent ∨ Talk.hear peer payload ∈ ts)

structure Accounts (capacity messages : Nat) (me : Address) (ts : List Talk) (v : Validator σ) :
    Prop where
  address : v.address = me
  tracks : Gossip.Tracks capacity messages (ts.flatMap (·.marks me)) v.replica.gossip
  marked (a : Address) (d : Digest) : (a, d) ∈ ts.flatMap (·.marks me) ↔ v.Had ts a d
  once : (v.sent.map fun s => (s.1, hash s.2)).Nodup
  away : ∀ s ∈ v.sent, s.1 ≠ me

theorem Had.mono {a : Address} {d : Digest} (h : v.Had ts a d) (hsent : v.sent ⊆ w.sent)
    (hsub : ts ⊆ us) :
    w.Had us a d := by
  obtain ⟨payload, hd, hhad⟩ := h
  exact ⟨payload, hd, hhad.imp (hsent ·) (hsub ·)⟩

theorem Accounts.recipients (h : Accounts capacity messages me ts v)
    (hfits : Remembered capacity messages me (.gossip committee payload :: ts)) :
    Gossip.Tracks capacity messages ((Talk.gossip committee payload :: ts).flatMap (·.marks me))
      (v.gossipsTo committee payload).replica.gossip ∧
    ∃ as : List Address, (v.gossipsTo committee payload).sent = v.sent ++ as.map (·, payload) ∧
      as.Nodup ∧ ∀ a, a ∈ as ↔ a ∈ committee.members ∧ a ≠ me ∧ ¬ v.Had ts a (hash payload) := by
  obtain ⟨-, hgossip, hsent⟩ := gossipsTo_spec v committee payload
  have hnodup : (committee.members.filter (· ≠ me)).Nodup := committee.members_nodup.filter _
  obtain ⟨htracks, hrecipients⟩ :=
    (h.tracks.withKnown (v.replica.gossip.markKnown (hash payload)).2.known).offer hfits hnodup
  rw [hgossip, hsent, h.address]
  refine ⟨htracks, _, congrArg (v.sent ++ ·.map (·, payload)) hrecipients, hnodup.filter _, fun a => ?_⟩
  rw [List.mem_filter, List.mem_filter, ← h.marked, decide_eq_true_eq, decide_eq_true_eq, and_assoc]
  rfl

theorem had_gossip {as : List Address} (hsent : w.sent = v.sent ++ as.map (·, payload)) (a : Address)
    (d : Digest) : w.Had (.gossip committee payload :: ts) a d ↔
      (d = hash payload ∧ a ∈ as) ∨ v.Had ts a d := by
  constructor
  · rintro ⟨q, rfl, hq | hq⟩
    · rw [hsent] at hq
      rcases List.mem_append.mp hq with hq | hq
      · exact .inr ⟨q, rfl, .inl hq⟩
      · obtain ⟨b, hb, heq⟩ := List.mem_map.mp hq
        obtain ⟨rfl, rfl⟩ := Prod.mk.inj heq
        exact .inl ⟨rfl, hb⟩
    · exact .inr ⟨q, rfl, .inr (by simpa using hq)⟩
  · rintro (⟨rfl, ha⟩ | hhad)
    · exact ⟨payload, rfl, .inl (hsent ▸ List.mem_append_right _ (List.mem_map_of_mem ha))⟩
    · exact hhad.mono (hsent ▸ List.subset_append_left _ _) (List.subset_cons_self _ _)

theorem had_hear (hsent : w.sent = v.sent) (a : Address) (d : Digest) :
    w.Had (.hear peer payload :: ts) a d ↔ (d = hash payload ∧ a = peer) ∨ v.Had ts a d := by
  constructor
  · rintro ⟨q, rfl, hq | hq⟩
    · exact .inr ⟨q, rfl, .inl (hsent ▸ hq)⟩
    · rcases List.mem_cons.mp hq with heq | hq
      · obtain ⟨rfl, rfl⟩ := Talk.hear.inj heq
        exact .inl ⟨rfl, rfl⟩
      · exact .inr ⟨q, rfl, .inr hq⟩
  · rintro (⟨rfl, rfl⟩ | hhad)
    · exact ⟨payload, rfl, .inr List.mem_cons_self⟩
    · exact hhad.mono (hsent ▸ List.Subset.refl _) (List.subset_cons_self _ _)

theorem Accounts.gossip (h : Accounts capacity messages me ts v)
    (hfits : Remembered capacity messages me (.gossip committee payload :: ts)) :
    Accounts capacity messages me (.gossip committee payload :: ts) (v.gossipsTo committee payload) := by
  obtain ⟨htracks, as, hsent, hnodup, hmem⟩ := h.recipients hfits
  refine ⟨(gossipsTo_spec v committee payload).1.trans h.address, htracks, fun a d => ?_, ?_, ?_⟩
  · have hpeers : a ∈ (Talk.gossip committee payload).peers me ↔ a ∈ committee.members ∧ a ≠ me := by
      simp [Talk.peers]
    rw [had_gossip hsent, hmem, List.flatMap_cons, List.mem_append, h.marked, Talk.marks,
      Gossip.mem_offers, hpeers]
    -- A member that had the payload is marked once more, and not sent it.
    constructor
    · rintro (⟨rfl, ha⟩ | hhad)
      · by_cases hhad : v.Had ts a (hash payload)
        · exact .inr hhad
        · exact .inl ⟨rfl, ha.1, ha.2, hhad⟩
      · exact .inr hhad
    · rintro (⟨rfl, ha, hme, -⟩ | hhad)
      · exact .inl ⟨rfl, ha, hme⟩
      · exact .inr hhad
  · rw [hsent, List.map_append, List.map_map, List.nodup_append]
    refine ⟨h.once, hnodup.map fun a b hab => (Prod.mk.inj hab).1, ?_⟩
    rintro x hx y hy rfl
    obtain ⟨s, hs, rfl⟩ := List.mem_map.mp hx
    obtain ⟨b, hb, heq⟩ := List.mem_map.mp hy
    obtain ⟨rfl, hd⟩ := Prod.mk.inj heq
    exact ((hmem _).mp hb).2.2 ⟨s.2, hd.symm, .inl hs⟩
  · rw [hsent]
    intro s hs
    rcases List.mem_append.mp hs with hs | hs
    · exact h.away s hs
    · obtain ⟨b, hb, rfl⟩ := List.mem_map.mp hs
      exact ((hmem b).mp hb).2.1

theorem Accounts.hear (h : Accounts capacity messages me ts v) (hs : v.replica.started = true)
    (hp : p.code = Packet.consensusCode) {m : Message}
    (hm : (Wire.decode p.unread : Except DecodeError Message) = .ok m) (peer : Address) :
    Accounts capacity messages me (.hear peer p.unread :: ts) (v.intake peer p).2.2 := by
  obtain ⟨haddress, hsent, known, hgossip⟩ := intake_spec hs hp hm peer
  refine ⟨haddress.trans h.address, ?_, fun a d => ?_, hsent ▸ h.once, hsent ▸ h.away⟩
  · rw [hgossip]
    exact (h.tracks.markPeer peer (hash p.unread)).withKnown known
  · rw [had_hear hsent, List.flatMap_cons, List.mem_append, h.marked, Talk.marks, Gossip.mem_offers]
    exact or_congr_left (and_congr_right fun _ => List.mem_singleton)

theorem Remembered.mono (h : Remembered capacity messages me us) (hsub : ts ⊆ us) :
    Remembered capacity messages me ts :=
  Gossip.Fits.mono h fun m hm => by
    obtain ⟨t, ht, hm⟩ := List.mem_flatMap.mp hm
    exact List.mem_flatMap.mpr ⟨t, hsub ht, hm⟩

namespace Talks

theorem accounts (hv : v.replica.gossip = .empty capacity messages) (hsent : v.sent = [])
    (hw : Talks v ts w) (hfits : Remembered capacity messages v.address ts) :
    Accounts capacity messages v.address ts w := by
  induction hw with
  | nil =>
    refine ⟨rfl, ?_, fun a d => ?_, by simp [hsent], by simp [hsent]⟩
    · rw [hv]
      exact Gossip.empty_tracks _ _
    · simp [Had, hsent]
  | gossip _ committee payload ih => exact (ih (hfits.mono (List.subset_cons_self _ _))).gossip hfits
  | hear _ hs peer p hp m hm ih => exact (ih (hfits.mono (List.subset_cons_self _ _))).hear hs hp hm peer
  | @other _ _ _ _ ha known hg hu ih =>
    have h := ih hfits
    refine ⟨ha.trans h.address, hg ▸ h.tracks.withKnown known, fun a d => ?_, hu ▸ h.once, hu ▸ h.away⟩
    rw [h.marked, Had, Had, hu]

theorem sent_later (hv : v.replica.gossip = .empty capacity messages) (hsent : v.sent = [])
    (hw : Talks v ts w) (hu : Talks w us u) (hfits : Remembered capacity messages v.address (us ++ ts)) :
    ∃ later, u.sent = w.sent ++ later ∧
      ∀ s ∈ later, ¬ w.Had ts s.1 (hash s.2) ∧ ∃ committee, .gossip committee s.2 ∈ us := by
  induction hu with
  | nil => exact ⟨[], by simp, by simp⟩
  | @gossip us x hx committee payload ih =>
    have hbefore := hfits.mono (List.subset_cons_self _ _)
    obtain ⟨later, hlater, hspec⟩ := ih hbefore
    obtain ⟨-, as, hnow, -, hmem⟩ := ((hw.trans hx).accounts hv hsent hbefore).recipients hfits
    refine ⟨later ++ as.map (·, payload), by rw [hnow, hlater, List.append_assoc], fun s hs => ?_⟩
    rcases List.mem_append.mp hs with hs | hs
    · obtain ⟨hnot, c, hc⟩ := hspec s hs
      exact ⟨hnot, c, List.mem_cons_of_mem _ hc⟩
    · obtain ⟨a, ha, rfl⟩ := List.mem_map.mp hs
      refine ⟨fun hhad => ((hmem a).mp ha).2.2 ?_, committee, List.mem_cons_self⟩
      exact hhad.mono (hlater ▸ List.subset_append_left _ _) (List.subset_append_right _ _)
  | @hear us x hx hs peer p hp m hm ih =>
    obtain ⟨later, hlater, hspec⟩ := ih (hfits.mono (List.subset_cons_self _ _))
    refine ⟨later, (intake_spec hs hp hm peer).2.1.trans hlater, fun s hs => ?_⟩
    obtain ⟨hnot, c, hc⟩ := hspec s hs
    exact ⟨hnot, c, List.mem_cons_of_mem _ hc⟩
  | other _ _ _ hsame ih =>
    obtain ⟨later, hlater, hspec⟩ := ih hfits
    exact ⟨later, hsame.trans hlater, hspec⟩

end Talks

theorem remembered_of_card (hpeers : (ts.flatMap (·.peers me)).toFinset.card ≤ capacity)
    (hmessages : (ts.map (hash ·.payload)).toFinset.card ≤ messages) :
    Remembered capacity messages me ts := by
  have hmarks {m : Address × Digest} (hm : m ∈ ts.flatMap (·.marks me)) :
      ∃ t ∈ ts, m.2 = hash t.payload ∧ m.1 ∈ t.peers me := by
    obtain ⟨t, ht, hm⟩ := List.mem_flatMap.mp hm
    exact ⟨t, ht, Gossip.mem_offers.mp hm⟩
  refine ⟨(Finset.card_le_card fun a ha => ?_).trans hpeers,
    (Finset.card_le_card fun d hd => ?_).trans hmessages⟩
  · obtain ⟨m, hm, rfl⟩ := List.mem_map.mp (List.mem_toFinset.mp ha)
    obtain ⟨t, ht, -, hpeer⟩ := hmarks hm
    exact List.mem_toFinset.mpr (List.mem_flatMap.mpr ⟨t, ht, hpeer⟩)
  · obtain ⟨m, hm, rfl⟩ := List.mem_map.mp (List.mem_toFinset.mp hd)
    obtain ⟨t, ht, hhash, -⟩ := hmarks hm
    exact List.mem_toFinset.mpr (List.mem_map.mpr ⟨t, ht, hhash.symm⟩)

/-- As long as no more peers and payloads come up than are remembered, a payload is sent to an address
at most once, never to this validator, and never to a peer that it came from before. When it is
gossiped, every other member of the committee is sent it then or had it, where payloads of one hash
count as one. -/
theorem payload_sent_once (hv : v.replica.gossip = .empty capacity messages) (hsent : v.sent = [])
    (hw : Talks v ts w) (hu : Talks w us u)
    (hpeers : ((us ++ ts).flatMap (·.peers v.address)).toFinset.card ≤ capacity)
    (hmessages : ((us ++ ts).map (hash ·.payload)).toFinset.card ≤ messages) :
    (u.sent.map fun s => (s.1, hash s.2)).Nodup ∧ (∀ s ∈ u.sent, s.1 ≠ v.address) ∧
    ∃ later, u.sent = w.sent ++ later ∧
      (∀ s ∈ later, ∀ q, Talk.hear s.1 q ∈ ts → hash q ≠ hash s.2) ∧
      ∀ committee payload, us = [.gossip committee payload] →
        ∀ a ∈ committee.members, a ≠ v.address → (a, payload) ∈ later ∨ w.Had ts a (hash payload) := by
  have hfits := remembered_of_card hpeers hmessages
  obtain ⟨later, hlater, hspec⟩ := hw.sent_later hv hsent hu hfits
  have haccounts := (hw.trans hu).accounts hv hsent hfits
  refine ⟨haccounts.once, haccounts.away, later, hlater, ?_, ?_⟩
  · exact fun s hs q hq heq => (hspec s hs).1 ⟨q, heq, .inr hq⟩
  · rintro committee payload rfl a ha hme
    have hmark : (a, hash payload) ∈ (Talk.gossip committee payload).marks v.address :=
      Gossip.mem_offers.mpr ⟨rfl, List.mem_filter.mpr ⟨ha, decide_eq_true hme⟩⟩
    obtain ⟨q, heq, hq | hq⟩ := (haccounts.marked a _).mp (List.mem_append_left _ hmark)
    · rw [hlater] at hq
      rcases List.mem_append.mp hq with hq | hq
      · exact .inr ⟨q, heq, .inl hq⟩
      · obtain ⟨-, c, hc⟩ := hspec _ hq
        obtain ⟨-, rfl⟩ := Talk.gossip.inj (List.mem_singleton.mp hc)
        exact .inl hq
    · exact .inr ⟨q, heq, .inr (by simpa using hq)⟩

end Validator

namespace Pair

open Validator

attribute [local instance] Scheme.plain

def mindful : Except HeaderFault (Validator MemoryLedger) :=
  Validator.create { epoch := 100, peers := 2, messages := 2 } first (.ofHeaders [genesis])

def trio : Committee := .ofList [1, 2, 3] .roundRobin

def relayed (v : Validator MemoryLedger) : Validator MemoryLedger :=
  let w := (v.intake 2 proposed).2.2.gossipsTo trio proposed.unread
  (w.intake 3 voted).2.2.gossipsTo trio voted.unread

theorem payload_sent_once_relayed : ∃ v, mindful = .ok v ∧
    v.start.replica.gossip = .empty 2 2 ∧ v.start.sent = [] ∧
    let w := relayed v.start
    let u := w.gossipsTo trio proposed.unread
    let ts := [Talk.gossip trio voted.unread, .hear 3 voted.unread, .gossip trio proposed.unread,
      .hear 2 proposed.unread]
    u.sent = [(3, proposed.unread), (2, voted.unread)] ∧
    (u.sent.map fun s => (s.1, hash s.2)).Nodup ∧ (∀ s ∈ u.sent, s.1 ≠ v.start.address) ∧
    ∃ later, u.sent = w.sent ++ later ∧
      (∀ s ∈ later, ∀ q, Talk.hear s.1 q ∈ ts → hash q ≠ hash s.2) ∧
      ∀ committee payload, [Talk.gossip trio proposed.unread] = [.gossip committee payload] →
        ∀ a ∈ committee.members, a ≠ v.start.address →
          (a, payload) ∈ later ∨ w.Had ts a (hash payload) := by
  obtain ⟨m, hm, -⟩ := exists_ok (x := (Wire.decode proposed.unread : Except DecodeError Message))
    (P := fun _ => True) (by decide +kernel)
  obtain ⟨n, hn, -⟩ := exists_ok (x := (Wire.decode voted.unread : Except DecodeError Message))
    (P := fun _ => True) (by decide +kernel)
  obtain ⟨v, hv, hgossip, hsent, hme, hstart, hlater, hall⟩ := exists_ok (x := mindful)
    (P := fun v => v.start.replica.gossip = .empty 2 2 ∧ v.start.sent = [] ∧ v.start.address = 1 ∧
      v.start.replica.started = true ∧
      ((v.start.intake 2 proposed).2.2.gossipsTo trio proposed.unread).replica.started = true ∧
      ((relayed v.start).gossipsTo trio proposed.unread).sent =
        [(3, proposed.unread), (2, voted.unread)]) (by decide +kernel)
  have hw := (((Talks.nil (v := v.start)).hear hstart 2 proposed rfl m hm).gossip trio
    proposed.unread).hear hlater 3 voted rfl n hn |>.gossip trio voted.unread
  refine ⟨v, hv, hgossip, hsent, hall, ?_⟩
  refine payload_sent_once hgossip hsent hw (Talks.nil.gossip trio proposed.unread) ?_ ?_
  · rw [hme]
    decide +kernel
  · decide +kernel

end Pair

end BlockAgreement
