import BlockAgreement.Proofs.Scheme.Plain
import BlockAgreement.Proofs.Wire.Canonical

/-!
# What digests bind

The digest of a header binds all of it but the committed seals, and what the proposer signs binds all
but the seals. What a sender signs binds all of a message but the signature. What is left out makes no
difference to the bytes that are hashed, and a difference in anything else makes one.
-/

set_option autoImplicit false

namespace BlockAgreement

theorem Codec.Canonical.encode_inj {α : Type} {c : Codec α} {P : α → Prop} (hc : c.Canonical P) {a b : α}
    (ha : P a) (hb : P b) : c.encode a = c.encode b ↔ a = b := by
  refine ⟨fun he => ?_, congrArg c.encode⟩
  have hread := hc.reads ha []
  rw [he, hc.reads hb []] at hread
  exact (Prod.mk.inj (Except.ok.inj hread)).1.symm

namespace Header

variable {g h : Header}

def hashedBytes (h : Header) : Bytes := Wire.encode h.withoutCommittedSeals

def sealedBytes (h : Header) : Bytes := Wire.encode h.withoutSeals

/-- Two headers are the same apart from their seals. -/
structure Alike (g h : Header) : Prop where
  parentHash : g.parentHash = h.parentHash
  number : g.number = h.number
  timestamp : g.timestamp = h.timestamp
  marker : g.marker = h.marker
  dataHash : g.dataHash = h.dataHash
  vote : g.vote = h.vote
  validators : g.extra.validators = h.extra.validators

theorem withoutSeals_eq_iff : g.withoutSeals = h.withoutSeals ↔ g.Alike h := by
  constructor
  · intro he
    simp only [withoutSeals, Header.mk.injEq, Extra.mk.injEq] at he
    obtain ⟨hp, hn, ht, hm, hd, hv, hvs, -⟩ := he
    exact ⟨hp, hn, ht, hm, hd, hv, hvs⟩
  · rintro ⟨hp, hn, ht, hm, hd, hv, hvs⟩
    simp only [withoutSeals, hp, hn, ht, hm, hd, hv, hvs]

theorem withoutCommittedSeals_eq_iff : g.withoutCommittedSeals = h.withoutCommittedSeals ↔
    g.Alike h ∧ g.extra.proposerSeal = h.extra.proposerSeal := by
  constructor
  · intro he
    simp only [withoutCommittedSeals, Header.mk.injEq, Extra.mk.injEq] at he
    obtain ⟨hp, hn, ht, hm, hd, hv, hvs, hseal, -⟩ := he
    exact ⟨⟨hp, hn, ht, hm, hd, hv, hvs⟩, hseal⟩
  · rintro ⟨⟨hp, hn, ht, hm, hd, hv, hvs⟩, hseal⟩
    simp only [withoutCommittedSeals, hp, hn, ht, hm, hd, hv, hvs, hseal]

theorem Fits.withoutCommittedSeals (hh : h.Fits) : h.withoutCommittedSeals.Fits :=
  ⟨hh.1, Nat.two_pow_pos 32⟩

theorem Fits.withoutSeals (hh : h.Fits) : h.withoutSeals.Fits := ⟨hh.1, Nat.two_pow_pos 32⟩

theorem hashedBytes_inj (hg : g.Fits) (hh : h.Fits) :
    g.hashedBytes = h.hashedBytes ↔ g.Alike h ∧ g.extra.proposerSeal = h.extra.proposerSeal := by
  rw [← withoutCommittedSeals_eq_iff]
  exact header_canonical.encode_inj hg.withoutCommittedSeals hh.withoutCommittedSeals

theorem sealedBytes_inj (hg : g.Fits) (hh : h.Fits) : g.sealedBytes = h.sealedBytes ↔ g.Alike h := by
  rw [← withoutSeals_eq_iff]
  exact header_canonical.encode_inj hg.withoutSeals hh.withoutSeals

end Header

namespace Message

variable {m n : Message}

def signedBytes (m : Message) : Bytes := Wire.encode { m with signature := .empty }

/-- Two messages are the same apart from their signatures. -/
structure Alike (m n : Message) : Prop where
  kind : m.kind = n.kind
  body : m.body = n.body
  sender : m.sender = n.sender
  committedSeal : m.committedSeal = n.committedSeal

theorem signedBytes_inj (hm : m.Fits) (hn : n.Fits) : m.signedBytes = n.signedBytes ↔ m.Alike n := by
  have hunsigned : { m with signature := .empty } = { n with signature := .empty } ↔ m.Alike n := by
    constructor
    · intro he
      obtain ⟨hk, hb, hs, -, hc⟩ := Message.mk.inj he
      exact ⟨hk, hb, hs, hc⟩
    · rintro ⟨hk, hb, hs, hc⟩
      rw [hk, hb, hs, hc]
  rw [← hunsigned]
  exact message_canonical.encode_inj hm hn

end Message

/-- The digests of headers and messages are the hashes of byte strings that are equal just if the headers
are the same apart from the committed seals, or from all seals, and the messages are apart from the
signatures. -/
theorem digests_bind [Scheme] {g h : Header} {m n : Message} (hg : g.Fits) (hh : h.Fits) (hm : m.Fits)
    (hn : n.Fits) :
    (g.hash = Scheme.hash g.hashedBytes ∧ g.sealHash = Scheme.hash g.sealedBytes ∧
      m.signingDigest = Scheme.hash m.signedBytes) ∧
    (g.hashedBytes = h.hashedBytes ↔ g.Alike h ∧ g.extra.proposerSeal = h.extra.proposerSeal) ∧
    (g.sealedBytes = h.sealedBytes ↔ g.Alike h) ∧
    (m.signedBytes = n.signedBytes ↔ m.Alike n) :=
  ⟨⟨rfl, rfl, rfl⟩, Header.hashedBytes_inj hg hh, Header.sealedBytes_inj hg hh,
    Message.signedBytes_inj hm hn⟩

/-- A header to which its committed seals are attached, and a Commit that is given another committed
seal. -/
theorem digests_bind_sealed :
    let g : Header :=
      ⟨7, 30000, 5, engineMarker, 9, some ⟨3, true⟩, ⟨[1, 2], some ⟨1, 2, 0⟩, []⟩⟩
    let h : Header := { g with extra := { g.extra with committedSeals := [⟨3, 4, 1⟩, ⟨5, 6, 0⟩] } }
    let m : Message := ⟨.commit, [1, 2, 3], 2, ⟨7, 8, 0⟩, some ⟨3, 4, 1⟩⟩
    let n : Message := { m with committedSeal := some ⟨3, 4, 0⟩ }
    (g.hashedBytes = h.hashedBytes ∧ g.sealedBytes = h.sealedBytes) ∧ m.signedBytes ≠ n.signedBytes := by
  intro g h m n
  obtain ⟨-, hhashed, hsealed, hsigned⟩ :=
    @digests_bind .plain g h m n (by decide) (by decide) (by decide) (by decide)
  have halike : g.Alike h := ⟨rfl, rfl, rfl, rfl, rfl, rfl, rfl⟩
  refine ⟨⟨hhashed.mpr ⟨halike, rfl⟩, hsealed.mpr halike⟩, fun he => ?_⟩
  exact absurd (hsigned.mp he).committedSeal (by decide)

end BlockAgreement
