import BlockAgreement.Packet
import BlockAgreement.Committee
import BlockAgreement.Proofs.Wire.RoundTrip

/-!
# One encoding for each value

The format is canonical: whatever is decoded has been written by the encoder, byte for byte, so that
encoding is a bijection from the values with lengths of four bytes onto the byte strings that decode.
Each combinator keeps the three laws of `Codec.Canonical`; the types of the protocol follow from these.
-/

set_option autoImplicit false

namespace BlockAgreement

namespace Codec

variable {α β : Type}

/-- A codec that reads the values that fit where they have been written, reads nothing else, and misses
the bytes that a value lacks. -/
structure Canonical (c : Codec α) (fits : α → Prop) : Prop where
  reads {a : α} (ha : fits a) : c.Reads a
  writes {bs rest : Bytes} {a : α} (hd : c.decode bs = .ok (a, rest)) :
    fits a ∧ bs = c.encode a ++ rest
  lacks {a : α} (ha : fits a) {bs t : Bytes} (ht : t ≠ []) (he : bs ++ t = c.encode a) :
    c.decode bs = .error .truncated

variable {c : Codec α} {d : Codec β} {P : α → Prop} {Q : β → Prop}

theorem Canonical.congr {P' : α → Prop} (hc : c.Canonical P) (h : ∀ a, P a ↔ P' a) :
    c.Canonical P' :=
  (funext fun a => propext (h a) : P = P') ▸ hc

/-- Of bytes that start like a value and something after it, either the value is lacking, or it is read
and the rest is what starts like the thing after it. -/
theorem Canonical.split (hc : c.Canonical P) {a : α} (ha : P a) {bs t after : Bytes} (ht : t ≠ [])
    (he : bs ++ t = c.encode a ++ after) :
    c.decode bs = .error .truncated ∨ ∃ rest, c.decode bs = .ok (a, rest) ∧ rest ++ t = after := by
  rcases List.append_eq_append_iff.mp he with ⟨missing, hm, rfl⟩ | ⟨rest, rfl, rfl⟩
  · by_cases hne : missing = []
    · subst hne
      have hread := hc.reads ha []
      rw [hm, List.append_nil, List.append_nil] at hread
      exact .inr ⟨[], hread, rfl⟩
    · exact .inl (hc.lacks ha hne hm.symm)
  · exact .inr ⟨rest, hc.reads ha rest, rfl⟩

theorem fixed_canonical {n : Nat} {toBytes : α → Bytes} {ofBytes : Bytes → α}
    (hl : ∀ a, (toBytes a).length = n) (hr : ∀ a, P a → ofBytes (toBytes a) = a)
    (hw : ∀ bs, bs.length = n → P (ofBytes bs) ∧ toBytes (ofBytes bs) = bs) :
    (fixed n toBytes ofBytes).Canonical P where
  reads ha := fixed_reads (hl _) (hr _ ha)
  writes {bs rest a} hd := by
    simp only [fixed] at hd
    split at hd
    · rename_i hn
      obtain ⟨rfl, rfl⟩ := Prod.mk.inj (Except.ok.inj hd)
      obtain ⟨hp, he⟩ := hw _ hn
      refine ⟨hp, ?_⟩
      show bs = toBytes (ofBytes (bs.take n)) ++ bs.drop n
      rw [he, List.take_append_drop]
    · cases hd
  lacks {a} _ {bs t} ht he := by
    have hlen := congrArg List.length he
    have hpos := List.length_pos_iff.mpr ht
    rw [List.length_append, show (fixed n toBytes ofBytes).encode a = toBytes a from rfl, hl] at hlen
    simp only [fixed, List.length_take]
    rw [if_neg (by omega)]

theorem tagged_canonical {tag : α → UInt8} {ofTag : UInt8 → Except DecodeError α}
    (hr : ∀ a, ofTag (tag a) = .ok a) (hw : ∀ t a, ofTag t = .ok a → tag a = t) :
    (tagged tag ofTag).Canonical fun _ => True where
  reads {a} _ rest := by
    show (ofTag (tag a)).map _ = _
    rw [hr]
    rfl
  writes {bs rest a} hd := by
    cases bs with
    | nil => cases hd
    | cons t bs =>
      have hd : (ofTag t).map (fun a => (a, bs)) = .ok (a, rest) := hd
      cases ht : ofTag t with
      | error e => simp [ht, Except.map] at hd
      | ok b =>
        rw [ht] at hd
        obtain ⟨rfl, rfl⟩ := Prod.mk.inj (Except.ok.inj hd)
        refine ⟨trivial, ?_⟩
        show t :: bs = [tag b] ++ bs
        rw [hw t b ht, List.singleton_append]
  lacks {a} _ {bs t} ht he := by
    rcases List.append_eq_singleton_iff.mp he with ⟨rfl, -⟩ | ⟨-, rfl⟩
    · rfl
    · exact absurd rfl ht

theorem ok_of_ite {a b : α} {t k : UInt8} {otherwise : Except DecodeError α}
    (h : (if t = k then .ok a else otherwise) = .ok b) : t = k ∧ a = b ∨ otherwise = .ok b := by
  split at h
  · exact .inl ⟨‹_›, Except.ok.inj h⟩
  · exact .inr h

theorem Canonical.both (hc : c.Canonical P) (hd : d.Canonical Q) :
    (both c d).Canonical fun p => P p.1 ∧ Q p.2 where
  reads ha := both_reads (hc.reads ha.1) (hd.reads ha.2)
  writes {bs rest p} h := by
    simp only [Codec.both, bind, Except.bind] at h
    split at h
    · cases h
    · rename_i r hr
      obtain ⟨a, as⟩ := r
      simp only at h
      split at h
      · cases h
      · rename_i r hr'
        obtain ⟨b, cs⟩ := r
        obtain ⟨rfl, rfl⟩ := Prod.mk.inj (Except.ok.inj h)
        obtain ⟨ha, rfl⟩ := hc.writes hr
        obtain ⟨hb, rfl⟩ := hd.writes hr'
        refine ⟨⟨ha, hb⟩, ?_⟩
        show _ = (c.encode a ++ d.encode b) ++ cs
        rw [List.append_assoc]
  lacks {p} hp {bs t} ht he := by
    simp only [Codec.both, bind, Except.bind]
    rcases hc.split hp.1 ht he with hr | ⟨rest, hr, he⟩
    · rw [hr]
    · rw [hr]
      simp only
      rw [hd.lacks hp.2 ht he]

theorem Canonical.map {f : α → β} {g : β → α} (hc : c.Canonical P) (hfg : ∀ b, f (g b) = b)
    (hgf : ∀ a, g (f a) = a) : (c.map f g).Canonical fun b => P (g b) where
  reads hb := map_reads (hc.reads hb) (hfg _)
  writes {bs rest b} hd := by
    have hd : (c.decode bs).map (fun p => (f p.1, p.2)) = .ok (b, rest) := hd
    cases hr : c.decode bs with
    | error e => simp [hr, Except.map] at hd
    | ok r =>
      rw [hr] at hd
      obtain ⟨rfl, rfl⟩ := Prod.mk.inj (Except.ok.inj hd)
      obtain ⟨ha, he⟩ := hc.writes hr
      rw [hgf]
      refine ⟨ha, he.trans ?_⟩
      show _ = c.encode (g (f r.1)) ++ r.2
      rw [hgf]
  lacks {b} hb {bs t} ht he := by
    show (c.decode bs).map _ = _
    rw [hc.lacks hb ht he]
    rfl

theorem Canonical.option (hc : c.Canonical P) : (option c).Canonical fun o => ∀ a, o = some a → P a where
  reads {o} ho rest := by
    cases o with
    | none => rfl
    | some a =>
      show (c.decode (c.encode a ++ rest)).map _ = _
      rw [hc.reads (ho a rfl)]
      rfl
  writes {bs rest o} hd := by
    cases bs with
    | nil => cases hd
    | cons t bs =>
      simp only [Codec.option] at hd
      split at hd
      · rename_i h0
        obtain ⟨rfl, rfl⟩ := Prod.mk.inj (Except.ok.inj hd)
        subst h0
        exact ⟨nofun, rfl⟩
      · split at hd
        · rename_i h1
          cases hr : c.decode bs with
          | error e => simp [hr, Except.map] at hd
          | ok r =>
            rw [hr] at hd
            obtain ⟨rfl, rfl⟩ := Prod.mk.inj (Except.ok.inj hd)
            obtain ⟨ha, rfl⟩ := hc.writes hr
            subst h1
            exact ⟨fun _ h => Option.some.inj h ▸ ha, rfl⟩
        · cases hd
  lacks {o} ho {bs t} ht he := by
    cases bs with
    | nil => rfl
    | cons b bs =>
      cases o with
      | none =>
        obtain ⟨-, -, rfl⟩ := by simpa [Codec.option] using he
        exact absurd rfl ht
      | some a =>
        obtain ⟨rfl, htail⟩ := List.cons.inj he
        show (c.decode bs).map _ = _
        rw [hc.lacks (ho a rfl) ht htail]
        rfl

theorem Canonical.decodeMany_encode (hc : c.Canonical P) {as : List α} (ha : ∀ a ∈ as, P a)
    (rest : Bytes) : decodeMany c as.length (as.flatMap c.encode ++ rest) = .ok (as, rest) := by
  induction as with
  | nil => rfl
  | cons a as ih =>
    rw [List.forall_mem_cons] at ha
    rw [List.flatMap_cons, List.append_assoc, List.length_cons, decodeMany, hc.reads ha.1]
    simp only [bind, Except.bind]
    rw [ih ha.2]
    rfl

theorem Canonical.encode_decodeMany (hc : c.Canonical P) {n : Nat} {bs rest : Bytes} {as : List α}
    (hd : decodeMany c n bs = .ok (as, rest)) :
    as.length = n ∧ (∀ a ∈ as, P a) ∧ bs = as.flatMap c.encode ++ rest := by
  induction n generalizing bs as with
  | zero =>
    obtain ⟨rfl, rfl⟩ := Prod.mk.inj (Except.ok.inj hd)
    simp
  | succ n ih =>
    simp only [decodeMany, bind, Except.bind] at hd
    split at hd
    · cases hd
    · rename_i r hr
      obtain ⟨b, cs⟩ := r
      simp only at hd
      split at hd
      · cases hd
      · rename_i r hr'
        obtain ⟨bs', cs'⟩ := r
        obtain ⟨rfl, rfl⟩ := Prod.mk.inj (Except.ok.inj hd)
        obtain ⟨hb, rfl⟩ := hc.writes hr
        obtain ⟨rfl, hbs, rfl⟩ := ih hr'
        exact ⟨rfl, List.forall_mem_cons.mpr ⟨hb, hbs⟩, by rw [List.flatMap_cons, List.append_assoc]⟩

theorem Canonical.decodeMany_lacks (hc : c.Canonical P) {as : List α} (ha : ∀ a ∈ as, P a)
    {bs t : Bytes} (ht : t ≠ []) (he : bs ++ t = as.flatMap c.encode) :
    decodeMany c as.length bs = .error .truncated := by
  induction as generalizing bs with
  | nil =>
    have := (List.append_eq_nil_iff.mp he).2
    exact absurd this ht
  | cons a as ih =>
    rw [List.forall_mem_cons] at ha
    rw [List.length_cons, decodeMany]
    simp only [bind, Except.bind]
    rcases hc.split ha.1 ht he with hr | ⟨rest, hr, he⟩
    · rw [hr]
    · rw [hr]
      simp only
      rw [ih ha.2 he]

theorem count_canonical : count.Canonical (· < Nat.pow 2 32) :=
  fixed_canonical (fun n => Digits.length_little 4 n) (fun _ hn => Digits.value_little hn) fun bs hl =>
    ⟨by simpa [hl] using Digits.value_lt bs, by rw [← hl, Digits.little_value]⟩

theorem Canonical.list (hc : c.Canonical P) :
    (list c).Canonical fun as => as.length < Nat.pow 2 32 ∧ ∀ a ∈ as, P a where
  reads {as} ha rest := by
    simp only [Codec.list, bind, Except.bind, List.append_assoc]
    rw [count_canonical.reads ha.1]
    exact hc.decodeMany_encode ha.2 rest
  writes {bs rest as} hd := by
    simp only [Codec.list, bind, Except.bind] at hd
    split at hd
    · cases hd
    · rename_i r hr
      obtain ⟨n, cs⟩ := r
      obtain ⟨hn, rfl⟩ := count_canonical.writes hr
      obtain ⟨rfl, ha, rfl⟩ := hc.encode_decodeMany hd
      exact ⟨⟨hn, ha⟩, (List.append_assoc ..).symm⟩
  lacks {as} ha {bs t} ht he := by
    simp only [Codec.list, bind, Except.bind]
    rcases count_canonical.split ha.1 ht he with hr | ⟨rest, hr, he⟩
    · rw [hr]
    · rw [hr]
      exact hc.decodeMany_lacks ha.2 ht he

theorem bytes_canonical : bytes.Canonical fun data => data.length < Nat.pow 2 32 where
  reads {data} ha rest := by
    simp only [Codec.bytes, bind, Except.bind, List.append_assoc]
    rw [count_canonical.reads ha]
    simp [fixed]
  writes {bs rest data} hd := by
    simp only [Codec.bytes, bind, Except.bind] at hd
    split at hd
    · cases hd
    · rename_i r hr
      obtain ⟨n, cs⟩ := r
      obtain ⟨hn, rfl⟩ := count_canonical.writes hr
      simp only [fixed, id_eq] at hd
      split at hd
      · rename_i hl
        obtain ⟨rfl, rfl⟩ := Prod.mk.inj (Except.ok.inj hd)
        refine ⟨by rw [hl]; exact hn, ?_⟩
        show _ = (count.encode (cs.take n).length ++ cs.take n) ++ cs.drop n
        rw [hl, List.append_assoc, List.take_append_drop]
      · cases hd
  lacks {data} ha {bs t} ht he := by
    simp only [Codec.bytes, bind, Except.bind]
    rcases count_canonical.split ha ht he with hr | ⟨rest, hr, rfl⟩
    · rw [hr]
    · rw [hr]
      have hpos := List.length_pos_iff.mpr ht
      simp only [fixed, List.length_take, List.length_append]
      rw [if_neg (by omega)]

theorem word64_canonical : word64.Canonical fun _ => True :=
  fixed_canonical (fun n => Digits.length_little 8 n.toNat)
    (fun n _ => by rw [Digits.value_little (by simpa using n.toNat_lt), UInt64.ofNat_toNat])
    fun bs hl => by
      have hv : Digits.value bs < 2 ^ 64 := by simpa [hl] using Digits.value_lt bs
      refine ⟨trivial, ?_⟩
      rw [UInt64.toNat_ofNat_of_lt' hv, ← hl, Digits.little_value]

theorem toNat_ofNat_value {n : Nat} {bs : Bytes} (hl : bs.length = n) :
    (BitVec.ofNat (8 * n) (Digits.value bs)).toNat = Digits.value bs := by
  have hv := Digits.value_lt bs
  rw [hl] at hv
  rw [BitVec.toNat_ofNat, Nat.mod_eq_of_lt]
  rw [Nat.pow_mul]
  exact hv

theorem toNat_lt_pow {n : Nat} (v : BitVec (8 * n)) : v.toNat < Nat.pow 256 n := by
  have h := v.isLt
  rw [Nat.pow_mul] at h
  exact h

theorem littleEndian_canonical (n : Nat) : (littleEndian n).Canonical fun _ => True :=
  fixed_canonical (fun v => Digits.length_little n v.toNat)
    (fun v _ => by rw [Digits.value_little (toNat_lt_pow v), BitVec.ofNat_toNat, BitVec.setWidth_eq])
    fun bs hl => by
      refine ⟨trivial, ?_⟩
      rw [toNat_ofNat_value hl, ← hl, Digits.little_value]

theorem bigEndian_canonical (n : Nat) : (bigEndian n).Canonical fun _ => True :=
  fixed_canonical (fun v => (List.length_reverse).trans (Digits.length_little n v.toNat))
    (fun v _ => by
      rw [List.reverse_reverse, Digits.value_little (toNat_lt_pow v), BitVec.ofNat_toNat,
        BitVec.setWidth_eq])
    fun bs hl => by
      have hl : bs.reverse.length = n := (List.length_reverse).trans hl
      refine ⟨trivial, ?_⟩
      rw [toNat_ofNat_value hl, ← hl, Digits.little_value,
        List.reverse_reverse]

theorem byte_canonical : byte.Canonical fun _ => True :=
  tagged_canonical (fun _ => rfl) fun _ _ h => (Except.ok.inj h).symm

theorem bool_canonical : bool.Canonical fun _ => True :=
  tagged_canonical (fun b => by cases b <;> rfl) fun _ _ h => by
    rcases ok_of_ite h with ⟨rfl, rfl⟩ | h
    · rfl
    rcases ok_of_ite h with ⟨rfl, rfl⟩ | h
    · rfl
    cases h

end Codec

/-! ### The types of the protocol -/

section Types

/-- Every list has a length that four bytes can tell. -/
def Extra.Fits (e : Extra) : Prop :=
  e.validators.length < Nat.pow 2 32 ∧ e.committedSeals.length < Nat.pow 2 32

def Header.Fits (h : Header) : Prop := h.extra.Fits

def Block.Fits (b : Block) : Prop := b.header.Fits ∧ b.data.length < Nat.pow 2 32

def Preprepare.Fits (p : Preprepare) : Prop := p.proposal.Fits

def Message.Fits (m : Message) : Prop := m.body.length < Nat.pow 2 32

def Announcement.Fits (a : Announcement) : Prop := a.block.Fits

instance (e : Extra) : Decidable e.Fits := inferInstanceAs (Decidable (_ ∧ _))

instance (h : Header) : Decidable h.Fits := inferInstanceAs (Decidable h.extra.Fits)

instance (b : Block) : Decidable b.Fits := inferInstanceAs (Decidable (_ ∧ _))

instance (p : Preprepare) : Decidable p.Fits := inferInstanceAs (Decidable p.proposal.Fits)

instance (m : Message) : Decidable m.Fits := inferInstanceAs (Decidable (_ < _))

theorem policy_canonical : (Wire.codec : Codec ProposerPolicy).Canonical fun _ => True :=
  Codec.tagged_canonical (fun p => by cases p <;> rfl) fun _ _ h => by
    rcases Codec.ok_of_ite h with ⟨rfl, rfl⟩ | h
    · rfl
    rcases Codec.ok_of_ite h with ⟨rfl, rfl⟩ | h
    · rfl
    cases h

theorem kind_canonical : (Wire.codec : Codec MessageKind).Canonical fun _ => True :=
  Codec.tagged_canonical (fun k => by cases k <;> rfl) fun _ _ h => by
    rcases Codec.ok_of_ite h with ⟨rfl, rfl⟩ | h
    · rfl
    rcases Codec.ok_of_ite h with ⟨rfl, rfl⟩ | h
    · rfl
    rcases Codec.ok_of_ite h with ⟨rfl, rfl⟩ | h
    · rfl
    rcases Codec.ok_of_ite h with ⟨rfl, rfl⟩ | h
    · rfl
    cases h

theorem address_canonical : (Wire.codec : Codec Address).Canonical fun _ => True :=
  Codec.bigEndian_canonical 20

theorem digest_canonical : (Wire.codec : Codec Digest).Canonical fun _ => True :=
  Codec.bigEndian_canonical 32

theorem signature_canonical : (Wire.codec : Codec Signature).Canonical fun _ => True :=
  ((digest_canonical.both (digest_canonical.both Codec.byte_canonical)).map (fun _ => rfl)
    fun _ => rfl).congr (by simp)

theorem vote_canonical : (Wire.codec : Codec MembershipVote).Canonical fun _ => True :=
  ((address_canonical.both Codec.bool_canonical).map (fun _ => rfl) fun _ => rfl).congr (by simp)

theorem view_canonical : (Wire.codec : Codec View).Canonical fun _ => True :=
  ((Codec.word64_canonical.both Codec.word64_canonical).map (fun _ => rfl) fun _ => rfl).congr
    (by simp)

theorem subject_canonical : (Wire.codec : Codec Subject).Canonical fun _ => True :=
  ((view_canonical.both digest_canonical).map (fun _ => rfl) fun _ => rfl).congr (by simp)

theorem extra_canonical : (Wire.codec : Codec Extra).Canonical Extra.Fits :=
  ((address_canonical.list.both (signature_canonical.option.both signature_canonical.list)).map
    (fun _ => rfl) fun _ => rfl).congr (by simp [Extra.Fits])

theorem header_canonical : (Wire.codec : Codec Header).Canonical Header.Fits :=
  ((digest_canonical.both (Codec.word64_canonical.both (Codec.word64_canonical.both
    (digest_canonical.both (digest_canonical.both
      (vote_canonical.option.both extra_canonical)))))).map
    (fun _ => rfl) fun _ => rfl).congr (by simp [Header.Fits])

theorem block_canonical : (Wire.codec : Codec Block).Canonical Block.Fits :=
  ((header_canonical.both Codec.bytes_canonical).map (fun _ => rfl) fun _ => rfl).congr
    (by simp [Block.Fits])

theorem preprepare_canonical : (Wire.codec : Codec Preprepare).Canonical Preprepare.Fits :=
  ((view_canonical.both block_canonical).map (fun _ => rfl) fun _ => rfl).congr
    (by simp [Preprepare.Fits])

theorem message_canonical : (Wire.codec : Codec Message).Canonical Message.Fits :=
  ((kind_canonical.both (Codec.bytes_canonical.both (address_canonical.both
    (signature_canonical.both signature_canonical.option)))).map (fun _ => rfl) fun _ => rfl).congr
    (by simp [Message.Fits])

theorem announcement_canonical : (Wire.codec : Codec Announcement).Canonical Announcement.Fits :=
  ((block_canonical.both (Codec.littleEndian_canonical 16)).map (fun _ => rfl) fun _ => rfl).congr
    (by simp [Announcement.Fits])

end Types

namespace Wire

/-- Encoding and decoding are inverse to each other, between the values that fit and the byte strings
that decode. A byte string that goes on after a value is rejected, and so is one that stops before its
end. -/
structure Bijective (α : Type) [Wire α] (fits : α → Prop) : Prop where
  decode_encode (a : α) (ha : fits a) : decode (encode a) = .ok a
  encode_decode (bs : Bytes) (a : α) (hd : decode bs = .ok a) : fits a ∧ encode a = bs
  trailing (a : α) (ha : fits a) (t : Bytes) (ht : t ≠ []) :
    (decode (encode a ++ t) : Except DecodeError α) = .error .trailing
  truncated (a : α) (ha : fits a) (bs : Bytes) (hp : bs <+: encode a) (hne : bs ≠ encode a) :
    (decode bs : Except DecodeError α) = .error .truncated

theorem bijective_of_canonical {α : Type} [Wire α] {fits : α → Prop}
    (hc : (codec : Codec α).Canonical fits) : Bijective α fits where
  decode_encode a ha := Codec.decodeAll_encode (hc.reads ha)
  encode_decode bs a hd := by
    simp only [decode, Codec.decodeAll] at hd
    split at hd
    · rename_i hr
      obtain rfl := Except.ok.inj hd
      obtain ⟨ha, he⟩ := hc.writes hr
      exact ⟨ha, (he.trans (List.append_nil _)).symm⟩
    · cases hd
    · cases hd
  trailing a ha t ht := by
    have hr : codec.decode (encode a ++ t) = .ok (a, t) := hc.reads ha t
    rw [decode, Codec.decodeAll, hr]
    cases t with
    | nil => exact absurd rfl ht
    | cons => rfl
  truncated a ha bs hp hne := by
    obtain ⟨t, ht⟩ := hp
    have htail : t ≠ [] := by
      rintro rfl
      exact hne ((List.append_nil bs).symm.trans ht)
    rw [decode, Codec.decodeAll, hc.lacks ha htail ht]

theorem Bijective.decode_eq_ok {α : Type} [Wire α] {fits : α → Prop} (h : Bijective α fits) {bs : Bytes}
    {a : α} : decode bs = .ok a ↔ fits a ∧ encode a = bs :=
  ⟨h.encode_decode bs a, fun ⟨ha, hbs⟩ => hbs ▸ h.decode_encode a ha⟩

/-- Every type that travels in messages or is hashed has one encoding for each value, and decodes
nothing else. -/
theorem types_bijective :
    Bijective Address (fun _ => True) ∧ Bijective Digest (fun _ => True) ∧
    Bijective Signature (fun _ => True) ∧ Bijective UInt64 (fun _ => True) ∧
    Bijective ProposerPolicy (fun _ => True) ∧ Bijective MessageKind (fun _ => True) ∧
    Bijective View (fun _ => True) ∧ Bijective Subject (fun _ => True) ∧
    Bijective MembershipVote (fun _ => True) ∧ Bijective Extra Extra.Fits ∧
    Bijective Header Header.Fits ∧ Bijective Block Block.Fits ∧
    Bijective Preprepare Preprepare.Fits ∧ Bijective Message Message.Fits ∧
    Bijective Announcement Announcement.Fits :=
  ⟨bijective_of_canonical address_canonical, bijective_of_canonical digest_canonical,
    bijective_of_canonical signature_canonical, bijective_of_canonical Codec.word64_canonical,
    bijective_of_canonical policy_canonical, bijective_of_canonical kind_canonical,
    bijective_of_canonical view_canonical, bijective_of_canonical subject_canonical,
    bijective_of_canonical vote_canonical, bijective_of_canonical extra_canonical,
    bijective_of_canonical header_canonical, bijective_of_canonical block_canonical,
    bijective_of_canonical preprepare_canonical, bijective_of_canonical message_canonical,
    bijective_of_canonical announcement_canonical⟩

end Wire

end BlockAgreement
