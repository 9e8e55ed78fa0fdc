import BlockAgreement.Proofs.Scheme.Plain
import BlockAgreement.Proofs.Wire.Canonical

/-!
# What a signer issues

The signature of a message covers its encoding with an empty signature, a committed seal included. So
whatever an honest signer issues, its peers verify. They read the body as it was given, and the view is
the same whether it is read from the front of the body or with all of it.
-/

set_option autoImplicit false

namespace BlockAgreement.Message

section Views

variable {m : Message} {p : Preprepare} {s : Subject} {v : View} {rest : Bytes}

theorem view_of_body (h : m.body = Wire.encode v ++ rest) : m.view = .ok v := by
  have hread := view_canonical.reads (a := v) trivial rest
  rw [view, h]
  exact congrArg (Except.map Prod.fst) hread

theorem view_of_preprepare (h : m.preprepare = .ok p) : m.view = .ok p.view :=
  view_of_body ((Wire.bijective_of_canonical preprepare_canonical).encode_decode m.body p h).2.symm

theorem view_of_subject (h : m.subject = .ok s) : m.view = .ok s.view :=
  view_of_body ((Wire.bijective_of_canonical subject_canonical).encode_decode m.body s h).2.symm

theorem length_encode_subject (s : Subject) : (Wire.encode s).length = 48 := by
  have hv : (Wire.encode s.view).length = 16 := by
    show (Digits.little 8 s.view.sequence.toNat ++ Digits.little 8 s.view.round.toNat).length = 16
    rw [List.length_append, Digits.length_little, Digits.length_little]
  have hd : (Wire.encode s.digest).length = 32 := by
    show ((Digits.little 32 s.digest.toNat).reverse).length = 32
    rw [List.length_reverse, Digits.length_little]
  show (Wire.encode s.view ++ Wire.encode s.digest).length = 48
  rw [List.length_append, hv, hd]

theorem fits_of_subject (h : m.body = Wire.encode s) : m.Fits := by
  rw [Fits, h, length_encode_subject]
  decide

theorem length_data_le (p : Preprepare) : 4 + p.proposal.data.length ≤ (Wire.encode p).length := by
  have hparts : Wire.encode p = Wire.encode p.view ++ (Wire.encode p.proposal.header ++
      (Digits.little 4 p.proposal.data.length ++ p.proposal.data)) := rfl
  rw [hparts]
  simp only [List.length_append, Digits.length_little]
  omega

end Views

section Signers

variable [Scheme] {k : Signer} {m : Message} {p : Preprepare} {s : Subject} {v : View}
variable {kind : MessageKind} {body : Bytes} {committedSeal : Option Signature}

theorem signed_eq (h : signed k kind body committedSeal = some m) :
    ∃ signature, k.sign m.signingDigest = some signature ∧
      m = ⟨kind, body, k.address, signature, committedSeal⟩ := by
  obtain ⟨signature, hs, rfl⟩ := Option.map_eq_some_iff.mp h
  exact ⟨signature, hs, rfl⟩

theorem signed_spec (h : signed k kind body committedSeal = some m) :
    m.kind = kind ∧ m.body = body ∧ m.sender = k.address := by
  obtain ⟨signature, -, rfl⟩ := signed_eq h
  exact ⟨rfl, rfl, rfl⟩

theorem prepare_spec (h : prepare k s = some m) : m.kind = .prepare ∧ m.subject = .ok s := by
  obtain ⟨hk, hb, -⟩ := signed_spec h
  exact ⟨hk, by rw [subject, hb, decode_subject]⟩

theorem signed_of_commit (h : commit k s = some m) :
    ∃ committedSeal, k.sign (commitDigest s.digest) = some committedSeal ∧
      signed k .commit (Wire.encode s) (some committedSeal) = some m :=
  Option.bind_eq_some_iff.mp h

theorem commit_spec (h : commit k s = some m) :
    m.kind = .commit ∧ m.subject = .ok s ∧ m.sender = k.address := by
  obtain ⟨committedSeal, -, h⟩ := signed_of_commit h
  obtain ⟨hk, hb, hs⟩ := signed_spec h
  exact ⟨hk, by rw [subject, hb, decode_subject], hs⟩

theorem roundChange_spec (h : roundChange k v = some m) :
    m.kind = .roundChange ∧ m.subject = .ok ⟨v, 0⟩ ∧ m.sender = k.address := by
  obtain ⟨hkind, hbody, hsender⟩ := signed_spec h
  exact ⟨hkind, by rw [subject, hbody, decode_subject], hsender⟩

theorem preprepare_view {b : Block} (h : ofPreprepare k ⟨v, b⟩ = some m) (hp : m.preprepare = .ok p) :
    p.view = v := by
  have hv : m.view = .ok v := view_of_body (signed_spec h).2.1
  exact Except.ok.inj ((view_of_preprepare hp).symm.trans hv)

theorem exists_signed (hk : ∀ digest, ∃ signature, k.sign digest = some signature) (kind : MessageKind)
    (body : Bytes) (committedSeal : Option Signature) :
    ∃ m, signed k kind body committedSeal = some m := by
  obtain ⟨signature, hs⟩ := hk (signingDigest
    { kind, body, sender := k.address, signature := .empty, committedSeal })
  exact ⟨_, Option.map_eq_some_iff.mpr ⟨signature, hs, rfl⟩⟩

theorem exists_commit (hk : ∀ digest, ∃ signature, k.sign digest = some signature) (s : Subject) :
    ∃ m, commit k s = some m := by
  obtain ⟨committedSeal, hs⟩ := hk (commitDigest s.digest)
  obtain ⟨m, hm⟩ := exists_signed hk .commit (Wire.encode s) (some committedSeal)
  exact ⟨m, Option.bind_eq_some_iff.mpr ⟨committedSeal, hs, hm⟩⟩

theorem verify_signed (hk : k.Honest) (h : signed k kind body committedSeal = some m) :
    m.verify = .ok () := by
  obtain ⟨signature, hs, hm⟩ := signed_eq h
  have hr : recover m.signingDigest m.signature = some m.sender := by
    rw [hm] at hs ⊢
    exact hk _ _ hs
  rw [verify, hr]
  exact if_pos rfl

theorem verifyCommittedSeal_commit (hk : k.Honest) (h : commit k s = some m) :
    m.verifyCommittedSeal s.digest = .ok () := by
  obtain ⟨committedSeal, hseal, h⟩ := signed_of_commit h
  obtain ⟨signature, -, rfl⟩ := signed_eq h
  rw [verifyCommittedSeal]
  simp only [hk _ _ hseal, if_true]

/-- What every peer makes of a message: it is the signer's and is for this view, and it arrives as it was
sent if and only if its one list, the body, has a length that four bytes can tell. -/
structure Genuine (m : Message) (k : Signer) (v : View) : Prop where
  arrives : Wire.decode (Wire.encode m) = .ok m ↔ m.Fits
  sender : m.sender = k.address
  verified : m.verify = .ok ()
  view : m.view = .ok v

theorem genuine_of_signed (hk : k.Honest) (h : signed k kind body committedSeal = some m) {rest : Bytes}
    (hbody : body = Wire.encode v ++ rest) : m.Genuine k v where
  arrives := (Wire.bijective_of_canonical message_canonical).decode_eq_ok.trans (and_iff_left rfl)
  sender := (signed_spec h).2.2
  verified := verify_signed hk h
  view := view_of_body ((signed_spec h).2.1.trans hbody)

/-- A signer that signs everything issues the message, and whatever is issued is as it is to be. -/
def Issued (k : Signer) (issued : Option Message) (P : Message → Prop) : Prop :=
  ((∀ digest, ∃ signature, k.sign digest = some signature) → ∃ m, issued = some m) ∧
    ∀ m, issued = some m → P m

theorem genuine_of_subject (hk : k.Honest) (h : signed k kind (Wire.encode s) committedSeal = some m) :
    m.Genuine k s.view ∧ m.Fits ∧ m.subject = .ok s := by
  have hbody : m.body = Wire.encode s := (signed_spec h).2.1
  refine ⟨genuine_of_signed hk h rfl, fits_of_subject hbody, ?_⟩
  rw [subject, hbody, decode_subject]

theorem preprepare_issued (hk : k.Honest) (hp : p.Fits) :
    Issued k (ofPreprepare k p) fun m => m.Genuine k p.view ∧ m.preprepare = .ok p := by
  refine ⟨fun hsign => exists_signed hsign .., fun m h => ⟨genuine_of_signed hk h rfl, ?_⟩⟩
  rw [preprepare, (signed_spec h).2.1]
  exact (Wire.bijective_of_canonical preprepare_canonical).decode_encode p hp

theorem subject_issued (hk : k.Honest) (kind : MessageKind) (s : Subject) :
    Issued k (signed k kind (Wire.encode s) none) fun m =>
      m.Genuine k s.view ∧ m.Fits ∧ m.subject = .ok s :=
  ⟨fun hsign => exists_signed hsign .., fun _ h => genuine_of_subject hk h⟩

theorem commit_issued (hk : k.Honest) (s : Subject) :
    Issued k (commit k s) fun m => (m.Genuine k s.view ∧ m.Fits ∧ m.subject = .ok s) ∧
      m.verifyCommittedSeal s.digest = .ok () := by
  refine ⟨fun hsign => exists_commit hsign s, fun m h => ⟨?_, verifyCommittedSeal_commit hk h⟩⟩
  obtain ⟨committedSeal, -, hsigned⟩ := signed_of_commit h
  exact genuine_of_subject hk hsigned

theorem not_read_of_long (h : ofPreprepare k p = some m)
    (hlong : Nat.pow 2 32 ≤ 4 + p.proposal.data.length) (bytes : Bytes) : Wire.decode bytes ≠ .ok m := by
  intro hread
  have hfits : m.body.length < Nat.pow 2 32 :=
    ((Wire.bijective_of_canonical message_canonical).encode_decode bytes m hread).1
  rw [(signed_spec h).2.1] at hfits
  have hbody := length_data_le p
  omega

/-- Whatever an honest signer issues is genuine to every peer, and its body is read as it was given. Of
any message, the view in front is that of the whole body. -/
theorem issued_genuine (hk : k.Honest) (hp : p.Fits) (s : Subject) (v : View) :
    Issued k (ofPreprepare k p) (fun m => m.Genuine k p.view ∧ m.preprepare = .ok p) ∧
    Issued k (prepare k s) (fun m => m.Genuine k s.view ∧ m.Fits ∧ m.subject = .ok s) ∧
    Issued k (commit k s) (fun m => (m.Genuine k s.view ∧ m.Fits ∧ m.subject = .ok s) ∧
      m.verifyCommittedSeal s.digest = .ok ()) ∧
    Issued k (roundChange k v) (fun m => m.Genuine k v ∧ m.Fits ∧ m.subject = .ok ⟨v, 0⟩) ∧
    ∀ m : Message, (∀ q, m.preprepare = .ok q → m.view = .ok q.view) ∧
      ∀ t, m.subject = .ok t → m.view = .ok t.view :=
  ⟨preprepare_issued hk hp, subject_issued hk .prepare s, commit_issued hk s,
    subject_issued hk .roundChange ⟨v, 0⟩,
      fun _ => ⟨fun _ => view_of_preprepare, fun _ => view_of_subject⟩⟩

end Signers

section Example

attribute [local instance] Scheme.plain

def departure : Preprepare where
  view := ⟨3, 1⟩
  proposal :=
    { header :=
      ⟨5, 3, 9, engineMarker, 6, some ⟨8, false⟩, { Extra.empty with proposerSeal := some ⟨1, 2, 0⟩ }⟩
      data := [1, 2, 3] }

/-- The validator 7 proposes it and commits to it. -/
theorem issued_genuine_departure :
    ∃ m c, ofPreprepare (.plain 7) departure = some m ∧ m.preprepare = .ok departure ∧
      Wire.decode (Wire.encode m) = .ok m ∧ m.verify = .ok () ∧
      commit (.plain 7) ⟨⟨3, 1⟩, 5⟩ = some c ∧ c.verifyCommittedSeal 5 = .ok () := by
  obtain ⟨⟨hproposal, hproposed⟩, -, ⟨hvote, hvoted⟩, -⟩ :=
    issued_genuine (Signer.plain_honest 7) (p := departure) (by decide) ⟨⟨3, 1⟩, 5⟩ ⟨3, 2⟩
  obtain ⟨m, hm⟩ := hproposal fun _ => ⟨_, rfl⟩
  obtain ⟨c, hc⟩ := hvote fun _ => ⟨_, rfl⟩
  obtain ⟨hgenuine, hread⟩ := hproposed m hm
  have hfits : m.Fits := by
    rw [Fits, (signed_spec hm).2.1]
    decide +kernel
  exact ⟨m, c, hm, hread, hgenuine.arrives.mpr hfits, hgenuine.verified, hc, (hvoted c hc).2⟩

/-- The same proposal with this many bytes of data. -/
def bulky (size : Nat) : Preprepare :=
  { departure with proposal := { departure.proposal with data := List.replicate size 0 } }

theorem bulky_fits {size : Nat} (h : size < Nat.pow 2 32) : (bulky size).Fits := by
  refine ⟨⟨Nat.two_pow_pos 32, Nat.two_pow_pos 32⟩, ?_⟩
  show (List.replicate size 0).length < Nat.pow 2 32
  rwa [List.length_replicate]

/-- The data of a block may have the greatest length that four bytes can tell. The body of its Preprepare
is longer than that, so that no peer reads the message. -/
theorem bulky_never_arrives :
    (Signer.plain 7).Honest ∧ (∀ digest, ∃ signature, (Signer.plain 7).sign digest = some signature) ∧
    (bulky (Nat.pow 2 32 - 1)).Fits ∧ ∃ m, ofPreprepare (.plain 7) (bulky (Nat.pow 2 32 - 1)) = some m ∧
      ∀ bytes, Wire.decode bytes ≠ .ok m := by
  have hsign (digest : Digest) : ∃ signature, (Signer.plain 7).sign digest = some signature := ⟨_, rfl⟩
  obtain ⟨m, hm⟩ := exists_signed hsign .preprepare (Wire.encode (bulky (Nat.pow 2 32 - 1))) none
  have hlength : (bulky (Nat.pow 2 32 - 1)).proposal.data.length = Nat.pow 2 32 - 1 :=
    List.length_replicate
  exact ⟨Signer.plain_honest 7, hsign, bulky_fits (by decide), m, hm, not_read_of_long hm (by
    rw [hlength]
    decide)⟩

end Example

end BlockAgreement.Message
