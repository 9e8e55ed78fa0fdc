import BlockAgreement.Proofs.Replica.Counting

/-!
# What a replica does where it stands

Most of what a replica does leaves it where it stands: in its view and phase, with its ledger, its
committee and backlog, and the requests that it has counted. It may say something then, and that is
ready behind everything that was ready before.
-/

set_option autoImplicit false

namespace BlockAgreement

structure Word (k : Signer) (own : List Message) : Prop where
  length_le : own.length ≤ 1
  sender : ∀ c ∈ own, c.sender = k.address
  kind : ∀ c ∈ own, c.kind ≠ .roundChange

theorem word_nil (k : Signer) : Word k [] := ⟨Nat.zero_le _, by simp, by simp⟩

theorem word_toList {k : Signer} {m : Option Message}
    (h : ∀ c ∈ m, c.sender = k.address ∧ c.kind ≠ .roundChange) : Word k m.toList := by
  cases m with
  | none => exact word_nil k
  | some c => exact ⟨Nat.le_refl _, by simpa using (h c rfl).1, by simpa using (h c rfl).2⟩

theorem Word.sublist {k : Signer} {own later : List Message} (hw : Word k own)
    (hs : later.Sublist own) : Word k later :=
  ⟨hs.length_le.trans hw.length_le, fun c hc => hw.sender c (hs.subset hc),
    fun c hc => hw.kind c (hs.subset hc)⟩

namespace Replica

variable {σ : Type} {r s t : Replica σ} {own later : List Message}

structure Remains (r s : Replica σ) (own : List Message) : Prop extends Frame r s where
  ledger : s.ledger = r.ledger
  roundChanges : s.roundChanges = r.roundChanges
  backlog : s.backlog = r.backlog
  agenda : s.agenda = r.agenda ++ own

theorem Remains.refl (r : Replica σ) : Remains r r [] :=
  ⟨.refl r, rfl, rfl, rfl, (List.append_nil _).symm⟩

theorem Remains.trans (hs : Remains r s own) (ht : Remains s t later) : Remains r t (own ++ later) where
  toFrame := hs.toFrame.trans ht.toFrame
  ledger := ht.ledger.trans hs.ledger
  roundChanges := ht.roundChanges.trans hs.roundChanges
  backlog := ht.backlog.trans hs.backlog
  agenda := by rw [ht.agenda, hs.agenda, List.append_assoc]

theorem Aside.remains (h : Aside r s own) : Remains r s own := by
  have hagenda := h.agenda
  obtain ⟨gossip, timer, effects, ready, rfl⟩ := h.same
  exact ⟨⟨rfl, rfl, rfl, rfl, rfl⟩, rfl, rfl, rfl, hagenda⟩

theorem emit_remains (r : Replica σ) (e : Effect) : Remains r (r.emit e) [] :=
  ⟨⟨rfl, rfl, rfl, rfl, rfl⟩, rfl, rfl, rfl, (List.append_nil _).symm⟩

theorem notify_remains (r : Replica σ) (n : Notice) : Remains r (r.notify n) [] := emit_remains r _

theorem drop_remains (r : Replica σ) (m : Message) (reason : Rejection) :
    Remains r (r.drop m reason) [] := notify_remains r _

theorem archive_remains (r : Replica σ) (archive : Archive) : Remains r { r with archive } [] :=
  ⟨⟨rfl, rfl, rfl, rfl, rfl⟩, rfl, rfl, rfl, (List.append_nil _).symm⟩

theorem held_remains (r : Replica σ) (held : SortedMap Height Block) : Remains r { r with held } [] :=
  ⟨⟨rfl, rfl, rfl, rfl, rfl⟩, rfl, rfl, rfl, (List.append_nil _).symm⟩

theorem announceView_remains (r : Replica σ) (view : View) : Remains r (r.announceView view) [] :=
  ⟨⟨rfl, rfl, rfl, rfl, rfl⟩, rfl, rfl, rfl, (List.append_nil _).symm⟩

theorem attempt_remains {a b : Attempt} (ha : r.attempt = some a) (hv : b.view = a.view) :
    Remains r { r with attempt := some b } [] :=
  ⟨⟨rfl, by simp [view?, ha, hv], rfl, rfl, rfl⟩, rfl, rfl, rfl, (List.append_nil _).symm⟩

variable [Scheme]

theorem relay_remains (r : Replica σ) (payload : Bytes) : Remains r (r.relay payload) [] :=
  (relay_aside r payload).remains

theorem broadcast_remains (r : Replica σ) (m : Option Message) (notice : Notice) :
    Remains r (r.broadcast m notice) m.toList := by
  cases m with
  | none => exact .refl r
  | some c => exact (broadcast_aside r c notice).remains

theorem sendPreprepare_remains (r : Replica σ) (b : Block) :
    ∃ own, Remains r (r.sendPreprepare b) own ∧ Word r.signer own ∧ (own = [] ∨ r.isProposer = true) := by
  have hsilent : ∃ own, Remains r r own ∧ Word r.signer own ∧ (own = [] ∨ r.isProposer = true) :=
    ⟨[], .refl r, word_nil _, .inl rfl⟩
  unfold sendPreprepare
  split
  · exact hsilent
  · split
    · rename_i hp
      refine ⟨_, broadcast_remains r _ _, word_toList fun c hc => ?_, .inr hp.2⟩
      obtain ⟨hkind, -, hsender⟩ := Message.signed_spec hc
      exact ⟨hsender, by simp [hkind]⟩
    · exact hsilent

theorem sendPrepare_remains (r : Replica σ) :
    ∃ own, Remains r r.sendPrepare own ∧ Word r.signer own := by
  unfold sendPrepare
  split
  · exact ⟨[], .refl r, word_nil _⟩
  · refine ⟨_, broadcast_remains r _ _, word_toList fun c hc => ?_⟩
    obtain ⟨hkind, -, hsender⟩ := Message.signed_spec hc
    exact ⟨hsender, by simp [hkind]⟩

theorem sendCommitFor_remains (r : Replica σ) (x : Subject) :
    ∃ own, Remains r (r.sendCommitFor x) own ∧ Word r.signer own := by
  refine ⟨_, broadcast_remains r _ _, word_toList fun c hc => ?_⟩
  obtain ⟨hkind, -, hsender⟩ := Message.commit_spec hc
  exact ⟨hsender, by simp [hkind]⟩

theorem sendCommit_remains (r : Replica σ) :
    ∃ own, Remains r r.sendCommit own ∧ Word r.signer own := by
  unfold sendCommit
  split
  · exact ⟨[], .refl r, word_nil _⟩
  · exact sendCommitFor_remains r _

theorem handleRequest_remains (r : Replica σ) (b : Block) :
    ∃ own, Remains r (r.handleRequest b) own ∧ Word r.signer own ∧ (own = [] ∨ r.isProposer = true) := by
  unfold handleRequest
  split
  · exact ⟨[], .refl r, word_nil _, .inl rfl⟩
  · rename_i a ha
    split
    · exact ⟨[], held_remains r _, word_nil _, .inl rfl⟩
    · split
      · exact ⟨[], .refl r, word_nil _, .inl rfl⟩
      · have hrequest := attempt_remains (b := { a with request := some b }) ha rfl
        dsimp only
        split
        · obtain ⟨own, ho, hword, hp⟩ :=
            sendPreprepare_remains { r with attempt := some { a with request := some b } } b
          exact ⟨own, hrequest.trans ho, hword, hp⟩
        · exact ⟨[], hrequest, word_nil _, .inl rfl⟩

theorem takeHeld_remains (r : Replica σ) :
    ∃ own, Remains r r.takeHeld own ∧ Word r.signer own ∧ (own = [] ∨ r.isProposer = true) := by
  unfold takeHeld
  split
  · exact ⟨[], .refl r, word_nil _, .inl rfl⟩
  · dsimp only
    split
    · exact ⟨[], held_remains r _, word_nil _, .inl rfl⟩
    · obtain ⟨own, ho, hword, hp⟩ := handleRequest_remains { r with held := _ } _
      exact ⟨own, (held_remains r _).trans ho, hword, hp⟩

theorem proposeAgain_remains (r : Replica σ) :
    ∃ own, Remains r r.proposeAgain own ∧ (own = [] ∨ r.isProposer = true) := by
  unfold proposeAgain
  split
  · split
    · exact ⟨[], .refl r, .inl rfl⟩
    · obtain ⟨own, ho, -, hp⟩ := sendPreprepare_remains r _
      exact ⟨own, ho, hp⟩
  · exact ⟨[], .refl r, .inl rfl⟩

end Replica

end BlockAgreement
