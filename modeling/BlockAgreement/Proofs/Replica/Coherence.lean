import BlockAgreement.Proofs.Replica.Hearing

/-!
# The attempt of a replica is coherent

What is locked has been proposed, what is proposed is for the current height, and every Commit that is
counted is one for the accepted proposal in the current view, with a committed seal on it.
-/

set_option autoImplicit false

namespace BlockAgreement

theorem Attempt.next_proposal {a : Attempt} {view : View} {committee : Committee} {b : Block}
    (hb : b ∈ (a.next view committee).proposal) : a.proposal = some b := by
  simp only [Attempt.proposal, Attempt.next, Option.mem_def] at hb ⊢
  split at hb
  · exact hb
  · cases hb

variable [Scheme]

/-- The message commits its sender to the subject. -/
structure Message.CommitsTo (c : Message) (s : Subject) : Prop where
  kind : c.kind = .commit
  verified : c.verify = .ok ()
  subject : c.subject = .ok s
  sealed : c.verifyCommittedSeal s.digest = .ok ()

namespace Stance

variable {σ : Type}

/-- The attempt fits the stance, and of every Commit that it counts `H` holds. -/
structure Fits (H : Message → Prop) (s : Stance σ) (a : Attempt) : Prop where
  locked : ∀ d ∈ a.lock, ∃ b, a.proposal = some b ∧ b.hash = d
  number : ∀ b ∈ a.proposal, b.number = a.view.sequence
  blank : s.waiting = true ∨ s.phase = .newRound → a.commits.messages = []
  committee : a.commits.committee.members = s.committee.members
  counted : ∀ c ∈ a.commits.messages, ∃ b, a.proposal = some b ∧ c.CommitsTo ⟨a.view, b.hash⟩ ∧ H c

def Coherent (H : Message → Prop) (s : Stance σ) : Prop := ∀ a ∈ s.attempt, s.Fits H a

variable {H : Message → Prop} {s t : Stance σ} {a : Attempt}

theorem Coherent.mono {K : Message → Prop} (hk : ∀ c, H c → K c) (hs : s.Coherent H) :
    s.Coherent K := by
  intro a ha
  have hf := hs a ha
  refine ⟨hf.locked, hf.number, hf.blank, hf.committee, fun c hc => ?_⟩
  obtain ⟨b, hb, hsup, hh⟩ := hf.counted c hc
  exact ⟨b, hb, hsup, hk c hh⟩

theorem Fits.next (hf : s.Fits H a) {committee : Committee} (round : Round)
    (hc : committee.members = t.committee.members) :
    t.Fits H (a.next ⟨a.view.sequence, round⟩ committee) := by
  refine ⟨?_, ?_, fun _ => rfl, hc, by simp [Attempt.next, Attempt.start, Poll.empty]⟩
  · intro d hd
    obtain ⟨b, hb, he⟩ := hf.locked d hd
    have hl : a.lock.isSome := Option.isSome_iff_exists.mpr ⟨d, hd⟩
    refine ⟨b, ?_, he⟩
    simpa [Attempt.proposal, Attempt.next, hl] using hb
  · intro b hb
    exact hf.number b (Attempt.next_proposal hb)

theorem Fits.propose (hf : s.Fits H a) {p : Preprepare} (hb : a.commits.messages = [])
    (hl : ∀ d ∈ a.lock, p.proposal.hash = d) (hn : p.proposal.number = a.view.sequence)
    (hc : s.committee = t.committee) : t.Fits H { a with preprepare := some p } := by
  refine ⟨fun d hd => ⟨p.proposal, rfl, hl d hd⟩, ?_, fun _ => hb, hc ▸ hf.committee, ?_⟩
  · rintro b hb
    obtain rfl := Option.some.inj hb
    exact hn
  · intro c hc
    rw [show ({ a with preprepare := some p } : Attempt).commits.messages = [] from hb] at hc
    cases hc

theorem Fits.count (hf : s.Fits H a) {b : Block} {m : Message} {commits : Poll}
    {lock : Option Digest} (hc : s.Counts a b .commit m)
    (hs : m.verifyCommittedSeal b.hash = .ok ()) (hp : a.commits.add m = .ok commits) (hm : H m)
    (hl : ∀ d ∈ lock, d = b.hash) (hw : t.waiting = false) (hn : t.phase ≠ .newRound)
    (ht : t.committee = s.committee) : t.Fits H { a with commits, lock } := by
  obtain ⟨-, hcom, -, hmem⟩ := Poll.add_spec hp
  refine ⟨fun d hd => ⟨b, hc.proposal, (hl d hd).symm⟩, hf.number, ?_, ?_, ?_⟩
  · rintro (h | h)
    · rw [hw] at h
      cases h
    · exact absurd h hn
  · show commits.committee.members = _
    rw [hcom, ht]
    exact hf.committee
  · intro c hmc
    rcases hmem c hmc with hmc | rfl
    · exact hf.counted c hmc
    · exact ⟨b, hc.proposal, ⟨hc.kind, hc.verified, hc.subject, hs⟩, hm⟩

variable [Ledger σ] {origin : Stance σ} {heard : Option Message} {es : List Effect}

theorem Move.coherent (h : Move origin heard s es t) (hh : ∀ m ∈ heard, H m)
    (hs : s.Coherent H) : t.Coherent H := by
  cases h with
  | consult number hash =>
    intro a ha
    have hf := hs a ha
    exact ⟨hf.locked, hf.number, hf.blank, hf.committee, hf.counted⟩
  | request b ha hb =>
    rintro c hc
    obtain rfl := Option.some.inj hc
    have hf := hs _ ha
    exact ⟨hf.locked, hf.number, hf.blank, hf.committee, hf.counted⟩
  | propose ha hb hp hn hr => exact hs
  | ask ha hr =>
    rintro c hc
    obtain rfl := Option.some.inj hc
    exact (hs _ ha).next _ rfl
  | enterSequence hn ha =>
    rintro c hc
    obtain rfl := Option.some.inj hc
    exact ⟨by simp [Attempt.start], by simp [Attempt.start, Attempt.proposal], fun _ => rfl, rfl,
      by simp [Attempt.start, Poll.empty]⟩
  | enterRound ha hn h0 hr hw =>
    rintro c hc
    obtain rfl := Option.some.inj hc
    exact (hs _ ha).next _ rfl
  | accept hm hp hl =>
    rintro c hc
    obtain rfl := Option.some.inj hc
    have hf := hs _ hp.attempt
    exact hf.propose (hf.blank (.inr hp.fresh)) (by simp [hl]) hp.number rfl
  | support hm hp hl =>
    rintro c hc
    obtain rfl := Option.some.inj hc
    have hf := hs _ hp.attempt
    exact hf.propose (hf.blank (.inr hp.fresh)) (by simp [hl]) hp.number rfl
  | answer hm hc ha hk hp hv hh hn =>
    intro a ha
    have hf := hs a ha
    exact ⟨hf.locked, hf.number, hf.blank, hf.committee, hf.counted⟩
  | countPrepare hm hc hp =>
    rintro c hc'
    obtain rfl := Option.some.inj hc'
    have hf := hs _ hc.attempt
    exact ⟨hf.locked, hf.number, hf.blank, hf.committee, hf.counted⟩
  | lock hm hc hp hq hn =>
    rintro c hc'
    obtain rfl := Option.some.inj hc'
    have hf := hs _ hc.attempt
    refine ⟨?_, hf.number, fun h => hf.blank (h.imp_right fun h => by cases h), hf.committee,
      hf.counted⟩
    rintro d hd
    obtain rfl := Option.some.inj hd
    exact ⟨_, hc.proposal, rfl⟩
  | countCommit hm hc hseal hp =>
    rintro c hc'
    obtain rfl := Option.some.inj hc'
    have hf := hs _ hc.attempt
    refine hf.count hc hseal hp (hh _ hm) ?_ hc.active hc.proposed rfl
    intro d hd
    obtain ⟨b, hb, rfl⟩ := hf.locked d hd
    obtain rfl := Option.some.inj (hb.symm.trans hc.proposal)
    rfl
  | finalize hm hc hseal hp hq hn hl =>
    rintro c hc'
    obtain rfl := Option.some.inj hc'
    exact (hs _ hc.attempt).count hc hseal hp (hh _ hm) (by simp) hc.active (by simp) rfl
  | refuse hm hc hseal hp hq hn hl =>
    rintro c hc'
    obtain rfl := Option.some.inj hc'
    exact (hs _ hc.attempt).count hc hseal hp (hh _ hm) (by simp) hc.active (by simp) rfl

end Stance

namespace Replica

variable {σ : Type} [Ledger σ] {start r : Replica σ} {h : List (Moment σ)}

def Heard (h : List (Moment σ)) (c : Message) : Prop := ∃ m ∈ h, m.heard = some c

theorem Moment.replaced {m : Moment σ} {l : σ} (he : m.event = .replace l) :
    m.shown = [] ∧ m.after.stance = { m.before.stance with ledger := l } ∧
      m.after.queued = m.before.queued := by
  have ha : m.after = { m.before with ledger := l } := by
    rw [Moment.after, he]
    rfl
  refine ⟨?_, by rw [ha]; rfl, by rw [ha]; rfl⟩
  simp [Moment.shown, ha]

omit [Scheme] [Ledger σ] in
theorem Heard.cons {c : Message} (hc : Heard h c) (m : Moment σ) : Heard (m :: h) c :=
  hc.imp fun _ hn => ⟨List.mem_cons_of_mem _ hn.1, hn.2⟩

omit [Scheme] [Ledger σ] in
theorem heard_cons_self {m : Moment σ} {c : Message} (hc : m.heard = some c) : Heard (m :: h) c :=
  ⟨m, List.mem_cons_self, hc⟩

/-- What holds on account of the moments so far, and is kept by every move and by another ledger, holds
throughout a run. -/
theorem Run.follow {P : List (Moment σ) → Stance σ → Prop} (hr : Run start h r)
    (hstart : P [] start.stance)
    (hlift : ∀ {h : List (Moment σ)} {m : Moment σ} {s : Stance σ}, P h s → P (m :: h) s)
    (hreplace : ∀ {h : List (Moment σ)} {s : Stance σ} (ledger : σ), P h s → P h { s with ledger })
    (hmove : ∀ {h : List (Moment σ)} {m : Moment σ} {s t : Stance σ} {es : List Effect},
      Run start h m.before → Stance.Move m.before.stance m.heard s es t → P (m :: h) s →
      P (m :: h) t) : P h r.stance := by
  induction hr with
  | nil => exact hstart
  | @step h r e hr ih =>
    by_cases he : ∃ l, e = .replace l
    · obtain ⟨l, rfl⟩ := he
      exact hreplace l (hlift ih)
    · obtain ⟨-, hm, -⟩ := Moment.moves (m := ⟨r, e⟩) (by simpa using he)
      exact hm.preserve (E := fun _ => True) (P := fun s _ => P _ s) []
        (fun hmoved _ _ hs => hmove hr hmoved hs) (by simp) (hlift ih)

theorem Run.coherent (hr : Run start h r) (hs : start.attempt = none) :
    r.stance.Coherent (Heard h) := by
  refine hr.follow (P := fun h s => s.Coherent (Heard h)) (fun a ha => ?_)
    (fun hf => hf.mono fun c hc => hc.cons _) (fun l hf a ha => ?_)
    fun _ hm hf => hm.coherent (fun c hc => heard_cons_self hc) hf
  · rw [show start.stance.attempt = none from hs] at ha
    cases ha
  · have hf := hf a ha
    exact ⟨hf.locked, hf.number, hf.blank, hf.committee, hf.counted⟩

end Replica

end BlockAgreement
