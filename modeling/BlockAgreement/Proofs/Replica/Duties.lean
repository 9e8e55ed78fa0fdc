import BlockAgreement.Proofs.Replica.Counting
import BlockAgreement.Proofs.Replica.Retries
import BlockAgreement.Proofs.Replica.Support

/-!
# What a replica owes

A replica that waits for a view owes its request for it, one that has accepted a proposal its Prepare, and
one that has locked it its Commit. It says what it comes to owe in the same moment. What it owes from
before it has not left since, with its committee and all the votes that it had counted.
-/

set_option autoImplicit false

namespace BlockAgreement

def MessageKind.stage : MessageKind → ℕ
  | .roundChange => 0
  | .preprepare => Phase.newRound.rank + 1
  | .prepare => Phase.preprepared.rank + 1
  | .commit => Phase.prepared.rank + 1

variable {σ : Type} [Scheme]

namespace Stance

/-- The vote that goes with the stance: the request for the view that the replica waits for, or the vote
for the proposal of the view that it is in. -/
inductive Owes (s : Stance σ) : Message → Prop where
  | request {a : Attempt} {c : Message} (ha : s.attempt = some a) (hw : s.waiting = true)
      (hn : next? a.view.round ≠ none) (hc : Message.roundChange s.signer a.view = some c) : Owes s c
  | prepare {a : Attempt} {b : Block} {c : Message} (ha : s.attempt = some a)
      (hb : a.proposal = some b) (hw : s.waiting = false) (hp : s.phase = .preprepared)
      (hc : Message.prepare s.signer ⟨a.view, b.hash⟩ = some c) : Owes s c
  | commit {a : Attempt} {b : Block} {c : Message} (ha : s.attempt = some a)
      (hb : a.proposal = some b) (hw : s.waiting = false) (hp : s.phase = .prepared)
      (hc : Message.commit s.signer ⟨a.view, b.hash⟩ = some c) : Owes s c

variable {origin s t u : Stance σ} {heard : Option Message} {es : List Effect} {c : Message}

theorem Owes.subject (h : s.Owes c) :
    ∃ a x, s.attempt = some a ∧ c.subject = .ok x ∧ x.view = a.view := by
  cases h with
  | request ha _ _ hc => exact ⟨_, _, ha, (Message.roundChange_spec hc).2.1, rfl⟩
  | prepare ha _ _ _ hc => exact ⟨_, _, ha, (Message.prepare_spec hc).2, rfl⟩
  | commit ha _ _ _ hc => exact ⟨_, _, ha, (Message.commit_spec hc).2.1, rfl⟩

theorem Owes.stage (h : s.Owes c) : (if s.waiting then 0 else s.phase.rank + 1) = c.kind.stage := by
  cases h with
  | request _ hw _ hc => rw [hw, (Message.roundChange_spec hc).1]; rfl
  | prepare _ _ hw hp hc => rw [hw, hp, (Message.prepare_spec hc).1]; rfl
  | commit _ _ hw hp hc => rw [hw, hp, (Message.commit_spec hc).1]; rfl

theorem Owes.signed (h : s.Owes c) (hk : s.signer.Honest) :
    c.verify = .ok () ∧ c.sender = s.signer.address := by
  cases h with
  | request _ _ _ hc => exact ⟨Message.verify_signed hk hc, (Message.signed_spec hc).2.2⟩
  | prepare _ _ _ _ hc => exact ⟨Message.verify_signed hk hc, (Message.signed_spec hc).2.2⟩
  | commit _ _ _ _ hc =>
    obtain ⟨_, -, hc⟩ := Message.signed_of_commit hc
    exact ⟨Message.verify_signed hk hc, (Message.signed_spec hc).2.2⟩

theorem Owes.of_eq (h : t.Owes c) (hk : t.signer = s.signer) (hw : t.waiting = s.waiting)
    (hp : t.phase = s.phase)
    (ha : ∀ b ∈ t.attempt, ∃ a, s.attempt = some a ∧ a.view = b.view ∧ a.proposal = b.proposal) :
    s.Owes c := by
  cases h with
  | request hb hwait hn hc =>
    obtain ⟨a, ha, hv, -⟩ := ha _ hb
    exact .request ha (hw ▸ hwait) (hv ▸ hn) (hv ▸ hk ▸ hc)
  | prepare hb hprop hactive hphase hc =>
    obtain ⟨a, ha, hv, hbp⟩ := ha _ hb
    exact .prepare ha (hbp ▸ hprop) (hw ▸ hactive) (hp ▸ hphase) (hv ▸ hk ▸ hc)
  | commit hb hprop hactive hphase hc =>
    obtain ⟨a, ha, hv, hbp⟩ := ha _ hb
    exact .commit ha (hbp ▸ hprop) (hw ▸ hactive) (hp ▸ hphase) (hv ▸ hk ▸ hc)

theorem Owes.not_active (h : s.Owes c) (hw : s.waiting = false) :
    s.phase = .preprepared ∨ s.phase = .prepared := by
  cases h with
  | request _ hwait =>
    rw [hw] at hwait
    cases hwait
  | prepare _ _ _ hp => exact .inl hp
  | commit _ _ _ hp => exact .inr hp

structure Retains (s t : Stance σ) : Prop where
  signer : t.signer = s.signer
  committee : t.committee = s.committee
  prepares : ∀ a ∈ s.attempt, ∀ b ∈ t.attempt, a.prepares.senders ⊆ b.prepares.senders
  commits : ∀ a ∈ s.attempt, ∀ b ∈ t.attempt, a.commits.senders ⊆ b.commits.senders

omit [Scheme] in
theorem retains_of_eq (hk : t.signer = s.signer) (hc : t.committee = s.committee)
    (ha : t.attempt = s.attempt) : Retains s t where
  signer := hk
  committee := hc
  prepares a hs b ht := by
    obtain rfl := Option.some.inj (hs.symm.trans (ha ▸ ht))
    exact List.Subset.refl _
  commits a hs b ht := by
    obtain rfl := Option.some.inj (hs.symm.trans (ha ▸ ht))
    exact List.Subset.refl _

omit [Scheme] in
theorem retains_of_attempt {a b : Attempt} (hk : t.signer = s.signer) (hc : t.committee = s.committee)
    (hs : s.attempt = some a) (ht : t.attempt = some b) (hp : a.prepares.senders ⊆ b.prepares.senders)
    (hq : a.commits.senders ⊆ b.commits.senders) : Retains s t where
  signer := hk
  committee := hc
  prepares x hx y hy := by
    obtain rfl := Option.some.inj (hs.symm.trans hx)
    obtain rfl := Option.some.inj (ht.symm.trans hy)
    exact hp
  commits x hx y hy := by
    obtain rfl := Option.some.inj (hs.symm.trans hx)
    obtain rfl := Option.some.inj (ht.symm.trans hy)
    exact hq

omit [Scheme] in
theorem Retains.trans {a : Attempt} (hs : Retains s t) (ht : Retains t u) (ha : t.attempt = some a) :
    Retains s u where
  signer := ht.signer.trans hs.signer
  committee := ht.committee.trans hs.committee
  prepares x hx y hy := List.Subset.trans (hs.prepares x hx a ha) (ht.prepares a ha y hy)
  commits x hx y hy := List.Subset.trans (hs.commits x hx a ha) (ht.commits a ha y hy)

variable [Ledger σ]

theorem Move.owes (h : Move origin heard s es t) (ht : t.Owes c) :
    .broadcast c ∈ es ∨ s.Owes c ∧ Retains s t := by
  -- each stage is entered by one move, which broadcasts what is owed there; the other moves keep the
  -- stage and whoever is counted
  have hquiet (hs : t.signer = s.signer) (hw : t.waiting = s.waiting) (hp : t.phase = s.phase)
      (ha : t.attempt = s.attempt) (hc : t.committee = s.committee) : s.Owes c ∧ Retains s t :=
    ⟨ht.of_eq hs hw hp fun b hb => ⟨b, ha ▸ hb, rfl, rfl⟩, retains_of_eq hs hc ha⟩
  cases h with
  | consult number hash => exact .inr (hquiet rfl rfl rfl rfl rfl)
  | propose => exact .inr (hquiet rfl rfl rfl rfl rfl)
  | answer => exact .inr (hquiet rfl rfl rfl rfl rfl)
  | request b ha hb =>
    refine .inr ⟨ht.of_eq rfl rfl rfl ?_, retains_of_attempt rfl rfl ha rfl ?_ ?_⟩
    · rintro _ ⟨⟩
      exact ⟨_, ha, rfl, rfl⟩
    · exact List.Subset.refl _
    · exact List.Subset.refl _
  | ask ha hr =>
    cases ht with
    | request hb _ _ hc =>
      obtain rfl := Option.some.inj hb
      exact .inl (broadcast_mem_voice.mpr hc)
    | prepare _ _ hw => cases hw
    | commit _ _ hw => cases hw
  | enterSequence hn ha => rcases ht.not_active rfl with hp | hp <;> cases hp
  | enterRound ha hn => rcases ht.not_active rfl with hp | hp <;> cases hp
  | accept hm hp hl =>
    cases ht with
    | request _ hw => exact absurd (hw.symm.trans hp.active) (by simp)
    | prepare hb hprop _ _ hc =>
      obtain rfl := Option.some.inj hb
      obtain rfl := Option.some.inj hprop
      exact .inl (broadcast_mem_voice.mpr hc)
    | commit _ _ _ hphase => cases hphase
  | support hm hp hl =>
    cases ht with
    | request _ hw => exact absurd (hw.symm.trans hp.active) (by simp)
    | prepare _ _ _ hphase => cases hphase
    | commit hb hprop _ _ hc =>
      obtain rfl := Option.some.inj hb
      obtain rfl := Option.some.inj hprop
      exact .inl (broadcast_mem_voice.mpr hc)
  | countPrepare hm hd hp =>
    refine .inr ⟨ht.of_eq rfl rfl rfl ?_, retains_of_attempt rfl rfl hd.attempt rfl ?_ ?_⟩
    · rintro _ ⟨⟩
      exact ⟨_, hd.attempt, rfl, rfl⟩
    · exact (Poll.senders_add hp).2
    · exact List.Subset.refl _
  | lock hm hd hp hq hn =>
    cases ht with
    | request _ hw => exact absurd (hw.symm.trans hd.active) (by simp)
    | prepare _ _ _ hphase => cases hphase
    | commit hb hprop _ _ hc =>
      obtain rfl := Option.some.inj hb
      obtain rfl := Option.some.inj (hprop.symm.trans hd.proposal)
      exact .inl (broadcast_mem_voice.mpr hc)
  | countCommit hm hd hseal hp =>
    refine .inr ⟨ht.of_eq rfl rfl rfl ?_, retains_of_attempt rfl rfl hd.attempt rfl ?_ ?_⟩
    · rintro _ ⟨⟩
      exact ⟨_, hd.attempt, rfl, rfl⟩
    · exact List.Subset.refl _
    · exact (Poll.senders_add hp).2
  | finalize hm hd => rcases ht.not_active hd.active with hp | hp <;> cases hp
  | refuse hm hd => rcases ht.not_active hd.active with hp | hp <;> cases hp

/-- What a replica owes after some moves it has said in their course, or it has owed it all the time. -/
theorem Moves.owes (h : Moves origin heard s es t) (ht : t.Owes c) :
    .broadcast c ∈ es ∨ s.Owes c ∧ Retains s t := by
  induction h with
  | refl => exact .inr ⟨ht, retains_of_eq rfl rfl rfl⟩
  | step _ hm ih =>
    rcases hm.owes ht with hb | ⟨hu, hr⟩
    · exact .inl (List.mem_append_left _ hb)
    · rcases ih hu with hb | ⟨hs, hr'⟩
      · exact .inl (List.mem_append_right _ hb)
      · obtain ⟨a, -, ha, -⟩ := hu.subject
        exact .inr ⟨hs, hr'.trans hr ha⟩

/-- A replica that waits waits for some view, and one that has come further than to begin a view has a
proposal there. -/
structure Placed (s : Stance σ) : Prop where
  waiting : s.waiting = true → ∃ a, s.attempt = some a
  proposed : s.waiting = false → s.phase ≠ .newRound → ∃ a b, s.attempt = some a ∧ a.proposal = some b

theorem Move.placed (h : Move origin heard s es t) (hs : s.Placed) : t.Placed := by
  have hcounted {a : Attempt} {b : Block} {kind : MessageKind} {m : Message} {x : Attempt}
      (hd : origin.Counts a b kind m) (hx : t.attempt = some x) (hb : x.proposal = a.proposal)
      (hw : t.waiting = origin.waiting) : t.Placed :=
    ⟨fun hwait => absurd (hwait.symm.trans (hw.trans hd.active)) (by simp),
      fun _ _ => ⟨x, b, hx, hb.trans hd.proposal⟩⟩
  cases h with
  | consult => exact ⟨hs.waiting, hs.proposed⟩
  | propose => exact hs
  | answer => exact ⟨hs.waiting, hs.proposed⟩
  | request b ha hb =>
    refine ⟨fun _ => ⟨_, rfl⟩, fun hw hn => ?_⟩
    obtain ⟨a, x, ha', hx⟩ := hs.proposed hw hn
    obtain rfl := Option.some.inj (ha.symm.trans ha')
    exact ⟨_, x, rfl, hx⟩
  | ask ha hr => exact ⟨fun _ => ⟨_, rfl⟩, fun hw => by cases hw⟩
  | enterSequence hn ha => exact ⟨fun _ => ⟨_, rfl⟩, fun _ hn => absurd rfl hn⟩
  | enterRound ha hn => exact ⟨fun _ => ⟨_, rfl⟩, fun _ hn => absurd rfl hn⟩
  | accept hm hp hl => exact ⟨fun _ => ⟨_, rfl⟩, fun _ _ => ⟨_, _, rfl, rfl⟩⟩
  | support hm hp hl => exact ⟨fun _ => ⟨_, rfl⟩, fun _ _ => ⟨_, _, rfl, rfl⟩⟩
  | countPrepare hm hd hp => exact hcounted hd rfl rfl rfl
  | lock hm hd hp hq hn => exact hcounted hd rfl rfl rfl
  | countCommit hm hd hseal hp => exact hcounted hd rfl rfl rfl
  | finalize hm hd hseal hp hq hn hl => exact hcounted hd rfl rfl rfl
  | refuse hm hd hseal hp hq hn hl => exact hcounted hd rfl rfl rfl

end Stance

end BlockAgreement
