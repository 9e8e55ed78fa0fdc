import BlockAgreement.Proofs.Replica.Coherence
import BlockAgreement.Proofs.Wire.Signing

/-!
# The discipline of a replica's votes

A replica votes once in each phase of a view. What it has once committed to at a height it stands by,
because it keeps the lock for as long as the height lasts. Answers to old proposals that are in the
ledger are not votes in this sense.
-/

set_option autoImplicit false

namespace BlockAgreement

/-- A Prepare or a Commit, without its signature. -/
structure Ballot where
  kind : MessageKind
  subject : Subject
  deriving DecidableEq

namespace Ballot

def view (x : Ballot) : View := x.subject.view

def digest (x : Ballot) : Digest := x.subject.digest

/-- How a ballot relates to one that was cast before. -/
structure Follows (x y : Ballot) : Prop where
  ordered : ¬ x.view < y.view
  /-- There is one Prepare and one Commit in a view. -/
  once : x.kind = y.kind → x.view ≠ y.view
  /-- After a Commit, what is voted for at the height stays the same. -/
  bound : y.kind = .commit → x.view.sequence = y.view.sequence → x.digest = y.digest

theorem digest_eq {log : List Ballot} {x y : Ballot} (hl : log.Pairwise Follows) (hx : x ∈ log)
    (hy : y ∈ log) (hxk : x.kind = .commit) (hyk : y.kind = .commit)
    (hn : x.view.sequence = y.view.sequence) : x.digest = y.digest := by
  induction hl with
  | nil => cases hx
  | cons hz _ ih =>
    rcases List.mem_cons.mp hx with rfl | hxl <;> rcases List.mem_cons.mp hy with rfl | hyl
    · rfl
    · exact (hz y hyl).bound hyk hn
    · exact ((hz x hxl).bound hxk hn.symm).symm
    · exact ih hxl hyl

theorem bound_of_lt {log : List Ballot} {x y : Ballot} (hl : log.Pairwise Follows) (hx : x ∈ log)
    (hy : y ∈ log) (hk : x.kind = .commit) (hn : y.view.sequence = x.view.sequence)
    (hv : x.view < y.view) : y.digest = x.digest := by
  induction hl with
  | nil => cases hx
  | cons hz _ ih =>
    rcases List.mem_cons.mp hx with rfl | hxl <;> rcases List.mem_cons.mp hy with rfl | hyl
    · rfl
    · exact absurd hv (hz y hyl).ordered
    · exact (hz x hxl).bound hk hn
    · exact ih hxl hyl

end Ballot

def Message.ballot? (c : Message) : Option Ballot :=
  if c.kind = .prepare ∨ c.kind = .commit then
    match c.subject with
    | .ok s => some ⟨c.kind, s⟩
    | .error _ => none
  else none

namespace Stance

variable {σ : Type} [Scheme] [Ledger σ]

/-- The message is the answer to an old Preprepare, heard in this stance, for a block of the ledger. -/
def answers (origin : Stance σ) (heard : Option Message) (c : Message) : Bool :=
  match heard, origin.attempt with
  | some m, some a =>
    match m.preprepare with
    | .ok p =>
      m.kind == .preprepare && decide (p.view < a.view) &&
        (Ledger.headerOf? origin.ledger p.proposal.hash).any (·.number == p.proposal.number) &&
        c.ballot? == some ⟨.commit, p.view, p.proposal.hash⟩
    | .error _ => false
  | _, _ => false

/-- The ballots among what is said, without the answers. -/
def ballots (origin : Stance σ) (heard : Option Message) (es : List Effect) : List Ballot :=
  es.filterMap fun
    | .broadcast c => if origin.answers heard c then none else c.ballot?
    | _ => none

end Stance

namespace Replica.Moment

variable {σ : Type} [Scheme] [Ledger σ]

/-- The ballots that the replica casts, newest first. -/
def ballots (m : Moment σ) : List Ballot := m.before.stance.ballots m.heard m.shown

end Replica.Moment

namespace Message

variable [Scheme] {k : Signer} {s : Subject} {c : Message}

omit [Scheme] in
theorem ballot?_of_subject (hk : c.kind = .prepare ∨ c.kind = .commit) (hs : c.subject = .ok s) :
    c.ballot? = some ⟨c.kind, s⟩ := by
  simp [ballot?, hk, hs]

theorem ballot?_prepare (h : prepare k s = some c) : c.ballot? = some ⟨.prepare, s⟩ := by
  obtain ⟨hk, hs⟩ := prepare_spec h
  rw [ballot?_of_subject (.inl hk) hs, hk]

theorem ballot?_commit (h : commit k s = some c) : c.ballot? = some ⟨.commit, s⟩ := by
  obtain ⟨hk, hs, -⟩ := commit_spec h
  rw [ballot?_of_subject (.inr hk) hs, hk]

omit [Scheme] in
theorem ballot?_other (hk : ¬ (c.kind = .prepare ∨ c.kind = .commit)) : c.ballot? = none :=
  if_neg hk

end Message

namespace Stance

variable {σ : Type} [Scheme] [Ledger σ]
variable {origin s t : Stance σ} {heard : Option Message} {a b : Attempt} {log : List Ballot}

theorem ballots_append (es fs : List Effect) :
    origin.ballots heard (es ++ fs) = origin.ballots heard es ++ origin.ballots heard fs :=
  List.filterMap_append

theorem ballots_filter (es : List Effect) :
    origin.ballots heard (es.filter Effect.isSpoken) = origin.ballots heard es := by
  induction es with
  | nil => rfl
  | cons e es ih =>
    cases e with
    | notify n => simpa [ballots, Effect.isSpoken] using ih
    | send a payload => simpa [ballots, Effect.isSpoken] using ih
    | broadcast c =>
      simp only [ballots, Effect.isSpoken, List.filter_cons, List.filterMap_cons, if_true] at ih ⊢
      rw [ih]
    | commit b =>
      simp only [ballots, Effect.isSpoken, List.filter_cons, List.filterMap_cons, if_true] at ih ⊢
      exact ih

theorem ballots_voice {m : Option Message} {x : Ballot} (hm : ∀ c ∈ m, c.ballot? = some x) :
    origin.ballots heard (voice m) = [] ∨ origin.ballots heard (voice m) = [x] := by
  cases m with
  | none => exact .inl rfl
  | some c =>
    have hc : c.ballot? = some x := hm c rfl
    simp only [voice, Option.toList_some, List.map_cons, List.map_nil, ballots,
      List.filterMap_cons, List.filterMap_nil, hc]
    cases origin.answers heard c <;> simp

theorem ballots_silent {m : Option Message} (hm : ∀ c ∈ m, c.ballot? = none) :
    origin.ballots heard (voice m) = [] := by
  cases m with
  | none => rfl
  | some c =>
    have hc : c.ballot? = none := hm c rfl
    simp [voice, ballots, hc]

theorem ballots_answers {m : Option Message} (hm : ∀ c ∈ m, origin.answers heard c = true) :
    origin.ballots heard (voice m) = [] := by
  cases m with
  | none => rfl
  | some c =>
    have hc : origin.answers heard c = true := hm c rfl
    simp [voice, ballots, hc]

structure Keeps (s : Stance σ) (log : List Ballot) : Prop where
  begun : s.attempt = none → log = []
  past : ∀ a ∈ s.attempt, ∀ x ∈ log, ¬ a.view < x.view
  current : ∀ a ∈ s.attempt, ∀ x ∈ log, x.view = a.view →
    s.waiting = false ∧ s.phase ≠ .newRound ∧ (x.kind = .commit → ¬ s.phase < .prepared)
  locked : ∀ a ∈ s.attempt, ∀ x ∈ log, x.kind = .commit →
    x.view.sequence = a.view.sequence → a.lock = some x.digest
  follows : log.Pairwise Ballot.Follows

namespace Keeps

omit [Scheme] [Ledger σ] in
theorem nil (s : Stance σ) : s.Keeps [] :=
  ⟨fun _ => rfl, by simp, by simp, by simp, .nil⟩

omit [Scheme] [Ledger σ] in
theorem advance (hs : s.Keeps log) (ha : s.attempt = some a) (hb : t.attempt = some b)
    (hv : a.view < b.view ∨ a.view = b.view ∧ s.waiting = true)
    (hl : a.view.sequence = b.view.sequence → b.lock = a.lock) : t.Keeps log := by
  have hbefore : ∀ x ∈ log, ¬ b.view < x.view ∧ x.view ≠ b.view := by
    intro x hx
    have hp := hs.past a ha x hx
    rcases hv with hv | ⟨hv, hw⟩
    · exact ⟨fun h => hp (View.lt_trans hv h), fun h => hp (h ▸ hv)⟩
    · refine ⟨hv ▸ hp, fun h => ?_⟩
      have hc := (hs.current a ha x hx (h.trans hv.symm)).1
      rw [hw] at hc
      cases hc
  constructor
  · intro h
    rw [hb] at h
    cases h
  · intro c hc x hx
    obtain rfl := Option.some.inj (hb.symm.trans hc)
    exact (hbefore x hx).1
  · intro c hc x hx h
    obtain rfl := Option.some.inj (hb.symm.trans hc)
    exact absurd h (hbefore x hx).2
  · intro c hc x hx hk h
    obtain rfl := Option.some.inj (hb.symm.trans hc)
    by_cases hq : a.view.sequence = b.view.sequence
    · rw [hl hq]
      exact hs.locked a ha x hx hk (h.trans hq.symm)
    · refine absurd ?_ (hs.past a ha x hx)
      rcases hv with (hv | ⟨hv, -⟩) | ⟨hv, -⟩
      · exact .inl (h ▸ hv)
      · exact absurd hv hq
      · exact absurd (congrArg View.sequence hv) hq
  · exact hs.follows

omit [Scheme] [Ledger σ] in
theorem stay (hs : s.Keeps log) (ha : s.attempt = some a) (hb : t.attempt = some b)
    (hv : b.view = a.view) (hw : t.waiting = s.waiting) (hp : ¬ t.phase < s.phase)
    (hl : ∀ d, a.lock = some d → b.lock = some d) : t.Keeps log := by
  constructor
  · intro h
    rw [hb] at h
    cases h
  · intro c hc x hx
    obtain rfl := Option.some.inj (hb.symm.trans hc)
    rw [hv]
    exact hs.past a ha x hx
  · intro c hc x hx h
    obtain rfl := Option.some.inj (hb.symm.trans hc)
    obtain ⟨h1, h2, h3⟩ := hs.current a ha x hx (h.trans hv)
    have hp : s.phase.rank ≤ t.phase.rank := Nat.le_of_not_lt hp
    refine ⟨hw.trans h1, fun hn => h2 ?_, fun hk hn => h3 hk (Nat.lt_of_le_of_lt hp hn)⟩
    rw [hn] at hp
    cases hq : s.phase <;> simp [hq, Phase.rank] at hp ⊢
  · intro c hc x hx hk h
    obtain rfl := Option.some.inj (hb.symm.trans hc)
    exact hl _ (hs.locked a ha x hx hk (by rw [h, hv]))
  · exact hs.follows

omit [Scheme] [Ledger σ] in
theorem cast {x : Ballot} (hs : s.Keeps log) (ha : s.attempt = some a) (hx : x.view = a.view)
    (hw : s.waiting = false) (hn : s.phase ≠ .newRound)
    (ho : ∀ y ∈ log, y.view = a.view → x.kind ≠ y.kind)
    (hl : ∀ d, a.lock = some d → d = x.digest)
    (hc : x.kind = .commit → a.lock = some x.digest ∧ ¬ s.phase < .prepared) :
    s.Keeps (x :: log) := by
  constructor
  · intro h
    rw [ha] at h
    cases h
  · intro b hb y hy
    obtain rfl := Option.some.inj (ha.symm.trans hb)
    rcases List.mem_cons.mp hy with rfl | hy
    · rw [hx]
      exact View.lt_irrefl _
    · exact hs.past a ha y hy
  · intro b hb y hy h
    obtain rfl := Option.some.inj (ha.symm.trans hb)
    rcases List.mem_cons.mp hy with rfl | hy
    · exact ⟨hw, hn, fun hk => (hc hk).2⟩
    · exact hs.current a ha y hy h
  · intro b hb y hy hk h
    obtain rfl := Option.some.inj (ha.symm.trans hb)
    rcases List.mem_cons.mp hy with rfl | hy
    · exact (hc hk).1
    · exact hs.locked a ha y hy hk h
  · refine List.pairwise_cons.mpr ⟨fun y hy => ?_, hs.follows⟩
    refine ⟨?_, fun hk h => ho y hy (h ▸ hx) hk, fun hk h => ?_⟩
    · rw [hx]
      exact hs.past a ha y hy
    · rw [hx] at h
      exact (hl _ (hs.locked a ha y hy hk h.symm)).symm

theorem vote {m : Option Message} {x : Ballot} {archive : Archive} {phase : Phase}
    (hs : s.Keeps log) (ha : s.attempt = some a) (hm : ∀ c ∈ m, c.ballot? = some x)
    (hb : b.view = a.view) (hx : x.view = a.view) (hw : s.waiting = false)
    (hp : ¬ phase < s.phase) (hn : phase ≠ .newRound)
    (ho : ∀ y ∈ log, y.view = a.view → x.kind ≠ y.kind)
    (hk : ∀ d, a.lock = some d → b.lock = some d) (hl : ∀ d, b.lock = some d → d = x.digest)
    (hc : x.kind = .commit → b.lock = some x.digest ∧ ¬ phase < .prepared) :
    ({ s with archive, attempt := some b, phase } : Stance σ).Keeps
      (origin.ballots heard (voice m) ++ log) := by
  have hst : ({ s with archive, attempt := some b, phase } : Stance σ).Keeps log :=
    hs.stay ha rfl hb rfl hp hk
  have hsay : origin.ballots heard (voice m) = [] ∨ _ := ballots_voice hm
  rcases hsay with h | h
  · rw [h]
    exact hst
  · rw [h]
    exact hst.cast rfl (hx.trans hb.symm) hw hn (fun y hy h => ho y hy (h.trans hb)) hl hc

end Keeps

theorem answers_answer {p : Preprepare} {m c : Message} {header : Header} (hm : heard = some m)
    (ha : origin.attempt = some a) (hk : m.kind = .preprepare) (hp : m.preprepare = .ok p)
    (hv : p.view < a.view) (hh : Ledger.headerOf? origin.ledger p.proposal.hash = some header)
    (hn : header.number = p.proposal.number)
    (hc : c.ballot? = some ⟨.commit, p.view, p.proposal.hash⟩) : origin.answers heard c = true := by
  simp [answers, hm, ha, hp, hk, hv, hh, hn, hc]

theorem answers_spec {c : Message} {x : Ballot} (h : origin.answers heard c = true)
    (hx : c.ballot? = some x) : ∃ header, Ledger.headerOf? origin.ledger x.digest = some header := by
  unfold answers at h
  split at h
  · split at h
    · simp only [Bool.and_eq_true, beq_iff_eq] at h
      obtain ⟨⟨-, hh⟩, hc⟩ := h
      obtain rfl := Option.some.inj (hx.symm.trans hc)
      obtain ⟨header, hh, -⟩ := (Option.any_eq_true _ _).mp hh
      exact ⟨header, hh⟩
    · cases h
  · cases h

/-- The ballots of a move keep in line with those before. If the ledger refuses a block, the lock is
given up, so this is about ledgers that take what they are handed. -/
theorem Move.keeps {es : List Effect} (h : Move origin heard s es t)
    (he : ∀ e ∈ es, ∀ b, e = .commit b → ∃ l, Ledger.append origin.ledger b = .ok l)
    {H : Message → Prop} (hf : s.Coherent H) (hs : s.Keeps log) :
    t.Keeps (origin.ballots heard es ++ log) := by
  cases h with
  | consult number hash => exact ⟨hs.begun, hs.past, hs.current, hs.locked, hs.follows⟩
  | request b ha hb =>
    exact hs.stay ha rfl rfl rfl (Nat.lt_irrefl _) fun d hd => hd
  | propose ha hb hp hn hr =>
    rw [ballots_silent fun c hc => Message.ballot?_other (by simp [(Message.signed_spec hc).1])]
    exact hs
  | ask ha hr =>
    rw [ballots_silent fun c hc => Message.ballot?_other (by simp [(Message.signed_spec hc).1])]
    exact hs.advance ha rfl (.inl (.inr ⟨rfl, hr⟩)) fun _ => rfl
  | @enterSequence _ sequence hn ha =>
    rcases Option.eq_none_or_eq_some s.attempt with hnone | ⟨a, hsome⟩
    · rw [hs.begun hnone]
      refine ⟨fun _ => rfl, ?_, ?_, ?_, List.Pairwise.nil⟩ <;> intro a _ x hx <;> cases hx
    · have hlt : a.view.sequence < sequence := by
        have hle := ha a hsome
        rw [UInt64.le_iff_toNat_le] at hle
        rw [UInt64.lt_iff_toNat_lt, toNat_of_next? hn]
        omega
      exact hs.advance hsome rfl (.inl (.inl hlt)) fun h => absurd (h ▸ hlt) (UInt64.lt_irrefl _)
  | @enterRound _ a round ha hn h0 hr hw =>
    refine hs.advance ha rfl ?_ fun _ => rfl
    -- the round is a later one, or the one that it waits for, in which it has cast nothing
    rcases hw with hw | hw
    · by_cases hlt : a.view.round < round
      · exact .inl (.inr ⟨rfl, hlt⟩)
      · have hround : a.view.round = round :=
          UInt64.le_antisymm (UInt64.not_lt.mp hr) (UInt64.not_lt.mp hlt)
        exact .inr ⟨hround ▸ rfl, hw⟩
    · exact .inl (.inr ⟨rfl, hw⟩)
  | @accept a p m archive hm hp hl =>
    refine hs.vote (x := ⟨.prepare, a.view, p.proposal.hash⟩) hp.attempt
      (fun c hc => Message.ballot?_prepare hc) rfl rfl hp.active (by rw [hp.fresh]; decide) (by decide)
      ?_ (fun d hd => hd) (by simp [hl]) (by simp)
    exact fun y hy h => absurd hp.fresh (hs.current _ hp.attempt y hy h).2.1
  | @support a p m archive hm hp hl =>
    refine hs.vote (x := ⟨.commit, a.view, p.proposal.hash⟩) hp.attempt
      (fun c hc => Message.ballot?_commit hc) rfl rfl hp.active (by rw [hp.fresh]; decide) (by decide)
      ?_ (fun d hd => hd) (fun d hd => Option.some.inj (hd.symm.trans hl)) fun _ => ⟨hl, by decide⟩
    exact fun y hy h => absurd hp.fresh (hs.current _ hp.attempt y hy h).2.1
  | @answer a p m header archive hm hc ha hk hp hv hh hn =>
    rw [ballots_answers fun c hc =>
      answers_answer hm ha hk hp hv hh hn (Message.ballot?_commit hc)]
    exact ⟨hs.begun, hs.past, hs.current, hs.locked, hs.follows⟩
  | countPrepare hm hc hp =>
    exact hs.stay hc.attempt rfl rfl rfl (Nat.lt_irrefl _) fun d hd => hd
  | @lock a b m prepares hm hc hp hq hn =>
    -- what may have been locked before is the accepted proposal, so this vote repeats the earlier one
    have hhash : ∀ d, a.lock = some d → d = b.hash := by
      intro d hd
      obtain ⟨c, hcp, rfl⟩ := (hf a hc.attempt).locked d hd
      rw [Option.some.inj (hcp.symm.trans hc.proposal)]
    refine hs.vote (x := ⟨.commit, a.view, b.hash⟩) hc.attempt
      (fun c hc => Message.ballot?_commit hc) rfl rfl hc.active (Nat.not_lt_of_gt hn) (by decide) ?_
      (fun d hd => congrArg some (hhash d hd).symm) (fun d hd => (Option.some.inj hd).symm)
      fun _ => ⟨rfl, by decide⟩
    exact fun y hy h hk => (hs.current a hc.attempt y hy h).2.2 hk.symm hn
  | countCommit hm hc hseal hp =>
    exact hs.stay hc.attempt rfl rfl rfl (Nat.lt_irrefl _) fun d hd => hd
  | @finalize a b m commits ledger hm hc hseal hp hq hn hl =>
    refine hs.stay hc.attempt rfl rfl rfl (Nat.not_lt_of_gt hn) fun d hd => ?_
    obtain ⟨c, hcp, rfl⟩ := (hf a hc.attempt).locked d hd
    rw [Option.some.inj (hcp.symm.trans hc.proposal)]
  | refuse hm hc hseal hp hq hn hl =>
    -- the ledger takes what it is handed
    obtain ⟨l, happ⟩ := he _ List.mem_cons_self _ rfl
    rw [hl] at happ
    cases happ

theorem Move.legible {es : List Effect} (h : Move origin heard s es t) {c : Message}
    (hc : .broadcast c ∈ es) (hk : c.kind = .prepare ∨ c.kind = .commit) :
    ∃ x, c.subject = .ok x := by
  cases h with
  | propose => simp [(Message.signed_spec (broadcast_mem_voice.mp hc)).1] at hk
  | ask => simp [(Message.signed_spec (broadcast_mem_voice.mp hc)).1] at hk
  | accept => exact ⟨_, (Message.prepare_spec (broadcast_mem_voice.mp hc)).2⟩
  | support => exact ⟨_, (Message.commit_spec (broadcast_mem_voice.mp hc)).2.1⟩
  | answer => exact ⟨_, (Message.commit_spec (broadcast_mem_voice.mp hc)).2.1⟩
  | lock => exact ⟨_, (Message.commit_spec (broadcast_mem_voice.mp hc)).2.1⟩
  | _ => simp at hc

theorem Move.sender {es : List Effect} (h : Move origin heard s es t) :
    t.signer = s.signer ∧ ∀ c, .broadcast c ∈ es → c.sender = s.signer.address := by
  have hrefreshed (head : Header) : (s.refreshed head).signer = s.signer := by
    unfold refreshed
    split <;> rfl
  cases h with
  | propose => exact ⟨rfl, fun c hc => (Message.signed_spec (broadcast_mem_voice.mp hc)).2.2⟩
  | ask => exact ⟨rfl, fun c hc => (Message.signed_spec (broadcast_mem_voice.mp hc)).2.2⟩
  | accept => exact ⟨rfl, fun c hc => (Message.signed_spec (broadcast_mem_voice.mp hc)).2.2⟩
  | support => exact ⟨rfl, fun c hc => (Message.commit_spec (broadcast_mem_voice.mp hc)).2.2⟩
  | answer => exact ⟨rfl, fun c hc => (Message.commit_spec (broadcast_mem_voice.mp hc)).2.2⟩
  | lock => exact ⟨rfl, fun c hc => (Message.commit_spec (broadcast_mem_voice.mp hc)).2.2⟩
  | enterSequence => exact ⟨hrefreshed _, by simp⟩
  | _ => exact ⟨rfl, by simp⟩

theorem Moves.sender {es : List Effect} (h : Moves origin heard s es t) :
    t.signer = s.signer ∧ ∀ c, .broadcast c ∈ es → c.sender = s.signer.address := by
  induction h with
  | refl => exact ⟨rfl, by simp⟩
  | step _ hm ih =>
    obtain ⟨hsig, hsay⟩ := hm.sender
    refine ⟨hsig.trans ih.1, fun c hc => ?_⟩
    rcases List.mem_append.mp hc with hc | hc
    · rw [hsay c hc, ih.1]
    · exact ih.2 c hc

end Stance

namespace Replica

variable {σ : Type} [Scheme] [Ledger σ]

theorem Moment.mem_signed {m : Moment σ} {c : Message} :
    c ∈ m.signed ↔ .broadcast c ∈ m.shown := by
  simp only [Moment.signed, List.mem_filterMap]
  constructor
  · rintro ⟨e, he, hc⟩
    cases e <;> simp at hc
    exact hc ▸ he
  · exact fun h => ⟨_, h, rfl⟩

variable {start r : Replica σ} {h : List (Moment σ)}

/-- What every move keeps of the stance and the ballots holds throughout a run whose ledger takes what
it is handed. -/
theorem Run.cast {P : Stance σ → List Ballot → Prop} (hr : Run start h r)
    (hs : start.attempt = none) (ha : ∀ m ∈ h, m.Accepted) (hstart : P start.stance [])
    (hreplace : ∀ (s : Stance σ) (log : List Ballot) (ledger : σ), P s log → P { s with ledger } log)
    (hmove : ∀ {origin s t : Stance σ} {heard : Option Message} {es : List Effect}
      {log : List Ballot}, Stance.Move origin heard s es t →
      (∀ e ∈ es, ∀ b, e = .commit b → ∃ l, Ledger.append origin.ledger b = .ok l) →
      s.Coherent (fun _ => True) → P s log → P t (origin.ballots heard es ++ log)) :
    P r.stance (h.flatMap Moment.ballots) := by
  induction hr with
  | nil => exact hstart
  | @step h r e hr ih =>
    have ih := ih fun m hm => ha m (List.mem_cons_of_mem _ hm)
    rw [List.flatMap_cons]
    by_cases he : ∃ l, e = .replace l
    · obtain ⟨l, rfl⟩ := he
      obtain ⟨hsh, hst, -⟩ := Moment.replaced (m := ⟨r, .replace l⟩) rfl
      have hst : (r.react (.replace l)).stance = _ := hst
      rw [hst, Moment.ballots, hsh]
      exact hreplace _ _ l ih
    · obtain ⟨-, hm, -⟩ := Moment.moves (m := ⟨r, e⟩) (by simpa using he)
      have hacc := ha _ List.mem_cons_self
      have hkeep := hm.preserve
        (E := fun e => ∀ b, e = .commit b → ∃ l, Ledger.append r.stance.ledger b = .ok l)
        (P := fun s es => s.Coherent (fun _ => True) ∧
          P s (r.stance.ballots (Moment.heard ⟨r, e⟩) es ++ h.flatMap Moment.ballots)) []
        (fun hm hE _ hs => ⟨hm.coherent (by simp) hs.1, by
          rw [Stance.ballots_append, List.append_assoc]
          exact hmove hm hE hs.1 hs.2⟩) ?_
        ⟨(hr.coherent hs).mono fun _ _ => trivial, ih⟩
      · have hkeep := hkeep.2
        rw [List.append_nil, Stance.ballots_filter] at hkeep
        exact hkeep
      · rintro x hx b rfl
        exact hacc b (List.mem_filter.mp hx).1

/-- Along a run the ballots keep in line. -/
theorem Run.keeps (hr : Run start h r) (hs : start.attempt = none) (ha : ∀ m ∈ h, m.Accepted) :
    r.stance.Keeps (h.flatMap Moment.ballots) :=
  hr.cast hs ha (.nil _) (fun _ _ _ hk => ⟨hk.begun, hk.past, hk.current, hk.locked, hk.follows⟩)
    fun hm he hf hk => hm.keeps he hf hk

theorem Moment.sender {m : Moment σ} :
    m.after.signer = m.before.signer ∧
      ∀ c ∈ m.signed, c.sender = m.before.signer.address := by
  by_cases he : ∃ l, m.event = .replace l
  · obtain ⟨l, he⟩ := he
    obtain ⟨hsh, hst, -⟩ := Moment.replaced he
    refine ⟨congrArg Stance.signer hst, fun c hc => ?_⟩
    rw [Moment.mem_signed, hsh] at hc
    cases hc
  · obtain ⟨-, hm, -⟩ := Moment.moves (m := m) (by simpa using he)
    refine ⟨hm.sender.1, fun c hc => hm.sender.2 c (List.mem_filter.mpr ⟨?_, rfl⟩)⟩
    exact Moment.mem_signed.mp hc

theorem Run.signer (hr : Run start h r) : r.signer = start.signer := by
  induction hr with
  | nil => rfl
  | @step h r e _ ih => exact (Moment.sender (m := ⟨r, e⟩)).1.trans ih

/-- In every run of a replica whose ledger takes what it is handed, its Prepares and Commits are in
order of their views, one of each in a view, and none of them goes against an earlier Commit for the
same height. -/
theorem votes_follow {signer : Signer} {ledger : σ} {archive : Archive} {gossip : Gossip}
    {timer : Timer} {capacity : Nat}
    (hc : create signer ledger archive gossip timer capacity = .ok start) (hr : Run start h r)
    (ha : ∀ m ∈ h, m.Accepted) :
    (∀ m ∈ h, ∀ c ∈ m.signed, c.kind = .prepare ∨ c.kind = .commit → ∃ s, c.subject = .ok s) ∧
      (h.flatMap Moment.ballots).Pairwise Ballot.Follows := by
  obtain ⟨s, -, -, -, -, hn, -⟩ := create_spec hc
  refine ⟨fun m _ c hcs hk => ?_, (hr.keeps hn ha).follows⟩
  rw [Moment.mem_signed] at hcs
  by_cases he : ∃ l, m.event = .replace l
  · obtain ⟨l, he⟩ := he
    rw [(Moment.replaced he).1] at hcs
    cases hcs
  · obtain ⟨-, hm, -⟩ := Moment.moves (m := m) (by simpa using he)
    have hspoken : Effect.broadcast c ∈ m.shown.filter Effect.isSpoken :=
      List.mem_filter.mpr ⟨hcs, rfl⟩
    obtain ⟨u, es, v, hmove, hes⟩ := hm.exists_move hspoken
    exact hmove.legible hes hk

end Replica

namespace Pair

open Replica

attribute [local instance] Scheme.plain

/-- The first of two validators prepares and commits to the block that it proposed. -/
theorem votes_follow_first : ∃ start, replica first = .ok start ∧
    (start.moments firstEvents).flatMap Moment.ballots =
      [⟨.commit, subject⟩, ⟨.prepare, subject⟩] ∧
    (∀ m ∈ start.moments firstEvents, m.Accepted) ∧
    ((start.moments firstEvents).flatMap Moment.ballots).Pairwise Ballot.Follows := by
  have hv : (replica first).toOption.any (fun start =>
      (start.moments firstEvents).flatMap Moment.ballots =
        [⟨.commit, subject⟩, ⟨.prepare, subject⟩] ∧
      ∀ m ∈ start.moments firstEvents, m.Accepted) := by decide +kernel
  cases hc : replica first with
  | error e =>
    rw [hc] at hv
    cases hv
  | ok start =>
    rw [hc] at hv
    obtain ⟨hb, ha⟩ := of_decide_eq_true hv
    exact ⟨start, rfl, hb, ha, (votes_follow hc (moments_run start _) ha).2⟩

end Pair

end BlockAgreement
