import BlockAgreement.Proofs.Committee.Quorum
import BlockAgreement.Proofs.Governance.Mandate

/-!
# When a member leaves

A departure lowers the quorum, and only the target of a header's vote is settled. A tally that the
quorum has come down to stays pending, until a header votes on its target or a checkpoint discards it:
there is no other way for one to reach the quorum and stay. The quorum of a lone member is its own vote,
so that it can leave as well, and then no header can follow.
-/

set_option autoImplicit false

namespace BlockAgreement

namespace Committee

variable {c : Committee}

theorem contains_of_eq_nil (h : c.members = []) (a : Address) : c.contains a = false := by
  rw [contains, h]
  rfl

theorem contains_of_eq_singleton {b : Address} (h : c.members = [b]) (a : Address) :
    c.contains a = true ↔ a = b := by
  rw [contains_iff, h, List.mem_singleton]

end Committee

namespace Snapshot

section Counting

variable {s : Snapshot} {v : Vote} {target : Address}

theorem tallyOf_eq (h : Consistent s) (target : Address) :
    s.tallyOf target = onTarget s.votes target := by
  rw [tallyOf, h.counts target]
  split
  · rename_i h0
    exact h0.symm
  · rfl

theorem tallyOf_settle_lt (s : Snapshot) (target : Address) :
    (s.settle target).tallyOf target < (s.settle target).committee.quorum := by
  have herase : ∀ s : Snapshot, (s.dropVotesOn target).tallyOf target = 0 := by
    intro s
    rw [tallyOf, dropVotesOn, SortedMap.find?_erase, if_pos rfl]
    rfl
  unfold settle
  split
  · rename_i hnone
    rw [tallyOf, hnone]
    exact s.committee.quorum_pos
  · rename_i t ht
    split
    · rename_i hlt
      rw [tallyOf, ht]
      exact hlt
    · split
      · rw [herase]
        exact Committee.quorum_pos _
      · rw [herase]
        exact Committee.quorum_pos _

theorem onTarget_cast (s : Snapshot) (hne : v.target ≠ target) :
    onTarget (s.cast v).votes target = onTarget s.votes target := by
  unfold cast
  split
  · simp [onTarget, List.countP_append, hne]
  · rfl

theorem tallyOf_countVote_le (hs : Consistent s) (hm : s.committee.contains v.signer)
    (hne : v.target ≠ target) : (s.countVote v).tallyOf target ≤ s.tallyOf target := by
  rw [tallyOf_eq (countVote_consistent hs hm), tallyOf_eq hs]
  calc onTarget (s.countVote v).votes target
      ≤ onTarget ((s.withdraw v.signer v.target).cast v).votes target := (settle_votes _ _).countP_le
    _ = onTarget (s.withdraw v.signer v.target).votes target := onTarget_cast _ hne
    _ ≤ onTarget s.votes target := (withdraw_votes _ _ _).countP_le

theorem countVote_target {a : Address}
    (hne : (s.countVote v).committee.contains a ≠ s.committee.contains a) : a = v.target := by
  rw [← withdraw_cast_committee s v] at hne
  exact (settle_committee hne).1

theorem countVote_lone (hs : Consistent s) (hm : s.committee.members = [v.target])
    (hsigner : v.signer = v.target) (hv : v.authorize = false) :
    (s.countVote v).committee.members = [] := by
  let u := (s.withdraw v.signer v.target).cast v
  have hcom : u.committee = s.committee := withdraw_cast_committee s v
  have hin : s.committee.contains v.target = true := (Committee.contains_of_eq_singleton hm _).mpr rfl
  have hcons : Consistent u := withdraw_cast_consistent hs (hsigner ▸ hin)
  have hcast : v ∈ u.votes := by
    have hmean : s.isMeaningful v.target v.authorize = true := by
      rw [isMeaningful, hin, hv]
      rfl
    rw [show u.votes = _ from withdraw_cast_votes hmean]
    exact List.mem_append_right _ List.mem_cons_self
  have hquorum : u.committee.quorum = 1 := by
    rw [hcom, Committee.quorum, Committee.faults, Committee.size, hm, List.length_singleton]
  have hgone : (s.countVote v).committee.contains v.target = false := by
    rcases settle_or hcons v.target with hstay | hchange
    · have hlt := tallyOf_settle_lt u v.target
      rw [hstay, tallyOf_eq hcons, hquorum, Nat.lt_one_iff] at hlt
      exact absurd rfl (onTarget_eq_zero.mp hlt v hcast)
    · rw [hcom, hin] at hchange
      exact hchange
  refine List.eq_nil_iff_forall_not_mem.mpr fun a ha => ?_
  have hstill : (s.countVote v).committee.contains a = true := Committee.contains_iff.mpr ha
  by_cases hat : a = v.target
  · rw [hat, hgone] at hstill
    cases hstill
  · refine hat (countVote_target (s := s) fun hsame => hat ?_)
    exact (Committee.contains_of_eq_singleton hm a).mp (hsame ▸ hstill)

end Counting

section Overtaking

variable [Scheme] {s t : Snapshot} {headers : List Header} {h : Header} {target : Address}

theorem apply_induction {P : Snapshot → Prop}
    (hP : ∀ {s t : Snapshot} {h : Header}, Reachable s → P s → s.apply [h] = .ok t → P t)
    (hr : Reachable s) (h : P s) (ha : s.apply headers = .ok t) : P t := by
  induction headers generalizing s with
  | nil =>
    rw [apply_nil] at ha
    cases ha
    exact h
  | cons header headers ih =>
    obtain ⟨hn, hh, u, hu, ha⟩ := apply_cons.mp ha
    have hone : s.apply [header] = .ok u := apply_singleton.mpr ⟨hn, hh, hu⟩
    exact ih (hr.apply hone) (hP hr h hone) ha

/-- The first header after which the quorum had come down to the tally of the target is one with which
another address has left. No header from there on is a checkpoint or votes on the target. -/
def Overtaken (s : Snapshot) (target : Address) : Prop :=
  ∃ before h after later, Reachable before ∧ before.apply [h] = .ok after ∧
    after.apply later = .ok s ∧
    before.tallyOf target < before.committee.quorum ∧
    after.committee.quorum ≤ after.tallyOf target ∧
    (∃ v ∈ h.vote, before.committee.contains v.target = true ∧
      after.committee.contains v.target = false) ∧
    ∀ k ∈ h :: later, s.epoch.isCheckpoint k.number = false ∧ ∀ v ∈ k.vote, v.target ≠ target

/-- A checkpoint and a vote on the target leave its tally below the quorum, and no other header raises
it. -/
theorem applyHeader_tallyOf (hs : Consistent s) (ha : s.applyHeader h = .ok t) (target : Address) :
    t.tallyOf target < t.committee.quorum ∨
      s.epoch.isCheckpoint h.number = false ∧ (∀ v ∈ h.vote, v.target ≠ target) ∧
        t.tallyOf target ≤ s.tallyOf target := by
  obtain ⟨author, -, hm, ⟨-, rfl⟩ | ⟨hc, hv, rfl⟩ | ⟨v, hc, hv, rfl⟩⟩ := applyHeader_ok.mp ha
  · exact .inl (Committee.quorum_pos _)
  · exact .inr ⟨hc, by simp [hv], Nat.le_refl _⟩
  · by_cases ht : v.target = target
    · subst ht
      exact .inl (tallyOf_settle_lt _ _)
    · refine .inr ⟨hc, fun w hw => ?_, tallyOf_countVote_le (hs.moveTo h) hm ht⟩
      obtain rfl := Option.some.inj (hv.symm.trans hw)
      exact ht

theorem applyHeader_committee (ha : s.applyHeader h = .ok t) {a : Address}
    (hne : t.committee.contains a ≠ s.committee.contains a) :
    s.epoch.isCheckpoint h.number = false ∧ ∃ v ∈ h.vote, v.target = a := by
  obtain ⟨author, -, -, ⟨-, rfl⟩ | ⟨-, -, rfl⟩ | ⟨v, hc, hv, rfl⟩⟩ := applyHeader_ok.mp ha
  · exact absurd rfl hne
  · exact absurd rfl hne
  · exact ⟨hc, v, hv, (countVote_target hne).symm⟩

theorem Overtaken.later (ho : Overtaken s target) (ha : s.apply [h] = .ok t)
    (hc : s.epoch.isCheckpoint h.number = false) (hv : ∀ v ∈ h.vote, v.target ≠ target) :
    Overtaken t target := by
  obtain ⟨before, g, after, later, hr, hg, hlater, hlt, hle, hleft, hquiet⟩ := ho
  have hep : t.epoch = s.epoch := (applyHeader_frame (apply_singleton.mp ha).2.2).2.2
  refine ⟨before, g, after, later ++ [h], hr, hg, apply_append.mpr ⟨s, hlater, ha⟩, hlt, hle, hleft, ?_⟩
  intro k hk
  rw [hep]
  rw [← List.cons_append, List.mem_append, List.mem_singleton] at hk
  rcases hk with hk | rfl
  · exact hquiet k hk
  · exact ⟨hc, hv⟩

theorem overtaken_of_departure (hr : Reachable s) (ha : s.apply [h] = .ok t)
    (hlt : s.tallyOf target < s.committee.quorum) (hle : t.committee.quorum ≤ t.tallyOf target) :
    Overtaken t target := by
  obtain ⟨-, -, hstep⟩ := apply_singleton.mp ha
  rcases applyHeader_tallyOf (reachable_consistent hr) hstep target with hbelow | ⟨hc, hv, hmono⟩
  · exact absurd hle (Nat.not_le.mpr hbelow)
  · obtain ⟨a, hin, hout⟩ := Committee.exists_left (hle.trans_lt (hmono.trans_lt hlt))
    obtain ⟨-, v, hva, rfl⟩ := applyHeader_committee hstep (by rw [hin, hout]; decide)
    refine ⟨s, h, t, [], hr, ha, apply_nil t, hlt, hle, ⟨v, hva, hin, hout⟩, fun k hk => ?_⟩
    rw [List.mem_singleton.mp hk, (applyHeader_frame hstep).2.2]
    exact ⟨hc, hv⟩

theorem below_or_overtaken_step (hr : Reachable s)
    (hs : s.tallyOf target < s.committee.quorum ∨ Overtaken s target) (ha : s.apply [h] = .ok t) :
    t.tallyOf target < t.committee.quorum ∨ Overtaken t target := by
  refine or_iff_not_imp_left.mpr fun hnot => ?_
  rcases hs with hlt | ho
  · exact overtaken_of_departure hr ha hlt (Nat.not_lt.mp hnot)
  · rcases applyHeader_tallyOf (reachable_consistent hr) (apply_singleton.mp ha).2.2 target with
      hbelow | ⟨hc, hv, -⟩
    · exact absurd hbelow hnot
    · exact ho.later ha hc hv

/-- In every snapshot that can be reached, a pending tally is below the quorum of the committee there,
unless a departure has lowered the quorum to it and no vote has been cast on its target since. With the
next header that votes on the target, or the next checkpoint, it is below the quorum again. -/
theorem pending_below_quorum (hr : Reachable s) (target : Address) :
    (s.tallyOf target < s.committee.quorum ∨ Overtaken s target) ∧
      ∀ {h t}, s.apply [h] = .ok t →
        (s.epoch.isCheckpoint h.number = true ∨ ∃ v ∈ h.vote, v.target = target) →
        t.tallyOf target < t.committee.quorum := by
  constructor
  · induction hr with
    | initial epoch number hash committee => exact .inl committee.quorum_pos
    | apply hr ha ih =>
      exact apply_induction (P := fun s => s.tallyOf target < s.committee.quorum ∨ Overtaken s target)
        below_or_overtaken_step hr ih ha
  · intro h t ha hon
    rcases applyHeader_tallyOf (reachable_consistent hr) (apply_singleton.mp ha).2.2 target with
      hbelow | ⟨hc, hv, -⟩
    · exact hbelow
    · rcases hon with hcheckpoint | ⟨v, hvm, hvt⟩
      · rw [hc] at hcheckpoint
        cases hcheckpoint
      · exact absurd hvt (hv v hvm)

end Overtaking

section Example

attribute [local instance] Scheme.plain

def ballot (s : Snapshot) (author : Address) (vote : MembershipVote) : Header :=
  let unsealed : Header := ⟨s.hash, s.number + 1, 0, engineMarker, 0, some vote, Extra.empty⟩
  { unsealed with
    extra := { Extra.empty with proposerSeal := (Signer.plain author).sign unsealed.sealHash } }

def afterBallots (s : Snapshot) : List (Address × MembershipVote) → Except SnapshotFault Snapshot
  | [] => .ok s
  | (author, vote) :: votes =>
    match s.apply [s.ballot author vote] with
    | .error e => .error e
    | .ok t => t.afterBallots votes

theorem Reachable.afterBallots {s t : Snapshot} {votes : List (Address × MembershipVote)}
    (hr : Reachable s) (ha : s.afterBallots votes = .ok t) : Reachable t := by
  induction votes generalizing s with
  | nil =>
    cases ha
    exact hr
  | cons ballot votes ih =>
    rw [Snapshot.afterBallots] at ha
    split at ha
    · cases ha
    · rename_i u hu
      exact ih (hr.apply hu) ha

def exampleAfter (members : List Address) : Snapshot := initial 10 0 7 (.ofList members .roundRobin)

/-- Two of four members vote for the stranger 9, where three are needed, before 4 leaves. The two are
enough then, but 9 joins no sooner than with the next vote on it, even if that goes against it. -/
theorem exists_overtaken : ∃ s t, Reachable s ∧ s.apply [s.ballot 3 ⟨9, false⟩] = .ok t ∧
    s.committee.members = [1, 2, 3] ∧ s.committee.quorum = 2 ∧ s.tallyOf 9 = 2 ∧
    t.committee.members = [1, 2, 3, 9] := by
  let first := exampleAfter [1, 2, 3, 4]
  let votes : List (Address × MembershipVote) :=
    [(1, ⟨9, true⟩), (2, ⟨9, true⟩), (1, ⟨4, false⟩), (2, ⟨4, false⟩), (3, ⟨4, false⟩)]
  obtain ⟨s, ha, hm, hq, ht, hnext⟩ := exists_ok (x := first.afterBallots votes) (P := fun s =>
    s.committee.members = [1, 2, 3] ∧ s.committee.quorum = 2 ∧ s.tallyOf 9 = 2 ∧
      (s.apply [s.ballot 3 ⟨9, false⟩]).toOption.any fun t => t.committee.members = [1, 2, 3, 9])
    (by decide +kernel)
  obtain ⟨t, hb, hmembers⟩ := exists_ok hnext
  exact ⟨s, t, (Reachable.initial 10 0 7 _).afterBallots ha, hb, hm, hq, ht, hmembers⟩

/-- The tally on 9 has come to the quorum by the departure of 4, and the next vote on 9 ends it. -/
theorem pending_below_quorum_departed : ∃ s t, Reachable s ∧ s.apply [s.ballot 3 ⟨9, false⟩] = .ok t ∧
    s.committee.members = [1, 2, 3] ∧ s.tallyOf 9 = 2 ∧ Overtaken s 9 ∧
    t.tallyOf 9 < t.committee.quorum := by
  obtain ⟨s, t, hr, ha, hm, hq, htally, -⟩ := exists_overtaken
  obtain ⟨hs, hnext⟩ := pending_below_quorum hr 9
  have ho : Overtaken s 9 := hs.resolve_left (by rw [hq, htally]; decide)
  exact ⟨s, t, hr, ha, hm, htally, ho, hnext ha (.inr ⟨⟨9, false⟩, rfl, rfl⟩)⟩

/-- A vote that has passed may be left pending. -/
theorem pending_reaches_quorum : ¬ ∀ s : Snapshot, Reachable s → s.committee.members ≠ [] →
    ∀ target, s.tallyOf target < s.committee.quorum := by
  intro hall
  obtain ⟨s, t, hr, -, hm, hq, htally, -⟩ := exists_overtaken
  have hlt := hall s hr (by rw [hm]; exact List.cons_ne_nil _ _) 9
  rw [hq, htally] at hlt
  exact Nat.lt_irrefl 2 hlt

end Example

section Disbanding

variable [Scheme] {s t : Snapshot} {headers : List Header} {h : Header}

/-- The last of the headers is by a lone member, and carries its vote on itself. -/
def LoneVote (s : Snapshot) (headers : List Header) (v : MembershipVote) : Prop :=
  ∃ earlier h before, headers = earlier ++ [h] ∧ s.apply earlier = .ok before ∧
    before.committee.members = [v.target] ∧ h.author = some v.target ∧ h.vote = some v ∧
    before.epoch.isCheckpoint h.number = false

theorem apply_of_disbanded (hs : s.committee.members = []) (ha : s.apply headers = .ok t) :
    headers = [] := by
  cases headers with
  | nil => rfl
  | cons h headers =>
    obtain ⟨-, -, u, hu, -⟩ := apply_cons.mp ha
    obtain ⟨author, -, hm, -⟩ := applyHeader_ok.mp hu
    rw [Committee.contains_of_eq_nil hs] at hm
    cases hm

theorem lone_of_disbanded (ha : s.applyHeader h = .ok t) (ht : t.committee.members = []) :
    ∃ v, s.committee.members = [v.target] ∧ h.author = some v.target ∧ h.vote = some v ∧
      s.epoch.isCheckpoint h.number = false := by
  obtain ⟨author, hauth, hm, -⟩ := applyHeader_ok.mp ha
  have hleft : ∀ a, s.committee.contains a = true →
      s.epoch.isCheckpoint h.number = false ∧ ∃ v ∈ h.vote, v.target = a := fun a hin =>
    applyHeader_committee ha (by rw [hin, Committee.contains_of_eq_nil ht]; decide)
  obtain ⟨hc, v, hv, rfl⟩ := hleft author hm
  have hall : ∀ a ∈ s.committee.members, a = v.target := by
    intro a hmem
    obtain ⟨-, w, hw, rfl⟩ := hleft a (Committee.contains_iff.mpr hmem)
    rw [Option.some.inj (hw.symm.trans hv)]
  have hone : s.committee.members = [v.target] := by
    have hrep := List.eq_replicate_of_mem hall
    have hlen := List.nodup_replicate.mp (hrep ▸ s.committee.members_nodup)
    have hpos := List.length_pos_of_mem (Committee.contains_iff.mp hm)
    rw [hrep, show s.committee.members.length = 1 by omega]
    rfl
  exact ⟨v, hone, hauth, hv, hc⟩

theorem authorize_of_disbanded (hs : Consistent s) (ha : s.applyHeader h = .ok t)
    (ht : t.committee.members = []) {v : MembershipVote} (hv : h.vote = some v)
    (hm : s.committee.members = [v.target]) (hauth : h.author = some v.target) : v.authorize = false := by
  have hin : s.committee.contains v.target = true := (Committee.contains_of_eq_singleton hm _).mpr rfl
  have hne : t.committee.contains v.target ≠ s.committee.contains v.target := by
    rw [hin, Committee.contains_of_eq_nil ht]
    decide
  obtain ⟨author, hauthor, -, ⟨-, rfl⟩ | ⟨-, -, rfl⟩ | ⟨w, -, hw, rfl⟩⟩ := applyHeader_ok.mp ha
  · exact absurd rfl hne
  · exact absurd rfl hne
  · obtain rfl := Option.some.inj (hv.symm.trans hw)
    obtain rfl := Option.some.inj (hauth.symm.trans hauthor)
    obtain ⟨-, voters, -, hq, hvoters⟩ := countVote_changes
      (v := ⟨v.target, h.number, v.target, v.authorize⟩) (hs.moveTo h) hin hne
    obtain ⟨x, hx⟩ := List.exists_mem_of_length_pos (Nat.lt_of_lt_of_le (Committee.quorum_pos _) hq)
    obtain ⟨hmem, w, hw, hsigner, htarget, hdir⟩ := hvoters x hx
    have hxv : x = v.target := by
      change x ∈ s.committee.members at hmem
      rwa [hm, List.mem_singleton] at hmem
    rw [Committee.contains_of_eq_nil ht] at hdir
    rcases hw with rfl | ⟨-, hother⟩
    · exact hdir
    · exact absurd ⟨hsigner.trans hxv, htarget⟩ hother

/-- Headers take all members from a committee that has some only if the last of them is by a lone member
that votes on itself. Where the votes have been counted from headers, it has voted for its own removal,
and such a vote does leave the committee empty. No header can follow. -/
theorem disbanded_by_lone_vote (hs : s.committee.members ≠ []) (ha : s.apply headers = .ok t) :
    (t.committee.members ≠ [] ∨ ∃ v, LoneVote s headers v) ∧
      (Reachable s → (t.committee.members = [] ↔ ∃ a, LoneVote s headers ⟨a, false⟩)) ∧
      (t.committee.members = [] → ∀ more u, t.apply more = .ok u → more = []) := by
  -- an empty committee is that of the last header
  have hlast : t.committee.members = [] → ∃ earlier h before, headers = earlier ++ [h] ∧
      s.apply earlier = .ok before ∧ before.applyHeader h = .ok t := by
    intro ht
    rcases List.eq_nil_or_concat headers with rfl | ⟨earlier, h, rfl⟩
    · rw [apply_nil] at ha
      cases ha
      exact absurd ht hs
    · rw [List.concat_eq_append] at ha ⊢
      obtain ⟨before, hbefore, hh⟩ := apply_append.mp ha
      exact ⟨earlier, h, before, rfl, hbefore, (apply_singleton.mp hh).2.2⟩
  refine ⟨?_, fun hr => ⟨fun ht => ?_, ?_⟩, fun ht more u => apply_of_disbanded ht⟩
  · refine or_iff_not_imp_left.mpr fun ht => ?_
    obtain ⟨earlier, h, before, rfl, hbefore, hh⟩ := hlast (not_not.mp ht)
    obtain ⟨v, hm, hauth, hv, hc⟩ := lone_of_disbanded hh (not_not.mp ht)
    exact ⟨v, earlier, h, before, rfl, hbefore, hm, hauth, hv, hc⟩
  · obtain ⟨earlier, h, before, rfl, hbefore, hh⟩ := hlast ht
    obtain ⟨⟨a, authorize⟩, hm, hauth, hv, hc⟩ := lone_of_disbanded hh ht
    obtain rfl : authorize = false :=
      authorize_of_disbanded (reachable_consistent (hr.apply hbefore)) hh ht hv hm hauth
    exact ⟨a, earlier, h, before, rfl, hbefore, hm, hauth, hv, hc⟩
  · rintro ⟨a, earlier, h, before, rfl, hbefore, hm, hauth, hv, hc⟩
    obtain ⟨u, hu, hh⟩ := apply_append.mp ha
    obtain rfl := Except.ok.inj (hbefore.symm.trans hu)
    have hcons : Consistent before := reachable_consistent (hr.apply hbefore)
    obtain ⟨author, hauthor, -, ⟨hc', -⟩ | ⟨-, hv', -⟩ | ⟨w, -, hw, rfl⟩⟩ :=
      applyHeader_ok.mp (apply_singleton.mp hh).2.2
    · rw [hc] at hc'
      cases hc'
    · rw [hv] at hv'
      cases hv'
    · obtain rfl := Option.some.inj (hv.symm.trans hw)
      obtain rfl := Option.some.inj (hauth.symm.trans hauthor)
      exact countVote_lone (hcons.moveTo h) hm rfl rfl

end Disbanding

section Example

attribute [local instance] Scheme.plain

theorem exists_disbanded : ∃ s,
    (exampleAfter [5]).apply [(exampleAfter [5]).ballot 5 ⟨5, false⟩] = .ok s ∧
    s.committee.members = [] :=
  exists_ok (by decide +kernel)

/-- That vote is the only way to such an end, and no header follows. -/
theorem disbanded_by_lone_vote_of_five : ∃ s a,
    (exampleAfter [5]).apply [(exampleAfter [5]).ballot 5 ⟨5, false⟩] = .ok s ∧
    LoneVote (exampleAfter [5]) [(exampleAfter [5]).ballot 5 ⟨5, false⟩] ⟨a, false⟩ ∧
    ∀ more t, s.apply more = .ok t → more = [] := by
  obtain ⟨s, ha, hm⟩ := exists_disbanded
  obtain ⟨-, hiff, hend⟩ := disbanded_by_lone_vote (List.cons_ne_nil _ _) ha
  obtain ⟨a, hlone⟩ := (hiff (.initial 10 0 7 _)).mp hm
  exact ⟨s, a, ha, hlone, hend hm⟩

/-- Headers may take all members from a committee. -/
theorem committee_disbands : ¬ ∀ (s t : Snapshot) (headers : List Header),
    s.committee.members ≠ [] → s.apply headers = .ok t → t.committee.members ≠ [] := by
  intro hall
  obtain ⟨t, ha, hm⟩ := exists_disbanded
  exact hall _ t _ (List.cons_ne_nil _ _) ha hm

end Example

end Snapshot

end BlockAgreement
