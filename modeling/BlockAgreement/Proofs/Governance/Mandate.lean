import BlockAgreement.Proofs.Governance.Lineage
import BlockAgreement.Proofs.Governance.Tally

/-!
# The mandate for a change of the committee

A header changes the membership of one address at most, the target of its vote, and only with a quorum
of members behind it: each of them is the author of a header since the last checkpoint that voted for
this very change, and has not voted on the target again. What the tally counts is thereby tied to the
headers.
-/

set_option autoImplicit false

namespace BlockAgreement.Snapshot

/-- Among the headers, oldest first, one since the last checkpoint is by this author and carries this
vote, and no later one carries a vote of the author on the target. -/
def Stands [Scheme] (epoch : Epoch) (headers : List Header) (author target : Address)
    (authorize : Bool) : Prop :=
  ∃ earlier h later, headers = earlier ++ h :: later ∧
    h.author = some author ∧ h.vote = some ⟨target, authorize⟩ ∧
    (∀ k ∈ h :: later, epoch.isCheckpoint k.number = false) ∧
    ∀ k ∈ later, k.author = some author → ∀ v ∈ k.vote, v.target ≠ target

section Votes

variable {s : Snapshot} {v w : Vote} {target : Address}

theorem mem_withdraw {signer : Address} (h : w ∈ (s.withdraw signer target).votes) : w ∈ s.votes :=
  (withdraw_votes s signer target).mem h

theorem mem_cast (h : w ∈ (s.cast v).votes) : w ∈ s.votes ∨ w = v := by
  unfold cast at h
  split at h
  · simpa using h
  · exact .inl h

theorem mem_settle (h : w ∈ (s.settle target).votes) : w ∈ s.votes := (settle_votes s target).mem h

theorem mem_countVote (hs : Consistent s) (h : w ∈ (s.countVote v).votes) :
    w = v ∨ w ∈ s.votes ∧ ¬ (w.signer = v.signer ∧ w.target = v.target) := by
  rcases mem_cast (mem_settle h) with h | h
  · exact .inr ⟨mem_withdraw h, withdraw_fresh hs w h⟩
  · exact .inl h

def votersOn (s : Snapshot) (target : Address) : List Address :=
  (s.votes.filter (·.target = target)).map (·.signer)

theorem mem_votersOn {x : Address} :
    x ∈ s.votersOn target ↔ ∃ v ∈ s.votes, v.target = target ∧ v.signer = x := by
  simp [votersOn, and_assoc]

theorem nodup_votersOn (hs : Consistent s) (target : Address) : (s.votersOn target).Nodup := by
  refine List.pairwise_map.mpr ((hs.distinct.filter _).imp_of_mem ?_)
  intro v w hv hw hne he
  have hv : v.target = target := by simpa using (List.mem_filter.mp hv).2
  have hw : w.target = target := by simpa using (List.mem_filter.mp hw).2
  exact hne ⟨he, hv.trans hw.symm⟩

theorem length_votersOn (hs : Consistent s) {t : Tally} (ht : s.tally.find? target = some t) :
    (s.votersOn target).length = t.votes := by
  have hcount := hs.counts target
  rw [ht] at hcount
  split at hcount
  · cases hcount
  · obtain rfl := Option.some.inj hcount
    rw [votersOn, List.length_map, onTarget, List.countP_eq_length_filter]

theorem settle_committee {a : Address}
    (hne : (s.settle target).committee.contains a ≠ s.committee.contains a) :
    a = target ∧ ∃ t, s.tally.find? target = some t ∧ s.committee.quorum ≤ t.votes := by
  unfold settle at hne
  split at hne
  · exact absurd rfl hne
  · rename_i t ht
    split at hne
    · exact absurd rfl hne
    · rename_i hq
      refine ⟨?_, t, ht, Nat.not_lt.mp hq⟩
      by_contra ha
      apply hne
      split
      · exact Bool.eq_iff_iff.mpr (Committee.contains_add?.trans (or_iff_right ha))
      · exact Bool.eq_iff_iff.mpr (Committee.contains_remove?.trans (and_iff_right ha))

/-- A vote that is counted changes nothing but the membership of its target. A quorum of members has
voted for the change then. -/
theorem countVote_changes (hs : Consistent s) (hm : s.committee.contains v.signer) {a : Address}
    (hne : (s.countVote v).committee.contains a ≠ s.committee.contains a) :
    a = v.target ∧ ∃ voters : List Address, voters.Nodup ∧ s.committee.quorum ≤ voters.length ∧
      ∀ x ∈ voters, x ∈ s.committee.members ∧
        ∃ w, (w = v ∨ w ∈ s.votes ∧ ¬ (w.signer = v.signer ∧ w.target = v.target)) ∧
          w.signer = x ∧ w.target = a ∧ w.authorize = (s.countVote v).committee.contains a := by
  have hcom := withdraw_cast_committee s v
  have hcons := withdraw_cast_consistent hs hm
  rw [← hcom] at hne
  obtain ⟨rfl, t, ht, hq⟩ := settle_committee hne
  refine ⟨rfl, _, nodup_votersOn hcons v.target, ?_, fun x hx => ?_⟩
  · rw [length_votersOn hcons ht, ← hcom]
    exact hq
  · obtain ⟨w, hw, hwt, rfl⟩ := mem_votersOn.mp hx
    refine ⟨?_, w, ?_, rfl, hwt, ?_⟩
    · rw [← hcom]
      exact Committee.contains_iff.mp (hcons.signed w hw)
    · rcases mem_cast hw with hw | hw
      · exact .inr ⟨mem_withdraw hw, withdraw_fresh hs w hw⟩
      · exact .inl hw
    · -- the vote goes the only way that was open before the change
      rw [hcons.directed w hw, hwt, direction]
      exact (Bool.eq_not.mpr hne).symm

end Votes

section Headers

variable [Scheme] {s t : Snapshot} {epoch : Epoch} {headers : List Header} {h : Header}

theorem Stands.push {author target : Address} {authorize : Bool}
    (hs : Stands epoch headers author target authorize)
    (hc : epoch.isCheckpoint h.number = false)
    (hv : h.author = some author → ∀ v ∈ h.vote, v.target ≠ target) :
    Stands epoch (headers ++ [h]) author target authorize := by
  obtain ⟨earlier, g, later, rfl, ha, hg, hk, hl⟩ := hs
  refine ⟨earlier, g, later ++ [h], by simp, ha, hg, fun k hkm => ?_, fun k hkm => ?_⟩
  · rw [← List.cons_append, List.mem_append, List.mem_singleton] at hkm
    rcases hkm with hkm | rfl
    · exact hk k hkm
    · exact hc
  · rw [List.mem_append, List.mem_singleton] at hkm
    rcases hkm with hkm | rfl
    · exact hl k hkm
    · exact hv

theorem stands_of_last {author : Address} {v : MembershipVote} (ha : h.author = some author)
    (hv : h.vote = some v) (hc : epoch.isCheckpoint h.number = false) :
    Stands epoch (headers ++ [h]) author v.target v.authorize :=
  ⟨headers, h, [], rfl, ha, hv, by simpa using hc, by simp⟩

def Recorded (headers : List Header) (s : Snapshot) : Prop :=
  ∀ v ∈ s.votes, Stands s.epoch headers v.signer v.target v.authorize

theorem Recorded.stands (hr : Recorded headers s) {author : Address} {v : MembershipVote} {w : Vote}
    (ha : h.author = some author) (hv : h.vote = some v)
    (hc : s.epoch.isCheckpoint h.number = false)
    (hw : w = ⟨author, h.number, v.target, v.authorize⟩ ∨
      w ∈ s.votes ∧ ¬ (w.signer = author ∧ w.target = v.target)) :
    Stands s.epoch (headers ++ [h]) w.signer w.target w.authorize := by
  rcases hw with rfl | ⟨hw, hne⟩
  · exact stands_of_last ha hv hc
  · apply (hr w hw).push hc
    intro hsigner x hx ht
    obtain rfl := Option.some.inj (hv.symm.trans hx)
    exact hne ⟨Option.some.inj (hsigner.symm.trans ha), ht.symm⟩

theorem applyHeader_recorded (hs : Consistent s) (hr : Recorded headers s)
    (ha : s.applyHeader h = .ok t) : Recorded (headers ++ [h]) t := by
  obtain ⟨author, hauth, -, ⟨-, rfl⟩ | ⟨hc, hv, rfl⟩ | ⟨v, hc, hv, rfl⟩⟩ := applyHeader_ok.mp ha
  · intro w hw
    cases hw
  · intro w hw
    exact (hr w hw).push hc (by simp [hv])
  · intro w hw
    rw [(countVote_frame _ _).2.2]
    exact hr.stands hauth hv hc (mem_countVote (s := s.moveTo h) (hs.moveTo h) hw)

theorem apply_recorded {number : Height} {hash : Digest} {committee : Committee}
    (ha : (initial epoch number hash committee).apply headers = .ok s) :
    s.epoch = epoch ∧ Consistent s ∧ Recorded headers s := by
  induction headers using List.reverseRecOn generalizing s with
  | nil =>
    rw [apply_nil] at ha
    cases ha
    refine ⟨rfl, initial_consistent epoch number hash committee, ?_⟩
    intro v hv
    cases hv
  | append_singleton headers h ih =>
    obtain ⟨u, hu, ha⟩ := apply_append.mp ha
    obtain ⟨-, -, t, ht, ha⟩ := apply_cons.mp ha
    rw [apply_nil] at ha
    cases ha
    obtain ⟨hep, hcons, hrec⟩ := ih hu
    exact ⟨(applyHeader_frame ht).2.2.trans hep, applyHeader_consistent hcons ht,
      applyHeader_recorded hcons hrec ht⟩

/-- In whatever headers are applied to a snapshot with nothing pending, each one changes the membership
of the target of its vote at most, and none if it is a checkpoint. A quorum of the members before the
header has votes for that change which stand. -/
theorem membership_changes {number : Height} {hash : Digest} {committee : Committee}
    (ha : (initial epoch number hash committee).apply headers = .ok s) :
    ∀ earlier h later, headers = earlier ++ h :: later →
      ∃ before after, (initial epoch number hash committee).apply earlier = .ok before ∧
        before.applyHeader h = .ok after ∧ after.apply later = .ok s ∧
        ∀ a, after.committee.contains a ≠ before.committee.contains a →
          epoch.isCheckpoint h.number = false ∧ (∃ authorize, h.vote = some ⟨a, authorize⟩) ∧
          ∃ voters : List Address, voters.Nodup ∧ before.committee.quorum ≤ voters.length ∧
            ∀ x ∈ voters, x ∈ before.committee.members ∧
              Stands epoch (earlier ++ [h]) x a (after.committee.contains a) := by
  rintro earlier h later rfl
  obtain ⟨before, hbefore, ha⟩ := apply_append.mp ha
  obtain ⟨-, -, after, hafter, hlater⟩ := apply_cons.mp ha
  refine ⟨before, after, hbefore, hafter, hlater, ?_⟩
  intro a hne
  obtain ⟨rfl, hcons, hrec⟩ := apply_recorded hbefore
  obtain ⟨author, hauth, hm, ⟨-, rfl⟩ | ⟨-, -, rfl⟩ | ⟨v, hc, hv, rfl⟩⟩ := applyHeader_ok.mp hafter
  · exact absurd rfl hne
  · exact absurd rfl hne
  · obtain ⟨hav, voters, hnodup, hq, hvoters⟩ := countVote_changes
      (v := ⟨author, h.number, v.target, v.authorize⟩) (hcons.moveTo h) hm hne
    refine ⟨hc, ⟨v.authorize, hav ▸ hv⟩, voters, hnodup, hq, ?_⟩
    intro x hx
    obtain ⟨hmem, w, hw, rfl, hwt, hwa⟩ := hvoters x hx
    have hstands := hrec.stands hauth hv hc hw
    rw [hwt, hwa] at hstands
    exact ⟨hmem, hstands⟩

end Headers

section Example

attribute [local instance] Scheme.plain

def exampleStart : Snapshot := initial 10 0 7 (.ofList [1, 2, 3] .roundRobin)

def exampleSecond : Header :=
  let unsealed : Header := ⟨examplePoll.hash, 2, 0, engineMarker, 0, some ⟨9, true⟩, Extra.empty⟩
  { unsealed with
    extra := { Extra.empty with proposerSeal := (Signer.plain 3).sign unsealed.sealHash } }

/-- Members 2 and 3 of three vote for the stranger 9, who joins with the second vote. -/
theorem membership_changes_second :
    ∃ before after, exampleStart.apply [examplePoll] = .ok before ∧
      exampleStart.apply [examplePoll, exampleSecond] = .ok after ∧
      before.committee.members = [1, 2, 3] ∧ after.committee.members = [1, 2, 3, 9] ∧
      ∃ voters : List Address, voters.Nodup ∧ 2 ≤ voters.length ∧
        ∀ x ∈ voters, x ∈ [1, 2, 3] ∧ Stands 10 [examplePoll, exampleSecond] x 9 true := by
  have hfirst : (exampleStart.apply [examplePoll]).toOption.map (·.committee.members) =
      some [1, 2, 3] := by decide +kernel
  have hboth : (exampleStart.apply [examplePoll, exampleSecond]).toOption.map (·.committee.members) =
      some [1, 2, 3, 9] := by decide +kernel
  cases ha : exampleStart.apply [examplePoll, exampleSecond] with
  | error e =>
    rw [ha] at hboth
    cases hboth
  | ok after =>
    obtain ⟨before, t, hbefore, -, ht, hchange⟩ :=
      membership_changes ha [examplePoll] exampleSecond [] rfl
    change exampleStart.apply [examplePoll] = .ok before at hbefore
    rw [apply_nil] at ht
    obtain rfl := Except.ok.inj ht
    rw [hbefore] at hfirst
    rw [ha] at hboth
    have hb : before.committee.members = [1, 2, 3] := Option.some.inj hfirst
    have hm : t.committee.members = [1, 2, 3, 9] := Option.some.inj hboth
    have hin : t.committee.contains 9 = true := by simp [Committee.contains, hm]
    have hout : before.committee.contains 9 = false := by simp [Committee.contains, hb]
    obtain ⟨-, -, voters, hn, hq, hv⟩ := hchange 9 (by rw [hin, hout]; decide)
    have hq2 : before.committee.quorum = 2 := by
      simp [Committee.quorum, Committee.faults, Committee.size, hb]
    rw [hin, hb] at hv
    rw [hq2] at hq
    exact ⟨before, t, hbefore, rfl, hb, hm, voters, hn, hq, hv⟩

end Example

end BlockAgreement.Snapshot
