import BlockAgreement.Gossip
import BlockAgreement.Proofs.Gossip.Recency

/-!
# What is remembered of the messages around

Two least-recently-used memories are one inside the other: when a peer is forgotten, so are the payloads
that it has. What a query answers is read off the history of the marks alone: which payloads a peer was
marked with since it was last forgotten, and how many others came after each.
-/

set_option autoImplicit false

namespace BlockAgreement.Gossip

deriving instance DecidableEq for Gossip

open Lru (Fresh Forgotten)

/-- What is asked of the memory. -/
inductive Call where
  | markPeer (peer : Address) (payload : Digest)
  | peerHas (peer : Address) (payload : Digest)
  | markKnown (payload : Digest)
  | isKnown (payload : Digest)
  deriving DecidableEq, Repr

namespace Call

def isMark : Call → Bool
  | markPeer _ _ => true
  | markKnown _ => true
  | _ => false

def heard? : Call → Option (Address × Digest)
  | markPeer peer payload => some (peer, payload)
  | _ => none

def handled? : Call → Option Digest
  | markKnown payload => some payload
  | _ => none

end Call

def call (g : Gossip) : Call → Bool × Gossip
  | .markPeer peer payload => g.markPeer peer payload
  | .peerHas peer payload => (g.peerHas peer payload, g)
  | .markKnown payload => g.markKnown payload
  | .isKnown payload => (g.isKnown payload, g)

def calls (g : Gossip) (cs : List Call) : Gossip := cs.foldr (fun c g => (g.call c).2) g

def payloadsOf (peer : Address) (ms : List (Address × Digest)) : List Digest :=
  (ms.filter (·.1 = peer)).map Prod.snd

/-- At no moment of these marks, which follow the rest, is the peer forgotten: that as many as `peers`
others have been marked after it. -/
def Kept (peers : Nat) (peer : Address) (newer rest : List (Address × Digest)) : Prop :=
  ∀ later earlier, newer = later ++ earlier → ¬ Forgotten peers ((earlier ++ rest).map Prod.fst) peer

/-- The peer has been marked with the payload after the last moment at which it was forgotten, and with
fewer than `payloads` others since the last such mark. The last mark stands first. -/
def Held (peers payloads : Nat) (ms : List (Address × Digest)) (peer : Address) (payload : Digest) :
    Prop :=
  ∃ newer older, ms = newer ++ (peer, payload) :: older ∧ (peer, payload) ∉ newer ∧
    Kept peers peer newer ((peer, payload) :: older) ∧ (payloadsOf peer newer).toFinset.card < payloads

variable {peers payloads : Nat} {ms newer older : List (Address × Digest)} {peer : Address}
  {payload : Digest} {m : Address × Digest} {g : Gossip}

theorem kept_nil : Kept peers peer [] older ↔ ¬ Forgotten peers (older.map Prod.fst) peer := by
  constructor
  · exact fun h => h [] [] rfl
  · intro h later earlier he
    obtain ⟨-, rfl⟩ := List.append_eq_nil_iff.mp he.symm
    exact h

theorem kept_cons : Kept peers peer (m :: newer) older ↔
    ¬ Forgotten peers ((m :: newer ++ older).map Prod.fst) peer ∧ Kept peers peer newer older := by
  constructor
  · intro h
    exact ⟨h [] (m :: newer) rfl, fun later earlier he => h (m :: later) earlier (by rw [he]; rfl)⟩
  · rintro ⟨hnow, hkept⟩ later earlier he
    cases later with
    | nil =>
      obtain rfl : m :: newer = earlier := he
      exact hnow
    | cons _ later => exact hkept later earlier (List.cons_eq_cons.mp he).2

theorem mem_payloadsOf : payload ∈ payloadsOf peer ms ↔ (peer, payload) ∈ ms := by
  simp [payloadsOf]

def since (peers : Nat) (peer : Address) : List (Address × Digest) → List Digest
  | [] => []
  | m :: ms =>
    if Fresh peers ((m :: ms).map Prod.fst) peer then
      if m.1 = peer then m.2 :: since peers peer ms else since peers peer ms
    else []

theorem since_of_not_fresh (h : ¬ Fresh peers (ms.map Prod.fst) peer) : since peers peer ms = [] := by
  cases ms with
  | nil => rfl
  | cons m ms => rw [since, if_neg h]

theorem fresh_of_not_forgotten
    (h : ¬ Forgotten peers ((newer ++ (peer, payload) :: older).map Prod.fst) peer) :
    Fresh peers ((newer ++ (peer, payload) :: older).map Prod.fst) peer := by
  rw [Lru.forgotten_iff, not_and_not_right] at h
  exact h (by simp)

theorem since_append (h : Kept peers peer newer ((peer, payload) :: older)) :
    since peers peer (newer ++ (peer, payload) :: older) =
      payloadsOf peer newer ++ payload :: since peers peer older := by
  induction newer with
  | nil =>
    have hnow : Fresh peers (([] ++ (peer, payload) :: older).map Prod.fst) peer :=
      fresh_of_not_forgotten (kept_nil.mp h)
    rw [List.nil_append] at hnow ⊢
    rw [since, if_pos hnow, if_pos rfl]
    rfl
  | cons m newer ih =>
    obtain ⟨hnow, hkept⟩ := kept_cons.mp h
    have hfresh := fresh_of_not_forgotten hnow
    rw [List.cons_append] at hfresh ⊢
    rw [since, if_pos hfresh, ih hkept]
    by_cases hm : m.1 = peer <;> simp [payloadsOf, hm]

theorem exists_append_of_since {front back : List Digest}
    (h : since peers peer ms = front ++ payload :: back) :
    ∃ newer older, ms = newer ++ (peer, payload) :: older ∧ payloadsOf peer newer = front ∧
      Kept peers peer newer ((peer, payload) :: older) := by
  induction ms generalizing front with
  | nil => simp [since] at h
  | cons m ms ih =>
    by_cases hfresh : Fresh peers ((m :: ms).map Prod.fst) peer
    swap
    · rw [since_of_not_fresh hfresh] at h
      simp at h
    have hnow : ¬ Forgotten peers ((m :: ms).map Prod.fst) peer := fun hf =>
      (Lru.forgotten_iff.mp hf).2 hfresh
    -- A mark further back stays where it is, with this one in front of it.
    have hextend {front : List Digest} (hs : since peers peer ms = front ++ payload :: back) :
        ∃ newer older, m :: ms = newer ++ (peer, payload) :: older ∧
          payloadsOf peer newer = payloadsOf peer [m] ++ front ∧
          Kept peers peer newer ((peer, payload) :: older) := by
      obtain ⟨newer, older, rfl, rfl, hkept⟩ := ih hs
      refine ⟨m :: newer, older, rfl, ?_, kept_cons.mpr ⟨hnow, hkept⟩⟩
      by_cases hm : m.1 = peer <;> simp [payloadsOf, hm]
    rw [since, if_pos hfresh] at h
    by_cases hm : m.1 = peer
    · rw [if_pos hm] at h
      cases front with
      | nil =>
        obtain ⟨hd, -⟩ := List.cons_eq_cons.mp h
        obtain rfl : m = (peer, payload) := Prod.ext hm hd
        exact ⟨[], ms, rfl, rfl, kept_nil.mpr hnow⟩
      | cons d front =>
        obtain ⟨rfl, hs⟩ := List.cons_eq_cons.mp h
        simpa [payloadsOf, hm] using hextend hs
    · rw [if_neg hm] at h
      simpa [payloadsOf, hm] using hextend h

theorem held_iff_fresh :
    Held peers payloads ms peer payload ↔ Fresh payloads (since peers peer ms) payload := by
  constructor
  · rintro ⟨newer, older, rfl, hnew, hkept, hfew⟩
    exact ⟨_, _, since_append hkept, fun h => hnew (mem_payloadsOf.mp h), hfew⟩
  · rintro ⟨front, back, hs, hfront, hfew⟩
    obtain ⟨newer, older, hms, rfl, hkept⟩ := exists_append_of_since hs
    exact ⟨newer, older, hms, fun h => hfront (mem_payloadsOf.mpr h), hkept, hfew⟩

structure Tracks (peers payloads : Nat) (ms : List (Address × Digest)) (g : Gossip) : Prop where
  perPeer : g.perPeer = payloads
  capacity : g.peers.capacity = peers
  follows : g.peers.Follows (ms.map Prod.fst)
  holds (peer : Address) : g.peers.peek? peer =
    if Fresh peers (ms.map Prod.fst) peer then
      some ((Lru.empty payloads : Lru Digest Unit).marks (since peers peer ms))
    else none

theorem empty_tracks (peers payloads : Nat) : Tracks peers payloads [] (empty peers payloads) where
  perPeer := rfl
  capacity := rfl
  follows := Lru.empty_follows _
  holds peer := by
    rw [if_neg fun h => by simpa using h.mem]
    rfl

theorem Tracks.getD_peek? (h : Tracks peers payloads ms g) (peer : Address) :
    (g.peers.peek? peer).getD (.empty g.perPeer) = (Lru.empty payloads).marks (since peers peer ms) := by
  rw [h.holds, h.perPeer]
  by_cases hf : Fresh peers (ms.map Prod.fst) peer
  · rw [if_pos hf, Option.getD_some]
  · rw [if_neg hf, since_of_not_fresh hf]
    rfl

theorem Tracks.markPeer (h : Tracks peers payloads ms g) (peer : Address) (payload : Digest) :
    Tracks peers payloads ((peer, payload) :: ms) (g.markPeer peer payload).2 := by
  have hfollows : (g.markPeer peer payload).2.peers.Follows (peer :: ms.map Prod.fst) := h.follows.put _ _
  refine ⟨h.perPeer, h.capacity, hfollows, fun other => ?_⟩
  have hthere := hfollows.contains_iff (k := other)
  rw [show (g.markPeer peer payload).2.peers.capacity = peers from h.capacity] at hthere
  rw [List.map_cons]
  by_cases hf : Fresh peers (peer :: ms.map Prod.fst) other
  · rw [if_pos hf, since, List.map_cons, if_pos hf]
    by_cases hp : peer = other
    · subst hp
      have hroom : 0 < g.peers.capacity := by
        obtain ⟨_, _, -, -, hn⟩ := hf
        exact h.capacity ▸ Nat.zero_lt_of_lt hn
      rw [if_pos rfl, Gossip.markPeer, Lru.peek?_put_self hroom, h.getD_peek?]
      rfl
    · have hother : other ∉ [peer] := by simpa using Ne.symm hp
      have hbefore : Fresh peers (ms.map Prod.fst) other := Fresh.of_append hf hother
      have hkept : (g.markPeer peer payload).2.peers.peek? other = g.peers.peek? other :=
        Lru.peek?_put_of_ne (Ne.symm hp) (hthere.mpr hf)
      rw [if_neg hp, hkept, h.holds, if_pos hbefore]
  · rw [if_neg hf]
    exact Option.not_isSome_iff_eq_none.mp fun hc => hf (hthere.mp hc)

theorem Tracks.peerHas (h : Tracks peers payloads ms g) :
    g.peerHas peer payload = true ↔ Held peers payloads ms peer payload := by
  rw [held_iff_fresh, Gossip.peerHas, h.holds]
  by_cases hf : Fresh peers (ms.map Prod.fst) peer
  · simp [if_pos hf, Lru.contains_marks]
  · simp only [if_neg hf, since_of_not_fresh hf]
    exact iff_of_false (by simp) fun h => by simpa using h.mem

theorem Tracks.withKnown (h : Tracks peers payloads ms g) (known : Lru Digest Unit) :
    Tracks peers payloads ms { g with known } :=
  ⟨h.perPeer, h.capacity, h.follows, h.holds⟩

theorem calls_tracks (peers payloads : Nat) (cs : List Call) :
    Tracks peers payloads (cs.filterMap Call.heard?) ((empty peers payloads).calls cs) := by
  induction cs with
  | nil => exact empty_tracks peers payloads
  | cons c cs ih =>
    cases c with
    | markPeer peer payload => exact ih.markPeer peer payload
    | peerHas => exact ih
    | markKnown => exact ih.withKnown _
    | isKnown => exact ih

theorem calls_known (peers payloads : Nat) (cs : List Call) :
    ((empty peers payloads).calls cs).known =
      (Lru.empty payloads).marks (cs.filterMap Call.handled?) := by
  induction cs with
  | nil => rfl
  | cons c cs ih =>
    cases c with
    | markKnown payload => exact congrArg (fun known => (known.mark payload).2) ih
    | _ => exact ih

theorem calls_marks (g : Gossip) (cs : List Call) : g.calls (cs.filter Call.isMark) = g.calls cs := by
  induction cs with
  | nil => rfl
  | cons c cs ih =>
    cases c with
    | markPeer peer payload => exact congrArg (fun g => (g.markPeer peer payload).2) ih
    | markKnown payload => exact congrArg (fun g => (g.markKnown payload).2) ih
    | _ => exact ih

theorem markPeer_fst (g : Gossip) (peer : Address) (payload : Digest) :
    (g.markPeer peer payload).1 = g.peerHas peer payload := by
  unfold Gossip.markPeer Gossip.peerHas
  cases g.peers.peek? peer <;> rfl

/-- A payload is known to have been handled until as many others have been as are remembered. A peer is
known to have a payload until it is forgotten, or as many others have been marked for it as are remembered
of one peer. To ask changes nothing, and a mark tells what a query would have told. -/
theorem forgets_least_recent (peers payloads : Nat) (cs : List Call) :
    let g := (empty peers payloads).calls cs
    (∀ payload, (g.call (.isKnown payload)).1 = true ↔
      Fresh payloads (cs.filterMap Call.handled?) payload) ∧
    (∀ peer payload, (g.call (.peerHas peer payload)).1 = true ↔
      Held peers payloads (cs.filterMap Call.heard?) peer payload) ∧
    (∀ payload, (g.call (.markKnown payload)).1 = (g.call (.isKnown payload)).1) ∧
    (∀ peer payload, (g.call (.markPeer peer payload)).1 = (g.call (.peerHas peer payload)).1) ∧
    (empty peers payloads).calls (cs.filter Call.isMark) = g := by
  intro g
  refine ⟨fun payload => ?_, fun peer payload => (calls_tracks peers payloads cs).peerHas,
    fun payload => rfl, markPeer_fst g, calls_marks _ cs⟩
  show g.known.contains payload = true ↔ _
  rw [calls_known, Lru.contains_marks]

end BlockAgreement.Gossip
