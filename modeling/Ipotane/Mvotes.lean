import Ipotane.Core.Effect
import Ipotane.Lib.History
import Ipotane.Replay

/-! One vote per round of the agreement. -/
namespace Ipotane.Core

open Lib Handler

section Mvotes

variable [Crypto] {cfg : Config} {s t : Core} {x : ℕ × Event}

def sentVote : ℕ × Event → Option MVote
  | (_, .send (.SMVBAVote m) _ _) => some m
  | _ => none

def signedVote : ℕ × Event → Option MVote
  | (_, .sign (.mvote m)) => some m
  | _ => none

/-- The votes that a node has broadcast, the newest first. -/
def mvotesSent (s : Core) : List MVote := s.trace.filterMap sentVote

def mvotesSigned (s : Core) : List MVote := s.trace.filterMap signedVote

def SameRound (m n : MVote) : Prop := m.epoch = n.epoch ∧ m.height = n.height ∧ m.round = n.round

instance (m n : MVote) : Decidable (SameRound m n) :=
  inferInstanceAs (Decidable (m.epoch = n.epoch ∧ m.height = n.height ∧ m.round = n.round))

/-- No two broadcasts are of one epoch, height and round. -/
def MvotesOnce (s : Core) : Prop := s.mvotesSent.Pairwise fun m n => ¬ SameRound m n

instance (s : Core) : Decidable s.MvotesOnce :=
  inferInstanceAs (Decidable (List.Pairwise _ _))

/-- The node has voted in the round. -/
def VotedIn (e height round : ℕ) : ℕ × Event → Prop
  | (e', .sign (.mvote m)) => e' = e ∧ m.height = height ∧ m.round = round
  | _ => False

instance (e height round : ℕ) (x : ℕ × Event) : Decidable (VotedIn e height round x) := by
  obtain ⟨_, x⟩ := x
  unfold VotedIn
  rcases x
  case sign item => rcases item <;> infer_instance
  all_goals infer_instance

/-- Prevotes and shares are not of a later epoch, a round is not reset once the node has voted in
it, and a termination leaves the node two heights ahead. -/
def Steady (x : ℕ × Event) (past : List (ℕ × Event)) : Prop :=
  match x with
  | (e, .receive (.SMVBAPreVote m)) => m.epoch ≤ e
  | (e, .receive (.SPBDoneAndShare m)) => m.share.epoch ≤ e
  | (e, .reset height round) => ∀ y ∈ past, ¬ VotedIn e height round y
  | (_, .terminate k reached _) => k + 2 ≤ reached
  | _ => True

instance (x : ℕ × Event) (past : List (ℕ × Event)) : Decidable (Steady x past) := by
  obtain ⟨_, x⟩ := x
  unfold Steady
  rcases x
  case receive m => rcases m <;> infer_instance
  all_goals infer_instance

/-! ### Signatures and broadcasts -/

/-- A vote is broadcast right after it is signed. -/
def Follows (x : ℕ × Event) (past : List (ℕ × Event)) : Prop :=
  ∀ m, sentVote x = some m → ∃ e, past.head? = some (e, .sign (.mvote m))

theorem sent_sublist : ∀ l : List (ℕ × Event), Along Follows l →
    (l.filterMap sentVote).Sublist (l.filterMap signedVote)
  | [], _ => List.Sublist.slnil
  | x :: l, h => by
    cases hx : sentVote x with
    | none =>
      rw [List.filterMap_cons_none hx]
      have ih := sent_sublist l h.2
      cases hy : signedVote x with
      | none => rwa [List.filterMap_cons_none hy]
      | some m =>
        rw [List.filterMap_cons_some hy]
        exact ih.cons m
    | some m =>
      -- the entry before is the signature of this vote
      obtain ⟨e, hhead⟩ := h.1 m hx
      obtain ⟨past, rfl⟩ := List.head?_eq_some_iff.mp hhead
      have ih := sent_sublist past h.2.2
      have hy : signedVote x = none := by
        unfold sentVote at hx
        split at hx
        · rfl
        · cases hx
      rw [List.filterMap_cons_some hx, List.filterMap_cons_none hy]
      exact ih.cons_cons m

theorem sentVote_eq {m : MVote} (h : sentVote x = some m) :
    ∃ dest tag, x.2 = .send (.SMVBAVote m) dest tag := by
  unfold sentVote at h
  split at h
  · cases h
    exact ⟨_, _, rfl⟩
  · cases h

theorem signedVote_eq {m : MVote} (h : signedVote x = some m) : x.2 = .sign (.mvote m) := by
  unfold signedVote at h
  split at h
  · cases h
    rfl
  · cases h

theorem mem_mvotesSigned {m : MVote} (h : m ∈ s.mvotesSigned) :
    ∃ e, (e, .sign (.mvote m)) ∈ s.trace := by
  obtain ⟨⟨e, y⟩, hx, hm⟩ := List.mem_filterMap.mp h
  cases signedVote_eq hm
  exact ⟨e, hx⟩

theorem Records.sendVote_inv {m : MVote} {dest : Option PublicKey} {tag : ℕ}
    (h : Records cfg s t (.send (.SMVBAVote m) dest tag)) :
    s.trace.head? = some (s.epoch, .sign (.mvote m)) ∧
    t = s.log (.send (.SMVBAVote m) dest tag) := by
  cases h with
  | opt h => exact h.elim
  | pes _ h ht => exact ⟨h.1, ht⟩

theorem Step.follows (h : Step cfg s t) (hs : Along Follows s.trace) : Along Follows t.trace := by
  obtain ⟨new, heq, hnew⟩ := h.grown
  by_cases hsent : ∃ x ∈ new, ∃ m, sentVote x = some m
  · obtain ⟨⟨e, y⟩, hx, m, hm⟩ := hsent
    obtain ⟨dest, tag, hy⟩ := sentVote_eq hm
    cases hy
    obtain ⟨hhead, rfl⟩ := (hnew _ hx).2.sendVote_inv
    refine ⟨?_, hs⟩
    intro n hn
    cases hn
    exact ⟨_, hhead⟩
  · rw [heq]
    refine hs.append ?_
    intro x hx past _ m hm
    exact absurd ⟨x, hx, m, hm⟩ hsent

/-! ### The votes of a step -/

theorem Records.mvote_inv {m : MVote} (h : Records cfg s t (.sign (.mvote m))) :
    ∃ p tag, s.Open cfg p ∧ m = mvoteOn cfg p tag ∧ t.mvotesSigned = m :: s.mvotesSigned ∧
      t.flagged (p.height, p.round) = true := by
  cases h with
  | opt h => exact h.elim
  | pes _ h => exact h.elim
  | mvoteYes _ ho _ _ ht =>
    refine ⟨_, _, ho, rfl, ?_, ?_⟩
    · rw [ht]
      rfl
    · rw [ht]
      simp [flagged, raiseYes, Map.getD_insert]
  | mvoteNo _ ho _ _ ht =>
    refine ⟨_, _, ho, rfl, ?_, ?_⟩
    · rw [ht]
      rfl
    · rw [ht]
      simp [flagged, raiseNo, Map.getD_insert]

/-- A step signs no vote, or one that finds the flags of its round down and raises one. -/
theorem Step.mvotes_cases (h : Step cfg s t) : t.mvotesSigned = s.mvotesSigned ∨
    ∃ p tag, s.Open cfg p ∧ t.mvotesSigned = mvoteOn cfg p tag :: s.mvotesSigned ∧
      t.flagged (p.height, p.round) = true := by
  obtain ⟨new, heq, hnew⟩ := h.grown
  by_cases hsigned : ∃ x ∈ new, ∃ m, signedVote x = some m
  · obtain ⟨⟨e, y⟩, hx, m, hm⟩ := hsigned
    cases signedVote_eq hm
    obtain ⟨p, tag, ho, rfl, hsign, hflag⟩ := (hnew _ hx).2.mvote_inv
    exact .inr ⟨p, tag, ho, hsign, hflag⟩
  · refine .inl ?_
    have hnone : new.filterMap signedVote = [] := by
      refine List.filterMap_eq_nil_iff.mpr ?_
      intro x hx
      by_contra hne
      obtain ⟨m, hm⟩ := Option.ne_none_iff_exists'.mp hne
      exact hsigned ⟨x, hx, m, hm⟩
    rw [mvotesSigned, heq, List.filterMap_append, hnone]
    rfl

/-! ### Epochs -/

/-- Prevotes, shares and coins are not of an epoch after that of their entry, and votes are of
that very epoch. -/
def Current : ℕ × Event → Prop
  | (e, .receive (.SMVBAPreVote m)) | (e, .send (.SMVBAPreVote m) _ _)
  | (e, .keep (.SMVBAPreVote m)) =>
    m.epoch ≤ e
  | (e, .receive (.SPBDoneAndShare m)) | (e, .send (.SPBDoneAndShare m) _ _)
  | (e, .keep (.SPBDoneAndShare m)) | (e, .sign (.done m)) => m.share.epoch ≤ e
  | (e, .sign (.share x)) => x.epoch ≤ e
  | (e, .coin c) => c.epoch ≤ e
  | (e, .sign (.mvote m)) => m.epoch = e
  | _ => True

structure MvoteInv (s : Core) : Prop where
  timely : s.Timely
  current : ∀ x ∈ s.trace, Current x
  follows : Along Follows s.trace
  voted : ∀ m, s.Did (.sign (.mvote m)) →
    s.flagged (m.height, m.round) = true ∨ m.height + 2 ≤ s.height
  once : s.mvotesSigned.Pairwise fun m n => ¬ SameRound m n

theorem MvoteInv.done_epoch (hs : MvoteInv s) {m : MDoneAndShare}
    (h : s.Hears (.SPBDoneAndShare m)) : m.share.epoch ≤ s.epoch := by
  rcases h with h | ⟨tag, h⟩ | h
  · exact hs.current _ h
  · exact hs.current _ h
  · exact hs.current _ h

theorem MvoteInv.prevote_epoch (hs : MvoteInv s) {m : MPreVote} (h : s.Open cfg m) :
    m.epoch = s.epoch := by
  refine le_antisymm ?_ h.taken.fresh.1
  rcases h.taken.hears with h | ⟨tag, h⟩ | h
  · exact hs.current _ h
  · exact hs.current _ h
  · exact hs.current _ h

theorem Issues.current (hs : MvoteInv s) {m : ConsensusMessage} (h : s.Issues cfg m)
    (dest : Option PublicKey) (tag : ℕ) :
    Current (s.epoch, .send m dest tag) ∧ Current (s.epoch, .keep m) := by
  cases m with
  | SPBDoneAndShare m =>
    have hm : m.share.epoch ≤ s.epoch := hs.current _ h
    exact ⟨hm, hm⟩
  | SMVBAPreVote m =>
    obtain ⟨-, c, hc, -, hm, -⟩ := h
    have hle : m.epoch ≤ s.epoch := by
      rw [hm]
      exact hs.current _ hc
    exact ⟨hle, hle⟩
  | _ => exact ⟨trivial, trivial⟩

theorem OptLog.current {y : Event} (h : s.OptLog cfg y) : Current (s.epoch, y) := by
  unfold OptLog at h
  split at h <;> trivial

theorem PesLog.current (hs : MvoteInv s) {y : Event} (h : s.PesLog cfg y) :
    Current (s.epoch, y) := by
  unfold PesLog at h
  split at h
  case h_4 =>
    rw [h.2.2]
    exact le_rfl
  case h_5 =>
    have hshare := hs.current _ h.2.2.1
    exact hshare
  case h_8 => exact (h.1.current hs _ _).1
  case h_9 => exact (h.1.current hs none 0).2
  all_goals trivial

theorem Records.current (hs : MvoteInv s) {y : Event} (h : Records cfg s t y) :
    Current (s.epoch, y) := by
  cases h with
  | opt h => exact h.current
  | pes _ h => exact h.current hs
  | coin _ hm _ _ _ _ _ =>
    obtain ⟨m, hm, -, -, he⟩ := hm
    have hle := hs.done_epoch hm
    rwa [he] at hle
  | mvoteYes _ ho _ _ _ => exact hs.prevote_epoch ho
  | mvoteNo _ ho _ _ _ => exact hs.prevote_epoch ho
  | _ => trivial

/-! ### The invariant -/

/-- A vote of the epoch keeps its round closed. -/
theorem MvoteInv.voted_step (hs : MvoteInv s) (hc : Along Steady t.trace) (h : Step cfg s t)
    {m : MVote} (hm : s.Did (.sign (.mvote m))) :
    t.flagged (m.height, m.round) = true ∨ m.height + 2 ≤ t.height := by
  have hle := h.height_le
  rcases hs.voted m hm with hf | hh
  · rcases h.flagged hf with hf | ⟨past, hsuf, hpast⟩ | ⟨k, hk, _, hclean⟩
    · exact .inl hf
    · -- the reset would come after the vote
      have hreset := (hc.suffix hsuf).1
      exact absurd ⟨rfl, rfl, rfl⟩ (hreset _ (hpast.subset hm))
    · obtain ⟨past, _, hreach⟩ := hc.of_mem hclean
      have : k + 2 ≤ t.height := hreach
      simp only at hk
      exact .inr (by omega)
  · exact .inr (by omega)

/-- A prevote that finds the flags down is not of a round in which the node has voted. -/
theorem MvoteInv.fresh (hs : MvoteInv s) {p : MPreVote} (ho : s.Open cfg p) {n : MVote}
    (hn : n ∈ s.mvotesSigned) (tag : MVoteTag) : ¬ SameRound (mvoteOn cfg p tag) n := by
  rintro ⟨he, hh, hr⟩
  obtain ⟨e, hmem⟩ := mem_mvotesSigned hn
  have hdate : n.epoch = e := hs.current _ hmem
  have hepoch : e = s.epoch := by
    rw [← hdate, ← he]
    exact hs.prevote_epoch ho
  subst hepoch
  have hkey : (n.height, n.round) = (p.height, p.round) := by
    rw [← hh, ← hr]
    rfl
  rcases hs.voted n hmem with hf | hlow
  · rw [hkey, flagged, ho.yes, ho.no] at hf
    cases hf
  · have hfresh := ho.taken.fresh.2
    have hph : p.height = n.height := hh
    omega

theorem MvoteInv.step (hs : MvoteInv s) (hc : Along Steady t.trace) (h : Step cfg s t) :
    MvoteInv t := by
  have he := h.extends.epoch
  refine ⟨hs.timely.step h, ?_, h.follows hs.follows, ?_, ?_⟩
  · rintro ⟨e, y⟩ hx
    rcases h.recorded hx with hx | ⟨hx, hr⟩
    · exact hs.current _ hx
    · simp only at hx
      rw [hx]
      exact hr.current hs
  · intro m hm
    unfold Did at hm
    rw [he] at hm
    rcases h.recorded hm with hm | ⟨_, hr⟩
    · exact hs.voted_step hc h hm
    · obtain ⟨p, tag, _, rfl, _, hflag⟩ := hr.mvote_inv
      exact .inl hflag
  · rcases h.mvotes_cases with hsame | ⟨p, tag, ho, hsign, _⟩
    · rw [hsame]
      exact hs.once
    · rw [hsign]
      refine List.pairwise_cons.mpr ⟨?_, hs.once⟩
      intro n hn
      exact hs.fresh ho hn tag

theorem MvoteInv.take (hs : MvoteInv s) {m : ConsensusMessage}
    (hc : Along Steady (s.log (.receive m)).trace) : MvoteInv (s.log (.receive m)) := by
  refine ⟨hs.timely.take m, ?_, ⟨?_, hs.follows⟩, ?_, hs.once⟩
  · intro x hx
    rcases List.mem_cons.mp hx with rfl | hx
    · cases m with
      | SMVBAPreVote m => exact hc.1
      | SPBDoneAndShare m => exact hc.1
      | _ => trivial
    · exact hs.current x hx
  · intro n hn
    cases hn
  · intro n hn
    exact hs.voted n (mem_take hn trivial)

theorem MvoteInv.renewed (hs : MvoteInv s) : MvoteInv s.renewed := by
  obtain ⟨new, heq, hnew⟩ := renewed_grown s
  have hnone : ∀ x ∈ new, sentVote x = none ∧ signedVote x = none := by
    rintro ⟨e, y⟩ hx
    have hy := (hnew _ hx).2
    constructor
    · cases hsent : sentVote (e, y) with
      | none => rfl
      | some m =>
        obtain ⟨dest, tag, hev⟩ := sentVote_eq hsent
        simp only at hev hy
        rw [hev] at hy
        exact absurd trivial hy
    · cases hsign : signedVote (e, y) with
      | none => rfl
      | some m =>
        have hev := signedVote_eq hsign
        simp only at hev hy
        rw [hev] at hy
        exact absurd trivial hy
  refine ⟨hs.timely.renewed, ?_, ?_, fun m hm => (hs.timely.not_renewed_did hm trivial).elim, ?_⟩
  · intro x hx
    rcases mem_renewed_trace hx with hx | rfl | ⟨m, rfl, _⟩
    · exact hs.current x hx
    · trivial
    · trivial
  · rw [heq]
    refine hs.follows.append ?_
    intro x hx past _ m hm
    rw [(hnone x hx).1] at hm
    cases hm
  · have hnil : new.filterMap signedVote = [] :=
      List.filterMap_eq_nil_iff.mpr fun x hx => (hnone x hx).2
    rw [mvotesSigned, heq, List.filterMap_append, hnil]
    exact hs.once

theorem MvoteInv.new : MvoteInv .new := by
  refine ⟨.new, ?_, ⟨?_, trivial⟩, ?_, List.Pairwise.nil⟩
  · intro x hx
    cases List.mem_singleton.mp hx
    trivial
  · intro m hm
    cases hm
  · intro m hm
    exact (not_own_of_new hm trivial).elim

theorem MvoteInv.reachable {alive : Bool} (h : Reachable cfg s alive)
    (hc : Along Steady s.trace) : MvoteInv s := by
  refine (h.invariant (fun l l' hl => Along.suffix hl) MvoteInv.new ?_ ?_).2 hc
  · exact fun s m hs hc => hs.take hc
  · intro s t _ hs hc ht
    cases ht with
    | step ht => exact hs.step hc ht
    | epoch _ ht => exact ht ▸ hs.renewed

end Mvotes

end Ipotane.Core

namespace Ipotane

open Lib

theorem mvotesOnce_of_steady [Crypto] {S : Setup} {w : World} {k : PublicKey} (h : S.Runs w)
    (hc : Along Core.Steady (w.core k).trace) : (w.core k).MvotesOnce := by
  have hs := Core.MvoteInv.reachable (h.reachable k) hc
  exact hs.once.sublist (Core.sent_sublist _ hs.follows)

/-! ### A round that is reset after the vote -/

/-- The four nodes with verification switched off. -/
def uncheckedSetup : Setup :=
  { sampleSetup with parameters := { sampleParameters with exp := 0 } }

/-- Node `0` stays at height `1` while the others reach height `2` and agree on it. Node `1` is
elected, and only node `1` has its lock. -/
def toPrevote : List Act :=
  [.boot 0, .boot 1, .boot 2, .boot 3, .deliver 2 1 0, .deliver 3 1 0, .deliver 2 1 2,
    .deliver 2 3 1, .deliver 1 2 2, .deliver 3 1 7, .deliver 3 2 2, .deliver 3 2 6, .deliver 0 3 7,
    .deliver 1 3 7, .deliver 2 3 7, .deliver 2 0 0, .deliver 3 0 0, .deliver 0 2 9, .deliver 0 3 12,
    .deliver 2 0 1, .deliver 3 0 1, .deliver 0 2 10, .deliver 0 3 13, .deliver 0 2 8,
    .deliver 2 0 3, .deliver 3 2 8, .deliver 2 3 14, .deliver 0 2 11, .deliver 2 0 4,
    .deliver 3 2 11, .deliver 2 3 15, .deliver 0 3 8, .deliver 3 0 5, .deliver 2 3 8,
    .deliver 3 2 13, .deliver 0 3 16, .deliver 3 0 6, .deliver 2 3 16, .deliver 3 2 14,
    .deliver 2 1 9, .deliver 3 1 9, .deliver 1 2 15, .deliver 1 3 18, .deliver 2 0 2,
    .deliver 3 0 2, .deliver 3 2 12, .deliver 2 3 17, .deliver 1 2 16, .deliver 3 2 16,
    .deliver 1 3 19, .deliver 2 1 11, .deliver 0 1 12]

/-- Node `0` takes the block of height `2`, then the coin and the prevotes of the other nodes. -/
def toSecondVote : List Act :=
  [.deliver 0 2 2, .deliver 0 1 11, .deliver 0 2 16, .deliver 0 2 17, .deliver 0 3 20]

theorem mvotesOnce_before_the_height_is_entered : ∃ w, uncheckedSetup.Runs w ∧
    (w.core 0).mvotesSent ≠ [] ∧ (w.core 0).MvotesOnce := by
  obtain ⟨w, hr, hm, hc⟩ := exists_play uncheckedSetup toPrevote
    (fun w => (w.core 0).mvotesSent ≠ [] ∧ Along Core.Steady (w.core 0).trace)
    (by decide +kernel) (by decide +kernel)
  exact ⟨w, hr, hm, mvotesOnce_of_steady hr hc⟩

/-- Node `0` votes `Yes`, enters height `2` and votes `No` in the same round. -/
theorem not_mvotesOnce_after_the_height_is_entered :
    ¬ ∀ (S : Setup) (w : World) (k : PublicKey), S.Runs w → (w.core k).MvotesOnce := by
  intro h
  obtain ⟨w, hr, hm⟩ := exists_play uncheckedSetup (toPrevote ++ toSecondVote)
    (fun w => ¬ (w.core 0).MvotesOnce) (by decide +kernel) (by decide +kernel)
  exact hm (h _ w 0 hr)

end Ipotane
