import Ipotane.Core.Record
import Ipotane.Symbolic

/-! One optimistic vote per epoch and height. -/
namespace Ipotane.Core

open Lib Handler

section Votes

variable [Crypto] {cfg : Config} {s t : Core} {x : ℕ × Event}

/-- No two optimistic votes of one epoch and height are for different blocks. -/
def VotesOnce (s : Core) : Prop :=
  ∀ v w, s.Ever (.sign (.vote v)) → s.Ever (.sign (.vote w)) → v.tag = OPT → w.tag = OPT →
    v.epoch = w.epoch → v.height = w.height → v.hash = w.hash

/-- A block that is handed back is of the epoch in which the node takes it. -/
def Prompt : ℕ × Event → Prop
  | (e, .receive (.HsLoopBack b)) => b.epoch = e
  | _ => True

instance : Decidable (Prompt x) := by
  obtain ⟨_, x⟩ := x
  unfold Prompt
  rcases x
  case receive m => rcases m <;> infer_instance
  all_goals infer_instance

/-- The blocks and votes of the optimistic path carry the epoch of their entry. -/
def Dated : ℕ × Event → Prop
  | (e, .sign (.block b)) | (e, .send (.HsPropose b) _ _) | (e, .process b _) => b.epoch = e
  | (e, .sign (.vote v)) => v.tag = OPT → v.epoch = e
  | _ => True

structure VoteInv (s : Core) : Prop where
  past : ∀ x ∈ s.trace, x.1 ≤ s.epoch ∧ Dated x
  bound : ∀ v, s.Did (.sign (.vote v)) → v.tag = OPT → v.height ≤ s.lastVotedHeight
  once : s.VotesOnce

theorem VoteInv.new : VoteInv .new := by
  refine ⟨?_, ?_, ?_⟩
  · intro x hx
    cases List.mem_singleton.mp hx
    exact ⟨le_rfl, trivial⟩
  · intro v hv
    cases List.mem_singleton.mp hv
  · rintro v w ⟨e, hv⟩
    cases List.mem_singleton.mp hv

theorem VoteInv.did (hs : VoteInv s) {y : Event} (h : s.Did y) : Dated (s.epoch, y) :=
  (hs.past _ h).2

theorem VoteInv.process (hs : VoteInv s) (hp : ∀ x ∈ s.trace, Prompt x) {b : Block}
    (h : s.Admits cfg b) : b.epoch = s.epoch := by
  cases h with
  | own h => exact hs.did h
  | proposal h => exact h.epoch
  | loopback h => exact hp _ h

theorem OptLog.dated (hs : VoteInv s) (hp : ∀ x ∈ s.trace, Prompt x) {y : Event}
    (h : s.OptLog cfg y) : Dated (s.epoch, y) := by
  unfold OptLog at h
  split at h
  · obtain ⟨payload, rfl⟩ := h
    rfl
  · have hb := hs.did h.1
    exact hb
  · trivial
  · trivial
  · trivial
  · trivial
  · exact hs.process hp h.1
  · trivial
  · trivial
  · trivial
  · trivial
  · exact h.elim

theorem PesLog.dated {y : Event} (h : s.PesLog cfg y) : Dated (s.epoch, y) := by
  unfold PesLog at h
  split at h
  case h_1 => exact h.1.epoch
  case h_2 =>
    obtain ⟨b, rfl, -⟩ := h
    intro ht
    cases ht
  case h_8 m dest tag =>
    cases m with
    | HsPropose b => exact h.1.elim
    | _ => trivial
  all_goals trivial

theorem Records.dated (hs : VoteInv s) (hp : ∀ x ∈ s.trace, Prompt x) {y : Event}
    (h : Records cfg s t y) : Dated (s.epoch, y) := by
  cases h with
  | opt h => exact h.dated hs hp
  | pes ha h => exact h.dated
  | fork ha hb => exact hb.epoch
  | vote hb hst hv hq hh ht =>
    intro _
    obtain ⟨height, hb⟩ := hb
    exact hs.did hb
  | _ => trivial

theorem Records.optVote {v : HVote} (h : Records cfg s t (.sign (.vote v))) (hv : v.tag = OPT) :
    s.lastVotedHeight < v.height ∧ ∃ b, b.height = v.height ∧ t = s.signVote b v := by
  cases h with
  | opt h => exact h.elim
  | pes ha h =>
    obtain ⟨b, rfl, -⟩ := h
    cases hv
  | vote _ _ hlt _ _ ht => exact ⟨hlt, _, rfl, ht⟩

theorem adopt_lastVotedHeight (qc : QC) : (s.adopt qc).lastVotedHeight = s.lastVotedHeight := by
  unfold adopt updateHighQc
  split <;> split <;> rfl

theorem cleanFor_lastVotedHeight (b : Block) :
    (s.cleanFor cfg b).lastVotedHeight = s.lastVotedHeight := by
  unfold cleanFor
  split <;> rfl

theorem collect_lastVotedHeight {α : Type} (add : Aggregator → Appended α Aggregator)
    (mark : α → Event) : (collect add mark s).2.lastVotedHeight = s.lastVotedHeight := by
  unfold collect
  split <;> rfl

theorem settle_lastVotedHeight {b b1 b0 : Block} {marks : List (ℕ × Event)} :
    (s.settle b b1 b0 marks).lastVotedHeight = s.lastVotedHeight := by
  unfold settle
  split <;> rfl

theorem OptStep.lastVotedHeight_le (h : OptStep cfg s t) :
    s.lastVotedHeight ≤ t.lastVotedHeight := by
  cases h with
  | quiet h => exact h.lastVotedHeight.ge
  | vote _ _ _ _ _ => exact Nat.le_max_left _ _
  | proposal _ _ => exact ((adopt_lastVotedHeight _).trans (cleanFor_lastVotedHeight _)).ge
  | overflow _ _ => exact (cleanFor_lastVotedHeight _).ge
  | adopt _ _ _ _ _ => exact (adopt_lastVotedHeight _).ge
  | countVote _ _ _ _ _ => exact (collect_lastVotedHeight _ _).ge
  | settle _ _ _ _ _ _ => exact settle_lastVotedHeight.ge
  | _ => exact le_rfl

theorem PesStep.lastVotedHeight_eq (h : PesStep cfg s t) :
    t.lastVotedHeight = s.lastVotedHeight := by
  cases h with
  | countFallback _ => exact collect_lastVotedHeight _ _
  | countSpb _ => exact collect_lastVotedHeight _ _
  | countPre _ _ => exact collect_lastVotedHeight _ _
  | _ => rfl

theorem Step.lastVotedHeight_le (h : Step cfg s t) : s.lastVotedHeight ≤ t.lastVotedHeight := by
  cases h with
  | opt h => exact h.lastVotedHeight_le
  | pes _ h => exact h.lastVotedHeight_eq.ge

theorem VoteInv.step (hs : VoteInv s) (hp : ∀ x ∈ t.trace, Prompt x) (h : Step cfg s t) :
    VoteInv t := by
  have he := h.extends
  have hps : ∀ x ∈ s.trace, Prompt x := fun x hx => hp x (he.trace.subset hx)
  -- an optimistic vote of `t` is one of `s`, or the step is that vote
  have hvote : ∀ e v, (e, Event.sign (.vote v)) ∈ t.trace → v.tag = OPT →
      (e, Event.sign (.vote v)) ∈ s.trace ∨
        (v.epoch = s.epoch ∧ s.lastVotedHeight < v.height ∧
          ∃ b, b.height = v.height ∧ t = s.signVote b v) := by
    intro e v hv htag
    rcases h.recorded hv with hv | ⟨_, hr⟩
    · exact .inl hv
    · exact .inr ⟨hr.dated hs hps htag, hr.optVote htag⟩
  refine ⟨?_, ?_, ?_⟩
  · intro x hx
    rcases h.recorded hx with hx | ⟨hx, hr⟩
    · rw [he.epoch]
      exact hs.past x hx
    · obtain ⟨e, y⟩ := x
      cases hx
      exact ⟨he.epoch.ge, hr.dated hs hps⟩
  · intro v hv htag
    rcases hvote _ v hv htag with hv | ⟨_, _, b, hb, rfl⟩
    · rw [he.epoch] at hv
      exact (hs.bound v hv htag).trans h.lastVotedHeight_le
    · exact hb ▸ Nat.le_max_right _ _
  · -- the new vote is above every vote of its epoch
    rintro v w ⟨e, hv⟩ ⟨e', hw⟩ hvt hwt hep hht
    rcases hvote e v hv hvt with hv | ⟨hve, hvh, b, hb, hvs⟩ <;>
      rcases hvote e' w hw hwt with hw | ⟨hwe, hwh, b', hb', hws⟩
    · exact hs.once v w ⟨e, hv⟩ ⟨e', hw⟩ hvt hwt hep hht
    · have hve : v.epoch = e := (hs.past _ hv).2 hvt
      have hd : s.Did (.sign (.vote v)) := by
        rw [Did, ← hwe, ← hep, hve]
        exact hv
      have := hs.bound v hd hvt
      omega
    · have hwe : w.epoch = e' := (hs.past _ hw).2 hwt
      have hd : s.Did (.sign (.vote w)) := by
        rw [Did, ← hve, hep, hwe]
        exact hw
      have := hs.bound w hd hwt
      omega
    · have htr := congrArg Core.trace (hvs.symm.trans hws)
      simp only [signVote, List.cons.injEq, Prod.mk.injEq, Event.sign.injEq,
        SignedItem.vote.injEq] at htr
      rw [htr.1.2]

theorem VoteInv.epoch (hs : VoteInv s) : VoteInv s.renewed := by
  obtain ⟨marks, rest, heq, -, -⟩ := renewed_eq s
  have hep : s.renewed.epoch = s.epoch + 1 := by rw [heq]; rfl
  have hvote : ∀ e v, (e, Event.sign (.vote v)) ∈ s.renewed.trace →
      (e, Event.sign (.vote v)) ∈ s.trace := by
    intro e v hv
    rcases mem_renewed_trace hv with hv | hv | ⟨m, hv, _⟩
    · exact hv
    · cases hv
    · cases hv
  refine ⟨?_, ?_, ?_⟩
  · intro x hx
    rcases mem_renewed_trace hx with hx | rfl | ⟨m, rfl, _⟩
    · obtain ⟨hle, hd⟩ := hs.past x hx
      exact ⟨by omega, hd⟩
    · exact ⟨hep.ge, trivial⟩
    · exact ⟨hep.ge, trivial⟩
  · intro v hv
    have := (hs.past _ (hvote _ v hv)).1
    omega
  · rintro v w ⟨e, hv⟩ ⟨e', hw⟩
    exact hs.once v w ⟨e, hvote e v hv⟩ ⟨e', hvote e' w hw⟩

theorem VoteInv.turn (hs : VoteInv s) (hp : ∀ x ∈ t.trace, Prompt x) (h : Turn cfg s t) :
    VoteInv t := by
  cases h with
  | step h => exact hs.step hp h
  | epoch h ht => exact ht ▸ hs.epoch

theorem VoteInv.take (hs : VoteInv s) (m : ConsensusMessage) : VoteInv (s.log (.receive m)) := by
  have hvote : ∀ e v, (e, Event.sign (.vote v)) ∈ (s.log (.receive m)).trace →
      (e, Event.sign (.vote v)) ∈ s.trace := by
    intro e v hv
    rcases List.mem_cons.mp hv with hv | hv
    · cases hv
    · exact hv
  refine ⟨?_, fun v hv => hs.bound v (hvote _ v hv), ?_⟩
  · intro x hx
    rcases List.mem_cons.mp hx with rfl | hx
    · exact ⟨le_rfl, trivial⟩
    · exact hs.past x hx
  · rintro v w ⟨e, hv⟩ ⟨e', hw⟩
    exact hs.once v w ⟨e, hvote e v hv⟩ ⟨e', hvote e' w hw⟩

theorem Reachable.voteInv {alive : Bool} (h : Reachable cfg s alive)
    (hp : ∀ x ∈ s.trace, Prompt x) : VoteInv s := by
  refine (h.invariant (C := fun l => ∀ x ∈ l, Prompt x) ?_ VoteInv.new ?_ ?_).2 hp
  · exact fun l l' hl hc x hx => hc x (hl.subset hx)
  · exact fun s m hs _ => hs.take m
  · exact fun s t _ hs hc ht => hs.turn hc ht

theorem votesOnce_of_prompt {alive : Bool} (h : Reachable cfg s alive)
    (hp : ∀ x ∈ s.trace, Prompt x) : s.VotesOnce :=
  (h.voteInv hp).once

end Votes

/-! ### A block that outlives its epoch -/

theorem votesOnce_before_the_epoch_ends : ∃ s, Reachable waitingConfig s true ∧
    s.voted leaderProposal ∧ s.VotesOnce := by
  obtain ⟨s, hr, hs⟩ := exists_replay waitingConfig
    [.boot, .core (.HsPropose leaderProposal), .core (.HsPropose deputyProposal),
      .core (.HsLoopBack deputyProposal)]
    (fun s => s.voted leaderProposal ∧ ∀ x ∈ s.trace, Prompt x) (by decide +kernel)
  exact ⟨s, hr, hs.1, votesOnce_of_prompt hr hs.2⟩

/-- A proposal of the next epoch. -/
def nextProposal : Block := Block.new .genesis 1 1 1 0 [] OPT

/-- The deputy's proposal is handed back in epoch `1`, where no vote for height `1` is known. -/
theorem not_votesOnce_after_the_epoch_ends :
    ¬ ∀ (cfg : Config) (s : Core), Reachable cfg s true → s.VotesOnce := by
  intro h
  obtain ⟨s, hr, hv, hw⟩ := exists_replay waitingConfig
    [.boot, .core (.HsPropose leaderProposal), .core (.HsPropose deputyProposal),
      .core (.HsPropose nextProposal), .core (.HsLoopBack deputyProposal)]
    (fun s => s.voted leaderProposal ∧ s.voted deputyProposal) (by decide +kernel)
  have heq := h _ s hr (HVote.new leaderProposal 0 OPT) (HVote.new deputyProposal 0 OPT)
    (by simpa [voted, Ever] using hv) (by simpa [voted, Ever] using hw) rfl rfl rfl rfl
  revert heq
  decide +kernel

end Ipotane.Core
