import Ipotane.Core.Spec
import Ipotane.Symbolic

/-! What a message of another epoch can do to a node. -/
namespace Ipotane

open Lib Handler

section Isolation

variable [Crypto]

namespace ConsensusMessage

/-- The epochs that a message carries. -/
def epochs : ConsensusMessage → List ℕ
  | HsPropose b | HsLoopBack b | SyncReply b | ParLoopBack b | FBPropose b | FBLoopBack b =>
    [b.epoch]
  | HSVote v | FBVote v => [v.epoch]
  | SyncRequest _ _ => []
  | SPBPropose v _ | SPBFinsh v _ => [v.block.epoch]
  | SPBVote v => [v.epoch]
  | SPBDoneAndShare m => [m.epoch, m.share.epoch]
  | SMVBAPreVote m => [m.epoch]
  | SMVBAVote m => [m.epoch]
  | SMVBAHalt m => [m.epoch, m.value.block.epoch]
  | ParPrePare p => [p.epoch]

/-- The entry that a message leaves in the buffer when it is kept for a later epoch. -/
def kept : ConsensusMessage → Option (ℕ × ConsensusMessage)
  | HsPropose b | SyncReply b => some (b.epoch, HsPropose b)
  | FBPropose b => some (b.epoch, FBPropose b)
  | SPBPropose v p => some (v.block.epoch, SPBPropose v p)
  | _ => none

/-- The tests that the handlers make of an epoch other than `e`: proposals and prepares are
compared both ways, the other messages only with the epochs that have ended, and the
loopback of an optimistic block not at all. Where the sum `height + 2` is formed before the
epoch is looked at, it must fit in a `u64`. -/
def Screened (e : ℕ) : ConsensusMessage → Prop
  | HsPropose b | SyncReply b => b.epoch ≠ e
  | FBPropose b => b.epoch ≠ e ∧ b.height + 2 < 2 ^ 64
  | SPBPropose v p => v.block.epoch < e ∨ e < v.block.epoch ∧ p.height + 2 < 2 ^ 64
  | ParPrePare p => p.epoch ≠ e
  | HSVote v => v.epoch < e
  | FBVote v => v.epoch < e ∧ v.height + 2 < 2 ^ 64
  | FBLoopBack b => b.epoch < e ∧ b.height + 2 < 2 ^ 64
  | ParLoopBack b => b.epoch < e
  | SPBVote v => v.epoch < e
  | SPBFinsh v _ => v.block.epoch < e
  | SPBDoneAndShare m => m.epoch < e
  | SMVBAPreVote m => m.epoch < e
  | SMVBAVote m => m.epoch < e
  | SMVBAHalt m => m.epoch < e
  | HsLoopBack _ | SyncRequest _ _ => False

end ConsensusMessage

namespace Core

/-- The handler of `m` ends with or without an error and has changed nothing, or it has put
what the buffer keeps of `m` at the end of the buffer and ends the epoch. -/
def Inert (s : Core) (m : ConsensusMessage) (r : Outcome ConsensusError Panic Unit × Core) :
    Prop :=
  (r = (.ok (), s) ∨ ∃ e, r = (.err e, s)) ∨
    ∃ x, m.kept = some x ∧
      r = (.err (.EpochEnd s.epoch), { s with unhandleMessage := s.unhandleMessage ++ [x] })

variable {cfg : Config} {s : Core} {m : ConsensusMessage} {epoch height : ℕ}

theorem inert_of_settles {x : M Unit} (h : Settles s x) : Inert s m (x s) := by
  rcases h with ⟨_, h⟩ | h
  · exact .inl (.inl h)
  · exact .inl (.inr h)

/-- Checks in front of an inert handler keep it inert. -/
theorem inert_bind {α : Type} {x : M α} {f : α → M Unit} (hx : Settles s x)
    (hf : ∀ a, x s = (.ok a, s) → Inert s m (f a s)) : Inert s m ((x >>= f) s) := by
  rw [bind_eq, andThen]
  rcases hx with ⟨a, h⟩ | ⟨e, h⟩
  · rw [h]
    exact hf a h
  · rw [h]
    exact .inl (.inr ⟨e, rfl⟩)

theorem inert_buffer {x : ℕ × ConsensusMessage} (hx : m.kept = some x) :
    Inert s m ((do
      update fun s => { s with unhandleMessage := s.unhandleMessage ++ [x] }
      fail (.EpochEnd s.epoch) : M Unit) s) :=
  .inr ⟨x, hx, rfl⟩

/-! ### What the checks do with a height whose sum fits -/

theorem settles_ensureM (p : Prop) [Decidable p] (e : ConsensusError) (s : Core) :
    Settles s (ensureM p e) :=
  settles_ite (settles_pure () s) (settles_fail e s)

theorem settles_fallbackMessageFilter (h : height + 2 < 2 ^ 64) :
    Settles s (fallbackMessageFilter epoch height) :=
  settles_bind (settles_self s) fun _ _ =>
    settles_bind (.inl ⟨_, add_run h⟩) fun _ _ => settles_pure _ s

theorem settles_smvbaMsgFilter (h : epoch < s.epoch ∨ height + 2 < 2 ^ 64) :
    Settles s (smvbaMsgFilter epoch height) := by
  refine settles_bind (settles_self s) fun _ hself => ?_
  cases hself
  by_cases hlt : epoch < s.epoch
  · rw [if_pos hlt]
    exact settles_pure false s
  · rw [if_neg hlt]
    refine settles_bind (.inl ⟨_, add_run ?_⟩) fun _ _ => settles_pure _ s
    exact h.resolve_left hlt

/-! ### Messages of an epoch that has ended -/

theorem not_fresh_of_lt (h : epoch < s.epoch) : ¬ s.Fresh epoch height := fun hf => by
  have := hf.1
  omega

theorem fallback_stale (h : epoch < s.epoch) (hb : height + 2 < 2 ^ 64) {e : ConsensusError}
    {f : Unit → M Unit} :
    Settles s (do
      let fresh ← fallbackMessageFilter epoch height
      let u ← ensureM (fresh = true) e
      f u) := by
  refine settles_bind (settles_fallbackMessageFilter hb) fun fresh hx => ?_
  refine settles_bind (settles_ensureM _ _ s) fun _ hu => ?_
  exact absurd ((fallbackMessageFilter_ok hx).mp (ensureM_ok hu)) (not_fresh_of_lt h)

theorem smvba_stale (h : epoch < s.epoch) {e : ConsensusError} {f : Unit → M Unit} :
    Settles s (do
      let fresh ← smvbaMsgFilter epoch height
      let u ← ensureM (fresh = true) e
      f u) := by
  refine settles_bind (settles_smvbaMsgFilter (.inl h)) fun fresh hx => ?_
  refine settles_bind (settles_ensureM _ _ s) fun _ hu => ?_
  exact absurd ((smvbaMsgFilter_ok hx).mp (ensureM_ok hu)) (not_fresh_of_lt h)

/-! ### Proposals of any other epoch -/

variable {call : Call → M Unit}

theorem handleOptProposal_foreign {b : Block} (h : b.epoch ≠ s.epoch)
    (hm : m.kept = some (b.epoch, .HsPropose b)) :
    Inert s m (handleOptProposal cfg call b s) := by
  unfold handleOptProposal
  refine inert_bind (settles_self s) fun _ hself => ?_
  cases hself
  by_cases hlt : b.epoch < s.epoch
  · rw [if_pos hlt]
    exact inert_of_settles (settles_pure () s)
  · rw [if_neg hlt, if_pos (by omega)]
    exact inert_buffer hm

theorem handleFallbackPropose_foreign {b : Block} (h : b.epoch ≠ s.epoch)
    (hb : b.height + 2 < 2 ^ 64) :
    Inert s (.FBPropose b) (handleFallbackPropose cfg call b s) := by
  rcases Nat.lt_or_gt_of_ne h with hlt | hgt
  · exact inert_of_settles (fallback_stale hlt hb)
  · refine inert_bind (settles_fallbackMessageFilter hb) fun _ _ => ?_
    refine inert_bind (settles_ensureM _ _ s) fun _ _ => ?_
    refine inert_bind (settles_when (settles_ofExcept _ s)) fun _ _ => ?_
    refine inert_bind (settles_self s) fun _ hself => ?_
    cases hself
    rw [if_pos hgt]
    exact inert_buffer rfl

theorem handleSpbProposal_foreign {v : SPBValue} {p : SPBProof}
    (h : v.block.epoch < s.epoch ∨ s.epoch < v.block.epoch ∧ p.height + 2 < 2 ^ 64) :
    Inert s (.SPBPropose v p) (handleSpbProposal cfg call v p s) := by
  rcases h with hlt | ⟨hgt, hb⟩
  · exact inert_of_settles (smvba_stale hlt)
  · refine inert_bind (settles_smvbaMsgFilter (.inr hb)) fun _ _ => ?_
    refine inert_bind (settles_ensureM _ _ s) fun _ _ => ?_
    refine inert_bind (settles_when (settles_ofExcept _ s)) fun _ _ => ?_
    refine inert_bind (settles_self s) fun _ hself => ?_
    cases hself
    rw [if_pos hgt]
    exact inert_buffer rfl

/-- The epoch is compared before the sum is formed. -/
theorem handleParPrepare_foreign {p : PrePare} (h : p.epoch ≠ s.epoch) :
    Settles s (handleParPrepare cfg call p) := by
  refine settles_bind (settles_self s) fun _ hself => ?_
  cases hself
  refine settles_bind (settles_ensureM _ _ s) fun _ hp => ?_
  exact absurd (ensureM_ok hp) h

theorem handleOptVote_stale {v : HVote} (h : v.epoch < s.epoch) :
    Settles s (handleOptVote cfg call v) := by
  refine settles_bind (settles_self s) fun _ hself => ?_
  cases hself
  rw [if_pos (Or.inr h)]
  exact settles_pure () s

theorem processParOut_stale {b : Block} (h : b.epoch < s.epoch) :
    Settles s (processParOut call b) := by
  refine settles_bind (settles_self s) fun _ hself => ?_
  cases hself
  rw [if_pos h]
  exact settles_pure () s

/-- `handle_smvba_done` fails first, so `handle_smvba_rs` is not reached. -/
theorem handleSmvbaDoneWithShare_stale {m : MDoneAndShare} {fuel : ℕ} (h : m.epoch < s.epoch) :
    Settles s (handleSmvbaDoneWithShare (exec cfg (fuel + 1)) m) := by
  refine settles_bind (smvba_stale h) fun _ hx => ?_
  obtain ⟨fresh, t, hf, hx⟩ := bind_ok hx
  cases reads_smvbaMsgFilter.eq hf
  obtain ⟨_, _, hu, _⟩ := bind_ok hx
  exact absurd ((smvbaMsgFilter_ok hf).mp (ensureM_ok hu)) (not_fresh_of_lt h)

/-! ### The event loop -/

theorem coreCall_inert {fuel : ℕ} {c : Call} (hc : coreCall m = some c)
    (h : m.Screened s.epoch) : Inert s m (exec cfg (fuel + 2) c s) := by
  cases m with
  | HsPropose b | SyncReply b =>
    cases hc
    exact handleOptProposal_foreign h rfl
  | HSVote v =>
    cases hc
    exact inert_of_settles (handleOptVote_stale h)
  | HsLoopBack b => exact absurd h id
  | SyncRequest d k => exact absurd h id
  | _ => cases hc

theorem smvbaCall_inert {fuel : ℕ} {c : Call} (hc : smvbaCall m = some c)
    (h : m.Screened s.epoch) : Inert s m (exec cfg (fuel + 2) c s) := by
  cases m with
  | FBPropose b =>
    cases hc
    exact handleFallbackPropose_foreign h.1 h.2
  | SPBPropose v p =>
    cases hc
    exact handleSpbProposal_foreign h
  | ParPrePare p =>
    cases hc
    exact inert_of_settles (handleParPrepare_foreign h)
  | FBVote v | FBLoopBack b =>
    cases hc
    exact inert_of_settles (fallback_stale h.1 h.2)
  | SPBVote v | SPBFinsh v p | SMVBAPreVote m | SMVBAVote m | SMVBAHalt m =>
    cases hc
    exact inert_of_settles (smvba_stale h)
  | SPBDoneAndShare m =>
    cases hc
    exact inert_of_settles (handleSmvbaDoneWithShare_stale h)
  | ParLoopBack b =>
    cases hc
    exact inert_of_settles (processParOut_stale h)
  | _ => cases hc

/-- Whatever its state, a node is not touched by a message that the tests screen. -/
theorem handle_screened (cfg : Config) (fuel : ℕ) (s : Core) (m : ConsensusMessage)
    (h : m.Screened s.epoch) :
    Inert s m (handle cfg (fuel + 2) (.core m) s) ∧
      Inert s m (handle cfg (fuel + 2) (.smvba m) s) := by
  constructor
  · cases hc : coreCall m with
    | none =>
      simp only [handle, hc]
      exact .inl (.inl rfl)
    | some c =>
      simp only [handle, hc]
      exact coreCall_inert hc h
  · cases hc : smvbaCall m with
    | none =>
      simp only [handle, hc]
      exact .inl (.inl rfl)
    | some c =>
      simp only [handle, hc]
      exact smvbaCall_inert hc h

theorem Inert.aggregator {r : Outcome ConsensusError Panic Unit × Core} (h : Inert s m r) :
    r.2.aggregator = s.aggregator := by
  rcases h with (h | ⟨e, h⟩) | ⟨x, _, h⟩
  · rw [h]
  · rw [h]
  · rw [h]

end Core

end Isolation

/-- A proposal of epoch `1` for a node in epoch `0`. -/
def laterBlock : Block := Block.new .genesis 1 1 1 0 [] OPT

theorem laterBlock_inert :
    laterBlock.epoch ≠ (booted (sampleConfig 2)).epoch ∧
      Core.Inert (booted (sampleConfig 2)) (.HsPropose laterBlock)
        (Core.handle (sampleConfig 2) 40 (.core (.HsPropose laterBlock))
          (booted (sampleConfig 2))) :=
  have h : laterBlock.epoch ≠ (booted (sampleConfig 2)).epoch := by decide +kernel
  ⟨h, (Core.handle_screened (sampleConfig 2) 38 (booted (sampleConfig 2)) (.HsPropose laterBlock)
    h).1⟩

/-- The next leader counts a vote on that block. -/
theorem laterVote_not_inert :
    ¬ ∀ (cfg : Config) (fuel : ℕ) (s : Core) (m : ConsensusMessage), Core.Reachable cfg s true →
      (∃ e ∈ m.epochs, e ≠ s.epoch) → Core.Inert s m (Core.handle cfg fuel (.core m) s) := by
  intro h
  have hi := h (sampleConfig 2) 40 (booted (sampleConfig 2)) (.HSVote (HVote.new laterBlock 0 OPT))
    (reachable_booted (by decide +kernel)) ⟨1, by decide +kernel, by decide +kernel⟩
  have ha := congrArg (fun a : Aggregator => (a.hsVotes.getD (1, laterBlock.digest) .new).weight)
    hi.aggregator
  revert ha
  decide +kernel

end Ipotane
