import Ipotane.Core.Append
import Ipotane.Evidence

/-! A block that `process_opt_block` rejects has been acted on. -/
namespace Ipotane

open Lib Handler

section Rejections

variable [Crypto] {cfg : Config}

namespace Core

/-- The part of a state that belongs to the agreement. -/
structure SameAgreement (s t : Core) : Prop where
  randomCoins : t.randomCoins = s.randomCoins
  flags : t.smvbaYFlag = s.smvbaYFlag ∧ t.smvbaNFlag = s.smvbaNFlag ∧ t.smvbaDFlag = s.smvbaDFlag
  spbProposes : t.spbProposes = s.spbProposes
  spbFinishs : t.spbFinishs = s.spbFinishs
  spbLocks : t.spbLocks = s.spbLocks
  spbCurrentPhase : t.spbCurrentPhase = s.spbCurrentPhase
  spbAbandonFlag : t.spbAbandonFlag = s.spbAbandonFlag
  smvbaHaltFalg : t.smvbaHaltFalg = s.smvbaHaltFalg
  smvbaDones : t.smvbaDones = s.smvbaDones
  smvbaCurrentRound : t.smvbaCurrentRound = s.smvbaCurrentRound
  votes : t.smvbaVotes = s.smvbaVotes ∧ t.smvbaNoPrevotes = s.smvbaNoPrevotes
  smvbaIsInvoke : t.smvbaIsInvoke = s.smvbaIsInvoke

/-- The call that led from `s` to `t` has left no trace of the block. -/
structure Untraced (s t : Core) (b : Block) : Prop where
  store : ∀ e, (e, .store b) ∉ s.newEntries t
  prepare : ∀ e p dest tag, (e, .send (.ParPrePare p) dest tag) ∉ s.newEntries t
  fallback : ∀ e f dest tag, (e, .send (.FBPropose f) dest tag) ∉ s.newEntries t
  prepareTag : t.prepareTag = s.prepareTag
  fallbackIsInvoke : t.fallbackIsInvoke = s.fallbackIsInvoke
  agreement : SameAgreement s t
  lastCommittedHeight : t.lastCommittedHeight = s.lastCommittedHeight

variable {s t u : Core} {b : Block}

/-- Whatever error ends the call, the block has been stored before. -/
theorem processOptBlock_err {call : Call → M Unit} {e : ConsensusError}
    (hc : ∀ c, Inner c → Appends (call c)) (h : processOptBlock cfg call b s = (.err e, t)) :
    ∃ u, Adds s u ∧ Adds (u.insertBlock b) t := by
  unfold processOptBlock at h
  rcases bind_err h with h | ⟨_, _, h₁, h⟩
  · cases h
  cases h₁
  rcases bind_err h with h | ⟨_, s₁, h₁, h⟩
  · cases h
  have hs₁ : Adds s s₁ := Appends.of_run (keeps_emit tolerant_adds
    (x := .process b s.height) trivial) h₁
  rcases bind_err h with h | ⟨idx, s₂, h₂, h⟩
  · exact absurd h (raises_indexAsLeader _ _).ne_err
  have hs₂ : Adds s₁ s₂ := Appends.of_run (keeps_indexAsLeader _ _) h₂
  rcases bind_err h with h | ⟨_, s₃, h₃, h⟩
  · exact absurd h (raises_when (raises_update _)).ne_err
  have hs₃ : Adds s₂ s₃ := Appends.of_run (keeps_when (appends_resetTimer _)) h₃
  rcases bind_err h with h | ⟨ancestors, s₄, h₄, h⟩
  · exact absurd h (raises_getAncestors b).ne_err
  have hs₄ : Adds s₃ s₄ := Appends.of_run (keeps_getAncestors tolerant_adds b) h₄
  cases ancestors with
  | none => cases h
  | some x =>
    rcases bind_err h with h | ⟨_, s₅, h₅, h⟩
    · cases h
    cases h₅
    exact ⟨s₄, ((hs₁.trans hs₂).trans hs₃).trans hs₄,
      Appends.of_run (appends_afterStore hc x.1 x.2) h⟩

/-- A block that is rejected for its height has been stored. -/
theorem rejected_traced {fuel rd1 rd2 rd3 : ℕ}
    (h : exec cfg fuel (.processOptBlock b) s = (.err (.NonConsecutiveRounds rd1 rd2 rd3), t)) :
    ¬ Untraced s t b := by
  intro hu
  cases fuel with
  | zero => cases h
  | succ fuel =>
    obtain ⟨u, hsu, hut⟩ := processOptBlock_err (appends_exec fuel) h
    exact hu.store u.epoch (hsu.extends.mem_newEntries hut.extends.trace)

end Core

end Rejections

/-! ### A proposal that skips a height -/

/-- The leader of height `3` builds on the certificate of height `1`. -/
def skippingProposal : Block := Block.new firstQc 3 3 0 0 [] OPT

/-- Node `0` has taken the proposals and waits for the payload of the second one. -/
def toSkippingProposal : List Input :=
  [.boot, .core (.HsPropose leaderProposal), .core (.HsPropose skippingProposal)]

theorem rejected_traced_skippingProposal : ∃ s t rd1 rd2 rd3,
    Core.exec waitingConfig 40 (.processOptBlock skippingProposal) s =
      (.err (.NonConsecutiveRounds rd1 rd2 rd3), t) ∧ ¬ Core.Untraced s t skippingProposal := by
  obtain ⟨s, hr, h⟩ := exists_replay waitingConfig toSkippingProposal
    (fun s => (Core.exec waitingConfig 40 (.processOptBlock skippingProposal) s).1 =
      .err (.NonConsecutiveRounds 0 1 3)) (by decide +kernel)
  generalize hx : Core.exec waitingConfig 40 (.processOptBlock skippingProposal) s = x at h
  have hrun : Core.exec waitingConfig 40 (.processOptBlock skippingProposal) s =
      (.err (.NonConsecutiveRounds 0 1 3), x.2) := hx.trans (Prod.ext h rfl)
  exact ⟨s, x.2, 0, 1, 3, hrun, Core.rejected_traced hrun⟩

/-- Node `0` prepares height `2` and starts its fallback chain of height `3` for a block that it
then rejects. -/
theorem not_untraced_skippingProposal :
    ¬ ∀ (cfg : Config) (fuel : ℕ) (s t : Core) (b : Block) (rd1 rd2 rd3 : ℕ),
      Core.exec cfg fuel (.processOptBlock b) s = (.err (.NonConsecutiveRounds rd1 rd2 rd3), t) →
        Core.Untraced s t b := by
  intro h
  obtain ⟨s, hr, he, hstore, hprepare, hfallback⟩ := exists_replay waitingConfig toSkippingProposal
    (fun s =>
      let r := Core.exec waitingConfig 40 (.processOptBlock skippingProposal) s
      r.1 = .err (.NonConsecutiveRounds 0 1 3) ∧ (0, .store skippingProposal) ∈ s.newEntries r.2 ∧
        (s.prepareTag.contains 2 = false ∧ r.2.prepareTag.contains 2 = true) ∧
        (s.fallbackIsInvoke.contains 3 = false ∧ r.2.fallbackIsInvoke.contains 3 = true))
    (by decide +kernel)
  generalize hx : Core.exec waitingConfig 40 (.processOptBlock skippingProposal) s = x at *
  have hu := h waitingConfig 40 s x.2 skippingProposal 0 1 3 (hx.trans (Prod.ext he rfl))
  exact hu.store 0 hstore

end Ipotane
