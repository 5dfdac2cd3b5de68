import Ipotane.Core.Hotstuff
import Ipotane.Core.Fallback
import Ipotane.Core.Smvba

/-! The event loop (`consensus/src/core.rs`, lines 1652 to 1755). -/
namespace Ipotane

open Lib Handler

variable [Crypto]

/-- What the event loop reacts to: its start, a message on either channel, the timer. -/
inductive Input
  | boot
  | core (m : ConsensusMessage)
  | smvba (m : ConsensusMessage)
  | timer
deriving DecidableEq

namespace Core

variable (cfg : Config)

/-- The body of a handler, with its own calls made through `call`. -/
def body (call : Call → M Unit) : Call → M Unit
  | .commit b => commit call b
  | .optPropose => optPropose cfg call
  | .handleOptProposal b => handleOptProposal cfg call b
  | .processOptBlock b => processOptBlock cfg call b
  | .handleOptVote v => handleOptVote cfg call v
  | .handleSyncRequest d k => handleSyncRequest cfg d k
  | .invokeFallback h q => invokeFallback cfg call h q
  | .broadcastFallbackPropose b => broadcastFallbackPropose cfg call b
  | .handleFallbackVote v => handleFallbackVote cfg call v
  | .handleFallbackPropose b => handleFallbackPropose cfg call b
  | .processFallbackPropose b => processFallbackPropose cfg call b
  | .activePreparePhase h q v => activePreparePhase cfg call h q v
  | .handleParPrepare p => handleParPrepare cfg call p
  | .smvbaRoundAdvance h r => smvbaRoundAdvance cfg call h r
  | .invokeSmvba h v sigs q => invokeSmvba cfg call h v sigs q
  | .broadcastPesPropose v p => broadcastPesPropose cfg call v p
  | .handleSpbProposal v p => handleSpbProposal cfg call v p
  | .processSpbPropose v p => processSpbPropose cfg call v p
  | .handleSpbVote v => handleSpbVote cfg call v
  | .handleSpbFinish v p => handleSpbFinish cfg call v p
  | .invokeDoneAndShare h r => invokeDoneAndShare cfg call h r
  | .handleSmvbaDoneWithShare m => handleSmvbaDoneWithShare call m
  | .handleSmvbaDone m => handleSmvbaDone cfg call m
  | .handleSmvbaRs s => handleSmvbaRs cfg call s
  | .handleSmvbaPrevote m => handleSmvbaPrevote cfg call m
  | .handleSmvbaMvote m => handleSmvbaMvote cfg call m
  | .handleSmvbaHalt m => handleSmvbaHalt cfg call m
  | .processParOut b => processParOut call b

/-- The handlers, with calls nested at most `fuel` deep. -/
def exec : ℕ → Call → M Unit
  | 0, _ => exhaust
  | fuel + 1, c => body cfg (exec fuel) c

def isOptmistic : Bool := !cfg.parameters.ddos && !cfg.parameters.randomDdos

/-- The start of `run`. -/
def boot (call : Call → M Unit) : M Unit := do
  when (cfg.optPath = true) do
    let s ← self
    match ← indexAsLeader cfg cfg.name s.height with
    | some 0 => ignoreErr (call .optPropose)
    | some i => resetTimer (some (i * cfg.parameters.timeoutDelay))
    | none => pure ()
  when (cfg.optPath = false ∨ (cfg.pesPath = true ∧ isOptmistic cfg = false)) do
    let s ← self
    expect .failedProposal (call (.invokeFallback s.height (some s.highQc)))

/-- The match on the core channel; the other variants are dropped. -/
def coreCall : ConsensusMessage → Option Call
  | .HsPropose b => some (.handleOptProposal b)
  | .HSVote v => some (.handleOptVote v)
  | .HsLoopBack b => some (.processOptBlock b)
  | .SyncRequest d k => some (.handleSyncRequest d k)
  | .SyncReply b => some (.handleOptProposal b)
  | _ => none

/-- The match on the channel of the pessimistic path. -/
def smvbaCall : ConsensusMessage → Option Call
  | .FBPropose b => some (.handleFallbackPropose b)
  | .FBVote v => some (.handleFallbackVote v)
  | .FBLoopBack b => some (.processFallbackPropose b)
  | .SPBPropose v p => some (.handleSpbProposal v p)
  | .SPBVote v => some (.handleSpbVote v)
  | .SPBFinsh v p => some (.handleSpbFinish v p)
  | .SPBDoneAndShare m => some (.handleSmvbaDoneWithShare m)
  | .SMVBAPreVote m => some (.handleSmvbaPrevote m)
  | .SMVBAVote m => some (.handleSmvbaMvote m)
  | .SMVBAHalt m => some (.handleSmvbaHalt m)
  | .ParPrePare p => some (.handleParPrepare p)
  | .ParLoopBack b => some (.processParOut b)
  | _ => none

/-- One turn of the loop of `run`. -/
def handle (fuel : ℕ) : Input → M Unit
  | .boot => boot cfg (exec cfg fuel)
  | .core m => (coreCall m).elim (pure ()) (exec cfg fuel)
  | .smvba m => (smvbaCall m).elim (pure ()) (exec cfg fuel)
  | .timer => exec cfg fuel .optPropose

/-- The loop of `run_epoch` that empties the buffer: a message of the new epoch goes back
to its channel, one of another epoch is dropped, an unexpected kind ends the loop. -/
def drain (s : Core) : List (ℕ × ConsensusMessage) → Core
  | [] => { s with unhandleMessage := [] }
  | (e, m) :: rest =>
    if e = s.epoch then
      match m with
      | .HsPropose _ | .SPBPropose _ _ | .FBPropose _ => drain (s.log (.requeue m)) rest
      | _ => { s with unhandleMessage := rest }
    else drain s rest

/-- What `run_epoch` does after `run` has returned, up to the loop of the next `run`. -/
def nextEpoch (fuel : ℕ) : M Unit := do
  let s ← self
  let epoch ← add s.epoch 1
  update fun s => (s.epochInit epoch).drain s.unhandleMessage
  boot cfg (exec cfg fuel)

/-- A message leaves a mark when it is taken from its channel. -/
def arrival (s : Core) : Input → Core
  | .core m | .smvba m => s.log (.receive m)
  | .boot | .timer => s

/-- The reaction to one input: errors are logged, `EpochEnd` starts the next epoch. -/
def react (fuel : ℕ) (i : Input) : M Unit := fun s =>
  match handle cfg fuel i (arrival s i) with
  | (.err (.EpochEnd _), s') => nextEpoch cfg fuel s'
  | (.err _, s') => (.ok (), s')
  | r => r

/-- The states of one node, whatever reaches its channels; `alive` is false once the task
has panicked. -/
inductive Reachable : Core → Bool → Prop
  | new : Reachable Core.new true
  | react {s : Core} (fuel : ℕ) (i : Input) (h : Reachable s true)
      (hf : (react cfg fuel i s).1 ≠ .exhausted) :
      Reachable (react cfg fuel i s).2 (decide ((react cfg fuel i s).1 = .ok ()))

end Core

end Ipotane
