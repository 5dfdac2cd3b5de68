import Ipotane.Core.State

/-! The optimistic path: two-chain HotStuff (`consensus/src/core.rs`, lines 409 to 643). -/
namespace Ipotane.Core

open Lib Handler

variable [Crypto] (cfg : Config) (call : Call → M Unit)

def optPropose : M Unit := do
  let s ← self
  match ← indexAsLeader cfg cfg.name s.height with
  | none => crash .notLeader
  | some _ => do
    let block ← generateProposal cfg s.height 0 (some s.highQc) OPT
    transmit cfg (.HsPropose block) none OPT
    call (.processOptBlock block)

/-- The part of `handle_opt_proposal` after the epoch test. -/
def admitOptProposal (block : Block) : M Unit := do
  let idx ← indexAsLeader cfg block.author block.height
  ensureM (idx.isSome = true) (.WrongBlockSender block.digest block.author block.height)
  ofExcept (block.verify cfg.committee)
  emit (.approve block)
  when (cfg.pesPath = true ∧ block.height > 2) do
    let s ← self
    terminateSmvba (block.height - 2) (s.heightAfter block.qc) (.proposal block)
  processQc block.qc
  if ← mempoolVerify cfg block OPT then call (.processOptBlock block) else pure ()

def handleOptProposal (block : Block) : M Unit := do
  let s ← self
  if block.epoch < s.epoch then pure ()
  else if block.epoch > s.epoch then do
    update fun s => { s with
      unhandleMessage := s.unhandleMessage ++ [(block.epoch, .HsPropose block)] }
    fail (.EpochEnd s.epoch)
  else admitOptProposal cfg call block

/-- The prepare and fallback section of `process_opt_block`. -/
def optPrepareSection (block : Block) : M Unit := do
  when (cfg.pesPath = true ∧ block.height > 2) do
    let s ← self
    terminateSmvba (← sub s.height 2) s.height (.block block)
  when (cfg.pesPath = true ∧ block.height > 1)
    (call (.activePreparePhase (block.height - 1) block.qc OPT))
  when (cfg.pesPath = true) (call (.invokeFallback block.height (some block.qc)))

/-- The commit section of `process_opt_block`. -/
def optCommitSection (block b0 b1 : Block) : M Unit := do
  let h1 ← add b0.height 1
  let h2 ← add b1.height 1
  ensureM ((h1 = b1.height ∧ h2 = block.height) ∨ block.qc.isGenesis)
    (.NonConsecutiveRounds b0.height b1.height block.height)
  let s ← self
  when (b0.height > s.lastCommittedHeight) (commitAndSend call b0 (.twoChain b1 block))

def makeOptVote (block : Block) : M (Option HVote) := do
  let next ← add block.qc.height 1
  let s ← self
  if block.height > s.lastVotedHeight ∧ next = block.height then do
    let vote := HVote.new block cfg.name OPT
    update fun s => { s with
      lastVotedHeight := max s.lastVotedHeight block.height
      trace := (s.epoch, .sign (.vote vote)) :: (s.epoch, .endorse block) :: s.trace }
    pure (some vote)
  else pure none

/-- The loop that sends a vote to the leaders of the next height. -/
def sendVote (vote : HVote) : List PublicKey → M Unit
  | [] => pure ()
  | leader :: leaders => do
    when (cfg.name ≠ leader) (transmit cfg (.HSVote vote) (some leader) OPT)
    sendVote vote leaders

/-- The voting section of `process_opt_block`. -/
def optVoteSection (block : Block) : M Unit := do
  let s ← self
  when (block.height = s.height) do
    match ← makeOptVote cfg block with
    | none => pure ()
    | some vote => do
      let next ← add s.height 1
      sendVote cfg vote (cfg.committee.getLeaders cfg.parameters.leaderWindow next)
      let idx ← indexAsLeader cfg cfg.name next
      when (idx.isSome = true) do
        emit (.keep (.HSVote vote))
        call (.handleOptVote vote)

def processOptBlock (block : Block) : M Unit := do
  let s ← self
  emit (.process block s.height)
  let idx ← indexAsLeader cfg cfg.name block.height
  when (idx.isSome = true) (resetTimer none)
  match ← getAncestors block with
  | none => pure ()
  | some (b0, b1) => do
    storeBlock block
    optPrepareSection cfg call block
    optCommitSection call block b0 b1
    optVoteSection cfg call block

def handleOptVote (vote : HVote) : M Unit := do
  let s ← self
  if vote.height < s.height ∨ s.epoch > vote.epoch then pure ()
  else do
    let next ← add vote.height 1
    let idx ← indexAsLeader cfg cfg.name next
    ensureM (idx.isSome = true) (.WrongVoteRecipient vote.digest vote.author vote.height)
    ofExcept (vote.verify cfg.committee)
    match ← collect (fun a => a.addHsVote vote cfg.committee) .assembled with
    | none => pure ()
    | some qc => do
      processQc qc
      match idx with
      | some 0 => call .optPropose
      | some i => resetTimer (some (i * cfg.parameters.timeoutDelay))
      | none => pure ()

end Ipotane.Core
