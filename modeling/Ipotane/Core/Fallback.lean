import Ipotane.Core.State

/-! Fallback chains and the prepare phase (`consensus/src/core.rs`, lines 645 to 907). -/
namespace Ipotane.Core

open Lib Handler

variable [Crypto] (cfg : Config) (call : Call → M Unit)

def fallbackMessageFilter (epoch height : ℕ) : M Bool := do
  let s ← self
  let bound ← add height 2
  pure (decide ¬ (s.height ≥ bound ∨ s.epoch > epoch))

def invokeFallback (height : ℕ) (qc : Option QC) : M Unit := do
  let s ← self
  if s.fallbackIsInvoke.contains height then pure ()
  else do
    update fun s => { s with fallbackIsInvoke := s.fallbackIsInvoke.insert height true }
    let block ← generateProposal cfg height 1 qc PES
    call (.broadcastFallbackPropose block)

def broadcastFallbackPropose (block : Block) : M Unit := do
  update fun s => { s with smvbaIsInvoke := s.smvbaIsInvoke.orInsert block.height false }
  let s ← self
  if s.smvbaIsInvoke.getD block.height false then pure ()
  else do
    transmit cfg (.FBPropose block) none PES
    call (.processFallbackPropose block)

def makeFallbackVote (block : Block) : M (Option HVote) := do
  let s ← self
  let bound ← add block.height 2
  if bound ≤ s.height then pure none
  else do
    let vote := HVote.new block cfg.name PES
    emit (.sign (.vote vote))
    pure (some vote)

/-- What the author of a completed fallback certificate does next. -/
def extendFallback (qc : QC) : M Unit := do
  update fun s => { s with
    fallbackHighQc := s.fallbackHighQc.insert (qc.height, qc.round) (some qc) }
  if qc.proposer = cfg.name then
    if qc.round < cfg.parameters.fallbackLength then do
      let round ← add qc.round 1
      let block ← generateProposal cfg qc.height round (some qc) PES
      call (.broadcastFallbackPropose block)
    else if qc.round = cfg.parameters.fallbackLength then
      call (.activePreparePhase qc.height qc PES)
    else pure ()
  else pure ()

def handleFallbackVote (vote : HVote) : M Unit := do
  let fresh ← fallbackMessageFilter vote.epoch vote.height
  ensureM (fresh = true) (.TimeOutMessage vote.epoch vote.height)
  when (cfg.parameters.exp = 1) (ofExcept (vote.verify cfg.committee))
  match ← collect (fun a => a.addFallbackVote vote cfg.committee) .assembledFallback with
  | none => pure ()
  | some qc => extendFallback cfg call qc

def handleFallbackPropose (block : Block) : M Unit := do
  let fresh ← fallbackMessageFilter block.epoch block.height
  ensureM (fresh = true) (.TimeOutMessage block.epoch block.height)
  when (cfg.parameters.exp = 1) (ofExcept (block.verify cfg.committee))
  let s ← self
  if block.epoch > s.epoch then do
    update fun s => { s with
      unhandleMessage := s.unhandleMessage ++ [(block.epoch, .FBPropose block)] }
    fail (.EpochEnd s.epoch)
  else if ← mempoolVerify cfg block FALLBACK then call (.processFallbackPropose block)
  else pure ()

def processFallbackPropose (block : Block) : M Unit := do
  let fresh ← fallbackMessageFilter block.epoch block.height
  ensureM (fresh = true) (.TimeOutMessage block.epoch block.height)
  emit (.graft block)
  storeBlock block
  match ← makeFallbackVote cfg block with
  | none => pure ()
  | some vote =>
    if block.author = cfg.name then do
      emit (.keep (.FBVote vote))
      call (.handleFallbackVote vote)
    else transmit cfg (.FBVote vote) (some block.author) PES

def activePreparePhase (height : ℕ) (qc : QC) (val : ℕ) : M Unit := do
  let s ← self
  if s.prepareTag.contains height then pure ()
  else do
    let prepare := PrePare.new cfg.name s.epoch height qc val
    update fun s => { s with
      prepareTag := s.prepareTag.insert height prepare
      trace := (s.epoch, .sign (.prepare prepare)) :: s.trace }
    transmit cfg (.ParPrePare prepare) none PES
    call (.handleParPrepare prepare)

/-- The commit that the prepare completing a quorum triggers. -/
def fastCommit (prepare : PrePare) : M Unit := do
  let s ← self
  match s.store.get prepare.qc.hash with
  | some block =>
    when (block.height > s.lastCommittedHeight) (commitAndSend call block (.fastPath prepare))
  | none => pure ()

/-- The `OPT` arm of `handle_par_prepare`. -/
def countOptPrepare (prepare : PrePare) : M Unit := do
  let s ← self
  let optSet := s.parPrepareOpts.getD prepare.height []
  ensureM (hasKey prepare.author optSet = false) (.AuthorityReuseinPrePare prepare.author)
  let optSet := put prepare.author prepare.signature optSet
  update fun s => { s with parPrepareOpts := s.parPrepareOpts.insert prepare.height optSet }
  when (optSet.length = cfg.committee.quorumThreshold) do
    fastCommit call prepare
    when (cfg.pesPath = true ∧ prepare.height ≥ 2) do
      let s ← self
      terminateSmvba (prepare.height - 1) s.height (.prepare prepare)
  call (.invokeSmvba prepare.height OPT [] (some prepare.qc))

/-- The `PES` arm of `handle_par_prepare`. -/
def countPesPrepare (prepare : PrePare) : M Unit := do
  let s ← self
  let pesSet := s.parPreparePess.getD prepare.height []
  ensureM (hasKey prepare.author pesSet = false) (.AuthorityReuseinPrePare prepare.author)
  let pesSet := put prepare.author prepare.signature pesSet
  update fun s => { s with parPreparePess := s.parPreparePess.insert prepare.height pesSet }
  when (pesSet.length ≥ cfg.committee.quorumThreshold) do
    let key := (prepare.height, cfg.parameters.fallbackLength)
    update fun s => { s with fallbackHighQc := s.fallbackHighQc.orInsert key none }
    let s ← self
    match s.fallbackHighQc.getD key none with
    | some qc => call (.invokeSmvba prepare.height PES pesSet (some qc))
    | none => pure ()

def handleParPrepare (prepare : PrePare) : M Unit := do
  let s ← self
  ensureM (prepare.epoch = s.epoch) (.TimeOutMessage prepare.epoch prepare.height)
  let bound ← add prepare.height 2
  ensureM (bound > s.height) (.TimeOutMessage prepare.epoch prepare.height)
  when (cfg.parameters.exp = 1)
    (ofExcept (prepare.verify cfg.committee cfg.parameters.fallbackLength))
  update fun s => { s with
    parPrepareOpts := s.parPrepareOpts.orInsert prepare.height []
    parPreparePess := s.parPreparePess.orInsert prepare.height [] }
  if prepare.val = OPT then countOptPrepare cfg call prepare
  else if prepare.val = PES then countPesPrepare cfg call prepare
  else fail (.InvalidPrePareTag prepare.val)

end Ipotane.Core
