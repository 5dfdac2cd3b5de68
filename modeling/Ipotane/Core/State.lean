import Ipotane.Leader
import Ipotane.Lib.Handler

/-! The state of a node's core and the operations that do not call a handler
(`consensus/src/core.rs`, `consensus/src/synchronizer.rs`, `consensus/src/mempool.rs`). -/
namespace Ipotane

open Lib

variable [Crypto]

inductive PayloadStatus
  | Accept
  | Reject
  | Wait
deriving DecidableEq

/-- What a core is started with. The mempool is another task: `payload` and `status` are
its answers to the requests of this core, in the order of the requests. -/
structure Config where
  name : PublicKey
  committee : Committee
  parameters : Parameters
  optPath : Bool
  pesPath : Bool
  payload : ℕ → List Digest
  status : ℕ → PayloadStatus

/-- What the signature service is asked to sign, with its signature. -/
inductive SignedItem
  | block (b : Block)
  | vote (v : HVote)
  | prepare (p : PrePare)
  | spbVote (v : SPBVote)
  | share (s : RandomnessShare)
  | done (m : MDoneAndShare)
  | prevote (m : MPreVote)
  | mvote (m : MVote)
  | halt (m : MHalt)
deriving DecidableEq

/-- The three places that send on the commit channel. -/
inductive CommitRule
  | twoChain (b1 block : Block)
  | fastPath (prepare : PrePare)
  | smvbaOutput
deriving DecidableEq

/-- The three calls of `terminate_smvba`, each with what its handler has been given. -/
inductive Termination
  | proposal (block : Block)
  | block (block : Block)
  | prepare (prepare : PrePare)
deriving DecidableEq

/-- What a core does that is seen outside its maps: signatures, messages on its channels
(`keep` is a vote that the node hands to its own handler), and the marks of its log lines. -/
inductive Event
  | sign (item : SignedItem)
  | send (m : ConsensusMessage) (dest : Option PublicKey) (tag : ℕ)
  | receive (m : ConsensusMessage)
  | keep (m : ConsensusMessage)
  | commit (b : Block) (rule : CommitRule)
  | cleanup (b : Block)
  | sync (b : Block)
  | graft (b : Block)
  | store (b : Block)
  | approve (b : Block)
  | process (b : Block) (height : ℕ)
  | endorse (b : Block)
  | accept (b : Block)
  | suspend (b : Block) (tag : ℕ)
  | requeue (m : ConsensusMessage)
  | assembled (qc : QC)
  | assembledFallback (qc : QC)
  | proved (proof : SPBProof)
  | finProved (proof : SPBProof)
  | terminate (height reached : ℕ) (site : Termination)
  | propose (value : SPBValue)
  | lock (value : SPBValue) (proof : SPBProof)
  | finish (value : SPBValue) (proof : SPBProof)
  | coin (coin : RandomCoin)
  | count (mvote : MVote)
  | enterRound (height round : ℕ)
  | carry (last : SPBValue)
  | reset (height round : ℕ)
  | halted (halt : MHalt)
  | arm (duration : Option ℕ)
deriving DecidableEq

structure Core where
  store : Map Digest Block
  height : ℕ
  epoch : ℕ
  lastVotedHeight : ℕ
  lastCommittedHeight : ℕ
  fallbackIsInvoke : Map ℕ Bool
  unhandleMessage : List (ℕ × ConsensusMessage)
  highQc : QC
  timer : Option ℕ
  aggregator : Aggregator
  randomCoins : Map (ℕ × ℕ) RandomCoin
  smvbaYFlag : Map (ℕ × ℕ) Bool
  smvbaNFlag : Map (ℕ × ℕ) Bool
  smvbaDFlag : Map (ℕ × ℕ) Bool
  spbProposes : Map (ℕ × ℕ) SPBValue
  spbFinishs : Map (ℕ × ℕ) (List (PublicKey × SPBValue × SPBProof))
  spbLocks : Map (ℕ × ℕ) (List (PublicKey × SPBValue × SPBProof))
  spbCurrentPhase : Map (ℕ × ℕ) ℕ
  spbAbandonFlag : Map ℕ Bool
  smvbaHaltFalg : Map ℕ Bool
  smvbaDones : Map (ℕ × ℕ) (List PublicKey)
  smvbaCurrentRound : Map ℕ ℕ
  smvbaVotes : Map (ℕ × ℕ) (List PublicKey)
  smvbaNoPrevotes : Map (ℕ × ℕ) (List PublicKey)
  smvbaIsInvoke : Map ℕ Bool
  prepareTag : Map ℕ PrePare
  parPrepareOpts : Map ℕ (List (PublicKey × Signature))
  parPreparePess : Map ℕ (List (PublicKey × Signature))
  fallbackHighQc : Map (ℕ × ℕ) (Option QC)
  /-- The number of requests made to the mempool so far. -/
  requests : ℕ
  /-- Newest first, each entry with the epoch it was made in. -/
  trace : List (ℕ × Event)

namespace Core

variable (s : Core)

def log (e : Event) : Core := { s with trace := (s.epoch, e) :: s.trace }

def updateSmvbaState (height round : ℕ) : Core :=
  { s with
    smvbaDFlag := s.smvbaDFlag.insert (height, round) false
    smvbaYFlag := s.smvbaYFlag.insert (height, round) false
    smvbaNFlag := s.smvbaNFlag.insert (height, round) false
    smvbaCurrentRound := s.smvbaCurrentRound.insert height round
    spbCurrentPhase := s.spbCurrentPhase.insert (height, round) INIT_PHASE
    smvbaDones := s.smvbaDones.insert (height, round) []
    smvbaNoPrevotes := s.smvbaNoPrevotes.insert (height, round) []
    smvbaVotes := s.smvbaVotes.insert (height, round) []
    spbAbandonFlag := s.spbAbandonFlag.erase height
    trace := (s.epoch, .reset height round) :: s.trace }

def updatePrepareState (height : ℕ) : Core :=
  { s with
    parPrepareOpts := s.parPrepareOpts.insert height []
    parPreparePess := s.parPreparePess.insert height [] }

/-- The height that `process_qc` leaves the node at, if it leaves it running. -/
def heightAfter (qc : QC) : ℕ :=
  if qc.height + 1 < 2 ^ 64 then max s.height (qc.height + 1) else s.height

/-- `reached` is the height that the node has or is about to reach, and `site` the call; only the
log tells them. -/
def cleanSmvbaState (height reached : ℕ) (site : Termination) : Core :=
  { s with
    smvbaDFlag := s.smvbaDFlag.retain fun k => k.1 > height
    smvbaYFlag := s.smvbaYFlag.retain fun k => k.1 > height
    smvbaNFlag := s.smvbaNFlag.retain fun k => k.1 > height
    spbCurrentPhase := s.spbCurrentPhase.retain fun k => k.1 > height
    smvbaCurrentRound := s.smvbaCurrentRound.retain fun k => k > height
    spbProposes := s.spbProposes.retain fun k => k.1 > height
    spbFinishs := s.spbFinishs.retain fun k => k.1 > height
    spbLocks := s.spbLocks.retain fun k => k.1 > height
    smvbaDones := s.smvbaDones.retain fun k => k.1 > height
    smvbaVotes := s.smvbaVotes.retain fun k => k.1 > height
    smvbaNoPrevotes := s.smvbaNoPrevotes.retain fun k => k.1 > height
    aggregator := (s.aggregator.cleanupMvbaRandom height).cleanupSpbVote height
    prepareTag := s.prepareTag.retain fun k => k > height
    parPrepareOpts := s.parPrepareOpts.retain fun k => k > height
    parPreparePess := s.parPreparePess.retain fun k => k > height
    spbAbandonFlag := s.spbAbandonFlag.retain fun k => k > height
    fallbackHighQc := s.fallbackHighQc.retain fun k => k.1 > height
    trace := (s.epoch, .terminate height reached site) :: s.trace }

/-- The per-epoch part of a state, before its first update: everything but the store, the
buffered messages and the record of what has been done. -/
def cleared (epoch : ℕ) : Core :=
  { s with
    aggregator := .new
    height := 1
    epoch := epoch
    highQc := .genesis
    timer := none
    randomCoins := .empty
    lastVotedHeight := 0
    lastCommittedHeight := 0
    fallbackIsInvoke := .empty
    smvbaYFlag := .empty
    smvbaNFlag := .empty
    smvbaDFlag := .empty
    spbProposes := .empty
    spbFinishs := .empty
    spbLocks := .empty
    spbCurrentPhase := .empty
    spbAbandonFlag := .empty
    smvbaHaltFalg := .empty
    smvbaCurrentRound := .empty
    smvbaDones := .empty
    smvbaVotes := .empty
    smvbaNoPrevotes := .empty
    smvbaIsInvoke := .empty
    prepareTag := .empty
    parPrepareOpts := .empty
    parPreparePess := .empty
    fallbackHighQc := .empty }

def epochInit (epoch : ℕ) : Core :=
  ((s.cleared epoch).updateSmvbaState 1 1).updatePrepareState 1

/-- `Core::new`. -/
def new : Core :=
  let s : Core := {
    store := .empty, height := 1, epoch := 0, lastVotedHeight := 0, lastCommittedHeight := 0,
    fallbackIsInvoke := .empty, unhandleMessage := [], highQc := .genesis, timer := none,
    aggregator := .new, randomCoins := .empty, smvbaYFlag := .empty, smvbaNFlag := .empty,
    smvbaDFlag := .empty, spbProposes := .empty, spbFinishs := .empty, spbLocks := .empty,
    spbCurrentPhase := .empty, spbAbandonFlag := .empty, smvbaHaltFalg := .empty,
    smvbaDones := .empty, smvbaCurrentRound := .empty, smvbaVotes := .empty,
    smvbaNoPrevotes := .empty, smvbaIsInvoke := .empty, prepareTag := .empty,
    parPrepareOpts := .empty, parPreparePess := .empty, fallbackHighQc := .empty,
    requests := 0, trace := [] }
  (s.updateSmvbaState 1 1).updatePrepareState 1

def getCoinLeader (height round : ℕ) : Option PublicKey :=
  (s.randomCoins.get (height, round)).map RandomCoin.leader

def updateHighQc (qc : QC) : Core :=
  if qc.height > s.highQc.height then { s with highQc := qc } else s

/-- `advance_height` for a certificate height that is not below the current height, where
`next` is the height after it. -/
def enterHeight (next : ℕ) : Core :=
  ({ s with
      aggregator := s.aggregator.cleanupHsVote s.height
      height := next }.updatePrepareState next).updateSmvbaState next 1

end Core

/-- The lookups, additions and `unwrap`s that end the task. -/
inductive Panic
  | overflow
  | unknownKey
  | notLeader
  | missingAncestor
  | noProposal
  | failedProposal
deriving DecidableEq

abbrev M (α : Type) := Handler Core ConsensusError Panic α

/-- The calls between handlers. A handler makes them through the parameter `call`, which
`Core.exec` ties to the handlers themselves; `commit` is one turn of the loop of `commit`
from its current block on. -/
inductive Call
  | commit (block : Block)
  | optPropose
  | handleOptProposal (block : Block)
  | processOptBlock (block : Block)
  | handleOptVote (vote : HVote)
  | handleSyncRequest (digest : Digest) (sender : PublicKey)
  | invokeFallback (height : ℕ) (qc : Option QC)
  | broadcastFallbackPropose (block : Block)
  | handleFallbackVote (vote : HVote)
  | handleFallbackPropose (block : Block)
  | processFallbackPropose (block : Block)
  | activePreparePhase (height : ℕ) (qc : QC) (val : ℕ)
  | handleParPrepare (prepare : PrePare)
  | smvbaRoundAdvance (height round : ℕ)
  | invokeSmvba (height : ℕ) (val : ℕ) (signatures : List (PublicKey × Signature))
      (qc : Option QC)
  | broadcastPesPropose (value : SPBValue) (proof : SPBProof)
  | handleSpbProposal (value : SPBValue) (proof : SPBProof)
  | processSpbPropose (value : SPBValue) (proof : SPBProof)
  | handleSpbVote (vote : SPBVote)
  | handleSpbFinish (value : SPBValue) (proof : SPBProof)
  | invokeDoneAndShare (height round : ℕ)
  | handleSmvbaDoneWithShare (mdone : MDoneAndShare)
  | handleSmvbaDone (mdone : MDoneAndShare)
  | handleSmvbaRs (share : RandomnessShare)
  | handleSmvbaPrevote (prevote : MPreVote)
  | handleSmvbaMvote (mvote : MVote)
  | handleSmvbaHalt (halt : MHalt)
  | processParOut (block : Block)

namespace Core

open Handler

/-! ### Small operations -/

def emit (e : Event) : M Unit := update fun s => s.log e

def ensureM (cond : Prop) [Decidable cond] (e : ConsensusError) : M Unit :=
  if cond then pure () else fail e

/-- An addition of `u64`s. -/
def add (a b : ℕ) : M ℕ :=
  if a + b < 2 ^ 64 then pure (a + b) else crash .overflow

/-- A subtraction of `u64`s. -/
def sub (a b : ℕ) : M ℕ :=
  if b ≤ a then pure (a - b) else crash .overflow

variable (cfg : Config)

/-- `LeaderElector::index_as_leader`, whose map lookup panics on an unknown name. -/
def indexAsLeader (name : PublicKey) (height : ℕ) : M (Option ℕ) :=
  if name ∈ cfg.committee.sortedNames then
    pure (cfg.committee.indexAsLeader cfg.parameters.leaderWindow name height)
  else crash .unknownKey

/-- `Synchronizer::transmit`: the addressee is looked up before the message is handed to
the network filter of the path `tag`. -/
def transmit (m : ConsensusMessage) (dest : Option PublicKey) (tag : ℕ) : M Unit := do
  ensureM (dest.all (· ∈ cfg.committee.sortedNames) = true) (.NotInCommittee (dest.getD 0))
  emit (.send m dest tag)

/-- `MempoolDriver::get`. -/
def mempoolGet : M (List Digest) := fun s =>
  (.ok (cfg.payload s.requests), { s with requests := s.requests + 1 })

/-- `MempoolDriver::verify`: `false` when the block waits for its payload. -/
def mempoolVerify (b : Block) (tag : ℕ) : M Bool := do
  let s ← self
  update fun s => { s with requests := s.requests + 1 }
  match cfg.status s.requests with
  | .Accept => do
    emit (.accept b)
    pure true
  | .Reject => fail .InvalidPayload
  | .Wait => do
    emit (.suspend b tag)
    pure false

/-- Add a vote to the aggregator; `mark` logs what the vote completes. -/
def collect {α : Type} (add : Aggregator → Appended α Aggregator) (mark : α → Event) :
    M (Option α) := fun s =>
  match add s.aggregator with
  | (.error e, a) => (.err e, { s with aggregator := a })
  | (.ok none, a) => (.ok none, { s with aggregator := a })
  | (.ok (some x), a) =>
    (.ok (some x), { s with aggregator := a, trace := (s.epoch, mark x) :: s.trace })

def storeBlock (b : Block) : M Unit :=
  update fun s => { s with
    store := s.store.insert b.digest b
    trace := (s.epoch, .store b) :: s.trace }

def generateProposal (height round : ℕ) (qc : Option QC) (tag : ℕ) : M Block := do
  let payload ← mempoolGet cfg
  let s ← self
  let block := Block.new (qc.getD .genesis) cfg.name height s.epoch round payload tag
  emit (.sign (.block block))
  pure block

/-- `Synchronizer::get_parent_block`: a block without its parent is left with the
synchronizer. -/
def getParentBlock (b : Block) : M (Option Block) := do
  if b.qc.isGenesis then pure (some .genesis)
  else
    let s ← self
    match s.store.get b.parent with
    | some p => pure (some p)
    | none => do
      emit (.sync b)
      pure none

/-- `Synchronizer::get_ancestors`. -/
def getAncestors (b : Block) : M (Option (Block × Block)) := do
  match ← getParentBlock b with
  | none => pure none
  | some b1 =>
    match ← getParentBlock b1 with
    | none => crash .missingAncestor
    | some b0 => pure (some (b0, b1))

def handleSyncRequest (digest : Digest) (sender : PublicKey) : M Unit := do
  let s ← self
  match s.store.get digest with
  | some b => transmit cfg (.SyncReply b) (some sender) OPT
  | none => pure ()

def resetTimer (duration : Option ℕ) : M Unit := update fun s => { s with
  timer := duration
  trace := (s.epoch, .arm duration) :: s.trace }

def advanceHeight (height : ℕ) : M Unit := do
  let s ← self
  if height < s.height then pure ()
  else do
    let next ← add height 1
    update fun s => s.enterHeight next

def processQc (qc : QC) : M Unit := do
  advanceHeight qc.height
  update fun s => s.updateHighQc qc

def terminateSmvba (height reached : ℕ) (site : Termination) : M Unit :=
  update fun s => s.cleanSmvbaState height reached site

/-- One turn of the loop of `commit`. -/
def commit (call : Call → M Unit) (block : Block) : M Unit := do
  let s ← self
  when (block.height > s.lastCommittedHeight) do
    when (block.payload ≠ []) (emit (.cleanup block))
    match ← getParentBlock block with
    | some parent => call (.commit parent)
    | none => pure ()

/-- `self.commit(block)`, the new last committed height and the send on the channel. -/
def commitAndSend (call : Call → M Unit) (block : Block) (rule : CommitRule) : M Unit := do
  call (.commit block)
  update fun s => { s with
    lastCommittedHeight := block.height
    trace := (s.epoch, .commit block rule) :: s.trace }

end Core

end Ipotane
