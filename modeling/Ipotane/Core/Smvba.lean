import Ipotane.Core.State

/-! Multi-valued agreement (`consensus/src/core.rs`, lines 909 to 1650). -/
namespace Ipotane.Core

open Lib Handler

variable [Crypto] (cfg : Config) (call : Call → M Unit)

def initProof (height round : ℕ) : SPBProof := ⟨INIT_PHASE, round, height, []⟩

def smvbaRoundAdvance (height round : ℕ) : M Unit := do
  update fun s => (s.log (.enterRound height round)).updateSmvbaState height round
  let s ← self
  match s.spbProposes.get (height, 1) with
  | none => pure ()
  | some last => do
    emit (.carry last)
    let length ← add cfg.parameters.fallbackLength 1
    let block ← generateProposal cfg height length (some last.block.qc) PES
    let value : SPBValue := ⟨last.val, last.signatures, block, round, INIT_PHASE⟩
    expect .failedProposal (call (.broadcastPesPropose value (initProof height round)))

/-- The block of an `OPT` input: `Block::default()` with its author, epoch and height set. -/
def optBlock (epoch height : ℕ) : Block :=
  { Block.genesis with author := cfg.name, epoch := epoch, height := height }

def smvbaBlock (height : ℕ) (val : ℕ) (qc : Option QC) : M Block := do
  if val = OPT then do
    let s ← self
    pure (optBlock cfg s.epoch height)
  else do
    let length ← add cfg.parameters.fallbackLength 1
    generateProposal cfg height length qc PES

def invokeSmvba (height : ℕ) (val : ℕ) (signatures : List (PublicKey × Signature))
    (qc : Option QC) : M Unit := do
  update fun s => { s with smvbaIsInvoke := s.smvbaIsInvoke.orInsert height false }
  let s ← self
  if s.smvbaIsInvoke.getD height false then pure ()
  else do
    update fun s => { s with smvbaIsInvoke := s.smvbaIsInvoke.insert height true }
    let block ← smvbaBlock cfg height val qc
    update fun s => { s with smvbaCurrentRound := s.smvbaCurrentRound.orInsert height 1 }
    let s ← self
    let round := s.smvbaCurrentRound.getD height 1
    let value : SPBValue := ⟨val, signatures, block, round, INIT_PHASE⟩
    call (.broadcastPesPropose value (initProof height round))

def smvbaMsgFilter (epoch height : ℕ) : M Bool := do
  let s ← self
  if s.epoch > epoch then pure false
  else do
    let bound ← add height 2
    pure (decide ¬ (s.height ≥ bound))

def broadcastPesPropose (value : SPBValue) (proof : SPBProof) : M Unit := do
  when (proof.phase = INIT_PHASE) <| update fun s => { s with
    spbProposes := s.spbProposes.insert (value.block.height, value.round) value
    trace := (s.epoch, .propose value) :: s.trace }
  transmit cfg (.SPBPropose value proof) none PES
  call (.processSpbPropose value proof)

def handleSpbProposal (value : SPBValue) (proof : SPBProof) : M Unit := do
  let fresh ← smvbaMsgFilter value.block.epoch proof.height
  ensureM (fresh = true) (.TimeOutMessage proof.height proof.round)
  when (cfg.parameters.exp = 1)
    (ofExcept (value.verify cfg.committee proof cfg.parameters.fallbackLength))
  let s ← self
  if value.block.epoch > s.epoch then do
    update fun s => { s with
      unhandleMessage := s.unhandleMessage ++ [(value.block.epoch, .SPBPropose value proof)] }
    fail (.EpochEnd s.epoch)
  else call (.processSpbPropose value proof)

def makeSpbVote (value : SPBValue) : M (Option SPBVote) :=
  if value.phase > LOCK_PHASE then pure none
  else do
    let vote := SPBVote.new value cfg.name
    emit (.sign (.spbVote vote))
    pure (some vote)

def processSpbPropose (value : SPBValue) (proof : SPBProof) : M Unit := do
  let key := (value.block.height, value.round)
  when (value.phase = LOCK_PHASE) <| update fun s => { s with
    spbLocks := s.spbLocks.insert key
      (put value.block.author (value, proof) (s.spbLocks.getD key []))
    trace := (s.epoch, .lock value proof) :: s.trace }
  match ← makeSpbVote cfg value with
  | none => pure ()
  | some vote =>
    if cfg.name = value.block.author then do
      emit (.keep (.SPBVote vote))
      call (.handleSpbVote vote)
    else transmit cfg (.SPBVote vote) (some value.block.author) PES

/-- What the proposer does with a proof of its own value. -/
def advanceSpb (proof : SPBProof) : M Unit := do
  let s ← self
  match s.spbProposes.get (proof.height, proof.round) with
  | none => crash .noProposal
  | some value =>
    if proof.phase = LOCK_PHASE then
      call (.broadcastPesPropose { value with phase := LOCK_PHASE } proof)
    else if proof.phase = FIN_PHASE then do
      let value := { value with phase := FIN_PHASE }
      transmit cfg (.SPBFinsh value proof) none PES
      call (.handleSpbFinish value proof)
    else pure ()

def handleSpbVote (vote : SPBVote) : M Unit := do
  let fresh ← smvbaMsgFilter vote.epoch vote.height
  ensureM (fresh = true) (.TimeOutMessage vote.height vote.round)
  when (cfg.parameters.exp = 1) (ofExcept (vote.verify cfg.committee))
  match ← collect (fun a => a.addSpbVote vote cfg.committee) .proved with
  | none => pure ()
  | some proof => advanceSpb cfg call proof

def handleSpbFinish (value : SPBValue) (proof : SPBProof) : M Unit := do
  let fresh ← smvbaMsgFilter value.block.epoch proof.height
  ensureM (fresh = true) (.TimeOutMessage proof.height proof.round)
  when (cfg.parameters.exp = 1)
    (ofExcept (value.verify cfg.committee proof cfg.parameters.fallbackLength))
  let key := (proof.height, proof.round)
  update fun s => { s with
    spbFinishs := s.spbFinishs.insert key
      (put value.block.author (value, proof) (s.spbFinishs.getD key []))
    smvbaDFlag := s.smvbaDFlag.orInsert key false
    trace := (s.epoch, .finish value proof) :: s.trace }
  let s ← self
  if s.smvbaDFlag.getD key false then pure ()
  else if (s.spbFinishs.getD key []).length = cfg.committee.quorumThreshold then do
    update fun s => { s with smvbaDFlag := s.smvbaDFlag.insert key true }
    call (.invokeDoneAndShare proof.height proof.round)
  else pure ()

def handleSmvbaDoneWithShare (mdone : MDoneAndShare) : M Unit := do
  call (.handleSmvbaDone mdone)
  call (.handleSmvbaRs mdone.share)

def invokeDoneAndShare (height round : ℕ) : M Unit := do
  let s ← self
  let share := RandomnessShare.new height s.epoch round cfg.name
  let mdone := MDoneAndShare.new cfg.name s.epoch height round share
  emit (.sign (.share share))
  emit (.sign (.done mdone))
  transmit cfg (.SPBDoneAndShare mdone) none PES
  call (.handleSmvbaDoneWithShare mdone)

/-- The vote that a prevote makes the node cast, with the flags it raises. -/
def voteOnPrevote (prevote : MPreVote) : M (Option MVote) := do
  let key := (prevote.height, prevote.round)
  let s ← self
  if s.smvbaYFlag.getD key false ∨ s.smvbaNFlag.getD key false then pure none
  else
    match prevote.tag with
    | .Yes value proof => do
      update fun s => { s with smvbaYFlag := s.smvbaYFlag.insert key true }
      match ← makeSpbVote cfg value with
      | none => pure none
      | some vote => do
        let mvote := MVote.new cfg.name prevote.leader prevote.round prevote.height prevote.epoch
          (.Yes value proof vote)
        emit (.sign (.mvote mvote))
        pure (some mvote)
    | .No => do
      let set := (s.smvbaNoPrevotes.getD key []).insert prevote.author
      update fun s => { s with smvbaNoPrevotes := s.smvbaNoPrevotes.insert key set }
      if set.length = cfg.committee.quorumThreshold then do
        let mvote := MVote.new cfg.name prevote.leader prevote.round prevote.height prevote.epoch
          .No
        update fun s => { s with
          smvbaNFlag := s.smvbaNFlag.insert key true
          trace := (s.epoch, .sign (.mvote mvote)) :: s.trace }
        pure (some mvote)
      else pure none

def handleSmvbaPrevote (prevote : MPreVote) : M Unit := do
  let fresh ← smvbaMsgFilter prevote.epoch prevote.height
  ensureM (fresh = true) (.TimeOutMessage prevote.height prevote.round)
  when (cfg.parameters.exp = 1)
    (ofExcept (prevote.verify cfg.committee cfg.parameters.fallbackLength))
  let key := (prevote.height, prevote.round)
  update fun s => { s with
    smvbaYFlag := s.smvbaYFlag.orInsert key false
    smvbaNFlag := s.smvbaNFlag.orInsert key false }
  match ← voteOnPrevote cfg prevote with
  | none => pure ()
  | some vote => do
    transmit cfg (.SMVBAVote vote) none PES
    call (.handleSmvbaMvote vote)

/-- Broadcast a halt and handle it. -/
def sendHalt (leader : PublicKey) (value : SPBValue) (proof : SPBProof) : M Unit := do
  let mhalt := MHalt.new cfg.name leader value proof
  emit (.sign (.halt mhalt))
  transmit cfg (.SMVBAHalt mhalt) none PES
  call (.handleSmvbaHalt mhalt)

def advanceOnQuorum (mvote : MVote) (weight : ℕ) : M Unit :=
  when (weight = cfg.committee.quorumThreshold) do
    let next ← add mvote.round 1
    call (.smvbaRoundAdvance mvote.height next)

def handleSmvbaMvote (mvote : MVote) : M Unit := do
  let fresh ← smvbaMsgFilter mvote.epoch mvote.height
  ensureM (fresh = true) (.TimeOutMessage mvote.height mvote.round)
  when (cfg.parameters.exp = 1)
    (ofExcept (mvote.verify cfg.committee cfg.parameters.fallbackLength))
  let key := (mvote.height, mvote.round)
  let s ← self
  let set := (s.smvbaVotes.getD key []).insert mvote.author
  update fun s => { s with
    smvbaVotes := s.smvbaVotes.insert key set
    trace := (s.epoch, .count mvote) :: s.trace }
  match mvote.tag with
  | .Yes value _ vote => do
    match ← collect (fun a => a.addPreVote vote cfg.committee) .finProved with
    | some finProof => sendHalt cfg call mvote.leader value finProof
    | none => advanceOnQuorum cfg call mvote set.length
  | .No => advanceOnQuorum cfg call mvote set.length

def handleSmvbaDone (mdone : MDoneAndShare) : M Unit := do
  let fresh ← smvbaMsgFilter mdone.epoch mdone.height
  ensureM (fresh = true) (.TimeOutMessage mdone.height mdone.round)
  when (cfg.parameters.exp = 1) (ofExcept (mdone.verify cfg.committee))
  let key := (mdone.height, mdone.round)
  let s ← self
  let set := (s.smvbaDones.getD key []).insert mdone.author
  update fun s => { s with
    smvbaDFlag := s.smvbaDFlag.orInsert key false
    smvbaDones := s.smvbaDones.insert key set }
  let s ← self
  if s.smvbaDFlag.getD key false = false ∧ set.length = cfg.committee.randomCoinThreshold then do
    update fun s => { s with smvbaDFlag := s.smvbaDFlag.insert key true }
    call (.invokeDoneAndShare mdone.height mdone.round)
  else if set.length = cfg.committee.quorumThreshold then
    update fun s => { s with spbAbandonFlag := s.spbAbandonFlag.insert mdone.height true }
  else pure ()

/-- What the node does once it knows the leader: halt on a finish, prevote otherwise. -/
def actOnCoin (coin : RandomCoin) (height round : ℕ) : M Unit := do
  let key := (coin.height, coin.round)
  update fun s => { s with spbFinishs := s.spbFinishs.orInsert key [] }
  let s ← self
  match (s.spbFinishs.getD key []).lookup coin.leader with
  | some (value, proof) => sendHalt cfg call coin.leader value proof
  | none => do
    let no := MPreVote.new cfg.name coin.leader round height coin.epoch .No
    emit (.sign (.prevote no))
    update fun s => { s with spbLocks := s.spbLocks.orInsert key [] }
    let s ← self
    match (s.spbLocks.getD key []).lookup coin.leader with
    | some (value, proof) => do
      let yes := MPreVote.new cfg.name coin.leader round height coin.epoch (.Yes value proof)
      emit (.sign (.prevote yes))
      transmit cfg (.SMVBAPreVote yes) none PES
      call (.handleSmvbaPrevote yes)
    | none => do
      transmit cfg (.SMVBAPreVote no) none PES
      call (.handleSmvbaPrevote no)

def handleSmvbaRs (share : RandomnessShare) : M Unit := do
  let fresh ← smvbaMsgFilter share.epoch share.height
  ensureM (fresh = true) (.TimeOutMessage share.height share.round)
  when (cfg.parameters.exp = 1) (ofExcept (share.verify cfg.committee))
  let s ← self
  if (s.getCoinLeader share.height share.round).isSome then pure ()
  else if (s.aggregator.smvbaRandomcoin.getD (share.height, share.round) .new).missesId share
      cfg.committee then crash .unknownKey
  else do
    let (result, aggregator) := s.aggregator.addSmvbaRandom share cfg.committee
    update fun s => { s with aggregator := aggregator }
    match ← ofExcept result with
    | none => pure ()
    | some coin => do
      update fun s => { s with
        randomCoins := s.randomCoins.insert (coin.height, coin.round) coin
        trace := (s.epoch, .coin coin) :: s.trace }
      actOnCoin cfg call coin share.height share.round

def handleSmvbaHalt (halt : MHalt) : M Unit := do
  let fresh ← smvbaMsgFilter halt.epoch halt.height
  ensureM (fresh = true) (.TimeOutMessage halt.height halt.round)
  when (cfg.parameters.exp = 1)
    (ofExcept (halt.verify cfg.committee cfg.parameters.fallbackLength))
  let s ← self
  if s.getCoinLeader halt.height halt.round ≠ some halt.value.block.author then pure ()
  else do
    update fun s => { s with smvbaHaltFalg := s.smvbaHaltFalg.orInsert halt.height false }
    let s ← self
    if s.smvbaHaltFalg.getD halt.height false then pure ()
    else do
      update fun s => { s with
        smvbaHaltFalg := s.smvbaHaltFalg.insert halt.height true
        trace := (s.epoch, .halted halt) :: s.trace }
      if ← mempoolVerify cfg halt.value.block PES then call (.processParOut halt.value.block)
      else pure ()

/-- The commit of an output that is not tagged `OPT`. -/
def commitParOut (block : Block) : M Unit := do
  emit (.graft block)
  storeBlock block
  let s ← self
  if block.height > s.lastCommittedHeight then do
    commitAndSend call block .smvbaOutput
    if block.tag = PES then fail (.EpochEnd s.epoch) else emit (.cleanup block)
  else emit (.cleanup block)

def processParOut (block : Block) : M Unit := do
  let s ← self
  if s.epoch > block.epoch then pure ()
  else do
    let bound ← add block.height 2
    if s.height ≥ bound then pure ()
    else if block.tag = OPT then do
      let next ← add block.height 1
      call (.invokeFallback next none)
    else commitParOut call block

end Ipotane.Core
