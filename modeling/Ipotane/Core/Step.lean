import Ipotane.Core.Spec

/-! The elementary steps that a core takes while it handles an input, each with what the
code has checked before it. -/
namespace Ipotane.Core

open Lib Handler

variable [Crypto] (cfg : Config) (s : Core)

/-! ### The record of a node -/

/-- `x` has happened in the current epoch. -/
def Did (x : Event) : Prop := (s.epoch, x) ∈ s.trace

/-- `x` has happened in some epoch. -/
def Ever (x : Event) : Prop := ∃ e, (e, x) ∈ s.trace

/-- A message that was taken from a channel, broadcast, or kept, in the current epoch. -/
def Hears (m : ConsensusMessage) : Prop :=
  s.Did (.receive m) ∨ (∃ tag, s.Did (.send m none tag)) ∨ s.Did (.keep m)

/-- `p` is the genesis block or a stored block, as the certificate of `b` says. -/
def Parent (b p : Block) : Prop :=
  (b.qc.isGenesis ∧ p = .genesis) ∨
    (¬ b.qc.isGenesis ∧ p.digest = b.parent ∧ s.Ever (.store p))

/-- The node is one of the leaders of its height. -/
def Leads : Prop :=
  (cfg.committee.indexAsLeader cfg.parameters.leaderWindow cfg.name s.height).isSome = true

/-- Two states that differ only in what no result reads, and in flags that were raised. -/
structure Alike (s t : Core) : Prop where
  store : t.store = s.store
  height : t.height = s.height
  epoch : t.epoch = s.epoch
  lastVotedHeight : t.lastVotedHeight = s.lastVotedHeight
  lastCommittedHeight : t.lastCommittedHeight = s.lastCommittedHeight
  unhandleMessage : t.unhandleMessage = s.unhandleMessage
  highQc : t.highQc = s.highQc
  timer : t.timer = s.timer
  aggregator : t.aggregator = s.aggregator
  randomCoins : t.randomCoins = s.randomCoins
  smvbaYFlag : ∀ k, t.smvbaYFlag.getD k false = s.smvbaYFlag.getD k false
  smvbaNFlag : ∀ k, t.smvbaNFlag.getD k false = s.smvbaNFlag.getD k false
  smvbaDFlag : ∀ k, s.smvbaDFlag.getD k false = true → t.smvbaDFlag.getD k false = true
  spbProposes : t.spbProposes = s.spbProposes
  spbFinishs : ∀ k, t.spbFinishs.getD k [] = s.spbFinishs.getD k []
  spbLocks : ∀ k, t.spbLocks.getD k [] = s.spbLocks.getD k []
  smvbaHaltFalg : ∀ k, t.smvbaHaltFalg.getD k false = s.smvbaHaltFalg.getD k false
  smvbaDones : ∀ k, t.smvbaDones.getD k [] = s.smvbaDones.getD k []
  smvbaCurrentRound : ∀ k, t.smvbaCurrentRound.getD k 1 = s.smvbaCurrentRound.getD k 1
  smvbaVotes : ∀ k, t.smvbaVotes.getD k [] = s.smvbaVotes.getD k []
  smvbaNoPrevotes : ∀ k, t.smvbaNoPrevotes.getD k [] = s.smvbaNoPrevotes.getD k []
  smvbaIsInvoke : ∀ k, s.smvbaIsInvoke.getD k false = true → t.smvbaIsInvoke.getD k false = true
  prepareTag : t.prepareTag = s.prepareTag
  parPrepareOpts : ∀ k, t.parPrepareOpts.getD k [] = s.parPrepareOpts.getD k []
  parPreparePess : ∀ k, t.parPreparePess.getD k [] = s.parPreparePess.getD k []
  fallbackIsInvoke : t.fallbackIsInvoke = s.fallbackIsInvoke
  fallbackHighQc : ∀ k, t.fallbackHighQc.getD k none = s.fallbackHighQc.getD k none
  trace : t.trace = s.trace

/-! ### The optimistic path -/

/-- The checks of `handle_opt_proposal`. -/
structure Vetted (b : Block) : Prop where
  leader : (cfg.committee.indexAsLeader cfg.parameters.leaderWindow b.author b.height).isSome = true
  verified : b.verify cfg.committee = .ok ()

/-- A proposal of the current epoch that has passed the checks. -/
structure Proposed (b : Block) : Prop where
  received : s.Did (.receive (.HsPropose b)) ∨ s.Did (.receive (.SyncReply b))
  epoch : b.epoch = s.epoch
  vetted : Vetted cfg b

/-- The three ways into `process_opt_block`. -/
inductive Admits (b : Block) : Prop
  | own (h : s.Did (.send (.HsPropose b) none OPT))
  | proposal (h : s.Proposed cfg b) (ha : s.Did (.accept b))
  | loopback (h : s.Did (.receive (.HsLoopBack b)))

/-- The heights that `process_opt_block` demands of a block and its ancestors. -/
def Consecutive (b0 b1 b : Block) : Prop :=
  b0.height + 1 < 2 ^ 64 ∧ b1.height + 1 < 2 ^ 64 ∧
    ((b0.height + 1 = b1.height ∧ b1.height + 1 = b.height) ∨ b.qc.isGenesis)

/-- What the commit loop leaves in the record. -/
def Tidy (x : Event) : Prop :=
  (∃ b, x = .cleanup b ∧ (s.Ever (.store b) ∨ b = .genesis)) ∨ ∃ b, x = .sync b ∧ s.Ever (.store b)

/-- The records of the optimistic path that come with no other change. -/
def OptLog : Event → Prop
  | .sign (.block b) => ∃ payload, b = Block.new s.highQc cfg.name s.height s.epoch 0 payload OPT
  | .send (.HsPropose b) dest tag => s.Did (.sign (.block b)) ∧ b.tag = OPT ∧
      dest = none ∧ tag = OPT
  | .send (.HSVote v) dest tag =>
    s.Did (.sign (.vote v)) ∧ v.tag = OPT ∧ dest.isSome = true ∧ tag = OPT
  | .send (.SyncReply b) dest tag => s.Ever (.store b) ∧ dest.isSome = true ∧ tag = OPT
  | .keep (.HSVote v) => s.Did (.sign (.vote v)) ∧ v.tag = OPT
  | .approve b => s.Proposed cfg b
  | .process b height => Admits cfg s b ∧ height = s.height
  | .suspend b tag => s.Proposed cfg b ∧ tag = OPT
  | .sync b => (∃ height, s.Did (.process b height)) ∨ s.Ever (.store b)
  | .cleanup b => (∃ height, s.Did (.process b height)) ∨ s.Ever (.store b) ∨ b = .genesis
  | .accept b => s.Proposed cfg b
  | _ => False

/-- `process_qc`, once the height after the certificate's is known to be a `u64`. -/
def adopt (qc : QC) : Core :=
  (if qc.height < s.height then s else s.enterHeight (qc.height + 1)).updateHighQc qc

/-- `adopt` after the termination that `handle_opt_proposal` puts before it. -/
def cleanFor (b : Block) : Core :=
  if cfg.pesPath = true ∧ b.height > 2 then
    s.cleanSmvbaState (b.height - 2) (s.heightAfter b.qc) (.proposal b)
  else s

def arm (duration : Option ℕ) : Core :=
  { s with
    timer := duration
    trace := (s.epoch, .arm duration) :: s.trace }

def signVote (b : Block) (v : HVote) : Core :=
  { s with
    lastVotedHeight := max s.lastVotedHeight b.height
    trace := (s.epoch, .sign (.vote v)) :: (s.epoch, .endorse b) :: s.trace }

def insertBlock (b : Block) : Core :=
  { s with
    store := s.store.insert b.digest b
    trace := (s.epoch, .store b) :: s.trace }

def markCommit (b : Block) (rule : CommitRule) : Core :=
  { s with
    lastCommittedHeight := b.height
    trace := (s.epoch, .commit b rule) :: s.trace }

def buffer (e : ℕ) (m : ConsensusMessage) : Core :=
  { s with unhandleMessage := s.unhandleMessage ++ [(e, m)] }

def marked (marks : List (ℕ × Event)) : Core := { s with trace := marks ++ s.trace }

/-- `process_opt_block` from the store to the commit, when nothing is done in between. -/
def settle (b b1 b0 : Block) (marks : List (ℕ × Event)) : Core :=
  let t := s.insertBlock b
  if b0.height > s.lastCommittedHeight then
    (t.marked marks).markCommit b0 (.twoChain b1 b)
  else t

inductive OptStep : Core → Core → Prop
  | quiet {s t : Core} (h : Alike s t) : OptStep s t
  | log {s : Core} {x : Event} (h : s.OptLog cfg x) : OptStep s (s.log x)
  | vote {s : Core} {b : Block} (hp : ∃ height, s.Did (.process b height))
      (hs : s.Did (.store b)) (hv : s.lastVotedHeight < b.height) (hq : b.qc.height + 1 = b.height)
      (hh : b.height = s.height) : OptStep s (s.signVote b (HVote.new b cfg.name OPT))
  | proposal {s : Core} {b : Block} (hp : s.Proposed cfg b)
      (hb : b.qc.height < s.height ∨ b.qc.height + 1 < 2 ^ 64)
      (ha : s.trace.head? = some (s.epoch, .approve b)) :
      OptStep s ((s.cleanFor cfg b).adopt b.qc)
  | overflow {s : Core} {b : Block} (hp : s.Proposed cfg b) (hb : 2 ^ 64 ≤ b.qc.height + 1) :
      OptStep s (s.cleanFor cfg b)
  | adopt {s : Core} {qc : QC} {v : HVote} (hq : s.Did (.assembled qc))
      (hb : qc.height + 1 < 2 ^ 64)
      (hv : s.Hears (.HSVote v)) (hh : qc.height = v.height) (hl : (s.adopt qc).Leads cfg) :
      OptStep s (s.adopt qc)
  | arm {s : Core} {duration : Option ℕ} (h : duration ≠ none → s.Leads cfg) :
      OptStep s (s.arm duration)
  | buffer {s : Core} {b : Block}
      (h : s.Did (.receive (.HsPropose b)) ∨ s.Did (.receive (.SyncReply b)))
      (he : s.epoch < b.epoch) : OptStep s (s.buffer b.epoch (.HsPropose b))
  | countVote {s : Core} {v : HVote} (hh : s.Hears (.HSVote v))
      (hv : v.verify cfg.committee = .ok ())
      (he : s.epoch ≤ v.epoch) (hn : s.height ≤ v.height) (hb : v.height + 1 < 2 ^ 64) :
      OptStep s (collect (fun a => a.addHsVote v cfg.committee) .assembled s).2
  | store {s : Core} {b b1 b0 : Block} (hp : s.Did (.process b s.height)) (h1 : s.Parent b b1)
      (h0 : s.Parent b1 b0) (hm : cfg.pesPath = true ∨ ¬ Consecutive b0 b1 b) :
      OptStep s (s.insertBlock b)
  | settle {s : Core} {b b1 b0 : Block} {marks : List (ℕ × Event)}
      (hp : s.Did (.process b s.height)) (h1 : s.Parent b b1) (h0 : s.Parent b1 b0)
      (hm : cfg.pesPath = false) (hc : Consecutive b0 b1 b)
      (ht : ∀ x ∈ marks, x.1 = s.epoch ∧ (s.insertBlock b).Tidy x.2) :
      OptStep s (s.settle b b1 b0 marks)
  | commit {s : Core} {b b1 b0 : Block} (hp : ∃ height, s.Did (.process b height))
      (hs : s.Did (.store b)) (h1 : s.Parent b b1) (h0 : s.Parent b1 b0) (hc : Consecutive b0 b1 b)
      (hl : s.lastCommittedHeight < b0.height) : OptStep s (s.markCommit b0 (.twoChain b1 b))

/-! ### The pessimistic path -/

/-- The pessimistic path runs: the mode asks for it, or one of its messages was taken. -/
def PesActive : Prop :=
  cfg.pesPath = true ∨ cfg.optPath = false ∨ ∃ m, s.Did (.receive m) ∧ (smvbaCall m).isSome = true

/-- Where a block for `process_fallback_propose` comes from. -/
inductive Fallen (b : Block) : Prop
  | own (h : s.Did (.send (.FBPropose b) none PES))
  | peer (h : s.Did (.receive (.FBPropose b))) (he : b.epoch ≤ s.epoch)
  | loopback (h : s.Did (.receive (.FBLoopBack b)))

/-- A block that comes back when its payload or its parent has come. -/
def loopback : ConsensusMessage → Option Block
  | .HsLoopBack b | .FBLoopBack b | .ParLoopBack b => some b
  | _ => none

/-- The payload of the block is the node's own, or it has been checked. -/
inductive Supplied (b : Block) : Prop
  | own (h : s.Did (.sign (.block b)))
  | accepted (h : s.Did (.accept b))
  | loopback {m : ConsensusMessage} (h : s.Did (.receive m)) (hm : loopback m = some b)

/-- Where a block for `process_par_out` comes from. -/
def Output (b : Block) : Prop :=
  (∃ m, s.Did (.halted m) ∧ m.value.block = b) ∨ s.Did (.receive (.ParLoopBack b))

/-- A block that is stored without a look at its parent. -/
inductive Grafts (b : Block) : Prop
  | fallen (h : s.Fallen b)
  | output (h : s.Output b) (ht : b.tag ≠ OPT)

/-- A block of the pessimistic path that the node makes. -/
structure Makes (b : Block) : Prop where
  tag : b.tag = PES
  author : b.author = cfg.name
  epoch : b.epoch = s.epoch
  signature : b.signature = Crypto.sign cfg.name b.digest

/-- The certificate that a fallback chain starts from. -/
inductive Starts (qc : QC) : Prop
  | genesis (h : qc = .genesis)
  | high (h : qc = s.highQc)
  | block {b : Block} {height : ℕ} (h : s.Did (.process b height)) (hq : qc = b.qc)

/-- Where a later block comes from: the certificate of the block before it has just been completed,
or it is the input of the agreement, of its first round or of another one. -/
inductive Continues (b : Block) : Prop
  | next (h : s.trace.head? = some (s.epoch, .assembledFallback b.qc)) (hh : b.height = b.qc.height)
      (hr : b.round = b.qc.round + 1) (hl : b.round ≤ cfg.parameters.fallbackLength)
      (hp : b.qc.proposer = cfg.name)
  | input (hi : s.smvbaIsInvoke.getD b.height false = true)
      (hq : s.fallbackHighQc.getD (b.height, cfg.parameters.fallbackLength) none = some b.qc)
      (hr : b.round = cfg.parameters.fallbackLength + 1)
  | again {last : SPBValue} (hl : s.spbProposes.get (b.height, 1) = some last)
      (hc : s.Did (.carry last))
      (hq : b.qc = last.block.qc) (hr : b.round = cfg.parameters.fallbackLength + 1)

/-- Why a node enters the prepare phase of a height: it processes the next block, or its
fallback chain of that height is complete. -/
inductive PrepareCause (height : ℕ) (qc : QC) : ℕ → Prop
  | opt {b : Block} (h : s.Did (.process b s.height)) (hh : height + 1 = b.height)
      (hq : qc = b.qc) :
      PrepareCause height qc OPT
  | pes (h : s.Did (.assembledFallback qc)) (hh : height = qc.height)
      (hr : qc.round = cfg.parameters.fallbackLength) (hf : s.height < height + 2) :
      PrepareCause height qc PES

/-- The prepares of a height that an input of the agreement is made of. -/
def Backing (height val : ℕ) (signatures : List (PublicKey × Signature)) : Prop :=
  val = OPT ∨ (val = PES ∧ signatures = s.parPreparePess.getD height [] ∧
    cfg.committee.quorumThreshold ≤ signatures.length)

/-- An input that is not `OPT` extends the fallback chain of its height. -/
def Inputs (height val : ℕ) (qc : Option QC) : Prop :=
  val ≠ OPT → ∃ q, qc = some q ∧
    s.fallbackHighQc.getD (height, cfg.parameters.fallbackLength) none = some q

/-- A proposal of phase `INIT`: the first one of a height, or the next one after a round. -/
inductive Initial (v : SPBValue) : Prop
  | first (hi : s.smvbaIsInvoke.getD v.block.height false = true)
      (hb : s.Backing cfg v.block.height v.val v.signatures)
      (ht : (v.val = OPT → v.block.tag = OPT) ∧ (v.val ≠ OPT → v.block.tag = PES))
      (hq : v.val ≠ OPT → s.Did (.sign (.block v.block)) ∧
        s.fallbackHighQc.getD (v.block.height, cfg.parameters.fallbackLength)
          none = some v.block.qc)
      (hr : v.round = s.smvbaCurrentRound.getD v.block.height 1)
  | next {last : SPBValue} (hd : s.Did (.enterRound v.block.height v.round))
      (hc : s.Did (.carry last))
      (hl : s.spbProposes.get (v.block.height, 1) = some last) (hv : v.val = last.val)
      (hs : v.signatures = last.signatures) (hq : v.block.qc = last.block.qc)
      (ht : v.block.tag = PES) (hb : s.Did (.sign (.block v.block)))

/-- What `broadcast_pes_propose` sends. -/
inductive Proposable (v : SPBValue) (p : SPBProof) : Prop
  | init (hi : s.Initial cfg v) (hp : p = initProof v.block.height v.round)
      (hv : v.phase = INIT_PHASE) (ha : v.block.author = cfg.name) (he : v.block.epoch = s.epoch)
  | lock {w : SPBValue} (hp : p.phase = LOCK_PHASE) (hd : s.Did (.proved p))
      (hw : s.spbProposes.get (p.height, p.round) = some w)
      (hv : v = { w with phase := LOCK_PHASE })

/-- A proposal that `process_spb_propose` works on. -/
inductive SpbSource (v : SPBValue) (p : SPBProof) : Prop
  | own (h : s.Did (.send (.SPBPropose v p) none PES))
  | peer (h : s.Did (.receive (.SPBPropose v p))) (he : v.block.epoch = s.epoch)
      (hv : cfg.parameters.exp = 1 →
        v.verify cfg.committee p cfg.parameters.fallbackLength = .ok ())

/-- Why a node says that it is done with a round. -/
def DoneCause (height round : ℕ) : Prop :=
  (∃ v p, s.Did (.finish v p) ∧ p.height = height ∧ p.round = round) ∨
    ∃ m, s.Hears (.SPBDoneAndShare m) ∧ m.height = height ∧ m.round = round

/-- Where the proof of a halt comes from: the leader's finish, or a quorum of votes. -/
inductive HaltCause (leader : PublicKey) (v : SPBValue) (p : SPBProof) : Prop
  | finish {c : RandomCoin} (hc : s.Did (.coin c)) (hl : leader = c.leader)
      (hf : (s.spbFinishs.getD (c.height, c.round) []).lookup leader = some (v, p))
  | votes {m : MVote} {q : SPBProof} {x : SPBVote} (hm : s.Did (.count m))
      (ht : m.tag = .Yes v q x) (hl : leader = m.leader) (hp : s.Did (.finProved p))
      (hh : p.height = x.height) (hr : p.round = x.round)

/-- The prevote that the coin and the locks make the node send. -/
def PrevoteCause (m : MPreVote) : Prop :=
  ∃ c, s.Did (.coin c) ∧ s.height < c.height + 2 ∧
    m = MPreVote.new cfg.name c.leader c.round c.height c.epoch m.tag ∧
    (s.spbLocks.getD (c.height, c.round) []).lookup c.leader =
      match m.tag with
      | .No => none
      | .Yes v p => some (v, p)

/-- The node that a message of the pessimistic path is for; a message for all nodes has none. -/
def addressee : ConsensusMessage → Option PublicKey
  | .FBVote v => some v.proposer
  | .SPBVote x => some x.proposer
  | _ => none

/-- What a node issues on the pessimistic path, to others or to itself. -/
def Issues : ConsensusMessage → Prop
  | .FBPropose b => s.Did (.sign (.block b)) ∧ b.tag = PES ∧ 0 < b.round ∧
      s.smvbaIsInvoke.getD b.height false = false ∧
      s.trace.head? = some (s.epoch, .sign (.block b))
  | .FBVote v => s.Did (.sign (.vote v)) ∧ v.tag = PES
  | .ParPrePare p => s.Did (.sign (.prepare p))
  | .SPBPropose v p =>
    (p.phase = INIT_PHASE ∧ s.Did (.propose v)) ∨ (p.phase ≠ INIT_PHASE ∧ s.Proposable cfg v p)
  | .SPBVote x => s.Did (.sign (.spbVote x)) ∧ ∃ v p, s.SpbSource cfg v p ∧
      x = SPBVote.new v cfg.name ∧ (v.phase = LOCK_PHASE → s.Did (.lock v p))
  | .SPBFinsh v p => p.phase = FIN_PHASE ∧ s.Did (.proved p) ∧
      ∃ w, s.spbProposes.get (p.height, p.round) = some w ∧ v = { w with phase := FIN_PHASE }
  | .SPBDoneAndShare m => s.Did (.sign (.done m))
  | .SMVBAPreVote m => s.Did (.sign (.prevote m)) ∧ s.PrevoteCause cfg m
  | .SMVBAVote m => s.trace.head? = some (s.epoch, .sign (.mvote m))
  | .SMVBAHalt m => s.Did (.sign (.halt m))
  | _ => False

/-- The records of the pessimistic path that come with no other change. -/
def PesLog : Event → Prop
  | .sign (.block b) => s.Makes cfg b ∧ s.Continues cfg b
  | .sign (.vote v) => ∃ b, v = HVote.new b cfg.name PES ∧ s.Did (.store b) ∧ s.Fallen b ∧
      s.height < b.height + 2
  | .sign (.spbVote x) => ∃ v p, x = SPBVote.new v cfg.name ∧ s.SpbSource cfg v p ∧
      s.height < p.height + 2
  | .sign (.share x) => s.DoneCause x.height x.round ∧ s.height < x.height + 2 ∧
      x = RandomnessShare.new x.height s.epoch x.round cfg.name
  | .sign (.done m) => s.DoneCause m.height m.round ∧ s.height < m.height + 2 ∧
      s.Did (.sign (.share m.share)) ∧
      m = MDoneAndShare.new cfg.name s.epoch m.height m.round m.share ∧
      m.share.height = m.height ∧ m.share.round = m.round
  | .sign (.prevote m) => m.author = cfg.name ∧ s.height < m.height + 2
  | .sign (.halt m) => ∃ leader v p, m = MHalt.new cfg.name leader v p ∧ s.HaltCause leader v p
  | .send m dest tag => s.Issues cfg m ∧ tag = PES ∧ dest = addressee m
  | .keep m => s.Issues cfg m ∧ addressee m = some cfg.name
  | .suspend b tag =>
    (tag = FALLBACK ∧ s.Hears (.FBPropose b) ∧
      (cfg.parameters.exp = 1 → b.verify cfg.committee = .ok ())) ∨
    (tag = PES ∧ ∃ m, s.Did (.halted m) ∧ m.value.block = b)
  | .graft b => s.Grafts b ∧ s.Fresh b.epoch b.height ∧ s.Supplied b
  | .carry v => ∃ height, s.spbProposes.get (height, 1) = some v
  | .cleanup b => s.Ever (.store b)
  | .accept b => s.Hears (.FBPropose b) ∨ s.Output b
  | _ => False

def fork (b : Block) : Core :=
  { s with
    fallbackIsInvoke := s.fallbackIsInvoke.insert b.height true
    trace := (s.epoch, .sign (.block b)) :: s.trace }

def extend (qc : QC) : Core :=
  { s with fallbackHighQc := s.fallbackHighQc.insert (qc.height, qc.round) (some qc) }

def signPrepare (p : PrePare) : Core :=
  { s with
    prepareTag := s.prepareTag.insert p.height p
    trace := (s.epoch, .sign (.prepare p)) :: s.trace }

def putOpt (p : PrePare) : Core :=
  { s with
    parPrepareOpts := s.parPrepareOpts.insert p.height
      (put p.author p.signature (s.parPrepareOpts.getD p.height [])) }

def putPes (p : PrePare) : Core :=
  { s with
    parPreparePess := s.parPreparePess.insert p.height
      (put p.author p.signature (s.parPreparePess.getD p.height [])) }

def propose (v : SPBValue) : Core :=
  { s with
    spbProposes := s.spbProposes.insert (v.block.height, v.round) v
    trace := (s.epoch, .propose v) :: s.trace }

def lock (v : SPBValue) (p : SPBProof) : Core :=
  { s with
    spbLocks := s.spbLocks.insert (v.block.height, v.round)
      (put v.block.author (v, p) (s.spbLocks.getD (v.block.height, v.round) []))
    trace := (s.epoch, .lock v p) :: s.trace }

def finish (v : SPBValue) (p : SPBProof) : Core :=
  { s with
    spbFinishs := s.spbFinishs.insert (p.height, p.round)
      (put v.block.author (v, p) (s.spbFinishs.getD (p.height, p.round) []))
    smvbaDFlag := s.smvbaDFlag.orInsert (p.height, p.round) false
    trace := (s.epoch, .finish v p) :: s.trace }

def countDone (m : MDoneAndShare) : Core :=
  { s with
    smvbaDFlag := s.smvbaDFlag.orInsert (m.height, m.round) false
    smvbaDones := s.smvbaDones.insert (m.height, m.round)
      ((s.smvbaDones.getD (m.height, m.round) []).insert m.author) }

def countMvote (m : MVote) : Core :=
  { s with
    smvbaVotes := s.smvbaVotes.insert (m.height, m.round)
      ((s.smvbaVotes.getD (m.height, m.round) []).insert m.author)
    trace := (s.epoch, .count m) :: s.trace }

def countNo (m : MPreVote) : Core :=
  { s with
    smvbaNoPrevotes := s.smvbaNoPrevotes.insert (m.height, m.round)
      ((s.smvbaNoPrevotes.getD (m.height, m.round) []).insert m.author) }

def raiseYes (key : ℕ × ℕ) (marks : List (ℕ × Event)) : Core :=
  { s with
    smvbaYFlag := s.smvbaYFlag.insert key true
    trace := marks ++ s.trace }

def raiseNo (key : ℕ × ℕ) (m : MVote) : Core :=
  { s with
    smvbaNFlag := s.smvbaNFlag.insert key true
    trace := (s.epoch, .sign (.mvote m)) :: s.trace }

def learnCoin (c : RandomCoin) : Core :=
  { s with
    randomCoins := s.randomCoins.insert (c.height, c.round) c
    trace := (s.epoch, .coin c) :: s.trace }

def halt (m : MHalt) : Core :=
  { s with
    smvbaHaltFalg := s.smvbaHaltFalg.insert m.height true
    trace := (s.epoch, .halted m) :: s.trace }

/-- A message of the agreement that has passed its filter and its check. -/
structure Taken (m : ConsensusMessage) (epoch height : ℕ) (check : Check) : Prop where
  hears : s.Hears m
  fresh : s.Fresh epoch height
  checked : cfg.parameters.exp = 1 → check = .ok ()

/-- A prepare that has passed the tests of `handle_par_prepare`. -/
structure Countable (p : PrePare) : Prop where
  hears : s.Hears (.ParPrePare p)
  epoch : p.epoch = s.epoch
  fresh : s.height < p.height + 2
  checked : cfg.parameters.exp = 1 →
    p.verify cfg.committee cfg.parameters.fallbackLength = .ok ()

/-- A prevote that finds neither flag raised. -/
structure Open (m : MPreVote) : Prop where
  taken : s.Taken cfg (.SMVBAPreVote m) m.epoch m.height
    (m.verify cfg.committee cfg.parameters.fallbackLength)
  yes : s.smvbaYFlag.getD (m.height, m.round) false = false
  no : s.smvbaNFlag.getD (m.height, m.round) false = false

/-- The vote on a prevote. -/
def mvoteOn (m : MPreVote) (tag : MVoteTag) : MVote :=
  MVote.new cfg.name m.leader m.round m.height m.epoch tag

inductive PesStep : Core → Core → Prop
  | log {s : Core} {x : Event} (h : s.PesLog cfg x) : PesStep s (s.log x)
  | store {s : Core} {b : Block} (h : s.Grafts b ∧ s.Fresh b.epoch b.height)
      (hg : s.trace.head? = some (s.epoch, .graft b)) : PesStep s (s.insertBlock b)
  | fork {s : Core} {b : Block} (hb : s.Makes cfg b) (hq : s.Starts b.qc) (hr : b.round = 1)
      (hn : s.fallbackIsInvoke.contains b.height = false) : PesStep s (s.fork b)
  | extend {s : Core} {qc : QC} (h : s.Did (.assembledFallback qc)) : PesStep s (s.extend qc)
  | terminate {s : Core} {height : ℕ} {site : Termination}
      (h : (height + 2 = s.height ∧ ∃ b, site = .block b ∧ s.Did (.process b s.height)) ∨
        ∃ p, site = .prepare p ∧ s.Countable cfg p ∧ p.height = height + 1) :
      PesStep s (s.cleanSmvbaState height s.height site)
  | fastCommit {s : Core} {b : Block} {p : PrePare} (hb : s.Ever (.store b))
      (hd : b.digest = p.qc.hash) (hp : s.Countable cfg p) (hv : p.val = OPT)
      (hq : (s.parPrepareOpts.getD p.height []).length = cfg.committee.quorumThreshold)
      (hl : s.lastCommittedHeight < b.height) : PesStep s (s.markCommit b (.fastPath p))
  | outputCommit {s : Core} {b : Block} (hb : s.Did (.store b)) (ho : s.Output b)
      (ht : b.tag ≠ OPT) (hf : s.Fresh b.epoch b.height)
      (hl : s.lastCommittedHeight < b.height) : PesStep s (s.markCommit b .smvbaOutput)
  | buffer {s : Core} {e : ℕ} {m : ConsensusMessage} (h : s.Did (.receive m)) (he : s.epoch < e)
      (hm : (∃ b, m = .FBPropose b ∧ e = b.epoch) ∨ ∃ v p, m = .SPBPropose v p ∧
        e = v.block.epoch) :
      PesStep s (s.buffer e m)
  | countFallback {s : Core} {v : HVote}
      (h : s.Taken cfg (.FBVote v) v.epoch v.height (v.verify cfg.committee)) :
      PesStep s (collect (fun a => a.addFallbackVote v cfg.committee) .assembledFallback s).2
  | countSpb {s : Core} {x : SPBVote}
      (h : s.Taken cfg (.SPBVote x) x.epoch x.height (x.verify cfg.committee)) :
      PesStep s (collect (fun a => a.addSpbVote x cfg.committee) .proved s).2
  | countPre {s : Core} {m : MVote} {v : SPBValue} {q : SPBProof} {x : SPBVote}
      (h : s.Did (.count m)) (ht : m.tag = .Yes v q x) :
      PesStep s (collect (fun a => a.addPreVote x cfg.committee) .finProved s).2
  | countShare {s : Core} {x : RandomnessShare}
      (h : ∃ m, s.Hears (.SPBDoneAndShare m) ∧ m.share = x)
      (hf : s.Fresh x.epoch x.height) (hn : s.getCoinLeader x.height x.round = none)
      (hv : cfg.parameters.exp = 1 → x.verify cfg.committee = .ok ()) :
      PesStep s { s with aggregator := (s.aggregator.addSmvbaRandom x cfg.committee).2 }
  | coin {s : Core} {c : RandomCoin} (h : ∃ m, s.Hears (.SPBDoneAndShare m) ∧
        m.share.height = c.height ∧ m.share.round = c.round ∧ m.share.epoch = c.epoch)
      (hf : s.Fresh c.epoch c.height) (hn : s.getCoinLeader c.height c.round = none)
      (hs : (s.aggregator.smvbaRandomcoin.getD (c.height, c.round) .new).shares = c.shares)
      (hl : SMVBARandomCoinMaker.electedLeader cfg.committee c.shares = some c.leader) :
      PesStep s (s.learnCoin c)
  | prepare {s : Core} {height val : ℕ} {qc : QC} (hc : s.PrepareCause cfg height qc val)
      (hn : s.prepareTag.contains height = false) :
      PesStep s (s.signPrepare (PrePare.new cfg.name s.epoch height qc val))
  | putOpt {s : Core} {p : PrePare} (hp : s.Countable cfg p) (hv : p.val = OPT)
      (hk : hasKey p.author (s.parPrepareOpts.getD p.height []) = false) :
      PesStep s (s.putOpt p)
  | putPes {s : Core} {p : PrePare} (hp : s.Countable cfg p) (hv : p.val = PES)
      (hk : hasKey p.author (s.parPreparePess.getD p.height []) = false) :
      PesStep s (s.putPes p)
  | countDone {s : Core} {m : MDoneAndShare} (h : s.Taken cfg (.SPBDoneAndShare m) m.epoch m.height
        (m.verify cfg.committee)) : PesStep s (s.countDone m)
  | enterRound {s : Core} {m : MVote} (h : s.Did (.count m))
      (hq : (s.smvbaVotes.getD (m.height, m.round) []).length = cfg.committee.quorumThreshold) :
      PesStep s ((s.log (.enterRound m.height (m.round + 1))).updateSmvbaState m.height
        (m.round + 1))
  | propose {s : Core} {v : SPBValue} (hi : s.Initial cfg v) (hv : v.phase = INIT_PHASE)
      (ha : v.block.author = cfg.name) (he : v.block.epoch = s.epoch) : PesStep s (s.propose v)
  | lock {s : Core} {v : SPBValue} {p : SPBProof} (h : s.SpbSource cfg v p)
      (hv : v.phase = LOCK_PHASE) : PesStep s (s.lock v p)
  | finish {s : Core} {v : SPBValue} {p : SPBProof}
      (h : s.Taken cfg (.SPBFinsh v p) v.block.epoch p.height
        (v.verify cfg.committee p cfg.parameters.fallbackLength)) : PesStep s (s.finish v p)
  | countMvote {s : Core} {m : MVote} (h : s.Taken cfg (.SMVBAVote m) m.epoch m.height
        (m.verify cfg.committee cfg.parameters.fallbackLength)) : PesStep s (s.countMvote m)
  | countNo {s : Core} {m : MPreVote} (h : s.Open cfg m) (ht : m.tag = .No) :
      PesStep s (s.countNo m)
  | yes {s : Core} {m : MPreVote} {v : SPBValue} {p : SPBProof} (h : s.Open cfg m)
      (ht : m.tag = .Yes v p) (hv : LOCK_PHASE < v.phase) :
      PesStep s (s.raiseYes (m.height, m.round) [])
  | voteYes {s : Core} {m : MPreVote} {v : SPBValue} {p : SPBProof} (h : s.Open cfg m)
      (ht : m.tag = .Yes v p) (hv : v.phase ≤ LOCK_PHASE) :
      PesStep s (s.raiseYes (m.height, m.round)
        [(s.epoch, .sign (.mvote (mvoteOn cfg m (.Yes v p (SPBVote.new v cfg.name))))),
         (s.epoch, .sign (.spbVote (SPBVote.new v cfg.name)))])
  | voteNo {s : Core} {m : MPreVote} (h : s.Open cfg m) (ht : m.tag = .No)
      (hq : (s.smvbaNoPrevotes.getD (m.height, m.round) []).length =
        cfg.committee.quorumThreshold) :
      PesStep s (s.raiseNo (m.height, m.round) (mvoteOn cfg m .No))
  | halt {s : Core} {m : MHalt} (h : s.Taken cfg (.SMVBAHalt m) m.epoch m.height
        (m.verify cfg.committee cfg.parameters.fallbackLength))
      (hl : s.getCoinLeader m.height m.round = some m.value.block.author)
      (hn : s.smvbaHaltFalg.getD m.height false = false) : PesStep s (s.halt m)

/-- A step of either path. -/
inductive Step (s t : Core) : Prop
  | opt (h : OptStep cfg s t)
  | pes (ha : s.PesActive cfg) (h : PesStep cfg s t)

end Ipotane.Core
