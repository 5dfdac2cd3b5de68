import Ipotane.Config

/-! Messages, the digests they are signed under and their checks
(`consensus/src/messages.rs`, `consensus/src/error.rs`). A `SeqNumber` is a natural number
here; the handlers that add to one check that the result is a `u64`. -/
namespace Ipotane

def OPT : ℕ := 0
def PES : ℕ := 1
def FALLBACK : ℕ := 2

def INIT_PHASE : ℕ := 0
def LOCK_PHASE : ℕ := 1
def FIN_PHASE : ℕ := 2

variable [Crypto]

inductive ConsensusError
  | EpochEnd (epoch : ℕ)
  | NotInCommittee (name : PublicKey)
  | InvalidFinProof
  | InvalidSignature
  | InvalidThresholdSignature (name : PublicKey)
  | InvalidPrePareTag (val : ℕ)
  | InvalidPreParePESQC (round : ℕ)
  | TimeOutMessage (a b : ℕ)
  | AuthorityReuseinQC (name : PublicKey)
  | AuthorityReuseinProof (name : PublicKey) (used : List PublicKey)
  | AuthorityReuseinPrePare (name : PublicKey)
  | AuthorityReuseinCoin (name : PublicKey)
  | UnknownAuthority (name : PublicKey)
  | QCRequiresQuorum
  | SPBRequiresQuorum
  | WrongBlockSender (digest : Digest) (name : PublicKey) (round : ℕ)
  | WrongVoteRecipient (digest : Digest) (name : PublicKey) (round : ℕ)
  | InvalidPayload
  | NonConsecutiveRounds (rd1 rd2 rd3 : ℕ)
deriving DecidableEq

/-- The result of a check: `ConsensusResult<()>`. -/
abbrev Check := Except ConsensusError Unit

/-- The `ensure!` of `error.rs`. -/
def ensure (cond : Prop) [Decidable cond] (e : ConsensusError) : Check :=
  if cond then .ok () else .error e

/-- `Signature::verify` with the error conversion of `?`. -/
def checkSignature (s : Signature) (d : Digest) (k : PublicKey) : Check :=
  ensure (Crypto.verify s d k = true) .InvalidSignature

def checkBatch (d : Digest) (votes : List (PublicKey × Signature)) : Check :=
  ensure (verifyBatch d votes = true) .InvalidSignature

/-! ### Quorum certificates -/

structure QC where
  hash : Digest
  height : ℕ
  epoch : ℕ
  round : ℕ
  tag : ℕ
  proposer : PublicKey
  acceptor : PublicKey
  votes : List (PublicKey × Signature)
deriving DecidableEq

namespace QC

def genesis : QC := ⟨0, 0, 0, 0, 0, 0, 0, []⟩

/-- `PartialEq for QC`; its third conjunct compares `self.epoch` with itself. -/
def partialEq (a b : QC) : Prop :=
  a.hash = b.hash ∧ a.height = b.height ∧ a.epoch = a.epoch ∧ a.proposer = b.proposer

instance (a b : QC) : Decidable (a.partialEq b) :=
  inferInstanceAs (Decidable
    (a.hash = b.hash ∧ a.height = b.height ∧ a.epoch = a.epoch ∧ a.proposer = b.proposer))

abbrev isGenesis (q : QC) : Prop := q.partialEq genesis

def digest (q : QC) : Digest :=
  sha512 (q.hash.bytes ++ leBytes 8 q.height ++ leBytes 8 q.round ++ leBytes 1 q.tag ++
    leBytes 8 q.epoch ++ q.proposer.bytes)

/-- The loop of `QC::verify` from the state `(used, weight)` on. -/
def tally (c : Committee) (used : List PublicKey) (weight : ℕ) :
    List (PublicKey × Signature) → Except ConsensusError ℕ
  | [] => .ok weight
  | (name, _) :: votes => do
    ensure (name ∉ used) (.AuthorityReuseinQC name)
    ensure (0 < c.stake name) (.UnknownAuthority name)
    tally c (name :: used) (weight + c.stake name) votes

def verify (q : QC) (c : Committee) : Check := do
  let weight ← tally c [] 0 q.votes
  ensure (c.quorumThreshold ≤ weight) .QCRequiresQuorum
  checkBatch q.digest q.votes

/-- The check of an embedded certificate; the genesis certificate is not verified. -/
def check (q : QC) (c : Committee) : Check := if q.isGenesis then .ok () else q.verify c

end QC

/-! ### Blocks -/

structure Block where
  qc : QC
  author : PublicKey
  height : ℕ
  epoch : ℕ
  payload : List Digest
  signature : Signature
  tag : ℕ
  round : ℕ
deriving DecidableEq

namespace Block

def genesis : Block := ⟨QC.genesis, 0, 0, 0, [], default, 0, 0⟩

def parent (b : Block) : Digest := b.qc.hash

/-- The round and the rest of the certificate are not hashed. -/
def digest (b : Block) : Digest :=
  sha512 (b.author.bytes ++ leBytes 8 b.height ++ leBytes 8 b.epoch ++
    b.payload.flatMap Digest.bytes ++ b.qc.hash.bytes ++ leBytes 1 b.tag)

def new (qc : QC) (author : PublicKey) (height epoch round : ℕ) (payload : List Digest)
    (tag : ℕ) : Block :=
  let block : Block := ⟨qc, author, height, epoch, payload, default, tag, round⟩
  { block with signature := Crypto.sign author block.digest }

def verify (b : Block) (c : Committee) : Check := do
  ensure (0 < c.stake b.author) (.UnknownAuthority b.author)
  checkSignature b.signature b.digest b.author
  b.qc.check c

end Block

/-! ### Votes on blocks -/

structure HVote where
  hash : Digest
  height : ℕ
  round : ℕ
  epoch : ℕ
  proposer : PublicKey
  tag : ℕ
  author : PublicKey
  signature : Signature
deriving DecidableEq

namespace HVote

def digest (v : HVote) : Digest :=
  sha512 (v.hash.bytes ++ leBytes 8 v.height ++ leBytes 8 v.round ++ leBytes 1 v.tag ++
    leBytes 8 v.epoch ++ v.proposer.bytes)

def new (b : Block) (author : PublicKey) (tag : ℕ) : HVote :=
  let vote : HVote := ⟨b.digest, b.height, b.round, b.epoch, b.author, tag, author, default⟩
  { vote with signature := Crypto.sign author vote.digest }

def verify (v : HVote) (c : Committee) : Check := do
  ensure (0 < c.stake v.author) (.UnknownAuthority v.author)
  checkSignature v.signature v.digest v.author

end HVote

/-! ### Prepares -/

structure PrePare where
  author : PublicKey
  epoch : ℕ
  height : ℕ
  val : ℕ
  qc : QC
  signature : Signature
deriving DecidableEq

namespace PrePare

/-- Only the value is hashed. -/
def digest (p : PrePare) : Digest := sha512 (leBytes 1 p.val)

def new (author : PublicKey) (epoch height : ℕ) (qc : QC) (val : ℕ) : PrePare :=
  let prepare : PrePare := ⟨author, epoch, height, val, qc, default⟩
  { prepare with signature := Crypto.sign author prepare.digest }

def verify (p : PrePare) (c : Committee) (fallbackLength : ℕ) : Check := do
  ensure (p.val = OPT ∨ p.val = PES) (.InvalidPrePareTag p.val)
  checkSignature p.signature p.digest p.author
  p.qc.check c
  ensure (¬ (p.qc.tag = PES ∧ p.qc.round ≠ fallbackLength)) (.InvalidPreParePESQC p.qc.round)

end PrePare

/-! ### Strong provable broadcast -/

structure SPBVote where
  hash : Digest
  phase : ℕ
  height : ℕ
  epoch : ℕ
  round : ℕ
  proposer : PublicKey
  author : PublicKey
  signature : Signature
deriving DecidableEq

structure SPBProof where
  phase : ℕ
  round : ℕ
  height : ℕ
  shares : List SPBVote
deriving DecidableEq

structure SPBValue where
  val : ℕ
  signatures : List (PublicKey × Signature)
  block : Block
  round : ℕ
  phase : ℕ
deriving DecidableEq

namespace SPBVote

def digest (v : SPBVote) : Digest := sha512 (v.hash.bytes ++ beBytes 1 v.phase)

def verify (v : SPBVote) (c : Committee) : Check := do
  ensure (0 < c.stake v.author) (.UnknownAuthority v.author)
  checkSignature v.signature v.digest v.author

end SPBVote

namespace SPBProof

/-- The first loop of `SPBProof::verify` from the sum `weight` on. -/
def tally (c : Committee) (weight : ℕ) : List SPBVote → Except ConsensusError ℕ
  | [] => .ok weight
  | share :: shares => do
    ensure (0 < c.stake share.author) (.UnknownAuthority share.author)
    tally c (weight + c.stake share.author) shares

def verifyShares (c : Committee) : List SPBVote → Check
  | [] => .ok ()
  | share :: shares => do
    share.verify c
    verifyShares c shares

def verify (p : SPBProof) (c : Committee) : Check :=
  if p.phase ≤ INIT_PHASE then .ok ()
  else do
    let weight ← tally c 0 p.shares
    ensure (c.quorumThreshold ≤ weight) .SPBRequiresQuorum
    verifyShares c p.shares

end SPBProof

namespace SPBValue

def digest (v : SPBValue) : Digest :=
  sha512 (v.block.digest.bytes ++ leBytes 8 v.round ++ leBytes 1 v.phase)

def abaValDigest (val : ℕ) : Digest := sha512 (leBytes 1 val)

/-- The number of signatures is compared with the threshold of the value. -/
def enoughSignatures (v : SPBValue) (c : Committee) : Bool :=
  if v.val = OPT ∧ v.signatures.length < c.randomCoinThreshold then false
  else if v.val = PES ∧ v.signatures.length < c.quorumThreshold then false
  else true

def verifySignatures (v : SPBValue) (c : Committee) : Check :=
  if v.enoughSignatures c = true ∧ v.block.height ≠ 1 then
    checkBatch (abaValDigest v.val) v.signatures
  else ensure (v.block.height = 1) (.InvalidPrePareTag v.val)

def verify (v : SPBValue) (c : Committee) (proof : SPBProof) (fallbackLength : ℕ) :
    Check := do
  v.verifySignatures c
  ensure (v.block.qc.round = fallbackLength) (.InvalidPreParePESQC v.block.qc.round)
  v.block.verify c
  proof.verify c

end SPBValue

def SPBVote.new (v : SPBValue) (author : PublicKey) : SPBVote :=
  let vote : SPBVote :=
    ⟨v.digest, v.phase, v.block.height, v.block.epoch, v.round, v.block.author, author, default⟩
  { vote with signature := Crypto.sign author vote.digest }

/-! ### Randomness -/

structure RandomnessShare where
  height : ℕ
  epoch : ℕ
  round : ℕ
  author : PublicKey
  signatureShare : SignatureShare
deriving DecidableEq

namespace RandomnessShare

def coinDigest (round height epoch : ℕ) : Digest :=
  sha512 (leBytes 8 round ++ leBytes 8 height ++ leBytes 8 epoch)

def digest (s : RandomnessShare) : Digest := coinDigest s.round s.height s.epoch

def new (height epoch round : ℕ) (author : PublicKey) : RandomnessShare :=
  ⟨height, epoch, round, author, Crypto.signShare author (coinDigest round height epoch)⟩

/-- `committee.id` does not panic here: the author has been found to have stake. -/
def verify (s : RandomnessShare) (c : Committee) : Check := do
  ensure (0 < c.stake s.author) (.UnknownAuthority s.author)
  ensure (Crypto.verifyShare (c.id s.author) s.signatureShare s.digest = true)
    (.InvalidThresholdSignature s.author)

end RandomnessShare

structure RandomCoin where
  height : ℕ
  epoch : ℕ
  round : ℕ
  leader : PublicKey
  shares : List RandomnessShare
deriving DecidableEq

/-! ### Multi-valued agreement -/

structure MDoneAndShare where
  author : PublicKey
  signature : Signature
  epoch : ℕ
  height : ℕ
  round : ℕ
  share : RandomnessShare
deriving DecidableEq

namespace MDoneAndShare

def digest (m : MDoneAndShare) : Digest :=
  sha512 (m.author.bytes ++ beBytes 8 m.round ++ leBytes 8 m.height ++ leBytes 8 m.epoch)

def new (author : PublicKey) (epoch height round : ℕ) (share : RandomnessShare) :
    MDoneAndShare :=
  let done : MDoneAndShare := ⟨author, default, epoch, height, round, share⟩
  { done with signature := Crypto.sign author done.digest }

def verify (m : MDoneAndShare) (c : Committee) : Check := do
  checkSignature m.signature m.digest m.author
  m.share.verify c

end MDoneAndShare

inductive PreVoteTag
  | Yes (value : SPBValue) (proof : SPBProof)
  | No
deriving DecidableEq

namespace PreVoteTag

/-- `to_string`: the bytes of `PreVote-Yes` and `PreVote-No`. -/
def bytes : PreVoteTag → List UInt8
  | Yes _ _ => [80, 114, 101, 86, 111, 116, 101, 45, 89, 101, 115]
  | No => [80, 114, 101, 86, 111, 116, 101, 45, 78, 111]

def verify (t : PreVoteTag) (c : Committee) (fallbackLength : ℕ) : Check :=
  match t with
  | Yes v p => v.verify c p fallbackLength
  | No => .ok ()

end PreVoteTag

structure MPreVote where
  author : PublicKey
  signature : Signature
  leader : PublicKey
  round : ℕ
  height : ℕ
  epoch : ℕ
  tag : PreVoteTag
deriving DecidableEq

namespace MPreVote

def digest (m : MPreVote) : Digest :=
  sha512 (m.author.bytes ++ m.leader.bytes ++ beBytes 8 m.round ++ leBytes 8 m.height ++
    leBytes 8 m.epoch ++ m.tag.bytes)

def new (author leader : PublicKey) (round height epoch : ℕ) (tag : PreVoteTag) :
    MPreVote :=
  let pvote : MPreVote := ⟨author, default, leader, round, height, epoch, tag⟩
  { pvote with signature := Crypto.sign author pvote.digest }

def verify (m : MPreVote) (c : Committee) (fallbackLength : ℕ) : Check := do
  ensure (0 < c.stake m.author) (.UnknownAuthority m.author)
  checkSignature m.signature m.digest m.author
  m.tag.verify c fallbackLength

end MPreVote

inductive MVoteTag
  | Yes (value : SPBValue) (proof : SPBProof) (vote : SPBVote)
  | No
deriving DecidableEq

namespace MVoteTag

/-- `to_string`: the bytes of `Vote-Yes` and `Vote-No`. -/
def bytes : MVoteTag → List UInt8
  | Yes _ _ _ => [86, 111, 116, 101, 45, 89, 101, 115]
  | No => [86, 111, 116, 101, 45, 78, 111]

def verify (t : MVoteTag) (c : Committee) (fallbackLength : ℕ) : Check :=
  match t with
  | Yes value proof vote => do
    value.verify c proof fallbackLength
    vote.verify c
  | No => .ok ()

end MVoteTag

structure MVote where
  author : PublicKey
  leader : PublicKey
  round : ℕ
  height : ℕ
  epoch : ℕ
  signature : Signature
  tag : MVoteTag
deriving DecidableEq

namespace MVote

def digest (m : MVote) : Digest :=
  sha512 (m.author.bytes ++ beBytes 8 m.round ++ leBytes 8 m.height ++ leBytes 8 m.epoch ++
    m.tag.bytes)

def new (author leader : PublicKey) (round height epoch : ℕ) (tag : MVoteTag) : MVote :=
  let pvote : MVote := ⟨author, leader, round, height, epoch, default, tag⟩
  { pvote with signature := Crypto.sign author pvote.digest }

def verify (m : MVote) (c : Committee) (fallbackLength : ℕ) : Check := do
  ensure (0 < c.stake m.author) (.UnknownAuthority m.author)
  checkSignature m.signature m.digest m.author
  m.tag.verify c fallbackLength

end MVote

structure MHalt where
  author : PublicKey
  leader : PublicKey
  value : SPBValue
  proof : SPBProof
  round : ℕ
  height : ℕ
  epoch : ℕ
  signature : Signature
deriving DecidableEq

namespace MHalt

def digest (m : MHalt) : Digest :=
  sha512 (m.author.bytes ++ leBytes 8 m.round ++ leBytes 8 m.height ++ leBytes 8 m.epoch)

def new (author leader : PublicKey) (value : SPBValue) (proof : SPBProof) : MHalt :=
  let halt : MHalt :=
    ⟨author, leader, value, proof, proof.round, proof.height, value.block.epoch, default⟩
  { halt with signature := Crypto.sign author halt.digest }

def verify (m : MHalt) (c : Committee) (fallbackLength : ℕ) : Check := do
  ensure (0 < c.stake m.author) (.UnknownAuthority m.author)
  checkSignature m.signature m.digest m.author
  ensure (m.proof.phase = FIN_PHASE) .InvalidFinProof
  m.value.verify c m.proof fallbackLength

end MHalt

/-- The one enum of the wire and of both channels of a node (`core.rs`). -/
inductive ConsensusMessage
  | HsPropose (block : Block)
  | HSVote (vote : HVote)
  | HsLoopBack (block : Block)
  | SyncRequest (digest : Digest) (sender : PublicKey)
  | SyncReply (block : Block)
  | SPBPropose (value : SPBValue) (proof : SPBProof)
  | SPBVote (vote : SPBVote)
  | SPBFinsh (value : SPBValue) (proof : SPBProof)
  | SPBDoneAndShare (done : MDoneAndShare)
  | SMVBAPreVote (prevote : MPreVote)
  | SMVBAVote (mvote : MVote)
  | SMVBAHalt (halt : MHalt)
  | ParPrePare (prepare : PrePare)
  | ParLoopBack (block : Block)
  | FBPropose (block : Block)
  | FBVote (vote : HVote)
  | FBLoopBack (block : Block)
deriving DecidableEq

end Ipotane
