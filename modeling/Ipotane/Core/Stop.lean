import Ipotane.Core.Step

/-! Why a handler panics. -/
namespace Ipotane

open Lib

variable [Crypto]

/-- The sums that the handlers form, in an epoch, of the heights and rounds of a message. The filter
of the fallback path forms its sum whatever the epoch of the message is. -/
def ConsensusMessage.sums (epoch : ℕ) : ConsensusMessage → List ℕ
  | .HsPropose b | .SyncReply b =>
    if b.epoch = epoch then [b.height + 1, b.qc.height + 1] else []
  | .HsLoopBack b => [b.height + 1, b.qc.height + 1]
  | .HSVote v => if epoch ≤ v.epoch then [v.height + 1] else []
  | .FBPropose b | .FBLoopBack b => [b.height + 2]
  | .FBVote v => [v.height + 2]
  | .ParLoopBack b => if epoch ≤ b.epoch then [b.height + 2] else []
  | .ParPrePare p => if p.epoch = epoch then [p.height + 2] else []
  | .SPBPropose v p | .SPBFinsh v p => if epoch ≤ v.block.epoch then [p.height + 2] else []
  | .SPBVote x => if epoch ≤ x.epoch then [x.height + 2] else []
  | .SPBDoneAndShare m =>
    (if epoch ≤ m.epoch then [m.height + 2] else []) ++
      if epoch ≤ m.share.epoch then [m.share.height + 2] else []
  | .SMVBAPreVote m => if epoch ≤ m.epoch then [m.height + 2] else []
  | .SMVBAVote m => if epoch ≤ m.epoch then [m.height + 2, m.round + 1] else []
  | .SMVBAHalt m =>
    (if epoch ≤ m.epoch then [m.height + 2] else []) ++
      if epoch ≤ m.value.block.epoch then [m.value.block.height + 2] else []
  | .SyncRequest _ _ => []

namespace Core

/-- The reasons for each panic, as they stand in the state that the node stops in. -/
inductive Stops (cfg : Config) (s : Core) : Panic → Prop
  | message {m : ConsensusMessage} {n : ℕ} (h : s.Hears m) (hn : n ∈ m.sums s.epoch)
      (hb : 2 ^ 64 ≤ n) :
      Stops cfg s .overflow
  | block {b : Block} (h : ∃ height, s.Did (.process b height)) (hb : 2 ^ 64 ≤ b.qc.height + 1) :
      Stops cfg s .overflow
  | ancestor {b : Block} (h : s.Ever (.store b)) (hb : 2 ^ 64 ≤ b.height + 1) :
      Stops cfg s .overflow
  | output {b : Block} (h : s.Output b) (he : s.epoch ≤ b.epoch) (hb : 2 ^ 64 ≤ b.height + 2) :
      Stops cfg s .overflow
  | length (hb : 2 ^ 64 ≤ cfg.parameters.fallbackLength + 1) : Stops cfg s .overflow
  | low {b : Block} (h : s.Did (.process b s.height)) (hm : cfg.pesPath = true) (hh : 2 < b.height)
      (hl : s.height < 2) : Stops cfg s .overflow
  | self (h : cfg.name ∉ cfg.committee.sortedNames) : Stops cfg s .unknownKey
  | proposer {b : Block} (h : s.Did (.receive (.HsPropose b)) ∨ s.Did (.receive (.SyncReply b)))
      (he : b.epoch = s.epoch) (ha : b.author ∉ cfg.committee.sortedNames) : Stops cfg s .unknownKey
  | share {x : RandomnessShare} (h : ∃ m, s.Hears (.SPBDoneAndShare m) ∧ m.share = x)
      (hf : s.Fresh x.epoch x.height) (hn : s.getCoinLeader x.height x.round = none)
      (hv : cfg.parameters.exp = 1 → x.verify cfg.committee = .ok ())
      (hm : (s.aggregator.smvbaRandomcoin.getD (x.height, x.round) .new).missesId x
        cfg.committee = true) :
      Stops cfg s .unknownKey
  | parent {b : Block} (h : s.store.get b.digest = some b) (hg : ¬ b.qc.isGenesis)
      (hn : s.store.get b.parent = none) : Stops cfg s .missingAncestor
  | proposal {p : SPBProof} (h : s.Did (.proved p)) (hf : s.height < p.height + 2)
      (hn : s.spbProposes.get (p.height, p.round) = none) : Stops cfg s .noProposal
  | proposing : Stops cfg s .failedProposal

end Core

end Ipotane
