import Ipotane.Isolation
import Ipotane.Members

/-! What a message that names a stranger does where it makes the node do nothing further: it is
answered with a result or an error. -/
namespace Ipotane

open Lib Handler

section Passive

variable [Crypto]

/-! ### Names -/

namespace Committee

variable {c : Committee} {k : PublicKey}

omit [Crypto] in
theorem mem_sortedNames : k ∈ c.sortedNames ↔ k ∈ c.authorities.map Authority.name :=
  (List.perm_insertionSort _ _).mem_iff

omit [Crypto] in
theorem mem_sortedNames_of_stake_pos (h : 0 < c.stake k) : k ∈ c.sortedNames :=
  mem_sortedNames.mpr (List.mem_toFinset.mp (mem_names_of_stake_pos h))

end Committee

/-! ### The keys in a message -/

def PreVoteTag.names : PreVoteTag → List PublicKey
  | .Yes v _ => [v.block.author]
  | .No => []

def MVoteTag.names : MVoteTag → List PublicKey
  | .Yes v _ x => [v.block.author, x.author, x.proposer]
  | .No => []

namespace ConsensusMessage

/-- The authors, proposers and leaders that a message names. -/
def names : ConsensusMessage → List PublicKey
  | HsPropose b | HsLoopBack b | SyncReply b | FBPropose b | FBLoopBack b
  | ParLoopBack b => [b.author]
  | HSVote v | FBVote v => [v.author, v.proposer]
  | SyncRequest _ k => [k]
  | SPBPropose v _ | SPBFinsh v _ => [v.block.author]
  | SPBVote x => [x.author, x.proposer]
  | SPBDoneAndShare m => [m.author, m.share.author]
  | SMVBAPreVote m => m.author :: m.leader :: m.tag.names
  | SMVBAVote m => m.author :: m.leader :: m.tag.names
  | SMVBAHalt m => [m.author, m.leader, m.value.block.author]
  | ParPrePare p => [p.author]

end ConsensusMessage

/-! ### The weights of the makers -/

/-- A maker that has reached the quorum starts again from zero. -/
structure Aggregator.Light (c : Committee) (a : Aggregator) : Prop where
  fallbackVotes : a.fallbackVotes.Each (fun m => m.weight < c.quorumThreshold) .new
  spbVotes : a.spbVotes.Each (fun m => m.weight < c.quorumThreshold) .new
  preVotes : a.preVotes.Each (fun m => m.weight < c.quorumThreshold) .new

variable {c : Committee}

omit [Crypto] in
theorem Committee.quorumThreshold_pos : 0 < c.quorumThreshold := Nat.succ_pos _

theorem QCMaker.append_weight {m : QCMaker} {v : HVote} (h : m.weight < c.quorumThreshold) :
    (m.append v c).2.weight < c.quorumThreshold := by
  unfold append
  split
  · exact h
  · dsimp only
    split
    · exact Committee.quorumThreshold_pos
    · rename_i hlt
      exact Nat.lt_of_not_le hlt

theorem ProofMaker.append_weight {m : ProofMaker} {x : SPBVote} (h : m.weight < c.quorumThreshold) :
    (m.append x c).2.weight < c.quorumThreshold := by
  unfold append
  split
  · exact h
  · dsimp only
    split
    · exact Committee.quorumThreshold_pos
    · rename_i hlt
      exact Nat.lt_of_not_le hlt

namespace Aggregator

variable {a : Aggregator}

theorem light_new : Aggregator.new.Light c :=
  ⟨Map.each_empty Committee.quorumThreshold_pos, Map.each_empty Committee.quorumThreshold_pos,
    Map.each_empty Committee.quorumThreshold_pos⟩

end Aggregator

namespace Core

variable {cfg : Config} {s t : Core}

theorem light_clean (h : s.aggregator.Light c) (height reached : ℕ) (site : Termination) :
    (s.cleanSmvbaState height reached site).aggregator.Light c :=
  ⟨h.fallbackVotes, h.spbVotes.retain Committee.quorumThreshold_pos _,
    h.preVotes.retain Committee.quorumThreshold_pos _⟩

theorem light_cleanFor (h : s.aggregator.Light c) (b : Block) :
    (s.cleanFor cfg b).aggregator.Light c := by
  unfold cleanFor
  split
  · exact light_clean h _ _ _
  · exact h

theorem light_adopt (h : s.aggregator.Light c) (qc : QC) : (s.adopt qc).aggregator.Light c := by
  unfold adopt updateHighQc
  split <;> split <;> exact ⟨h.fallbackVotes, h.spbVotes, h.preVotes⟩

theorem light_collect {α : Type} {add : Aggregator → Appended α Aggregator} {mark : α → Event}
    (h : (add s.aggregator).2.Light c) : (collect add mark s).2.aggregator.Light c := by
  rwa [collect_aggregator]

theorem OptStep.light (h : OptStep cfg s t) (hs : s.aggregator.Light c) : t.aggregator.Light c := by
  cases h with
  | quiet h => exact h.aggregator ▸ hs
  | proposal _ _ _ => exact light_adopt (light_cleanFor hs _) _
  | overflow _ _ => exact light_cleanFor hs _
  | adopt _ _ _ _ _ => exact light_adopt hs _
  | countVote _ _ _ _ _ => exact light_collect ⟨hs.fallbackVotes, hs.spbVotes, hs.preVotes⟩
  | settle _ _ _ _ _ _ =>
    unfold Core.settle
    split <;> exact hs
  | _ => exact hs

theorem PesStep.light (h : PesStep cfg s t) (hs : s.aggregator.Light cfg.committee) :
    t.aggregator.Light cfg.committee := by
  cases h with
  | terminate _ => exact light_clean hs _ _ _
  | countFallback _ =>
    refine light_collect ⟨hs.fallbackVotes.insert ?_, hs.spbVotes, hs.preVotes⟩
    exact QCMaker.append_weight (hs.fallbackVotes _)
  | countSpb _ =>
    refine light_collect ⟨hs.fallbackVotes, hs.spbVotes.insert ?_, hs.preVotes⟩
    exact ProofMaker.append_weight (hs.spbVotes _)
  | countPre _ _ =>
    refine light_collect ⟨hs.fallbackVotes, hs.spbVotes, hs.preVotes.insert ?_⟩
    exact ProofMaker.append_weight (hs.preVotes _)
  | countShare _ _ _ _ => exact ⟨hs.fallbackVotes, hs.spbVotes, hs.preVotes⟩
  | _ => exact hs

theorem Step.light (h : Step cfg s t) (hs : s.aggregator.Light cfg.committee) :
    t.aggregator.Light cfg.committee := by
  cases h with
  | opt h => exact h.light hs
  | pes _ h => exact h.light hs

theorem Reachable.light {alive : Bool} (h : Reachable cfg s alive) :
    s.aggregator.Light cfg.committee := by
  refine (h.invariant (P := fun s => s.aggregator.Light cfg.committee) (C := fun _ => True)
    (fun _ _ _ h => h) Aggregator.light_new (fun _ _ hs _ => hs) ?_).2 trivial
  intro s t _ hs _ ht
  cases ht with
  | step ht => exact ht.light hs
  | epoch _ ht =>
    obtain ⟨marks, rest, heq, -, -⟩ := renewed_eq s
    rw [ht, heq]
    exact Aggregator.light_new

/-! ### Messages that bring nothing to an end -/

/-- The checks at the start of a handler let the message through. -/
def Passes (cfg : Config) (s : Core) (epoch height : ℕ) (check : Check) : Prop :=
  s.Fresh epoch height ∧ (cfg.parameters.exp = 1 → check = .ok ())

variable {call : Call → M Unit}

section Loop

variable {m : ConsensusMessage} {fuel : ℕ}

end Loop

end Core

end Passive

end Ipotane
