import Ipotane.Messages
import Ipotane.Lib.Map
import Mathlib.Data.List.Sort

/-! Vote collection (`consensus/src/aggregator.rs`). -/
namespace Ipotane

open Lib

variable [Crypto]

/-- A maker returns what the source's `append` returns, and its own next state. -/
abbrev Appended (α β : Type) := Except ConsensusError (Option α) × β

structure QCMaker where
  weight : ℕ
  votes : List (PublicKey × Signature)
  used : List PublicKey
deriving DecidableEq

namespace QCMaker

def new : QCMaker := ⟨0, [], []⟩

/-- The certificate takes its fields from the vote that completes it. -/
def assemble (votes : List (PublicKey × Signature)) (v : HVote) : QC :=
  ⟨v.hash, v.height, v.epoch, v.round, v.tag, v.proposer, v.proposer, votes⟩

def append (m : QCMaker) (v : HVote) (c : Committee) : Appended QC QCMaker :=
  if v.author ∈ m.used then (.error (.AuthorityReuseinQC v.author), m)
  else
    let used := v.author :: m.used
    let votes := m.votes ++ [(v.author, v.signature)]
    let weight := m.weight + c.stake v.author
    if c.quorumThreshold ≤ weight then (.ok (some (assemble votes v)), ⟨0, votes, used⟩)
    else (.ok none, ⟨weight, votes, used⟩)

theorem append_some {m : QCMaker} {v : HVote} {c : Committee} {q : QC}
    (h : (m.append v c).1 = .ok (some q)) :
    v.author ∉ m.used ∧ q = assemble (m.votes ++ [(v.author, v.signature)]) v ∧
      c.quorumThreshold ≤ m.weight + c.stake v.author := by
  unfold append at h
  split at h
  · cases h
  · dsimp only at h
    split at h
    · cases h
      exact ⟨by assumption, rfl, by assumption⟩
    · cases h

end QCMaker

structure ProofMaker where
  weight : ℕ
  votes : List SPBVote
  used : List PublicKey
deriving DecidableEq

namespace ProofMaker

def new : ProofMaker := ⟨0, [], []⟩

def append (m : ProofMaker) (v : SPBVote) (c : Committee) : Appended SPBProof ProofMaker :=
  if v.author ∈ m.used then (.error (.AuthorityReuseinProof v.author m.used), m)
  else
    let used := v.author :: m.used
    let votes := m.votes ++ [v]
    let weight := m.weight + c.stake v.author
    if c.quorumThreshold ≤ weight then
      (.ok (some ⟨(v.phase + 1) % 256, v.round, v.height, votes⟩), ⟨0, votes, used⟩)
    else (.ok none, ⟨weight, votes, used⟩)

theorem append_some {m : ProofMaker} {v : SPBVote} {c : Committee} {p : SPBProof}
    (h : (m.append v c).1 = .ok (some p)) :
    v.author ∉ m.used ∧ p = ⟨(v.phase + 1) % 256, v.round, v.height, m.votes ++ [v]⟩ ∧
      c.quorumThreshold ≤ m.weight + c.stake v.author := by
  unfold append at h
  split at h
  · cases h
  · dsimp only at h
    split at h
    · cases h
      exact ⟨by assumption, rfl, by assumption⟩
    · cases h

end ProofMaker

structure SMVBARandomCoinMaker where
  weight : ℕ
  shares : List RandomnessShare
  used : List PublicKey
deriving DecidableEq

/-- The authorities in the order of their keys. -/
def Committee.sortedNames (c : Committee) : List PublicKey :=
  (c.authorities.map Authority.name).insertionSort (· ≤ ·)

omit [Crypto] in
theorem Committee.sortedNames_length {c : Committee} : c.sortedNames.length = c.size := by
  rw [Committee.sortedNames, List.length_insertionSort, List.length_map, Committee.size]

namespace SMVBARandomCoinMaker

def new : SMVBARandomCoinMaker := ⟨0, [], []⟩

/-- The `BTreeMap` of the shares by id: a later share of one id replaces an earlier one. -/
def sharesById (c : Committee) (shares : List RandomnessShare) : List (ℕ × SignatureShare) :=
  (shares.foldl (fun m s => put (c.id s.author) s.signatureShare m) []).insertionSort
    (fun a b => a.1 ≤ b.1)

/-- `append` looks up the id of every collected author when it assembles the coin; the
lookup panics on a name outside the committee. -/
def missesId (m : SMVBARandomCoinMaker) (s : RandomnessShare) (c : Committee) : Bool :=
  s.author ∉ m.used ∧ m.weight + c.stake s.author = c.randomCoinThreshold ∧
    ∃ t ∈ m.shares ++ [s], c.find t.author = none

/-- The authority that the combined signature elects. -/
def electedLeader (c : Committee) (shares : List RandomnessShare) : Option PublicKey :=
  (Crypto.combine (sharesById c shares)).bind fun n => c.sortedNames[n % c.size]?

def append (m : SMVBARandomCoinMaker) (s : RandomnessShare) (c : Committee) :
    Appended RandomCoin SMVBARandomCoinMaker :=
  if s.author ∈ m.used then (.error (.AuthorityReuseinCoin s.author), m)
  else
    let shares := m.shares ++ [s]
    let weight := m.weight + c.stake s.author
    let next : SMVBARandomCoinMaker := ⟨weight, shares, s.author :: m.used⟩
    if weight = c.randomCoinThreshold then
      match electedLeader c shares with
      | some leader => (.ok (some ⟨s.height, s.epoch, s.round, leader, shares⟩), next)
      | none => (.ok none, next)
    else (.ok none, next)

theorem append_some {m : SMVBARandomCoinMaker} {s : RandomnessShare} {c : Committee}
    {coin : RandomCoin} (h : (m.append s c).1 = .ok (some coin)) :
    (coin.height = s.height ∧ coin.epoch = s.epoch ∧ coin.round = s.round) ∧
      (m.append s c).2.shares = coin.shares ∧ electedLeader c coin.shares = some coin.leader := by
  unfold append at h ⊢
  split at h
  · cases h
  · rename_i hused
    dsimp only at h
    split at h
    · rename_i hweight
      split at h
      · rename_i leader helected
        cases h
        refine ⟨⟨rfl, rfl, rfl⟩, ?_, helected⟩
        rw [if_neg hused, if_pos hweight, helected]
      · cases h
    · cases h

end SMVBARandomCoinMaker

/-- The committee of the source's record is the one of the node's configuration. -/
structure Aggregator where
  hsVotes : Map (ℕ × Digest) QCMaker
  fallbackVotes : Map (ℕ × ℕ) QCMaker
  spbVotes : Map (ℕ × ℕ × ℕ) ProofMaker
  preVotes : Map (ℕ × ℕ) ProofMaker
  smvbaRandomcoin : Map (ℕ × ℕ) SMVBARandomCoinMaker

namespace Aggregator

def new : Aggregator := ⟨.empty, .empty, .empty, .empty, .empty⟩

def addHsVote (a : Aggregator) (v : HVote) (c : Committee) : Appended QC Aggregator :=
  let (r, m) := (a.hsVotes.getD (v.height, v.hash) .new).append v c
  (r, { a with hsVotes := a.hsVotes.insert (v.height, v.hash) m })

def addFallbackVote (a : Aggregator) (v : HVote) (c : Committee) : Appended QC Aggregator :=
  let (r, m) := (a.fallbackVotes.getD (v.height, v.round) .new).append v c
  (r, { a with fallbackVotes := a.fallbackVotes.insert (v.height, v.round) m })

def addSpbVote (a : Aggregator) (v : SPBVote) (c : Committee) : Appended SPBProof Aggregator :=
  let (r, m) := (a.spbVotes.getD (v.height, v.round, v.phase) .new).append v c
  (r, { a with spbVotes := a.spbVotes.insert (v.height, v.round, v.phase) m })

def addPreVote (a : Aggregator) (v : SPBVote) (c : Committee) : Appended SPBProof Aggregator :=
  let (r, m) := (a.preVotes.getD (v.height, v.round) .new).append v c
  (r, { a with preVotes := a.preVotes.insert (v.height, v.round) m })

def addSmvbaRandom (a : Aggregator) (s : RandomnessShare) (c : Committee) :
    Appended RandomCoin Aggregator :=
  let (r, m) := (a.smvbaRandomcoin.getD (s.height, s.round) .new).append s c
  (r, { a with smvbaRandomcoin := a.smvbaRandomcoin.insert (s.height, s.round) m })

def cleanupHsVote (a : Aggregator) (height : ℕ) : Aggregator :=
  { a with hsVotes := a.hsVotes.retain fun k => k.1 > height }

def cleanupSpbVote (a : Aggregator) (height : ℕ) : Aggregator :=
  { a with
    spbVotes := a.spbVotes.retain fun k => k.1 > height
    preVotes := a.preVotes.retain fun k => k.1 > height }

def cleanupMvbaRandom (a : Aggregator) (height : ℕ) : Aggregator :=
  { a with smvbaRandomcoin := a.smvbaRandomcoin.retain fun k => k.1 > height }

end Aggregator

end Ipotane
