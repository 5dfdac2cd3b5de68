import Ipotane.Core.Run

/-! Symbolic primitives and a committee of four, on which concrete runs are evaluated. A
signature is the pair of its key and its digest, so only the owner of a key makes one. -/
namespace Ipotane

/-- A polynomial hash. -/
def polyHash (bytes : List UInt8) : Digest :=
  Fin.ofNat (2 ^ 256) (bytes.foldl (fun n b => n * 257 + b.toNat + 1) 0)

/-- A share names its author's id. All shares of a coin have one digest, which the combined
value depends on and nothing else. -/
instance symbolic : Crypto where
  Signature := PublicKey × Digest
  SignatureShare := ℕ × Digest
  decEqSignature := inferInstance
  decEqSignatureShare := inferInstance
  sha512 := polyHash
  signatureDefault := (0, 0)
  sign k d := (k, d)
  verify s d k := s = (k, d)
  signShare k d := (k.val, d)
  verifyShare id s d := s = (id, d)
  combine l := l.head?.map fun s => s.2.2.val % 7

/-- Four nodes of stake one, with ids that are their keys. -/
def fourNodes : Committee where
  authorities := [⟨0, 0, 1⟩, ⟨1, 1, 1⟩, ⟨2, 2, 1⟩, ⟨3, 3, 1⟩]
  nodup := by decide
  total_pos := by decide
  total_lt := by decide

/-- A fallback chain has one block, and two nodes may lead a height. -/
def sampleParameters : Parameters where
  timeoutDelay := 1000
  maxPayloadSize := 500
  ddos := false
  randomDdos := false
  fallbackLength := 1
  exp := 1
  leaderWindow := 2

/-- A node of the combined protocol whose blocks are empty and always available. -/
def sampleConfig (name : PublicKey) : Config where
  name := name
  committee := fourNodes
  parameters := sampleParameters
  optPath := true
  pesPath := true
  payload _ := []
  status _ := .Accept

/-- A node that reacts to one input after the other, as long as it runs. -/
def replay (cfg : Config) : List Input → Core → Option Core
  | [], s => some s
  | i :: is, s =>
    match Core.react cfg 40 i s with
    | (.ok (), s') => replay cfg is s'
    | _ => none

theorem reachable_replay {cfg : Config} {is : List Input} {s t : Core}
    (h : Core.Reachable cfg s true) (hr : replay cfg is s = some t) :
    Core.Reachable cfg t true := by
  induction is generalizing s with
  | nil =>
    cases hr
    exact h
  | cons i is ih =>
    unfold replay at hr
    split at hr
    · rename_i s' hreact
      have hnext := h.react 40 i (by simp [hreact])
      rw [hreact] at hnext
      exact ih hnext hr
    · cases hr

/-- A fact about the end of a replay that is decided by evaluation. -/
theorem exists_replay (cfg : Config) (is : List Input) (p : Core → Prop) [DecidablePred p]
    (h : (replay cfg is .new).any (p ·) = true) : ∃ s, Core.Reachable cfg s true ∧ p s := by
  cases hr : replay cfg is .new with
  | none =>
    rw [hr] at h
    cases h
  | some s =>
    rw [hr] at h
    exact ⟨s, reachable_replay .new hr, of_decide_eq_true h⟩

/-- The proposals of the leader of height `1` and of its deputy. -/
def leaderProposal : Block := Block.new .genesis 1 1 0 0 [] OPT

def deputyProposal : Block := Block.new .genesis 2 1 0 0 [] OPT

/-- A node that waits for the payload of the second proposal it is sent. -/
def waitingConfig : Config :=
  { sampleConfig 0 with status := fun n => if n = 2 then .Wait else .Accept }

def Core.voted (s : Core) (b : Block) : Prop :=
  .sign (.vote (HVote.new b 0 OPT)) ∈ s.trace.map Prod.snd

instance (s : Core) (b : Block) : Decidable (s.voted b) :=
  inferInstanceAs (Decidable (_ ∈ _))

/-- The state of a node after its start. -/
def booted (cfg : Config) : Core := (Core.react cfg 40 .boot .new).2

theorem reachable_booted {cfg : Config} (h : (Core.react cfg 40 .boot .new).1 = .ok ()) :
    Core.Reachable cfg (booted cfg) true := by
  have hnew : Core.Reachable cfg .new true := .new
  have hr := hnew.react 40 .boot (by simp [h])
  simpa [booted, h] using hr

end Ipotane
