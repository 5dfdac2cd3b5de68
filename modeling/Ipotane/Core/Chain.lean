import Ipotane.Core.Mono
import Ipotane.Core.Stop

/-! Every handler is a sequence of steps. -/
namespace Ipotane.Core

open Lib Handler

variable [Crypto] {cfg : Config} {call : Call → M Unit} {s t : Core}

/-- What `x` does from `s` on is a sequence of steps, and it panics for a reason. -/
abbrev Chain (cfg : Config) (s : Core) {α : Type} (x : M α) : Prop :=
  Steps (Step cfg) (Stops cfg) s x

/-- What holds whenever a handler is called. -/
def Ready (cfg : Config) (s : Core) : Call → Prop
  | .commit b => s.Ever (.store b) ∨ b = .genesis
  | .optPropose => s.Leads cfg
  | .handleOptProposal b => s.Did (.receive (.HsPropose b)) ∨ s.Did (.receive (.SyncReply b))
  | .processOptBlock b => s.Admits cfg b
  | .handleOptVote v => s.Hears (.HSVote v)
  | .handleSyncRequest _ _ => True
  | .invokeFallback _ qc => s.PesActive cfg ∧ s.Starts (qc.getD .genesis)
  | .broadcastFallbackPropose b => s.PesActive cfg ∧ b.tag = PES ∧ 0 < b.round ∧
      s.trace.head? = some (s.epoch, .sign (.block b))
  | .handleFallbackVote v => s.PesActive cfg ∧ s.Hears (.FBVote v)
  | .handleFallbackPropose b => s.PesActive cfg ∧ s.Did (.receive (.FBPropose b))
  | .processFallbackPropose b => s.PesActive cfg ∧ s.Fallen b ∧ s.Supplied b
  | .activePreparePhase height qc val => s.PesActive cfg ∧ s.PrepareCause cfg height qc val
  | .handleParPrepare p => s.PesActive cfg ∧ s.Hears (.ParPrePare p)
  | .smvbaRoundAdvance height round => s.PesActive cfg ∧ s.height < height + 2 ∧
      ∃ m, s.Did (.count m) ∧ m.height = height ∧ m.round + 1 = round ∧
        (s.smvbaVotes.getD (m.height, m.round) []).length = cfg.committee.quorumThreshold
  | .invokeSmvba height val signatures qc => s.PesActive cfg ∧ s.height < height + 2 ∧
      s.Backing cfg height val signatures ∧ s.Inputs cfg height val qc
  | .broadcastPesPropose v p => s.PesActive cfg ∧ s.height < p.height + 2 ∧ s.Proposable cfg v p
  | .handleSpbProposal v p => s.PesActive cfg ∧ s.Did (.receive (.SPBPropose v p))
  | .processSpbPropose v p => s.PesActive cfg ∧ s.height < p.height + 2 ∧ s.SpbSource cfg v p
  | .handleSpbVote x => s.PesActive cfg ∧ s.Hears (.SPBVote x)
  | .handleSpbFinish v p => s.PesActive cfg ∧ s.Hears (.SPBFinsh v p)
  | .invokeDoneAndShare height round => s.PesActive cfg ∧ s.height < height + 2 ∧
      s.DoneCause height round
  | .handleSmvbaDoneWithShare m => s.PesActive cfg ∧ s.Hears (.SPBDoneAndShare m)
  | .handleSmvbaDone m => s.PesActive cfg ∧ s.Hears (.SPBDoneAndShare m)
  | .handleSmvbaRs x => s.PesActive cfg ∧ ∃ m, s.Hears (.SPBDoneAndShare m) ∧ m.share = x
  | .handleSmvbaPrevote m => s.PesActive cfg ∧ s.Hears (.SMVBAPreVote m)
  | .handleSmvbaMvote m => s.PesActive cfg ∧ s.Hears (.SMVBAVote m)
  | .handleSmvbaHalt m => s.PesActive cfg ∧ s.Hears (.SMVBAHalt m)
  | .processParOut b => s.PesActive cfg ∧ s.Output b ∧ s.Supplied b

/-- The commit loop leaves marks and nothing else. -/
def CommitsTidily (call : Call → M Unit) : Prop :=
  ∀ b s, s.StoreOk → (s.Ever (.store b) ∨ b = .genesis) →
    (call (.commit b) s).1 = .exhausted ∨
    ∃ marks, call (.commit b) s = (.ok (), s.marked marks) ∧
      ∀ x ∈ marks, x.1 = s.epoch ∧ s.Tidy x.2

/-- Nested calls are sequences of steps. -/
structure Sound (cfg : Config) (call : Call → M Unit) : Prop where
  steps : ∀ c s, s.StoreOk → Ready cfg s c → Chain cfg s (call c)
  commit : CommitsTidily call

/-! ### Small operations -/

theorem step_log {x : Event} (h : s.OptLog cfg x) : Step cfg s (s.log x) := .opt (.log h)

theorem chain_quiet {f : Core → Core} (h : Alike s (f s)) : Chain cfg s (update f) :=
  steps_update (.opt (.quiet h))

theorem alike_requests (n : ℕ) : Alike s { s with requests := n } := by
  constructor <;> simp

theorem chain_resetTimer {d : Option ℕ} (h : d ≠ none → s.Leads cfg) : Chain cfg s (resetTimer d) :=
  steps_update (.opt (.arm h))

theorem chain_transmit {m : ConsensusMessage} {dest : Option PublicKey} {tag : ℕ}
    (h : Step cfg s (s.log (.send m dest tag))) : Chain cfg s (transmit cfg m dest tag) :=
  steps_looks_bind (looks_ensureM _ _) fun _ _ => steps_update h

theorem chain_add_bind {α : Type} {a b : ℕ} {f : ℕ → M α}
    (hp : 2 ^ 64 ≤ a + b → s.Stops cfg .overflow)
    (hf : a + b < 2 ^ 64 → Chain cfg s (f (a + b))) : Chain cfg s (add a b >>= f) := by
  refine steps_reads_bind (reads_add a b) (fun p h => ?_) fun n h => ?_
  · obtain ⟨rfl, hb⟩ := add_panic h
    exact hp hb
  · obtain ⟨rfl, hb⟩ := add_ok h
    exact hf hb

/-- A lookup of the node itself. -/
theorem chain_ownIndex_bind {α : Type} {height : ℕ} {f : Option ℕ → M α}
    (hf : Chain cfg s
      (f (cfg.committee.indexAsLeader cfg.parameters.leaderWindow cfg.name height))) :
    Chain cfg s (indexAsLeader cfg cfg.name height >>= f) := by
  refine steps_reads_bind (reads_indexAsLeader _ _) (fun p h => ?_) fun idx h => ?_
  · obtain ⟨rfl, hn⟩ := indexAsLeader_panic h
    exact .self hn
  · obtain ⟨-, rfl⟩ := indexAsLeader_ok h
    exact hf

theorem transmit_ok {m : ConsensusMessage} {dest : Option PublicKey} {tag : ℕ} {u : Unit}
    (h : transmit cfg m dest tag s = (.ok u, t)) : t = s.log (.send m dest tag) := by
  obtain ⟨_, s₁, h₁, h⟩ := bind_ok h
  cases (reads_ensureM _ _).eq h₁
  cases h
  rfl

/-- The proposal is signed after the mempool has been asked for its payload. -/
theorem chain_generateProposal {height round tag : ℕ} {qc : Option QC}
    (h : ∀ payload, ∀ t, Alike s t → Step cfg t (t.log (.sign (.block
      (Block.new (qc.getD .genesis) cfg.name height t.epoch round payload tag))))) :
    Chain cfg s (generateProposal cfg height round qc tag) := by
  unfold generateProposal mempoolGet
  have hq := alike_requests (s := s) (s.requests + 1)
  refine steps_seq rfl (.single (.opt (.quiet hq))) ?_
  refine steps_self_bind (steps_bind (steps_update (h _ _ hq)) ?_)
  intro _ _ _ _
  exact steps_pure _

theorem generateProposal_ok {height round tag : ℕ} {qc : Option QC} {b : Block}
    (h : generateProposal cfg height round qc tag s = (.ok b, t)) :
    (∃ payload, b = Block.new (qc.getD .genesis) cfg.name height s.epoch round payload tag) ∧
      t.trace.head? = some (t.epoch, .sign (.block b)) ∧ Alike { s with trace := t.trace } t := by
  cases h
  refine ⟨⟨_, rfl⟩, rfl, ?_⟩
  constructor <;> simp [log]

theorem chain_collect {α : Type} {add : Aggregator → Appended α Aggregator} {mark : α → Event}
    (h : Step cfg s (collect add mark s).2) : Chain cfg s (collect add mark) := by
  refine steps_of_step h ?_
  intro p
  unfold collect
  split <;> nofun

theorem collect_height {α : Type} (add : Aggregator → Appended α Aggregator) (mark : α → Event) :
    (collect add mark s).2.height = s.height := by
  unfold collect
  split <;> rfl

theorem adopt_highQc (s : Core) (qc : QC) :
    (s.adopt qc).highQc = if qc.height > s.highQc.height then qc else s.highQc := by
  unfold adopt updateHighQc
  by_cases hlt : qc.height < s.height
  · rw [if_pos hlt]
    split <;> rfl
  · rw [if_neg hlt]
    change (if qc.height > s.highQc.height then _ else _ : Core).highQc = _
    split <;> rfl

theorem adopt_height (s : Core) (qc : QC) : (s.adopt qc).height = max s.height (qc.height + 1) := by
  unfold adopt updateHighQc
  split
  · have hmax : s.height = max s.height (qc.height + 1) := by omega
    split <;> exact hmax
  · have hmax : qc.height + 1 = max s.height (qc.height + 1) := by omega
    split <;> exact hmax

theorem collect_some {α : Type} {add : Aggregator → Appended α Aggregator}
    {mark : α → Event} {x : α} (h : collect add mark s = (.ok (some x), t)) :
    (add s.aggregator).1 = .ok (some x) ∧ t.trace.head? = some (t.epoch, mark x) := by
  unfold collect at h
  split at h
  · cases h
  · cases h
  · rename_i hadd
    cases h
    exact ⟨by rw [hadd], rfl⟩

end Ipotane.Core
