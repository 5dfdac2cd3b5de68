import Ipotane.Core.Record
import Ipotane.Lib.History
import Ipotane.Symbolic

/-! Which blocks the optimistic path votes for and commits by. -/
namespace Ipotane.Core

open Lib Handler

section Vetting

variable [Crypto] {cfg : Config} {s t : Core} {b : Block}

/-- The node has created the block, or it is an optimistic block that has passed the checks. -/
def Vouched (cfg : Config) (s : Core) (b : Block) : Prop :=
  s.Ever (.sign (.block b)) ∨ (b.tag = OPT ∧ Vetted cfg b)

/-- Only such blocks are voted for, and only such blocks complete a two-chain. -/
structure OnlyVouched (cfg : Config) (s : Core) : Prop where
  votes : ∀ v, s.Ever (.sign (.vote v)) → v.tag = OPT →
    ∃ b, v = HVote.new b cfg.name OPT ∧ s.Vouched cfg b
  commits : ∀ b0 b1 b, s.Ever (.commit b0 (.twoChain b1 b)) → s.Vouched cfg b

/-- The mempool keeps the block for the optimistic path, or the node processes it. -/
def Begun (b : Block) : Event → Prop
  | .suspend c tag => c = b ∧ tag = OPT
  | .process c _ => c = b
  | _ => False

instance (x : Event) : Decidable (Begun b x) := by
  unfold Begun
  rcases x <;> infer_instance

/-- A proposal of the node's epoch is tagged `OPT`, and a block that is handed back is one
that the mempool has kept or that the node has begun to process. -/
def Sourced (x : ℕ × Event) (past : List (ℕ × Event)) : Prop :=
  match x with
  | (e, .receive (.HsPropose b)) | (e, .receive (.SyncReply b)) => b.epoch = e → b.tag = OPT
  | (_, .receive (.HsLoopBack b)) => ∃ y ∈ past, Begun b y.2
  | _ => True

instance (x : ℕ × Event) (past : List (ℕ × Event)) : Decidable (Sourced x past) := by
  obtain ⟨_, x⟩ := x
  unfold Sourced
  rcases x
  case receive m => rcases m <;> infer_instance
  all_goals infer_instance

/-- What the entries of a record vouch for. -/
def Vouches (cfg : Config) (s : Core) : Event → Prop
  | .send (.HsPropose b) _ _ => s.Ever (.sign (.block b))
  | .process b _ => s.Vouched cfg b
  | .suspend b tag => tag = OPT → s.Vouched cfg b
  | .sign (.vote v) => v.tag = OPT → ∃ b, v = HVote.new b cfg.name OPT ∧ s.Vouched cfg b
  | .commit _ (.twoChain _ b) => s.Vouched cfg b
  | _ => True

def VetInv (cfg : Config) (s : Core) : Prop := ∀ x ∈ s.trace, s.Vouches cfg x.2

theorem Vouched.mono (h : s.trace <:+ t.trace) (hb : s.Vouched cfg b) : t.Vouched cfg b := by
  rcases hb with ⟨e, hb⟩ | hb
  · exact .inl ⟨e, h.subset hb⟩
  · exact .inr hb

theorem Vouches.mono (h : s.trace <:+ t.trace) {y : Event} (hy : s.Vouches cfg y) :
    t.Vouches cfg y := by
  unfold Vouches at hy ⊢
  split at hy
  · obtain ⟨e, he⟩ := hy
    exact ⟨e, h.subset he⟩
  · exact Vouched.mono h hy
  · exact fun ht => Vouched.mono h (hy ht)
  · intro ht
    obtain ⟨b, hv, hb⟩ := hy ht
    exact ⟨b, hv, hb.mono h⟩
  · exact Vouched.mono h hy
  · trivial

theorem Proposed.tag (hc : Along Sourced s.trace) (h : s.Proposed cfg b) : b.tag = OPT := by
  rcases h.received with hr | hr
  · obtain ⟨past, _, hp⟩ := hc.of_mem hr
    exact hp h.epoch
  · obtain ⟨past, _, hp⟩ := hc.of_mem hr
    exact hp h.epoch

theorem Begun.vouched {y : Event} (h : Begun b y) (hy : s.Vouches cfg y) : s.Vouched cfg b := by
  unfold Begun at h
  split at h
  · obtain ⟨rfl, rfl⟩ := h
    exact hy rfl
  · subst h
    exact hy
  · exact h.elim

theorem Admits.vouched (hs : VetInv cfg s) (hc : Along Sourced s.trace) (h : s.Admits cfg b) :
    s.Vouched cfg b := by
  cases h with
  | own h => exact .inl (hs _ h)
  | proposal h => exact .inr ⟨h.tag hc, h.vetted⟩
  | loopback h =>
    obtain ⟨past, hsuf, y, hy, hb⟩ := hc.of_mem h
    exact hb.vouched (hs y (hsuf.subset (List.mem_cons_of_mem _ hy)))

theorem OptLog.vouches (hs : VetInv cfg s) (hc : Along Sourced s.trace) {y : Event}
    (h : s.OptLog cfg y) : s.Vouches cfg y := by
  unfold OptLog at h
  split at h
  · trivial
  · exact h.1.ever
  · trivial
  · trivial
  · trivial
  · trivial
  · exact h.1.vouched hs hc
  · exact fun _ => .inr ⟨h.1.tag hc, h.1.vetted⟩
  · trivial
  · trivial
  · trivial
  · exact h.elim

theorem PesLog.vouches {y : Event} (h : s.PesLog cfg y) : s.Vouches cfg y := by
  unfold PesLog at h
  split at h
  case h_2 =>
    obtain ⟨b, rfl, -⟩ := h
    intro ht
    cases ht
  case h_8 m dest tag =>
    cases m with
    | HsPropose b => exact h.1.elim
    | _ => trivial
  case h_10 =>
    rcases h with ⟨rfl, -⟩ | ⟨rfl, -⟩
    · exact fun ht => by cases ht
    · exact fun ht => by cases ht
  all_goals trivial

theorem Records.vouches (hs : VetInv cfg s) (hc : Along Sourced s.trace) {y : Event}
    (h : Records cfg s t y) : s.Vouches cfg y := by
  cases h with
  | opt h => exact h.vouches hs hc
  | pes ha h => exact h.vouches
  | vote hp _ _ _ _ _ =>
    obtain ⟨height, hp⟩ := hp
    exact fun _ => ⟨_, rfl, hs _ hp⟩
  | commit hp _ _ _ _ =>
    obtain ⟨height, hp⟩ := hp
    exact hs _ hp
  | _ => trivial

theorem VetInv.turn (hs : VetInv cfg s) (hc : Along Sourced t.trace) (h : Turn cfg s t) :
    VetInv cfg t := by
  have htr := h.trace
  intro x hx
  cases h with
  | step h =>
    rcases h.recorded hx with hx | ⟨_, hr⟩
    · exact (hs x hx).mono htr
    · exact (hr.vouches hs (hc.suffix htr)).mono htr
  | epoch h ht =>
    subst ht
    rcases mem_renewed_trace hx with hx | rfl | ⟨m, rfl, _⟩
    · exact (hs x hx).mono htr
    · trivial
    · trivial

theorem VetInv.take (hs : VetInv cfg s) (m : ConsensusMessage) :
    VetInv cfg (s.log (.receive m)) := by
  intro x hx
  rcases List.mem_cons.mp hx with rfl | hx
  · trivial
  · exact (hs x hx).mono (List.suffix_cons _ _)

theorem onlyVouched_of_sourced {alive : Bool} (h : Reachable cfg s alive)
    (hc : Along Sourced s.trace) : s.OnlyVouched cfg := by
  have hnew : VetInv cfg .new := by
    intro x hx
    cases List.mem_singleton.mp hx
    trivial
  have hs : VetInv cfg s := (h.invariant (fun l l' hl => Along.suffix hl) hnew
    (fun s m hs _ => hs.take m) (fun s t _ hs hc ht => hs.turn hc ht)).2 hc
  constructor
  · rintro v ⟨e, hv⟩ ht
    exact hs _ hv ht
  · rintro b0 b1 b ⟨e, hb⟩
    exact hs _ hb

end Vetting

/-! ### A loopback from the network -/

theorem onlyVouched_with_late_payload : ∃ s, Reachable waitingConfig s true ∧
    s.voted leaderProposal ∧ s.OnlyVouched waitingConfig := by
  obtain ⟨s, hr, hs⟩ := exists_replay waitingConfig
    [.boot, .core (.HsPropose leaderProposal), .core (.HsPropose deputyProposal),
      .core (.HsLoopBack deputyProposal)]
    (fun s => s.voted leaderProposal ∧ Along Sourced s.trace) (by decide +kernel)
  exact ⟨s, hr, hs.1, onlyVouched_of_sourced hr hs.2⟩

/-- The proposal of a node that does not lead height `1`. -/
def strangerProposal : Block := Block.new .genesis 3 1 0 0 [] OPT

/-- The blocks that a node has signed carry its name. -/
def Signs (name : PublicKey) : Event → Prop
  | .sign (.block b) => b.author = name
  | _ => True

instance (name : PublicKey) (x : Event) : Decidable (Signs name x) := by
  unfold Signs
  split <;> infer_instance

/-- A peer sends the loopback itself, with a block that no check has seen. -/
theorem not_onlyVouched_after_forged_loopback :
    ¬ ∀ (cfg : Config) (s : Core), Reachable cfg s true → s.OnlyVouched cfg := by
  intro h
  obtain ⟨s, hr, hv, hsign⟩ := exists_replay (sampleConfig 0)
    [.boot, .core (.HsLoopBack strangerProposal)]
    (fun s => s.voted strangerProposal ∧ ∀ x ∈ s.trace, Signs 0 x.2) (by decide +kernel)
  obtain ⟨b, heq, hb⟩ := (h _ s hr).votes _ (by simpa [voted, Ever] using hv) rfl
  have hauthor : b.author = 3 := (congrArg HVote.proposer heq).symm
  have hheight : b.height = 1 := (congrArg HVote.height heq).symm
  rcases hb with ⟨e, hb⟩ | ⟨-, hb⟩
  · have h0 : b.author = 0 := hsign _ hb
    rw [hauthor] at h0
    exact absurd h0 (by decide)
  · have hl := hb.leader
    rw [hauthor, hheight] at hl
    revert hl
    decide +kernel

end Ipotane.Core
