import Ipotane.Core.Tables
import Ipotane.Signers
import Ipotane.Replay

/-! Why a node leaves an epoch. -/
namespace Ipotane

open Lib Handler

section EpochChange

variable [Crypto] {S : Setup} {honest : PublicKey → Prop} {w : World} {σ τ : Cores} {i : PublicKey}
  {foreign : Cores → ConsensusMessage → Prop} {e : ℕ}

/-! ### The outputs of a node -/

namespace Core

variable {cfg : Config} {s t : Core} {alive : Bool} {b : Block}

/-- The node has halted in `e`, or before, on a value with the block `b`. -/
def HaltedOn (s : Core) (e : ℕ) (b : Block) : Prop :=
  ∃ e' ≤ e, ∃ m, (e', .halted m) ∈ s.trace ∧ m.value.block = b

/-- The node has halted in `e`, or before, on a value with the block `b`, which the leader has made
that its coin of the round elected. -/
def Concludes (s : Core) (e : ℕ) (b : Block) : Prop :=
  ∃ e' ≤ e, ∃ m c, (e', .halted m) ∈ s.trace ∧ m.value.block = b ∧ (e', .coin c) ∈ s.trace ∧
    c.height = m.height ∧ c.round = m.round ∧ c.leader = b.author

/-- An entry about the output of an agreement is about the block of a halted value. -/
def Rooted (s : Core) : ℕ × Event → Prop
  | (e, .suspend b tag) => tag = PES → s.HaltedOn e b
  | (e, .receive (.ParLoopBack b)) => s.HaltedOn e b
  | (e, .commit b .smvbaOutput) => s.HaltedOn e b
  | (_, .send (.ParLoopBack _) _ _) | (_, .requeue (.ParLoopBack _)) => False
  | _ => True

theorem HaltedOn.mono (h : s.HaltedOn e b) (ht : s.trace <:+ t.trace) : t.HaltedOn e b := by
  obtain ⟨e', he, m, hm, hb⟩ := h
  exact ⟨e', he, m, ht.subset hm, hb⟩

theorem HaltedOn.of_le {e' : ℕ} (h : s.HaltedOn e b) (he : e ≤ e') : s.HaltedOn e' b := by
  obtain ⟨e₀, hle, hrest⟩ := h
  exact ⟨e₀, hle.trans he, hrest⟩

theorem Concludes.mono (h : s.Concludes e b) (ht : s.trace <:+ t.trace) : t.Concludes e b := by
  obtain ⟨e', he, m, c, hm, hb, hc, hrest⟩ := h
  exact ⟨e', he, m, c, ht.subset hm, hb, ht.subset hc, hrest⟩

theorem Rooted.mono {x : ℕ × Event} (h : s.Rooted x) (ht : s.trace <:+ t.trace) : t.Rooted x := by
  unfold Rooted at *
  split at h
  · exact fun htag => (h htag).mono ht
  · exact h.mono ht
  · exact h.mono ht
  · exact h.elim
  · exact h.elim
  · trivial

theorem Output.haltedOn (hs : ∀ x ∈ s.trace, s.Rooted x) (h : s.Output b) :
    s.HaltedOn s.epoch b := by
  rcases h with ⟨m, hm, hb⟩ | h
  · exact ⟨_, le_rfl, m, hm, hb⟩
  · exact hs _ h

theorem OptLog.rooted {y : Event} (h : s.OptLog cfg y) : s.Rooted (s.epoch, y) := by
  unfold OptLog at h
  split at h
  case h_8 =>
    intro htag
    rw [h.2] at htag
    cases htag
  all_goals trivial

theorem PesLog.rooted (hs : ∀ x ∈ s.trace, s.Rooted x) {y : Event} (h : s.PesLog cfg y) :
    s.Rooted (s.epoch, y) := by
  unfold PesLog at h
  split at h
  case h_8 m dest tag =>
    cases m with
    | ParLoopBack b => exact h.1.elim
    | _ => trivial
  case h_10 =>
    intro htag
    rcases h with ⟨hf, -⟩ | ⟨-, ho⟩
    · rw [hf] at htag
      cases htag
    · exact Output.haltedOn hs (.inl ho)
  all_goals trivial

theorem Records.rooted (hs : ∀ x ∈ s.trace, s.Rooted x) {y : Event} (h : Records cfg s t y) :
    s.Rooted (s.epoch, y) := by
  cases h with
  | opt h => exact h.rooted
  | pes _ h => exact h.rooted hs
  | outputCommit _ _ ho _ _ _ _ => exact ho.haltedOn hs
  | _ => trivial

theorem rooted_step (hs : ∀ x ∈ s.trace, s.Rooted x) (h : Step cfg s t) :
    ∀ x ∈ t.trace, t.Rooted x := by
  rintro ⟨e, y⟩ hx
  rcases h.recorded hx with hx | ⟨he, hr⟩
  · exact (hs _ hx).mono h.extends.trace
  · obtain rfl : e = s.epoch := he
    exact (hr.rooted hs).mono h.extends.trace

theorem rooted_renewed (hs : ∀ x ∈ s.trace, s.Rooted x) :
    ∀ x ∈ s.renewed.trace, s.renewed.Rooted x := by
  intro x hx
  rcases mem_renewed_trace hx with hx | rfl | ⟨m, rfl, -, hm⟩
  · exact (hs x hx).mono (renewed_trace s)
  · trivial
  · cases m with
    | ParLoopBack b => exact hm.elim
    | _ => trivial

/-- What holds at a node that only gets back the outputs it has set aside. -/
structure Anchored (s : Core) : Prop where
  timely : s.Timely
  rooted : ∀ x ∈ s.trace, s.Rooted x

theorem Anchored.new : Anchored .new := by
  refine ⟨.new, fun x hx => ?_⟩
  cases List.mem_singleton.mp hx
  trivial

theorem Anchored.take (h : s.Anchored) {m : ConsensusMessage}
    (hm : ∀ b, m = .ParLoopBack b → ∃ e, (e, .suspend b PES) ∈ s.trace) :
    (s.log (.receive m)).Anchored := by
  refine ⟨h.timely.take m, fun x hx => ?_⟩
  rcases List.mem_cons.mp hx with rfl | hx
  · cases m with
    | ParLoopBack b =>
      obtain ⟨e, hsuspend⟩ := hm b rfl
      have hhalted : s.HaltedOn e b := h.rooted _ hsuspend rfl
      exact (hhalted.of_le (h.timely _ hsuspend)).mono (List.suffix_cons _ _)
    | _ => trivial
  · exact (h.rooted x hx).mono (List.suffix_cons _ _)

theorem Anchored.turn (h : s.Anchored) (ht : Turn cfg s t) : t.Anchored := by
  cases ht with
  | step ht => exact ⟨h.timely.step ht, rooted_step h.rooted ht⟩
  | epoch _ ht => exact ht ▸ ⟨h.timely.renewed, rooted_renewed h.rooted⟩

/-- A node halts on the value of the leader that its coin of the round has elected. -/
theorem Reachable.halted_elected (h : Reachable cfg s alive) {e : ℕ} {m : MHalt}
    (hm : (e, .halted m) ∈ s.trace) :
    ∃ c, (e, .coin c) ∈ s.trace ∧ c.height = m.height ∧ c.round = m.round ∧
      c.leader = m.value.block.author := by
  have hinv : s.Kept ∧ ∀ x ∈ s.trace, ∀ m, x.2 = .halted m → ∃ c, (x.1, .coin c) ∈ s.trace ∧
      c.height = m.height ∧ c.round = m.round ∧ c.leader = m.value.block.author := by
    refine (h.invariant (P := fun s => s.Kept ∧ ∀ x ∈ s.trace, ∀ m, x.2 = .halted m →
      ∃ c, (x.1, .coin c) ∈ s.trace ∧ c.height = m.height ∧ c.round = m.round ∧
        c.leader = m.value.block.author) (C := fun _ => True) (fun _ _ _ h =>
          h) ⟨.new, ?_⟩ ?_ ?_).2 trivial
    · rintro x hx m hm
      cases List.mem_singleton.mp hx
      cases hm
    · rintro s m ⟨hk, hs⟩ -
      refine ⟨hk.take m, ?_⟩
      rintro x hx m' hm
      rcases List.mem_cons.mp hx with rfl | hx
      · cases hm
      · obtain ⟨c, hc, hrest⟩ := hs x hx m' hm
        exact ⟨c, List.mem_cons_of_mem _ hc, hrest⟩
    · rintro s t - ⟨hk, hs⟩ - ht
      have hsub := ht.trace.subset
      have hold : ∀ x ∈ s.trace, ∀ m, x.2 = .halted m → ∃ c, (x.1, .coin c) ∈ t.trace ∧
          c.height = m.height ∧ c.round = m.round ∧ c.leader = m.value.block.author := by
        intro x hx m hm
        obtain ⟨c, hc, hrest⟩ := hs x hx m hm
        exact ⟨c, hsub hc, hrest⟩
      cases ht with
      | step ht =>
        refine ⟨hk.step ht, ?_⟩
        rintro ⟨e, y⟩ hx m rfl
        rcases ht.recorded hx with hx | ⟨he, hr⟩
        · exact hold _ hx m rfl
        · simp only at he
          subst he
          cases hr with
          | opt h => exact h.elim
          | pes _ h => exact h.elim
          | halted _ _ hl _ _ =>
            obtain ⟨c, hc, hleader⟩ := Option.map_eq_some_iff.mp hl
            obtain ⟨hd, hkey⟩ := hk.coins _ c hc
            obtain ⟨hheight, hround⟩ := Prod.mk.inj hkey
            exact ⟨c, hsub hd, hheight.symm, hround.symm, hleader⟩
      | epoch _ ht =>
        subst ht
        refine ⟨hk.renewed, ?_⟩
        rintro x hx m hm
        rcases mem_renewed_trace hx with hx | rfl | ⟨m', rfl, -, -⟩
        · exact hold x hx m hm
        · cases hm
        · cases hm
  exact hinv.2 _ hm m rfl

theorem Reachable.concludes (h : Reachable cfg s alive) (hb : s.HaltedOn e b) :
    s.Concludes e b := by
  obtain ⟨e', he, m, hm, rfl⟩ := hb
  obtain ⟨c, hc, hrest⟩ := h.halted_elected hm
  exact ⟨e', he, m, c, hm, rfl, hc, hrest⟩

end Core

/-- In a committee in which every node runs the program, an output that comes back is one that the
node has set aside. -/
theorem Arrives.setAside {i : PublicKey} {b : Block} {input : Input}
    (hs : ∀ k, (σ k).Anchored)
    (hm : input = .core (.ParLoopBack b) ∨ input = .smvba (.ParLoopBack b))
    (ha : Arrives (fun _ => False) σ i input) : ∃ e, (e, .suspend b PES) ∈ (σ i).trace := by
  rcases hm with rfl | rfl
  · cases ha with
    | core _ h _ => exact ((hs _).rooted _ h).elim
    | foreignCore h => exact h.elim
  · cases ha with
    | smvba _ h _ _ => exact ((hs _).rooted _ h).elim
    | foreignSmvba h => exact h.elim
    | outputPayload h => exact ⟨_, h⟩
    | requeuedSmvba h _ => exact ((hs _).rooted _ h).elim

theorem inductive_rooted (S : Setup) :
    Inductive S (fun k => k ∈ S.committee.sortedNames) (fun _ _ => False) (fun _ _ _ => True)
      (fun _ => True) (fun σ => ∀ k, (σ k).Anchored) where
  earlier := fun _ _ _ h => h
  start := fun _ => .new
  take := by
    rintro σ i m _ hs _ ⟨input, hm, ha, -⟩ k
    by_cases hk : k = i
    · subst hk
      rw [Function.update_self]
      refine (hs k).take ?_
      rintro b rfl
      exact ha.setAside hs hm
    · rw [Function.update_of_ne hk]
      exact hs k
  turn := by
    intro σ i t _ _ hs _ ht k
    by_cases hk : k = i
    · subst hk
      rw [Function.update_self]
      exact (hs k).turn ht
    · rw [Function.update_of_ne hk]
      exact hs k

/-! ### The ends of epochs -/

/-- In epoch `e` some honest node has committed the `PES` block of a value for the output of the
agreement, after it had halted on the value in `e`, or before, and its coin had
elected the maker. -/
def Justified (honest : PublicKey → Prop) (σ : Cores) (e : ℕ) : Prop :=
  ∃ k b, honest k ∧ (e, .commit b .smvbaOutput) ∈ (σ k).trace ∧ b.tag = PES ∧ (σ k).Concludes e b

/-- Whenever a node is made to believe in a later epoch, an honest node has reached that epoch, and
an output that is handed back to a node is one that it has set aside. -/
structure Grounded (S : Setup) (honest : PublicKey → Prop) (σ : Cores) (i : PublicKey)
    (input : Input) : Prop where
  reached : ∀ m b, input.message = some m → Core.Believed (S.config i) m b →
    (σ i).epoch < b.epoch → ∃ k, honest k ∧ b.epoch ≤ (σ k).epoch
  setAside : ∀ b, input.message = some (.ParLoopBack b) →
    ∃ e, (e, .suspend b PES) ∈ (σ i).trace

/-- Some honest node has committed a `PES` output of the agreement in epoch `e`. -/
def Closed (honest : PublicKey → Prop) (σ : Cores) (e : ℕ) : Prop :=
  ∃ k b, honest k ∧ (e, .commit b .smvbaOutput) ∈ (σ k).trace ∧ b.tag = PES

structure EpochInv (S : Setup) (honest : PublicKey → Prop) (σ : Cores) : Prop where
  anchored : ∀ i, (σ i).Anchored
  left : ∀ i e, honest i → e < (σ i).epoch → Closed honest σ e
  believed : ∀ i e m b, honest i → (e, .receive m) ∈ (σ i).trace → Core.Believed (S.config i) m b →
    e < b.epoch → Closed honest σ e

theorem Closed.later (h : Closed honest σ e) (hl : Later σ τ) : Closed honest τ e := by
  obtain ⟨k, b, hk, hb, ht⟩ := h
  exact ⟨k, b, hk, (hl k).subset hb, ht⟩

/-- One node moves on, at most to the next epoch. -/
theorem EpochInv.update (h : EpochInv S honest σ) (hi : honest i) {t : Core}
    (htr : (σ i).trace <:+ t.trace) (ht : t.Anchored)
    (hreceive : ∀ e m, (e, .receive m) ∈ t.trace → (e, .receive m) ∈ (σ i).trace)
    (hepoch : t.epoch = (σ i).epoch ∨
      (t.epoch = (σ i).epoch + 1 ∧ Closed honest σ (σ i).epoch)) :
    EpochInv S honest (Function.update σ i t) := by
  have hl := later_update htr
  constructor
  · intro k
    by_cases hki : k = i
    · subst hki
      rw [Function.update_self]
      exact ht
    · rw [Function.update_of_ne hki]
      exact h.anchored k
  · intro k e hk he
    by_cases hki : k = i
    · subst hki
      rw [Function.update_self] at he
      rcases hepoch with heq | ⟨heq, hj⟩
      · exact (h.left k e hk (by omega)).later hl
      · by_cases hlast : e = (σ k).epoch
        · subst hlast
          exact hj.later hl
        · exact (h.left k e hk (by omega)).later hl
    · rw [Function.update_of_ne hki] at he
      exact (h.left k e hk he).later hl
  · intro k e m b hk hm hb he
    by_cases hki : k = i
    · subst hki
      rw [Function.update_self] at hm
      exact (h.believed k e m b hk (hreceive e m hm) hb he).later hl
    · rw [Function.update_of_ne hki] at hm
      exact (h.believed k e m b hk hm hb he).later hl

theorem EpochInv.turn (h : EpochInv S honest σ) (hi : honest i) {t : Core}
    (ht : Core.Turn (S.config i) (σ i) t) : EpochInv S honest (Function.update σ i t) := by
  have hanchored := (h.anchored i).turn ht
  cases ht with
  | step ht =>
    exact h.update hi ht.extends.trace hanchored (fun e m => ht.receive_mem)
      (.inl ht.extends.epoch)
  | epoch hend ht =>
    subst ht
    refine h.update hi (Core.renewed_trace _) hanchored (fun e m => Core.receive_mem_renewed)
      (.inr ⟨Core.renewed_epoch _, ?_⟩)
    rcases hend with ⟨b, hb, htag⟩ | ⟨m, b, hm, hb, hlt⟩
    · exact ⟨i, b, hi, hb, htag⟩
    · exact h.believed i _ m b hi hm hb hlt

theorem EpochInv.take (h : EpochInv S honest σ) (hi : honest i) {m : ConsensusMessage}
    {input : Input} (hm : input = .core m ∨ input = .smvba m) (hg : Grounded S honest σ i input) :
    EpochInv S honest (Function.update σ i ((σ i).log (.receive m))) := by
  have hl : Later σ (Function.update σ i ((σ i).log (.receive m))) :=
    later_update (List.suffix_cons _ _)
  have hmsg : input.message = some m := by
    rcases hm with rfl | rfl <;> rfl
  constructor
  · intro k
    by_cases hki : k = i
    · subst hki
      rw [Function.update_self]
      refine (h.anchored k).take ?_
      rintro b rfl
      exact hg.setAside b hmsg
    · rw [Function.update_of_ne hki]
      exact h.anchored k
  · intro k e hk he
    by_cases hki : k = i
    · subst hki
      rw [Function.update_self] at he
      exact (h.left k e hk he).later hl
    · rw [Function.update_of_ne hki] at he
      exact (h.left k e hk he).later hl
  · intro k e m' b hk hm' hb he
    by_cases hki : k = i
    · subst hki
      rw [Function.update_self] at hm'
      rcases List.mem_cons.mp hm' with heq | hm'
      · cases heq
        obtain ⟨j, hj, hle⟩ := hg.reached m b hmsg hb he
        exact (h.left j _ hj (by omega)).later hl
      · exact (h.believed k e m' b hk hm' hb he).later hl
    · rw [Function.update_of_ne hki] at hm'
      exact (h.believed k e m' b hk hm' hb he).later hl

theorem EpochInv.inductive (S : Setup) (honest : PublicKey → Prop)
    (foreign : Cores → ConsensusMessage → Prop) :
    Inductive S honest foreign (Grounded S honest) (fun _ => True) (EpochInv S honest) where
  earlier _ _ _ h := h
  start := by
    constructor
    · exact fun _ => .new
    · intro i e _ he
      exact absurd he (Nat.not_lt_zero e)
    · intro i e m b _ hm
      cases List.mem_singleton.mp hm
  take σ i m hi h _ hm := by
    obtain ⟨input, hin, _, hg⟩ := hm
    exact h.take hi hin hg
  turn σ i t hi _ h _ ht := h.turn hi ht

/-- What is committed for an output is the block of a value that the node has halted on. -/
theorem EpochInv.justified (h : EpochInv S honest σ)
    (hr : ∀ k, ∃ a, Core.Reachable (S.config k) (σ k) a)
    (hc : Closed honest σ e) : Justified honest σ e := by
  obtain ⟨k, b, hk, hb, ht⟩ := hc
  obtain ⟨a, hreach⟩ := hr k
  have hhalted : (σ k).HaltedOn e b := (h.anchored k).rooted _ hb
  exact ⟨k, b, hk, hb, ht, hreach.concludes hhalted⟩

/-- No epoch is left before its agreement has an output of the pessimistic path. -/
theorem justified_of_grounded (h : GuardedRun S honest foreign (Grounded S honest) w)
    (hi : honest i) (he : e < (w.core i).epoch) : Justified honest w.core e := by
  have hinv := (h.invariant (EpochInv.inductive S honest foreign)).2 trivial
  exact hinv.justified (fun k => ⟨_, h.run.reachable k⟩) (hinv.left i e hi he)

/-- The epoch of the block of a proposal. -/
def claimedEpoch : ConsensusMessage → ℕ
  | .HsPropose b | .SyncReply b | .FBPropose b => b.epoch
  | .SPBPropose v _ => v.block.epoch
  | _ => 0

/-- The output that is handed back. -/
def ConsensusMessage.loopedOutput : ConsensusMessage → Option Block
  | .ParLoopBack b => some b
  | _ => none

theorem Core.Believed.epoch {cfg : Config} {m : ConsensusMessage} {b : Block}
    (h : Core.Believed cfg m b) : b.epoch = claimedEpoch m := by
  cases m with
  | HsPropose _ => exact congrArg Block.epoch (Eq.symm h)
  | SyncReply _ => exact congrArg Block.epoch (Eq.symm h)
  | FBPropose _ => exact congrArg Block.epoch h.1.symm
  | SPBPropose _ _ => exact congrArg Block.epoch h.1.symm
  | _ => exact h.elim

/-- The input claims no later epoch than that of the node, and no output that the node has not set
aside. -/
def claimsNothing (σ : Cores) (i : PublicKey) (input : Input) : Bool :=
  input.message.all fun m => decide (claimedEpoch m ≤ (σ i).epoch) &&
    m.loopedOutput.all fun b => (σ i).trace.any fun x => x.2 = .suspend b PES

theorem grounded_of_claimsNothing {input : Input} (h : claimsNothing σ i input = true) :
    Grounded S honest σ i input := by
  unfold claimsNothing at h
  constructor
  · intro m b hm hb hlt
    rw [hm, Option.all_some, Bool.and_eq_true] at h
    have hle : claimedEpoch m ≤ (σ i).epoch := of_decide_eq_true h.1
    have := hb.epoch
    omega
  · intro b hm
    rw [hm, Option.all_some, Bool.and_eq_true] at h
    have haside : ((σ i).trace.any fun x => x.2 = .suspend b PES) = true := h.2
    obtain ⟨⟨e, y⟩, hx, hy⟩ := List.any_eq_true.mp haside
    cases of_decide_eq_true hy
    exact ⟨e, hx⟩

end EpochChange

/-! ### An epoch that ends with an output and one that a stray proposal ends -/

def oneNode : Committee where
  authorities := [⟨0, 0, 1⟩]
  nodup := by decide
  total_pos := by decide
  total_lt := by decide

/-- The pessimistic protocol with a single node, whose mempool has to fetch every block. -/
def soloSetup : Setup where
  committee := oneNode
  parameters := sampleParameters
  optPath := false
  pesPath := true
  payload _ _ := []
  status _ _ := .Wait

def toOutput : List Act := [.boot 0, .payload 0 0]

theorem justified_after_output : ∃ w : World,
    GuardedRun soloSetup (· = 0) (fun _ m => ∃ a ∈ toOutput, a.forged = some m)
      (Grounded soloSetup (· = 0)) w ∧
    0 < (w.core 0).epoch ∧ Justified (· = 0) w.core 0 := by
  obtain ⟨w, hr, he⟩ := exists_guarded soloSetup (· = 0) claimsNothing
    (fun _ _ _ h => grounded_of_claimsNothing h) toOutput
    (fun w => 0 < (w.core 0).epoch) (by decide) (by decide +kernel)
  exact ⟨w, hr, he, justified_of_grounded hr rfl he⟩

/-- A proposal that no one has checked, for the first height of the next epoch. -/
def strayProposal : Block := Block.new .genesis 2 1 1 0 [] OPT

theorem not_justified_after_strayProposal :
    ¬ ∀ (S : Setup) (honest : PublicKey → Prop) (foreign : Cores → ConsensusMessage → Prop)
      (w : World) (i : PublicKey) (e : ℕ), S.committee.total % 3 = 1 → S.parameters.exp = 1 →
      FaultBound S.committee honest → Run S honest foreign w → honest i → e < (w.core i).epoch →
      Justified honest w.core e := by
  intro h
  obtain ⟨w, hr, he, hnone⟩ := exists_attack sampleSetup (· ∈ [0, 1, 3])
    [.boot 0, .forge 0 (.HsPropose strayProposal) OPT]
    (fun w => 0 < (w.core 0).epoch ∧ (([0, 1, 3] : List PublicKey).all fun k =>
      (w.core k).trace.all fun x => match x.2 with
        | .commit _ _ => false
        | _ => true) = true)
    (by decide) (by decide +kernel)
  obtain ⟨k, b, hk, hb, -, -⟩ := h _ _ _ w 0 0 (by decide) rfl
    (faultBound_of_filter (by decide +kernel))
    hr (by decide) he
  have hfalse := List.all_eq_true.mp (List.all_eq_true.mp hnone k hk) _ hb
  cases hfalse

end Ipotane
