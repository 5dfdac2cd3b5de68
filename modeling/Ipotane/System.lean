import Ipotane.Core.Record

/-! A committee of nodes and the messages between them. -/
namespace Ipotane

open Lib

variable [Crypto]

/-- What the nodes of a committee have in common, and the answers of each mempool. -/
structure Setup where
  committee : Committee
  parameters : Parameters
  optPath : Bool
  pesPath : Bool
  payload : PublicKey → ℕ → List Digest
  status : PublicKey → ℕ → PayloadStatus

def Setup.config (S : Setup) (k : PublicKey) : Config where
  name := k
  committee := S.committee
  parameters := S.parameters
  optPath := S.optPath
  pesPath := S.pesPath
  payload := S.payload k
  status := S.status k

inductive Phase
  | idle
  | running
  | stopped
deriving DecidableEq

abbrev Cores := PublicKey → Core

structure World where
  core : Cores
  phase : PublicKey → Phase

namespace World

def start : World := ⟨fun _ => .new, fun _ => .idle⟩

def set (w : World) (i : PublicKey) (s : Core) (p : Phase) : World :=
  ⟨Function.update w.core i s, Function.update w.phase i p⟩

end World

/-- What can come out of the channels of node `i`: a message that another node has sent to it,
the request of a node that misses a parent, a block that the mempool or the synchronizer hands
back, a message of the new epoch, the timer. `foreign` is what the nodes that do not run the
program may send. Nothing is ever used up: messages are delayed, repeated and lost. -/
inductive Arrives (foreign : ConsensusMessage → Prop) (core : Cores) (i : PublicKey) : Input → Prop
  | core {j : PublicKey} {e : ℕ} {m : ConsensusMessage} {dest : Option PublicKey} (hj : j ≠ i)
      (h : (e, .send m dest OPT) ∈ (core j).trace) (hd : dest = none ∨ dest = some i) :
      Arrives foreign core i (.core m)
  | smvba {j : PublicKey} {e tag : ℕ} {m : ConsensusMessage} {dest : Option PublicKey} (hj : j ≠ i)
      (h : (e, .send m dest tag) ∈ (core j).trace) (ht : tag ≠ OPT)
      (hd : dest = none ∨ dest = some i) : Arrives foreign core i (.smvba m)
  | request {j : PublicKey} {e : ℕ} {b : Block} (hj : j ≠ i) (h : (e, .sync b) ∈ (core j).trace) :
      Arrives foreign core i (.core (.SyncRequest b.parent j))
  | foreignCore {m : ConsensusMessage} (h : foreign m) : Arrives foreign core i (.core m)
  | foreignSmvba {m : ConsensusMessage} (h : foreign m) : Arrives foreign core i (.smvba m)
  | payload {e : ℕ} {b : Block} (h : (e, .suspend b OPT) ∈ (core i).trace) :
      Arrives foreign core i (.core (.HsLoopBack b))
  | parent {e : ℕ} {b p : Block} (h : (e, .sync b) ∈ (core i).trace)
      (hp : (core i).store.get b.parent = some p) : Arrives foreign core i (.core (.HsLoopBack b))
  | fallbackPayload {e : ℕ} {b : Block} (h : (e, .suspend b FALLBACK) ∈ (core i).trace) :
      Arrives foreign core i (.smvba (.FBLoopBack b))
  | outputPayload {e : ℕ} {b : Block} (h : (e, .suspend b PES) ∈ (core i).trace) :
      Arrives foreign core i (.smvba (.ParLoopBack b))
  | requeued {e : ℕ} {b : Block} (h : (e, .requeue (.HsPropose b)) ∈ (core i).trace) :
      Arrives foreign core i (.core (.HsPropose b))
  | requeuedSmvba {e : ℕ} {m : ConsensusMessage} (h : (e, .requeue m) ∈ (core i).trace)
      (hm : ∀ b, m ≠ .HsPropose b) : Arrives foreign core i (.smvba m)
  | timer (h : (core i).timer ≠ none) : Arrives foreign core i .timer

/-- The runs of a system in which the nodes of `honest` run the program. A node that stops for
good is one that takes no more turns. -/
inductive Run (S : Setup) (honest : PublicKey → Prop) (foreign : Cores → ConsensusMessage → Prop) :
    World → Prop
  | start : Run S honest foreign .start
  | boot {w : World} {i : PublicKey} (fuel : ℕ) (h : Run S honest foreign w) (hi : honest i)
      (hp : w.phase i = .idle) (hf : (Core.react (S.config i) fuel .boot
        (w.core i)).1 ≠ .exhausted) :
      Run S honest foreign (w.set i (Core.react (S.config i) fuel .boot (w.core i)).2
        (if (Core.react (S.config i) fuel .boot (w.core i)).1 = .ok () then .running else .stopped))
  | react {w : World} {i : PublicKey} {input : Input} (fuel : ℕ) (h : Run S honest foreign w)
      (hi : honest i) (hp : w.phase i = .running) (ha : Arrives (foreign w.core) w.core i input)
      (hf : (Core.react (S.config i) fuel input (w.core i)).1 ≠ .exhausted) :
      Run S honest foreign (w.set i (Core.react (S.config i) fuel input (w.core i)).2
        (if (Core.react (S.config i) fuel input (w.core i)).1 = .ok () then .running else .stopped))

/-- A system in which every node of the committee runs the program. -/
def Setup.Runs (S : Setup) : World → Prop :=
  Run S (fun k => k ∈ S.committee.sortedNames) fun _ _ => False

/-- The message that is taken with an input. -/
def Input.message : Input → Option ConsensusMessage
  | .core m | .smvba m => some m
  | .boot | .timer => none

/-- The runs in which an input is only taken where `guard` holds of it and of the nodes. -/
inductive GuardedRun (S : Setup) (honest : PublicKey → Prop)
    (foreign : Cores → ConsensusMessage → Prop) (guard : Cores → PublicKey → Input → Prop) :
    World → Prop
  | start : GuardedRun S honest foreign guard .start
  | boot {w : World} {i : PublicKey} (fuel : ℕ) (h : GuardedRun S honest foreign guard w)
      (hi : honest i) (hp : w.phase i = .idle)
      (hf : (Core.react (S.config i) fuel .boot (w.core i)).1 ≠ .exhausted) :
      GuardedRun S honest foreign guard (w.set i (Core.react (S.config i) fuel .boot (w.core i)).2
        (if (Core.react (S.config i) fuel .boot (w.core i)).1 = .ok () then .running else .stopped))
  | react {w : World} {i : PublicKey} {input : Input} (fuel : ℕ)
      (h : GuardedRun S honest foreign guard w) (hi : honest i) (hp : w.phase i = .running)
      (ha : Arrives (foreign w.core) w.core i input) (hg : guard w.core i input)
      (hf : (Core.react (S.config i) fuel input (w.core i)).1 ≠ .exhausted) :
      GuardedRun S honest foreign guard (w.set i (Core.react (S.config i) fuel input (w.core i)).2
        (if (Core.react (S.config i) fuel input (w.core i)).1 = .ok () then .running else .stopped))

/-! ### Induction over runs -/

variable {S : Setup} {honest : PublicKey → Prop} {foreign : Cores → ConsensusMessage → Prop}
  {guard : Cores → PublicKey → Input → Prop} {w : World} {σ τ : Cores}
  {i k : PublicKey} {s t : Core}

theorem GuardedRun.run (h : GuardedRun S honest foreign guard w) : Run S honest foreign w := by
  induction h with
  | start => exact .start
  | boot fuel _ hi hp hf ih => exact ih.boot fuel hi hp hf
  | react fuel _ hi hp ha _ hf ih => exact ih.react fuel hi hp ha hf

theorem Run.guarded (h : Run S honest foreign w) (hg : ∀ σ i input, guard σ i input) :
    GuardedRun S honest foreign guard w := by
  induction h with
  | start => exact .start
  | boot fuel _ hi hp hf ih => exact ih.boot fuel hi hp hf
  | react fuel _ hi hp ha hf ih => exact ih.react fuel hi hp ha (hg _ _ _) hf

/-- `τ` is a later moment of a run than `σ`. -/
def Later (σ τ : Cores) : Prop := ∀ k, (σ k).trace <:+ (τ k).trace

theorem later_update (h : (σ i).trace <:+ t.trace) : Later σ (Function.update σ i t) := by
  intro k
  by_cases hk : k = i
  · subst hk
    rwa [Function.update_self]
  · rw [Function.update_of_ne hk]

/-- What a property of all nodes has to survive: a message that is taken, and a turn of a node. -/
structure Inductive (S : Setup) (honest : PublicKey → Prop)
    (foreign : Cores → ConsensusMessage → Prop)
    (guard : Cores → PublicKey → Input → Prop) (C P : Cores → Prop) : Prop where
  earlier : ∀ σ τ, Later σ τ → C τ → C σ
  start : P World.start.core
  take : ∀ σ i m, honest i → P σ → C (Function.update σ i ((σ i).log (.receive m))) →
    (∃ input, (input = .core m ∨ input = .smvba m) ∧ Arrives (foreign σ) σ i input ∧
      guard σ i input) →
    P (Function.update σ i ((σ i).log (.receive m)))
  turn : ∀ σ i t, honest i → (σ i).StoreOk → P σ → C (Function.update σ i t) →
    Core.Turn (S.config i) (σ i) t → P (Function.update σ i t)

/-- The same for a property of each node, in view of all nodes, that what the others do cannot
break. -/
structure Pointwise (S : Setup) (honest : PublicKey → Prop)
    (foreign : Cores → ConsensusMessage → Prop)
    (guard : Cores → PublicKey → Input → Prop) (C : Cores → Prop)
    (Q : Cores → PublicKey → Core → Prop) : Prop where
  earlier : ∀ {σ τ}, Later σ τ → C τ → C σ
  later : ∀ {σ τ k s}, Later σ τ → Q σ k s → Q τ k s
  start : ∀ k, Q World.start.core k .new
  take : ∀ σ i m, honest i → (∀ k, Q σ k (σ k)) → C σ →
    (∃ input, (input = .core m ∨ input = .smvba m) ∧ Arrives (foreign σ) σ i input ∧
      guard σ i input) →
    Q σ i ((σ i).log (.receive m))
  turn : ∀ σ i t, honest i → (∀ k, Q σ k (σ k)) → C (Function.update σ i t) →
    Core.Turn (S.config i) (σ i) t → Q (Function.update σ i t) i t

theorem Pointwise.everywhere {C : Cores → Prop} {Q : Cores → PublicKey → Core → Prop}
    (h : Pointwise S honest foreign guard C Q) :
    Inductive S honest foreign guard C (fun σ => ∀ k, Q σ k (σ k)) where
  earlier := fun _ _ => h.earlier
  start := h.start
  take := by
    intro σ i m hi hs hc hm k
    have hl : Later σ (Function.update σ i ((σ i).log (.receive m))) :=
      later_update (List.suffix_cons _ _)
    by_cases hk : k = i
    · subst hk
      rw [Function.update_self]
      exact h.later hl (h.take σ k m hi hs (h.earlier hl hc) hm)
    · rw [Function.update_of_ne hk]
      exact h.later hl (hs k)
  turn := by
    intro σ i t hi _ hs hc ht k
    by_cases hk : k = i
    · subst hk
      rw [Function.update_self]
      exact h.turn σ k t hi hs hc ht
    · rw [Function.update_of_ne hk]
      exact h.later (later_update ht.trace) (hs k)

theorem Inductive.turns {C P : Cores → Prop} (hI : Inductive S honest foreign guard C P)
    (hi : honest i) (hs : (σ i).StoreOk) (hp : C σ → P σ)
    (h : Relation.ReflTransGen (Core.Turn (S.config i)) (σ i) t) :
    C (Function.update σ i t) → P (Function.update σ i t) := by
  induction h with
  | refl =>
    rw [Function.update_eq_self]
    exact hp
  | @tail s t hpre hlast ih =>
    intro hc
    have hσ : Function.update (Function.update σ i s) i t = Function.update σ i t := by
      rw [Function.update_idem]
    have hcs : C (Function.update σ i s) := by
      refine hI.earlier _ _ ?_ hc
      rw [← hσ]
      exact later_update (by rw [Function.update_self]; exact hlast.trace)
    have hnext := hI.turn (Function.update σ i s) i t hi
    rw [Function.update_self, hσ] at hnext
    exact hnext (Core.turns_storeOk hpre hs) (ih hcs) hc hlast

theorem Inductive.turns_update {C P : Cores → Prop} (hI : Inductive S honest foreign guard C P)
    (hi : honest i) (hs : s.StoreOk) (hp : C (Function.update σ i s) → P (Function.update σ i s))
    (h : Relation.ReflTransGen (Core.Turn (S.config i)) s t) :
    C (Function.update σ i t) → P (Function.update σ i t) := by
  have hturns := hI.turns (σ := Function.update σ i s) (t := t) hi
  rw [Function.update_self, Function.update_idem] at hturns
  exact hturns hs hp h

/-- What one reaction of a node does to a property of all nodes. -/
theorem Inductive.reaction {C P : Cores → Prop} (hI : Inductive S honest foreign guard C P)
    (hi : honest i) {fuel : ℕ} {input : Input} (hs : (σ i).StoreOk) (hp : C σ → P σ)
    (ha : input = .boot ∨ (Arrives (foreign σ) σ i input ∧ guard σ i input))
    (hf : (Core.react (S.config i) fuel input (σ i)).1 ≠ .exhausted) :
    C (Function.update σ i (Core.react (S.config i) fuel input (σ i)).2) →
      P (Function.update σ i (Core.react (S.config i) fuel input (σ i)).2) := by
  have hturns := Core.react_turns hs hf
  -- the message is taken first
  have htake : ∀ m, (∃ input, (input = .core m ∨ input = .smvba m) ∧
        Arrives (foreign σ) σ i input ∧ guard σ i input) →
      C (Function.update σ i ((σ i).log (.receive m))) →
      P (Function.update σ i ((σ i).log (.receive m))) := by
    intro m hm hc
    refine hI.take σ i m hi (hp (hI.earlier _ _ ?_ hc)) hc hm
    exact later_update (List.suffix_cons _ _)
  cases input with
  | boot => exact hI.turns hi hs hp hturns
  | timer => exact hI.turns hi hs hp hturns
  | core m =>
    exact hI.turns_update hi (hs.arrival (.core m))
      (htake m ⟨_, .inl rfl, ha.resolve_left nofun⟩) hturns
  | smvba m =>
    exact hI.turns_update hi (hs.arrival (.smvba m))
      (htake m ⟨_, .inr rfl, ha.resolve_left nofun⟩) hturns

theorem GuardedRun.invariant {C P : Cores → Prop} (hI : Inductive S honest foreign guard C P)
    (h : GuardedRun S honest foreign guard w) : (∀ k, (w.core k).StoreOk) ∧
    (C w.core → P w.core) := by
  have hstore : ∀ {w : World} {i : PublicKey} {input : Input} {fuel : ℕ},
      (∀ k, (w.core k).StoreOk) →
      (Core.react (S.config i) fuel input (w.core i)).1 ≠ .exhausted →
      ∀ k, (Function.update w.core i (Core.react (S.config i) fuel input (w.core i)).2
        k).StoreOk := by
    intro w i input fuel hs hf k
    by_cases hk : k = i
    · subst hk
      rw [Function.update_self]
      exact Core.turns_storeOk (Core.react_turns (hs k) hf) ((hs k).arrival input)
    · rw [Function.update_of_ne hk]
      exact hs k
  induction h with
  | start => exact ⟨fun _ _ _ h => (nomatch h), fun _ => hI.start⟩
  | boot fuel _ hi hp hf ih =>
    exact ⟨hstore ih.1 hf, hI.reaction hi (ih.1 _) ih.2 (.inl rfl) hf⟩
  | react fuel _ hi hp ha hg hf ih =>
    exact ⟨hstore ih.1 hf, hI.reaction hi (ih.1 _) ih.2 (.inr ⟨ha, hg⟩) hf⟩

theorem Run.invariant {C P : Cores → Prop}
    (hI : Inductive S honest foreign (fun _ _ _ => True) C P) (h : Run S honest foreign w) :
    (∀ k, (w.core k).StoreOk) ∧ (C w.core → P w.core) :=
  (h.guarded fun _ _ _ => trivial).invariant hI

/-- A node that does not run the program is not seen to do anything. -/
theorem Run.core_new (h : Run S honest foreign w) (hk : ¬ honest k) : w.core k = .new := by
  have hne : ∀ {i}, honest i → k ≠ i := by
    rintro i hi rfl
    exact hk hi
  induction h with
  | start => rfl
  | boot fuel _ hi _ _ ih =>
    simp only [World.set, Function.update_of_ne (hne hi)]
    exact ih
  | react fuel _ hi _ _ _ ih =>
    simp only [World.set, Function.update_of_ne (hne hi)]
    exact ih

/-- Every node of a run is in a state that it can reach on its own. -/
theorem Run.reachable (h : Run S honest foreign w) (k : PublicKey) :
    Core.Reachable (S.config k) (w.core k) (decide (w.phase k ≠ .stopped)) := by
  have hset : ∀ {w : World} {i : PublicKey} {input : Input} (fuel : ℕ),
      (∀ k, Core.Reachable (S.config k) (w.core k) (decide (w.phase k ≠ .stopped))) →
      w.phase i ≠ .stopped → (Core.react (S.config i) fuel input (w.core i)).1 ≠ .exhausted →
      ∀ k, Core.Reachable (S.config k)
        ((w.set i (Core.react (S.config i) fuel input (w.core i)).2
          (if (Core.react (S.config i) fuel input (w.core i)).1 = .ok () then .running
            else .stopped)).core k)
        (decide ((w.set i (Core.react (S.config i) fuel input (w.core i)).2
          (if (Core.react (S.config i) fuel input (w.core i)).1 = .ok () then .running
            else .stopped)).phase k ≠ .stopped)) := by
    intro w i input fuel ih hp hf k
    by_cases hk : k = i
    · subst hk
      have hr := ih k
      rw [decide_eq_true hp] at hr
      have hnext := hr.react fuel input hf
      simp only [World.set, Function.update_self]
      by_cases hok : (Core.react (S.config k) fuel input (w.core k)).1 = .ok ()
      · simpa [hok] using hnext
      · simpa [hok] using hnext
    · simp only [World.set, Function.update_of_ne hk]
      exact ih k
  induction h generalizing k with
  | start => exact .new
  | boot fuel _ _ hp hf ih => exact hset fuel ih (by simp [hp]) hf k
  | react fuel _ _ hp _ hf ih => exact hset fuel ih (by simp [hp]) hf k

/-- What node `i` may take next. -/
def MayTake (foreign : Cores → ConsensusMessage → Prop) (w : World) (i : PublicKey)
    (input : Input) : Prop :=
  (w.phase i = .idle ∧ input = .boot) ∨
    (w.phase i = .running ∧ Arrives (foreign w.core) w.core i input)

/-- A turn of a node continues the run. -/
theorem Run.turn {fuel : ℕ} {input : Input} (h : Run S honest foreign w) (hi : honest i)
    (hm : MayTake foreign w i input)
    (hf : (Core.react (S.config i) fuel input (w.core i)).1 ≠ .exhausted) :
    ∃ w', Run S honest foreign w' ∧
    w'.core i = (Core.react (S.config i) fuel input (w.core i)).2 := by
  rcases hm with ⟨hp, rfl⟩ | ⟨hp, ha⟩
  · exact ⟨_, h.boot fuel hi hp hf, Function.update_self ..⟩
  · exact ⟨_, h.react fuel hi hp ha hf, Function.update_self ..⟩

end Ipotane
