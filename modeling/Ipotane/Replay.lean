import Ipotane.System
import Ipotane.Symbolic

/-! Runs of the four nodes that are evaluated. -/
namespace Ipotane

open Lib

/-- The next thing that happens: a node starts, a node takes the `n`-th message that another
one has sent, a node is handed back the `n`-th block that its mempool has kept, a timer fires,
a node takes a message that a faulty node has sent on the path `tag`. -/
inductive Act
  | boot (i : PublicKey)
  | deliver (i j : PublicKey) (n : ℕ)
  | payload (i : PublicKey) (n : ℕ)
  | timer (i : PublicKey)
  | forge (i : PublicKey) (m : ConsensusMessage) (tag : ℕ)

/-- The messages that a node has sent, the oldest first. -/
def Core.sends (s : Core) : List (ConsensusMessage × Option PublicKey × ℕ) :=
  s.trace.reverse.filterMap fun x =>
    match x.2 with
    | .send m dest tag => some (m, dest, tag)
    | _ => none

/-- The blocks that the mempool has kept for a node, with the path they are for. -/
def Core.kept (s : Core) : List (Block × ℕ) :=
  s.trace.reverse.filterMap fun x =>
    match x.2 with
    | .suspend b tag => some (b, tag)
    | _ => none

def loopback (b : Block) (tag : ℕ) : Input :=
  if tag = OPT then .core (.HsLoopBack b)
  else if tag = PES then .smvba (.ParLoopBack b)
  else .smvba (.FBLoopBack b)

def Act.node : Act → PublicKey
  | boot i | deliver i _ _ | payload i _ | timer i | forge i _ _ => i

def Act.forged : Act → Option ConsensusMessage
  | forge _ m _ => some m
  | _ => none

/-- The input of the node, if it can come. -/
def Act.input (w : World) : Act → Option Input
  | boot i => if w.phase i = .idle then some .boot else none
  | deliver i j n =>
    match (w.core j).sends[n]? with
    | some (m, dest, tag) =>
      if w.phase i = .running ∧ j ≠ i ∧ (dest = none ∨ dest = some i) then
        some (if tag = OPT then .core m else .smvba m)
      else none
    | none => none
  | payload i n =>
    match (w.core i).kept[n]? with
    | some (b, tag) =>
      if w.phase i = .running ∧ (tag = OPT ∨ tag = PES ∨ tag = FALLBACK) then some (loopback b tag)
      else none
    | none => none
  | timer i => if w.phase i = .running ∧ (w.core i).timer ≠ none then some .timer else none
  | forge i m tag =>
    if w.phase i = .running then some (if tag = OPT then .core m else .smvba m) else none

/-- Plays the acts one after the other, as long as `check` lets their inputs pass. -/
def playChecked (S : Setup) (check : Cores → PublicKey → Input → Bool) : List Act →
    World → Option World
  | [], w => some w
  | a :: acts, w =>
    match a.input w with
    | none => none
    | some input =>
      if check w.core a.node input then
        match Core.react (S.config a.node) 40 input (w.core a.node) with
        | (.ok (), s) => playChecked S check acts (w.set a.node s .running)
        | _ => none
      else none

def play (S : Setup) : List Act → World → Option World := playChecked S fun _ _ _ => true

variable {S : Setup} {honest : PublicKey → Prop} {foreign : Cores → ConsensusMessage → Prop}
  {guard : Cores → PublicKey → Input → Prop} {w w' : World}

theorem mem_of_sends {s : Core} {n : ℕ} {m : ConsensusMessage} {dest : Option PublicKey} {tag : ℕ}
    (h : s.sends[n]? = some (m, dest, tag)) : ∃ e, (e, .send m dest tag) ∈ s.trace := by
  obtain ⟨⟨e, y⟩, hx, hy⟩ := List.mem_filterMap.mp (List.mem_of_getElem? h)
  cases y <;> cases hy
  exact ⟨e, List.mem_reverse.mp hx⟩

theorem mem_of_kept {s : Core} {n : ℕ} {b : Block} {tag : ℕ} (h : s.kept[n]? = some (b, tag)) :
    ∃ e, (e, .suspend b tag) ∈ s.trace := by
  obtain ⟨⟨e, y⟩, hx, hy⟩ := List.mem_filterMap.mp (List.mem_of_getElem? h)
  cases y <;> cases hy
  exact ⟨e, List.mem_reverse.mp hx⟩

theorem arrives_of_input {a : Act} {input : Input} (hf : ∀ m, a.forged = some m → foreign w.core m)
    (h : a.input w = some input) : MayTake foreign w a.node input := by
  unfold Act.input at h
  split at h
  · split at h
    · cases h
      exact .inl ⟨by assumption, rfl⟩
    · cases h
  · split at h
    · rename_i i j n m dest tag hsend
      obtain ⟨e, he⟩ := mem_of_sends hsend
      split at h
      · rename_i hc
        obtain ⟨hp, hj, hd⟩ := hc
        cases h
        refine .inr ⟨hp, ?_⟩
        split
        · rename_i ht
          subst ht
          exact .core hj he hd
        · exact .smvba hj he (by assumption) hd
      · cases h
    · cases h
  · split at h
    · rename_i i n b tag hkept
      obtain ⟨e, he⟩ := mem_of_kept hkept
      split at h
      · rename_i hc
        obtain ⟨hp, ht⟩ := hc
        cases h
        refine .inr ⟨hp, ?_⟩
        rcases ht with rfl | rfl | rfl
        · exact .payload he
        · exact .outputPayload he
        · exact .fallbackPayload he
      · cases h
    · cases h
  · split at h
    · rename_i hc
      cases h
      exact .inr ⟨hc.1, .timer hc.2⟩
    · cases h
  · split at h
    · rename_i hp
      cases h
      refine .inr ⟨hp, ?_⟩
      split
      · exact .foreignCore (hf _ rfl)
      · exact .foreignSmvba (hf _ rfl)
    · cases h

/-- What is played is a run of the nodes that act. -/
theorem run_playChecked {check : Cores → PublicKey → Input → Bool} {acts : List Act}
    (hg : ∀ σ i input, check σ i input = true → guard σ i input)
    (h : GuardedRun S honest foreign guard w) (ha : ∀ a ∈ acts, honest a.node)
    (hm : ∀ a ∈ acts, ∀ m, a.forged = some m → ∀ σ, foreign σ m)
    (hp : playChecked S check acts w = some w') : GuardedRun S honest foreign guard w' := by
  induction acts generalizing w with
  | nil =>
    cases hp
    exact h
  | cons a acts ih =>
    unfold playChecked at hp
    split at hp
    · cases hp
    · rename_i input hin
      split at hp
      · rename_i hcheck
        split at hp
        · rename_i s hreact
          refine ih ?_ (fun b hb => ha b (List.mem_cons_of_mem _ hb))
            (fun b hb => hm b (List.mem_cons_of_mem _ hb)) hp
          have hi := ha a List.mem_cons_self
          have hf : (Core.react (S.config a.node) 40 input (w.core a.node)).1 ≠ .exhausted := by
            rw [hreact]
            simp
          have harrives : MayTake foreign w a.node input :=
            arrives_of_input (fun m h => hm a List.mem_cons_self m h _) hin
          rcases harrives with ⟨hphase, rfl⟩ | ⟨hphase, harr⟩
          · have hrun := h.boot 40 hi hphase hf
            simpa [hreact] using hrun
          · have hrun := h.react 40 hi hphase harr (hg _ _ _ hcheck) hf
            simpa [hreact] using hrun
        · cases hp
      · cases hp

theorem run_play {acts : List Act} (ha : ∀ a ∈ acts, honest a.node)
    (hm : ∀ a ∈ acts, ∀ m, a.forged = some m → ∀ σ, foreign σ m)
    (hp : play S acts .start = some w') : Run S honest foreign w' := by
  have hrun : GuardedRun S honest foreign (fun _ _ _ => True) w' :=
    run_playChecked (fun _ _ _ _ => trivial) .start ha hm hp
  exact hrun.run

/-- A fact about the end of a run that is decided by evaluation. -/
theorem exists_play (S : Setup) (acts : List Act) (p : World → Prop) [DecidablePred p]
    (ha : ∀ a ∈ acts, a.node ∈ S.committee.sortedNames ∧ a.forged = none)
    (h : (play S acts .start).any (p ·) = true) : ∃ w, S.Runs w ∧ p w := by
  cases hr : play S acts .start with
  | none =>
    rw [hr] at h
    cases h
  | some w =>
    rw [hr] at h
    refine ⟨w, run_play (fun a h => (ha a h).1) ?_ hr, of_decide_eq_true h⟩
    intro a hmem m hm
    rw [(ha a hmem).2] at hm
    cases hm

/-- The same for a run in which the nodes that act take messages of faulty ones. -/
theorem exists_attack (S : Setup) (honest : PublicKey → Prop) (acts : List Act) (p : World → Prop)
    [DecidablePred p] (ha : ∀ a ∈ acts, honest a.node)
    (h : (play S acts .start).any (p ·) = true) :
    ∃ w, Run S honest (fun _ m => ∃ a ∈ acts, a.forged = some m) w ∧ p w := by
  cases hr : play S acts .start with
  | none =>
    rw [hr] at h
    cases h
  | some w =>
    rw [hr] at h
    exact ⟨w, run_play ha (fun a hmem m hm _ => ⟨a, hmem, hm⟩) hr, of_decide_eq_true h⟩

/-- The same for a guarded run. -/
theorem exists_guarded (S : Setup) (honest : PublicKey → Prop)
    {guard : Cores → PublicKey → Input → Prop} (check : Cores → PublicKey → Input → Bool)
    (hg : ∀ σ i input, check σ i input = true → guard σ i input) (acts : List Act)
    (p : World → Prop) [DecidablePred p] (ha : ∀ a ∈ acts, honest a.node)
    (h : (playChecked S check acts .start).any (p ·) = true) :
    ∃ w, GuardedRun S honest (fun _ m => ∃ a ∈ acts, a.forged = some m) guard w ∧ p w := by
  cases hr : playChecked S check acts .start with
  | none =>
    rw [hr] at h
    cases h
  | some w =>
    rw [hr] at h
    exact ⟨w, run_playChecked hg .start ha (fun a hmem m hm _ => ⟨a, hmem, hm⟩) hr,
      of_decide_eq_true h⟩

/-- The same for a guarded run in which every node runs the program. -/
theorem exists_guarded_runs (S : Setup) {guard : Cores → PublicKey → Input → Prop}
    (check : Cores → PublicKey → Input → Bool)
    (hg : ∀ σ i input, check σ i input = true → guard σ i input) (acts : List Act)
    (p : World → Prop) [DecidablePred p]
    (ha : ∀ a ∈ acts, a.node ∈ S.committee.sortedNames ∧ a.forged = none)
    (h : (playChecked S check acts .start).any (p ·) = true) :
    ∃ w, GuardedRun S (fun k => k ∈ S.committee.sortedNames) (fun _ _ => False) guard w ∧ p w := by
  cases hr : playChecked S check acts .start with
  | none =>
    rw [hr] at h
    cases h
  | some w =>
    rw [hr] at h
    refine ⟨w, run_playChecked hg .start (fun a h => (ha a h).1) ?_ hr, of_decide_eq_true h⟩
    intro a hmem m hm
    rw [(ha a hmem).2] at hm
    cases hm

/-- What an act does to its node. -/
def Act.result (S : Setup) (w : World) (a : Act) :
    Option (Outcome ConsensusError Panic Unit × Core) :=
  (a.input w).map fun input => Core.react (S.config a.node) 40 input (w.core a.node)

/-- A fact about the turn after a run that is decided by evaluation. -/
theorem exists_turn (S : Setup) (acts : List Act) (a : Act)
    (p : Outcome ConsensusError Panic Unit × Core → Prop) [DecidablePred p]
    (ha : ∀ b ∈ a :: acts, b.node ∈ S.committee.sortedNames ∧ b.forged = none)
    (h : (play S acts .start).any (fun w => (a.result S w).any (p ·)) = true) :
    ∃ w input, S.Runs w ∧ MayTake (fun _ _ => False) w a.node input ∧
      p (Core.react (S.config a.node) 40 input (w.core a.node)) := by
  have hf : ∀ b ∈ a :: acts, ∀ m, b.forged = some m → ∀ _ : Cores, False := by
    intro b hb m hm
    rw [(ha b hb).2] at hm
    cases hm
  cases hr : play S acts .start with
  | none =>
    rw [hr] at h
    cases h
  | some w =>
    rw [hr, Option.any_some] at h
    obtain ⟨r, hres, hp⟩ := (Option.any_eq_true _ _).mp h
    obtain ⟨input, hin, rfl⟩ := Option.map_eq_some_iff.mp hres
    refine ⟨w, input, run_play (fun b hb => (ha b (List.mem_cons_of_mem _ hb)).1)
      (fun b hb => hf b (List.mem_cons_of_mem _ hb)) hr, ?_, of_decide_eq_true hp⟩
    refine arrives_of_input ?_ hin
    exact fun m hm => hf a List.mem_cons_self m hm w.core

/-- The combined protocol on the four nodes, with blocks that are empty and always available. -/
def sampleSetup : Setup where
  committee := fourNodes
  parameters := sampleParameters
  optPath := true
  pesPath := true
  payload _ _ := []
  status _ _ := .Accept

end Ipotane
