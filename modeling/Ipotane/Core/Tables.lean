import Ipotane.Core.Record

/-! What the tables of the agreement hold is on record. -/
namespace Ipotane.Core

open Lib Handler

variable [Crypto] {cfg : Config} {s t u : Core} {key : ℕ × ℕ} {v : SPBValue} {p : SPBProof}

/-- Every entry of the tables of `t` is one of `s`, and the coins are the same. -/
structure Fewer (s t : Core) : Prop where
  proposes : ∀ key v, t.spbProposes.get key = some v → s.spbProposes.get key = some v
  finishs : ∀ key q, q ∈ t.spbFinishs.getD key [] → q ∈ s.spbFinishs.getD key []
  locks : ∀ key q, q ∈ t.spbLocks.getD key [] → q ∈ s.spbLocks.getD key []
  coins : t.randomCoins = s.randomCoins
  waiting : ∀ q ∈ t.unhandleMessage, q ∈ s.unhandleMessage

theorem Fewer.refl (s : Core) : Fewer s s :=
  ⟨fun _ _ h => h, fun _ _ h => h, fun _ _ h => h, rfl, fun _ h => h⟩

theorem Fewer.trans (h : Fewer s t) (h' : Fewer t u) : Fewer s u where
  proposes key v hv := h.proposes key v (h'.proposes key v hv)
  finishs key q hq := h.finishs key q (h'.finishs key q hq)
  locks key q hq := h.locks key q (h'.locks key q hq)
  coins := h'.coins.trans h.coins
  waiting q hq := h.waiting q (h'.waiting q hq)

theorem fewer_of_eq (hp : t.spbProposes = s.spbProposes) (hf : t.spbFinishs = s.spbFinishs)
    (hl : t.spbLocks = s.spbLocks) (hc : t.randomCoins = s.randomCoins)
    (hw : t.unhandleMessage = s.unhandleMessage) : Fewer s t := by
  constructor
  · exact fun key v h => hp ▸ h
  · exact fun key q h => hf ▸ h
  · exact fun key q h => hl ▸ h
  · exact hc
  · exact fun q h => hw ▸ h

theorem fewer_alike (h : Alike s t) : Fewer s t := by
  constructor
  · exact fun key v hv => h.spbProposes ▸ hv
  · exact fun key q hq => h.spbFinishs key ▸ hq
  · exact fun key q hq => h.spbLocks key ▸ hq
  · exact h.randomCoins
  · exact fun q hq => h.unhandleMessage ▸ hq

theorem fewer_collect {α : Type} (add : Aggregator → Appended α Aggregator) (mark : α → Event) :
    Fewer s (collect add mark s).2 := by
  unfold collect
  split <;> exact fewer_of_eq rfl rfl rfl rfl rfl

theorem fewer_adopt (qc : QC) : Fewer s (s.adopt qc) := by
  unfold adopt updateHighQc
  split <;> split <;> exact fewer_of_eq rfl rfl rfl rfl rfl

theorem fewer_settle {b b1 b0 : Block} {marks : List (ℕ × Event)} :
    Fewer s (s.settle b b1 b0 marks) := by
  unfold settle
  split <;> exact fewer_of_eq rfl rfl rfl rfl rfl

theorem fewer_clean (height reached : ℕ) (site : Termination) :
    Fewer s (s.cleanSmvbaState height reached site) := by
  constructor
  · intro key v h
    unfold cleanSmvbaState at h
    rw [Map.get_retain] at h
    split at h
    · exact h
    · cases h
  · intro key q h
    unfold cleanSmvbaState at h
    rw [Map.getD_retain] at h
    split at h
    · exact h
    · cases h
  · intro key q h
    unfold cleanSmvbaState at h
    rw [Map.getD_retain] at h
    split at h
    · exact h
    · cases h
  · rfl
  · exact fun q h => h

theorem fewer_cleanFor (b : Block) : Fewer s (s.cleanFor cfg b) := by
  unfold cleanFor
  split
  · exact fewer_clean _ _ _
  · exact Fewer.refl s

/-! ### The steps that add an entry -/

/-- Why a message waits for its epoch. -/
def Waits (s : Core) (m : ConsensusMessage) : Prop := (∃ b, m = .HsPropose b) ∨ s.Ever (.receive m)

/-- What a step may put into the tables. -/
inductive Fills (cfg : Config) (s : Core) : Core → Prop
  | propose {v : SPBValue} (hi : s.Initial cfg v) (hv : v.phase = INIT_PHASE)
      (ha : v.block.author = cfg.name) (he : v.block.epoch = s.epoch) : Fills cfg s (s.propose v)
  | finish {v : SPBValue} {p : SPBProof}
      (h : s.Taken cfg (.SPBFinsh v p) v.block.epoch p.height
        (v.verify cfg.committee p cfg.parameters.fallbackLength)) : Fills cfg s (s.finish v p)
  | lock {v : SPBValue} {p : SPBProof} (h : s.SpbSource cfg v p) (hv : v.phase = LOCK_PHASE) :
      Fills cfg s (s.lock v p)
  | coin {c : RandomCoin} (hn : s.getCoinLeader c.height c.round = none) : Fills cfg s
      (s.learnCoin c)
  | buffer {e : ℕ} {m : ConsensusMessage} (h : s.Waits m) : Fills cfg s (s.buffer e m)

theorem OptStep.fills (h : OptStep cfg s t) : Fewer s t ∨ Fills cfg s t := by
  cases h with
  | quiet h => exact .inl (fewer_alike h)
  | proposal _ _ => exact .inl ((fewer_cleanFor _).trans (fewer_adopt _))
  | overflow _ _ => exact .inl (fewer_cleanFor _)
  | adopt _ _ _ _ _ => exact .inl (fewer_adopt _)
  | buffer _ _ => exact .inr (.buffer (.inl ⟨_, rfl⟩))
  | countVote _ _ _ _ _ => exact .inl (fewer_collect _ _)
  | settle _ _ _ _ _ _ => exact .inl fewer_settle
  | _ => exact .inl (fewer_of_eq rfl rfl rfl rfl rfl)

theorem PesStep.fills (h : PesStep cfg s t) : Fewer s t ∨ Fills cfg s t := by
  cases h with
  | terminate _ => exact .inl (fewer_clean _ _ _)
  | buffer h _ _ => exact .inr (.buffer (.inr h.ever))
  | countFallback _ => exact .inl (fewer_collect _ _)
  | countSpb _ => exact .inl (fewer_collect _ _)
  | countPre _ _ => exact .inl (fewer_collect _ _)
  | coin _ _ hn _ _ => exact .inr (.coin hn)
  | propose hi hv ha he => exact .inr (.propose hi hv ha he)
  | lock h hv => exact .inr (.lock h hv)
  | finish h => exact .inr (.finish h)
  | _ => exact .inl (fewer_of_eq rfl rfl rfl rfl rfl)

theorem Step.fills (h : Step cfg s t) : Fewer s t ∨ Fills cfg s t := by
  cases h with
  | opt h => exact h.fills
  | pes _ h => exact h.fills

/-- A coin that is known stays known. -/
theorem Step.getCoinLeader (h : Step cfg s t) {height round : ℕ}
    (hk : s.getCoinLeader height round ≠ none) : t.getCoinLeader height round ≠ none := by
  unfold Core.getCoinLeader at *
  rcases h.fills with hf | hf
  · rwa [hf.coins]
  · cases hf with
    | @coin c _ =>
      change Option.map _ (if (height, round) = (c.height, c.round) then some c
        else s.randomCoins.get (height, round)) ≠ none
      split
      · exact nofun
      · exact hk
    | _ => exact hk

/-! ### The tables and the record -/

structure Kept (s : Core) : Prop where
  proposes : ∀ key v, s.spbProposes.get key = some v →
    s.Did (.propose v) ∧ key = (v.block.height, v.round)
  finishs : ∀ key q, q ∈ s.spbFinishs.getD key [] →
    s.Did (.finish q.2.1 q.2.2) ∧ q.1 = q.2.1.block.author ∧ key = (q.2.2.height, q.2.2.round)
  locks : ∀ key q, q ∈ s.spbLocks.getD key [] →
    s.Did (.lock q.2.1 q.2.2) ∧ q.1 = q.2.1.block.author ∧ key = (q.2.1.block.height, q.2.1.round)
  coins : ∀ key c, s.randomCoins.get key = some c → s.Did (.coin c) ∧ key = (c.height, c.round)
  waiting : ∀ q ∈ s.unhandleMessage, s.Waits q.2

theorem Extends.waits {m : ConsensusMessage} (h : Extends s t) (hm : s.Waits m) : t.Waits m :=
  hm.imp_right h.ever

theorem Kept.fewer (h : s.Kept) (hf : Fewer s t) (he : Extends s t) : t.Kept := by
  constructor
  · intro key v hv
    obtain ⟨hd, hk⟩ := h.proposes key v (hf.proposes key v hv)
    exact ⟨he.did hd, hk⟩
  · intro key q hq
    obtain ⟨hd, hk⟩ := h.finishs key q (hf.finishs key q hq)
    exact ⟨he.did hd, hk⟩
  · intro key q hq
    obtain ⟨hd, hk⟩ := h.locks key q (hf.locks key q hq)
    exact ⟨he.did hd, hk⟩
  · intro key c hc
    rw [hf.coins] at hc
    obtain ⟨hd, hk⟩ := h.coins key c hc
    exact ⟨he.did hd, hk⟩
  · intro q hq
    exact he.waits (h.waiting q (hf.waiting q hq))

theorem Kept.propose (h : s.Kept) (v : SPBValue) : (s.propose v).Kept := by
  have hlog : (s.log (.propose v)).Kept := h.fewer (fewer_of_eq rfl rfl rfl rfl rfl) (extends_log _)
  refine { hlog with proposes := ?_ }
  intro key w hw
  have hget : (if key = (v.block.height, v.round) then some v
    else s.spbProposes.get key) = some w := hw
  split at hget
  · rename_i hkey
    cases hget
    exact ⟨List.mem_cons_self, hkey⟩
  · exact hlog.proposes key w hget

theorem Kept.finish (h : s.Kept) (v : SPBValue) (p : SPBProof) : (s.finish v p).Kept := by
  have hlog : (s.log (.finish v p)).Kept := h.fewer (fewer_of_eq rfl rfl rfl rfl rfl)
    (extends_log _)
  refine { hlog with finishs := ?_ }
  intro key q hq
  have hget : q ∈ (s.spbFinishs.insert (p.height, p.round) _).getD key [] := hq
  rw [Map.getD_insert] at hget
  split at hget
  · rename_i hkey
    rcases mem_put.mp hget with rfl | ⟨hold, -⟩
    · exact ⟨List.mem_cons_self, rfl, hkey⟩
    · rw [hkey]
      exact hlog.finishs _ q hold
  · exact hlog.finishs key q hget

theorem Kept.lock (h : s.Kept) (v : SPBValue) (p : SPBProof) : (s.lock v p).Kept := by
  have hlog : (s.log (.lock v p)).Kept := h.fewer (fewer_of_eq rfl rfl rfl rfl rfl) (extends_log _)
  refine { hlog with locks := ?_ }
  intro key q hq
  have hget : q ∈ (s.spbLocks.insert (v.block.height, v.round) _).getD key [] := hq
  rw [Map.getD_insert] at hget
  split at hget
  · rename_i hkey
    rcases mem_put.mp hget with rfl | ⟨hold, -⟩
    · exact ⟨List.mem_cons_self, rfl, hkey⟩
    · rw [hkey]
      exact hlog.locks _ q hold
  · exact hlog.locks key q hget

theorem Kept.learnCoin (h : s.Kept) (c : RandomCoin) : (s.learnCoin c).Kept := by
  have hlog : (s.log (.coin c)).Kept := h.fewer (fewer_of_eq rfl rfl rfl rfl rfl) (extends_log _)
  refine { hlog with coins := ?_ }
  intro key d hd
  have hget : (if key = (c.height, c.round) then some c else s.randomCoins.get key) = some d := hd
  split at hget
  · rename_i hkey
    cases hget
    exact ⟨List.mem_cons_self, hkey⟩
  · exact hlog.coins key d hget

theorem Kept.buffer {e : ℕ} {m : ConsensusMessage} (h : s.Kept) (hm : s.Waits m) :
    (s.buffer e m).Kept := by
  refine { h with waiting := ?_ }
  intro q hq
  rcases List.mem_append.mp hq with hq | hq
  · exact h.waiting q hq
  · cases List.mem_singleton.mp hq
    exact hm

theorem Kept.step (h : s.Kept) (ht : Step cfg s t) : t.Kept := by
  rcases ht.fills with hf | hf
  · exact h.fewer hf ht.extends
  · cases hf with
    | propose _ _ _ _ => exact h.propose _
    | finish _ => exact h.finish _ _
    | lock _ _ => exact h.lock _ _
    | coin _ => exact h.learnCoin _
    | buffer hm => exact h.buffer hm

theorem Kept.take (h : s.Kept) (m : ConsensusMessage) : (s.log (.receive m)).Kept :=
  h.fewer (fewer_of_eq rfl rfl rfl rfl rfl) (extends_log _)

theorem Kept.new : Kept .new := by
  constructor
  · exact fun key v h => (nomatch h)
  · exact fun key q h => (nomatch h)
  · exact fun key q h => (nomatch h)
  · exact fun key c h => (nomatch h)
  · exact fun q h => (nomatch h)

/-- A new epoch begins with empty tables. -/
theorem Kept.renewed (h : s.Kept) : s.renewed.Kept := by
  have htr := renewed_trace s
  obtain ⟨marks, rest, heq, -, hrest⟩ := renewed_eq s
  rw [heq] at htr ⊢
  constructor
  · exact fun key v hv => (nomatch hv)
  · exact fun key q hq => (nomatch hq)
  · exact fun key q hq => (nomatch hq)
  · exact fun key c hc => (nomatch hc)
  · intro q hq
    rcases h.waiting q (hrest hq) with hm | ⟨e, hm⟩
    · exact .inl hm
    · exact .inr ⟨e, htr.subset hm⟩

theorem Reachable.kept {alive : Bool} (h : Reachable cfg s alive) : s.Kept := by
  refine (h.invariant (C := fun _ => True) (fun _ _ _ h => h) Kept.new ?_ ?_).2 trivial
  · exact fun s m hs _ => hs.take m
  · intro s t _ hs _ ht
    cases ht with
    | step ht => exact hs.step ht
    | epoch _ ht => exact ht ▸ hs.renewed

end Ipotane.Core
