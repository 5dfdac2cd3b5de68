import Ipotane.Values

/-! Where the blocks on the records of the nodes come from. -/
namespace Ipotane

open Lib Handler

section Provenance

variable [Crypto]

/-- The blocks that a message carries, those of its values among them. -/
def ConsensusMessage.blocks : ConsensusMessage → List Block
  | HsPropose b | HsLoopBack b | SyncReply b | ParLoopBack b | FBPropose b | FBLoopBack b => [b]
  | m => m.values.map SPBValue.block

/-- The blocks of an entry of the record. Only the cleaning of a commit speaks of the genesis block,
which nobody has made. -/
def Event.blocks : Event → List Block
  | send m _ _ | receive m | keep m | requeue m => m.blocks
  | sign (.block b) | commit b _ | sync b | graft b | store b | approve b | process b _ | endorse b
  | accept b | suspend b _ => [b]
  | y => y.values.map SPBValue.block

theorem ConsensusMessage.block_of_value {m : ConsensusMessage} {v : SPBValue} (h : v ∈ m.values) :
    v.block ∈ m.blocks := by
  cases m <;> first | exact List.mem_map_of_mem h | cases h

theorem Event.block_of_value {y : Event} {v : SPBValue} (h : v ∈ y.values) :
    v.block ∈ y.blocks := by
  cases y with
  | sign item => cases item <;> first | exact List.mem_map_of_mem h | cases h
  | send m _ _ => exact ConsensusMessage.block_of_value h
  | receive m => exact ConsensusMessage.block_of_value h
  | keep m => exact ConsensusMessage.block_of_value h
  | requeue m => exact ConsensusMessage.block_of_value h
  | _ => first | exact List.mem_map_of_mem h | cases h

/-- The node makes no proposal of the agreement with the value `OPT`. -/
def ProposesPes : ℕ × Event → Prop
  | (_, .propose v) => v.val ≠ OPT
  | _ => True

instance (x : ℕ × Event) : Decidable (ProposesPes x) := by
  obtain ⟨_, x⟩ := x
  unfold ProposesPes
  rcases x <;> infer_instance

namespace Core

variable {cfg : Config} {s t : Core} {P : Block → Prop} {b : Block}

/-- Every block that is on record or waits for its epoch is in `P`. -/
structure Shelved (P : Block → Prop) (s : Core) : Prop where
  record : ∀ x ∈ s.trace, ∀ b ∈ x.2.blocks, P b
  waiting : ∀ q ∈ s.unhandleMessage, ∀ b ∈ q.2.blocks, P b

/-! ### One step -/

theorem Shelved.stocked (hs : s.Shelved P) : s.Stocked fun v => P v.block :=
  fun x hx v hv => hs.record x hx v.block (Event.block_of_value hv)

theorem Shelved.did (hs : s.Shelved P) {y : Event} (h : s.Did y) (hb : b ∈ y.blocks) : P b :=
  hs.record _ h b hb

theorem Shelved.ever (hs : s.Shelved P) {y : Event} (h : s.Ever y) (hb : b ∈ y.blocks) : P b := by
  obtain ⟨e, h⟩ := h
  exact hs.record _ h b hb

theorem Shelved.heard (hs : s.Shelved P) {m : ConsensusMessage} (h : s.Hears m)
    (hb : b ∈ m.blocks) : P b := by
  rcases h with h | ⟨tag, h⟩ | h
  · exact hs.did h hb
  · exact hs.did h hb
  · exact hs.did h hb

theorem Shelved.received (hs : s.Shelved P) (h : s.Proposed cfg b) : P b := by
  rcases h.received with h | h
  · exact hs.did h (List.mem_singleton.mpr rfl)
  · exact hs.did h (List.mem_singleton.mpr rfl)

theorem Shelved.admits (hs : s.Shelved P) (h : s.Admits cfg b) : P b := by
  cases h with
  | own h => exact hs.did h (List.mem_singleton.mpr rfl)
  | proposal h => exact hs.received h
  | loopback h => exact hs.did h (List.mem_singleton.mpr rfl)

theorem Shelved.fallen (hs : s.Shelved P) (h : s.Fallen b) : P b := by
  rcases h.hears with h | h
  · exact hs.heard h (List.mem_singleton.mpr rfl)
  · exact hs.heard h (List.mem_singleton.mpr rfl)

theorem Shelved.output (hs : s.Shelved P) (h : s.Output b) : P b := by
  rcases h with ⟨m, hm, rfl⟩ | h
  · exact hs.did hm (List.mem_singleton.mpr rfl)
  · exact hs.did h (List.mem_singleton.mpr rfl)

theorem OptLog.blocks (hs : s.Shelved P) {y : Event} (hp : ∀ b, y = .sign (.block b) → P b)
    (h : s.OptLog cfg y) : ∀ b ∈ y.blocks, P b := by
  unfold OptLog at h
  split at h
  · exact List.forall_mem_singleton.mpr (hp _ rfl)
  · exact List.forall_mem_singleton.mpr (hs.did h.1 (List.mem_singleton.mpr rfl))
  · exact fun b hb => (nomatch hb)
  · exact List.forall_mem_singleton.mpr (hs.ever h.1 (List.mem_singleton.mpr rfl))
  · exact fun b hb => (nomatch hb)
  · exact List.forall_mem_singleton.mpr (hs.received h)
  · exact List.forall_mem_singleton.mpr (hs.admits h.1)
  · exact List.forall_mem_singleton.mpr (hs.received h.1)
  · refine List.forall_mem_singleton.mpr ?_
    rcases h with ⟨height, h⟩ | h
    · exact hs.did h (List.mem_singleton.mpr rfl)
    · exact hs.ever h (List.mem_singleton.mpr rfl)
  · exact fun b hb => (nomatch hb)
  · exact List.forall_mem_singleton.mpr (hs.received h)
  · exact h.elim

theorem Issues.blocks (hs : s.Shelved P) (hk : s.Kept) {m : ConsensusMessage} (h : s.Issues cfg m) :
    ∀ b ∈ m.blocks, P b := by
  have hvalues : ∀ b ∈ m.values.map SPBValue.block, P b := by
    intro b hb
    obtain ⟨v, hv, rfl⟩ := List.mem_map.mp hb
    exact hs.stocked.issued hk (fun _ _ h => h) h v hv
  cases m with
  | FBPropose b => exact List.forall_mem_singleton.mpr (hs.did h.1 (List.mem_singleton.mpr rfl))
  | HsPropose _ => exact h.elim
  | HsLoopBack _ => exact h.elim
  | SyncReply _ => exact h.elim
  | ParLoopBack _ => exact h.elim
  | FBLoopBack _ => exact h.elim
  | _ => exact hvalues

theorem PesLog.blocks (hs : s.Shelved P) (hk : s.Kept) {y : Event}
    (hp : ∀ b, y = .sign (.block b) → P b) (h : s.PesLog cfg y) : ∀ b ∈ y.blocks, P b := by
  have hvalues : ∀ b ∈ y.values.map SPBValue.block, P b := by
    intro b hb
    obtain ⟨v, hv, rfl⟩ := List.mem_map.mp hb
    exact hs.stocked.pesLog hk (fun _ _ h => h) h v hv
  unfold PesLog at h
  split at h
  case h_1 => exact List.forall_mem_singleton.mpr (hp _ rfl)
  case h_8 => exact h.1.blocks hs hk
  case h_9 => exact h.1.blocks hs hk
  case h_10 =>
    refine List.forall_mem_singleton.mpr ?_
    rcases h with ⟨-, h, -⟩ | ⟨-, m, hm, rfl⟩
    · exact hs.heard h (List.mem_singleton.mpr rfl)
    · exact hs.did hm (List.mem_singleton.mpr rfl)
  case h_11 =>
    refine List.forall_mem_singleton.mpr ?_
    rcases h.1 with h | ⟨h, -⟩
    · exact hs.fallen h
    · exact hs.output h
  case h_14 =>
    refine List.forall_mem_singleton.mpr ?_
    rcases h with h | h
    · exact hs.heard h (List.mem_singleton.mpr rfl)
    · exact hs.output h
  case h_15 => exact h.elim
  all_goals exact hvalues

/-- The block of a proposal that is not for `OPT` is signed. -/
theorem Initial.signed {v : SPBValue} (h : s.Initial cfg v) (hv : v.val ≠ OPT) :
    s.Did (.sign (.block v.block)) := by
  cases h with
  | first _ _ _ hq => exact (hq hv).1
  | next _ _ _ _ _ _ _ hb => exact hb

theorem Records.blocks (hs : s.Shelved P) (hk : s.Kept) {y : Event}
    (hp : ∀ b, y = .sign (.block b) → P b)
    (hv : ∀ v, y = .propose v → v.val ≠ OPT) (h : Records cfg s t y) : ∀ b ∈ y.blocks, P b := by
  have hvalues : ∀ b ∈ y.values.map SPBValue.block, P b := by
    intro b hb
    obtain ⟨v, hvb, rfl⟩ := List.mem_map.mp hb
    refine h.values hs.stocked hk (fun _ _ h => h) ?_ v hvb
    rintro v rfl
    cases h with
    | opt h => exact h.elim
    | pes _ h => exact h.elim
    | propose _ hi _ _ _ _ => exact hs.did (hi.signed (hv v rfl)) (List.mem_singleton.mpr rfl)
  cases h with
  | opt h => exact h.blocks hs hp
  | pes _ h => exact h.blocks hs hk hp
  | fork _ _ _ _ _ _ => exact List.forall_mem_singleton.mpr (hp _ rfl)
  | endorse h _ =>
    obtain ⟨height, h⟩ := h
    exact List.forall_mem_singleton.mpr (hs.did h (List.mem_singleton.mpr rfl))
  | store h _ _ _ => exact List.forall_mem_singleton.mpr (hs.did h (List.mem_singleton.mpr rfl))
  | commit _ _ h _ hl =>
    refine List.forall_mem_singleton.mpr ?_
    rcases h with ⟨-, rfl⟩ | ⟨-, -, h⟩
    · exact absurd hl (Nat.not_lt_zero _)
    · exact hs.ever h (List.mem_singleton.mpr rfl)
  | pesStore _ h _ _ _ =>
    refine List.forall_mem_singleton.mpr ?_
    rcases h with h | ⟨h, -⟩
    · exact hs.fallen h
    · exact hs.output h
  | fastCommit _ h _ _ _ _ _ _ =>
    exact List.forall_mem_singleton.mpr (hs.ever h (List.mem_singleton.mpr rfl))
  | outputCommit _ h _ _ _ _ _ =>
    exact List.forall_mem_singleton.mpr (hs.did h (List.mem_singleton.mpr rfl))
  | _ => exact hvalues

/-- What waits for its epoch is what has waited, or it has just been taken; a block that came on
request waits as a proposal. -/
theorem Step.waited (h : Step cfg s t) {q : ℕ × ConsensusMessage} (hq : q ∈ t.unhandleMessage) :
    q ∈ s.unhandleMessage ∨ s.Did (.receive q.2) ∨
      ∃ b, q.2 = .HsPropose b ∧ s.Did (.receive (.SyncReply b)) := by
  cases h with
  | opt h =>
    cases h with
    | quiet h => exact .inl (h.unhandleMessage ▸ hq)
    | proposal _ _ => exact .inl (((fewer_cleanFor _).trans (fewer_adopt _)).waiting q hq)
    | overflow _ _ => exact .inl ((fewer_cleanFor _).waiting q hq)
    | adopt _ _ _ _ _ => exact .inl ((fewer_adopt _).waiting q hq)
    | countVote _ _ _ _ _ => exact .inl ((fewer_collect _ _).waiting q hq)
    | settle _ _ _ _ _ _ => exact .inl (fewer_settle.waiting q hq)
    | buffer h _ =>
      rcases List.mem_append.mp hq with hq | hq
      · exact .inl hq
      · rw [List.mem_singleton.mp hq]
        rcases h with h | h
        · exact .inr (.inl h)
        · exact .inr (.inr ⟨_, rfl, h⟩)
    | _ => exact .inl hq
  | pes _ h =>
    cases h with
    | countFallback _ => exact .inl ((fewer_collect _ _).waiting q hq)
    | countSpb _ => exact .inl ((fewer_collect _ _).waiting q hq)
    | countPre _ _ => exact .inl ((fewer_collect _ _).waiting q hq)
    | buffer h _ _ =>
      rcases List.mem_append.mp hq with hq | hq
      · exact .inl hq
      · rw [List.mem_singleton.mp hq]
        exact .inr (.inl h)
    | _ => exact .inl hq

theorem Step.waiting (h : Step cfg s t) {q : ℕ × ConsensusMessage} (hq : q ∈ t.unhandleMessage) :
    q ∈ s.unhandleMessage ∨ ∃ m, s.Did (.receive m) ∧ m.blocks = q.2.blocks := by
  rcases h.waited hq with hq | h | ⟨b, hb, h⟩
  · exact .inl hq
  · exact .inr ⟨_, h, rfl⟩
  · exact .inr ⟨_, h, by rw [hb]; rfl⟩

theorem Shelved.step (hs : s.Shelved P) (hk : s.Kept)
    (hp : ∀ e b, (e, .sign (.block b)) ∈ t.trace → P b) (hv : ∀ x ∈ t.trace, ProposesPes x)
    (h : Step cfg s t) : t.Shelved P := by
  constructor
  · rintro ⟨e, y⟩ hx
    rcases h.recorded hx with hold | ⟨-, hr⟩
    · exact hs.record _ hold
    · refine hr.blocks hs hk ?_ ?_
      · exact fun b hb => hp e b (hb ▸ hx)
      · rintro v rfl
        exact hv _ hx
  · intro q hq b hb
    rcases h.waiting hq with hq | ⟨m, hm, heq⟩
    · exact hs.waiting q hq b hb
    · have hmem : b ∈ m.blocks := heq ▸ hb
      exact hs.did hm hmem

theorem Shelved.renewed (hs : s.Shelved P) : s.renewed.Shelved P := by
  obtain ⟨marks, rest, heq, -, hrest⟩ := renewed_eq s
  constructor
  · intro x hx
    rcases mem_renewed_trace hx with hx | rfl | ⟨m, rfl, hm, -⟩
    · exact hs.record x hx
    · exact fun b hb => (nomatch hb)
    · exact hs.waiting _ hm
  · intro q hq
    rw [heq] at hq
    exact hs.waiting q (hrest hq)

theorem Shelved.take (hs : s.Shelved P) {m : ConsensusMessage} (hm : ∀ b ∈ m.blocks, P b) :
    (s.log (.receive m)).Shelved P := by
  refine ⟨?_, hs.waiting⟩
  intro x hx
  rcases List.mem_cons.mp hx with rfl | hx
  · exact hm
  · exact hs.record x hx

theorem Shelved.new : Shelved P .new := by
  refine ⟨?_, fun q hq => (nomatch hq)⟩
  intro x hx
  cases List.mem_singleton.mp hx
  exact fun b hb => (nomatch hb)

theorem Records.block_made (h : Records cfg s t (.sign (.block b))) :
    b.author = cfg.name ∧ b.epoch = s.epoch ∧ b.signature = Crypto.sign cfg.name b.digest := by
  cases h with
  | opt h =>
    obtain ⟨payload, rfl⟩ := h
    exact ⟨rfl, rfl, rfl⟩
  | pes _ h => exact ⟨h.1.author, h.1.epoch, h.1.signature⟩
  | fork _ h _ _ _ _ => exact ⟨h.author, h.epoch, h.signature⟩

theorem Reachable.block_made {alive : Bool} (h : Reachable cfg s alive) {e : ℕ}
    (hb : (e, .sign (.block b)) ∈ s.trace) :
    b.author = cfg.name ∧ b.epoch = e ∧ b.signature = Crypto.sign cfg.name b.digest := by
  refine h.recorded (P := fun x => x.2 = .sign (.block b) → b.author = cfg.name ∧ b.epoch = x.1 ∧
    b.signature = Crypto.sign cfg.name b.digest) ?_ ?_ _ hb rfl
  · rintro u t y hr rfl
    exact hr.block_made
  · rintro e y ho rfl
    exact absurd trivial ho

end Core

/-! ### All nodes -/

variable {S : Setup} {w : World} {P : Block → Prop} {k : PublicKey}

/-- A message that comes has been sent, or is about a block that waits at the node. -/
theorem Arrives.shelved {σ : Cores} {i : PublicKey} {m : ConsensusMessage} {input : Input}
    (hs : ∀ k, (σ k).Shelved P) (hm : input = .core m ∨ input = .smvba m)
    (ha : Arrives (fun _ => False) σ i input) : ∀ b ∈ m.blocks, P b := by
  have hmsg : ∀ m', (input = .core m' ∨ input = .smvba m') → m' = m := by
    rintro m' (rfl | rfl) <;> rcases hm with hm | hm <;> cases hm <;> rfl
  have hown : ∀ {e : ℕ} {y : Event} {b : Block}, (e, y) ∈ (σ i).trace → b ∈ y.blocks → P b :=
    fun h hb => (hs i).record _ h _ hb
  cases ha with
  | core _ h _ =>
    obtain rfl := hmsg _ (.inl rfl)
    exact (hs _).record _ h
  | smvba _ h _ _ =>
    obtain rfl := hmsg _ (.inr rfl)
    exact (hs _).record _ h
  | requeued h =>
    obtain rfl := hmsg _ (.inl rfl)
    exact (hs _).record _ h
  | requeuedSmvba h _ =>
    obtain rfl := hmsg _ (.inr rfl)
    exact (hs _).record _ h
  | foreignCore h => exact h.elim
  | foreignSmvba h => exact h.elim
  | timer _ => rcases hm with hm | hm <;> cases hm
  | request _ _ =>
    obtain rfl := hmsg _ (.inl rfl)
    exact fun b hb => (nomatch hb)
  | payload h =>
    obtain rfl := hmsg _ (.inl rfl)
    exact List.forall_mem_singleton.mpr (hown h (List.mem_singleton.mpr rfl))
  | parent h _ =>
    obtain rfl := hmsg _ (.inl rfl)
    exact List.forall_mem_singleton.mpr (hown h (List.mem_singleton.mpr rfl))
  | fallbackPayload h =>
    obtain rfl := hmsg _ (.inr rfl)
    exact List.forall_mem_singleton.mpr (hown h (List.mem_singleton.mpr rfl))
  | outputPayload h =>
    obtain rfl := hmsg _ (.inr rfl)
    exact List.forall_mem_singleton.mpr (hown h (List.mem_singleton.mpr rfl))

/-- If the signed blocks are in `P`, all blocks are. -/
theorem inductive_shelved (S : Setup) (P : Block → Prop) :
    Inductive S (fun k => k ∈ S.committee.sortedNames) (fun _ _ => False) (fun _ _ _ => True)
      (fun σ => ∀ k, (∀ e b, (e, .sign (.block b)) ∈ (σ k).trace → P b) ∧
        ∀ x ∈ (σ k).trace, ProposesPes x)
      (fun σ => ∀ k, (σ k).Kept ∧ (σ k).Shelved P) where
  earlier := by
    intro σ τ hl hc k
    exact ⟨fun e b hb => (hc k).1 e b ((hl k).subset hb), fun x hx => (hc k).2 x ((hl k).subset hx)⟩
  start := fun k => ⟨.new, .new⟩
  take := by
    rintro σ i m _ hs _ ⟨input, hm, ha, -⟩ k
    by_cases hk : k = i
    · subst hk
      rw [Function.update_self]
      exact ⟨(hs k).1.take m, (hs k).2.take (ha.shelved (fun j => (hs j).2) hm)⟩
    · rw [Function.update_of_ne hk]
      exact hs k
  turn := by
    intro σ i t _ _ hs hc ht k
    by_cases hk : k = i
    · subst hk
      have hck := hc k
      rw [Function.update_self] at hck ⊢
      cases ht with
      | step ht => exact ⟨(hs k).1.step ht, (hs k).2.step (hs k).1 hck.1 hck.2 ht⟩
      | epoch _ ht => exact ht ▸ ⟨(hs k).1.renewed, (hs k).2.renewed⟩
    · rw [Function.update_of_ne hk]
      exact hs k

/-- The author of the block has signed it, in the epoch of the block. -/
def Block.Authored (b : Block) (core : Cores) : Prop :=
  (b.epoch, .sign (.block b)) ∈ (core b.author).trace

/-- If no `OPT` value is proposed, every block on record has been signed by its author. -/
theorem Setup.Runs.shelved (h : S.Runs w) (hp : ∀ k, ∀ x ∈ (w.core k).trace, ProposesPes x)
    (k : PublicKey) : (w.core k).Shelved fun b => b.Authored w.core := by
  refine ((h.invariant (inductive_shelved S fun b => b.Authored w.core)).2 ?_ k).2
  refine fun k => ⟨?_, hp k⟩
  intro e b hb
  obtain ⟨ha, he, -⟩ := (h.reachable k).block_made hb
  have hk : (S.config k).name = k := rfl
  rw [Block.Authored, ha, he, hk]
  exact hb

end Provenance

end Ipotane
