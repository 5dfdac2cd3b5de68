import Ipotane.Branches
import Ipotane.Cluster

/-! The parents of the blocks in the store. -/
namespace Ipotane

open Lib

section Ancestors

variable [Crypto]

namespace Core

variable {cfg : Config} {s t : Core} {alive : Bool} {b : Block} {past l : List (ℕ × Event)}

def storedBlock : Event → Option Block
  | .store b => some b
  | _ => none

theorem storedBlock_eq {y : Event} (h : b ∈ storedBlock y) : y = .store b := by
  cases y <;> cases h
  rfl

/-- The block goes on from the genesis block, or from a block that has been stored. -/
def Descends (past : List (ℕ × Event)) (b : Block) : Prop :=
  b.qc.isGenesis ∨ ∃ y ∈ past, ∃ p ∈ storedBlock y.2, p.digest = b.parent

theorem Descends.mono (h : Descends past b) (hl : past ⊆ l) : Descends l b :=
  h.imp_right fun ⟨y, hy, hp⟩ => ⟨y, hl hy, hp⟩

/-- The parent of a fallback block or an output has been stored when the node takes the block, or
halts on it. A fallback certificate of its own block is for a block that it has stored, and its
fallback chains start from the genesis certificate or from that of a block that it has stored. -/
def Attached (cfg : Config) (x : ℕ × Event) (past : List (ℕ × Event)) : Prop :=
  match x.2 with
  | .receive (.FBPropose b) => b.epoch = x.1 → Descends past b
  | .receive (.FBLoopBack b) => x.1 ≤ b.epoch → Descends past b
  | .receive (.ParLoopBack b) => x.1 ≤ b.epoch → b.tag ≠ OPT → Descends past b
  | .halted m =>
    x.1 ≤ m.value.block.epoch → m.value.block.tag ≠ OPT → Descends past m.value.block
  | .assembledFallback q =>
    q.proposer = cfg.name → ∃ y ∈ past, ∃ p ∈ storedBlock y.2, p.digest = q.hash
  | .sign (.block b) =>
    b.tag = PES → b.round = 1 → b.qc.isGenesis ∨ ∃ y ∈ past, ∃ c ∈ storedBlock y.2, c.qc = b.qc
  | _ => True

instance (past : List (ℕ × Event)) (b : Block) : Decidable (Descends past b) := by
  unfold Descends
  infer_instance

instance (cfg : Config) (x : ℕ × Event) (past : List (ℕ × Event)) :
    Decidable (Attached cfg x past) := by
  unfold Attached
  split <;> infer_instance

/-- A stored block goes on from one that was stored before. -/
def Nested (x : ℕ × Event) (past : List (ℕ × Event)) : Prop :=
  ∀ b ∈ storedBlock x.2, Descends past b

/-- All blocks that are stored are nested, and so are the fallback blocks that the node has
broadcast, or is about to. -/
structure Lineal (s : Core) : Prop where
  kept : s.Kept
  timely : s.Timely
  invoked : s.Invoked
  nested : Along Nested s.trace
  rooted : ∀ b, s.Did (.sign (.block b)) → b.tag = PES →
    s.smvbaIsInvoke.getD b.height false = false → Descends s.trace b
  sent : ∀ e b dest tag, (e, .send (.FBPropose b) dest tag) ∈ s.trace → Descends s.trace b

theorem Parent.descends {p : Block} (h : s.Parent b p) : Descends s.trace b := by
  rcases h with ⟨hg, -⟩ | ⟨-, hd, e, hst⟩
  · exact .inl hg
  · exact .inr ⟨_, hst, p, rfl, hd⟩

/-- What holds of an entry with its past holds of it with all of the record. -/
theorem descends_of_attached {e : ℕ} {y : Event} (hc : Along (Attached cfg) s.trace)
    (hy : (e, y) ∈ s.trace) (h : ∀ past, Attached cfg (e, y) past → Descends past b) :
    Descends s.trace b := by
  obtain ⟨past, hpast, hatt⟩ := hc.of_mem hy
  exact (h past hatt).mono ((List.suffix_cons _ _).trans hpast).subset

/-- A block that is stored has a parent that has been stored. -/
theorem descends_of_nested (h : Along Nested l) {e : ℕ} (hb : (e, .store b) ∈ l) :
    Descends l b := by
  obtain ⟨past, hpast, hnest⟩ := h.of_mem hb
  exact (hnest b rfl).mono ((List.suffix_cons _ _).trans hpast).subset

theorem Lineal.grafts (hs : s.Lineal) (hc : Along (Attached cfg) s.trace) (h : s.Grafts b)
    (hf : s.epoch ≤ b.epoch) : Descends s.trace b := by
  cases h with
  | fallen h =>
    cases h with
    | own h => exact hs.sent _ _ _ _ h
    | peer h he => exact descends_of_attached hc h fun _ hatt => hatt (Nat.le_antisymm he hf)
    | loopback h => exact descends_of_attached hc h fun _ hatt => hatt hf
  | output h ht =>
    rcases h with ⟨m, hm, rfl⟩ | h
    · exact descends_of_attached hc hm fun _ hatt => hatt hf ht
    · exact descends_of_attached hc h fun _ hatt => hatt hf ht

theorem Lineal.records (hs : s.Lineal) (hc : Along (Attached cfg) s.trace)
    (h : Records cfg s t (.store b)) : Descends s.trace b := by
  cases h with
  | opt h => exact h.elim
  | pes _ h => exact h.elim
  | store _ h1 _ _ => exact h1.descends
  | pesStore _ h hf _ _ => exact hs.grafts hc h hf.1

/-- A block that starts a fallback chain, or that goes on with it, has a parent that has
been stored. -/
theorem Lineal.signed (hs : s.Lineal) (hc : Along (Attached cfg) t.trace) (ht : s.trace <:+ t.trace)
    (h : Records cfg s t (.sign (.block b))) (htag : b.tag = PES)
    (hn : s.smvbaIsInvoke.getD b.height false = false) : Descends s.trace b := by
  rcases (h.shoot_inv htag).2 with ⟨-, hcont⟩ | ⟨rfl, hr, -⟩
  · obtain ⟨hhead, -, -, hp⟩ := hs.invoked.springs hs.kept hn hcont
    refine descends_of_attached (hc.suffix ht) (List.mem_of_mem_head? hhead) fun _ hatt => ?_
    exact .inr (hatt hp)
  · rcases hc.1 htag hr with hg | ⟨⟨e, y⟩, hy, c, hcy, hqc⟩
    · exact .inl hg
    · obtain rfl : y = .store c := storedBlock_eq hcy
      have hdescends := descends_of_nested hs.nested hy
      unfold Descends Block.parent at hdescends ⊢
      rwa [hqc] at hdescends

theorem Lineal.step (hs : s.Lineal) (hc : Along (Attached cfg) t.trace) (h : Step cfg s t) :
    t.Lineal := by
  have hext := h.extends
  have hsub := hext.trace.subset
  have hcs := hc.suffix hext.trace
  refine ⟨hs.kept.step h, hs.timely.step h, hs.invoked.step hs.kept h, ?_, ?_, ?_⟩
  · obtain ⟨new, heq, hnew⟩ := h.grown
    rw [heq]
    refine hs.nested.append fun x hx past hpast b hb => ?_
    have hr := (hnew x hx).2
    rw [storedBlock_eq hb] at hr
    exact (hs.records hcs hr).mono hpast.subset
  · intro b hdid htag hn
    have hn' := h.uninvoked hn
    unfold Did at hdid
    rw [hext.epoch] at hdid
    rcases h.recorded hdid with hold | ⟨-, hr⟩
    · exact (hs.rooted b hold htag hn').mono hsub
    · exact (hs.signed hc hext.trace hr htag hn').mono hsub
  · intro e b dest tag hb
    rcases h.recorded hb with hold | ⟨-, hr⟩
    · exact (hs.sent e b dest tag hold).mono hsub
    · obtain ⟨htag, hn, hhead, -⟩ := hr.branch_inv
      exact (hs.rooted b (List.mem_of_mem_head? hhead) htag hn).mono hsub

theorem Lineal.new : Lineal .new := by
  refine ⟨.new, .new, .new, ⟨fun b hb => (nomatch hb), trivial⟩, ?_, ?_⟩
  · exact fun b hb => (not_own_of_new hb trivial).elim
  · exact fun e b dest tag hb => (not_own_of_new hb trivial).elim

theorem Lineal.take (hs : s.Lineal) (m : ConsensusMessage) : (s.log (.receive m)).Lineal := by
  have hsub := List.subset_cons_self (s.epoch, Event.receive m) s.trace
  refine ⟨hs.kept.take m, hs.timely.take m, hs.invoked,
    ⟨fun b hb => (nomatch hb), hs.nested⟩, ?_, ?_⟩
  · exact fun b hb htag hn => (hs.rooted b (mem_take hb trivial) htag hn).mono hsub
  · exact fun e b dest tag hb => (hs.sent e b dest tag (mem_take hb trivial)).mono hsub

theorem Lineal.renewed (hs : s.Lineal) : s.renewed.Lineal := by
  refine ⟨hs.kept.renewed, hs.timely.renewed, .renewed, ?_, ?_, ?_⟩
  · obtain ⟨new, heq, hnew⟩ := renewed_grown s
    rw [heq]
    refine hs.nested.append fun x hx past _ b hb => ?_
    refine absurd ?_ (hnew x hx).2
    rw [storedBlock_eq hb]
    trivial
  · exact fun b hb => (hs.timely.not_renewed_did hb trivial).elim
  · intro e b dest tag hb
    exact (hs.sent e b dest tag (mem_renewed hb trivial)).mono (renewed_trace s).subset

theorem Descends.filed (h : Descends l b) : b.qc.isGenesis ∨
    ∃ p, (filed l).get b.parent = some p := by
  refine h.imp_right ?_
  rintro ⟨⟨e, y⟩, hy, p, hp, hd⟩
  obtain rfl : y = .store p := storedBlock_eq hp
  rw [← hd]
  exact Map.contains_iff.mp (contains_filed hy)

end Core

end Ancestors

end Ipotane
