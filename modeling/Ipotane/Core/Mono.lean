import Ipotane.Core.Step

/-! Steps stay in the epoch, extend the record and keep the store true to it. -/
namespace Ipotane.Core

open Lib Handler

variable [Crypto] {cfg : Config} {s t u : Core}

/-- `t` has the epoch of `s` and a longer record. -/
structure Extends (s t : Core) : Prop where
  epoch : t.epoch = s.epoch
  trace : s.trace <:+ t.trace

theorem Extends.refl (s : Core) : Extends s s := ⟨rfl, List.suffix_rfl⟩

theorem Extends.trans (h : Extends s t) (h' : Extends t u) : Extends s u :=
  ⟨h'.epoch.trans h.epoch, h.trace.trans h'.trace⟩

theorem Extends.did {x : Event} (h : Extends s t) (hd : s.Did x) : t.Did x := by
  unfold Did at *
  rw [h.epoch]
  exact h.trace.subset hd

theorem Extends.ever {x : Event} (h : Extends s t) (hd : s.Ever x) : t.Ever x := by
  obtain ⟨e, he⟩ := hd
  exact ⟨e, h.trace.subset he⟩

theorem Did.ever {x : Event} (h : s.Did x) : s.Ever x := ⟨s.epoch, h⟩

theorem Extends.hears {m : ConsensusMessage} (h : Extends s t) (hm : s.Hears m) : t.Hears m := by
  rcases hm with hm | ⟨tag, hm⟩ | hm
  · exact .inl (h.did hm)
  · exact .inr (.inl ⟨tag, h.did hm⟩)
  · exact .inr (.inr (h.did hm))

theorem Extends.parent {b p : Block} (h : Extends s t) (hp : s.Parent b p) : t.Parent b p := by
  rcases hp with hp | ⟨hg, hd, hs⟩
  · exact .inl hp
  · exact .inr ⟨hg, hd, h.ever hs⟩

theorem Extends.pesActive (h : Extends s t) (hp : s.PesActive cfg) : t.PesActive cfg := by
  rcases hp with hp | hp | ⟨m, hm, hc⟩
  · exact .inl hp
  · exact .inr (.inl hp)
  · exact .inr (.inr ⟨m, h.did hm, hc⟩)

theorem Extends.proposed {b : Block} (h : Extends s t) (hp : s.Proposed cfg b) :
    t.Proposed cfg b :=
  ⟨hp.received.imp h.did h.did, hp.epoch.trans h.epoch.symm, hp.vetted⟩

/-! ### Every step extends the state -/

theorem extends_cons {x : Event} (he : t.epoch = s.epoch) (ht : t.trace = (s.epoch, x) :: s.trace) :
    Extends s t :=
  ⟨he, ht ▸ List.suffix_cons _ _⟩

theorem extends_same (he : t.epoch = s.epoch) (ht : t.trace = s.trace) : Extends s t :=
  ⟨he, ht ▸ List.suffix_rfl⟩

theorem extends_log (x : Event) : Extends s (s.log x) := extends_cons rfl rfl

theorem extends_marked (marks : List (ℕ × Event)) : Extends s (s.marked marks) :=
  ⟨rfl, List.suffix_append _ _⟩

theorem extends_collect {α : Type} (add : Aggregator → Appended α Aggregator) (mark : α → Event) :
    Extends s (collect add mark s).2 := by
  unfold collect
  split
  · exact extends_same rfl rfl
  · exact extends_same rfl rfl
  · exact extends_cons rfl rfl

theorem extends_updateHighQc (qc : QC) : Extends s (s.updateHighQc qc) := by
  unfold updateHighQc
  split
  · exact extends_same rfl rfl
  · exact Extends.refl s

theorem extends_adopt (qc : QC) : Extends s (s.adopt qc) := by
  unfold adopt
  refine Extends.trans ?_ (extends_updateHighQc qc)
  split
  · exact Extends.refl s
  · exact extends_cons rfl rfl

theorem extends_cleanFor (b : Block) : Extends s (s.cleanFor cfg b) := by
  unfold cleanFor
  split
  · exact extends_cons rfl rfl
  · exact Extends.refl s

theorem extends_settle {b b1 b0 : Block} {marks : List (ℕ × Event)} :
    Extends s (s.settle b b1 b0 marks) := by
  unfold settle
  split
  · refine ⟨rfl, ?_⟩
    exact ((List.suffix_cons _ _).trans (List.suffix_append _ _)).trans (List.suffix_cons _ _)
  · exact extends_cons rfl rfl

theorem OptStep.extends (h : OptStep cfg s t) : Extends s t := by
  cases h with
  | quiet h => exact ⟨h.epoch, h.trace ▸ List.suffix_rfl⟩
  | log h => exact extends_log _
  | vote hp hs hv hq hh => exact ⟨rfl, (List.suffix_cons _ _).trans (List.suffix_cons _ _)⟩
  | proposal hp hb => exact (extends_cleanFor _).trans (extends_adopt _)
  | overflow hp hb => exact extends_cleanFor _
  | adopt _ _ _ _ _ => exact extends_adopt _
  | arm h => exact extends_cons rfl rfl
  | buffer h he => exact extends_same rfl rfl
  | countVote hh hv he hn hb => exact extends_collect _ _
  | store hp h1 h0 hm => exact extends_cons rfl rfl
  | settle hp h1 h0 hm hc ht => exact extends_settle
  | commit hp hs h1 h0 hc hl => exact extends_cons rfl rfl

theorem PesStep.extends (h : PesStep cfg s t) : Extends s t := by
  cases h with
  | log h => exact extends_log _
  | countFallback h => exact extends_collect _ _
  | countSpb h => exact extends_collect _ _
  | countPre h ht => exact extends_collect _ _
  | enterRound h hq => exact (extends_log _).trans (extends_cons rfl rfl)
  | yes h ht hv => exact ⟨rfl, List.suffix_append [] _⟩
  | voteYes h ht hv => exact ⟨rfl, List.suffix_append _ _⟩
  | extend _ | buffer _ _ _ | countShare _ _ _ _ | putOpt _ _ _ | putPes _ _ _ | countDone _
  | countNo _ _ =>
    exact extends_same rfl rfl
  | _ => exact extends_cons rfl rfl

theorem Step.extends (h : Step cfg s t) : Extends s t := by
  cases h with
  | opt h => exact h.extends
  | pes _ h => exact h.extends

theorem steps_extends (h : Relation.ReflTransGen (Step cfg) s t) : Extends s t := by
  induction h with
  | refl => exact Extends.refl s
  | tail _ h ih => exact ih.trans h.extends

/-! ### The store holds what the record says -/

def StoreOk (s : Core) : Prop := ∀ d p, s.store.get d = some p → p.digest = d ∧ s.Ever (.store p)

theorem StoreOk.of_store (h : s.StoreOk) (he : Extends s t) (ht : t.store = s.store) :
    t.StoreOk := by
  intro d p hp
  rw [ht] at hp
  exact ⟨(h d p hp).1, he.ever (h d p hp).2⟩

theorem StoreOk.insertBlock (h : s.StoreOk) (b : Block) : (s.insertBlock b).StoreOk := by
  intro d p hp
  have hp' : (if d = b.digest then some b else s.store.get d) = some p := hp
  split at hp'
  · cases hp'
    exact ⟨by simp_all, s.epoch, List.mem_cons_self⟩
  · obtain ⟨hd, e, he⟩ := h d p hp'
    exact ⟨hd, e, List.mem_cons_of_mem _ he⟩

theorem collect_aggregator {α : Type} (add : Aggregator → Appended α Aggregator)
    (mark : α → Event) : (collect add mark s).2.aggregator = (add s.aggregator).2 := by
  unfold collect
  split <;> rename_i h <;> simp [h]

theorem collect_store {α : Type} (add : Aggregator → Appended α Aggregator) (mark : α → Event) :
    (collect add mark s).2.store = s.store := by
  unfold collect
  split <;> rfl

theorem adopt_store (qc : QC) : (s.adopt qc).store = s.store := by
  unfold adopt updateHighQc
  split <;> split <;> rfl

theorem cleanFor_store (b : Block) : (s.cleanFor cfg b).store = s.store := by
  unfold cleanFor
  split <;> rfl

theorem settle_store {b b1 b0 : Block} {marks : List (ℕ × Event)} :
    (s.settle b b1 b0 marks).store = (s.insertBlock b).store := by
  unfold settle
  split <;> rfl

theorem settle_extends_insert {b b1 b0 : Block} {marks : List (ℕ × Event)} :
    Extends (s.insertBlock b) (s.settle b b1 b0 marks) := by
  unfold settle
  split
  · exact ⟨rfl, (List.suffix_append _ _).trans (List.suffix_cons _ _)⟩
  · exact Extends.refl _

theorem OptStep.storeOk (h : OptStep cfg s t) (hs : s.StoreOk) : t.StoreOk := by
  have he := h.extends
  cases h with
  | quiet h => exact hs.of_store he h.store
  | proposal hp hb => exact hs.of_store he ((adopt_store _).trans (cleanFor_store _))
  | overflow hp hb => exact hs.of_store he (cleanFor_store _)
  | adopt hq hb _ _ _ => exact hs.of_store he (adopt_store _)
  | countVote hh hv he' hn hb => exact hs.of_store he (collect_store _ _)
  | store hp h1 h0 hm => exact hs.insertBlock _
  | settle hp h1 h0 hm hc ht =>
    exact (hs.insertBlock _).of_store settle_extends_insert settle_store
  | _ => exact hs.of_store he rfl

theorem PesStep.storeOk (h : PesStep cfg s t) (hs : s.StoreOk) : t.StoreOk := by
  have he := h.extends
  cases h with
  | store h _ => exact hs.insertBlock _
  | countFallback h => exact hs.of_store he (collect_store _ _)
  | countSpb h => exact hs.of_store he (collect_store _ _)
  | countPre h ht => exact hs.of_store he (collect_store _ _)
  | _ => exact hs.of_store he rfl

theorem steps_storeOk (h : Relation.ReflTransGen (Step cfg) s t) (hs : s.StoreOk) : t.StoreOk := by
  induction h with
  | refl => exact hs
  | tail _ h ih =>
    cases h with
    | opt h => exact h.storeOk ih
    | pes _ h => exact h.storeOk ih

end Ipotane.Core
