import Ipotane.Core.Effect
import Ipotane.Lib.History
import Ipotane.Replay

/-! What a node no longer does for a height that it has terminated. -/
namespace Ipotane.Core

open Lib Handler

section Terminations

variable [Crypto] {cfg : Config} {s t : Core} {k r : ℕ} {site : Termination}

/-- The entry offers the value for a vote, in a proposal or a prevote of the height. -/
def Tenders (v : SPBValue) (height : ℕ) : Event → Prop
  | .send (.SPBPropose w p) _ _ | .receive (.SPBPropose w p) => w = v ∧ p.height = height
  | .send (.SMVBAPreVote m) _ _ | .receive (.SMVBAPreVote m) | .keep (.SMVBAPreVote m) =>
    m.height = height ∧ ∃ p, m.tag = .Yes v p
  | _ => False

/-- What is recorded after the heights up to `k` have been terminated is about heights above `k`,
except for a prepare that comes with a block below the node. Nothing is said of the
two-chain rule. -/
def Quiet (k : ℕ) (x : ℕ × Event) (past : List (ℕ × Event)) : Prop :=
  match x with
  | (e, .sign (.prepare p)) => k < p.height ∨ (p.val = OPT ∧
      ∃ b height, (e, .process b height) ∈ past ∧ p.height + 1 = b.height ∧ b.height < height)
  | (_, .sign (.vote v)) => k < v.height
  | (_, .sign (.spbVote v)) => ∃ value height y, y ∈ past ∧ Tenders value height y.2 ∧ k < height ∧
      v = SPBVote.new value v.author
  | (_, .sign (.share x)) => k < x.height
  | (_, .sign (.done m)) => k < m.height
  | (_, .sign (.prevote m)) => k < m.height
  | (_, .sign (.mvote m)) => k < m.height
  | (_, .commit b .smvbaOutput) => k < b.height
  | (_, .commit _ (.fastPath p)) => k < p.height
  | _ => True

/-- A termination that leaves the node two heights ahead is followed by quiet entries only. -/
def Silent (x : ℕ × Event) (past : List (ℕ × Event)) : Prop :=
  ∀ k r site, (x.1, .terminate k r site) ∈ past → k + 2 ≤ r → Quiet k x past

/-- The calls that may terminate a height less than two below the node: that of `handle_par_prepare`
for a prepare of the next height, and that of `handle_opt_proposal` for a block that is not the next
one after its certificate. -/
def Hasty (k : ℕ) : Termination → Prop
  | .proposal b => b.height = k + 2 ∧ (b.qc.height + 1 < b.height ∨ 2 ^ 64 ≤ b.qc.height + 1)
  | .block _ => False
  | .prepare p => p.height = k + 1

structure StaysTerminated (s : Core) : Prop where
  ahead : ∀ e k r site, (e, .terminate k r site) ∈ s.trace → k + 2 ≤ r ∨ Hasty k site
  reached : ∀ k r site, s.Did (.terminate k r site) → r ≤ s.height
  filtered : ∀ k r site, s.Did (.terminate k r site) → k + 2 ≤ r → ∀ epoch, ∀ height ≤ k,
    (smvbaMsgFilter epoch height s).1 = .ok false ∧
    (fallbackMessageFilter epoch height s).1 = .ok false
  silent : Along Silent s.trace

/-! ### The filters -/

theorem smvbaMsgFilter_low {epoch height : ℕ} (hh : height + 2 ≤ s.height)
    (hb : s.height < 2 ^ 64) : (smvbaMsgFilter epoch height s).1 = .ok false := by
  unfold smvbaMsgFilter
  rw [bind_run (x := self) rfl]
  split
  · rfl
  · have hlt : height + 2 < 2 ^ 64 := by omega
    unfold add
    rw [if_pos hlt, bind_run (x := pure (height + 2)) rfl]
    simp only [ge_iff_le, hh, not_true, decide_false]
    rfl

theorem fallbackMessageFilter_low {epoch height : ℕ} (hh : height + 2 ≤ s.height)
    (hb : s.height < 2 ^ 64) : (fallbackMessageFilter epoch height s).1 = .ok false := by
  have hlt : height + 2 < 2 ^ 64 := by omega
  unfold fallbackMessageFilter
  rw [bind_run (x := self) rfl]
  unfold add
  rw [if_pos hlt, bind_run (x := pure (height + 2)) rfl]
  simp only [ge_iff_le, hh, true_or, not_true, decide_false]
  rfl

/-! ### One step -/

structure TerminationInv (s : Core) : Prop where
  timely : s.Timely
  bound : s.height < 2 ^ 64
  ahead : ∀ e k r site, (e, .terminate k r site) ∈ s.trace → k + 2 ≤ r ∨ Hasty k site
  reached : ∀ k r site, s.Did (.terminate k r site) → r ≤ s.height
  silent : Along Silent s.trace

theorem Quiet.mono {x : ℕ × Event} {past past' : List (ℕ × Event)} (h : Quiet k x past)
    (hp : past ⊆ past') : Quiet k x past' := by
  unfold Quiet at *
  split at h
  · rcases h with h | ⟨hv, b, height, hm, hh⟩
    · exact .inl h
    · exact .inr ⟨hv, b, height, hp hm, hh⟩
  · exact h
  · obtain ⟨v, height, y, hy, hrest⟩ := h
    exact ⟨v, height, y, hp hy, hrest⟩
  all_goals exact h

theorem SpbSource.tenders {v : SPBValue} {p : SPBProof} (h : s.SpbSource cfg v p) :
    ∃ y ∈ s.trace, Tenders v p.height y.2 := by
  cases h with
  | own h => exact ⟨_, h, rfl, rfl⟩
  | peer h _ _ => exact ⟨_, h, rfl, rfl⟩

theorem Open.tenders {m : MPreVote} {v : SPBValue} {p : SPBProof} (h : s.Open cfg m)
    (ht : m.tag = .Yes v p) : ∃ y ∈ s.trace, Tenders v m.height y.2 := by
  rcases h.taken.hears with hm | ⟨tag, hm⟩ | hm
  · exact ⟨_, hm, rfl, p, ht⟩
  · exact ⟨_, hm, rfl, p, ht⟩
  · exact ⟨_, hm, rfl, p, ht⟩

omit [Crypto] in
theorem lt_of_fresh {height own : ℕ} (hk : k + 2 ≤ own) (hf : own < height + 2) : k < height := by
  omega

theorem PesLog.quiet {y : Event} (h : s.PesLog cfg y) (hk : k + 2 ≤ s.height) :
    Quiet k (s.epoch, y) s.trace := by
  unfold PesLog at h
  split at h
  case h_2 =>
    obtain ⟨b, rfl, -, -, hf⟩ := h
    exact lt_of_fresh hk hf
  case h_3 =>
    obtain ⟨v, p, rfl, hsource, hf⟩ := h
    obtain ⟨y, hy, ho⟩ := hsource.tenders
    exact ⟨v, _, y, hy, ho, lt_of_fresh hk hf, rfl⟩
  case h_4 => exact lt_of_fresh hk h.2.1
  case h_5 => exact lt_of_fresh hk h.2.1
  case h_6 => exact lt_of_fresh hk h.2
  all_goals trivial

theorem OptLog.quiet {y : Event} (h : s.OptLog cfg y) {e : ℕ} {past : List (ℕ × Event)} :
    Quiet k (e, y) past := by
  unfold OptLog at h
  split at h <;> trivial

theorem PrepareCause.quiet {height val : ℕ} {qc : QC} (h : s.PrepareCause cfg height qc val)
    (hk : k + 2 ≤ s.height) :
    Quiet k (s.epoch, .sign (.prepare (PrePare.new cfg.name s.epoch height qc val)))
      s.trace := by
  cases h with
  | @opt b h hh _ =>
    by_cases hlow : k < height
    · exact .inl hlow
    · exact .inr ⟨rfl, b, s.height, h, hh, by omega⟩
  | pes _ _ _ hf => exact .inl (lt_of_fresh hk hf)

theorem Records.quiet {y : Event} (h : Records cfg s t y) (hk : k + 2 ≤ s.height) :
    Quiet k (s.epoch, y) s.trace := by
  cases h with
  | opt h => exact h.quiet
  | pes _ h => exact h.quiet hk
  | @vote b _ _ _ _ hh _ =>
    have hlt : s.height < b.height + 2 := by omega
    exact lt_of_fresh hk hlt
  | prepare _ hc _ _ => exact hc.quiet hk
  | outputCommit _ _ _ _ hf _ _ => exact lt_of_fresh hk hf.2
  | fastCommit _ _ _ hp _ _ _ _ => exact lt_of_fresh hk hp.fresh
  | mvoteYes _ h _ _ _ => exact lt_of_fresh hk h.taken.fresh.2
  | mvoteNo _ h _ _ _ => exact lt_of_fresh hk h.taken.fresh.2
  | spbVote _ h ht _ =>
    obtain ⟨y, hy, ho⟩ := h.tenders ht
    exact ⟨_, _, y, hy, ho, lt_of_fresh hk h.taken.fresh.2, rfl⟩
  | _ => trivial

/-- A step that terminates a height puts nothing else on record. -/
theorem Records.clearing (h : Records cfg s t (.terminate k r site)) : Clearing s t := by
  cases h with
  | opt h => exact h.elim
  | pes _ h => exact h.elim
  | clean _ _ _ ht => exact ht
  | terminate _ _ ht =>
    subst ht
    refine ⟨[_], rfl, ?_⟩
    intro x hx
    cases List.mem_singleton.mp hx
    trivial

theorem quiet_of_clears {y : Event} (h : y.Clears) {e : ℕ} {past : List (ℕ × Event)} :
    Quiet k (e, y) past := by
  cases y <;> trivial

/-- Every entry of a step is silent, whatever the step has put on record before it. -/
theorem silent_append {new : List (ℕ × Event)} (hs : Along Silent s.trace)
    (hr : ∀ k r site, s.Did (.terminate k r site) → r ≤ s.height) (heq : t.trace = new ++ s.trace)
    (hnew : ∀ x ∈ new, x.1 = s.epoch ∧ Records cfg s t x.2) {l : List (ℕ × Event)}
    (hl : l <:+ new) : Along Silent (l ++ s.trace) := by
  induction l with
  | nil => exact hs
  | cons x l ih =>
    refine ⟨?_, ih ((List.suffix_cons x l).trans hl)⟩
    intro k r site hmem hk
    obtain ⟨hx, hrec⟩ := hnew x (hl.subset List.mem_cons_self)
    rcases List.mem_append.mp hmem with hmem | hmem
    · -- the termination is of this step
      obtain ⟨-, hterm⟩ := hnew _ (hl.subset (List.mem_cons_of_mem _ hmem))
      obtain ⟨new', heq', hclear⟩ := hterm.clearing
      have hsame : new = new' := List.append_cancel_right (heq.symm.trans heq')
      exact quiet_of_clears (hclear x (hsame ▸ hl.subset List.mem_cons_self))
    · rw [hx] at hmem
      have hquiet := hrec.quiet (hk.trans (hr k r site hmem))
      rw [← hx] at hquiet
      exact hquiet.mono (List.subset_append_right _ _)

theorem OptStep.height_lt (h : OptStep cfg s t) (hs : s.height < 2 ^ 64) : t.height < 2 ^ 64 := by
  cases h with
  | quiet h => exact h.height ▸ hs
  | proposal _ hb =>
    rw [adopt_height, cleanFor_height]
    omega
  | overflow _ _ =>
    rw [cleanFor_height]
    exact hs
  | adopt _ hb _ _ _ =>
    rw [adopt_height]
    omega
  | countVote _ _ _ _ _ => exact collect_height (s := s) _ _ ▸ hs
  | settle _ _ _ _ _ _ =>
    rw [settle_height]
    exact hs
  | _ => exact hs

theorem Step.height_lt (h : Step cfg s t) (hs : s.height < 2 ^ 64) : t.height < 2 ^ 64 := by
  cases h with
  | opt h => exact h.height_lt hs
  | pes _ h => exact h.height_eq ▸ hs

theorem Records.ahead (h : Records cfg s t (.terminate k r site)) : k + 2 ≤ r ∨ Hasty k site := by
  cases h with
  | opt h => exact h.elim
  | pes _ h => exact h.elim
  | @clean b _ _ hh _ _ =>
    by_cases hnext : b.qc.height + 1 < b.height ∨ 2 ^ 64 ≤ b.qc.height + 1
    · exact .inr ⟨by omega, hnext⟩
    · refine .inl ?_
      unfold heightAfter
      rw [if_pos (by omega)]
      omega
  | terminate _ h _ =>
    rcases h with ⟨hh, -⟩ | ⟨p, rfl, -, hh⟩
    · exact .inl hh.le
    · exact .inr hh

theorem Records.reached (h : Records cfg s t (.terminate k r site)) : r = t.height := by
  cases h with
  | opt h => exact h.elim
  | pes _ h => exact h.elim
  | clean _ _ _ _ hr => exact hr.symm
  | terminate _ _ ht => exact ht ▸ rfl

theorem TerminationInv.step (hs : TerminationInv s) (h : Step cfg s t) : TerminationInv t := by
  have he := h.extends
  obtain ⟨new, heq, hnew⟩ := h.grown
  refine ⟨hs.timely.step h, h.height_lt hs.bound, ?_, ?_, ?_⟩
  · intro e k r site hm
    rcases h.recorded hm with hm | ⟨-, hr⟩
    · exact hs.ahead e k r site hm
    · exact hr.ahead
  · intro k r site hm
    rcases h.recorded hm with hm | ⟨-, hr⟩
    · rw [he.epoch] at hm
      exact (hs.reached k r site hm).trans h.height_le
    · exact hr.reached.le
  · rw [heq]
    exact silent_append hs.silent hs.reached heq hnew List.suffix_rfl

theorem TerminationInv.take (hs : TerminationInv s) (m : ConsensusMessage) :
    TerminationInv (s.log (.receive m)) := by
  refine ⟨hs.timely.take m, hs.bound, ?_, ?_, ?_, hs.silent⟩
  · exact fun e k r site hm => hs.ahead e k r site (mem_take hm trivial)
  · exact fun k r site hm => hs.reached k r site (mem_take hm trivial)
  · exact fun k r site _ _ => trivial

theorem TerminationInv.renewed (hs : TerminationInv s) : TerminationInv s.renewed := by
  obtain ⟨new, heq, hnew⟩ := renewed_grown s
  refine ⟨hs.timely.renewed, ?_, ?_, fun k r site hm =>
    (hs.timely.not_renewed_did hm trivial).elim, ?_⟩
  · obtain ⟨marks, rest, hr, -, -⟩ := renewed_eq s
    rw [hr]
    change 1 < 2 ^ 64
    omega
  · exact fun e k r site hm => hs.ahead e k r site (mem_renewed hm trivial)
  · rw [heq]
    refine hs.silent.append ?_
    rintro ⟨e, y⟩ hx past - k r site - -
    have hown := (hnew _ hx).2
    cases y <;> first | trivial | exact absurd trivial hown

theorem TerminationInv.new : TerminationInv .new := by
  refine ⟨.new, ?_, ?_, ?_, ?_, trivial⟩
  · change 1 < 2 ^ 64
    omega
  · exact fun e k r site hm => (not_own_of_new hm trivial).elim
  · exact fun k r site hm => (not_own_of_new hm trivial).elim
  · exact fun k r site hm => (nomatch hm)

theorem Reachable.staysTerminated {alive : Bool} (h : Reachable cfg s alive) :
    s.StaysTerminated := by
  have hs : TerminationInv s := by
    refine (h.invariant (C := fun _ => True) (fun _ _ _ h => h) TerminationInv.new ?_ ?_).2 trivial
    · exact fun s m hs _ => hs.take m
    · intro s t _ hs _ ht
      cases ht with
      | step ht => exact hs.step ht
      | epoch _ ht => exact ht ▸ hs.renewed
  refine ⟨hs.ahead, hs.reached, ?_, hs.silent⟩
  intro k r site hm hk epoch height hle
  have hlow : height + 2 ≤ s.height := by
    have hreach := hs.reached k r site hm
    omega
  exact ⟨smvbaMsgFilter_low hlow hs.bound, fallbackMessageFilter_low hlow hs.bound⟩

/-! ### Commits of terminated heights -/

/-- The height up to which an entry terminates. -/
def terminatedBy : Event → Option ℕ
  | .terminate k _ _ => some k
  | _ => none

/-- The height of a vote, a prepare, a share or a commit. -/
def producedBy : Event → Option ℕ
  | .sign (.vote v) => some v.height
  | .sign (.prepare p) => some p.height
  | .sign (.spbVote v) => some v.height
  | .sign (.share x) => some x.height
  | .sign (.prevote m) => some m.height
  | .sign (.mvote m) => some m.height
  | .commit b _ => some b.height
  | _ => none

/-- A height that has been terminated is two below the node, and nothing is produced for it. -/
structure TerminatesForGood (s : Core) : Prop where
  reached : ∀ e k r site, (e, .terminate k r site) ∈ s.trace → k + 2 ≤ r
  noneAfter : Along (fun x past => ∀ y ∈ past, y.1 = x.1 → ∀ k ∈ terminatedBy y.2,
    ∀ height ∈ producedBy x.2, k < height) s.trace

end Terminations

end Ipotane.Core

namespace Ipotane

open Lib

/-- Every node takes the blocks of heights `1` and `2`, node `3` makes the third, and node
`0` takes it. -/
def toThirdBlock : List Act :=
  [.boot 0, .boot 1, .boot 2, .boot 3, .deliver 0 1 0, .deliver 2 1 0, .deliver 3 1 0,
    .deliver 2 0 1, .deliver 2 1 2, .deliver 0 2 2, .deliver 3 0 6, .deliver 1 2 2, .deliver 3 1 7,
    .deliver 3 2 2, .deliver 0 3 6]

theorem staysTerminated_after_thirdBlock : ∃ s, Core.Reachable (sampleSetup.config 0) s true ∧
    (∃ x ∈ s.trace, x.1 = s.epoch ∧ Core.terminatedBy x.2 = some 1) ∧ s.StaysTerminated := by
  obtain ⟨w, hr, hp, hm⟩ := exists_play sampleSetup toThirdBlock
    (fun w => w.phase 0 = .running ∧ ∃ x ∈ (w.core 0).trace, x.1 = (w.core 0).epoch ∧
      Core.terminatedBy x.2 = some 1)
    (by decide +kernel) (by decide +kernel)
  have hreach := hr.reachable 0
  rw [hp] at hreach
  exact ⟨w.core 0, hreach, hm, hreach.staysTerminated⟩

/-- Node `0` terminates height `1` and commits the block of that height by the two-chain rule. -/
theorem not_terminatesForGood_after_thirdBlock :
    ¬ ∀ (cfg : Config) (s : Core), Core.Reachable cfg s true → s.TerminatesForGood := by
  intro h
  obtain ⟨w, hr, hp, hm⟩ := exists_play sampleSetup toThirdBlock
    (fun w => w.phase 0 = .running ∧ ¬ Along (fun x past => ∀ y ∈ past, y.1 = x.1 →
      ∀ k ∈ Core.terminatedBy y.2, ∀ height ∈ Core.producedBy x.2, k < height) (w.core 0).trace)
    (by decide +kernel) (by decide +kernel)
  have hreach := hr.reachable 0
  rw [hp] at hreach
  exact hm (h _ _ hreach).noneAfter

end Ipotane
