import Ipotane.Core.Effect
import Ipotane.Members
import Ipotane.Terminations
import Ipotane.Values

/-! The proposals that a proof is assembled for. -/
namespace Ipotane

open Lib

section Proposals

variable [Crypto]

/-- The height that an entry terminates, and the height that the node reaches with it. -/
def termination : Event → Option (ℕ × ℕ)
  | .terminate k reached _ => some (k, reached)
  | _ => none

def provedProof : Event → Option SPBProof
  | .proved p => some p
  | _ => none

namespace Core

variable {cfg : Config} {s t : Core} {alive : Bool}

/-! ### Proposals that are held -/

/-- A proposal of the epoch is held as long as its height has not been terminated. -/
def Holds (s : Core) : Prop :=
  ∀ v, s.Did (.propose v) → s.spbProposes.contains (v.block.height, v.round) = true ∨
    ∃ k r site, v.block.height ≤ k ∧ s.Did (.terminate k r site)

theorem contains_clean {key : ℕ × ℕ} {k reached : ℕ} {site : Termination} (hk : ¬ key.1 ≤ k)
    (h : s.spbProposes.contains key = true) :
    (s.cleanSmvbaState k reached site).spbProposes.contains key = true :=
  Map.contains_retain (by simpa using hk) h

/-- A proposal is only let go when its height is terminated. -/
theorem OptStep.spbProposes (h : OptStep cfg s t) {key : ℕ × ℕ}
    (hc : s.spbProposes.contains key = true) :
    t.spbProposes.contains key = true ∨ ∃ k, key.1 ≤ k ∧ Cleans s t k := by
  cases h with
  | quiet h => exact .inl (h.spbProposes ▸ hc)
  | @proposal b _ hb =>
    rw [adopt_spbProposes]
    rcases cleanFor_cases s cfg b with heq | heq
    · rw [heq]
      exact .inl hc
    · by_cases hk : key.1 ≤ b.height - 2
      · exact .inr ⟨_, hk, proposal_cleans hb heq⟩
      · rw [heq]
        exact .inl (contains_clean hk hc)
  | @overflow b _ hb =>
    rcases cleanFor_cases s cfg b with heq | heq
    · rw [heq]
      exact .inl hc
    · by_cases hk : key.1 ≤ b.height - 2
      · exact .inr ⟨_, hk, overflow_cleans hb heq⟩
      · rw [heq]
        exact .inl (contains_clean hk hc)
  | adopt _ _ _ _ _ => exact .inl (adopt_spbProposes s _ ▸ hc)
  | countVote _ _ _ _ _ => exact .inl (collect_spbProposes (s := s) _ _ ▸ hc)
  | settle _ _ _ _ _ _ =>
    unfold Core.settle
    split
    · exact .inl hc
    · exact .inl hc
  | _ => exact .inl hc

theorem PesStep.spbProposes (h : PesStep cfg s t) {key : ℕ × ℕ}
    (hc : s.spbProposes.contains key = true) :
    t.spbProposes.contains key = true ∨ ∃ k, key.1 ≤ k ∧ Cleans s t k := by
  cases h with
  | @terminate k _ _ =>
    by_cases hk : key.1 ≤ k
    · exact .inr ⟨k, hk, _, List.mem_cons_self⟩
    · exact .inl (contains_clean hk hc)
  | propose _ _ _ _ =>
    refine .inl ?_
    unfold Core.propose Map.contains
    rw [Map.get_insert]
    split
    · rfl
    · exact hc
  | countFallback _ => exact .inl (collect_spbProposes (s := s) _ _ ▸ hc)
  | countSpb _ => exact .inl (collect_spbProposes (s := s) _ _ ▸ hc)
  | countPre _ _ => exact .inl (collect_spbProposes (s := s) _ _ ▸ hc)
  | _ => exact .inl hc

theorem Step.spbProposes (h : Step cfg s t) {key : ℕ × ℕ} (hc : s.spbProposes.contains key = true) :
    t.spbProposes.contains key = true ∨ ∃ k, key.1 ≤ k ∧ Cleans s t k := by
  cases h with
  | opt h => exact h.spbProposes hc
  | pes _ h => exact h.spbProposes hc

theorem Holds.step (hs : s.Holds) (h : Step cfg s t) : t.Holds := by
  intro v hv
  have he := h.extends
  have hrecord : (s.epoch, Event.propose v) ∈ t.trace := by
    rw [← he.epoch]
    exact hv
  rcases h.recorded hrecord with hold | ⟨-, hr⟩
  · rcases hs v hold with hc | ⟨k, r, site, hk, hd⟩
    · rcases h.spbProposes hc with hc | ⟨k, hk, site, hd⟩
      · exact .inl hc
      · refine .inr ⟨k, t.height, site, hk, ?_⟩
        unfold Did
        rw [he.epoch]
        exact hd
    · exact .inr ⟨k, r, site, hk, he.did hd⟩
  · cases hr with
    | opt h => exact h.elim
    | pes _ h => exact h.elim
    | propose _ _ _ _ _ ht =>
      rw [ht]
      simp [Core.propose, Map.contains]

theorem Reachable.holds (h : Reachable cfg s alive) : s.Holds := by
  refine ((h.invariant (P := fun s => s.Timely ∧ s.Holds) (C := fun _ => True)
    (fun _ _ _ h => h) ⟨.new, ?_⟩ ?_ ?_).2 trivial).2
  · exact fun v hv => (not_own_of_new hv trivial).elim
  · rintro s m ⟨ht, hs⟩ -
    refine ⟨ht.take m, ?_⟩
    intro v hv
    rcases hs v (mem_take hv trivial) with hc | ⟨k, r, site, hk, hd⟩
    · exact .inl hc
    · exact .inr ⟨k, r, site, hk, (extends_log _).did hd⟩
  · rintro s t - ⟨hs, hh⟩ - ht
    cases ht with
    | step ht => exact ⟨hs.step ht, hh.step ht⟩
    | epoch _ ht =>
      subst ht
      refine ⟨hs.renewed, ?_⟩
      exact fun v hv => (hs.not_renewed_did hv trivial).elim

/-! ### Votes for proposals -/

/-- `x` is the node's vote for a value on its record. -/
def Supports (cfg : Config) (s : Core) (x : SPBVote) : Prop :=
  ∃ y ∈ s.trace, ∃ v ∈ y.2.values, x = SPBVote.new v cfg.name

/-- A vote goes to the proposer of its value, and a proof has a last vote. -/
def Cast (cfg : Config) (s : Core) : ℕ × Event → Prop
  | (_, .send (.SPBVote x) dest _) => dest = some x.proposer ∧ s.Supports cfg x
  | (_, .keep (.SPBVote x)) => x.proposer = cfg.name ∧ s.Supports cfg x
  | (e, .proved p) =>
    ∃ x, s.Heard e (.SPBVote x) ∧ e ≤ x.epoch ∧ x.height = p.height ∧ x.round = p.round
  | (e, .propose v) => v.block.author = cfg.name ∧ v.block.epoch = e
  | _ => True

theorem Supports.mono {x : SPBVote} (h : s.Supports cfg x) (ht : s.trace ⊆ t.trace) :
    t.Supports cfg x := by
  obtain ⟨y, hy, hv⟩ := h
  exact ⟨y, ht hy, hv⟩

theorem Cast.mono {y : ℕ × Event} (h : s.Cast cfg y) (ht : s.trace ⊆ t.trace) : t.Cast cfg y := by
  unfold Cast at *
  split at h
  · exact ⟨h.1, h.2.mono ht⟩
  · exact ⟨h.1, h.2.mono ht⟩
  · obtain ⟨x, hx, hrest⟩ := h
    exact ⟨x, hx.mono ht, hrest⟩
  · exact h
  · trivial

theorem SpbSource.supports {v : SPBValue} {p : SPBProof} (h : s.SpbSource cfg v p) :
    s.Supports cfg (SPBVote.new v cfg.name) := by
  cases h with
  | own h => exact ⟨_, h, v, List.mem_singleton.mpr rfl, rfl⟩
  | peer h _ _ => exact ⟨_, h, v, List.mem_singleton.mpr rfl, rfl⟩

theorem Issues.supports {x : SPBVote} (h : s.Issues cfg (.SPBVote x)) : s.Supports cfg x := by
  obtain ⟨-, v, p, hsource, rfl, -⟩ := h
  exact hsource.supports

theorem PesLog.cast {y : Event} (h : s.PesLog cfg y) : s.Cast cfg (s.epoch, y) := by
  unfold PesLog at h
  split at h
  case h_8 m dest tag =>
    cases m with
    | SPBVote x => exact ⟨h.2.2, h.1.supports⟩
    | _ => trivial
  case h_9 m =>
    cases m with
    | SPBVote x => exact ⟨Option.some.inj h.2, h.1.supports⟩
    | _ => trivial
  all_goals trivial

theorem OptLog.cast {y : Event} (h : s.OptLog cfg y) : s.Cast cfg (s.epoch, y) := by
  unfold OptLog at h
  split at h <;> trivial

theorem Records.cast {y : Event} (h : Records cfg s t y) : s.Cast cfg (s.epoch, y) := by
  cases h with
  | opt h => exact h.cast
  | pes _ h => exact h.cast
  | @proved x p _ h hadd _ =>
    obtain ⟨-, rfl, -⟩ := ProofMaker.append_some hadd
    exact ⟨x, h.hears, h.fresh.1, rfl, rfl⟩
  | propose _ _ _ hn he _ => exact ⟨hn, he⟩
  | _ => trivial

theorem Reachable.cast (h : Reachable cfg s alive) : ∀ y ∈ s.trace, s.Cast cfg y := by
  refine h.caused (fun ht hy => hy.mono ht) (fun _ hr => hr.cast) ?_
  intro u e y hy
  cases y <;> first | trivial | exact absurd trivial hy

end Core

/-! ### All nodes -/

/-- Another node has sent `m` to `i`. -/
def Sent (σ : Cores) (i : PublicKey) (m : ConsensusMessage) : Prop :=
  ∃ j e dest tag, (e, .send m dest tag) ∈ (σ j).trace ∧ (dest = none ∨ dest = some i)

/-- The messages that a node may also have from its own tasks, and the requests. -/
def ConsensusMessage.Internal : ConsensusMessage → Prop
  | .HsPropose _ | .HsLoopBack _ | .FBLoopBack _ | .ParLoopBack _ | .SyncRequest _ _ => True
  | _ => False

/-- An entry about a message that comes from another node. -/
def Delivered (σ : Cores) (i : PublicKey) : Event → Prop
  | .receive m | .requeue m => m.Internal ∨ Sent σ i m
  | _ => True

variable {S : Setup} {w : World} {σ τ : Cores} {i : PublicKey}

theorem Sent.later {m : ConsensusMessage} (h : Sent σ i m) (hl : Later σ τ) : Sent τ i m := by
  obtain ⟨j, e, dest, tag, hm, hd⟩ := h
  exact ⟨j, e, dest, tag, (hl j).subset hm, hd⟩

theorem Delivered.later {y : Event} (h : Delivered σ i y) (hl : Later σ τ) : Delivered τ i y := by
  cases y with
  | receive m => exact h.imp_right fun h => h.later hl
  | requeue m => exact h.imp_right fun h => h.later hl
  | _ => trivial

theorem Arrives.delivered {m : ConsensusMessage} {input : Input}
    (hs : ∀ x ∈ (σ i).trace, Delivered σ i x.2) (hm : input = .core m ∨ input = .smvba m)
    (ha : Arrives (fun _ => False) σ i input) : m.Internal ∨ Sent σ i m := by
  have hmsg : ∀ m', (input = .core m' ∨ input = .smvba m') → m' = m := by
    rintro m' (rfl | rfl) <;> rcases hm with hm | hm <;> cases hm <;> rfl
  cases ha with
  | core _ h hd =>
    obtain rfl := hmsg _ (.inl rfl)
    exact .inr ⟨_, _, _, _, h, hd⟩
  | smvba _ h _ hd =>
    obtain rfl := hmsg _ (.inr rfl)
    exact .inr ⟨_, _, _, _, h, hd⟩
  | requeuedSmvba h _ =>
    obtain rfl := hmsg _ (.inr rfl)
    exact hs _ h
  | foreignCore h => exact h.elim
  | foreignSmvba h => exact h.elim
  | timer _ => rcases hm with hm | hm <;> cases hm
  | request _ _ =>
    obtain rfl := hmsg _ (.inl rfl)
    exact .inl trivial
  | payload _ =>
    obtain rfl := hmsg _ (.inl rfl)
    exact .inl trivial
  | parent _ _ =>
    obtain rfl := hmsg _ (.inl rfl)
    exact .inl trivial
  | fallbackPayload _ =>
    obtain rfl := hmsg _ (.inr rfl)
    exact .inl trivial
  | outputPayload _ =>
    obtain rfl := hmsg _ (.inr rfl)
    exact .inl trivial
  | requeued _ =>
    obtain rfl := hmsg _ (.inl rfl)
    exact .inl trivial

theorem inductive_delivered (S : Setup) :
    Inductive S (fun k => k ∈ S.committee.sortedNames) (fun _ _ => False) (fun _ _ _ => True)
      (fun _ => True) (fun σ => ∀ k, (σ k).Kept ∧ ∀ x ∈ (σ k).trace, Delivered σ k x.2) where
  earlier _ _ _ h := h
  start := by
    intro k
    refine ⟨.new, ?_⟩
    intro x hx
    cases List.mem_singleton.mp hx
    trivial
  take := by
    rintro σ i m _ hs _ ⟨input, hm, ha, -⟩ k
    have hl : Later σ (Function.update σ i ((σ i).log (.receive m))) :=
      later_update (List.suffix_cons _ _)
    by_cases hk : k = i
    · subst hk
      rw [Function.update_self]
      refine ⟨(hs k).1.take m, ?_⟩
      intro x hx
      rcases List.mem_cons.mp hx with rfl | hx
      · exact Delivered.later (y := .receive m) (ha.delivered (hs k).2 hm) hl
      · exact ((hs k).2 x hx).later hl
    · rw [Function.update_of_ne hk]
      exact ⟨(hs k).1, fun x hx => ((hs k).2 x hx).later hl⟩
  turn := by
    intro σ i t _ _ hs _ ht k
    have hl : Later σ (Function.update σ i t) := later_update ht.trace
    by_cases hk : k = i
    · subst hk
      rw [Function.update_self]
      cases ht with
      | step ht =>
        refine ⟨(hs k).1.step ht, ?_⟩
        rintro ⟨e, y⟩ hx
        rcases ht.recorded hx with hx | ⟨-, hr⟩
        · exact ((hs k).2 _ hx).later hl
        · cases y with
          | receive m => exact hr.not_receive.elim
          | requeue m => exact hr.not_requeue.elim
          | _ => trivial
      | epoch _ ht =>
        subst ht
        refine ⟨(hs k).1.renewed, ?_⟩
        intro x hx
        rcases Core.mem_renewed_trace hx with hx | rfl | ⟨m, rfl, hm, -⟩
        · exact ((hs k).2 _ hx).later hl
        · trivial
        · rcases (hs k).1.waiting _ hm with ⟨b, hb⟩ | ⟨e, hr⟩
          · simp only at hb
            rw [hb]
            exact .inl trivial
          · exact Delivered.later (y := .receive m) ((hs k).2 _ hr) hl
    · rw [Function.update_of_ne hk]
      exact ⟨(hs k).1, fun x hx => ((hs k).2 x hx).later hl⟩

/-- The proposer of the value has made it in the epoch that the value names. -/
def ProposedIn (σ : Cores) (v : SPBValue) : Prop :=
  ∃ u, (v.block.epoch, .propose u) ∈ (σ v.block.author).trace ∧ u.block = v.block ∧
    u.round = v.round

theorem stocked_proposedIn (h : S.Runs w) (k : PublicKey) :
    (w.core k).Stocked (ProposedIn w.core) := by
  refine ((h.invariant (inductive_stocked S fun v n hv => hv)).2 ?_ k).2
  intro k e v hv
  obtain ⟨ha, he⟩ := (h.reachable k).cast _ hv
  refine ⟨v, ?_, rfl, rfl⟩
  rw [ha, he]
  exact hv

/-- A vote that a node counts is for it, and some node has cast it. -/
theorem heard_vote (h : S.Runs w) {e : ℕ} {x : SPBVote} (hx : (w.core i).Heard e (.SPBVote x)) :
    x.proposer = i ∧ ∃ k, (w.core k).Supports (S.config k) x := by
  have hcast := fun k => (h.reachable k).cast
  rcases hx with hx | ⟨tag, hx⟩ | hx
  · have hdel := ((h.invariant (inductive_delivered S)).2 trivial i).2 _ hx
    rcases hdel with hint | ⟨j, e', dest, tag, hsend, hd⟩
    · exact hint.elim
    · obtain ⟨hdest, hsup⟩ := hcast j _ hsend
      refine ⟨?_, j, hsup⟩
      rcases hd with rfl | rfl
      · cases hdest
      · exact (Option.some.inj hdest).symm
  · cases (hcast i _ hx).1
  · exact ⟨(hcast i _ hx).1, i, (hcast i _ hx).2⟩

/-- Whenever a node assembles a proof, it has made the proposal in this epoch. -/
theorem proved_proposed (h : S.Runs w) {p : SPBProof} (hp : (w.core i).Did (.proved p)) :
    ∃ u, (w.core i).Did (.propose u) ∧ u.block.height = p.height ∧ u.round = p.round := by
  obtain ⟨x, hx, he, hh, hr⟩ := (h.reachable i).cast _ hp
  obtain ⟨hi, k, y, hy, v, hv, rfl⟩ := heard_vote h hx
  obtain ⟨u, hu, hblock, hround⟩ := stocked_proposedIn h k y hy v hv
  have hauthor : v.block.author = i := hi
  rw [hauthor] at hu
  have hle : v.block.epoch ≤ (w.core i).epoch := (h.reachable i).timely _ hu
  have hge : (w.core i).epoch ≤ v.block.epoch := he
  refine ⟨u, ?_, by rw [hblock]; exact hh, hround.trans hr⟩
  rwa [Nat.le_antisymm hle hge] at hu

/-- If a node only terminates heights that are two below its own, its proposals are there for the
proofs that it assembles. -/
theorem proposal_held {fuel : ℕ} {input : Input} (h : S.Runs w) (hi : i ∈ S.committee.sortedNames)
    (hm : MayTake (fun _ _ => False) w i input)
    (hc : ∀ e k r site, (e, .terminate k r site) ∈ (Core.react (S.config i) fuel input
      (w.core i)).2.trace → k + 2 ≤ r) :
    (Core.react (S.config i) fuel input (w.core i)).1 ≠ .panic .noProposal := by
  intro hp
  have hne : (Core.react (S.config i) fuel input (w.core i)).1 ≠ .exhausted := by simp [hp]
  obtain ⟨w', hw, hcore⟩ := Run.turn h hi hm hne
  have hstops := Core.react_stops (h.reachable i).storeOk hp
  rw [← hcore] at hc hstops
  rcases hstops with hst | ⟨hst, -⟩ | ⟨hst, -⟩
  · cases hst with
    | proposal hd hf hn =>
      obtain ⟨u, hu, hheight, hround⟩ := proved_proposed hw hd
      rcases (hw.reachable i).holds u hu with hheld | ⟨k, r, site, hk, hterm⟩
      · rw [hheight, hround] at hheld
        unfold Map.contains at hheld
        rw [hn] at hheld
        cases hheld
      · have hlow := hc _ k r site hterm
        have hreached := (hw.reachable i).staysTerminated.reached k r site hterm
        omega
  · cases hst
  · cases hst

end Proposals

/-! ### A proposal that is cleared too early -/

/-- Node `0` makes a `PES` proposal for the first height, and the others vote for it. -/
def toFirstProposal : List Act :=
  [.boot 0, .boot 1, .boot 2, .boot 3, .deliver 0 1 0, .deliver 1 0 0, .deliver 3 0 0,
    .deliver 2 1 0, .deliver 3 1 0, .deliver 0 1 1, .deliver 1 0 3, .deliver 3 1 1, .deliver 0 1 4,
    .deliver 0 3 0, .deliver 0 3 1, .deliver 3 0 5, .deliver 1 3 1, .deliver 3 1 5, .deliver 1 3 3,
    .deliver 0 1 6, .deliver 0 3 4, .deliver 1 0 6, .deliver 2 0 6, .deliver 3 0 6]

/-- The others make three blocks, and their prepares of the second height reach node `0` before
the second block does. -/
def toEarlyPrepares : List Act :=
  [.deliver 2 1 2, .deliver 3 1 3, .deliver 3 2 1, .deliver 2 3 2, .deliver 1 2 3, .deliver 3 1 9,
    .deliver 3 2 3, .deliver 3 2 7, .deliver 1 3 8, .deliver 0 1 11, .deliver 2 3 8, .deliver 0 2 9,
    .deliver 0 3 9]

theorem proposal_held_for_firstProof : ∃ w input, sampleSetup.Runs w ∧
    MayTake (fun _ _ => False) w 0 input ∧
    (∃ x ∈ (Core.react (sampleSetup.config 0) 40 input (w.core 0)).2.trace, ∃ p ∈ provedProof x.2,
      p.height = 1) ∧
    (Core.react (sampleSetup.config 0) 40 input (w.core 0)).1 ≠ .panic .noProposal := by
  obtain ⟨w, input, hr, hm, hproved, hc⟩ := exists_turn sampleSetup
    (toFirstProposal ++ [.deliver 0 1 7]) (.deliver 0 2 2)
    (fun r => (∃ x ∈ r.2.trace, ∃ p ∈ provedProof x.2, p.height = 1) ∧
      ∀ x ∈ r.2.trace, ∀ q ∈ termination x.2, q.1 + 2 ≤ q.2)
    (by decide +kernel) (by decide +kernel)
  refine ⟨w, input, hr, hm, hproved, proposal_held hr (by decide) hm ?_⟩
  exact fun e k r site hk => hc _ hk (k, r) rfl

theorem not_proposal_held_after_early_prepares :
    ¬ ∀ (S : Setup) (w : World) (i : PublicKey) (fuel : ℕ) (input : Input), S.parameters.exp = 1 →
      S.Runs w → i ∈ S.committee.sortedNames → MayTake (fun _ _ => False) w i input →
      (Core.react (S.config i) fuel input (w.core i)).1 ≠ .panic .noProposal := by
  intro h
  obtain ⟨w, input, hr, hm, hp⟩ := exists_turn sampleSetup
    (toFirstProposal ++ toEarlyPrepares ++ [.deliver 0 1 7, .deliver 0 2 2]) (.deliver 0 3 5)
    (fun r => r.1 = .panic .noProposal)
    (by decide +kernel) (by decide +kernel)
  exact h _ w 0 40 input rfl hr (by decide) hm hp

end Ipotane
