import Ipotane.Members
import Ipotane.Tallies

/-! The votes that the makers of a node have been given, and what the node has assembled of them. -/
namespace Ipotane

open Lib Handler

section Polls

variable [Crypto] {c : Committee}

/-! ### Makers -/

/-- A certificate of checked votes that sign one digest is valid. -/
theorem QC.TallyOf.verifies {q : QC} {P : HVote → Prop} (h : q.TallyOf c P)
    (hv : ∀ u, P u → u.verify c = .ok ()) (hd : ∀ u v, P u → P v → u.digest = v.digest) :
    q.verify c = .ok () := by
  obtain ⟨l, v, hall, hc, rfl⟩ := h
  have hlast : P v := hall v (List.mem_append_right _ (List.mem_singleton_self v))
  have hgroup : ∀ u ∈ l, P u := fun u hu => hall u (List.mem_append_left _ hu)
  refine QC.assembled_ok (fun u hu => hv u (hgroup u hu)) (hv v hlast) hc ?_
  exact fun u hu => hd u v (hgroup u (mem_of_mem_counted hu)) hlast

/-- What the maker of a key assembles, if it has been given votes in `P`. -/
theorem QC.tallyOf_folds {K : Type} {key : HVote → K} {P : HVote → Prop}
    {t : Map K QCMaker} {v : HVote}
    {q : QC} (h : Map.Folds key (fun m v => (QCMaker.append m v c).2) .new P t) (hv : P v)
    (hq : (QCMaker.append (t.getD (key v) .new) v c).1 = .ok (some q)) :
    q.TallyOf c fun u => key u = key v ∧ P u := by
  obtain ⟨l, hl, hall⟩ := h (key v)
  rw [hl] at hq
  obtain ⟨hc, hq⟩ := QCMaker.append_foldl.mp hq
  refine ⟨l, v, ?_, hc, hq⟩
  intro u hu
  rcases List.mem_append.mp hu with hu | hu
  · exact hall u hu
  · rw [List.mem_singleton.mp hu]
    exact ⟨rfl, hv⟩

theorem SPBProof.verify_folds {K : Type} {key : SPBVote → K} {t : Map K ProofMaker} {x : SPBVote}
    {p : SPBProof}
    (h : Map.Folds key (fun m x => (ProofMaker.append m x c).2) .new
      (fun x => x.verify c = .ok ()) t)
    (hx : x.verify c = .ok ())
    (hp : (ProofMaker.append (t.getD (key x) .new) x c).1 = .ok (some p)) :
    p.verify c = .ok () := by
  obtain ⟨l, hl, hall⟩ := h (key x)
  rw [hl] at hp
  obtain ⟨hc, rfl⟩ := ProofMaker.append_foldl.mp hp
  have hshares : ∀ u ∈ counted SPBVote.author l ++ [x], u.verify c = .ok () := by
    intro u hu
    rcases List.mem_append.mp hu with hu | hu
    · exact (hall u (mem_of_mem_counted hu)).2
    · rw [List.mem_singleton.mp hu]
      exact hx
  unfold SPBProof.verify
  split
  · rfl
  · refine check_bind.mpr ⟨_, SPBProof.tally_ok.mpr ⟨?_, rfl⟩, ?_⟩
    · exact fun u hu => SPBVote.stake_pos (hshares u hu)
    · rw [check_seq, ensure_ok, SPBProof.verifyShares_ok, Nat.zero_add]
      refine ⟨?_, hshares⟩
      have hle := hc.threshold_le
      rwa [List.map_map] at hle

/-! ### The votes of a node -/

namespace Core

variable {cfg : Config} {s t : Core}

/-- The votes that the makers of the aggregator have been given. -/
structure Polls (cfg : Config) (s : Core) : Prop where
  hs : Map.Folds (fun v : HVote => (v.height, v.hash))
    (fun m v => (QCMaker.append m v cfg.committee).2) .new
    (fun v => s.Hears (.HSVote v) ∧ s.epoch ≤ v.epoch ∧ v.verify cfg.committee = .ok ())
    s.aggregator.hsVotes
  fallback : Map.Folds (fun v : HVote => (v.height, v.round))
    (fun m v => (QCMaker.append m v cfg.committee).2) .new
    (fun v => s.Hears (.FBVote v) ∧ s.epoch ≤ v.epoch ∧ v.verify cfg.committee = .ok ())
    s.aggregator.fallbackVotes
  spb : Map.Folds (fun x : SPBVote => (x.height, x.round, x.phase))
    (fun m x => (ProofMaker.append m x cfg.committee).2) .new
      (fun x => x.verify cfg.committee = .ok ())
    s.aggregator.spbVotes
  pre : Map.Folds (fun x : SPBVote => (x.height, x.round))
    (fun m x => (ProofMaker.append m x cfg.committee).2) .new
      (fun x => x.verify cfg.committee = .ok ())
    s.aggregator.preVotes

/-- What is assembled comes of checked votes for one key that the node has heard in one epoch. -/
def Tallied (cfg : Config) (s : Core) : ℕ × Event → Prop
  | (e, .assembled q) => q.TallyOf cfg.committee fun v => (v.height, v.hash) = (q.height, q.hash) ∧
      s.Heard e (.HSVote v) ∧ e ≤ v.epoch ∧ v.verify cfg.committee = .ok ()
  | (e, .assembledFallback q) => q.TallyOf cfg.committee fun v =>
      (v.height, v.round) = (q.height, q.round) ∧
        s.Heard e (.FBVote v) ∧ e ≤ v.epoch ∧ v.verify cfg.committee = .ok ()
  | (_, .proved p) | (_, .finProved p) => p.verify cfg.committee = .ok ()
  | (_, .count m) => m.verify cfg.committee cfg.parameters.fallbackLength = .ok ()
  | _ => True

theorem Tallied.mono {x : ℕ × Event} (h : Tallied cfg s x) (ht : s.trace ⊆ t.trace) :
    Tallied cfg t x := by
  unfold Tallied at *
  split at h
  · exact h.mono fun _ hv => ⟨hv.1, hv.2.1.mono ht, hv.2.2⟩
  · exact h.mono fun _ hv => ⟨hv.1, hv.2.1.mono ht, hv.2.2⟩
  · exact h
  · exact h
  · exact h
  · trivial

/-- The votes of `s` and of what the aggregator has taken since. -/
theorem Polls.of_tables {a : Aggregator}
    (h : Polls cfg { s with aggregator := a }) (he : Extends s t)
    (ha : t.aggregator = a) : Polls cfg t where
  hs := by
    rw [ha, he.epoch]
    exact h.hs.mono fun _ hv => ⟨he.hears hv.1, hv.2⟩
  fallback := by
    rw [ha, he.epoch]
    exact h.fallback.mono fun _ hv => ⟨he.hears hv.1, hv.2⟩
  spb := ha ▸ h.spb
  pre := ha ▸ h.pre

theorem Polls.of_aggregator (h : Polls cfg s) (he : Extends s t)
    (ha : t.aggregator = s.aggregator) : Polls cfg t :=
  Polls.of_tables (a := s.aggregator) h he ha

theorem Polls.clean (h : Polls cfg s) (height reached : ℕ) (site : Termination) :
    Polls cfg (s.cleanSmvbaState height reached site) where
  hs := h.hs.mono fun _ hv => ⟨(extends_log _).hears hv.1, hv.2⟩
  fallback := h.fallback.mono fun _ hv => ⟨(extends_log _).hears hv.1, hv.2⟩
  spb := h.spb.retain _
  pre := h.pre.retain _

theorem Polls.cleanFor (h : Polls cfg s) (b : Block) : Polls cfg (s.cleanFor cfg b) := by
  unfold Core.cleanFor
  split
  · exact h.clean _ _ _
  · exact h

theorem Polls.adopt (h : Polls cfg s) (qc : QC) : Polls cfg (s.adopt qc) := by
  have hhigh : ∀ {u : Core}, Polls cfg u → Polls cfg (u.updateHighQc qc) := by
    intro u hu
    unfold updateHighQc
    split
    · exact ⟨hu.hs, hu.fallback, hu.spb, hu.pre⟩
    · exact hu
  unfold Core.adopt
  split
  · exact hhigh h
  · refine hhigh ?_
    refine ⟨?_, h.fallback.mono fun _ hv => ⟨(extends_log _).hears hv.1, hv.2⟩, h.spb, h.pre⟩
    exact (h.hs.retain _).mono fun _ hv => ⟨(extends_log _).hears hv.1, hv.2⟩

theorem OptStep.polls (h : OptStep cfg s t) (hs : Polls cfg s) : Polls cfg t := by
  have he := h.extends
  cases h with
  | quiet h => exact hs.of_aggregator he h.aggregator
  | proposal _ _ => exact (hs.cleanFor _).adopt _
  | overflow _ _ => exact hs.cleanFor _
  | adopt _ _ _ _ _ => exact hs.adopt _
  | countVote hh hv hle _ _ =>
    refine Polls.of_tables ?_ he (collect_aggregator _ _)
    exact ⟨hs.hs.feed ⟨hh, hle, hv⟩, hs.fallback, hs.spb, hs.pre⟩
  | settle _ _ _ _ _ _ =>
    refine hs.of_aggregator he ?_
    unfold Core.settle
    split <;> rfl
  | _ => exact hs.of_aggregator he rfl

theorem PesStep.polls (h : PesStep cfg s t) (hexp : cfg.parameters.exp = 1) (hs : Polls cfg s)
    (hc : ∀ x ∈ s.trace, Tallied cfg s x) : Polls cfg t := by
  have he := h.extends
  cases h with
  | terminate _ => exact hs.clean _ _ _
  | countFallback h =>
    refine Polls.of_tables ?_ he (collect_aggregator _ _)
    exact ⟨hs.hs, hs.fallback.feed ⟨h.hears, h.fresh.1, h.checked hexp⟩, hs.spb, hs.pre⟩
  | countSpb h =>
    refine Polls.of_tables ?_ he (collect_aggregator _ _)
    exact ⟨hs.hs, hs.fallback, hs.spb.feed (h.checked hexp), hs.pre⟩
  | countPre h ht =>
    refine Polls.of_tables ?_ he (collect_aggregator _ _)
    exact ⟨hs.hs, hs.fallback, hs.spb, hs.pre.feed (MVote.vote_verify (hc _ h) ht)⟩
  | countShare _ _ _ _ => exact ⟨hs.hs, hs.fallback, hs.spb, hs.pre⟩
  | _ => exact hs.of_aggregator he rfl

theorem Step.polls (h : Step cfg s t) (hexp : cfg.parameters.exp = 1) (hs : Polls cfg s)
    (hc : ∀ x ∈ s.trace, Tallied cfg s x) : Polls cfg t := by
  cases h with
  | opt h => exact h.polls hs
  | pes _ h => exact h.polls hexp hs hc

theorem Records.tallied {y : Event} (h : Records cfg s t y) (hexp : cfg.parameters.exp = 1)
    (hs : Polls cfg s) (hc : ∀ x ∈ s.trace, Tallied cfg s x) : Tallied cfg s (s.epoch, y) := by
  cases h with
  | opt h =>
    unfold OptLog at h
    split at h
    all_goals trivial
  | pes _ h =>
    unfold PesLog at h
    split at h
    all_goals trivial
  | assembled hh hv he _ _ hadd _ =>
    have htally := QC.tallyOf_folds hs.hs ⟨hh, he, hv⟩ hadd
    rw [(QCMaker.append_some hadd).2.1] at htally ⊢
    exact htally
  | assembledFallback _ h hadd _ =>
    have htally := QC.tallyOf_folds hs.fallback ⟨h.hears, h.fresh.1, h.checked hexp⟩ hadd
    rw [(QCMaker.append_some hadd).2.1] at htally ⊢
    exact htally
  | proved _ h hadd _ => exact SPBProof.verify_folds hs.spb (h.checked hexp) hadd
  | finProved _ h ht hadd _ =>
    exact SPBProof.verify_folds hs.pre (MVote.vote_verify (hc _ h) ht) hadd
  | count _ h _ => exact h.checked hexp
  | _ => trivial

theorem Polls.new : Polls cfg .new :=
  ⟨Map.folds_empty, Map.folds_empty, Map.folds_empty, Map.folds_empty⟩

/-- A new epoch begins with no vote. -/
theorem Polls.renewed : Polls cfg s.renewed := by
  obtain ⟨marks, rest, heq, -, -⟩ := renewed_eq s
  rw [heq]
  exact ⟨Map.folds_empty, Map.folds_empty, Map.folds_empty, Map.folds_empty⟩

theorem Reachable.tallied {alive : Bool} (hexp : cfg.parameters.exp = 1)
    (h : Reachable cfg s alive) : ∀ x ∈ s.trace, Tallied cfg s x := by
  have hother : ∀ {u : Core} {e : ℕ} {y : Event}, ¬ y.Own → Tallied cfg u (e, y) := by
    intro u e y hy
    cases y with
    | receive _ => trivial
    | requeue _ => trivial
    | reset _ _ => trivial
    | _ => exact absurd trivial hy
  refine ((h.invariant (P := fun s => Polls cfg s ∧ ∀ x ∈ s.trace, Tallied cfg s x)
    (C := fun _ => True)
    (fun _ _ _ h => h) ⟨.new, ?_⟩ ?_ ?_).2 trivial).2
  · exact fun x hx => hother (not_own_of_new hx)
  · rintro s m ⟨hs, hc⟩ -
    refine ⟨hs.of_aggregator (extends_log _) rfl, ?_⟩
    intro x hx
    rcases List.mem_cons.mp hx with rfl | hx
    · trivial
    · exact (hc x hx).mono (List.subset_cons_self _ _)
  · rintro s t - ⟨hs, hc⟩ - ht
    have htr := ht.trace.subset
    cases ht with
    | step ht =>
      refine ⟨ht.polls hexp hs hc, ?_⟩
      rintro ⟨e, y⟩ hx
      rcases ht.recorded hx with hx | ⟨he, hr⟩
      · exact (hc _ hx).mono htr
      · simp only at he
        subst he
        exact (hr.tallied hexp hs hc).mono htr
    | epoch _ ht =>
      subst ht
      refine ⟨.renewed, ?_⟩
      intro x hx
      rcases mem_renewed_trace hx with hx | rfl | ⟨m, rfl, -, -⟩
      · exact (hc x hx).mono htr
      · trivial
      · trivial

/-- The votes of one key that count in one epoch sign the same digest. -/
structure Concordant (s : Core) : Prop where
  optimistic : ∀ e u v, s.Heard e (.HSVote u) → s.Heard e (.HSVote v) → e ≤ u.epoch → e ≤ v.epoch →
    (u.height, u.hash) = (v.height, v.hash) → u.digest = v.digest
  fallback : ∀ e u v, s.Heard e (.FBVote u) → s.Heard e (.FBVote v) → e ≤ u.epoch → e ≤ v.epoch →
    (u.height, u.round) = (v.height, v.round) → u.digest = v.digest

/-- Then the certificates that the node assembles are valid. -/
theorem Reachable.certificates_verify {alive : Bool} (hexp : cfg.parameters.exp = 1)
    (h : Reachable cfg s alive) (hc : s.Concordant) {e : ℕ} {q : QC}
    (hq : (e, .assembled q) ∈ s.trace ∨ (e, .assembledFallback q) ∈ s.trace) :
    q.verify cfg.committee = .ok () := by
  rcases hq with hq | hq
  · refine (h.tallied hexp _ hq).verifies (fun _ hu => hu.2.2.2) ?_
    intro u v hu hv
    exact hc.optimistic e u v hu.2.1 hv.2.1 hu.2.2.1 hv.2.2.1 (hu.1.trans hv.1.symm)
  · refine (h.tallied hexp _ hq).verifies (fun _ hu => hu.2.2.2) ?_
    intro u v hu hv
    exact hc.fallback e u v hu.2.1 hv.2.1 hu.2.2.1 hv.2.2.1 (hu.1.trans hv.1.symm)

end Core

end Polls

end Ipotane
