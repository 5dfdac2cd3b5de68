import Ipotane.Assembly
import Ipotane.Core.Tables

/-! The certificates of a fallback chain on the record of a node, and the votes that they are
made of. -/
namespace Ipotane

open Lib Handler

section Tallies

variable [Crypto] {c : Committee}

/-- The certificate is that of a quorum of votes in `P`. -/
def QC.TallyOf (q : QC) (c : Committee) (P : HVote → Prop) : Prop :=
  ∃ (l : List HVote) (v : HVote), (∀ u ∈ l ++ [v], P u) ∧
    Completes HVote.author c.stake c.quorumThreshold l v ∧
    q = QCMaker.assemble ((counted HVote.author l ++ [v]).map fun v => (v.author, v.signature)) v

theorem QC.TallyOf.mono {q : QC} {P Q : HVote → Prop} (h : q.TallyOf c P) (hp : ∀ u, P u → Q u) :
    q.TallyOf c Q := by
  obtain ⟨l, v, hall, hc, hq⟩ := h
  exact ⟨l, v, fun u hu => hp u (hall u hu), hc, hq⟩

/-- A quorum that outweighs half of the committee is not there twice. -/
theorem fallbackCertificates_once (hn : c.total % 3 = 1) (l : List HVote) :
    (certificates (fun m v => QCMaker.append m v c) .new l).length ≤ 1 := by
  refine ((certificates_once c).1 l).mpr (not_twoQuorums ?_)
  have := Committee.total_lt_two_quorums hn
  omega

namespace Core

variable {cfg : Config} {s t : Core} {e height round : ℕ}

def completed (e height round : ℕ) : ℕ × Event → Option QC
  | (e', .assembledFallback q) => if e' = e ∧ q.height = height ∧ q.round = round
      then some q else none
  | _ => none

/-- The certificates of a fallback round that have been completed in an epoch, the newest first. -/
def certified (s : Core) (e height round : ℕ) : List QC :=
  s.trace.filterMap (completed e height round)

theorem completed_eq {x : ℕ × Event} {q : QC} (h : completed e height round x = some q) :
    x = (e, .assembledFallback q) ∧ q.height = height ∧ q.round = round := by
  unfold completed at h
  split at h
  · split at h
    · rename_i hkey
      cases h
      exact ⟨by rw [← hkey.1], hkey.2⟩
    · cases h
  · cases h

theorem mem_certified {q : QC} :
    q ∈ s.certified e height round ↔
      (e, .assembledFallback q) ∈ s.trace ∧ q.height = height ∧ q.round = round := by
  constructor
  · intro h
    obtain ⟨x, hx, hq⟩ := List.mem_filterMap.mp h
    obtain ⟨rfl, hkey⟩ := completed_eq hq
    exact ⟨hx, hkey⟩
  · rintro ⟨hx, hh, hr⟩
    refine List.mem_filterMap.mpr ⟨_, hx, ?_⟩
    exact if_pos ⟨rfl, hh, hr⟩

theorem certified_append {new : List (ℕ × Event)} (h : t.trace = new ++ s.trace) :
    t.certified e height round = new.filterMap (completed e height round) ++
    s.certified e height round := by
  unfold certified
  rw [h, List.filterMap_append]

/-- Where nothing is completed, the certificates stay the same. -/
theorem certified_of_none {new : List (ℕ × Event)} (h : t.trace = new ++ s.trace)
    (hnew : ∀ q, (e, .assembledFallback q) ∉ new) :
    t.certified e height round = s.certified e height round := by
  rw [certified_append h, List.filterMap_eq_nil_iff.mpr, List.nil_append]
  intro x hx
  by_contra hne
  obtain ⟨q, hq⟩ := Option.ne_none_iff_exists'.mp hne
  obtain ⟨rfl, -⟩ := completed_eq hq
  exact hnew q hx

/-! ### One vote -/

theorem collect_trace {α : Type} (add : Aggregator → Appended α Aggregator) (mark : α → Event) :
    (collect add mark s).2.trace = (issued (add s.aggregator).1).map
    (fun a => (s.epoch, mark a)) ++ s.trace := by
  unfold collect issued
  split <;> rename_i h <;> simp [h]

/-- What has been counted for a fallback round: votes that were heard in the epoch, and the
certificates that they have made. -/
structure Poll (c : Committee) (s : Core) (height round : ℕ) (l : List HVote) : Prop where
  maker : s.aggregator.fallbackVotes.getD (height, round) .new =
    l.foldl (fun m v => (m.append v c).2) .new
  heard : ∀ v ∈ l, v.height = height ∧ v.round = round ∧ s.Hears (.FBVote v) ∧ s.epoch ≤ v.epoch
  made : (s.certified s.epoch height round).reverse =
    certificates (fun m v => QCMaker.append m v c) .new l

structure Polled (c : Committee) (s : Core) : Prop where
  timely : s.Timely
  polls : ∀ height round, ∃ l, s.Poll c height round l
  once : ∀ e height round, (s.certified e height round).length ≤ 1
  tallies : ∀ e q, (e, .assembledFallback q) ∈ s.trace → q.TallyOf c fun v =>
    s.Heard e (.FBVote v) ∧ e ≤ v.epoch ∧ v.height = q.height ∧ v.round = q.round

/-- A state that has counted no vote since `s`, and made no certificate. -/
structure Idles (s t : Core) : Prop where
  grows : Extends s t
  votes : t.aggregator.fallbackVotes = s.aggregator.fallbackVotes
  made : ∀ height round, t.certified s.epoch height round = s.certified s.epoch height round

theorem Poll.idle {l : List HVote} (h : s.Poll c height round l) (ht : Idles s t) :
    t.Poll c height round l := by
  refine ⟨ht.votes ▸ h.maker, ?_, ?_⟩
  · intro v hv
    obtain ⟨hh, hr, hheard, he⟩ := h.heard v hv
    exact ⟨hh, hr, ht.grows.hears hheard, by rwa [ht.grows.epoch]⟩
  · rw [ht.grows.epoch, ht.made]
    exact h.made

theorem adopt_fallbackVotes (s : Core) (qc : QC) :
    (s.adopt qc).aggregator.fallbackVotes = s.aggregator.fallbackVotes := by
  unfold adopt updateHighQc
  split <;> split <;> rfl

theorem cleanFor_fallbackVotes (s : Core) (cfg : Config) (b : Block) :
    (s.cleanFor cfg b).aggregator.fallbackVotes = s.aggregator.fallbackVotes := by
  unfold cleanFor
  split <;> rfl

theorem settle_fallbackVotes {b b1 b0 : Block} {marks : List (ℕ × Event)} :
    (s.settle b b1 b0 marks).aggregator.fallbackVotes = s.aggregator.fallbackVotes := by
  unfold settle
  split <;> rfl

/-- A step counts one vote of a fallback chain, or none. -/
theorem Step.fallbackVotes (h : Step cfg s t) :
    t.aggregator.fallbackVotes = s.aggregator.fallbackVotes ∨
      ∃ v, s.Taken cfg (.FBVote v) v.epoch v.height (v.verify cfg.committee) ∧
        t = (collect (fun a => a.addFallbackVote v cfg.committee) .assembledFallback s).2 := by
  cases h with
  | opt h =>
    refine .inl ?_
    cases h with
    | quiet h => rw [h.aggregator]
    | proposal _ _ => rw [adopt_fallbackVotes, cleanFor_fallbackVotes]
    | overflow _ _ => exact cleanFor_fallbackVotes s cfg _
    | adopt _ _ _ _ _ => exact adopt_fallbackVotes s _
    | countVote _ _ _ _ _ =>
      rw [collect_aggregator]
      rfl
    | settle _ _ _ _ _ _ => exact settle_fallbackVotes
    | _ => rfl
  | pes _ h =>
    cases h with
    | countFallback h => exact .inr ⟨_, h, rfl⟩
    | countSpb _ =>
      rw [collect_aggregator]
      exact .inl rfl
    | countPre _ _ =>
      rw [collect_aggregator]
      exact .inl rfl
    | _ => exact .inl rfl

theorem Records.assembledFallback_inv {q : QC} (h : Records cfg s t (.assembledFallback q)) :
    ∃ v, s.Taken cfg (.FBVote v) v.epoch v.height (v.verify cfg.committee) ∧
      t = (collect (fun a => a.addFallbackVote v cfg.committee) .assembledFallback s).2 := by
  cases h with
  | opt h => exact h.elim
  | pes _ h => exact h.elim
  | assembledFallback _ h _ ht => exact ⟨_, h, ht⟩

theorem Step.tallied (h : Step cfg s t) : Idles s t ∨
    ∃ v, s.Taken cfg (.FBVote v) v.epoch v.height (v.verify cfg.committee) ∧
      t = (collect (fun a => a.addFallbackVote v cfg.committee) .assembledFallback s).2 := by
  rcases h.fallbackVotes with hsame | hv
  · by_cases hmade : ∃ q, Records cfg s t (.assembledFallback q)
    · obtain ⟨q, hq⟩ := hmade
      exact .inr hq.assembledFallback_inv
    · obtain ⟨new, heq, hnew⟩ := h.grown
      refine .inl ⟨h.extends, hsame, fun height round => certified_of_none heq ?_⟩
      exact fun q hq => hmade ⟨q, (hnew _ hq).2⟩
  · exact .inr hv

/-- What a vote changes: the maker of its round, and the certificates of that round. -/
theorem Poll.count {l : List HVote} {v : HVote} (h : s.Poll c v.height v.round l)
    (hv : s.Hears (.FBVote v)) (he : s.epoch ≤ v.epoch)
    (ht : t = (collect (fun a => a.addFallbackVote v c) .assembledFallback s).2) :
    t.Poll c v.height v.round (l ++ [v]) := by
  have hext : Extends s t := by
    rw [ht]
    exact extends_collect _ _
  constructor
  · rw [ht, collect_aggregator, List.foldl_append, ← h.maker]
    change Map.getD (Map.insert _ _ _) _ _ = _
    rw [Map.getD_insert, if_pos rfl]
    rfl
  · intro u hu
    rw [hext.epoch]
    rcases List.mem_append.mp hu with hu | hu
    · obtain ⟨hh, hr, hheard, hle⟩ := h.heard u hu
      exact ⟨hh, hr, hext.hears hheard, hle⟩
    · rw [List.mem_singleton.mp hu]
      exact ⟨rfl, rfl, hext.hears hv, he⟩
  · -- what the maker issues has the round of the vote
    have htr : t.trace = _ := ht ▸ collect_trace _ _
    rw [hext.epoch, certified_append htr, List.reverse_append, h.made, certificates_snoc, ← h.maker]
    congr 1
    change _ = issued (s.aggregator.addFallbackVote v c).1
    cases hr : (s.aggregator.addFallbackVote v c).1 with
    | error x => rfl
    | ok o =>
      cases o with
      | none => rfl
      | some q =>
        have hq := (QCMaker.append_some hr).2.1
        have hkey : completed s.epoch v.height v.round
          (s.epoch, .assembledFallback q) = some q := by
          rw [hq]
          exact if_pos ⟨rfl, rfl, rfl⟩
        simp [issued, hkey]

theorem Poll.other {l : List HVote} {v : HVote} (h : s.Poll c height round l)
    (hk : (height, round) ≠ (v.height, v.round))
    (ht : t = (collect (fun a => a.addFallbackVote v c) .assembledFallback s).2) :
    t.Poll c height round l := by
  have hext : Extends s t := by
    rw [ht]
    exact extends_collect _ _
  constructor
  · rw [ht, collect_aggregator]
    change Map.getD (Map.insert _ _ _) _ _ = _
    rw [Map.getD_insert, if_neg hk]
    exact h.maker
  · intro u hu
    obtain ⟨hh, hr, hheard, hle⟩ := h.heard u hu
    exact ⟨hh, hr, hext.hears hheard, by rwa [hext.epoch]⟩
  · have htr : t.trace = _ := ht ▸ collect_trace _ _
    rw [hext.epoch, certified_append htr, List.filterMap_eq_nil_iff.mpr, List.nil_append]
    · exact h.made
    · intro x hx
      obtain ⟨q, hq, rfl⟩ := List.mem_map.mp hx
      refine if_neg fun hkey => hk ?_
      obtain ⟨-, hh, hr⟩ := hkey
      rw [← hh, ← hr, (QCMaker.append_some (of_mem_issued hq)).2.1]
      rfl

theorem Polled.step (hs : s.Polled cfg.committee) (hn : cfg.committee.total % 3 = 1)
    (h : Step cfg s t) : t.Polled cfg.committee := by
  have hext := h.extends
  have hpolls : ∀ height round, ∃ l, t.Poll cfg.committee height round l := by
    intro height round
    obtain ⟨l, hl⟩ := hs.polls height round
    rcases h.tallied with hidle | ⟨v, hv, ht⟩
    · exact ⟨l, hl.idle hidle⟩
    · by_cases hk : (height, round) = (v.height, v.round)
      · cases hk
        exact ⟨l ++ [v], hl.count hv.hears hv.fresh.1 ht⟩
      · exact ⟨l, hl.other hk ht⟩
  refine ⟨hs.timely.step h, hpolls, ?_, ?_⟩
  · intro e height round
    by_cases he : e = t.epoch
    · subst he
      obtain ⟨l, hl⟩ := hpolls height round
      rw [← List.length_reverse, hl.made]
      exact fallbackCertificates_once hn l
    · obtain ⟨new, heq, hnew⟩ := h.grown
      rw [certified_of_none heq fun q hq => he ?_]
      · exact hs.once e height round
      · rw [hext.epoch]
        exact (hnew _ hq).1
  · intro e q hq
    rcases h.recorded hq with hq | ⟨he, hr⟩
    · refine (hs.tallies e q hq).mono fun u hu => ⟨hu.1.mono hext.trace.subset, hu.2⟩
    · simp only at he
      subst he
      cases hr with
      | opt h => exact h.elim
      | pes _ h => exact h.elim
      | @assembledFallback v _ _ hv hadd ht =>
        obtain ⟨l, hl⟩ := hs.polls v.height v.round
        have hmake : (QCMaker.append (s.aggregator.fallbackVotes.getD (v.height, v.round) .new) v
            cfg.committee).1 = .ok (some q) := hadd
        rw [hl.maker] at hmake
        obtain ⟨hc, hq⟩ := QCMaker.append_foldl.mp hmake
        refine ⟨l, v, ?_, hc, hq⟩
        have hkey : q.height = v.height ∧ q.round = v.round := by
          rw [hq]
          exact ⟨rfl, rfl⟩
        have hheard : ∀ {u : HVote}, s.Hears (.FBVote u) → t.Heard s.epoch (.FBVote u) :=
          fun hu => Heard.mono hu hext.trace.subset
        intro u hu
        rcases List.mem_append.mp hu with hu | hu
        · obtain ⟨hh, hr, hu, he⟩ := hl.heard u hu
          exact ⟨hheard hu, he, hh.trans hkey.1.symm, hr.trans hkey.2.symm⟩
        · rw [List.mem_singleton.mp hu]
          exact ⟨hheard hv.hears, hv.fresh.1, hkey.1.symm, hkey.2.symm⟩

theorem Polled.new : Polled c .new := by
  have hnone : ∀ e height round, certified .new e height round = [] := fun _ _ _ => rfl
  refine ⟨.new, fun height round => ⟨[], rfl, fun v hv => (nomatch hv), rfl⟩, ?_, ?_⟩
  · intro e height round
    rw [hnone]
    exact Nat.zero_le _
  · exact fun e q hq => (not_own_of_new hq trivial).elim

theorem Polled.take (hs : s.Polled c) (m : ConsensusMessage) : (s.log (.receive m)).Polled c := by
  have hext : Extends s (s.log (.receive m)) := extends_log _
  have hsame : ∀ e height round,
      (s.log (.receive m)).certified e height round = s.certified e height round :=
    fun _ _ _ => rfl
  refine ⟨hs.timely.take m, ?_, ?_, ?_⟩
  · intro height round
    obtain ⟨l, hl⟩ := hs.polls height round
    exact ⟨l, hl.idle ⟨hext, rfl, fun _ _ => rfl⟩⟩
  · intro e height round
    rw [hsame]
    exact hs.once e height round
  · intro e q hq
    exact (hs.tallies e q (mem_take hq trivial)).mono fun u hu =>
      ⟨hu.1.mono hext.trace.subset, hu.2⟩

/-- A new epoch begins with no vote. -/
theorem Polled.renewed (hs : s.Polled c) : s.renewed.Polled c := by
  obtain ⟨new, htr, hnew⟩ := renewed_grown s
  have hsame : ∀ e height round, s.renewed.certified e height round = s.certified e height round :=
    fun _ _ _ => certified_of_none htr fun q hq => (hnew _ hq).2 trivial
  have hepoch := renewed_epoch s
  refine ⟨hs.timely.renewed, ?_, ?_, ?_⟩
  · intro height round
    refine ⟨[], ?_, fun v hv => (nomatch hv), ?_⟩
    · obtain ⟨marks, rest, heq, -, -⟩ := renewed_eq s
      rw [heq]
      rfl
    · -- nothing of this epoch is on record yet
      have hnone : s.certified s.renewed.epoch height round = [] := by
        refine List.eq_nil_iff_forall_not_mem.mpr fun q hq => ?_
        have hle := hs.timely _ (mem_certified.mp hq).1
        rw [hepoch] at hle
        simp only at hle
        omega
      rw [hsame, hnone]
      rfl
  · intro e height round
    rw [hsame]
    exact hs.once e height round
  · intro e q hq
    refine (hs.tallies e q (mem_renewed hq trivial)).mono fun u hu => ⟨hu.1.mono ?_, hu.2⟩
    exact (renewed_trace s).subset

theorem Reachable.polled {alive : Bool} (h : Reachable cfg s alive)
    (hn : cfg.committee.total % 3 = 1) : s.Polled cfg.committee := by
  refine (h.invariant (C := fun _ => True) (fun _ _ _ h => h) Polled.new ?_ ?_).2 trivial
  · exact fun s m hs _ => hs.take m
  · intro s t _ hs _ ht
    cases ht with
    | step ht => exact hs.step hn ht
    | epoch _ ht => exact ht ▸ hs.renewed

end Core

end Tallies

end Ipotane
