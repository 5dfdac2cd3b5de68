import Ipotane.Assembly
import Ipotane.Availability
import Ipotane.Proposals

/-! The two phases in which a proposal of the agreement is broadcast: nothing is locked before a
quorum has voted for it, and nothing is finished before a quorum has locked it. -/
namespace Ipotane

open Lib Handler

section Locks

variable [Crypto]

/-! ### The votes of a proof -/

namespace ProofMaker

variable {c : Committee} {m : ProofMaker} {x : SPBVote} {p : SPBProof}

/-- No voter is counted twice, and the weight is at most that of the voters. -/
structure Fair (c : Committee) (m : ProofMaker) : Prop where
  used : ∀ x ∈ m.votes, x.author ∈ m.used
  nodup : (m.votes.map SPBVote.author).Nodup
  weight : m.weight ≤ ((m.votes.map SPBVote.author).map c.stake).sum

theorem fair_new : Fair c .new := ⟨fun _ h => (nomatch h), .nil, le_rfl⟩

theorem append_votes : (m.append x c).2.votes = m.votes ∨
    (m.append x c).2.votes = m.votes ++ [x] := by
  unfold append
  split
  · exact .inl rfl
  · dsimp only
    split
    · exact .inr rfl
    · exact .inr rfl

theorem Fair.snoc (h : m.Fair c) (hx : x.author ∉ m.used) :
    ((m.votes ++ [x]).map SPBVote.author).Nodup ∧
      m.weight + c.stake x.author ≤ (((m.votes ++ [x]).map SPBVote.author).map c.stake).sum := by
  constructor
  · rw [List.map_append]
    refine h.nodup.append (List.nodup_singleton _) ?_
    intro k hk hx'
    obtain ⟨y, hy, rfl⟩ := List.mem_map.mp hk
    have hsame : y.author = x.author := List.mem_singleton.mp hx'
    exact hx (hsame ▸ h.used y hy)
  · have hweight := h.weight
    simpa using hweight

theorem Fair.append (h : m.Fair c) : (m.append x c).2.Fair c := by
  unfold ProofMaker.append
  split
  · exact h
  · rename_i hx
    obtain ⟨hnodup, hweight⟩ := h.snoc hx
    have hused : ∀ y ∈ m.votes ++ [x], y.author ∈ x.author :: m.used := by
      intro y hy
      rcases List.mem_append.mp hy with hy | hy
      · exact List.mem_cons_of_mem _ (h.used y hy)
      · rw [List.mem_singleton.mp hy]
        exact List.mem_cons_self
    dsimp only
    split
    · exact ⟨hused, hnodup, Nat.zero_le _⟩
    · exact ⟨hused, hnodup, hweight⟩

end ProofMaker

/-- The votes of the proof are those of a quorum, cast in the phase before and heard
in epoch `e`. -/
structure SPBProof.Carried (c : Committee) (s : Core) (e : ℕ) (p : SPBProof) : Prop where
  nodup : (p.shares.map SPBVote.author).Nodup
  quorum : c.quorumThreshold ≤ ((p.shares.map SPBVote.author).map c.stake).sum
  votes : ∀ x ∈ p.shares, s.Heard e (.SPBVote x) ∧ e ≤ x.epoch ∧ x.height = p.height ∧
    x.round = p.round ∧
    (x.phase + 1) % 256 = p.phase

theorem SPBProof.Carried.mono {c : Committee} {s t : Core} {e : ℕ} {p : SPBProof}
    (h : p.Carried c s e) (ht : s.trace ⊆ t.trace) : p.Carried c t e :=
  ⟨h.nodup, h.quorum, fun x hx => ⟨(h.votes x hx).1.mono ht, (h.votes x hx).2⟩⟩

namespace Core

variable {cfg : Config} {s t : Core} {c : Committee} {key : ℕ × ℕ × ℕ} {v : SPBValue} {p : SPBProof}
  {alive : Bool}

def spbMaker (s : Core) (key : ℕ × ℕ × ℕ) : ProofMaker := s.aggregator.spbVotes.getD key .new

/-- The maker has the votes that the node has heard in this epoch for its height,
round and phase. -/
structure Collects (c : Committee) (s : Core) (key : ℕ × ℕ × ℕ) (m : ProofMaker) : Prop where
  fair : m.Fair c
  votes : ∀ x ∈ m.votes, s.Hears (.SPBVote x) ∧ s.epoch ≤ x.epoch ∧
    (x.height, x.round, x.phase) = key

theorem Collects.extends {m : ProofMaker} (h : s.Collects c key m) (he : Extends s t) :
    t.Collects c key m := by
  refine ⟨h.fair, fun x hx => ?_⟩
  obtain ⟨hh, hle, hk⟩ := h.votes x hx
  exact ⟨he.hears hh, he.epoch ▸ hle, hk⟩

theorem collects_new : s.Collects c key .new := ⟨ProofMaker.fair_new, fun _ h => (nomatch h)⟩

theorem Collects.append {m : ProofMaker} {x : SPBVote}
    (h : s.Collects c (x.height, x.round, x.phase) m)
    (hx : s.Hears (.SPBVote x)) (he : s.epoch ≤ x.epoch) :
    s.Collects c (x.height, x.round, x.phase) (m.append x c).2 := by
  refine ⟨h.fair.append, fun y hy => ?_⟩
  rcases ProofMaker.append_votes (m := m) (x := x) (c := c) with heq | heq
  · rw [heq] at hy
    exact h.votes y hy
  · rw [heq] at hy
    rcases List.mem_append.mp hy with hy | hy
    · exact h.votes y hy
    · rw [List.mem_singleton.mp hy]
      exact ⟨hx, he, rfl⟩

theorem Collects.carried {m : ProofMaker} {x : SPBVote}
    (h : s.Collects c (x.height, x.round, x.phase) m)
    (hx : s.Hears (.SPBVote x)) (he : s.epoch ≤ x.epoch) (hp : (m.append x c).1 = .ok (some p)) :
    p.Carried c s s.epoch := by
  obtain ⟨hused, rfl, hquorum⟩ := ProofMaker.append_some hp
  obtain ⟨hnodup, hweight⟩ := h.fair.snoc hused
  refine ⟨hnodup, hquorum.trans hweight, fun y hy => ?_⟩
  rcases List.mem_append.mp hy with hy | hy
  · obtain ⟨hh, hle, hk⟩ := h.votes y hy
    obtain ⟨hheight, hrest⟩ := Prod.mk.inj hk
    obtain ⟨hround, hphase⟩ := Prod.mk.inj hrest
    exact ⟨hh, hle, hheight, hround, by rw [hphase]⟩
  · rw [List.mem_singleton.mp hy]
    exact ⟨hx, he, rfl, rfl, rfl⟩

theorem spbMaker_eq (h : t.aggregator.spbVotes = s.aggregator.spbVotes) :
    t.spbMaker key = s.spbMaker key := by
  unfold spbMaker
  rw [h]

theorem spbMaker_clean (height reached : ℕ) (site : Termination) :
    (s.cleanSmvbaState height reached site).spbMaker key = s.spbMaker key ∨
      (s.cleanSmvbaState height reached site).spbMaker key = .new := by
  change (s.aggregator.spbVotes.retain _).getD key .new = _ ∨
    (s.aggregator.spbVotes.retain _).getD key .new = _
  rw [Map.getD_retain]
  split
  · exact .inl rfl
  · exact .inr rfl

theorem spbMaker_cleanFor (b : Block) :
    (s.cleanFor cfg b).spbMaker key = s.spbMaker key ∨ (s.cleanFor cfg b).spbMaker key = .new := by
  unfold cleanFor
  split
  · exact spbMaker_clean _ _ _
  · exact .inl rfl

theorem adopt_spbVotes (qc : QC) : (s.adopt qc).aggregator.spbVotes = s.aggregator.spbVotes := by
  unfold adopt updateHighQc
  split <;> split <;> rfl

theorem settle_spbVotes {b b1 b0 : Block} {marks : List (ℕ × Event)} :
    (s.settle b b1 b0 marks).aggregator.spbVotes = s.aggregator.spbVotes := by
  unfold settle
  split <;> rfl

theorem collect_spbVotes {α : Type} {add : Aggregator → Appended α Aggregator} {mark : α → Event}
    (h : (add s.aggregator).2.spbVotes = s.aggregator.spbVotes) :
    (collect add mark s).2.aggregator.spbVotes = s.aggregator.spbVotes := by
  rw [collect_aggregator]
  exact h

/-- A step leaves a maker alone, drops it, or appends a vote that has been taken. -/
inductive Alters (cfg : Config) (s t : Core) (key : ℕ × ℕ × ℕ) : Prop
  | keep (h : t.spbMaker key = s.spbMaker key)
  | drop (h : t.spbMaker key = .new)
  | append {x : SPBVote} (hx : s.Taken cfg (.SPBVote x) x.epoch x.height (x.verify cfg.committee))
      (hk : key = (x.height, x.round, x.phase))
      (h : t.spbMaker key = ((s.spbMaker key).append x cfg.committee).2)

theorem alters_of_eq (h : t.aggregator.spbVotes = s.aggregator.spbVotes) : Alters cfg s t key :=
  .keep (spbMaker_eq h)

theorem alters_of_or (h : t.spbMaker key = s.spbMaker key ∨ t.spbMaker key = .new) :
    Alters cfg s t key := by
  rcases h with h | h
  · exact .keep h
  · exact .drop h

theorem OptStep.alters (h : OptStep cfg s t) (key : ℕ × ℕ × ℕ) : Alters cfg s t key := by
  cases h with
  | quiet h => exact alters_of_eq (by rw [h.aggregator])
  | @proposal b _ _ _ =>
    refine alters_of_or ?_
    rw [spbMaker_eq (adopt_spbVotes _)]
    exact spbMaker_cleanFor b
  | @overflow b _ _ => exact alters_of_or (spbMaker_cleanFor b)
  | adopt _ _ _ _ _ => exact alters_of_eq (adopt_spbVotes _)
  | countVote _ _ _ _ _ => exact alters_of_eq (collect_spbVotes rfl)
  | settle _ _ _ _ _ _ => exact alters_of_eq settle_spbVotes
  | _ => exact alters_of_eq rfl

theorem PesStep.alters (h : PesStep cfg s t) (key : ℕ × ℕ × ℕ) : Alters cfg s t key := by
  cases h with
  | terminate _ => exact alters_of_or (spbMaker_clean _ _ _)
  | countFallback _ => exact alters_of_eq (collect_spbVotes rfl)
  | countPre _ _ => exact alters_of_eq (collect_spbVotes rfl)
  | @countSpb x hx =>
    have hget : ∀ key, (collect (fun a => a.addSpbVote x cfg.committee) .proved s).2.spbMaker key =
        if key = (x.height, x.round, x.phase) then
          ((s.spbMaker (x.height, x.round, x.phase)).append x cfg.committee).2
        else s.spbMaker key := by
      intro key
      unfold spbMaker
      rw [collect_aggregator]
      exact Map.getD_insert
    by_cases hk : key = (x.height, x.round, x.phase)
    · refine .append hx hk ?_
      rw [hget, if_pos hk, hk]
    · refine .keep ?_
      rw [hget, if_neg hk]
  | _ => exact alters_of_eq rfl

theorem Step.alters (h : Step cfg s t) (key : ℕ × ℕ × ℕ) : Alters cfg s t key := by
  cases h with
  | opt h => exact h.alters key
  | pes _ h => exact h.alters key

/-- The node makes of its proposal the one of the next phase, with the proof that it has
just completed. -/
structure Promotes (cfg : Config) (s : Core) (e n : ℕ) (v : SPBValue) (p : SPBProof) : Prop where
  phase : p.phase = n
  proved : (e, .proved p) ∈ s.trace
  proposed : ∃ u, (e, .propose u) ∈ s.trace ∧ v = { u with phase := n } ∧
    u.block.height = p.height ∧
    u.round = p.round
  author : v.block.author = cfg.name
  epoch : v.block.epoch = e

/-- What a node says of a proposal: it has made it or promoted it, or it votes for what it
has heard of. -/
def Tells (cfg : Config) (s : Core) (e : ℕ) : ConsensusMessage → Prop
  | .SPBPropose v p =>
    (v.phase = INIT_PHASE ∧ v.block.author = cfg.name ∧ v.block.epoch = e) ∨
      s.Promotes cfg e LOCK_PHASE v p
  | .SPBFinsh v p => s.Promotes cfg e FIN_PHASE v p
  | .SPBVote x => ∃ v p, x = SPBVote.new v cfg.name ∧ v.block.epoch = e ∧
      (e, .sign (.spbVote x)) ∈ s.trace ∧ s.Heard e (.SPBPropose v p) ∧
      (v.phase = LOCK_PHASE → (e, .lock v p) ∈ s.trace)
  | _ => True

/-- The entries about proposals. -/
def Stage (cfg : Config) (s : Core) : ℕ × Event → Prop
  | (e, .proved p) => p.Carried cfg.committee s e
  | (e, .propose v) => v.phase = INIT_PHASE ∧ v.block.author = cfg.name ∧ v.block.epoch = e
  | (e, .send m _ _) | (e, .keep m) => s.Tells cfg e m
  | (e, .lock v p) => v.phase = LOCK_PHASE ∧ v.block.epoch = e ∧ s.Heard e (.SPBPropose v p)
  | (e, .finish v p) => s.Heard e (.SPBFinsh v p)
  | _ => True

theorem Promotes.mono {e n : ℕ} (h : s.Promotes cfg e n v p) (ht : s.trace ⊆ t.trace) :
    t.Promotes cfg e n v p := by
  obtain ⟨u, hu, hrest⟩ := h.proposed
  exact ⟨h.phase, ht h.proved, ⟨u, ht hu, hrest⟩, h.author, h.epoch⟩

theorem Tells.mono {e : ℕ} {m : ConsensusMessage} (h : s.Tells cfg e m) (ht : s.trace ⊆ t.trace) :
    t.Tells cfg e m := by
  cases m with
  | SPBPropose v p => exact h.imp_right fun h => h.mono ht
  | SPBFinsh v p => exact Promotes.mono h ht
  | SPBVote x =>
    obtain ⟨v, p, hx, he, hsign, hheard, hlock⟩ := h
    exact ⟨v, p, hx, he, ht hsign, hheard.mono ht, fun hv => ht (hlock hv)⟩
  | _ => trivial

theorem Stage.mono {x : ℕ × Event} (h : s.Stage cfg x) (ht : s.trace ⊆ t.trace) :
    t.Stage cfg x := by
  obtain ⟨e, y⟩ := x
  cases y with
  | proved p => exact SPBProof.Carried.mono h ht
  | propose v => exact h
  | send m dest tag => exact Tells.mono h ht
  | keep m => exact Tells.mono h ht
  | lock v p => exact ⟨h.1, h.2.1, h.2.2.mono ht⟩
  | finish v p => exact Heard.mono h ht
  | _ => trivial

/-- A proposal that is held has been made, in this epoch and for its place in the table. -/
theorem promotes_of_held {n : ℕ} {w : SPBValue} (hs : ∀ x ∈ s.trace, s.Stage cfg x) (hk : s.Kept)
    (hp : p.phase = n) (hd : s.Did (.proved p))
    (hw : s.spbProposes.get (p.height, p.round) = some w)
    (hv : v = { w with phase := n }) : s.Promotes cfg s.epoch n v p := by
  obtain ⟨hmade, hkey⟩ := hk.proposes _ _ hw
  obtain ⟨hheight, hround⟩ := Prod.mk.inj hkey
  obtain ⟨-, hauthor, hepoch⟩ := hs _ hmade
  subst hv
  exact ⟨hp, hd, ⟨w, hmade, rfl, hheight.symm, hround.symm⟩, hauthor, hepoch⟩

/-- A vote is cast in the epoch of its value, which the node has heard of. -/
theorem SpbSource.heard (hs : ∀ x ∈ s.trace, s.Stage cfg x) (h : s.SpbSource cfg v p) :
    v.block.epoch = s.epoch ∧ s.Heard s.epoch (.SPBPropose v p) := by
  cases h with
  | own h =>
    have htold : s.Tells cfg s.epoch (.SPBPropose v p) := hs _ h
    refine ⟨?_, .inr (.inl ⟨PES, h⟩)⟩
    rcases htold with ⟨-, -, he⟩ | hpromoted
    · exact he
    · exact hpromoted.epoch
  | peer h he _ => exact ⟨he, .inl h⟩

theorem Issues.tells (hs : ∀ x ∈ s.trace, s.Stage cfg x) (hk : s.Kept) {m : ConsensusMessage}
    (h : s.Issues cfg m) : s.Tells cfg s.epoch m := by
  cases m with
  | SPBPropose v p =>
    rcases h with ⟨-, hd⟩ | ⟨hne, h⟩
    · exact .inl (hs _ hd)
    · cases h with
      | init _ hp _ _ _ => exact absurd (congrArg SPBProof.phase hp) hne
      | lock hp hd hw hv => exact .inr (promotes_of_held hs hk hp hd hw hv)
  | SPBFinsh v p =>
    obtain ⟨hp, hd, w, hw, hv⟩ := h
    exact promotes_of_held hs hk hp hd hw hv
  | SPBVote x =>
    obtain ⟨hsign, v, p, hsource, hx, hlock⟩ := h
    obtain ⟨he, hheard⟩ := hsource.heard hs
    exact ⟨v, p, hx, he, hsign, hheard, hlock⟩
  | _ => trivial

theorem PesLog.stage (hs : ∀ x ∈ s.trace, s.Stage cfg x) (hk : s.Kept) {y : Event}
    (h : s.PesLog cfg y) : s.Stage cfg (s.epoch, y) := by
  unfold PesLog at h
  split at h
  case h_8 => exact h.1.tells hs hk
  case h_9 => exact h.1.tells hs hk
  all_goals trivial

theorem OptLog.stage {y : Event} (h : s.OptLog cfg y) : s.Stage cfg (s.epoch, y) := by
  unfold OptLog at h
  split at h <;> trivial

/-- The makers collect what the node hears, and its record is in order. -/
structure Staged (cfg : Config) (s : Core) : Prop where
  kept : s.Kept
  makers : ∀ key, s.Collects cfg.committee key (s.spbMaker key)
  record : ∀ x ∈ s.trace, s.Stage cfg x

theorem Records.stage {y : Event} (hs : s.Staged cfg) (h : Records cfg s t y) :
    s.Stage cfg (s.epoch, y) := by
  cases h with
  | opt h => exact h.stage
  | pes _ h => exact h.stage hs.record hs.kept
  | @proved x p _ h hadd _ => exact (hs.makers _).carried h.hears h.fresh.1 hadd
  | propose _ _ hv hn he _ => exact ⟨hv, hn, he⟩
  | lock _ h hv _ =>
    obtain ⟨he, hheard⟩ := h.heard hs.record
    exact ⟨hv, he, hheard⟩
  | finish _ h _ => exact h.hears
  | _ => trivial

theorem Staged.step (hs : s.Staged cfg) (h : Step cfg s t) : t.Staged cfg := by
  have hext := h.extends
  refine ⟨hs.kept.step h, fun key => ?_, ?_⟩
  · rcases h.alters key with heq | heq | ⟨hx, rfl, heq⟩
    · rw [heq]
      exact (hs.makers key).extends hext
    · rw [heq]
      exact collects_new
    · rw [heq]
      exact ((hs.makers _).append hx.hears hx.fresh.1).extends hext
  · rintro ⟨e, y⟩ hx
    rcases h.recorded hx with hx | ⟨he, hr⟩
    · exact (hs.record _ hx).mono hext.trace.subset
    · simp only at he
      subst he
      exact (hr.stage hs).mono hext.trace.subset

theorem Staged.new : Staged cfg .new := by
  refine ⟨.new, fun _ => collects_new, ?_⟩
  intro x hx
  cases List.mem_singleton.mp hx
  trivial

theorem Staged.take (hs : s.Staged cfg) (m : ConsensusMessage) :
    (s.log (.receive m)).Staged cfg := by
  have hext : Extends s (s.log (.receive m)) := extends_log _
  refine ⟨hs.kept.take m, fun key => (hs.makers key).extends hext, ?_⟩
  intro x hx
  rcases List.mem_cons.mp hx with rfl | hx
  · trivial
  · exact (hs.record x hx).mono hext.trace.subset

theorem Staged.renewed (hs : s.Staged cfg) : s.renewed.Staged cfg := by
  obtain ⟨new, heq, hnew⟩ := renewed_grown s
  refine ⟨hs.kept.renewed, fun key => ?_, ?_⟩
  · have hmaker : s.renewed.spbMaker key = .new := by
      obtain ⟨marks, rest, heq, -, -⟩ := renewed_eq s
      rw [heq]
      rfl
    rw [hmaker]
    exact collects_new
  · intro x hx
    have hsub := (renewed_trace s).subset
    rw [heq] at hx
    rcases List.mem_append.mp hx with hx | hx
    · have hown := (hnew x hx).2
      obtain ⟨e, y⟩ := x
      cases y <;> first | trivial | exact absurd trivial hown
    · exact (hs.record x hx).mono hsub

theorem Reachable.staged (h : Reachable cfg s alive) : s.Staged cfg := by
  refine (h.invariant (C := fun _ => True) (fun _ _ _ h => h) Staged.new ?_ ?_).2 trivial
  · exact fun s m hs _ => hs.take m
  · intro s t _ hs _ ht
    cases ht with
    | step ht => exact hs.step ht
    | epoch _ ht => exact ht ▸ hs.renewed

end Core

/-! ### All nodes -/

variable {S : Setup} {w : World} {i j k : PublicKey} {e n : ℕ} {m : ConsensusMessage}
  {v u : SPBValue} {p : SPBProof} {x : SPBVote}

namespace Setup.Runs

theorem tells (h : S.Runs w) {dest : Option PublicKey} {tag : ℕ}
    (hm : (e, .send m dest tag) ∈ (w.core j).trace) : (w.core j).Tells (S.config j) e m := by
  have hstage := (h.reachable j).staged.record _ hm
  exact hstage

/-- What a node hears that is no proposal of the optimistic path has been told by a node. -/
theorem heard_told (h : S.Runs w) (m : ConsensusMessage) (hn : ¬ m.Internal)
    (hm : (w.core i).Heard e m) : ∃ j e', (w.core j).Tells (S.config j) e' m := by
  rcases hm with hm | ⟨tag, hm⟩ | hm
  · rcases ((h.invariant (inductive_delivered S)).2 trivial i).2 _ hm
      with hint | ⟨j, e', dest, tag, hsend, -⟩
    · exact absurd hint hn
    · exact ⟨j, e', h.tells hsend⟩
  · exact ⟨i, e, h.tells hm⟩
  · have hstage := (h.reachable i).staged.record _ hm
    exact ⟨i, e, hstage⟩

theorem heard_phase (h : S.Runs w) (hm : (w.core i).Heard e (.SPBPropose v p)) :
    v.phase = INIT_PHASE ∨ v.phase = LOCK_PHASE := by
  obtain ⟨j, e', htold⟩ := h.heard_told (.SPBPropose v p) id hm
  rcases htold with ⟨hv, -⟩ | hp
  · exact .inl hv
  · obtain ⟨u, -, rfl, -⟩ := hp.proposed
    exact .inr rfl

theorem heard_proposedIn (h : S.Runs w) (hm : (w.core i).Heard e (.SPBPropose v p)) :
    ProposedIn w.core v := by
  have hstocked := stocked_proposedIn h i
  rcases hm with hm | ⟨tag, hm⟩ | hm
  · exact hstocked _ hm v (List.mem_singleton.mpr rfl)
  · exact hstocked _ hm v (List.mem_singleton.mpr rfl)
  · exact hstocked _ hm v (List.mem_singleton.mpr rfl)

/-- A vote that is on its way to its proposer is of an epoch that the proposer has reached. -/
theorem sent_timely (h : S.Runs w) (hx : Sent w.core i (.SPBVote x)) :
    x.epoch ≤ (w.core i).epoch := by
  obtain ⟨j, e, dest, tag, hsend, hd⟩ := hx
  obtain ⟨v, p, rfl, -, -, hheard, -⟩ := h.tells hsend
  obtain ⟨u, hu, -⟩ := h.heard_proposedIn hheard
  obtain ⟨hdest, -⟩ := (h.reachable j).cast _ hsend
  have hauthor : v.block.author = i := by
    rcases hd with rfl | rfl
    · cases hdest
    · exact (Option.some.inj hdest).symm
  rw [hauthor] at hu
  exact (h.reachable i).timely _ hu

theorem received_timely (h : S.Runs w) :
    ∀ i e x, (e, .receive (.SPBVote x)) ∈ (w.core i).trace → x.epoch ≤ e := by
  have hset : ∀ {w : World} {j : PublicKey} {input : Input} {fuel : ℕ} {p : Phase}, S.Runs w →
      (∀ i e x, (e, .receive (.SPBVote x)) ∈ (w.core i).trace → x.epoch ≤ e) →
      (∀ x, input = .core (.SPBVote x) ∨ input = .smvba (.SPBVote x) → x.epoch ≤ (w.core j).epoch) →
      (Core.react (S.config j) fuel input (w.core j)).1 ≠ .exhausted →
      ∀ i e x, (e, .receive (.SPBVote x)) ∈
        ((w.set j (Core.react (S.config j) fuel input (w.core j)).2 p).core i).trace →
          x.epoch ≤ e := by
    intro w j input fuel p h ih hin hf i e x hx
    by_cases hi : i = j
    · subst hi
      simp only [World.set, Function.update_self] at hx
      have hst := (h.reachable i).storeOk
      rcases Core.received_react hst hf hx with hx' | hinput
      · exact ih i e x hx'
      · rcases Core.mem_arrival (Core.received_of_turns (Core.react_turns hst hf) hx)
          with hx' | ⟨m, heq⟩
        · exact ih i e x hx'
        · cases heq
          exact hin x hinput
    · simp only [World.set, Function.update_of_ne hi] at hx
      exact ih i e x hx
  unfold Setup.Runs at h
  induction h with
  | start =>
    intro i e x hx
    cases List.mem_singleton.mp hx
  | boot fuel h _ _ hf ih =>
    refine hset h ih ?_ hf
    rintro x (hx | hx) <;> cases hx
  | @react w j input fuel h _ _ ha hf ih =>
    refine hset h ih ?_ hf
    intro x hx
    have hrun : S.Runs w := h
    have hdelivered := (hrun.invariant (inductive_delivered S)).2 trivial j
    rcases ha.delivered hdelivered.2 hx with hint | hsent
    · exact hint.elim
    · exact hrun.sent_timely hsent

end Setup.Runs

/-- The maker of the value proposes one block at most for each epoch, height and round. -/
def ProposesOne (σ : Cores) (k : PublicKey) : Prop :=
  ∀ e a b, (e, .propose a) ∈ (σ k).trace → (e, .propose b) ∈ (σ k).trace →
    a.block.height = b.block.height →
    a.round = b.round → a.block = b.block

/-- Node `k` has voted in phase `n` for a value of the same maker, epoch, height and round. -/
structure Backs (σ : Cores) (v : SPBValue) (n : ℕ) (k : PublicKey) (u : SPBValue) : Prop where
  phase : u.phase = n
  author : u.block.author = v.block.author
  epoch : u.block.epoch = v.block.epoch
  height : u.block.height = v.block.height
  round : u.round = v.round
  signed : (σ k).Ever (.sign (.spbVote (SPBVote.new u k)))
  locked : n = LOCK_PHASE → ∃ q, (σ k).Ever (.lock u q)
  block : ProposesOne σ v.block.author → u.block = v.block

/-- A quorum has voted in phase `n` for what is the value itself, if its maker does not
propose twice. -/
def Backed (S : Setup) (σ : Cores) (v : SPBValue) (n : ℕ) : Prop :=
  ∃ A ⊆ S.committee.names, S.committee.quorumThreshold ≤ S.committee.stakeOf A ∧
    ∀ k ∈ A, ∃ u, Backs σ v n k u

namespace Setup.Runs

/-- A vote that the maker of a proposal counts has been cast by the voter, in the epoch
of the proof. -/
theorem counted (h : S.Runs w) (hx : (w.core j).Heard e (.SPBVote x)) (he : e ≤ x.epoch) :
    x.proposer = j ∧ x.epoch = e ∧ ∃ v p e', x = SPBVote.new v x.author ∧
      (w.core x.author).Ever (.sign (.spbVote x)) ∧ (w.core x.author).Heard e' (.SPBPropose v p) ∧
      (v.phase = LOCK_PHASE → (w.core x.author).Ever (.lock v p)) := by
  have hcast : ∀ {k e'}, (w.core k).Tells (S.config k) e' (.SPBVote x) → ∃ v p e',
      x = SPBVote.new v x.author ∧ (w.core x.author).Ever (.sign (.spbVote x)) ∧
      (w.core x.author).Heard e' (.SPBPropose v p) ∧
      (v.phase = LOCK_PHASE → (w.core x.author).Ever (.lock v p)) := by
    rintro k e' ⟨v, p, rfl, -, hsign, hheard, hlock⟩
    exact ⟨v, p, e', rfl, ⟨e', hsign⟩, hheard, fun hv => ⟨e', hlock hv⟩⟩
  rcases hx with hx | ⟨tag, hx⟩ | hx
  · have htimely := h.received_timely j e x hx
    rcases ((h.invariant (inductive_delivered S)).2 trivial j).2 _ hx
      with hint | ⟨k, e', dest, tag, hsend, hd⟩
    · exact hint.elim
    · refine ⟨?_, by omega, hcast (h.tells hsend)⟩
      have hdest := ((h.reachable k).cast _ hsend).1
      rcases hd with rfl | rfl
      · cases hdest
      · exact (Option.some.inj hdest).symm
  · cases ((h.reachable j).cast _ hx).1
  · have htold : (w.core j).Tells (S.config j) e (.SPBVote x) := (h.reachable j).staged.record _ hx
    refine ⟨((h.reachable j).cast _ hx).1, ?_, hcast htold⟩
    obtain ⟨v, p, rfl, hepoch, -⟩ := htold
    exact hepoch

/-- A proposal that goes on to the next phase has been voted for by a quorum. -/
theorem promoted_backed (h : S.Runs w)
    (hp : (w.core j).Promotes (S.config j) e (n + 1) v p) : Backed S w.core v n := by
  obtain ⟨a, ha, hva, hheight, hround⟩ := hp.proposed
  have hcarried : p.Carried S.committee (w.core j) e := (h.reachable j).staged.record _ hp.proved
  have hauthor : v.block.author = j := hp.author
  refine ⟨(p.shares.map SPBVote.author).toFinset ∩ S.committee.names,
    Finset.inter_subset_right, ?_, ?_⟩
  · rw [stakeOf_inter_names, Committee.stakeOf, List.sum_toFinset _ hcarried.nodup]
    exact hcarried.quorum
  · intro k hk
    obtain ⟨x, hx, rfl⟩ := List.mem_map.mp (List.mem_toFinset.mp (Finset.mem_inter.mp hk).1)
    obtain ⟨hheard, hle, hxh, hxr, hxp⟩ := hcarried.votes x hx
    obtain ⟨hproposer, hepoch, u, q, e', hxu, hsign, hsaid, hlock⟩ := h.counted hheard hle
    have hfields : x.proposer = u.block.author ∧ x.epoch = u.block.epoch ∧ x.height =
      u.block.height ∧
        x.round = u.round ∧ x.phase = u.phase := by
      rw [hxu]
      exact ⟨rfl, rfl, rfl, rfl, rfl⟩
    obtain ⟨hup, hue, huh, hur, huph⟩ := hfields
    have hphase : u.phase = n := by
      have hpn := hp.phase
      have hsmall : u.phase ≤ 1 := by
        rcases h.heard_phase hsaid with hu | hu
        · rw [hu]
          decide
        · rw [hu]
          decide
      omega
    refine ⟨u, hphase, ?_, ?_, ?_, ?_, ?_, ?_, ?_⟩
    · rw [← hup, hproposer, hauthor]
    · rw [← hue, hepoch, hp.epoch]
    · rw [← huh, hxh, ← hheight, hva]
    · rw [← hur, hxr, ← hround, hva]
    · rw [← hxu]
      exact hsign
    · intro hl
      exact ⟨q, hlock (hphase.trans hl)⟩
    · intro hone
      obtain ⟨b, hb, hblock, hbround⟩ := h.heard_proposedIn hsaid
      rw [← hup, hproposer, ← hue, hepoch] at hb
      rw [hauthor] at hone
      have hsame : b.block = a.block := by
        refine hone e b a hb ha ?_ ?_
        · rw [hblock, ← huh, hxh, hheight]
        · rw [hbround, ← hur, hxr, hround]
      rw [← hblock, hsame, hva]

/-- Nothing is locked that a quorum has not voted for, and nothing is finished that a quorum has not
locked: the same maker's value for that epoch, height and round, and the value itself unless its
maker has proposed another one there. -/
theorem spb_staged (h : S.Runs w) :
    (∀ k v p, (w.core k).Ever (.lock v p) → Backed S w.core v INIT_PHASE) ∧
      ∀ k v p, (w.core k).Ever (.finish v p) → Backed S w.core v LOCK_PHASE := by
  constructor
  · rintro k v p ⟨e, hl⟩
    obtain ⟨hv, -, hheard⟩ := (h.reachable k).staged.record _ hl
    obtain ⟨j, e', htold⟩ := h.heard_told (.SPBPropose v p) id hheard
    rcases htold with ⟨hinit, -⟩ | hp
    · rw [hv] at hinit
      cases hinit
    · exact h.promoted_backed hp
  · rintro k v p ⟨e, hf⟩
    have hheard : (w.core k).Heard e (.SPBFinsh v p) := (h.reachable k).staged.record _ hf
    obtain ⟨j, e', htold⟩ := h.heard_told (.SPBFinsh v p) id hheard
    exact h.promoted_backed htold

end Setup.Runs

end Locks

/-- Node `1` takes the finish of node `0`. -/
theorem spb_staged_toFinish : ∃ w v p, sampleSetup.Runs w ∧ (w.core 1).Ever (.finish v p) ∧
    v.block.author = 0 ∧ Backed sampleSetup w.core v LOCK_PHASE := by
  obtain ⟨w, hr, hf⟩ := exists_play sampleSetup (toEmptyRound.take 51)
    (fun w => ((w.core 1).trace.any fun x =>
      match x.2 with
      | .finish v _ => v.block.author = 0
      | _ => false) = true)
    (by decide +kernel) (by decide +kernel)
  obtain ⟨⟨e, y⟩, hx, hy⟩ := List.any_eq_true.mp hf
  obtain ⟨v, p, rfl, ha⟩ : ∃ v p, y = .finish v p ∧ v.block.author = 0 := by
    revert hy
    split
    · rename_i heq
      exact fun hy => ⟨_, _, heq, of_decide_eq_true hy⟩
    · intro hy
      cases hy
  exact ⟨w, v, p, hr, ⟨e, hx⟩, ha, hr.spb_staged.2 1 v p ⟨e, hx⟩⟩

end Ipotane
