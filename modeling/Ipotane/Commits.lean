import Ipotane.Cluster
import Ipotane.EpochChange

/-! The commits of one node, whatever the others send to it and in whatever mode it runs. -/
namespace Ipotane

open Lib Handler

section Commits

variable [Crypto]

namespace Core

/-- The blocks that the node has sent on its commit channel, each with the epoch it was in then. -/
def commits (s : Core) : List (ℕ × Block) :=
  s.trace.reverse.filterMap fun x => x.2.committed.map fun b => (x.1, b)

/-- A later epoch, or a greater height in the same one. -/
def Before (x y : ℕ × Block) : Prop := x.1 < y.1 ∨ (x.1 = y.1 ∧ x.2.height < y.2.height)

structure KeepsCommits (s t : Core) : Prop where
  last : t.lastCommittedHeight = s.lastCommittedHeight
  commits : t.commits = s.commits

structure CommitsNext (s t : Core) (b : Block) : Prop where
  above : s.lastCommittedHeight < b.height
  stored : t.Ever (.store b)
  last : t.lastCommittedHeight = b.height
  commits : t.commits = s.commits ++ [(s.epoch, b)]

variable {cfg : Config} {s t u : Core} {b : Block} {y : Event} {new : List (ℕ × Event)}
  {alive : Bool}

/-! ### One step -/

theorem commits_of_append (h : t.trace = new ++ s.trace) (hn : ∀ x ∈ new, x.2.committed = none) :
    t.commits = s.commits := by
  have hnil : new.reverse.filterMap (fun x => x.2.committed.map fun b => (x.1, b)) = [] := by
    refine List.filterMap_eq_nil_iff.mpr fun x hx => ?_
    rw [hn x (List.mem_reverse.mp hx)]
    rfl
  unfold commits
  rw [h, List.reverse_append, List.filterMap_append, hnil, List.append_nil]

theorem commits_commit {e : ℕ} {rule : CommitRule} (h : t.trace = (e, .commit b rule) :: s.trace) :
    t.commits = s.commits ++ [(e, b)] := by
  unfold commits
  rw [h, List.reverse_cons, List.filterMap_append]
  rfl

theorem keepsCommits_same (hl : t.lastCommittedHeight = s.lastCommittedHeight)
    (ht : t.trace = s.trace) : KeepsCommits s t :=
  have happend : t.trace = [] ++ s.trace := ht
  ⟨hl, commits_of_append happend fun _ hx => (nomatch hx)⟩

theorem keepsCommits_cons {e : ℕ} (hl : t.lastCommittedHeight = s.lastCommittedHeight)
    (ht : t.trace = (e, y) :: s.trace) (hc : y.committed = none) : KeepsCommits s t :=
  have happend : t.trace = [(e, y)] ++ s.trace := ht
  ⟨hl, commits_of_append happend (List.forall_mem_singleton.mpr hc)⟩

theorem KeepsCommits.trans (h : KeepsCommits s t) (h' : KeepsCommits t u) : KeepsCommits s u :=
  ⟨h'.last.trans h.last, h'.commits.trans h.commits⟩

theorem KeepsLedger.keepsCommits (h : KeepsLedger s t) : KeepsCommits s t := by
  obtain ⟨hl, new, heq, hnew⟩ := h
  exact ⟨hl, commits_of_append heq fun x hx => (hnew x hx).1⟩

theorem keepsCommits_collect {α : Type} (add : Aggregator → Appended α Aggregator)
    (mark : α → Event)
    (hm : ∀ a, (mark a).committed = none) : KeepsCommits s (collect add mark s).2 := by
  refine ⟨?_, commits_of_append (collect_trace _ _) ?_⟩
  · unfold collect
    split <;> rfl
  · intro x hx
    obtain ⟨a, -, rfl⟩ := List.mem_map.mp hx
    exact hm a

theorem PesLog.committed (h : s.PesLog cfg y) : y.committed = none := by
  cases y with
  | commit _ _ => exact h.elim
  | _ => rfl

theorem commitsNext_markCommit {rule : CommitRule} (hst : s.Ever (.store b))
    (hl : s.lastCommittedHeight < b.height) : CommitsNext s (s.markCommit b rule) b := by
  obtain ⟨e, hst⟩ := hst
  exact ⟨hl, ⟨e, List.mem_cons_of_mem _ hst⟩, rfl, commits_commit rfl⟩

theorem KeepsCommits.next (h : KeepsCommits s t) (he : t.epoch = s.epoch) (hn : CommitsNext t u b) :
    CommitsNext s u b := by
  refine ⟨h.last ▸ hn.above, hn.stored, hn.last, ?_⟩
  rw [hn.commits, h.commits, he]

theorem Parent.stored_above {p : Block} (h : s.Parent b p) (hl : s.lastCommittedHeight < p.height) :
    s.Ever (.store p) := by
  refine h.stored.resolve_right ?_
  rintro rfl
  exact absurd hl (Nat.not_lt_zero _)

theorem OptStep.commits_cases (h : OptStep cfg s t) : KeepsCommits s t ∨
    ∃ b, CommitsNext s t b := by
  cases h with
  | quiet h => exact .inl (keepsCommits_same h.lastCommittedHeight h.trace)
  | log h => exact .inl (keepsCommits_cons rfl rfl h.keepsLedger.1)
  | @vote b _ _ _ _ _ =>
    have hmid : KeepsCommits s (s.log (.endorse b)) := keepsCommits_cons rfl rfl rfl
    exact .inl (hmid.trans (keepsCommits_cons rfl rfl rfl))
  | @proposal b _ _ _ =>
    exact .inl ((keepsLedger_cleanFor s cfg b).trans (keepsLedger_adopt _ _)).keepsCommits
  | @overflow b _ _ => exact .inl (keepsLedger_cleanFor s cfg b).keepsCommits
  | adopt _ _ _ _ _ => exact .inl (keepsLedger_adopt _ _).keepsCommits
  | arm _ => exact .inl (keepsCommits_cons rfl rfl rfl)
  | buffer _ _ => exact .inl (keepsCommits_same rfl rfl)
  | countVote _ _ _ _ _ => exact .inl (keepsCommits_collect _ _ fun _ => rfl)
  | store _ _ _ _ => exact .inl (keepsCommits_cons rfl rfl rfl)
  | @settle b b1 b0 marks _ h1 h0 _ _ ht =>
    have hinsert : KeepsCommits s (s.insertBlock b) := keepsCommits_cons rfl rfl rfl
    unfold Core.settle
    by_cases hl : b0.height > s.lastCommittedHeight
    · rw [if_pos hl]
      have hmarked : KeepsCommits s ((s.insertBlock b).marked marks) :=
        hinsert.trans ⟨rfl, commits_of_append rfl fun x hx => (ht x hx).2.plain.1⟩
      have hext : Extends s ((s.insertBlock b).marked marks) :=
        (extends_cons rfl rfl : Extends s (s.insertBlock b)).trans (extends_marked marks)
      exact .inr ⟨b0, hmarked.next rfl (commitsNext_markCommit (hext.ever (h0.stored_above hl)) hl)⟩
    · rw [if_neg hl]
      exact .inl hinsert
  | @commit b b1 b0 _ _ _ h0 _ hl =>
    exact .inr ⟨b0, commitsNext_markCommit (h0.stored_above hl) hl⟩

theorem PesStep.commits_cases (h : PesStep cfg s t) : KeepsCommits s t ∨
    ∃ b, CommitsNext s t b := by
  cases h with
  | log h => exact .inl (keepsCommits_cons rfl rfl h.committed)
  | @fastCommit b _ hb _ _ _ _ hl =>
    exact .inr ⟨b, commitsNext_markCommit hb hl⟩
  | @outputCommit b hb _ _ _ hl =>
    exact .inr ⟨b, commitsNext_markCommit hb.ever hl⟩
  | countFallback _ => exact .inl (keepsCommits_collect _ _ fun _ => rfl)
  | countSpb _ => exact .inl (keepsCommits_collect _ _ fun _ => rfl)
  | countPre _ _ => exact .inl (keepsCommits_collect _ _ fun _ => rfl)
  | @enterRound m _ _ =>
    have hmid : KeepsCommits s (s.log (.enterRound m.height (m.round + 1))) :=
      keepsCommits_cons rfl rfl rfl
    exact .inl (hmid.trans (keepsCommits_cons rfl rfl rfl))
  | voteYes _ _ _ => exact .inl ⟨rfl, commits_of_append rfl (by simp [Event.committed])⟩
  | yes _ _ _ => exact .inl (keepsCommits_same rfl rfl)
  | extend _ | buffer _ _ _ | countShare _ _ _ _ | putOpt _ _ _ | putPes _ _ _ | countDone _
  | countNo _ _ =>
    exact .inl (keepsCommits_same rfl rfl)
  | _ => exact .inl (keepsCommits_cons rfl rfl rfl)

theorem Step.commits_cases (h : Step cfg s t) : KeepsCommits s t ∨ ∃ b, CommitsNext s t b := by
  cases h with
  | opt h => exact h.commits_cases
  | pes _ h => exact h.commits_cases

/-! ### All steps -/

/-- The commits follow one another in turn, and the last one of the epoch has the last
committed height. -/
structure InTurn (s : Core) : Prop where
  bounded : ∀ x ∈ s.commits, x.1 < s.epoch ∨ (x.1 = s.epoch ∧ x.2.height ≤ s.lastCommittedHeight)
  reached : s.lastCommittedHeight = 0 ∨ ∃ b, (s.epoch, b) ∈ s.commits ∧
    b.height = s.lastCommittedHeight
  ordered : s.commits.Pairwise Before
  stored : ∀ x ∈ s.commits, 0 < x.2.height ∧ s.Ever (.store x.2)

theorem InTurn.keeps (h : s.InTurn) (ht : KeepsCommits s t) (he : Extends s t) : t.InTurn where
  bounded := by
    rw [ht.commits, ht.last, he.epoch]
    exact h.bounded
  reached := by
    rw [ht.commits, ht.last, he.epoch]
    exact h.reached
  ordered := by
    rw [ht.commits]
    exact h.ordered
  stored := by
    rw [ht.commits]
    exact fun x hx => ⟨(h.stored x hx).1, he.ever (h.stored x hx).2⟩

theorem InTurn.next (h : s.InTurn) (ht : CommitsNext s t b) (he : Extends s t) : t.InTurn where
  bounded := by
    rw [ht.commits, ht.last, he.epoch]
    intro x hx
    rcases List.mem_append.mp hx with hx | hx
    · rcases h.bounded x hx with hx | ⟨hx, hh⟩
      · exact .inl hx
      · exact .inr ⟨hx, hh.trans ht.above.le⟩
    · rw [List.mem_singleton.mp hx]
      exact .inr ⟨rfl, le_rfl⟩
  reached := by
    rw [ht.commits, ht.last, he.epoch]
    exact .inr ⟨b, List.mem_append_right _ (List.mem_singleton_self _), rfl⟩
  ordered := by
    rw [ht.commits]
    refine List.pairwise_append.mpr ⟨h.ordered, List.pairwise_singleton _ _, ?_⟩
    intro x hx z hz
    rw [List.mem_singleton.mp hz]
    rcases h.bounded x hx with hx | ⟨hx, hh⟩
    · exact .inl hx
    · exact .inr ⟨hx, hh.trans_lt ht.above⟩
  stored := by
    rw [ht.commits]
    intro x hx
    rcases List.mem_append.mp hx with hx | hx
    · exact ⟨(h.stored x hx).1, he.ever (h.stored x hx).2⟩
    · rw [List.mem_singleton.mp hx]
      exact ⟨Nat.zero_lt_of_lt ht.above, ht.stored⟩

theorem InTurn.step (h : s.InTurn) (ht : Step cfg s t) : t.InTurn := by
  rcases ht.commits_cases with hk | ⟨b, hn⟩
  · exact h.keeps hk ht.extends
  · exact h.next hn ht.extends

/-- A new epoch starts with nothing committed. -/
theorem InTurn.renewed (h : s.InTurn) : s.renewed.InTurn := by
  obtain ⟨new, heq, hnew⟩ := renewed_grown s
  have hcommits : s.renewed.commits = s.commits := by
    refine commits_of_append heq fun x hx => ?_
    obtain ⟨e, y⟩ := x
    cases y with
    | commit _ _ => exact absurd trivial (hnew _ hx).2
    | _ => rfl
  have hzero : s.renewed.lastCommittedHeight = 0 := by
    obtain ⟨marks, rest, heq, -, -⟩ := renewed_eq s
    rw [heq]
    rfl
  refine ⟨?_, .inl hzero, ?_, ?_⟩
  · rw [hcommits, renewed_epoch]
    intro x hx
    rcases h.bounded x hx with hx | ⟨hx, -⟩
    · exact .inl (by omega)
    · exact .inl (by omega)
  · rw [hcommits]
    exact h.ordered
  · rw [hcommits]
    intro x hx
    obtain ⟨hh, e, hst⟩ := h.stored x hx
    exact ⟨hh, e, (renewed_trace s).subset hst⟩

theorem Reachable.inTurn (h : Reachable cfg s alive) : s.InTurn := by
  refine (h.invariant (C := fun _ => True) (fun _ _ _ h => h) ?_ ?_ ?_).2 trivial
  · exact ⟨fun x hx => (nomatch hx), .inl rfl, .nil, fun x hx => (nomatch hx)⟩
  · intro s m hs _
    have htake : KeepsCommits s (s.log (.receive m)) := keepsCommits_cons rfl rfl rfl
    exact hs.keeps htake (extends_log _)
  · intro s t _ hs _ ht
    cases ht with
    | step ht => exact hs.step ht
    | epoch _ ht => exact ht ▸ hs.renewed

end Core

/-! ### One node -/

/-- In every mode and whatever the node takes, as long as no payload is taken for a block, its
core commits blocks only that it has given to the store, where one of that digest is found between
two turns; it commits in the order of the epochs and, within an epoch, of the heights, and it
knows the greatest height that it has committed there. -/
theorem Node.commits_inTurn {cfg : Config} {mempool : MempoolConfig} {codec : Codec} {n : Node}
    (h : Node.Reached cfg mempool codec n) :
    n.core.commits.Pairwise Core.Before ∧
      (∀ x ∈ n.core.commits, 0 < x.2.height ∧ n.core.Ever (.store x.2) ∧
        (n.due = [] → ∃ b, n.mempool.store.get x.2.digest = some (.block b) ∧
          b.digest = x.2.digest)) ∧
      (∀ b, (n.core.epoch, b) ∈ n.core.commits → b.height ≤ n.core.lastCommittedHeight) ∧
      (n.core.lastCommittedHeight = 0 ∨
        ∃ b, (n.core.epoch, b) ∈ n.core.commits ∧ b.height = n.core.lastCommittedHeight) := by
  have hturn := h.reachable.inTurn
  refine ⟨hturn.ordered, fun x hx => ?_, fun b hb => ?_, hturn.reached⟩
  · obtain ⟨hh, hst⟩ := hturn.stored x hx
    exact ⟨hh, hst, fun hd => h.files hd hst⟩
  · rcases hturn.bounded _ hb with hb | ⟨-, hh⟩
    · exact absurd hb (Nat.lt_irrefl _)
    · exact hh

end Commits

/-- Node `0` commits the blocks of the heights `1` and `2`; the first one has a payload. -/
def toPaid : List Cluster.Act :=
  [.message 1 (.OwnPayload samplePayload), .message 0 (.Payload samplePayload),
    .message 2 (.Payload samplePayload), .boot 0, .boot 1, .boot 2, .boot 3, .deliver 0 1 0,
    .deliver 2 1 0, .deliver 3 0 1, .deliver 3 1 2, .deliver 3 2 0, .timer 3, .deliver 0 3 0,
    .deliver 1 3 0, .deliver 2 3 0, .deliver 3 0 2, .deliver 3 1 3, .deliver 3 2 1, .deliver 0 3 1,
    .deliver 1 3 1, .deliver 2 3 1, .deliver 0 1 5, .deliver 0 2 3]

theorem commits_inTurn_toPaid : ∃ n : Node, n.core.commits.map (fun x => (x.1, x.2.height)) =
    [(0, 1), (0, 2)] ∧ n.core.commits.Pairwise Core.Before ∧ ∀ x ∈ n.core.commits,
      n.mempool.store.contains x.2.digest = true := by
  obtain ⟨c, hr, hd, hc⟩ := Cluster.exists_played paidSetup poolConfig sampleCodec
    [samplePayload.digest] (fun _ => rfl) toPaid
    (fun c => (c.node 0).due = [] ∧
      (c.node 0).core.commits.map (fun x => (x.1, x.2.height)) = [(0, 1), (0, 2)])
    (by decide) (by decide +kernel)
  obtain ⟨hordered, hstored, -⟩ := Node.commits_inTurn (hr.reached 0)
  refine ⟨c.node 0, hc, hordered, fun x hx => ?_⟩
  obtain ⟨b, hb, -⟩ := (hstored x hx).2.2 hd
  exact Map.contains_iff.mpr ⟨_, hb⟩

end Ipotane
