import Ipotane.Lib.Fuel
import Ipotane.Members
import Mathlib.Data.Fintype.Pigeonhole
import Mathlib.Data.Nat.SuccPred
import Mathlib.Order.OrderIsoNat
import Mathlib.Order.SuccPred.Relation

/-! Every turn of the event loop ends: the handlers do not call each other for ever, and the loop of
`commit` goes on for ever only where blocks of the store are their own ancestors. -/
namespace Ipotane.Core

open Lib Handler

section Turns

variable [Crypto] {cfg : Config} {s t u : Core}

/-- The proposals that the node has made stand under their rounds. -/
def Keyed (s : Core) : Prop := ∀ key v, s.spbProposes.get key = some v → v.round = key.2

/-- The blocks of the store stand under their digests. -/
def Hashed (s : Core) : Prop := ∀ d p, s.store.get d = some p → p.digest = d

/-- Blocks of the store make a cycle, each with the digest of the next one in its certificate. -/
def Cyclic (s : Core) : Prop :=
  ∃ b, Relation.TransGen (fun b p => s.store.get b.parent = some p ∧ p.digest = b.parent) b b

/-- What the handlers never undo. -/
structure Ahead (s t : Core) : Prop where
  height : s.height ≤ t.height
  invoked : ∀ h, s.fallbackIsInvoke.contains h = true → t.fallbackIsInvoke.contains h = true
  keyed : s.Keyed → t.Keyed
  hashed : s.Hashed → t.Hashed

theorem ahead_same (hh : t.height = s.height) (hf : t.fallbackIsInvoke = s.fallbackIsInvoke)
    (hp : t.spbProposes = s.spbProposes) (hs : t.store = s.store) : Ahead s t := by
  refine ⟨hh.ge, fun h hc => by rwa [hf], fun hk key v hv => ?_, fun hk d p hd => ?_⟩
  · rw [hp] at hv
    exact hk key v hv
  · rw [hs] at hd
    exact hk d p hd

instance : Std.Refl Ahead := ⟨fun _ => ahead_same rfl rfl rfl rfl⟩

theorem Ahead.trans (h : Ahead s t) (h' : Ahead t u) : Ahead s u :=
  ⟨h.height.trans h'.height, fun k hk => h'.invoked k (h.invoked k hk), fun hk =>
    h'.keyed (h.keyed hk), fun hk => h'.hashed (h.hashed hk)⟩

instance : IsTrans Core Ahead := ⟨fun _ _ _ => Ahead.trans⟩

/-! ### The parts of the handlers that call nothing -/

section Parts

variable {α : Type}

theorem plain_ahead {x : M α} (h : Plain Eq s x) : Plain Ahead s x := h.mono fun _ h => h ▸ refl s

theorem plain_ensureM (p : Prop) [Decidable p] (e : ConsensusError) : Plain Eq s (ensureM p e) :=
  plain_ite (plain_pure _) (plain_fail _)

theorem plain_check {p : Prop} [Decidable p] (x : Check) :
    Plain Eq s (when p (ofExcept x) : M Unit) :=
  plain_when (plain_ofExcept x)

theorem plain_add (a b : ℕ) : Plain Eq s (add a b) := plain_ite (plain_pure _) (plain_crash _)

theorem plain_sub (a b : ℕ) : Plain Eq s (sub a b) := plain_ite (plain_pure _) (plain_crash _)

theorem plain_indexAsLeader (name : PublicKey) (height : ℕ) :
    Plain Eq s (indexAsLeader cfg name height) :=
  plain_ite (plain_pure _) (plain_crash _)

theorem plain_fallbackMessageFilter (epoch height : ℕ) :
    Plain Eq s (fallbackMessageFilter epoch height) :=
  plain_bind plain_self fun _ _ _ => plain_bind (plain_add _ _) fun _ _ _ => plain_pure _

theorem plain_smvbaMsgFilter (epoch height : ℕ) : Plain Eq s (smvbaMsgFilter epoch height) :=
  plain_bind plain_self fun _ _ _ => plain_ite (plain_pure _) <|
    plain_bind (plain_add _ _) fun _ _ _ => plain_pure _

theorem plain_emit (x : Event) : Plain Ahead s (emit x) := plain_update (ahead_same rfl rfl rfl rfl)

theorem plain_transmit (m : ConsensusMessage) (dest : Option PublicKey) (tag : ℕ) :
    Plain Ahead s (transmit cfg m dest tag) :=
  plain_bind (plain_ahead (plain_ensureM _ _)) fun _ _ _ => plain_emit _

theorem plain_mempoolGet : Plain Ahead s (mempoolGet cfg) :=
  plain_of_run rfl (by simp) (ahead_same rfl rfl rfl rfl)

theorem plain_generateProposal (height round : ℕ) (qc : Option QC) (tag : ℕ) :
    Plain Ahead s (generateProposal cfg height round qc tag) :=
  plain_bind plain_mempoolGet fun _ _ _ => plain_bind plain_self fun _ _ _ =>
    plain_bind (plain_emit _) fun _ _ _ => plain_pure _

theorem plain_mempoolVerify (b : Block) (tag : ℕ) : Plain Ahead s (mempoolVerify cfg b tag) := by
  refine plain_bind plain_self fun s' _ _ => ?_
  refine plain_bind (plain_update (ahead_same rfl rfl rfl rfl)) fun _ _ _ => ?_
  cases cfg.status s'.requests with
  | Accept => exact plain_bind (plain_emit _) fun _ _ _ => plain_pure _
  | Reject => exact plain_fail _
  | Wait => exact plain_bind (plain_emit _) fun _ _ _ => plain_pure _

theorem plain_collect (add : Aggregator → Appended α Aggregator) (mark : α → Event) :
    Plain Ahead s (collect add mark) := by
  unfold Plain collect
  split
  · exact ⟨by simp, ahead_same rfl rfl rfl rfl⟩
  · exact ⟨by simp, ahead_same rfl rfl rfl rfl⟩
  · exact ⟨by simp, ahead_same rfl rfl rfl rfl⟩

theorem plain_storeBlock (b : Block) : Plain Ahead s (storeBlock b) := by
  refine plain_update ⟨le_rfl, fun _ h => h, fun h => h, fun hk d p hd => ?_⟩
  change (s.store.insert b.digest b).get d = some p at hd
  rw [Map.get_insert] at hd
  split at hd
  · rename_i heq
    cases hd
    exact heq.symm
  · exact hk d p hd

theorem plain_getParentBlock (b : Block) : Plain Ahead s (getParentBlock b) := by
  refine plain_ite (plain_pure _) (plain_bind plain_self fun s' _ _ => ?_)
  cases s'.store.get b.parent with
  | some p => exact plain_pure _
  | none => exact plain_bind (plain_emit _) fun _ _ _ => plain_pure _

theorem plain_getAncestors (b : Block) : Plain Ahead s (getAncestors b) := by
  refine plain_bind (plain_getParentBlock b) fun b1 _ _ => ?_
  cases b1 with
  | none => exact plain_pure _
  | some b1 =>
    refine plain_bind (plain_getParentBlock b1) fun b0 _ _ => ?_
    cases b0 with
    | none => exact plain_crash _
    | some b0 => exact plain_pure _

theorem plain_resetTimer (duration : Option ℕ) : Plain Ahead s (resetTimer duration) :=
  plain_update (ahead_same rfl rfl rfl rfl)

theorem keyed_clean (k reached : ℕ) (site : Termination) (h : s.Keyed) :
    (s.cleanSmvbaState k reached site).Keyed := by
  intro key v hv
  exact h key v (get_clean hv)

theorem plain_terminateSmvba (height reached : ℕ) (site : Termination) :
    Plain Ahead s (terminateSmvba height reached site) :=
  plain_update ⟨le_rfl, fun _ h => h, keyed_clean height reached site, fun h => h⟩

theorem plain_processQc (qc : QC) : Plain Ahead s (processQc qc) := by
  refine plain_bind ?_ fun _ t _ => plain_update ?_
  · refine plain_bind plain_self fun s' t h => ?_
    cases h
    by_cases hlt : qc.height < s.height
    · rw [if_pos hlt]
      exact plain_pure _
    · rw [if_neg hlt]
      refine plain_bind (plain_ahead (plain_add _ _)) fun next t h => plain_update ?_
      cases (reads_add _ _).eq h
      obtain ⟨rfl, -⟩ := add_ok h
      exact ⟨by change s.height ≤ qc.height + 1; omega, fun _ h => h, fun h => h, fun h => h⟩
  · unfold updateHighQc
    split
    · exact ahead_same rfl rfl rfl rfl
    · exact refl t

theorem plain_handleSyncRequest (digest : Digest) (sender : PublicKey) :
    Plain Ahead s (handleSyncRequest cfg digest sender) := by
  refine plain_bind plain_self fun s' _ _ => ?_
  cases s'.store.get digest with
  | some b => exact plain_transmit _ _ _
  | none => exact plain_pure _

theorem plain_makeOptVote (b : Block) : Plain Ahead s (makeOptVote cfg b) := by
  refine plain_bind (plain_ahead (plain_add _ _)) fun _ _ _ => plain_bind plain_self fun _ _ _ => ?_
  refine plain_ite (plain_bind (plain_update ?_) fun _ _ _ => plain_pure _) (plain_pure _)
  exact ahead_same rfl rfl rfl rfl

theorem plain_sendVote (v : HVote) : ∀ {s} leaders, Plain Ahead s (sendVote cfg v leaders)
  | _, [] => plain_pure _
  | _, _ :: leaders =>
    plain_bind (plain_when (plain_transmit _ _ _)) fun _ _ _ => plain_sendVote v leaders

theorem plain_makeFallbackVote (b : Block) : Plain Ahead s (makeFallbackVote cfg b) :=
  plain_bind plain_self fun _ _ _ => plain_bind (plain_ahead (plain_add _ _)) fun _ _ _ =>
    plain_ite (plain_pure _) (plain_bind (plain_emit _) fun _ _ _ => plain_pure _)

theorem plain_makeSpbVote (v : SPBValue) : Plain Ahead s (makeSpbVote cfg v) :=
  plain_ite (plain_pure _) (plain_bind (plain_emit _) fun _ _ _ => plain_pure _)

theorem plain_smvbaBlock (height val : ℕ) (qc : Option QC) :
    Plain Ahead s (smvbaBlock cfg height val qc) :=
  plain_ite (plain_bind plain_self fun _ _ _ => plain_pure _) <|
    plain_bind (plain_ahead (plain_add _ _)) fun _ _ _ => plain_generateProposal _ _ _ _

theorem plain_voteOnPrevote (m : MPreVote) : Plain Ahead s (voteOnPrevote cfg m) := by
  refine plain_bind plain_self fun s' _ _ => plain_ite (plain_pure _) ?_
  cases m.tag with
  | Yes v p =>
    refine plain_bind (plain_update (ahead_same rfl rfl rfl rfl)) fun _ _ _ => ?_
    refine plain_bind (plain_makeSpbVote _) fun vote _ _ => ?_
    cases vote with
    | none => exact plain_pure _
    | some vote => exact plain_bind (plain_emit _) fun _ _ _ => plain_pure _
  | No =>
    refine plain_bind (plain_update (ahead_same rfl rfl rfl rfl)) fun _ _ _ => plain_ite ?_
      (plain_pure _)
    exact plain_bind (plain_update (ahead_same rfl rfl rfl rfl)) fun _ _ _ => plain_pure _

end Parts

/-! ### The loop of `commit` -/

abbrev Returns (cfg : Config) (s : Core) (c : Call) : Prop :=
  Halts Ahead Cyclic s fun n => exec cfg n c

/-- The block that the loop goes on with. -/
def ancestor (s : Core) (b : Block) : Option Block :=
  if b.height > s.lastCommittedHeight then
    if b.qc.isGenesis then some .genesis else s.store.get b.parent
  else none

theorem ahead_marked (marks : List (ℕ × Event)) : Ahead s (s.marked marks) :=
  ahead_same rfl rfl rfl rfl

theorem marked_marked (s : Core) (new marks : List (ℕ × Event)) :
    (s.marked marks).marked new = s.marked (new ++ marks) := by
  unfold marked
  rw [List.append_assoc]

theorem getParentBlock_run (s : Core) (b : Block) : ∃ marks : List (ℕ × Event),
    getParentBlock b s =
      (.ok (if b.qc.isGenesis then some .genesis else s.store.get b.parent), s.marked marks) := by
  unfold getParentBlock
  by_cases hg : b.qc.isGenesis
  · rw [if_pos hg, if_pos hg]
    exact ⟨[], rfl⟩
  · rw [if_neg hg, if_neg hg, bind_run (x := self) rfl]
    cases s.store.get b.parent with
    | some p => exact ⟨[], rfl⟩
    | none => exact ⟨[(s.epoch, .sync b)], rfl⟩

/-- A turn leaves marks and goes on with the ancestor, if there is one. -/
theorem commit_cases (s : Core) (b : Block) : ∃ marks : List (ℕ × Event),
    (s.ancestor b = none ∧ ∀ call, commit call b s = (.ok (), s.marked marks)) ∨
      ∃ p, s.ancestor b = some p ∧ ∀ call, commit call b s = call (.commit p) (s.marked marks) := by
  by_cases hh : b.height > s.lastCommittedHeight
  · obtain ⟨m₀, hwhen⟩ : ∃ m₀ : List (ℕ × Event),
        when (b.payload ≠ []) (emit (.cleanup b)) s = (.ok (), s.marked m₀) := by
      by_cases hp : b.payload ≠ []
      · exact ⟨[(s.epoch, .cleanup b)], by rw [when, if_pos hp]; rfl⟩
      · exact ⟨[], by rw [when, if_neg hp]; rfl⟩
    obtain ⟨m₁, hparent⟩ := getParentBlock_run (s.marked m₀) b
    rw [marked_marked] at hparent
    have heval : ∀ (call : Call → M Unit) {p : Option Block} {t : Core},
        getParentBlock b (s.marked m₀) = (.ok p, t) →
        commit call b s = p.elim (pure ()) (fun q => call (.commit q)) t := by
      intro call p t h
      unfold commit
      rw [bind_run (x := self) rfl, when, if_pos hh]
      cases p <;> exact (bind_run hwhen).trans (bind_run h)
    have hancestor : getParentBlock b (s.marked m₀) =
      (.ok (s.ancestor b), s.marked (m₁ ++ m₀)) := by
      rw [ancestor, if_pos hh]
      exact hparent
    refine ⟨m₁ ++ m₀, ?_⟩
    cases hp : s.ancestor b with
    | none =>
      rw [hp] at hancestor
      exact .inl ⟨rfl, fun call => heval call hancestor⟩
    | some p =>
      rw [hp] at hancestor
      exact .inr ⟨p, rfl, fun call => heval call hancestor⟩
  · refine ⟨[], .inl ⟨if_neg hh, fun call => ?_⟩⟩
    unfold commit
    rw [bind_run (x := self) rfl, when, if_neg hh]
    rfl

theorem returns_commit_of_acc {b : Block} (h : Acc (fun p b => s.ancestor b = some p) b) :
    ∀ marks, Returns cfg (s.marked marks) (.commit b) := by
  induction h with
  | intro b _ ih =>
    intro marks
    obtain ⟨new, ⟨-, hrun⟩ | ⟨p, hp, hrun⟩⟩ := commit_cases (s.marked marks) b
    · exact halts_succ (.stops (o := .ok ()) (by simp) (ahead_marked new)
        (.of_forall fun n => hrun (exec cfg n)))
    · refine halts_succ (halts_of_run (fun n => hrun (exec cfg n)) (ahead_marked new) ?_)
      rw [marked_marked]
      exact ih p hp _

theorem exhausted_commit : ∀ (n : ℕ) {b : Block} (marks : List (ℕ × Event)),
    ¬ Acc (fun p b => s.ancestor b = some p) b →
    (exec cfg n (.commit b) (s.marked marks)).1 = .exhausted ∧
      (exec cfg n (.commit b) (s.marked marks)).2.store = s.store
  | 0, _, _, _ => ⟨rfl, rfl⟩
  | n + 1, b, marks, h => by
    have hstep : ∀ p, s.ancestor b = some p → ¬ Acc (fun p b => s.ancestor b = some p) p := by
      intro p hp hacc
      refine h ⟨b, fun q hq => ?_⟩
      cases hp.symm.trans hq
      exact hacc
    obtain ⟨new, ⟨hn, -⟩ | ⟨p, hp, hrun⟩⟩ := commit_cases (s.marked marks) b
    · refine absurd ⟨b, fun p hp => ?_⟩ h
      cases hn.symm.trans hp
    · have ih := exhausted_commit n (new ++ marks) (hstep p hp)
      change (commit (exec cfg n) b _).1 = _ ∧ (commit (exec cfg n) b _).2.store = _
      rwa [hrun, marked_marked]

/-- A walk along the ancestors that does not stop comes back, for there are finitely
many digests. -/
theorem cyclic_of_not_acc {b : Block} (hs : s.Hashed)
    (h : ¬ Acc (fun p b => s.ancestor b = some p) b) : s.Cyclic := by
  obtain ⟨f, -, hf⟩ := not_acc_iff_exists_descending_chain.mp h
  have hget : ∀ k, s.store.get (f k).parent = some (f (k + 1)) := by
    intro k
    have hk := hf k
    unfold ancestor at hk
    split at hk
    · split at hk
      -- The genesis block has no ancestor, so the walk does not come by it.
      · have hnext := hf (k + 1)
        rw [← Option.some.inj hk] at hnext
        cases hnext
      · exact hk
    · cases hk
  obtain ⟨i, j, hne, heq⟩ := Finite.exists_ne_map_eq_of_infinite fun k => (f k).parent
  have hcycle : ∀ {i j}, i < j → (f i).parent = (f j).parent → s.Cyclic := by
    intro i j hlt heq
    refine ⟨f (i + 1), ?_⟩
    have hsame : f (j + 1) = f (i + 1) := by
      have hi := hget i
      rw [heq, hget j] at hi
      exact Option.some.inj hi
    have hline : Relation.TransGen (fun b p => s.store.get b.parent = some p ∧ p.digest = b.parent)
        (f (i + 1)) (f (j + 1)) :=
      Relation.TransGen.lift f (fun _ _ h => ⟨h, hs _ _ h⟩) _ _ <| transGen_of_succ_of_lt
        (fun a b => s.store.get (f a).parent = some (f b)) (fun k _ => hget k)
          (Nat.succ_lt_succ hlt)
    rwa [hsame] at hline
  rcases Nat.lt_or_gt_of_ne hne with hlt | hlt
  · exact hcycle hlt heq
  · exact hcycle hlt heq.symm

theorem returns_commit (hs : s.Hashed) (b : Block) : Returns cfg s (.commit b) := by
  by_cases h : Acc (fun p b => s.ancestor b = some p) b
  · exact returns_commit_of_acc h []
  · refine Halts.loops (.of_forall fun n => ?_)
    obtain ⟨ho, hstore⟩ := exhausted_commit n [] h
    refine ⟨ho, ?_⟩
    unfold Cyclic
    rw [show (exec cfg n (.commit b) s).2.store = s.store from hstore]
    exact cyclic_of_not_acc hs h

theorem returns_of {c : Call} (h : Halts Ahead Cyclic s fun n => body cfg (exec cfg n) c) :
    Returns cfg s c :=
  halts_succ h

theorem halts_commitAndSend (hs : s.Hashed) (b : Block) (rule : CommitRule) :
    Halts Ahead Cyclic s fun n => commitAndSend (exec cfg n) b rule :=
  halts_bind (returns_commit hs b) fun _ _ _ =>
    halts_plain (plain_update (ahead_same rfl rfl rfl rfl))

/-! ### States with few fallbacks left to invoke -/

/-- Of the heights in range, those without a fallback so far are in `U`. -/
structure Within (s : Core) (U : Finset ℕ) : Prop where
  invoked : ∀ h, h < 2 ^ 64 → s.fallbackIsInvoke.contains h = false → h ∈ U
  keyed : s.Keyed
  hashed : s.Hashed

namespace Within

variable {U : Finset ℕ} {α β : Type}

theorem mono (h : s.Within U) (ha : Ahead s t) : t.Within U := by
  refine ⟨fun k hk hc => h.invoked k hk ?_, ha.keyed h.keyed, ha.hashed h.hashed⟩
  cases hs : s.fallbackIsInvoke.contains k with
  | true => cases (ha.invoked k hs).symm.trans hc
  | false => rfl

theorem plain_bind {x : M α} {f : ℕ → α → M β} (h : s.Within U) (hx : Plain Ahead s x)
    (hf : ∀ a t, x s = (.ok a, t) → t.Within U → Halts Ahead Cyclic t fun n => f n a) :
    Halts Ahead Cyclic s fun n => x >>= f n :=
  halts_plain_bind hx fun a t hrun ha => hf a t hrun (h.mono ha)

theorem update_bind {g : Core → Core} {f : ℕ → Unit → M β} (h : s.Within U) (hg : Ahead s (g s))
    (hf : (g s).Within U → Halts Ahead Cyclic (g s) fun n => f n ()) :
    Halts Ahead Cyclic s fun n => (update g : M Unit) >>= f n :=
  halts_update_bind hg fun ha => hf (h.mono ha)

theorem bind {x : ℕ → M α} {f : ℕ → α → M β} (h : s.Within U) (hx : Halts Ahead Cyclic s x)
    (hf : ∀ a t, t.Within U → Halts Ahead Cyclic t fun n => f n a) :
    Halts Ahead Cyclic s fun n => x n >>= f n :=
  halts_bind hx fun a t ha => hf a t (h.mono ha)

end Within

/-- A fallback is invoked once for a height. -/
theorem returns_freshFallback {U : Finset ℕ} (hs : s.Within U) {height : ℕ} (qc : Option QC)
    (hnext : s.fallbackIsInvoke.contains height = false → ∀ (t : Core) (b : Block),
      t.Within (U.erase height) → Returns cfg t (.broadcastFallbackPropose b)) :
    Returns cfg s (.invokeFallback height qc) := by
  refine returns_of (halts_self_bind (halts_ite (fun _ => halts_plain (plain_pure _)) fun hc => ?_))
  have hins : Ahead s { s with fallbackIsInvoke := s.fallbackIsInvoke.insert height true } := by
    refine ⟨le_rfl, fun k hk => ?_, fun h => h, fun h => h⟩
    change ((s.fallbackIsInvoke.insert height true).get k).isSome = true
    rw [Map.get_insert]
    split
    · rfl
    · exact hk
  have hleft : ({ s with fallbackIsInvoke := s.fallbackIsInvoke.insert height true } : Core).Within
      (U.erase height) := by
    refine ⟨fun k hk hc => ?_, hs.keyed, hs.hashed⟩
    change ((s.fallbackIsInvoke.insert height true).get k).isSome = false at hc
    rw [Map.get_insert] at hc
    split at hc
    · cases hc
    · exact Finset.mem_erase.mpr ⟨by assumption, hs.invoked k hk hc⟩
  refine halts_update_bind hins fun _ => hleft.plain_bind (plain_generateProposal _ _ _ _) ?_
  exact fun b t _ ht => hnext (by simpa using hc) t b ht

/-! ### The agreement -/

section Agreement

-- The induction is on the heights without a fallback; below, where `hr` comes in, it is
-- on the rounds.
variable {U : Finset ℕ}
  (hU : ∀ V, V ⊂ U → ∀ s : Core, s.Within V → ∀ b, Returns cfg s (.broadcastFallbackPropose b))
include hU

theorem returns_nextFallback (hs : s.Within U) {height : ℕ} (hh : height < 2 ^ 64)
    (qc : Option QC) : Returns cfg s (.invokeFallback height qc) :=
  returns_freshFallback hs qc fun hnew t b ht =>
    hU _ (Finset.erase_ssubset (hs.invoked height hh hnew)) t ht b

theorem returns_processParOut (hs : s.Within U) (b : Block) : Returns cfg s (.processParOut b) := by
  refine returns_of (halts_self_bind (halts_ite (fun _ => halts_plain (plain_pure _)) fun _ => ?_))
  refine halts_look_bind (plain_add _ _) fun bound _ => ?_
  refine halts_ite (fun _ => halts_plain (plain_pure _)) fun _ =>
    halts_ite (fun _ => ?_) fun _ => ?_
  · refine halts_look_bind (plain_add _ _) fun next hn => ?_
    obtain ⟨rfl, hlt⟩ := add_ok hn
    exact returns_nextFallback hU hs hlt none
  · refine hs.plain_bind (plain_emit _) fun _ _ _ hs => hs.plain_bind (plain_storeBlock _)
      fun _ _ _ hs => ?_
    refine halts_self_bind (halts_ite (fun _ => ?_) fun _ => halts_plain (plain_emit _))
    refine halts_bind (halts_commitAndSend hs.hashed _ _) fun _ _ _ => ?_
    exact halts_ite (fun _ => halts_plain (plain_fail _)) fun _ => halts_plain (plain_emit _)

theorem returns_handleSmvbaHalt (hs : s.Within U) (m : MHalt) :
    Returns cfg s (.handleSmvbaHalt m) := by
  refine returns_of (halts_look_bind (plain_smvbaMsgFilter _ _) fun _ _ => ?_)
  refine halts_look_bind (plain_ensureM _ _) fun _ _ =>
    halts_look_bind (plain_check _) fun _ _ => ?_
  refine halts_self_bind (halts_ite (fun _ => halts_plain (plain_pure _)) fun _ => ?_)
  refine hs.update_bind (ahead_same rfl rfl rfl rfl) fun hs => halts_self_bind ?_
  refine halts_ite (fun _ => halts_plain (plain_pure _)) fun _ => ?_
  refine hs.update_bind (ahead_same rfl rfl rfl rfl) fun hs =>
    hs.plain_bind (plain_mempoolVerify _ _) ?_
  intro ok t _ ht
  exact halts_ite (fun _ => returns_processParOut hU ht _) fun _ => halts_plain (plain_pure _)

theorem halts_sendHalt (hs : s.Within U) (leader : PublicKey) (v : SPBValue) (p : SPBProof) :
    Halts Ahead Cyclic s fun n => sendHalt cfg (exec cfg n) leader v p :=
  hs.plain_bind (plain_emit _) fun _ _ _ hs => hs.plain_bind (plain_transmit _ _ _) fun _ _ _ hs =>
    returns_handleSmvbaHalt hU hs _

section Round

variable {r : ℕ} (hr : r + 1 < 2 ^ 64 → ∀ (height : ℕ) (s : Core), s.Within U →
  Returns cfg s (.smvbaRoundAdvance height (r + 1)))
include hr

theorem returns_handleSmvbaMvote (hs : s.Within U) {m : MVote} (hm : m.round = r) :
    Returns cfg s (.handleSmvbaMvote m) := by
  subst hm
  have hadvance : ∀ {t : Core} (weight : ℕ), t.Within U →
      Halts Ahead Cyclic t fun n => advanceOnQuorum cfg (exec cfg n) m weight := by
    intro t weight ht
    refine halts_when fun _ => halts_look_bind (plain_add _ _) fun next hn => ?_
    obtain ⟨rfl, hlt⟩ := add_ok hn
    exact hr hlt _ _ ht
  refine returns_of (halts_look_bind (plain_smvbaMsgFilter _ _) fun _ _ => ?_)
  refine halts_look_bind (plain_ensureM _ _) fun _ _ =>
    halts_look_bind (plain_check _) fun _ _ => ?_
  refine halts_self_bind (hs.update_bind (ahead_same rfl rfl rfl rfl) fun hs => ?_)
  cases m.tag with
  | No => exact hadvance _ hs
  | Yes v p vote =>
    refine hs.plain_bind (plain_collect _ _) fun proof t _ ht => ?_
    cases proof with
    | none => exact hadvance _ ht
    | some proof => exact halts_sendHalt hU ht _ _ _

omit hU hr in
theorem voteOnPrevote_round {m : MPreVote} {x : MVote}
    (h : voteOnPrevote cfg m s = (.ok (some x), t)) : x.round = m.round := by
  obtain ⟨s₁, t₁, h₁, h⟩ := bind_ok h
  cases h₁
  split at h
  · cases h
  · cases htag : m.tag with
    | Yes v p =>
      rw [htag] at h
      obtain ⟨_, _, h₂, h⟩ := bind_ok h
      cases h₂
      obtain ⟨vote, _, h₃, h⟩ := bind_ok h
      cases vote with
      | none => cases h
      | some vote =>
        cases h
        rfl
    | No =>
      rw [htag] at h
      obtain ⟨_, _, h₂, h⟩ := bind_ok h
      cases h₂
      split at h
      · cases h
        rfl
      · cases h

theorem returns_handleSmvbaPrevote (hs : s.Within U) {m : MPreVote} (hm : m.round = r) :
    Returns cfg s (.handleSmvbaPrevote m) := by
  refine returns_of (halts_look_bind (plain_smvbaMsgFilter _ _) fun _ _ => ?_)
  refine halts_look_bind (plain_ensureM _ _) fun _ _ =>
    halts_look_bind (plain_check _) fun _ _ => ?_
  refine hs.update_bind (ahead_same rfl rfl rfl rfl) fun hs =>
    hs.plain_bind (plain_voteOnPrevote _) ?_
  intro vote t hrun ht
  cases vote with
  | none => exact halts_plain (plain_pure _)
  | some x =>
    refine ht.plain_bind (plain_transmit _ _ _) fun _ _ _ hs => ?_
    exact returns_handleSmvbaMvote hU hr hs ((voteOnPrevote_round hrun).trans hm)

theorem halts_actOnCoin (hs : s.Within U) (coin : RandomCoin) (height : ℕ) :
    Halts Ahead Cyclic s fun n => actOnCoin cfg (exec cfg n) coin height r := by
  refine hs.update_bind (ahead_same rfl rfl rfl rfl) fun hs => halts_self_bind ?_
  cases List.lookup coin.leader _ with
  | some x => exact halts_sendHalt hU hs _ _ _
  | none =>
    refine hs.plain_bind (plain_emit _) fun _ _ _ hs => ?_
    refine hs.update_bind (ahead_same rfl rfl rfl rfl) fun hs => halts_self_bind ?_
    cases List.lookup coin.leader _ with
    | some x =>
      refine hs.plain_bind (plain_emit _) fun _ _ _ hs => ?_
      refine hs.plain_bind (plain_transmit _ _ _) fun _ _ _ hs => ?_
      exact returns_handleSmvbaPrevote hU hr hs rfl
    | none =>
      refine hs.plain_bind (plain_transmit _ _ _) fun _ _ _ hs => ?_
      exact returns_handleSmvbaPrevote hU hr hs rfl

theorem returns_handleSmvbaRs (hs : s.Within U) {x : RandomnessShare} (hx : x.round = r) :
    Returns cfg s (.handleSmvbaRs x) := by
  subst hx
  refine returns_of (halts_look_bind (plain_smvbaMsgFilter _ _) fun _ _ => ?_)
  refine halts_look_bind (plain_ensureM _ _) fun _ _ =>
    halts_look_bind (plain_check _) fun _ _ => ?_
  refine halts_self_bind (halts_ite (fun _ => halts_plain (plain_pure _)) fun _ => ?_)
  refine halts_ite (fun _ => halts_plain (plain_crash _)) fun _ => ?_
  refine hs.update_bind (ahead_same rfl rfl rfl rfl) fun hs => ?_
  refine hs.plain_bind (plain_ahead (plain_ofExcept _)) fun coin t _ ht => ?_
  cases coin with
  | none => exact halts_plain (plain_pure _)
  | some coin =>
    refine ht.update_bind (ahead_same rfl rfl rfl rfl) fun hs => ?_
    exact halts_actOnCoin hU hr hs coin _

omit hU hr in
/-- A node that has sent its share for the round does not send it again. -/
theorem returns_flaggedDone {m : MDoneAndShare}
    (hf : s.smvbaDFlag.getD (m.height, m.round) false = true) :
    Returns cfg s (.handleSmvbaDone m) := by
  refine returns_of (halts_look_bind (plain_smvbaMsgFilter _ _) fun _ _ => ?_)
  refine halts_look_bind (plain_ensureM _ _) fun _ _ =>
    halts_look_bind (plain_check _) fun _ _ => ?_
  refine halts_self_bind (halts_update_bind (ahead_same rfl rfl rfl rfl) fun _ =>
    halts_self_bind ?_)
  refine halts_ite (fun hc => ?_) fun _ => ?_
  · have hkept : (s.smvbaDFlag.orInsert (m.height, m.round) false).getD (m.height, m.round)
      false = true := by
      rwa [Map.getD_orInsert]
    cases hkept.symm.trans hc.1
  · refine halts_ite (fun _ => halts_plain (plain_update ?_)) fun _ => halts_plain (plain_pure _)
    exact ahead_same rfl rfl rfl rfl

omit hU hr in
theorem returns_share (hs : s.Within U) {height round : ℕ}
    (hdone : ∀ (t : Core) (m : MDoneAndShare), t.Within U → t.smvbaDFlag = s.smvbaDFlag →
      (m.height, m.round) = (height, round) → m.share.round = round →
      Returns cfg t (.handleSmvbaDoneWithShare m)) : Returns cfg s
      (.invokeDoneAndShare height round) := by
  refine returns_of (halts_self_bind (hs.update_bind (ahead_same rfl rfl rfl rfl) fun hs => ?_))
  refine hs.update_bind (ahead_same rfl rfl rfl rfl) fun hs =>
    hs.plain_bind (plain_transmit _ _ _) ?_
  intro _ t hrun ht
  cases transmit_ok hrun
  exact hdone _ _ ht rfl rfl rfl

theorem returns_flaggedShare (hs : s.Within U) {height : ℕ}
    (hf : s.smvbaDFlag.getD (height, r) false = true) :
    Returns cfg s (.invokeDoneAndShare height r) := by
  refine returns_share hs fun t m ht hflag hkey hround =>
    returns_of (ht.bind (returns_flaggedDone ?_) ?_)
  · rwa [hflag, hkey]
  · exact fun _ u hu => returns_handleSmvbaRs hU hr hu hround

theorem returns_handleSmvbaDone (hs : s.Within U) {m : MDoneAndShare} (hm : m.round = r) :
    Returns cfg s (.handleSmvbaDone m) := by
  subst hm
  refine returns_of (halts_look_bind (plain_smvbaMsgFilter _ _) fun _ _ => ?_)
  refine halts_look_bind (plain_ensureM _ _) fun _ _ =>
    halts_look_bind (plain_check _) fun _ _ => ?_
  refine halts_self_bind (hs.update_bind (ahead_same rfl rfl rfl rfl) fun hs => halts_self_bind ?_)
  refine halts_ite (fun _ => ?_) fun _ => ?_
  · refine hs.update_bind (ahead_same rfl rfl rfl rfl) fun hs => ?_
    exact returns_flaggedShare hU hr hs (Map.getD_insert.trans (if_pos rfl))
  · refine halts_ite (fun _ => halts_plain (plain_update ?_)) fun _ => halts_plain (plain_pure _)
    exact ahead_same rfl rfl rfl rfl

theorem returns_handleSpbFinish (hs : s.Within U) (v : SPBValue) {p : SPBProof} (hp : p.round = r) :
    Returns cfg s (.handleSpbFinish v p) := by
  subst hp
  refine returns_of (halts_look_bind (plain_smvbaMsgFilter _ _) fun _ _ => ?_)
  refine halts_look_bind (plain_ensureM _ _) fun _ _ =>
    halts_look_bind (plain_check _) fun _ _ => ?_
  refine hs.update_bind (ahead_same rfl rfl rfl rfl) fun hs => halts_self_bind ?_
  refine halts_ite (fun _ => halts_plain (plain_pure _)) fun _ => ?_
  refine halts_ite (fun _ => ?_) fun _ => halts_plain (plain_pure _)
  refine hs.update_bind (ahead_same rfl rfl rfl rfl) fun hs => ?_
  exact returns_flaggedShare hU hr hs (Map.getD_insert.trans (if_pos rfl))

/-- A vote completes a proof of the phase after its own, and of its round. -/
theorem returns_spbVote (hs : s.Within U) {x : SPBVote} (hx : x.round = r)
    (hlock : x.phase ≠ LOCK_PHASE → ∀ (t : Core) (v : SPBValue)
      (p : SPBProof), t.Within U → v.round = r →
      v.phase = LOCK_PHASE → Returns cfg t (.broadcastPesPropose v p)) :
    Returns cfg s (.handleSpbVote x) := by
  refine returns_of (halts_look_bind (plain_smvbaMsgFilter _ _) fun _ _ => ?_)
  refine halts_look_bind (plain_ensureM _ _) fun _ _ =>
    halts_look_bind (plain_check _) fun _ _ => ?_
  refine hs.plain_bind (plain_collect _ _) fun proof t hrun ht => ?_
  cases proof with
  | none => exact halts_plain (plain_pure _)
  | some p =>
    obtain ⟨-, hp, -⟩ := ProofMaker.append_some (collect_some hrun).1
    have hround : p.round = r := by
      rw [hp]
      exact hx
    refine halts_self_bind ?_
    cases hget : t.spbProposes.get (p.height, p.round) with
    | none => exact halts_plain (plain_crash _)
    | some v =>
      refine halts_ite (fun hphase => ?_) fun _ => ?_
      · refine hlock ?_ t _ p ht ((ht.keyed _ v hget).trans hround) rfl
        intro heq
        rw [hp, heq] at hphase
        cases hphase
      · refine halts_ite (fun _ => ?_) fun _ => halts_plain (plain_pure _)
        refine ht.plain_bind (plain_transmit _ _ _) fun _ _ _ hs => ?_
        exact returns_handleSpbFinish hU hr hs _ hround

omit hU hr in
theorem returns_spbPropose (hs : s.Within U) {v : SPBValue} (p : SPBProof)
    (hvote : ∀ (t : Core) (x : SPBVote), t.Within U → x.round = v.round → x.phase = v.phase →
      Returns cfg t (.handleSpbVote x)) : Returns cfg s (.processSpbPropose v p) := by
  have hlocked : Plain Ahead s (when (v.phase = LOCK_PHASE) <| update fun s => { s with
      spbLocks := s.spbLocks.insert (v.block.height, v.round)
        (put v.block.author (v, p) (s.spbLocks.getD (v.block.height, v.round) []))
      trace := (s.epoch, .lock v p) :: s.trace } : M Unit) :=
    plain_when (plain_update (ahead_same rfl rfl rfl rfl))
  refine returns_of (hs.plain_bind hlocked fun _ _ _ hs => hs.plain_bind (plain_makeSpbVote _) ?_)
  intro vote t hrun ht
  cases vote with
  | none => exact halts_plain (plain_pure _)
  | some x =>
    obtain ⟨rfl, -⟩ := makeSpbVote_some hrun
    refine halts_ite (fun _ => ?_) fun _ => halts_plain (plain_transmit _ _ _)
    exact ht.plain_bind (plain_emit _) fun _ _ _ hs => hvote _ _ hs rfl rfl

omit hU hr in
theorem returns_spbBroadcast (hs : s.Within U) {v : SPBValue} {p : SPBProof}
    (hpropose : ∀ t : Core, t.Within U → Returns cfg t (.processSpbPropose v p)) :
    Returns cfg s (.broadcastPesPropose v p) := by
  have hkept : Plain Ahead s (when (p.phase = INIT_PHASE) <| update fun s => { s with
      spbProposes := s.spbProposes.insert (v.block.height, v.round) v
      trace := (s.epoch, .propose v) :: s.trace } : M Unit) := by
    refine plain_when (plain_update ⟨le_rfl, fun _ h => h, fun hk key w hw => ?_, fun h => h⟩)
    change (s.spbProposes.insert (v.block.height, v.round) v).get key = some w at hw
    rw [Map.get_insert] at hw
    split at hw
    · rename_i hkey
      cases hw
      rw [hkey]
    · exact hk key w hw
  refine returns_of (hs.plain_bind hkept fun _ _ _ hs => hs.plain_bind (plain_transmit _ _ _) ?_)
  exact fun _ _ _ hs => hpropose _ hs

theorem returns_lockedBroadcast (hs : s.Within U) {v : SPBValue} (p : SPBProof) (hv : v.round = r)
    (hphase : v.phase = LOCK_PHASE) : Returns cfg s (.broadcastPesPropose v p) := by
  refine returns_spbBroadcast hs fun t ht => returns_spbPropose ht p fun t x ht hx hp => ?_
  exact returns_spbVote hU hr ht (hx.trans hv) fun hne => absurd (hp.trans hphase) hne

theorem returns_handleSpbVote (hs : s.Within U) {x : SPBVote} (hx : x.round = r) :
    Returns cfg s (.handleSpbVote x) :=
  returns_spbVote hU hr hs hx fun _ _ _ p ht hv hphase =>
    returns_lockedBroadcast hU hr ht p hv hphase

theorem returns_processSpbPropose (hs : s.Within U) {v : SPBValue} (p : SPBProof)
    (hv : v.round = r) : Returns cfg s (.processSpbPropose v p) :=
  returns_spbPropose hs p fun _ _ ht hx _ => returns_handleSpbVote hU hr ht (hx.trans hv)

theorem returns_broadcastPesPropose (hs : s.Within U) {v : SPBValue} (p : SPBProof)
    (hv : v.round = r) : Returns cfg s (.broadcastPesPropose v p) :=
  returns_spbBroadcast hs fun _ ht => returns_processSpbPropose hU hr ht p hv

theorem returns_roundAdvance (hs : s.Within U) (height : ℕ) :
    Returns cfg s (.smvbaRoundAdvance height r) := by
  refine returns_of (hs.update_bind (ahead_same rfl rfl rfl rfl) fun hs => halts_self_bind ?_)
  cases Map.get _ (height, 1) with
  | none => exact halts_plain (plain_pure _)
  | some last =>
    refine hs.plain_bind (plain_emit _) fun _ _ _ hs =>
      halts_look_bind (plain_add _ _) fun _ _ => ?_
    refine hs.plain_bind (plain_generateProposal _ _ _ _) fun _ _ _ hs => halts_expect ?_
    exact returns_broadcastPesPropose hU hr hs _ rfl

end Round

/-- The rounds are numbered in 64 bits. -/
theorem returns_smvbaRoundAdvance : ∀ (k : ℕ) {r : ℕ}, 2 ^ 64 ≤ r + k → ∀ (height : ℕ) (s : Core),
    s.Within U → Returns cfg s (.smvbaRoundAdvance height r)
  | 0, _, hk, height, s, hs => returns_roundAdvance hU (fun hr => absurd hr (by omega)) hs height
  | k + 1, _, hk, height, s, hs =>
    returns_roundAdvance hU (fun _ => returns_smvbaRoundAdvance k (by omega)) hs height

theorem returns_nextRound (r : ℕ) (_ : r + 1 < 2 ^ 64) (height : ℕ) (s : Core) (hs : s.Within U) :
    Returns cfg s (.smvbaRoundAdvance height (r + 1)) :=
  returns_smvbaRoundAdvance hU (2 ^ 64) (by omega) height s hs

theorem returns_invokeSmvba (hs : s.Within U) (height val : ℕ)
    (signatures : List (PublicKey × Signature))
    (qc : Option QC) : Returns cfg s (.invokeSmvba height val signatures qc) := by
  refine returns_of (hs.update_bind (ahead_same rfl rfl rfl rfl) fun hs => halts_self_bind ?_)
  refine halts_ite (fun _ => halts_plain (plain_pure _)) fun _ => ?_
  refine hs.update_bind (ahead_same rfl rfl rfl rfl) fun hs =>
    hs.plain_bind (plain_smvbaBlock _ _ _) ?_
  intro block t _ ht
  refine ht.update_bind (ahead_same rfl rfl rfl rfl) fun hs => halts_self_bind ?_
  exact returns_broadcastPesPropose hU (returns_nextRound hU _) hs _ rfl

theorem returns_handleSmvbaDoneWithShare (hs : s.Within U) (m : MDoneAndShare) :
    Returns cfg s (.handleSmvbaDoneWithShare m) :=
  returns_of (hs.bind (returns_handleSmvbaDone hU (returns_nextRound hU _) hs rfl) fun _ _ ht =>
    returns_handleSmvbaRs hU (returns_nextRound hU _) ht rfl)

/-! ### The fallback chain -/

theorem halts_countPesPrepare (hs : s.Within U) (p : PrePare) :
    Halts Ahead Cyclic s fun n => countPesPrepare cfg (exec cfg n) p := by
  refine halts_self_bind (halts_look_bind (plain_ensureM _ _) fun _ _ => ?_)
  refine hs.update_bind (ahead_same rfl rfl rfl rfl) fun hs => halts_when fun _ => ?_
  refine hs.update_bind (ahead_same rfl rfl rfl rfl) fun hs => halts_self_bind ?_
  cases Map.getD _ (p.height, cfg.parameters.fallbackLength) none with
  | none => exact halts_plain (plain_pure _)
  | some qc => exact returns_invokeSmvba hU hs _ _ _ _

theorem returns_prepare (hs : s.Within U) {p : PrePare}
    (hopt : p.val = OPT → ∀ t : Core, t.Within U →
    Halts Ahead Cyclic t fun n => countOptPrepare cfg (exec cfg n) p) :
    Returns cfg s (.handleParPrepare p) := by
  refine returns_of (halts_self_bind (halts_look_bind (plain_ensureM _ _) fun _ _ => ?_))
  refine halts_look_bind (plain_add _ _) fun _ _ =>
    halts_look_bind (plain_ensureM _ _) fun _ _ => ?_
  refine halts_look_bind (plain_check _) fun _ _ =>
    hs.update_bind (ahead_same rfl rfl rfl rfl) fun hs => ?_
  refine halts_ite (fun h => hopt h _ hs) fun _ => halts_ite (fun _ => ?_) fun _ =>
    halts_plain (plain_fail _)
  exact halts_countPesPrepare hU hs p

omit hU in
theorem returns_preparePhase (hs : s.Within U) (height : ℕ) (qc : QC) {val : ℕ}
    (hp : ∀ (t : Core) (p : PrePare), t.Within U → p.val = val → Returns cfg t
      (.handleParPrepare p)) :
    Returns cfg s (.activePreparePhase height qc val) := by
  refine returns_of (halts_self_bind (halts_ite (fun _ => halts_plain (plain_pure _)) fun _ => ?_))
  refine hs.update_bind (ahead_same rfl rfl rfl rfl) fun hs =>
    hs.plain_bind (plain_transmit _ _ _) ?_
  exact fun _ _ _ hs => hp _ _ hs rfl

theorem returns_pesPreparePhase (hs : s.Within U) (height : ℕ) (qc : QC) :
    Returns cfg s (.activePreparePhase height qc PES) :=
  returns_preparePhase hs height qc fun t p ht hp => returns_prepare hU ht fun hopt => by
    cases hp.symm.trans hopt

/-- A vote of the last round of the chain, or of one after which the chain goes on. -/
theorem returns_fallbackVote (hs : s.Within U) {x : HVote}
    (hnext : x.round < cfg.parameters.fallbackLength → ∀ (t : Core) (b : Block), t.Within U →
      b.round = x.round + 1 → Returns cfg t (.broadcastFallbackPropose b)) :
    Returns cfg s (.handleFallbackVote x) := by
  refine returns_of (halts_look_bind (plain_fallbackMessageFilter _ _) fun _ _ => ?_)
  refine halts_look_bind (plain_ensureM _ _) fun _ _ =>
    halts_look_bind (plain_check _) fun _ _ => ?_
  refine hs.plain_bind (plain_collect _ _) fun qc t hrun ht => ?_
  cases qc with
  | none => exact halts_plain (plain_pure _)
  | some qc =>
    obtain ⟨-, hqc, -⟩ := QCMaker.append_some (collect_some hrun).1
    have hround : qc.round = x.round := by rw [hqc]; rfl
    refine ht.update_bind (ahead_same rfl rfl rfl rfl) fun hs => ?_
    refine halts_ite (fun _ => ?_) fun _ => halts_plain (plain_pure _)
    refine halts_ite (fun hlt => ?_) fun _ => halts_ite (fun _ => ?_) fun _ =>
      halts_plain (plain_pure _)
    · refine halts_look_bind (plain_add _ _) fun round hr =>
        hs.plain_bind (plain_generateProposal _ _ _ _) ?_
      intro block u hgen hu
      obtain ⟨⟨payload, rfl⟩, -⟩ := generateProposal_ok hgen
      obtain ⟨rfl, -⟩ := add_ok hr
      exact hnext (hround ▸ hlt) u _ hu (congrArg (· + 1) hround)
    · exact returns_pesPreparePhase hU hs _ _

omit hU in
theorem makeFallbackVote_round {b : Block} {x : HVote}
    (h : makeFallbackVote cfg b s = (.ok (some x), t)) : x.round = b.round := by
  obtain ⟨s₁, _, h₁, h⟩ := bind_ok h
  cases h₁
  obtain ⟨n, _, h₂, h⟩ := bind_ok h
  cases (reads_add _ _).eq h₂
  split at h
  · cases h
  · cases h
    rfl

omit hU in
theorem returns_fallbackPropose (hs : s.Within U) {b : Block}
    (hvote : ∀ (t : Core) (x : HVote), t.Within U → x.round = b.round →
      Returns cfg t (.handleFallbackVote x)) :
    Returns cfg s (.processFallbackPropose b) := by
  refine returns_of (halts_look_bind (plain_fallbackMessageFilter _ _) fun _ _ => ?_)
  refine halts_look_bind (plain_ensureM _ _) fun _ _ => hs.plain_bind (plain_emit _)
    fun _ _ _ hs => ?_
  refine hs.plain_bind (plain_storeBlock _) fun _ _ _ hs =>
    hs.plain_bind (plain_makeFallbackVote _) ?_
  intro vote t hrun ht
  cases vote with
  | none => exact halts_plain (plain_pure _)
  | some x =>
    refine halts_ite (fun _ => ?_) fun _ => halts_plain (plain_transmit _ _ _)
    exact ht.plain_bind (plain_emit _) fun _ _ _ hs => hvote _ _ hs (makeFallbackVote_round hrun)

omit hU in
theorem returns_fallbackBroadcast (hs : s.Within U) {b : Block}
    (hpropose : ∀ t : Core, t.Within U → Returns cfg t (.processFallbackPropose b)) :
    Returns cfg s (.broadcastFallbackPropose b) := by
  refine returns_of (hs.update_bind (ahead_same rfl rfl rfl rfl) fun hs => halts_self_bind ?_)
  refine halts_ite (fun _ => halts_plain (plain_pure _)) fun _ => ?_
  exact hs.plain_bind (plain_transmit _ _ _) fun _ _ _ hs => hpropose _ hs

/-- A chain has `fallback_length` rounds. -/
theorem returns_chain : ∀ (k : ℕ) (b : Block), cfg.parameters.fallbackLength ≤ b.round +
    k → ∀ s : Core, s.Within U → Returns cfg s (.broadcastFallbackPropose b)
  | 0, b, hk, s, hs => by
    refine returns_fallbackBroadcast hs fun t ht => returns_fallbackPropose ht fun t x ht hx => ?_
    exact returns_fallbackVote hU ht fun hlt => absurd hlt (by omega)
  | k + 1, b, hk, s, hs => by
    refine returns_fallbackBroadcast hs fun t ht => returns_fallbackPropose ht fun t x ht hx => ?_
    refine returns_fallbackVote hU ht fun _ u b' hu hb' => returns_chain k b' ?_ u hu
    omega

end Agreement

theorem returns_broadcastFallbackPropose (U : Finset ℕ) : ∀ s : Core, s.Within U → ∀ b,
    Returns cfg s (.broadcastFallbackPropose b) :=
  Finset.strongInduction
    (p := fun U => ∀ s : Core, s.Within U → ∀ b, Returns cfg s (.broadcastFallbackPropose b))
    (fun _ ih s hs b => returns_chain ih cfg.parameters.fallbackLength b (by omega) s hs) U

/-! ### Any call -/

theorem Keyed.within (h : s.Keyed) (hs : s.Hashed) : s.Within (Finset.range (2 ^ 64)) :=
  ⟨fun _ hk _ => Finset.mem_range.mpr hk, h, hs⟩

variable (cfg) in
theorem returns_earlierFallbacks (U : Finset ℕ) (V : Finset ℕ) (_ : V ⊂ U) (s : Core)
    (hs : s.Within V) (b : Block) : Returns cfg s (.broadcastFallbackPropose b) :=
  returns_broadcastFallbackPropose V s hs b

variable {U : Finset ℕ}

theorem returns_handleFallbackVote (hs : s.Within U) (x : HVote) :
    Returns cfg s (.handleFallbackVote x) :=
  returns_fallbackVote (returns_earlierFallbacks cfg U) hs fun _ t b ht _ =>
    returns_broadcastFallbackPropose U t ht b

theorem returns_processFallbackPropose (hs : s.Within U) (b : Block) :
    Returns cfg s (.processFallbackPropose b) :=
  returns_fallbackPropose hs fun _ x ht _ => returns_handleFallbackVote ht x

theorem returns_invokeFallback (hs : s.Within U) (height : ℕ) (qc : Option QC) :
    Returns cfg s (.invokeFallback height qc) :=
  returns_freshFallback hs qc fun _ t b ht => returns_broadcastFallbackPropose _ t ht b

theorem returns_handleFallbackPropose (hs : s.Within U) (b : Block) :
    Returns cfg s (.handleFallbackPropose b) := by
  refine returns_of (halts_look_bind (plain_fallbackMessageFilter _ _) fun _ _ => ?_)
  refine halts_look_bind (plain_ensureM _ _) fun _ _ =>
    halts_look_bind (plain_check _) fun _ _ => ?_
  refine halts_self_bind (halts_ite (fun _ => ?_) fun _ => ?_)
  · exact hs.update_bind (ahead_same rfl rfl rfl rfl) fun _ => halts_plain (plain_fail _)
  · refine hs.plain_bind (plain_mempoolVerify _ _) fun _ _ _ hs => ?_
    exact halts_ite (fun _ => returns_processFallbackPropose hs b) fun _ =>
      halts_plain (plain_pure _)

theorem returns_handleSpbProposal (hs : s.Within U) (v : SPBValue) (p : SPBProof) :
    Returns cfg s (.handleSpbProposal v p) := by
  refine returns_of (halts_look_bind (plain_smvbaMsgFilter _ _) fun _ _ => ?_)
  refine halts_look_bind (plain_ensureM _ _) fun _ _ =>
    halts_look_bind (plain_check _) fun _ _ => ?_
  refine halts_self_bind (halts_ite (fun _ => ?_) fun _ => ?_)
  · exact hs.update_bind (ahead_same rfl rfl rfl rfl) fun _ => halts_plain (plain_fail _)
  · have hU := returns_earlierFallbacks cfg U
    exact returns_processSpbPropose hU (returns_nextRound hU _) hs p rfl

theorem halts_countOptPrepare (hs : s.Within U) (p : PrePare) :
    Halts Ahead Cyclic s fun n => countOptPrepare cfg (exec cfg n) p := by
  refine halts_self_bind (halts_look_bind (plain_ensureM _ _) fun _ _ => ?_)
  refine hs.update_bind (ahead_same rfl rfl rfl rfl) fun hs =>
    hs.bind (halts_when fun _ => ?_) fun _ _ hs =>
    returns_invokeSmvba (returns_earlierFallbacks cfg U) hs _ _ _ _
  refine hs.bind (halts_self_bind ?_) fun _ _ hs => halts_when fun _ =>
    halts_self_bind (halts_plain (plain_terminateSmvba _ _ _))
  cases Map.get _ p.qc.hash with
  | none => exact halts_plain (plain_pure _)
  | some b => exact halts_when fun _ => halts_commitAndSend hs.hashed _ _

theorem returns_handleParPrepare (hs : s.Within U) (p : PrePare) :
    Returns cfg s (.handleParPrepare p) :=
  returns_prepare (returns_earlierFallbacks cfg U) hs fun _ _ ht => halts_countOptPrepare ht p

theorem returns_activePreparePhase (hs : s.Within U) (height : ℕ) (qc : QC) (val : ℕ) :
    Returns cfg s (.activePreparePhase height qc val) :=
  returns_preparePhase hs height qc fun _ p ht _ => returns_handleParPrepare ht p

/-! ### The optimistic path -/

/-- A vote completes a certificate of its own height. -/
theorem returns_optVote (hs : s.Within U) {x : HVote}
    (hnext : ∀ t : Core, t.Within U → s.height < t.height →
    t.height < 2 ^ 64 → Returns cfg t .optPropose) : Returns cfg s (.handleOptVote x) := by
  refine returns_of (halts_self_bind (halts_ite (fun _ => halts_plain (plain_pure _))
    fun hlow => ?_))
  refine halts_look_bind (plain_add _ _) fun next hn => ?_
  refine halts_look_bind (plain_indexAsLeader _ _) fun idx _ => ?_
  refine halts_look_bind (plain_ensureM _ _) fun _ _ =>
    halts_look_bind (plain_ofExcept _) fun _ _ => ?_
  refine hs.plain_bind (plain_collect _ _) fun qc t hrun ht => ?_
  cases qc with
  | none => exact halts_plain (plain_pure _)
  | some qc =>
    obtain ⟨-, hbound⟩ := add_ok hn
    obtain ⟨-, hqc, -⟩ := QCMaker.append_some (collect_some hrun).1
    have hheight : qc.height = x.height := by rw [hqc]; rfl
    have hsame : t.height = s.height := by
      have hcollect := collect_height (s := s)
        (fun a => a.addHsVote x cfg.committee) Event.assembled
      rwa [hrun] at hcollect
    refine ht.plain_bind (plain_processQc _) fun _ u hqc hu => ?_
    rw [processQc_run (.inr (by omega))] at hqc
    cases hqc
    have hreached := adopt_height t qc
    cases idx with
    | none => exact halts_plain (plain_pure _)
    | some i =>
      cases i with
      | zero => exact hnext _ hu (by omega) (by omega)
      | succ i => exact halts_plain (plain_resetTimer _)

theorem halts_optPrepareSection (hs : s.Within U) (b : Block) :
    Halts Ahead Cyclic s fun n => optPrepareSection cfg (exec cfg n) b := by
  have hclean : Plain Ahead s (when (cfg.pesPath = true ∧ b.height > 2) do
      let s ← self
      terminateSmvba (← sub s.height 2) s.height (.block b) : M Unit) :=
    plain_when (plain_bind plain_self fun _ _ _ =>
      plain_bind (plain_ahead (plain_sub _ _)) fun _ _ _ =>
      plain_terminateSmvba _ _ _)
  refine hs.plain_bind hclean fun _ _ _ hs => ?_
  refine hs.bind (halts_when fun _ => returns_activePreparePhase hs _ _ _) fun _ _ hs => ?_
  exact halts_when fun _ => returns_invokeFallback hs _ _

theorem halts_optCommitSection (hs : s.Hashed) (b b0 b1 : Block) :
    Halts Ahead Cyclic s fun n => optCommitSection (exec cfg n) b b0 b1 := by
  refine halts_look_bind (plain_add _ _) fun _ _ => halts_look_bind (plain_add _ _) fun _ _ => ?_
  refine halts_look_bind (plain_ensureM _ _) fun _ _ => halts_self_bind (halts_when fun _ => ?_)
  exact halts_commitAndSend hs _ _

theorem halts_optVoteSection (b : Block)
    (hvote : ∀ (t : Core) (x : HVote), Ahead s t → Returns cfg t (.handleOptVote x)) :
    Halts Ahead Cyclic s fun n => optVoteSection cfg (exec cfg n) b := by
  refine halts_self_bind (halts_when fun _ => halts_plain_bind (plain_makeOptVote _)
    fun vote t _ ht => ?_)
  cases vote with
  | none => exact halts_plain (plain_pure _)
  | some x =>
    refine halts_look_bind (plain_add _ _) fun next _ => ?_
    refine halts_plain_bind (plain_sendVote _ _) fun _ u _ hu => ?_
    refine halts_look_bind (plain_indexAsLeader _ _) fun idx _ => halts_when fun _ => ?_
    exact halts_plain_bind (plain_emit _) fun _ w _ hw => hvote w x ((ht.trans hu).trans hw)

theorem returns_optBlock (hs : s.Within U) (b : Block)
    (hvote : ∀ (t : Core) (x : HVote), t.Within U →
    s.height ≤ t.height → Returns cfg t (.handleOptVote x)) : Returns cfg s
    (.processOptBlock b) := by
  refine returns_of (halts_self_bind (halts_plain_bind (plain_emit _) fun _ t₁ _ h₁ => ?_))
  refine halts_look_bind (plain_indexAsLeader _ _) fun idx _ => ?_
  refine halts_plain_bind (plain_when (plain_resetTimer _)) fun _ t₂ _ h₂ => ?_
  refine halts_plain_bind (plain_getAncestors b) fun ancestors t₃ _ h₃ => ?_
  have h₁₃ : Ahead s t₃ := (h₁.trans h₂).trans h₃
  cases ancestors with
  | none => exact halts_plain (plain_pure _)
  | some x =>
    refine halts_plain_bind (plain_storeBlock b) fun _ t₄ _ h₄ => ?_
    have hs₄ : t₄.Within U := hs.mono (h₁₃.trans h₄)
    refine halts_bind (halts_optPrepareSection hs₄ b) fun _ t₅ h₅ => ?_
    refine halts_bind (halts_optCommitSection (hs₄.mono h₅).hashed b x.1 x.2) fun _ t₆ h₆ => ?_
    refine halts_optVoteSection b fun t y h => ?_
    have hall : Ahead s t := (((h₁₃.trans h₄).trans h₅).trans h₆).trans h
    exact hvote t y (hs.mono hall) hall.height

theorem returns_optProposal (hs : s.Within U)
    (hblock : ∀ (t : Core) (b : Block), t.Within U → s.height ≤ t.height →
      Returns cfg t (.processOptBlock b)) :
    Returns cfg s .optPropose := by
  refine returns_of (halts_self_bind (halts_look_bind (plain_indexAsLeader _ _) fun idx _ => ?_))
  cases idx with
  | none => exact halts_plain (plain_crash _)
  | some i =>
    refine halts_plain_bind (plain_generateProposal _ _ _ _) fun b t _ ht => ?_
    refine halts_plain_bind (plain_transmit _ _ _) fun _ u _ hu => ?_
    exact hblock u b (hs.mono (ht.trans hu)) (ht.trans hu).height

variable (cfg) in
/-- The heights are numbered in 64 bits, too. -/
theorem returns_optPath : ∀ (k : ℕ) (s : Core), 2 ^ 64 ≤ s.height + k → s.Within U →
    (∀ x, Returns cfg s (.handleOptVote x)) ∧ (∀ b, Returns cfg s (.processOptBlock b)) ∧
      Returns cfg s .optPropose := by
  have hpath : ∀ k,
      (∀ (s : Core) (x : HVote), 2 ^ 64 ≤ s.height + k → s.Within U → Returns cfg s
      (.handleOptVote x)) →
      ∀ s : Core, 2 ^ 64 ≤ s.height + k → s.Within U → (∀ x, Returns cfg s (.handleOptVote x)) ∧
        (∀ b, Returns cfg s (.processOptBlock b)) ∧ Returns cfg s .optPropose := by
    intro k hvote s hk hs
    have hblock : ∀ (t : Core) (b : Block), t.Within U → s.height ≤ t.height →
        Returns cfg t (.processOptBlock b) :=
      fun t b ht hle => returns_optBlock ht b fun u x hu hle' => hvote u x (by omega) hu
    exact ⟨fun x => hvote s x hk hs, fun b => hblock s b hs le_rfl, returns_optProposal hs hblock⟩
  intro k
  induction k with
  | zero =>
    exact hpath 0 fun s x hk hs => returns_optVote hs fun t _ hlt hbound => absurd hbound (by omega)
  | succ k ih =>
    refine hpath (k + 1) fun s x hk hs => returns_optVote hs fun t ht hlt _ => ?_
    exact (ih t (by omega) ht).2.2

theorem returns_handleOptProposal (hs : s.Within U) (b : Block) :
    Returns cfg s (.handleOptProposal b) := by
  refine returns_of (halts_self_bind (halts_ite (fun _ => halts_plain (plain_pure _)) fun _ => ?_))
  refine halts_ite (fun _ => ?_) fun _ => ?_
  · exact hs.update_bind (ahead_same rfl rfl rfl rfl) fun _ => halts_plain (plain_fail _)
  refine halts_look_bind (plain_indexAsLeader _ _) fun _ _ => ?_
  refine halts_look_bind (plain_ensureM _ _) fun _ _ => ?_
  refine halts_look_bind (plain_ofExcept _) fun _ _ => hs.plain_bind (plain_emit _)
    fun _ _ _ hs => ?_
  have hclean : ∀ {t : Core}, Plain Ahead t (when (cfg.pesPath = true ∧ b.height > 2) do
      let s ← self
      terminateSmvba (b.height - 2) (s.heightAfter b.qc) (.proposal b) : M Unit) :=
    plain_when (plain_bind plain_self fun _ _ _ => plain_terminateSmvba _ _ _)
  refine hs.plain_bind hclean fun _ _ _ hs => hs.plain_bind (plain_processQc _) fun _ _ _ hs => ?_
  refine hs.plain_bind (plain_mempoolVerify _ _) fun _ t _ hs => ?_
  refine halts_ite (fun _ => ?_) fun _ => halts_plain (plain_pure _)
  exact (returns_optPath cfg (2 ^ 64) t (by omega) hs).2.1 b

/-- Every call returns, unless it is caught in a cycle of the store. -/
theorem returns_call (hk : s.Keyed) (hh : s.Hashed) (c : Call) : Returns cfg s c := by
  have hs := hk.within hh
  have hU := returns_earlierFallbacks cfg (Finset.range (2 ^ 64))
  have hopt := returns_optPath cfg (2 ^ 64) s (by omega) hs
  cases c with
  | commit b => exact returns_commit hh b
  | optPropose => exact hopt.2.2
  | handleOptProposal b => exact returns_handleOptProposal hs b
  | processOptBlock b => exact hopt.2.1 b
  | handleOptVote x => exact hopt.1 x
  | handleSyncRequest d k => exact returns_of (halts_plain (plain_handleSyncRequest d k))
  | invokeFallback h q => exact returns_invokeFallback hs h q
  | broadcastFallbackPropose b => exact returns_broadcastFallbackPropose _ s hs b
  | handleFallbackVote x => exact returns_handleFallbackVote hs x
  | handleFallbackPropose b => exact returns_handleFallbackPropose hs b
  | processFallbackPropose b => exact returns_processFallbackPropose hs b
  | activePreparePhase h q v => exact returns_activePreparePhase hs h q v
  | handleParPrepare p => exact returns_handleParPrepare hs p
  | smvbaRoundAdvance h r => exact returns_smvbaRoundAdvance hU (2 ^ 64) (by omega) h s hs
  | invokeSmvba h v sigs q => exact returns_invokeSmvba hU hs h v sigs q
  | broadcastPesPropose v p =>
    exact returns_broadcastPesPropose hU (returns_nextRound hU _) hs p rfl
  | handleSpbProposal v p => exact returns_handleSpbProposal hs v p
  | processSpbPropose v p => exact returns_processSpbPropose hU (returns_nextRound hU _) hs p rfl
  | handleSpbVote x => exact returns_handleSpbVote hU (returns_nextRound hU _) hs rfl
  | handleSpbFinish v p => exact returns_handleSpbFinish hU (returns_nextRound hU _) hs v rfl
  | invokeDoneAndShare h r =>
    exact returns_share hs fun _ m ht _ _ _ => returns_handleSmvbaDoneWithShare hU ht m
  | handleSmvbaDoneWithShare m => exact returns_handleSmvbaDoneWithShare hU hs m
  | handleSmvbaDone m => exact returns_handleSmvbaDone hU (returns_nextRound hU _) hs rfl
  | handleSmvbaRs x => exact returns_handleSmvbaRs hU (returns_nextRound hU _) hs rfl
  | handleSmvbaPrevote m => exact returns_handleSmvbaPrevote hU (returns_nextRound hU _) hs rfl
  | handleSmvbaMvote m => exact returns_handleSmvbaMvote hU (returns_nextRound hU _) hs rfl
  | handleSmvbaHalt m => exact returns_handleSmvbaHalt hU hs m
  | processParOut b => exact returns_processParOut hU hs b

/-! ### The event loop -/

theorem halts_boot (hk : s.Keyed) (hh : s.Hashed) : Halts Ahead Cyclic s fun n =>
    boot cfg (exec cfg n) := by
  refine halts_bind (halts_when fun _ =>
    halts_self_bind (halts_look_bind (plain_indexAsLeader _ _) ?_)) ?_
  · intro idx _
    cases idx with
    | none => exact halts_plain (plain_pure _)
    | some i =>
      cases i with
      | zero => exact halts_ignoreErr (returns_call hk hh _)
      | succ i => exact halts_plain (plain_resetTimer _)
  · intro _ t ht
    refine halts_when fun _ => halts_self_bind (halts_expect ?_)
    exact returns_call (ht.keyed hk) (ht.hashed hh) _

variable (cfg) in
theorem halts_handle (hk : s.Keyed) (hh : s.Hashed) (i : Input) :
    Halts Ahead Cyclic s fun n => handle cfg n i := by
  cases i with
  | boot => exact halts_boot hk hh
  | core m =>
    change Halts Ahead Cyclic s fun n => (coreCall m).elim (pure ()) (exec cfg n)
    cases coreCall m with
    | none => exact halts_plain (plain_pure _)
    | some c => exact returns_call hk hh c
  | smvba m =>
    change Halts Ahead Cyclic s fun n => (smvbaCall m).elim (pure ()) (exec cfg n)
    cases smvbaCall m with
    | none => exact halts_plain (plain_pure _)
    | some c => exact returns_call hk hh c
  | timer => exact returns_call hk hh .optPropose

/-- Nothing is asked of the state after a turn: an epoch starts below the height that the last
one reached. -/
def Anyhow (_ _ : Core) : Prop := True

instance : Std.Refl Anyhow := ⟨fun _ => trivial⟩

instance : IsTrans Core Anyhow := ⟨fun _ _ _ _ _ => trivial⟩

theorem halts_anyhow {x : ℕ → M Unit} (h : Halts Ahead Cyclic s x) : Halts Anyhow Cyclic s x :=
  h.mono fun _ _ => trivial

variable (cfg) in
theorem halts_nextEpoch (hh : s.Hashed) : Halts Anyhow Cyclic s fun n => nextEpoch cfg n := by
  refine halts_self_bind (halts_look_bind (plain_add _ _) fun epoch _ =>
    halts_update_bind trivial fun _ => ?_)
  obtain ⟨marks, rest, heq, -, -⟩ := drain_eq s.unhandleMessage (s.epochInit epoch)
  rw [heq]
  refine halts_anyhow (halts_boot ?_ hh)
  intro key v hv
  cases hv

variable (cfg) in
theorem halts_react (hk : s.Keyed) (hh : s.Hashed) (i : Input) :
    Halts Anyhow Cyclic s fun n => react cfg n i := by
  have harrival : (arrival s i).Keyed ∧ (arrival s i).Hashed := by
    cases i <;> exact ⟨hk, hh⟩
  cases halts_handle cfg harrival.1 harrival.2 i with
  | loops hx =>
    refine .loops (hx.mono fun n hn => ?_)
    obtain ⟨ho, hl⟩ := hn
    unfold react
    cases hrun : handle cfg n i (arrival s i) with
    | mk o t =>
      rw [hrun] at ho hl
      cases ho
      exact ⟨rfl, hl⟩
  | @stops o t ho hr hx =>
    cases o with
    | ok a =>
      refine .stops (o := .ok a) (t := t) (by simp) trivial (hx.mono fun n hn => ?_)
      unfold react
      rw [hn]
    | panic p =>
      refine .stops (o := .panic p) (t := t) (by simp) trivial (hx.mono fun n hn => ?_)
      unfold react
      rw [hn]
    | exhausted => exact absurd rfl ho
    | err e =>
      by_cases hend : ∃ k, e = .EpochEnd k
      · obtain ⟨k, rfl⟩ := hend
        have hnext : ∀ n, handle cfg n i (arrival s i) = (.err (.EpochEnd k), t) →
            react cfg n i s = nextEpoch cfg n t := by
          intro n hn
          unfold react
          rw [hn]
        cases halts_nextEpoch cfg (hr.hashed harrival.2) with
        | @stops o' t' ho' _ hx' =>
          refine .stops (t := t') ho' trivial ?_
          filter_upwards [hx, hx'] with n hn hn'
          rw [hnext n hn, hn']
        | loops hx' =>
          refine .loops ?_
          filter_upwards [hx, hx'] with n hn hn'
          rwa [hnext n hn]
      · refine .stops (o := .ok ()) (t := t) (by simp) trivial (hx.mono fun n hn => ?_)
        unfold react
        rw [hn]
        cases e <;> first | rfl | exact absurd ⟨_, rfl⟩ hend

theorem Reachable.keyed {alive : Bool} (h : Reachable cfg s alive) : s.Keyed := by
  refine (h.invariant (P := Keyed) (C := fun _ => True) (fun _ _ _ h => h) ?_ ?_ ?_).2 trivial
  · intro key v hv
    cases hv
  · exact fun s m hs _ => hs
  · intro s t _ hs _ ht
    cases ht with
    | step ht =>
      intro key v hv
      rcases ht.proposes hv with hv | ⟨-, -, -, -, hkey, -⟩
      · exact hs key v hv
      · rw [hkey]
    | epoch _ ht =>
      obtain ⟨marks, rest, heq, -, -⟩ := renewed_eq s
      rw [ht, heq]
      intro key v hv
      cases hv

/-- The reaction to an input comes to an end, whatever the node has been sent before, and
from some depth of the calls on it is the same one; or else the loop of `commit` goes round a
cycle of digests. -/
theorem Reachable.turn_ends {alive : Bool} (h : Reachable cfg s alive) (i : Input) :
    (∃ fuel o t, o ≠ .exhausted ∧ ∀ n, fuel ≤ n → Core.react cfg n i s = (o, t)) ∨
      ∃ fuel, ∀ n, fuel ≤ n → (Core.react cfg n i s).1 = .exhausted ∧
      (Core.react cfg n i s).2.Cyclic := by
  cases halts_react cfg h.keyed (fun d p hd => (h.storeOk d p hd).1) i with
  | @stops o t ho _ hx =>
    obtain ⟨fuel, hfuel⟩ := Filter.eventually_atTop.mp hx
    exact .inl ⟨fuel, o, t, ho, hfuel⟩
  | loops hx =>
    obtain ⟨fuel, hfuel⟩ := Filter.eventually_atTop.mp hx
    exact .inr ⟨fuel, hfuel⟩

end Turns

/-! ### A proposal that comes twice -/

theorem turn_ends_atProposal : ∃ s, Reachable (sampleConfig 0) s true ∧
    s.store.get leaderProposal.digest = some leaderProposal ∧
    ((∃ fuel o t, o ≠ .exhausted ∧ ∀ n, fuel ≤ n →
        react (sampleConfig 0) n (.core (.HsPropose leaderProposal)) s = (o, t)) ∨
      ∃ fuel, ∀ n, fuel ≤ n →
        (react (sampleConfig 0) n (.core (.HsPropose leaderProposal)) s).1 = .exhausted ∧
          (react (sampleConfig 0) n (.core (.HsPropose leaderProposal)) s).2.Cyclic) := by
  obtain ⟨s, hr, hs⟩ := exists_replay (sampleConfig 0) [.boot, .core (.HsPropose leaderProposal)]
    (fun s => s.store.get leaderProposal.digest = some leaderProposal) (by decide +kernel)
  exact ⟨s, hr, hs, hr.turn_ends _⟩

end Ipotane.Core
