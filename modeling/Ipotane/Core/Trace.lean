import Ipotane.Core.ChainSmvba
import Ipotane.Core.Ending

/-! A node as a transition system: messages taken, steps, and new epochs. -/
namespace Ipotane.Core

open Lib Handler

variable [Crypto] {cfg : Config} {call : Call → M Unit} {s t : Core}

theorem chain_commit {b : Block} (hc : Sound cfg call) (hs : s.StoreOk)
    (hb : s.Ever (.store b) ∨ b = .genesis) : Chain cfg s (commit call b) := by
  rcases commit_tidy hc.commit hs hb with h | ⟨marks, h, hm⟩
  · exact fun hne => absurd h hne
  · exact steps_of_ok h (marks_chain hm)

theorem chain_body (hc : Sound cfg call) (c : Call) (hs : s.StoreOk) (hr : Ready cfg s c) :
    Chain cfg s (body cfg call c) := by
  cases c with
  | commit b => exact chain_commit hc hs hr
  | optPropose => exact chain_optPropose hc hs hr
  | handleOptProposal b => exact chain_handleOptProposal hc hs hr
  | processOptBlock b => exact chain_processOptBlock hc hs hr
  | handleOptVote v => exact chain_handleOptVote hc hs hr
  | handleSyncRequest d k => exact chain_handleSyncRequest hs
  | invokeFallback h q => exact chain_invokeFallback hc hs hr.1 hr.2
  | broadcastFallbackPropose b =>
    exact chain_broadcastFallbackPropose hc hs hr.1 hr.2.1 hr.2.2.1 hr.2.2.2
  | handleFallbackVote v => exact chain_handleFallbackVote hc hs hr.1 hr.2
  | handleFallbackPropose b => exact chain_handleFallbackPropose hc hs hr.1 hr.2
  | processFallbackPropose b => exact chain_processFallbackPropose hc hs hr.1 hr.2.1 hr.2.2
  | activePreparePhase h q v => exact chain_activePreparePhase hc hs hr.1 hr.2
  | handleParPrepare p => exact chain_handleParPrepare hc hs hr.1 hr.2
  | smvbaRoundAdvance h r =>
    obtain ⟨ha, hf, m, hm, rfl, rfl, hq⟩ := hr
    exact chain_smvbaRoundAdvance hc hs ha hf hm hq
  | invokeSmvba h v sigs q => exact chain_invokeSmvba hc hs hr.1 hr.2.1 hr.2.2.1 hr.2.2.2
  | broadcastPesPropose v p => exact chain_broadcastPesPropose hc hs hr.1 hr.2.1 hr.2.2
  | handleSpbProposal v p => exact chain_handleSpbProposal hc hs hr.1 hr.2
  | processSpbPropose v p => exact chain_processSpbPropose hc hs hr.1 hr.2.1 hr.2.2
  | handleSpbVote v => exact chain_handleSpbVote hc hs hr.1 hr.2
  | handleSpbFinish v p => exact chain_handleSpbFinish hc hs hr.1 hr.2
  | invokeDoneAndShare h r => exact chain_invokeDoneAndShare hc hs hr.1 hr.2.1 hr.2.2
  | handleSmvbaDoneWithShare m => exact chain_handleSmvbaDoneWithShare hc hs hr.1 hr.2
  | handleSmvbaDone m => exact chain_handleSmvbaDone hc hs hr.1 hr.2
  | handleSmvbaRs x => exact chain_handleSmvbaRs hc hs hr.1 hr.2
  | handleSmvbaPrevote m => exact chain_handleSmvbaPrevote hc hs hr.1 hr.2
  | handleSmvbaMvote m => exact chain_handleSmvbaMvote hc hs hr.1 hr.2
  | handleSmvbaHalt m => exact chain_handleSmvbaHalt hc hs hr.1 hr.2
  | processParOut b => exact chain_processParOut hc hs hr.1 hr.2.1 hr.2.2

theorem sound_exec : ∀ fuel, Sound cfg (exec cfg fuel)
  | 0 => ⟨fun _ _ _ _ => steps_exhaust, commitsTidily_exec 0⟩
  | fuel + 1 =>
    ⟨fun c _ hs hr => chain_body (sound_exec fuel) c hs hr, commitsTidily_exec (fuel + 1)⟩

theorem chain_boot (fuel : ℕ) (hs : s.StoreOk) : Chain cfg s (boot cfg (exec cfg fuel)) := by
  refine steps_bind (steps_when fun _ => steps_self_bind ?_) fun _ t _ ht => steps_when
    fun hpes => ?_
  · refine chain_ownIndex_bind ?_
    cases hidx : cfg.committee.indexAsLeader cfg.parameters.leaderWindow cfg.name s.height with
    | none => exact steps_pure _
    | some idx =>
      have hlead : s.Leads cfg := by
        unfold Leads
        rw [hidx]
        rfl
      cases idx with
      | zero => exact steps_ignoreErr ((sound_exec fuel).steps _ _ hs hlead)
      | succ idx => exact chain_resetTimer fun _ => hlead
  · refine steps_self_bind (steps_expect ((sound_exec fuel).steps _ _ (steps_storeOk ht hs) ?_)
      fun _ => .proposing)
    refine ⟨?_, .high rfl⟩
    rcases hpes with h | ⟨h, _⟩
    · exact .inr (.inl h)
    · exact .inl h

theorem ready_coreCall {m : ConsensusMessage} {c : Call} (h : coreCall m = some c)
    (hm : s.Did (.receive m)) : Ready cfg s c := by
  cases m <;> cases h
  · exact .inl hm
  · exact .inl hm
  · exact .loopback hm
  · trivial
  · exact .inr hm

theorem ready_smvbaCall {m : ConsensusMessage} {c : Call} (h : smvbaCall m = some c)
    (hm : s.Did (.receive m)) : Ready cfg s c := by
  have ha : s.PesActive cfg := .inr (.inr ⟨m, hm, by rw [h]; rfl⟩)
  cases m <;> cases h
  case FBPropose => exact ⟨ha, hm⟩
  case SPBPropose => exact ⟨ha, hm⟩
  case FBLoopBack => exact ⟨ha, .loopback hm, .loopback hm rfl⟩
  case ParLoopBack => exact ⟨ha, .inr hm, .loopback hm rfl⟩
  all_goals exact ⟨ha, .inl hm⟩

theorem StoreOk.arrival (hs : s.StoreOk) (i : Input) : (arrival s i).StoreOk := by
  cases i with
  | core m => exact hs.of_store (extends_log _) rfl
  | smvba m => exact hs.of_store (extends_log _) rfl
  | boot => exact hs
  | timer => exact hs

/-- A timer that fires while the node does not lead its height. -/
theorem handle_timer (fuel : ℕ) (hl : ¬ s.Leads cfg) :
    handle cfg fuel .timer s = (.exhausted, s) ∨ handle cfg fuel .timer s = (.panic .notLeader, s) ∨
      (cfg.name ∉ cfg.committee.sortedNames ∧
        handle cfg fuel .timer s = (.panic .unknownKey, s)) := by
  cases fuel with
  | zero => exact .inl rfl
  | succ fuel =>
    have hrun : handle cfg (fuel + 1) .timer s = optPropose cfg (exec cfg fuel) s := rfl
    rw [hrun]
    unfold optPropose
    rw [bind_run (x := self) rfl]
    by_cases hk : cfg.name ∈ cfg.committee.sortedNames
    · have hidx : indexAsLeader cfg cfg.name s.height s = (.ok none, s) := by
        unfold indexAsLeader
        rw [if_pos hk, Option.not_isSome_iff_eq_none.mp hl]
        rfl
      refine .inr (.inl ?_)
      rw [bind_run hidx]
      rfl
    · have hidx : indexAsLeader cfg cfg.name s.height s = (.panic .unknownKey, s) := by
        unfold indexAsLeader
        rw [if_neg hk]
        rfl
      refine .inr (.inr ⟨hk, ?_⟩)
      rw [bind_eq, andThen, hidx]

/-- A turn of the loop, but for a timer that fires while the node does not lead its height. -/
theorem chain_handle (fuel : ℕ) (i : Input) (hs : s.StoreOk) (ht : i = .timer → s.Leads cfg) :
    Chain cfg (arrival s i) (handle cfg fuel i) := by
  have hs' := hs.arrival i
  cases i with
  | boot => exact chain_boot fuel hs
  | timer => exact (sound_exec fuel).steps _ _ hs (ht rfl)
  | core m =>
    cases hc : coreCall m with
    | none =>
      rw [handle, hc]
      exact steps_pure _
    | some c =>
      rw [handle, hc]
      exact (sound_exec fuel).steps _ _ hs' (ready_coreCall hc List.mem_cons_self)
  | smvba m =>
    cases hc : smvbaCall m with
    | none =>
      rw [handle, hc]
      exact steps_pure _
    | some c =>
      rw [handle, hc]
      exact (sound_exec fuel).steps _ _ hs' (ready_smvbaCall hc List.mem_cons_self)

/-- Whatever the node is at, a turn of the loop is a sequence of steps. -/
theorem handle_steps {fuel : ℕ} {i : Input} (hs : s.StoreOk)
    (hne : (handle cfg fuel i (arrival s i)).1 ≠ .exhausted) :
    Relation.ReflTransGen (Step cfg) (arrival s i) (handle cfg fuel i (arrival s i)).2 := by
  by_cases ht : i = .timer → s.Leads cfg
  · exact (chain_handle fuel i hs ht hne).1
  · obtain ⟨rfl, hl⟩ := Classical.not_imp.mp ht
    change Relation.ReflTransGen _ s (handle cfg fuel .timer s).2
    rcases handle_timer fuel hl with h | h | ⟨-, h⟩
    all_goals
      rw [h]

/-! ### Epochs -/

/-- What ends an epoch: a `PES` output of the agreement, or a proposal of a later epoch. -/
def Ending (cfg : Config) (s : Core) : Prop :=
  s.Concluded ∨ ∃ m b, s.Did (.receive m) ∧ Believed cfg m b ∧ s.epoch < b.epoch

/-- The state that the next run starts from, before its first proposal. -/
def renewed (s : Core) : Core := (s.epochInit (s.epoch + 1)).drain s.unhandleMessage

/-- What a node does between two messages. -/
inductive Turn (cfg : Config) (s t : Core) : Prop
  | step (h : Step cfg s t)
  | epoch (h : s.Ending cfg) (ht : t = s.renewed)

theorem exec_ends {fuel : ℕ} {c : Call} {m : ConsensusMessage}
    (hm : coreCall m = some c ∨ smvbaCall m = some c) : EndsFor cfg m (exec cfg fuel c) := by
  by_cases hin : Inner c
  · exact Ends.endsFor (ends_exec fuel c hin) m
  cases fuel with
  | zero => exact raises_exhaust
  | succ fuel =>
    cases c with
    | handleOptProposal b =>
      refine endsFor_handleOptProposal fuel ?_
      rcases hm with hm | hm <;> cases m <;> cases hm <;> rfl
    | handleFallbackPropose b =>
      rcases hm with hm | hm <;> cases m <;> cases hm
      exact endsFor_handleFallbackPropose fuel
    | handleSpbProposal v p =>
      rcases hm with hm | hm <;> cases m <;> cases hm
      exact endsFor_handleSpbProposal fuel v p
    | _ => exact absurd trivial hin

theorem handle_ends {fuel : ℕ} {i : Input} {e : ConsensusError} (hs : s.StoreOk)
    (h : (handle cfg fuel i (arrival s i)).1 = .err e) (he : e.EndsEpoch) :
    (handle cfg fuel i (arrival s i)).2.Ending cfg := by
  have hext : Extends (arrival s i) (handle cfg fuel i (arrival s i)).2 :=
    steps_extends (handle_steps hs (by simp [h]))
  have hmsg : ∀ m c, (coreCall m = some c ∨ smvbaCall m = some c) →
      (arrival s i).Did (.receive m) → handle cfg fuel i = exec cfg fuel c →
      (handle cfg fuel i (arrival s i)).2.Ending cfg := by
    intro m c hm hd hrun
    rw [hrun] at h hext ⊢
    rcases exec_ends hm _ e h he with hout | ⟨b, hb, hlt⟩
    · exact .inl hout
    · exact .inr ⟨m, b, hext.did hd, hb, hlt⟩
  cases i with
  | boot => exact .inl (ends_boot fuel _ e h he)
  | timer => exact .inl (ends_exec fuel .optPropose trivial _ e h he)
  | core m =>
    cases hc : coreCall m with
    | none =>
      rw [handle, hc] at h
      cases h
    | some c => exact hmsg m c (.inl hc) List.mem_cons_self (by rw [handle, hc]; rfl)
  | smvba m =>
    cases hc : smvbaCall m with
    | none =>
      rw [handle, hc] at h
      cases h
    | some c => exact hmsg m c (.inr hc) List.mem_cons_self (by rw [handle, hc]; rfl)

/-- A message that the buffer keeps for a later epoch. -/
def Proposes : ConsensusMessage → Prop
  | .HsPropose _ | .SPBPropose _ _ | .FBPropose _ => True
  | _ => False

theorem drain_eq (l : List (ℕ × ConsensusMessage)) (s : Core) :
    ∃ marks rest, s.drain l = { s with unhandleMessage := rest, trace := marks ++ s.trace } ∧
      (∀ x ∈ marks, ∃ m, x = (s.epoch, .requeue m) ∧ (s.epoch, m) ∈ l ∧ Proposes m) ∧ rest ⊆ l := by
  induction l generalizing s with
  | nil => exact ⟨[], [], rfl, by simp, by simp⟩
  | cons x l ih =>
    obtain ⟨e, m⟩ := x
    unfold drain
    split
    · rename_i he
      have hnext : ∀ m, Proposes m → ∃ marks rest, (s.log (.requeue m)).drain l =
          { s with unhandleMessage := rest, trace := marks ++ s.trace } ∧
          (∀ x ∈ marks, ∃ m', x = (s.epoch, .requeue m') ∧ (s.epoch, m') ∈ (e, m) :: l ∧
            Proposes m') ∧
          rest ⊆ (e, m) :: l := by
        intro m hm
        obtain ⟨marks, rest, heq, hmarks, hrest⟩ := ih (s.log (.requeue m))
        refine ⟨marks ++ [(s.epoch, .requeue m)], rest, ?_, ?_, fun x hx =>
          List.mem_cons_of_mem _ (hrest hx)⟩
        · rw [heq]
          simp [log]
        · intro x hx
          rcases List.mem_append.mp hx with hx | hx
          · obtain ⟨m', hx', hm', hp⟩ := hmarks x hx
            exact ⟨m', hx', List.mem_cons_of_mem _ hm', hp⟩
          · exact ⟨m, by simpa using hx, by simp [he], hm⟩
      split
      · exact hnext _ trivial
      · exact hnext _ trivial
      · exact hnext _ trivial
      · exact ⟨[], l, rfl, by simp, fun x hx => List.mem_cons_of_mem _ hx⟩
    · obtain ⟨marks, rest, heq, hmarks, hrest⟩ := ih s
      refine ⟨marks, rest, heq, ?_, fun x hx => List.mem_cons_of_mem _ (hrest hx)⟩
      intro x hx
      obtain ⟨m', hx', hm', hp⟩ := hmarks x hx
      exact ⟨m', hx', List.mem_cons_of_mem _ hm', hp⟩

theorem renewed_eq (s : Core) : ∃ marks rest,
    s.renewed = { s.epochInit (s.epoch + 1) with
      unhandleMessage := rest
      trace := marks ++ (s.epoch + 1, .reset 1 1) :: s.trace } ∧
    (∀ x ∈ marks, ∃ m, x = (s.epoch + 1, .requeue m) ∧ (s.epoch + 1, m) ∈ s.unhandleMessage ∧
      Proposes m) ∧ rest ⊆ s.unhandleMessage :=
  drain_eq s.unhandleMessage (s.epochInit (s.epoch + 1))

theorem Turn.trace (h : Turn cfg s t) : s.trace <:+ t.trace := by
  cases h with
  | step h => exact h.extends.trace
  | epoch h ht =>
    obtain ⟨marks, rest, heq, -, -⟩ := renewed_eq s
    rw [ht, heq]
    exact (List.suffix_cons _ _).trans (List.suffix_append _ _)

theorem Turn.storeOk (h : Turn cfg s t) (hs : s.StoreOk) : t.StoreOk := by
  have htr := h.trace
  cases h with
  | step h => exact steps_storeOk (.single h) hs
  | epoch h ht =>
    intro d p hp
    obtain ⟨marks, rest, heq, -, -⟩ := renewed_eq s
    have hstore : t.store = s.store := by rw [ht, heq]; rfl
    rw [hstore] at hp
    obtain ⟨hd, e, he⟩ := hs d p hp
    exact ⟨hd, e, htr.subset he⟩

theorem turns_of_steps (h : Relation.ReflTransGen (Step cfg) s t) :
    Relation.ReflTransGen (Turn cfg) s t :=
  h.lift id fun _ _ => .step

theorem turns_storeOk (h : Relation.ReflTransGen (Turn cfg) s t) (hs : s.StoreOk) : t.StoreOk := by
  induction h with
  | refl => exact hs
  | tail _ h ih => exact h.storeOk ih

theorem nextEpoch_turns {fuel : ℕ} (hs : s.StoreOk) (he : s.Ending cfg)
    (hne : (nextEpoch cfg fuel s).1 ≠ .exhausted) :
    Relation.ReflTransGen (Turn cfg) s (nextEpoch cfg fuel s).2 := by
  unfold nextEpoch at hne ⊢
  rw [bind_run (x := self) rfl] at hne ⊢
  unfold add at hne ⊢
  by_cases hb : s.epoch + 1 < 2 ^ 64
  · rw [if_pos hb] at hne ⊢
    have hturn : Turn cfg s s.renewed := .epoch he rfl
    exact .head hturn (turns_of_steps (chain_boot fuel (hturn.storeOk hs) hne).1)
  · rw [if_neg hb]
    exact .refl

theorem react_turns {fuel : ℕ} {i : Input} (hs : s.StoreOk)
    (hne : (react cfg fuel i s).1 ≠ .exhausted) :
    Relation.ReflTransGen (Turn cfg) (arrival s i) (react cfg fuel i s).2 := by
  have hchain : _ → Relation.ReflTransGen (Step cfg) (arrival s i)
    (handle cfg fuel i (arrival s i)).2 :=
    handle_steps hs
  have hends : ∀ e, (handle cfg fuel i (arrival s i)).1 = .err e → e.EndsEpoch →
      (handle cfg fuel i (arrival s i)).2.Ending cfg := fun e => handle_ends hs
  unfold react at hne ⊢
  cases hr : handle cfg fuel i (arrival s i) with
  | mk o t =>
    rw [hr] at hne hchain hends
    cases o with
    | ok u => exact turns_of_steps (hchain (by simp))
    | panic p => exact turns_of_steps (hchain (by simp))
    | exhausted => exact absurd rfl hne
    | err e =>
      have hsteps := hchain (by simp)
      cases e with
      | EpochEnd n =>
        have hst := steps_storeOk hsteps (hs.arrival i)
        exact (turns_of_steps hsteps).trans (nextEpoch_turns hst (hends _ rfl trivial) hne)
      | _ => exact turns_of_steps hsteps

/-! ### Panics -/

/-- The last epoch that can be counted has ended. -/
def Worn (s : Core) (p : Panic) : Prop := p = .overflow ∧ 2 ^ 64 ≤ s.epoch + 1

theorem nextEpoch_stops {fuel : ℕ} {p : Panic} (hs : s.StoreOk) (he : s.Ending cfg)
    (h : (nextEpoch cfg fuel s).1 = .panic p) :
    (nextEpoch cfg fuel s).2.Stops cfg p ∨ (nextEpoch cfg fuel s).2.Worn p := by
  unfold nextEpoch at h ⊢
  rw [bind_run (x := self) rfl] at h ⊢
  by_cases hb : s.epoch + 1 < 2 ^ 64
  · rw [bind_run (add_run hb)] at h ⊢
    have hturn : Turn cfg s s.renewed := .epoch he rfl
    have hchain : Chain cfg s.renewed (boot cfg (exec cfg fuel)) := chain_boot fuel
      (hturn.storeOk hs)
    have hp : (boot cfg (exec cfg fuel) s.renewed).1 = .panic p := h
    exact .inl ((hchain (by simp [hp])).2 p hp)
  · refine .inr ⟨?_, by rw [bind_eq, andThen, add, if_neg hb]; exact Nat.le_of_not_lt hb⟩
    rw [bind_eq, andThen, add, if_neg hb] at h
    cases h
    rfl

/-- Why a node stops. -/
theorem react_stops {fuel : ℕ} {i : Input} {p : Panic} (hs : s.StoreOk)
    (h : (react cfg fuel i s).1 = .panic p) :
    (react cfg fuel i s).2.Stops cfg p ∨ (react cfg fuel i s).2.Worn p ∨
      (p = .notLeader ∧ i = .timer ∧ ¬ s.Leads cfg) := by
  by_cases ht : i = .timer → s.Leads cfg
  · have hchain := chain_handle fuel i hs ht
    have hends : ∀ e, (handle cfg fuel i (arrival s i)).1 = .err e → e.EndsEpoch →
        (handle cfg fuel i (arrival s i)).2.Ending cfg := fun e => handle_ends hs
    unfold react at h ⊢
    unfold Chain Steps at hchain
    cases hr : handle cfg fuel i (arrival s i) with
    | mk o t =>
      rw [hr] at h hchain hends
      cases o with
      | ok u => cases h
      | exhausted => cases h
      | panic q =>
        cases h
        exact .inl ((hchain (by simp)).2 p rfl)
      | err e =>
        cases e with
        | EpochEnd n =>
          have hst := steps_storeOk (hchain (by simp)).1 (hs.arrival i)
          exact (nextEpoch_stops hst (hends _ rfl trivial) h).imp id .inl
        | _ => cases h
  · obtain ⟨rfl, hl⟩ := Classical.not_imp.mp ht
    have ha : arrival s .timer = s := rfl
    unfold react at h ⊢
    rw [ha] at h ⊢
    rcases handle_timer fuel hl with hr | hr | ⟨hk, hr⟩
    · rw [hr] at h
      cases h
    · rw [hr] at h
      cases h
      exact .inr (.inr ⟨rfl, rfl, hl⟩)
    · rw [hr] at h ⊢
      cases h
      exact .inl (.self hk)

end Ipotane.Core
