import Ipotane.Core.Keep

/-! From whatever state a handler starts, it stays in the epoch and only adds to the record; what
the three handlers of proposals put into the buffer ends the turn. -/
namespace Ipotane

open Lib Handler

variable [Crypto]

/-- The marks that the event loop makes. -/
def Event.FromLoop : Event → Prop
  | .receive _ | .requeue _ => True
  | _ => False

namespace Core

variable {cfg : Config} {s t u : Core}

/-- The entries that a turn adds. -/
def newEntries (s t : Core) : List (ℕ × Event) := t.trace.take (t.trace.length - s.trace.length)

theorem newEntries_eq {new : List (ℕ × Event)} (h : t.trace = new ++ s.trace) :
    s.newEntries t = new := by
  unfold newEntries
  rw [h, List.length_append, Nat.add_sub_cancel]
  exact List.take_left

/-- What is in the record in between has been added. -/
theorem Extends.mem_newEntries {u : Core} {x : ℕ × Event} (h : Extends s u)
    (ht : (x :: u.trace) <:+ t.trace) : x ∈ s.newEntries t := by
  obtain ⟨before, hb⟩ := h.trace
  obtain ⟨after, ha⟩ := ht
  have hnew : t.trace = (after ++ x :: before) ++ s.trace := by
    rw [← ha, ← hb, List.append_assoc, List.cons_append]
  rw [newEntries_eq hnew]
  exact List.mem_append_right _ List.mem_cons_self

/-- `t` has the epoch and the buffer of `s`, and what a handler has added to its record. -/
structure Adds (s t : Core) : Prop where
  epoch : t.epoch = s.epoch
  buffer : t.unhandleMessage = s.unhandleMessage
  record : ∃ new, t.trace = new ++ s.trace ∧ ∀ x ∈ new, ¬ Event.FromLoop x.2

theorem Adds.extends (h : Adds s t) : Extends s t := by
  obtain ⟨new, hn, _⟩ := h.record
  exact ⟨h.epoch, new, hn.symm⟩

theorem adds_same (he : t.epoch = s.epoch) (hb : t.unhandleMessage = s.unhandleMessage)
    (ht : t.trace = s.trace) : Adds s t :=
  ⟨he, hb, [], ht, fun _ h => nomatch h⟩

theorem adds_cons {x : Event} (he : t.epoch = s.epoch) (hb : t.unhandleMessage = s.unhandleMessage)
    (ht : t.trace = (s.epoch, x) :: s.trace) (hx : ¬ x.FromLoop) : Adds s t :=
  ⟨he, hb, [(s.epoch, x)], ht, fun _ hy => List.mem_singleton.mp hy ▸ hx⟩

theorem Adds.trans (h : Adds s t) (h' : Adds t u) : Adds s u := by
  obtain ⟨new, hn, hx⟩ := h.record
  obtain ⟨new', hn', hx'⟩ := h'.record
  refine ⟨h'.epoch.trans h.epoch, h'.buffer.trans h.buffer, new' ++ new, ?_, ?_⟩
  · rw [hn', hn, List.append_assoc]
  · intro x hm
    exact (List.mem_append.mp hm).elim (hx' x) (hx x)

theorem adds_updateHighQc (qc : QC) : Adds s (s.updateHighQc qc) := by
  unfold updateHighQc
  split <;> exact adds_same rfl rfl rfl

abbrev Appends {α : Type} (x : M α) : Prop := ∀ s, Moves Adds s x

theorem Appends.adds {α : Type} {x : M α} (h : Appends x) (s : Core) : Adds s (x s).2 := by
  have hs : Relation.ReflTransGen Adds s (x s).2 := h s
  generalize (x s).2 = t at hs
  induction hs with
  | refl => exact adds_same rfl rfl rfl
  | tail _ h ih => exact ih.trans h

theorem Appends.of_run {α : Type} {x : M α} {o : Outcome ConsensusError Panic α} (h : Appends x)
    (hx : x s = (o, t)) : Adds s t := by
  have ha := h.adds s
  rwa [hx] at ha

theorem tolerant_adds : Tolerant Adds := by
  rintro s t h ⟨new, hn, hx⟩
  refine ⟨h.epoch, h.buffer, new, hn, fun x hm => ?_⟩
  obtain ⟨e, y⟩ := x
  have hy := (hx _ hm).2
  cases y with
  | receive m => exact fun _ => hy
  | requeue m => exact fun _ => hy
  | _ => exact id

theorem appends_transmit (m : ConsensusMessage) (dest : Option PublicKey) (tag : ℕ) :
    Appends (transmit cfg m dest tag) :=
  keeps_bind (keeps_ensureM _ _) fun _ => keeps_update fun _ => adds_cons rfl rfl rfl id

theorem inner_of_aside {c : Call} (h : Aside c) : Inner c := by
  cases c <;> trivial

theorem appends_processQc (qc : QC) : Appends (processQc qc) := by
  refine keeps_bind (keeps_bind keeps_self fun _ => keeps_ite (keeps_pure _) ?_)
    fun _ => keeps_update fun _ => adds_updateHighQc qc
  exact keeps_bind (keeps_add _ _) fun _ => keeps_update fun _ => adds_cons rfl rfl rfl id

/-! ### Handlers -/

section Handlers

variable {call : Call → M Unit} {b : Block} (hc : ∀ c, Inner c → Appends (call c))
include hc

theorem appends_optPropose : Appends (optPropose cfg call) := by
  refine keeps_bind keeps_self fun s => keeps_bind (keeps_indexAsLeader _ _) fun idx => ?_
  cases idx with
  | none => exact keeps_crash _
  | some i =>
    refine keeps_bind (keeps_generateProposal tolerant_adds _ _ _ _) fun b => ?_
    exact keeps_bind (appends_transmit _ _ _) fun _ => hc _ trivial

theorem appends_admitOptProposal : Appends (admitOptProposal cfg call b) := by
  refine keeps_bind (keeps_indexAsLeader _ _) fun idx => keeps_bind (keeps_ensureM _ _) fun _ => ?_
  refine keeps_bind (keeps_reads (reads_ofExcept _)) fun _ => ?_
  refine keeps_bind (keeps_emit tolerant_adds trivial) fun _ =>
    keeps_bind (keeps_when ?_) fun _ => ?_
  · exact keeps_bind keeps_self fun _ => keeps_terminateSmvba tolerant_adds _ _ _
  refine keeps_bind (appends_processQc _) fun _ => ?_
  exact keeps_bind (keeps_mempoolVerify tolerant_adds _ _) fun ok => keeps_ite (hc _ trivial)
    (keeps_pure _)

omit hc in
theorem appends_resetTimer (duration : Option ℕ) : Appends (resetTimer duration) :=
  keeps_update fun _ => adds_cons rfl rfl rfl id

theorem appends_afterStore (b0 b1 : Block) : Appends (do
    optPrepareSection cfg call b
    optCommitSection call b b0 b1
    optVoteSection cfg call b) :=
  keeps_afterStore tolerant_adds (fun c h => hc c (inner_of_aside h)) (fun _ => hc _ trivial) b0 b1

theorem appends_processOptBlock : Appends (processOptBlock cfg call b) := by
  refine keeps_bind keeps_self fun s => keeps_bind (keeps_emit tolerant_adds trivial) fun _ => ?_
  refine keeps_bind (keeps_indexAsLeader _ _) fun idx => ?_
  refine keeps_bind (keeps_when (appends_resetTimer _)) fun _ => ?_
  refine keeps_bind (keeps_getAncestors tolerant_adds b) fun ancestors => ?_
  cases ancestors with
  | none => exact keeps_pure _
  | some x =>
    exact keeps_bind (keeps_storeBlock tolerant_adds b) fun _ => appends_afterStore hc x.1 x.2

theorem appends_handleOptVote {v : HVote} : Appends (handleOptVote cfg call v) := by
  refine keeps_bind keeps_self fun s => keeps_ite (keeps_pure _) ?_
  refine keeps_bind (keeps_add _ _) fun next => keeps_bind (keeps_indexAsLeader _ _) fun idx => ?_
  refine keeps_bind (keeps_ensureM _ _) fun _ => ?_
  refine keeps_bind (keeps_reads (reads_ofExcept _)) fun _ => ?_
  refine keeps_bind (keeps_collect tolerant_adds fun _ => trivial) fun qc => ?_
  cases qc with
  | none => exact keeps_pure _
  | some qc =>
    refine keeps_bind (appends_processQc _) fun _ => ?_
    match idx with
    | none => exact keeps_pure _
    | some 0 => exact hc _ trivial
    | some (i + 1) => exact appends_resetTimer _

end Handlers

theorem appends_exec : ∀ fuel c, Inner c → Appends (exec cfg fuel c)
  | 0, _, _ => fun _ => .refl
  | fuel + 1, c, hc => by
    have ih : ∀ c, Inner c → Appends (exec cfg fuel c) := appends_exec fuel
    cases c with
    | optPropose => exact appends_optPropose ih
    | handleOptProposal b => exact hc.elim
    | processOptBlock b => exact appends_processOptBlock ih
    | handleOptVote v => exact appends_handleOptVote ih
    | handleFallbackPropose b => exact hc.elim
    | handleSpbProposal v p => exact hc.elim
    | _ => exact keeps_exec tolerant_adds (fuel + 1) _ trivial

/-! ### Turns -/

/-- The kinds of messages that `run_epoch` sends back to their channels. -/
def Deferrable : ConsensusMessage → Prop
  | .HsPropose _ | .FBPropose _ | .SPBPropose _ _ => True
  | _ => False

/-- `push_back` on the buffer. -/
def defer (s : Core) (epoch : ℕ) (m : ConsensusMessage) : Core :=
  { s with unhandleMessage := s.unhandleMessage ++ [(epoch, m)] }

/-- What a call of the event loop can leave: a proposal that goes into the buffer is of a later
epoch, and the last thing before the epoch ends. -/
inductive Leaves (s : Core) : Outcome ConsensusError Panic Unit → Core → Prop
  | adds {o : Outcome ConsensusError Panic Unit} {t : Core} (h : Adds s t) : Leaves s o t
  | defers {u : Core} {epoch : ℕ} {m : ConsensusMessage} (h : Adds s u) (he : u.epoch < epoch)
      (hm : Deferrable m) : Leaves s (.err (.EpochEnd u.epoch)) (u.defer epoch m)

abbrev Turns (x : M Unit) : Prop := ∀ s, Leaves s (x s).1 (x s).2

theorem Appends.turns {x : M Unit} (h : Appends x) : Turns x := fun s => .adds (h.adds s)

theorem turns_bind {α : Type} {x : M α} {f : α → M Unit} (hx : Appends x) (hf : ∀ a, Turns (f a)) :
    Turns (x >>= f) := by
  intro s
  have ha := hx.adds s
  rw [bind_eq]
  unfold andThen
  cases h : x s with
  | mk o t =>
    rw [h] at ha
    cases o with
    | ok a =>
      have hl := hf a t
      dsimp only
      revert hl
      generalize (f a t).1 = o
      generalize (f a t).2 = v
      intro hl
      cases hl with
      | adds h' => exact .adds (ha.trans h')
      | defers h' he hm => exact .defers (ha.trans h') he hm
    | _ => exact .adds ha

/-- A proposal of a later epoch goes into the buffer. -/
theorem leaves_defer {b : Block} {m : ConsensusMessage} {x : M Unit} (hm : Deferrable m)
    (hx : Leaves s (x s).1 (x s).2) :
    Leaves s ((if b.epoch > s.epoch then do
        update fun s => s.defer b.epoch m
        fail (.EpochEnd s.epoch)
      else x : M Unit) s).1 ((if b.epoch > s.epoch then do
        update fun s => s.defer b.epoch m
        fail (.EpochEnd s.epoch)
      else x : M Unit) s).2 := by
  by_cases he : b.epoch > s.epoch
  · rw [if_pos he]
    exact .defers (adds_same rfl rfl rfl) he hm
  · rw [if_neg he]
    exact hx

theorem turns_handleOptProposal (fuel : ℕ) (b : Block) :
    Turns (handleOptProposal cfg (exec cfg fuel) b) := by
  intro s
  change Leaves s ((if b.epoch < s.epoch then _ else _ : M Unit) s).1
    ((if b.epoch < s.epoch then _ else _ : M Unit) s).2
  by_cases he : b.epoch < s.epoch
  · rw [if_pos he]
    exact .adds (adds_same rfl rfl rfl)
  · rw [if_neg he]
    exact leaves_defer trivial ((appends_admitOptProposal (appends_exec fuel)).turns s)

theorem turns_handleFallbackPropose (fuel : ℕ) (b : Block) :
    Turns (handleFallbackPropose cfg (exec cfg fuel) b) := by
  refine turns_bind (keeps_fallbackMessageFilter _ _) fun _ =>
    turns_bind (keeps_ensureM _ _) fun _ => ?_
  refine turns_bind (keeps_check _) fun _ s => leaves_defer trivial (Appends.turns ?_ s)
  refine keeps_bind (keeps_mempoolVerify tolerant_adds _ _) fun ok => ?_
  exact keeps_ite (appends_exec fuel (.processFallbackPropose b) trivial) (keeps_pure _)

theorem turns_handleSpbProposal (fuel : ℕ) (v : SPBValue) (p : SPBProof) :
    Turns (handleSpbProposal cfg (exec cfg fuel) v p) := by
  refine turns_bind (keeps_smvbaMsgFilter _ _) fun _ => turns_bind (keeps_ensureM _ _) fun _ => ?_
  refine turns_bind (keeps_check _) fun _ s => leaves_defer trivial (Appends.turns ?_ s)
  exact appends_exec fuel (.processSpbPropose v p) trivial

theorem turns_exec (fuel : ℕ) (c : Call) : Turns (exec cfg fuel c) := by
  cases fuel with
  | zero => exact fun s => .adds (adds_same rfl rfl rfl)
  | succ fuel =>
    cases c with
    | handleOptProposal b => exact turns_handleOptProposal fuel b
    | handleFallbackPropose b => exact turns_handleFallbackPropose fuel b
    | handleSpbProposal v p => exact turns_handleSpbProposal fuel v p
    | _ =>
      refine Appends.turns (appends_exec (fuel + 1) _ ?_)
      trivial

theorem appends_boot (fuel : ℕ) : Appends (boot cfg (exec cfg fuel)) := by
  refine keeps_bind (keeps_when ?_) fun _ => keeps_when ?_
  · refine keeps_bind keeps_self fun s => keeps_bind (keeps_indexAsLeader _ _) fun idx => ?_
    match idx with
    | none => exact keeps_pure _
    | some 0 => exact keeps_ignoreErr (appends_exec fuel .optPropose trivial)
    | some (i + 1) => exact appends_resetTimer _
  · exact keeps_bind keeps_self fun s =>
      keeps_expect (appends_exec fuel (.invokeFallback _ _) trivial)

/-- What the handler of an input leaves, from the state with the mark of its arrival on. -/
theorem turns_handle (fuel : ℕ) (i : Input) : Turns (handle cfg fuel i) := by
  cases i with
  | boot => exact (appends_boot fuel).turns
  | timer => exact turns_exec fuel _
  | core m =>
    change Turns ((coreCall m).elim (pure ()) (exec cfg fuel))
    cases coreCall m with
    | none => exact Appends.turns (keeps_pure _)
    | some c => exact turns_exec fuel c
  | smvba m =>
    change Turns ((smvbaCall m).elim (pure ()) (exec cfg fuel))
    cases smvbaCall m with
    | none => exact Appends.turns (keeps_pure _)
    | some c => exact turns_exec fuel c

end Core

end Ipotane
