import Ipotane.Core.Ending
import Ipotane.Core.Mono

/-! What the handlers leave alone from whatever state they start: the pessimistic path and
the commit loop change neither the height, the certificate and the timer of the optimistic
one nor the buffer. -/
namespace Ipotane

open Lib Handler

variable [Crypto]

/-- The marks that neither the event loop makes nor a proposal of the optimistic path. -/
def Event.Minor : Event → Prop
  | .receive _ | .requeue _ | .arm _ | .send (.HsPropose _) _ _ => False
  | _ => True

namespace Core

variable {cfg : Config} {s t : Core} {R : Core → Core → Prop}

structure Alongside (s t : Core) : Prop where
  epoch : t.epoch = s.epoch
  buffer : t.unhandleMessage = s.unhandleMessage
  height : t.height = s.height
  highQc : t.highQc = s.highQc
  timer : t.timer = s.timer

/-- `R` puts up with minor marks, and with every change but those that `Alongside` rules out. -/
def Tolerant (R : Core → Core → Prop) : Prop :=
  ∀ s t, Alongside s t → (∃ new, t.trace = new ++ s.trace ∧ ∀ x ∈ new, x.1 = s.epoch ∧ x.2.Minor) →
    R s t

theorem Tolerant.same (hR : Tolerant R) (h : Alongside s t) (ht : t.trace = s.trace) : R s t :=
  hR s t h ⟨[], ht, fun _ h => (nomatch h)⟩

theorem Tolerant.mark {x : Event} (hR : Tolerant R) (h : Alongside s t)
    (ht : t.trace = (s.epoch, x) :: s.trace) (hx : x.Minor) : R s t :=
  hR s t h ⟨[(s.epoch, x)], ht, fun _ hy => List.mem_singleton.mp hy ▸ ⟨rfl, hx⟩⟩

theorem Tolerant.pair {x y : Event} (hR : Tolerant R) (h : Alongside s t)
    (ht : t.trace = (s.epoch, y) :: (s.epoch, x) :: s.trace) (hx : x.Minor)
    (hy : y.Minor) : R s t := by
  refine hR s t h ⟨[(s.epoch, y), (s.epoch, x)], ht, fun z hz => ?_⟩
  rcases List.mem_cons.mp hz with rfl | hz
  · exact ⟨rfl, hy⟩
  · exact List.mem_singleton.mp hz ▸ ⟨rfl, hx⟩

abbrev Keeps (R : Core → Core → Prop) {α : Type} (x : M α) : Prop := ∀ s, Moves R s x

section Rules

variable {α β : Type}

theorem keeps_bind {x : M α} {f : α → M β} (hx : Keeps R x) (hf : ∀ a, Keeps R (f a)) :
    Keeps R (x >>= f) :=
  fun s => moves_bind (hx s) fun a t _ => hf a t

theorem keeps_reads {x : M α} (hx : Reads x) : Keeps R x := by
  intro s
  unfold Moves
  rw [hx s]

theorem keeps_pure (a : α) : Keeps R (pure a) := keeps_reads (reads_pure a)

theorem keeps_self : Keeps R self := keeps_reads reads_self

theorem keeps_fail (e : ConsensusError) : Keeps R (fail e : M α) := keeps_reads (reads_fail e)

theorem keeps_crash (p : Panic) : Keeps R (crash p : M α) := keeps_reads (reads_crash p)

theorem keeps_update {f : Core → Core} (h : ∀ s, R s (f s)) : Keeps R (update f) :=
  fun s => moves_update (h s)

theorem keeps_ite {c : Prop} [Decidable c] {x y : M α} (hx : Keeps R x) (hy : Keeps R y) :
    Keeps R (if c then x else y) :=
  fun s => moves_ite (fun _ => hx s) fun _ => hy s

theorem keeps_when {c : Prop} [Decidable c] {x : M Unit} (hx : Keeps R x) : Keeps R (when c x) :=
  keeps_ite hx (keeps_pure ())

theorem keeps_expect {p : Panic} {x : M α} (hx : Keeps R x) : Keeps R (expect p x) :=
  fun s => moves_expect (hx s)

theorem keeps_ignoreErr {x : M Unit} (hx : Keeps R x) : Keeps R (ignoreErr x) :=
  fun s => moves_ignoreErr (hx s)

end Rules

theorem keeps_ensureM (p : Prop) [Decidable p] (e : ConsensusError) : Keeps R (ensureM p e) :=
  keeps_reads (reads_ensureM p e)

theorem keeps_check {p : Prop} [Decidable p] (x : Check) : Keeps R (when p (ofExcept x)) :=
  keeps_when (keeps_reads (reads_ofExcept x))

theorem keeps_add (m n : ℕ) : Keeps R (add m n) := keeps_reads (reads_add m n)

theorem keeps_indexAsLeader (name : PublicKey) (height : ℕ) :
    Keeps R (indexAsLeader cfg name height) :=
  keeps_reads (reads_indexAsLeader name height)

theorem keeps_fallbackMessageFilter (epoch height : ℕ) :
    Keeps R (fallbackMessageFilter epoch height) :=
  keeps_reads reads_fallbackMessageFilter

theorem keeps_smvbaMsgFilter (epoch height : ℕ) : Keeps R (smvbaMsgFilter epoch height) :=
  keeps_reads reads_smvbaMsgFilter

section Tolerant

variable (hR : Tolerant R)
include hR

theorem keeps_emit {x : Event} (h : x.Minor) : Keeps R (emit x) :=
  keeps_update fun _ => hR.mark ⟨rfl, rfl, rfl, rfl, rfl⟩ rfl h

theorem keeps_transmit {m : ConsensusMessage} {dest : Option PublicKey} {tag : ℕ}
    (h : (Event.send m dest tag).Minor) : Keeps R (transmit cfg m dest tag) :=
  keeps_bind (keeps_ensureM _ _) fun _ => keeps_emit hR h

theorem keeps_getParentBlock (b : Block) : Keeps R (getParentBlock b) := by
  refine keeps_ite (keeps_pure _) (keeps_bind keeps_self fun s => ?_)
  cases s.store.get b.parent with
  | some p => exact keeps_pure _
  | none => exact keeps_bind (keeps_emit hR trivial) fun _ => keeps_pure _

theorem keeps_getAncestors (b : Block) : Keeps R (getAncestors b) := by
  refine keeps_bind (keeps_getParentBlock hR b) fun b1 => ?_
  cases b1 with
  | none => exact keeps_pure _
  | some b1 =>
    refine keeps_bind (keeps_getParentBlock hR b1) fun b0 => ?_
    cases b0 with
    | none => exact keeps_crash _
    | some b0 => exact keeps_pure _

theorem keeps_generateProposal (height round : ℕ) (qc : Option QC) (tag : ℕ) :
    Keeps R (generateProposal cfg height round qc tag) := by
  refine keeps_bind (fun s => .single (hR.same ⟨rfl, rfl, rfl, rfl, rfl⟩ rfl)) fun _ => ?_
  refine keeps_bind keeps_self fun _ => ?_
  exact keeps_bind (keeps_emit hR trivial) fun _ => keeps_pure _

theorem keeps_mempoolVerify (b : Block) (tag : ℕ) : Keeps R (mempoolVerify cfg b tag) := by
  refine keeps_bind keeps_self fun s => ?_
  refine keeps_bind (keeps_update fun _ => hR.same ⟨rfl, rfl, rfl, rfl, rfl⟩ rfl) fun _ => ?_
  cases cfg.status s.requests with
  | Accept => exact keeps_bind (keeps_emit hR trivial) fun _ => keeps_pure _
  | Reject => exact keeps_fail _
  | Wait => exact keeps_bind (keeps_emit hR trivial) fun _ => keeps_pure _

theorem keeps_collect {α : Type} {add : Aggregator → Appended α Aggregator} {mark : α → Event}
    (h : ∀ x, (mark x).Minor) : Keeps R (collect add mark) := by
  refine fun s => .single ?_
  unfold collect
  split
  · exact hR.same ⟨rfl, rfl, rfl, rfl, rfl⟩ rfl
  · exact hR.same ⟨rfl, rfl, rfl, rfl, rfl⟩ rfl
  · exact hR.mark ⟨rfl, rfl, rfl, rfl, rfl⟩ rfl (h _)

theorem keeps_storeBlock (b : Block) : Keeps R (storeBlock b) :=
  keeps_update fun _ => hR.mark ⟨rfl, rfl, rfl, rfl, rfl⟩ rfl trivial

theorem keeps_terminateSmvba (height reached : ℕ) (site : Termination) :
    Keeps R (terminateSmvba height reached site) :=
  keeps_update fun _ => hR.mark ⟨rfl, rfl, rfl, rfl, rfl⟩ rfl trivial

theorem keeps_handleSyncRequest (digest : Digest) (sender : PublicKey) :
    Keeps R (handleSyncRequest cfg digest sender) := by
  refine keeps_bind keeps_self fun s => ?_
  cases s.store.get digest with
  | none => exact keeps_pure _
  | some b => exact keeps_transmit hR trivial

theorem keeps_makeSpbVote (v : SPBValue) : Keeps R (makeSpbVote cfg v) :=
  keeps_ite (keeps_pure _) (keeps_bind (keeps_emit hR trivial) fun _ => keeps_pure _)

/-- The calls of the pessimistic path, and of the commit loop. -/
def Aside : Call → Prop
  | .optPropose | .handleOptProposal _ | .processOptBlock _ | .handleOptVote _
  | .handleFallbackPropose _ | .handleSpbProposal _ _ => False
  | _ => True

/-! ### Handlers -/

section Handlers

variable {call : Call → M Unit} {b : Block} (hc : ∀ c, Aside c → Keeps R (call c))
include hc

theorem keeps_commit : Keeps R (commit call b) := by
  refine keeps_bind keeps_self fun s => keeps_when ?_
  refine keeps_bind (keeps_when (keeps_emit hR trivial)) fun _ => ?_
  refine keeps_bind (keeps_getParentBlock hR b) fun p => ?_
  cases p with
  | none => exact keeps_pure _
  | some p => exact hc _ trivial

theorem keeps_commitAndSend (rule : CommitRule) : Keeps R (commitAndSend call b rule) :=
  keeps_bind (hc _ trivial) fun _ => keeps_update fun _ =>
    hR.mark ⟨rfl, rfl, rfl, rfl, rfl⟩ rfl trivial

omit hc in
theorem keeps_sendVote (v : HVote) : ∀ leaders, Keeps R (sendVote cfg v leaders)
  | [] => keeps_pure _
  | _ :: leaders => keeps_bind (keeps_when (keeps_transmit hR trivial)) fun _ =>
      keeps_sendVote v leaders

omit hc in
theorem keeps_optVoteSection (hv : ∀ v, Keeps R (call (.handleOptVote v))) :
    Keeps R (optVoteSection cfg call b) := by
  refine keeps_bind keeps_self fun s => keeps_when (keeps_bind ?_ fun vote => ?_)
  · refine keeps_bind (keeps_add _ _) fun _ => keeps_bind keeps_self fun _ => ?_
    refine keeps_ite (keeps_bind (keeps_update fun _ => ?_) fun _ => keeps_pure _) (keeps_pure _)
    exact hR.pair ⟨rfl, rfl, rfl, rfl, rfl⟩ rfl trivial trivial
  · cases vote with
    | none => exact keeps_pure _
    | some v =>
      refine keeps_bind (keeps_add _ _) fun _ => keeps_bind (keeps_sendVote hR v _) fun _ => ?_
      refine keeps_bind (keeps_indexAsLeader _ _) fun idx => keeps_when ?_
      exact keeps_bind (keeps_emit hR trivial) fun _ => hv _

theorem keeps_optCommitSection (b0 b1 : Block) : Keeps R (optCommitSection call b b0 b1) :=
  keeps_bind (keeps_add _ _) fun _ => keeps_bind (keeps_add _ _) fun _ =>
    keeps_bind (keeps_ensureM _ _) fun _ => keeps_bind keeps_self fun _ =>
      keeps_when (keeps_commitAndSend hR hc _)

theorem keeps_optPrepareSection : Keeps R (optPrepareSection cfg call b) := by
  refine keeps_bind (keeps_when ?_) fun _ =>
    keeps_bind (keeps_when (hc _ trivial)) fun _ => keeps_when (hc _ trivial)
  refine keeps_bind keeps_self fun _ => keeps_bind (keeps_reads (reads_sub _ _)) fun _ => ?_
  exact keeps_terminateSmvba hR _ _ _

/-- The sections of `process_opt_block` that run after the block has been stored. -/
theorem keeps_afterStore (hv : ∀ v, Keeps R (call (.handleOptVote v))) (b0 b1 : Block) : Keeps R (do
    optPrepareSection cfg call b
    optCommitSection call b b0 b1
    optVoteSection cfg call b) :=
  keeps_bind (keeps_optPrepareSection hR hc) fun _ => keeps_bind (keeps_optCommitSection hR hc _ _)
    fun _ => keeps_optVoteSection hR hv

theorem keeps_invokeFallback (height : ℕ) (qc : Option QC) :
    Keeps R (invokeFallback cfg call height qc) := by
  refine keeps_bind keeps_self fun s => keeps_ite (keeps_pure _) ?_
  refine keeps_bind (keeps_update fun _ => hR.same ⟨rfl, rfl, rfl, rfl, rfl⟩ rfl) fun _ => ?_
  exact keeps_bind (keeps_generateProposal hR _ _ _ _) fun _ => hc _ trivial

theorem keeps_broadcastFallbackPropose : Keeps R (broadcastFallbackPropose cfg call b) := by
  refine keeps_bind (keeps_update fun _ => hR.same ⟨rfl, rfl, rfl, rfl, rfl⟩ rfl) fun _ => ?_
  refine keeps_bind keeps_self fun s => ?_
  exact keeps_ite (keeps_pure _) (keeps_bind (keeps_transmit hR trivial) fun _ => hc _ trivial)

theorem keeps_extendFallback (qc : QC) : Keeps R (extendFallback cfg call qc) := by
  refine keeps_bind (keeps_update fun _ => hR.same ⟨rfl, rfl, rfl, rfl, rfl⟩ rfl) fun _ => ?_
  refine keeps_ite (keeps_ite ?_ (keeps_ite (hc _ trivial) (keeps_pure _))) (keeps_pure _)
  refine keeps_bind (keeps_add _ _) fun _ => ?_
  exact keeps_bind (keeps_generateProposal hR _ _ _ _) fun _ => hc _ trivial

theorem keeps_handleFallbackVote (v : HVote) : Keeps R (handleFallbackVote cfg call v) := by
  refine keeps_bind (keeps_fallbackMessageFilter _ _) fun _ => ?_
  refine keeps_bind (keeps_ensureM _ _) fun _ => ?_
  refine keeps_bind (keeps_check _) fun _ =>
    keeps_bind (keeps_collect hR fun _ => trivial) fun qc => ?_
  cases qc with
  | none => exact keeps_pure _
  | some qc => exact keeps_extendFallback hR hc qc

theorem keeps_processFallbackPropose : Keeps R (processFallbackPropose cfg call b) := by
  refine keeps_bind (keeps_fallbackMessageFilter _ _) fun _ => ?_
  refine keeps_bind (keeps_ensureM _ _) fun _ => ?_
  refine keeps_bind (keeps_emit hR trivial) fun _ => keeps_bind (keeps_storeBlock hR b) fun _ => ?_
  refine keeps_bind ?_ fun vote => ?_
  · refine keeps_bind keeps_self fun s => keeps_bind (keeps_add _ _) fun _ => ?_
    exact keeps_ite (keeps_pure _) (keeps_bind (keeps_emit hR trivial) fun _ => keeps_pure _)
  · cases vote with
    | none => exact keeps_pure _
    | some v =>
      exact keeps_ite (keeps_bind (keeps_emit hR trivial) fun _ => hc _ trivial)
        (keeps_transmit hR trivial)

theorem keeps_activePreparePhase (height : ℕ) (qc : QC) (val : ℕ) :
    Keeps R (activePreparePhase cfg call height qc val) := by
  refine keeps_bind keeps_self fun s => keeps_ite (keeps_pure _) ?_
  refine keeps_bind (keeps_update fun _ =>
    hR.mark ⟨rfl, rfl, rfl, rfl, rfl⟩ rfl trivial) fun _ => ?_
  exact keeps_bind (keeps_transmit hR trivial) fun _ => hc _ trivial

theorem keeps_countOptPrepare (p : PrePare) : Keeps R (countOptPrepare cfg call p) := by
  refine keeps_bind keeps_self fun s => keeps_bind (keeps_ensureM _ _) fun _ => ?_
  refine keeps_bind (keeps_update fun _ => hR.same ⟨rfl, rfl, rfl, rfl, rfl⟩ rfl) fun _ => ?_
  refine keeps_bind (keeps_when (keeps_bind ?_ fun _ => ?_)) fun _ => hc _ trivial
  · refine keeps_bind keeps_self fun s => ?_
    cases s.store.get p.qc.hash with
    | none => exact keeps_pure _
    | some b => exact keeps_when (keeps_commitAndSend hR hc _)
  · exact keeps_when (keeps_bind keeps_self fun _ => keeps_terminateSmvba hR _ _ _)

theorem keeps_countPesPrepare (p : PrePare) : Keeps R (countPesPrepare cfg call p) := by
  refine keeps_bind keeps_self fun s => keeps_bind (keeps_ensureM _ _) fun _ => ?_
  refine keeps_bind (keeps_update fun _ => hR.same ⟨rfl, rfl, rfl, rfl, rfl⟩ rfl)
    fun _ => keeps_when ?_
  refine keeps_bind (keeps_update fun _ => hR.same ⟨rfl, rfl, rfl, rfl, rfl⟩ rfl) fun _ => ?_
  refine keeps_bind keeps_self fun s => ?_
  cases s.fallbackHighQc.getD (p.height, cfg.parameters.fallbackLength) none with
  | none => exact keeps_pure _
  | some qc => exact hc _ trivial

theorem keeps_handleParPrepare (p : PrePare) : Keeps R (handleParPrepare cfg call p) := by
  refine keeps_bind keeps_self fun s => keeps_bind (keeps_ensureM _ _) fun _ => ?_
  refine keeps_bind (keeps_add _ _) fun _ => keeps_bind (keeps_ensureM _ _) fun _ => ?_
  refine keeps_bind (keeps_check _) fun _ => ?_
  refine keeps_bind (keeps_update fun _ => hR.same ⟨rfl, rfl, rfl, rfl, rfl⟩ rfl) fun _ => ?_
  exact keeps_ite (keeps_countOptPrepare hR hc p)
    (keeps_ite (keeps_countPesPrepare hR hc p) (keeps_fail _))

theorem keeps_smvbaRoundAdvance (height round : ℕ) :
    Keeps R (smvbaRoundAdvance cfg call height round) := by
  refine keeps_bind (keeps_update fun _ =>
    hR.pair ⟨rfl, rfl, rfl, rfl, rfl⟩ rfl trivial trivial) fun _ => ?_
  refine keeps_bind keeps_self fun s => ?_
  cases s.spbProposes.get (height, 1) with
  | none => exact keeps_pure _
  | some last =>
    refine keeps_bind (keeps_emit hR trivial) fun _ => keeps_bind (keeps_add _ _) fun _ => ?_
    exact keeps_bind (keeps_generateProposal hR _ _ _ _) fun _ => keeps_expect (hc _ trivial)

theorem keeps_invokeSmvba (height val : ℕ) (sigs : List (PublicKey × Signature)) (qc : Option QC) :
    Keeps R (invokeSmvba cfg call height val sigs qc) := by
  refine keeps_bind (keeps_update fun _ => hR.same ⟨rfl, rfl, rfl, rfl, rfl⟩ rfl) fun _ => ?_
  refine keeps_bind keeps_self fun s => ?_
  refine keeps_ite (keeps_pure _) ?_
  refine keeps_bind (keeps_update fun _ => hR.same ⟨rfl, rfl, rfl, rfl, rfl⟩ rfl) fun _ => ?_
  refine keeps_bind ?_ fun b => ?_
  · refine keeps_ite (keeps_bind keeps_self fun _ => keeps_pure _) ?_
    exact keeps_bind (keeps_add _ _) fun _ => keeps_generateProposal hR _ _ _ _
  · refine keeps_bind (keeps_update fun _ => hR.same ⟨rfl, rfl, rfl, rfl, rfl⟩ rfl) fun _ => ?_
    exact keeps_bind keeps_self fun _ => hc _ trivial

theorem keeps_broadcastPesPropose (v : SPBValue) (p : SPBProof) :
    Keeps R (broadcastPesPropose cfg call v p) :=
  keeps_bind (keeps_when (keeps_update fun _ =>
    hR.mark ⟨rfl, rfl, rfl, rfl, rfl⟩ rfl trivial)) fun _ =>
    keeps_bind (keeps_transmit hR trivial) fun _ => hc _ trivial

theorem keeps_processSpbPropose (v : SPBValue) (p : SPBProof) :
    Keeps R (processSpbPropose cfg call v p) := by
  refine keeps_bind (keeps_when (keeps_update fun _ =>
    hR.mark ⟨rfl, rfl, rfl, rfl, rfl⟩ rfl trivial)) fun _ => ?_
  refine keeps_bind (keeps_makeSpbVote hR v) fun vote => ?_
  cases vote with
  | none => exact keeps_pure _
  | some x =>
    exact keeps_ite (keeps_bind (keeps_emit hR trivial) fun _ => hc _ trivial)
      (keeps_transmit hR trivial)

theorem keeps_advanceSpb (p : SPBProof) : Keeps R (advanceSpb cfg call p) := by
  refine keeps_bind keeps_self fun s => ?_
  cases s.spbProposes.get (p.height, p.round) with
  | none => exact keeps_crash _
  | some v =>
    refine keeps_ite (hc _ trivial) (keeps_ite ?_ (keeps_pure _))
    exact keeps_bind (keeps_transmit hR trivial) fun _ => hc _ trivial

theorem keeps_handleSpbVote (x : SPBVote) : Keeps R (handleSpbVote cfg call x) := by
  refine keeps_bind (keeps_smvbaMsgFilter _ _) fun _ => keeps_bind (keeps_ensureM _ _) fun _ => ?_
  refine keeps_bind (keeps_check _) fun _ => keeps_bind (keeps_collect hR fun _ => trivial)
    fun proof => ?_
  cases proof with
  | none => exact keeps_pure _
  | some p => exact keeps_advanceSpb hR hc p

theorem keeps_handleSpbFinish (v : SPBValue) (p : SPBProof) :
    Keeps R (handleSpbFinish cfg call v p) := by
  refine keeps_bind (keeps_smvbaMsgFilter _ _) fun _ => keeps_bind (keeps_ensureM _ _) fun _ => ?_
  refine keeps_bind (keeps_check _) fun _ => ?_
  refine keeps_bind (keeps_update fun _ =>
    hR.mark ⟨rfl, rfl, rfl, rfl, rfl⟩ rfl trivial) fun _ => ?_
  refine keeps_bind keeps_self fun s => keeps_ite (keeps_pure _) (keeps_ite ?_ (keeps_pure _))
  exact keeps_bind (keeps_update fun _ => hR.same ⟨rfl, rfl, rfl, rfl, rfl⟩ rfl)
    fun _ => hc _ trivial

theorem keeps_invokeDoneAndShare (height round : ℕ) :
    Keeps R (invokeDoneAndShare cfg call height round) :=
  keeps_bind keeps_self fun _ => keeps_bind (keeps_emit hR trivial) fun _ =>
    keeps_bind (keeps_emit hR trivial) fun _ => keeps_bind (keeps_transmit hR trivial)
      fun _ => hc _ trivial

omit hR in
theorem keeps_handleSmvbaDoneWithShare (m : MDoneAndShare) :
    Keeps R (handleSmvbaDoneWithShare call m) :=
  keeps_bind (hc _ trivial) fun _ => hc _ trivial

theorem keeps_handleSmvbaDone (m : MDoneAndShare) : Keeps R (handleSmvbaDone cfg call m) := by
  refine keeps_bind (keeps_smvbaMsgFilter _ _) fun _ => keeps_bind (keeps_ensureM _ _) fun _ => ?_
  refine keeps_bind (keeps_check _) fun _ => keeps_bind keeps_self fun s => ?_
  refine keeps_bind (keeps_update fun _ => hR.same ⟨rfl, rfl, rfl, rfl, rfl⟩ rfl) fun _ => ?_
  refine keeps_bind keeps_self fun s => ?_
  refine keeps_ite ?_ (keeps_ite (keeps_update fun _ => hR.same ⟨rfl, rfl, rfl, rfl, rfl⟩ rfl)
    (keeps_pure _))
  exact keeps_bind (keeps_update fun _ => hR.same ⟨rfl, rfl, rfl, rfl, rfl⟩ rfl)
    fun _ => hc _ trivial

theorem keeps_sendHalt (leader : PublicKey) (v : SPBValue) (p : SPBProof) :
    Keeps R (sendHalt cfg call leader v p) :=
  keeps_bind (keeps_emit hR trivial) fun _ => keeps_bind (keeps_transmit hR trivial)
    fun _ => hc _ trivial

theorem keeps_actOnCoin (coin : RandomCoin) (height round : ℕ) :
    Keeps R (actOnCoin cfg call coin height round) := by
  refine keeps_bind (keeps_update fun _ => hR.same ⟨rfl, rfl, rfl, rfl, rfl⟩ rfl) fun _ => ?_
  refine keeps_bind keeps_self fun s => ?_
  cases (s.spbFinishs.getD (coin.height, coin.round) []).lookup coin.leader with
  | some x => exact keeps_sendHalt hR hc _ _ _
  | none =>
    refine keeps_bind (keeps_emit hR trivial) fun _ => ?_
    refine keeps_bind (keeps_update fun _ => hR.same ⟨rfl, rfl, rfl, rfl, rfl⟩ rfl) fun _ => ?_
    refine keeps_bind keeps_self fun s => ?_
    cases (s.spbLocks.getD (coin.height, coin.round) []).lookup coin.leader with
    | some x =>
      refine keeps_bind (keeps_emit hR trivial) fun _ => ?_
      exact keeps_bind (keeps_transmit hR trivial) fun _ => hc _ trivial
    | none => exact keeps_bind (keeps_transmit hR trivial) fun _ => hc _ trivial

theorem keeps_handleSmvbaRs (x : RandomnessShare) : Keeps R (handleSmvbaRs cfg call x) := by
  refine keeps_bind (keeps_smvbaMsgFilter _ _) fun _ => keeps_bind (keeps_ensureM _ _) fun _ => ?_
  refine keeps_bind (keeps_check _) fun _ => keeps_bind keeps_self fun s => ?_
  refine keeps_ite (keeps_pure _) (keeps_ite (keeps_crash _) ?_)
  refine keeps_bind (keeps_update fun _ => hR.same ⟨rfl, rfl, rfl, rfl, rfl⟩ rfl) fun _ => ?_
  refine keeps_bind (keeps_reads (reads_ofExcept _)) fun coin => ?_
  cases coin with
  | none => exact keeps_pure _
  | some c =>
    refine keeps_bind (keeps_update fun _ =>
      hR.mark ⟨rfl, rfl, rfl, rfl, rfl⟩ rfl trivial) fun _ => ?_
    exact keeps_actOnCoin hR hc c _ _

omit hc in
theorem keeps_voteOnPrevote (m : MPreVote) : Keeps R (voteOnPrevote cfg m) := by
  refine keeps_bind keeps_self fun s => keeps_ite (keeps_pure _) ?_
  cases m.tag with
  | Yes v p =>
    refine keeps_bind (keeps_update fun _ => hR.same ⟨rfl, rfl, rfl, rfl, rfl⟩ rfl) fun _ => ?_
    refine keeps_bind (keeps_makeSpbVote hR v) fun vote => ?_
    cases vote with
    | none => exact keeps_pure _
    | some x => exact keeps_bind (keeps_emit hR trivial) fun _ => keeps_pure _
  | No =>
    refine keeps_bind (keeps_update fun _ => hR.same ⟨rfl, rfl, rfl, rfl, rfl⟩ rfl) fun _ => ?_
    refine keeps_ite ?_ (keeps_pure _)
    exact keeps_bind (keeps_update fun _ => hR.mark ⟨rfl, rfl, rfl, rfl, rfl⟩ rfl trivial)
      fun _ => keeps_pure _

theorem keeps_handleSmvbaPrevote (m : MPreVote) : Keeps R (handleSmvbaPrevote cfg call m) := by
  refine keeps_bind (keeps_smvbaMsgFilter _ _) fun _ => keeps_bind (keeps_ensureM _ _) fun _ => ?_
  refine keeps_bind (keeps_check _) fun _ => ?_
  refine keeps_bind (keeps_update fun _ => hR.same ⟨rfl, rfl, rfl, rfl, rfl⟩ rfl) fun _ => ?_
  refine keeps_bind (keeps_voteOnPrevote hR m) fun vote => ?_
  cases vote with
  | none => exact keeps_pure _
  | some v => exact keeps_bind (keeps_transmit hR trivial) fun _ => hc _ trivial

omit hR in
theorem keeps_advanceOnQuorum (m : MVote) (weight : ℕ) :
    Keeps R (advanceOnQuorum cfg call m weight) :=
  keeps_when (keeps_bind (keeps_add _ _) fun _ => hc _ trivial)

theorem keeps_handleSmvbaMvote (m : MVote) : Keeps R (handleSmvbaMvote cfg call m) := by
  refine keeps_bind (keeps_smvbaMsgFilter _ _) fun _ => keeps_bind (keeps_ensureM _ _) fun _ => ?_
  refine keeps_bind (keeps_check _) fun _ => keeps_bind keeps_self fun s => ?_
  refine keeps_bind (keeps_update fun _ =>
    hR.mark ⟨rfl, rfl, rfl, rfl, rfl⟩ rfl trivial) fun _ => ?_
  cases m.tag with
  | No => exact keeps_advanceOnQuorum hc m _
  | Yes v p x =>
    refine keeps_bind (keeps_collect hR fun _ => trivial) fun proof => ?_
    cases proof with
    | some p => exact keeps_sendHalt hR hc _ _ _
    | none => exact keeps_advanceOnQuorum hc m _

theorem keeps_handleSmvbaHalt (m : MHalt) : Keeps R (handleSmvbaHalt cfg call m) := by
  refine keeps_bind (keeps_smvbaMsgFilter _ _) fun _ => keeps_bind (keeps_ensureM _ _) fun _ => ?_
  refine keeps_bind (keeps_check _) fun _ => keeps_bind keeps_self fun s => ?_
  refine keeps_ite (keeps_pure _) ?_
  refine keeps_bind (keeps_update fun _ => hR.same ⟨rfl, rfl, rfl, rfl, rfl⟩ rfl) fun _ => ?_
  refine keeps_bind keeps_self fun s => ?_
  refine keeps_ite (keeps_pure _) ?_
  refine keeps_bind (keeps_update fun _ =>
    hR.mark ⟨rfl, rfl, rfl, rfl, rfl⟩ rfl trivial) fun _ => ?_
  exact keeps_bind (keeps_mempoolVerify hR _ _) fun ok => keeps_ite (hc _ trivial) (keeps_pure _)

theorem keeps_commitParOut : Keeps R (commitParOut call b) := by
  refine keeps_bind (keeps_emit hR trivial) fun _ => keeps_bind (keeps_storeBlock hR b) fun _ => ?_
  refine keeps_bind keeps_self fun s => keeps_ite ?_ (keeps_emit hR trivial)
  exact keeps_bind (keeps_commitAndSend hR hc _) fun _ => keeps_ite (keeps_fail _)
    (keeps_emit hR trivial)

theorem keeps_processParOut : Keeps R (processParOut call b) := by
  refine keeps_bind keeps_self fun s => keeps_ite (keeps_pure _) ?_
  refine keeps_bind (keeps_add _ _) fun _ => ?_
  refine keeps_ite (keeps_pure _) (keeps_ite ?_ (keeps_commitParOut hR hc))
  exact keeps_bind (keeps_add _ _) fun _ => hc _ trivial

end Handlers

theorem keeps_exec : ∀ fuel c, Aside c → Keeps R (exec cfg fuel c)
  | 0, _, _ => fun _ => .refl
  | fuel + 1, c, hc => by
    have ih : ∀ c, Aside c → Keeps R (exec cfg fuel c) := keeps_exec fuel
    cases c with
    | commit b => exact keeps_commit hR ih
    | handleSyncRequest d k => exact keeps_handleSyncRequest hR d k
    | invokeFallback h q => exact keeps_invokeFallback hR ih h q
    | broadcastFallbackPropose b => exact keeps_broadcastFallbackPropose hR ih
    | handleFallbackVote v => exact keeps_handleFallbackVote hR ih v
    | processFallbackPropose b => exact keeps_processFallbackPropose hR ih
    | activePreparePhase h q v => exact keeps_activePreparePhase hR ih h q v
    | handleParPrepare p => exact keeps_handleParPrepare hR ih p
    | smvbaRoundAdvance h r => exact keeps_smvbaRoundAdvance hR ih h r
    | invokeSmvba h v sigs q => exact keeps_invokeSmvba hR ih h v sigs q
    | broadcastPesPropose v p => exact keeps_broadcastPesPropose hR ih v p
    | processSpbPropose v p => exact keeps_processSpbPropose hR ih v p
    | handleSpbVote x => exact keeps_handleSpbVote hR ih x
    | handleSpbFinish v p => exact keeps_handleSpbFinish hR ih v p
    | invokeDoneAndShare h r => exact keeps_invokeDoneAndShare hR ih h r
    | handleSmvbaDoneWithShare m => exact keeps_handleSmvbaDoneWithShare ih m
    | handleSmvbaDone m => exact keeps_handleSmvbaDone hR ih m
    | handleSmvbaRs x => exact keeps_handleSmvbaRs hR ih x
    | handleSmvbaPrevote m => exact keeps_handleSmvbaPrevote hR ih m
    | handleSmvbaMvote m => exact keeps_handleSmvbaMvote hR ih m
    | handleSmvbaHalt m => exact keeps_handleSmvbaHalt hR ih m
    | processParOut b => exact keeps_processParOut hR ih
    | _ => exact hc.elim

end Tolerant

end Core

end Ipotane
