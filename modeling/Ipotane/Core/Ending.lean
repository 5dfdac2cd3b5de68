import Ipotane.Core.Chain

/-! What ends an epoch: an output of the agreement, or a proposal of a later epoch. -/
namespace Ipotane

open Lib Handler

def ConsensusError.EndsEpoch : ConsensusError → Prop
  | EpochEnd _ => True
  | _ => False

/-! ### The checks of messages -/

def Harmless {α : Type} (x : Except ConsensusError α) : Prop := ∀ e, x = .error e → ¬ e.EndsEpoch

theorem harmless_ensure {p : Prop} [Decidable p] {e : ConsensusError} (h : ¬ e.EndsEpoch) :
    Harmless (ensure p e) := by
  intro e' he
  unfold ensure at he
  split at he
  · cases he
  · cases he
    exact h

theorem harmless_bind {α β : Type} {x : Except ConsensusError α} {f : α → Except ConsensusError β}
    (hx : Harmless x) (hf : ∀ a, Harmless (f a)) : Harmless (x >>= f) := by
  intro e he
  cases x with
  | error e' =>
    cases he
    exact hx e rfl
  | ok a => exact hf a e he

variable [Crypto]

theorem harmless_tally (c : Committee) (votes : List (PublicKey × Signature))
    (used : List PublicKey) (weight : ℕ) : Harmless (QC.tally c used weight votes) := by
  induction votes generalizing used weight with
  | nil => exact fun _ h => nomatch h
  | cons v votes ih =>
    exact harmless_bind (harmless_ensure id) fun _ => harmless_bind (harmless_ensure id)
      fun _ => ih _ _

theorem harmless_qcVerify (q : QC) (c : Committee) : Harmless (q.verify c) :=
  harmless_bind (harmless_tally c q.votes [] 0) fun _ =>
    harmless_bind (harmless_ensure id) fun _ => harmless_ensure id

theorem harmless_qcCheck (q : QC) (c : Committee) : Harmless (q.check c) := by
  unfold QC.check
  split
  · exact fun _ h => nomatch h
  · exact harmless_qcVerify q c

theorem harmless_blockVerify (b : Block) (c : Committee) : Harmless (b.verify c) :=
  harmless_bind (harmless_ensure id) fun _ =>
    harmless_bind (harmless_ensure id) fun _ => harmless_qcCheck b.qc c

theorem harmless_voteVerify (v : HVote) (c : Committee) : Harmless (v.verify c) :=
  harmless_bind (harmless_ensure id) fun _ => harmless_ensure id

theorem harmless_spbVoteVerify (x : SPBVote) (c : Committee) : Harmless (x.verify c) :=
  harmless_bind (harmless_ensure id) fun _ => harmless_ensure id

theorem harmless_prepareVerify (p : PrePare) (c : Committee) (n : ℕ) : Harmless (p.verify c n) :=
  harmless_bind (harmless_ensure id) fun _ => harmless_bind (harmless_ensure id) fun _ =>
    harmless_bind (harmless_qcCheck _ _) fun _ => harmless_ensure id

theorem harmless_proofTally (c : Committee) (shares : List SPBVote) (weight : ℕ) :
    Harmless (SPBProof.tally c weight shares) := by
  induction shares generalizing weight with
  | nil => exact fun _ h => nomatch h
  | cons x shares ih => exact harmless_bind (harmless_ensure id) fun _ => ih _

theorem harmless_verifyShares (c : Committee) (shares : List SPBVote) :
    Harmless (SPBProof.verifyShares c shares) := by
  induction shares with
  | nil => exact fun _ h => nomatch h
  | cons x shares ih => exact harmless_bind (harmless_spbVoteVerify x c) fun _ => ih

theorem harmless_proofVerify (p : SPBProof) (c : Committee) : Harmless (p.verify c) := by
  unfold SPBProof.verify
  split
  · exact fun _ h => nomatch h
  · exact harmless_bind (harmless_proofTally c _ _) fun _ =>
      harmless_bind (harmless_ensure id) fun _ => harmless_verifyShares c _

theorem harmless_valueVerify (v : SPBValue) (c : Committee) (p : SPBProof) (n : ℕ) :
    Harmless (v.verify c p n) := by
  refine harmless_bind ?_ fun _ => harmless_bind (harmless_ensure id) fun _ =>
    harmless_bind (harmless_blockVerify _ _) fun _ => harmless_proofVerify _ _
  unfold SPBValue.verifySignatures
  split
  · exact harmless_ensure id
  · exact harmless_ensure id

theorem harmless_shareVerify (x : RandomnessShare) (c : Committee) : Harmless (x.verify c) :=
  harmless_bind (harmless_ensure id) fun _ => harmless_ensure id

theorem harmless_doneVerify (m : MDoneAndShare) (c : Committee) : Harmless (m.verify c) :=
  harmless_bind (harmless_ensure id) fun _ => harmless_shareVerify _ _

theorem harmless_prevoteVerify (m : MPreVote) (c : Committee) (n : ℕ) :
    Harmless (m.verify c n) := by
  refine harmless_bind (harmless_ensure id) fun _ => harmless_bind (harmless_ensure id) fun _ => ?_
  cases m.tag with
  | Yes v p => exact harmless_valueVerify v c p n
  | No => exact fun _ h => nomatch h

theorem harmless_mvoteVerify (m : MVote) (c : Committee) (n : ℕ) : Harmless (m.verify c n) := by
  refine harmless_bind (harmless_ensure id) fun _ => harmless_bind (harmless_ensure id) fun _ => ?_
  cases m.tag with
  | Yes v p x =>
    exact harmless_bind (harmless_valueVerify v c p n) fun _ => harmless_spbVoteVerify x c
  | No => exact fun _ h => nomatch h

theorem harmless_haltVerify (m : MHalt) (c : Committee) (n : ℕ) : Harmless (m.verify c n) :=
  harmless_bind (harmless_ensure id) fun _ => harmless_bind (harmless_ensure id) fun _ =>
    harmless_bind (harmless_ensure id) fun _ => harmless_valueVerify _ _ _ _

theorem harmless_qcAppend (m : QCMaker) (v : HVote) (c : Committee) :
    Harmless (m.append v c).1 := by
  intro e he
  unfold QCMaker.append at he
  split at he
  · cases he
    exact id
  · dsimp only at he
    split at he <;> cases he

theorem harmless_proofAppend (m : ProofMaker) (x : SPBVote) (c : Committee) :
    Harmless (m.append x c).1 := by
  intro e he
  unfold ProofMaker.append at he
  split at he
  · cases he
    exact id
  · dsimp only at he
    split at he <;> cases he

theorem harmless_shareAppend (m : SMVBARandomCoinMaker) (x : RandomnessShare) (c : Committee) :
    Harmless (m.append x c).1 := by
  intro e he
  unfold SMVBARandomCoinMaker.append at he
  split at he
  · cases he
    exact id
  · dsimp only at he
    split at he
    · split at he <;> cases he
    · cases he

namespace Core

/-! ### The handlers -/

/-- The node has committed an output of the agreement that is tagged `PES`. -/
def Concluded (s : Core) : Prop := ∃ b, s.Did (.commit b .smvbaOutput) ∧ b.tag = PES

/-- The handler ends the epoch only after such a commit. -/
abbrev Ends {α : Type} (x : M α) : Prop := Raises ConsensusError.EndsEpoch Concluded x

variable {cfg : Config} {call : Call → M Unit} {b : Block}

theorem ends_ensureM {p : Prop} [Decidable p] {e : ConsensusError} (h : ¬ e.EndsEpoch) :
    Ends (ensureM p e) :=
  raises_ite (raises_pure ()) (raises_fail h)

theorem ends_add (m n : ℕ) : Ends (add m n) := raises_ite (raises_pure _) (raises_crash _)

theorem ends_sub (m n : ℕ) : Ends (sub m n) := raises_ite (raises_pure _) (raises_crash _)

section Lookups

variable {bad : ConsensusError → Prop} {Q : Core → Prop}

theorem raises_indexAsLeader (name : PublicKey) (height : ℕ) :
    Raises bad Q (indexAsLeader cfg name height) :=
  raises_ite (raises_pure _) (raises_crash _)

theorem raises_getParentBlock (b : Block) : Raises bad Q (getParentBlock b) := by
  refine raises_ite (raises_pure _) (raises_bind raises_self fun s => ?_)
  cases s.store.get b.parent with
  | some p => exact raises_pure _
  | none => exact raises_bind (raises_update _) fun _ => raises_pure _

theorem raises_getAncestors (b : Block) : Raises bad Q (getAncestors b) := by
  refine raises_bind (raises_getParentBlock b) fun b1 => ?_
  cases b1 with
  | none => exact raises_pure _
  | some b1 =>
    refine raises_bind (raises_getParentBlock b1) fun b0 => ?_
    cases b0 with
    | none => exact raises_crash _
    | some b0 => exact raises_pure _

end Lookups

theorem ends_transmit (m : ConsensusMessage) (dest : Option PublicKey) (tag : ℕ) :
    Ends (transmit cfg m dest tag) :=
  raises_bind (ends_ensureM id) fun _ => raises_update _

theorem ends_generateProposal (height round : ℕ) (qc : Option QC) (tag : ℕ) :
    Ends (generateProposal cfg height round qc tag) :=
  raises_bind (raises_of_ok fun _ _ h => nomatch h) fun _ => raises_bind raises_self fun _ =>
    raises_bind (raises_update _) fun _ => raises_pure _

theorem ends_processQc (qc : QC) : Ends (processQc qc) := by
  refine raises_bind (raises_bind raises_self fun _ => raises_ite (raises_pure _) ?_)
    fun _ => raises_update _
  exact raises_bind (ends_add _ _) fun _ => raises_update _

theorem ends_mempoolVerify (b : Block) (tag : ℕ) : Ends (mempoolVerify cfg b tag) := by
  refine raises_bind raises_self fun s => raises_bind (raises_update _) fun _ => ?_
  cases cfg.status s.requests with
  | Accept => exact raises_bind (raises_update _) fun _ => raises_pure _
  | Reject => exact raises_fail id
  | Wait => exact raises_bind (raises_update _) fun _ => raises_pure _

theorem ends_collect {α : Type} {add : Aggregator → Appended α Aggregator} {mark : α → Event}
    (h : ∀ a, Harmless (add a).1) : Ends (collect add mark) := by
  intro s e he hb
  unfold collect at he
  split at he
  · rename_i hadd
    cases he
    exact absurd hb (h _ _ (by rw [hadd]))
  · cases he
  · cases he

theorem ends_check {p : Prop} [Decidable p] {x : Check} (h : Harmless x) :
    Ends (when p (ofExcept x)) :=
  raises_when (raises_ofExcept h)

theorem ends_fallbackMessageFilter (epoch height : ℕ) : Ends (fallbackMessageFilter epoch height) :=
  raises_bind raises_self fun _ => raises_bind (ends_add _ _) fun _ => raises_pure _

theorem ends_smvbaMsgFilter (epoch height : ℕ) : Ends (smvbaMsgFilter epoch height) :=
  raises_bind raises_self fun _ =>
    raises_ite (raises_pure _) (raises_bind (ends_add _ _) fun _ => raises_pure _)

/-- The calls that one handler makes to another; the rest are only made by the event loop. -/
def Inner : Call → Prop
  | .handleOptProposal _ | .handleFallbackPropose _ | .handleSpbProposal _ _ => False
  | _ => True

section Inner

variable (hc : ∀ c, Inner c → Ends (call c))
include hc

theorem ends_commit : Ends (commit call b) := by
  refine raises_bind raises_self fun s => raises_when ?_
  refine raises_bind (raises_when (raises_update _)) fun _ => ?_
  refine raises_bind (raises_getParentBlock b) fun p => ?_
  cases p with
  | none => exact raises_pure _
  | some p => exact hc _ trivial

theorem ends_commitAndSend (rule : CommitRule) : Ends (commitAndSend call b rule) :=
  raises_bind (hc _ trivial) fun _ => raises_update _

theorem ends_optPropose : Ends (optPropose cfg call) := by
  refine raises_bind raises_self fun s => raises_bind (raises_indexAsLeader _ _) fun idx => ?_
  cases idx with
  | none => exact raises_crash _
  | some i =>
    refine raises_bind (ends_generateProposal _ _ _ _) fun b => ?_
    exact raises_bind (ends_transmit _ _ _) fun _ => hc _ trivial

omit hc in
theorem ends_sendVote (v : HVote) : ∀ leaders, Ends (sendVote cfg v leaders)
  | [] => raises_pure _
  | _ :: leaders => raises_bind (raises_when (ends_transmit _ _ _)) fun _ => ends_sendVote v leaders

theorem ends_optVoteSection : Ends (optVoteSection cfg call b) := by
  refine raises_bind raises_self fun s => raises_when (raises_bind ?_ fun vote => ?_)
  · exact raises_bind (ends_add _ _) fun _ => raises_bind raises_self fun _ =>
      raises_ite (raises_bind (raises_update _) fun _ => raises_pure _) (raises_pure _)
  · cases vote with
    | none => exact raises_pure _
    | some v =>
      refine raises_bind (ends_add _ _) fun _ => raises_bind (ends_sendVote v _) fun _ => ?_
      refine raises_bind (raises_indexAsLeader _ _) fun idx => raises_when ?_
      exact raises_bind (raises_update _) fun _ => hc _ trivial

theorem ends_optCommitSection (b0 b1 : Block) : Ends (optCommitSection call b b0 b1) :=
  raises_bind (ends_add _ _) fun _ => raises_bind (ends_add _ _) fun _ =>
    raises_bind (ends_ensureM id) fun _ => raises_bind raises_self fun _ =>
      raises_when (ends_commitAndSend hc _)

theorem ends_optPrepareSection : Ends (optPrepareSection cfg call b) := by
  refine raises_bind (raises_when ?_) fun _ => raises_bind (raises_when (hc _ trivial)) fun _ =>
    raises_when (hc _ trivial)
  exact raises_bind raises_self fun _ => raises_bind (ends_sub _ _) fun _ => raises_update _

theorem ends_processOptBlock : Ends (processOptBlock cfg call b) := by
  refine raises_bind raises_self fun s => raises_bind (raises_update _) fun _ => ?_
  refine raises_bind (raises_indexAsLeader _ _) fun idx => ?_
  refine raises_bind (raises_when (raises_update _)) fun _ => ?_
  refine raises_bind (raises_getAncestors b) fun ancestors => ?_
  cases ancestors with
  | none => exact raises_pure _
  | some x =>
    refine raises_bind (raises_update _) fun _ =>
      raises_bind (ends_optPrepareSection hc) fun _ => ?_
    exact raises_bind (ends_optCommitSection hc _ _) fun _ => ends_optVoteSection hc

theorem ends_handleOptVote {v : HVote} : Ends (handleOptVote cfg call v) := by
  refine raises_bind raises_self fun s => raises_ite (raises_pure _) ?_
  refine raises_bind (ends_add _ _) fun next => raises_bind (raises_indexAsLeader _ _) fun idx => ?_
  refine raises_bind (ends_ensureM id) fun _ => ?_
  refine raises_bind (raises_ofExcept (harmless_voteVerify _ _)) fun _ => ?_
  refine raises_bind (ends_collect fun a => harmless_qcAppend _ _ _) fun qc => ?_
  cases qc with
  | none => exact raises_pure _
  | some qc =>
    refine raises_bind (ends_processQc _) fun _ => ?_
    match idx with
    | none => exact raises_pure _
    | some 0 => exact hc _ trivial
    | some (i + 1) => exact raises_update _

theorem ends_admitOptProposal : Ends (admitOptProposal cfg call b) := by
  refine raises_bind (raises_indexAsLeader _ _) fun idx => raises_bind (ends_ensureM id) fun _ => ?_
  refine raises_bind (raises_ofExcept (harmless_blockVerify _ _)) fun _ => ?_
  refine raises_bind (raises_update _) fun _ => ?_
  refine raises_bind (raises_when (raises_bind raises_self fun _ => raises_update _)) fun _ => ?_
  refine raises_bind (ends_processQc _) fun _ => ?_
  exact raises_bind (ends_mempoolVerify _ _) fun ok => raises_ite (hc _ trivial) (raises_pure _)

theorem ends_invokeFallback (height : ℕ) (qc : Option QC) :
    Ends (invokeFallback cfg call height qc) := by
  refine raises_bind raises_self fun s => raises_ite (raises_pure _) ?_
  refine raises_bind (raises_update _) fun _ => ?_
  exact raises_bind (ends_generateProposal _ _ _ _) fun _ => hc _ trivial

theorem ends_broadcastFallbackPropose : Ends (broadcastFallbackPropose cfg call b) := by
  refine raises_bind (raises_update _) fun _ => raises_bind raises_self fun s => ?_
  exact raises_ite (raises_pure _) (raises_bind (ends_transmit _ _ _) fun _ => hc _ trivial)

theorem ends_extendFallback (qc : QC) : Ends (extendFallback cfg call qc) := by
  refine raises_bind (raises_update _) fun _ => raises_ite (raises_ite ?_ (raises_ite ?_ ?_)) ?_
  · exact raises_bind (ends_add _ _) fun _ =>
      raises_bind (ends_generateProposal _ _ _ _) fun _ => hc _ trivial
  · exact hc _ trivial
  · exact raises_pure _
  · exact raises_pure _

theorem ends_handleFallbackVote {v : HVote} : Ends (handleFallbackVote cfg call v) := by
  refine raises_bind (ends_fallbackMessageFilter _ _) fun _ =>
    raises_bind (ends_ensureM id) fun _ => ?_
  refine raises_bind (ends_check (harmless_voteVerify _ _)) fun _ => ?_
  refine raises_bind (ends_collect fun a => harmless_qcAppend _ _ _) fun qc => ?_
  cases qc with
  | none => exact raises_pure _
  | some qc => exact ends_extendFallback hc qc

theorem ends_processFallbackPropose : Ends (processFallbackPropose cfg call b) := by
  refine raises_bind (ends_fallbackMessageFilter _ _) fun _ =>
    raises_bind (ends_ensureM id) fun _ => ?_
  refine raises_bind (raises_update _) fun _ => raises_bind (raises_update _) fun _ => ?_
  refine raises_bind ?_ fun vote => ?_
  · refine raises_bind raises_self fun s => raises_bind (ends_add _ _) fun _ => ?_
    exact raises_ite (raises_pure _) (raises_bind (raises_update _) fun _ => raises_pure _)
  · cases vote with
    | none => exact raises_pure _
    | some v =>
      exact raises_ite (raises_bind (raises_update _) fun _ => hc _ trivial) (ends_transmit _ _ _)

theorem ends_activePreparePhase (height : ℕ) (qc : QC) (val : ℕ) :
    Ends (activePreparePhase cfg call height qc val) := by
  refine raises_bind raises_self fun s => raises_ite (raises_pure _) ?_
  refine raises_bind (raises_update _) fun _ => ?_
  exact raises_bind (ends_transmit _ _ _) fun _ => hc _ trivial

theorem ends_countOptPrepare (p : PrePare) : Ends (countOptPrepare cfg call p) := by
  refine raises_bind raises_self fun s => raises_bind (ends_ensureM id) fun _ => ?_
  refine raises_bind (raises_update _) fun _ => raises_bind (raises_when ?_) fun _ => hc _ trivial
  refine raises_bind (raises_bind raises_self fun s => ?_) fun _ => raises_when ?_
  · cases s.store.get p.qc.hash with
    | none => exact raises_pure _
    | some b => exact raises_when (ends_commitAndSend hc _)
  · exact raises_bind raises_self fun _ => raises_update _

theorem ends_countPesPrepare (p : PrePare) : Ends (countPesPrepare cfg call p) := by
  refine raises_bind raises_self fun s => raises_bind (ends_ensureM id) fun _ => ?_
  refine raises_bind (raises_update _) fun _ =>
    raises_when (raises_bind (raises_update _) fun _ => ?_)
  refine raises_bind raises_self fun s => ?_
  cases s.fallbackHighQc.getD (p.height, cfg.parameters.fallbackLength) none with
  | none => exact raises_pure _
  | some qc => exact hc _ trivial

theorem ends_handleParPrepare (p : PrePare) : Ends (handleParPrepare cfg call p) := by
  refine raises_bind raises_self fun s => raises_bind (ends_ensureM id) fun _ => ?_
  refine raises_bind (ends_add _ _) fun _ => raises_bind (ends_ensureM id) fun _ => ?_
  refine raises_bind (ends_check (harmless_prepareVerify _ _ _)) fun _ => ?_
  refine raises_bind (raises_update _) fun _ => raises_ite (ends_countOptPrepare hc p) ?_
  exact raises_ite (ends_countPesPrepare hc p) (raises_fail id)

omit hc in
theorem ends_smvbaRoundAdvance (height round : ℕ) :
    Ends (smvbaRoundAdvance cfg call height round) := by
  refine raises_bind (raises_update _) fun _ => raises_bind raises_self fun s => ?_
  cases s.spbProposes.get (height, 1) with
  | none => exact raises_pure _
  | some last =>
    refine raises_bind (raises_update _) fun _ => raises_bind (ends_add _ _) fun _ => ?_
    exact raises_bind (ends_generateProposal _ _ _ _) fun _ => raises_expect _ _

theorem ends_invokeSmvba (height val : ℕ) (sigs : List (PublicKey × Signature)) (qc : Option QC) :
    Ends (invokeSmvba cfg call height val sigs qc) := by
  refine raises_bind (raises_update _) fun _ => raises_bind raises_self fun s => ?_
  refine raises_ite (raises_pure _)
    (raises_bind (raises_update _) fun _ => raises_bind ?_ fun b => ?_)
  · refine raises_ite (raises_bind raises_self fun _ => raises_pure _) ?_
    exact raises_bind (ends_add _ _) fun _ => ends_generateProposal _ _ _ _
  · exact raises_bind (raises_update _) fun _ => raises_bind raises_self fun _ => hc _ trivial

theorem ends_broadcastPesPropose (v : SPBValue) (p : SPBProof) :
    Ends (broadcastPesPropose cfg call v p) :=
  raises_bind (raises_when (raises_update _)) fun _ =>
    raises_bind (ends_transmit _ _ _) fun _ => hc _ trivial

omit hc in
theorem ends_makeSpbVote (v : SPBValue) : Ends (makeSpbVote cfg v) :=
  raises_ite (raises_pure _) (raises_bind (raises_update _) fun _ => raises_pure _)

theorem ends_processSpbPropose (v : SPBValue) (p : SPBProof) :
    Ends (processSpbPropose cfg call v p) := by
  refine raises_bind (raises_when (raises_update _)) fun _ => ?_
  refine raises_bind (ends_makeSpbVote v) fun vote => ?_
  cases vote with
  | none => exact raises_pure _
  | some x =>
    exact raises_ite (raises_bind (raises_update _) fun _ => hc _ trivial) (ends_transmit _ _ _)

theorem ends_advanceSpb (p : SPBProof) : Ends (advanceSpb cfg call p) := by
  refine raises_bind raises_self fun s => ?_
  cases s.spbProposes.get (p.height, p.round) with
  | none => exact raises_crash _
  | some v =>
    refine raises_ite (hc _ trivial) (raises_ite ?_ (raises_pure _))
    exact raises_bind (ends_transmit _ _ _) fun _ => hc _ trivial

theorem ends_handleSpbVote (x : SPBVote) : Ends (handleSpbVote cfg call x) := by
  refine raises_bind (ends_smvbaMsgFilter _ _) fun _ => raises_bind (ends_ensureM id) fun _ => ?_
  refine raises_bind (ends_check (harmless_spbVoteVerify _ _)) fun _ => ?_
  refine raises_bind (ends_collect fun a => harmless_proofAppend _ _ _) fun proof => ?_
  cases proof with
  | none => exact raises_pure _
  | some p => exact ends_advanceSpb hc p

theorem ends_handleSpbFinish (v : SPBValue) (p : SPBProof) :
    Ends (handleSpbFinish cfg call v p) := by
  refine raises_bind (ends_smvbaMsgFilter _ _) fun _ => raises_bind (ends_ensureM id) fun _ => ?_
  refine raises_bind (ends_check (harmless_valueVerify _ _ _ _)) fun _ => ?_
  refine raises_bind (raises_update _) fun _ => raises_bind raises_self fun s => ?_
  refine raises_ite (raises_pure _) (raises_ite ?_ (raises_pure _))
  exact raises_bind (raises_update _) fun _ => hc _ trivial

theorem ends_invokeDoneAndShare (height round : ℕ) :
    Ends (invokeDoneAndShare cfg call height round) :=
  raises_bind raises_self fun _ => raises_bind (raises_update _) fun _ =>
    raises_bind (raises_update _) fun _ => raises_bind (ends_transmit _ _ _) fun _ => hc _ trivial

theorem ends_handleSmvbaDoneWithShare (m : MDoneAndShare) :
    Ends (handleSmvbaDoneWithShare call m) :=
  raises_bind (hc _ trivial) fun _ => hc _ trivial

theorem ends_handleSmvbaDone (m : MDoneAndShare) : Ends (handleSmvbaDone cfg call m) := by
  refine raises_bind (ends_smvbaMsgFilter _ _) fun _ => raises_bind (ends_ensureM id) fun _ => ?_
  refine raises_bind (ends_check (harmless_doneVerify _ _)) fun _ =>
    raises_bind raises_self fun s => ?_
  refine raises_bind (raises_update _) fun _ => raises_bind raises_self fun s => raises_ite ?_ ?_
  · exact raises_bind (raises_update _) fun _ => hc _ trivial
  · exact raises_ite (raises_update _) (raises_pure _)

theorem ends_sendHalt (leader : PublicKey) (v : SPBValue) (p : SPBProof) :
    Ends (sendHalt cfg call leader v p) :=
  raises_bind (raises_update _) fun _ => raises_bind (ends_transmit _ _ _) fun _ => hc _ trivial

theorem ends_actOnCoin (coin : RandomCoin) (height round : ℕ) :
    Ends (actOnCoin cfg call coin height round) := by
  refine raises_bind (raises_update _) fun _ => raises_bind raises_self fun s => ?_
  cases (s.spbFinishs.getD (coin.height, coin.round) []).lookup coin.leader with
  | some x => exact ends_sendHalt hc _ _ _
  | none =>
    refine raises_bind (raises_update _) fun _ => raises_bind (raises_update _) fun _ => ?_
    refine raises_bind raises_self fun s => ?_
    cases (s.spbLocks.getD (coin.height, coin.round) []).lookup coin.leader with
    | some x =>
      exact raises_bind (raises_update _) fun _ => raises_bind (ends_transmit _ _ _)
        fun _ => hc _ trivial
    | none => exact raises_bind (ends_transmit _ _ _) fun _ => hc _ trivial

theorem ends_handleSmvbaRs (x : RandomnessShare) : Ends (handleSmvbaRs cfg call x) := by
  refine raises_bind (ends_smvbaMsgFilter _ _) fun _ => raises_bind (ends_ensureM id) fun _ => ?_
  refine raises_bind (ends_check (harmless_shareVerify _ _)) fun _ =>
    raises_bind raises_self fun s => ?_
  refine raises_ite (raises_pure _) (raises_ite (raises_crash _) ?_)
  refine raises_bind (raises_update _) fun _ => raises_bind (raises_ofExcept ?_) fun coin => ?_
  · exact harmless_shareAppend _ _ _
  · cases coin with
    | none => exact raises_pure _
    | some c => exact raises_bind (raises_update _) fun _ => ends_actOnCoin hc c _ _

omit hc in
theorem ends_voteOnPrevote (m : MPreVote) : Ends (voteOnPrevote cfg m) := by
  refine raises_bind raises_self fun s => raises_ite (raises_pure _) ?_
  cases m.tag with
  | Yes v p =>
    refine raises_bind (raises_update _) fun _ => raises_bind (ends_makeSpbVote v) fun vote => ?_
    cases vote with
    | none => exact raises_pure _
    | some x => exact raises_bind (raises_update _) fun _ => raises_pure _
  | No =>
    refine raises_bind (raises_update _) fun _ => raises_ite ?_ (raises_pure _)
    exact raises_bind (raises_update _) fun _ => raises_pure _

theorem ends_handleSmvbaPrevote (m : MPreVote) : Ends (handleSmvbaPrevote cfg call m) := by
  refine raises_bind (ends_smvbaMsgFilter _ _) fun _ => raises_bind (ends_ensureM id) fun _ => ?_
  refine raises_bind (ends_check (harmless_prevoteVerify _ _ _)) fun _ => ?_
  refine raises_bind (raises_update _) fun _ => raises_bind (ends_voteOnPrevote m) fun vote => ?_
  cases vote with
  | none => exact raises_pure _
  | some v => exact raises_bind (ends_transmit _ _ _) fun _ => hc _ trivial

theorem ends_advanceOnQuorum (m : MVote) (weight : ℕ) : Ends (advanceOnQuorum cfg call m weight) :=
  raises_when (raises_bind (ends_add _ _) fun _ => hc _ trivial)

theorem ends_handleSmvbaMvote (m : MVote) : Ends (handleSmvbaMvote cfg call m) := by
  refine raises_bind (ends_smvbaMsgFilter _ _) fun _ => raises_bind (ends_ensureM id) fun _ => ?_
  refine raises_bind (ends_check (harmless_mvoteVerify _ _ _)) fun _ =>
    raises_bind raises_self fun s => ?_
  refine raises_bind (raises_update _) fun _ => ?_
  cases m.tag with
  | No => exact ends_advanceOnQuorum hc m _
  | Yes v p x =>
    refine raises_bind (ends_collect fun a => harmless_proofAppend _ _ _) fun proof => ?_
    cases proof with
    | some p => exact ends_sendHalt hc _ _ _
    | none => exact ends_advanceOnQuorum hc m _

theorem ends_handleSmvbaHalt (m : MHalt) : Ends (handleSmvbaHalt cfg call m) := by
  refine raises_bind (ends_smvbaMsgFilter _ _) fun _ => raises_bind (ends_ensureM id) fun _ => ?_
  refine raises_bind (ends_check (harmless_haltVerify _ _ _)) fun _ =>
    raises_bind raises_self fun s => ?_
  refine raises_ite (raises_pure _) (raises_bind (raises_update _) fun _ => ?_)
  refine raises_bind raises_self fun s => raises_ite (raises_pure _) ?_
  refine raises_bind (raises_update _) fun _ => raises_bind (ends_mempoolVerify _ _) fun ok => ?_
  exact raises_ite (hc _ trivial) (raises_pure _)

theorem ends_commitParOut : Ends (commitParOut call b) := by
  refine raises_bind (raises_update _) fun _ => raises_bind (raises_update _) fun _ => ?_
  refine raises_bind raises_self fun s => ?_
  refine raises_ite (raises_bind_ok (P := fun t => t.Did (.commit b .smvbaOutput))
    (ends_commitAndSend hc _) ?_ ?_) (raises_update _)
  · intro s _ t h
    obtain ⟨_, u, _, h⟩ := bind_ok h
    cases h
    exact List.mem_cons_self
  · intro _ t e hd he hb
    by_cases ht : b.tag = PES
    · rw [if_pos ht]
      exact ⟨b, hd, ht⟩
    · rw [if_neg ht] at he
      cases he

theorem ends_processParOut : Ends (processParOut call b) := by
  refine raises_bind raises_self fun s => raises_ite (raises_pure _) ?_
  refine raises_bind (ends_add _ _) fun _ => raises_ite (raises_pure _) (raises_ite ?_ ?_)
  · exact raises_bind (ends_add _ _) fun _ => hc _ trivial
  · exact ends_commitParOut hc

end Inner

theorem ends_exec : ∀ fuel c, Inner c → Ends (exec cfg fuel c)
  | 0, _, _ => raises_exhaust
  | fuel + 1, c, hc => by
    have ih : ∀ c, Inner c → Ends (exec cfg fuel c) := ends_exec fuel
    cases c with
    | commit b => exact ends_commit ih
    | optPropose => exact ends_optPropose ih
    | handleOptProposal b => exact hc.elim
    | processOptBlock b => exact ends_processOptBlock ih
    | handleOptVote v => exact ends_handleOptVote ih
    | handleSyncRequest d k =>
      refine raises_bind raises_self fun s => ?_
      cases s.store.get d with
      | none => exact raises_pure _
      | some b => exact ends_transmit _ _ _
    | invokeFallback h q => exact ends_invokeFallback ih h q
    | broadcastFallbackPropose b => exact ends_broadcastFallbackPropose ih
    | handleFallbackVote v => exact ends_handleFallbackVote ih
    | handleFallbackPropose b => exact hc.elim
    | processFallbackPropose b => exact ends_processFallbackPropose ih
    | activePreparePhase h q v => exact ends_activePreparePhase ih h q v
    | handleParPrepare p => exact ends_handleParPrepare ih p
    | smvbaRoundAdvance h r => exact ends_smvbaRoundAdvance h r
    | invokeSmvba h v sigs q => exact ends_invokeSmvba ih h v sigs q
    | broadcastPesPropose v p => exact ends_broadcastPesPropose ih v p
    | handleSpbProposal v p => exact hc.elim
    | processSpbPropose v p => exact ends_processSpbPropose ih v p
    | handleSpbVote x => exact ends_handleSpbVote ih x
    | handleSpbFinish v p => exact ends_handleSpbFinish ih v p
    | invokeDoneAndShare h r => exact ends_invokeDoneAndShare ih h r
    | handleSmvbaDoneWithShare m => exact ends_handleSmvbaDoneWithShare ih m
    | handleSmvbaDone m => exact ends_handleSmvbaDone ih m
    | handleSmvbaRs x => exact ends_handleSmvbaRs ih x
    | handleSmvbaPrevote m => exact ends_handleSmvbaPrevote ih m
    | handleSmvbaMvote m => exact ends_handleSmvbaMvote ih m
    | handleSmvbaHalt m => exact ends_handleSmvbaHalt ih m
    | processParOut b => exact ends_processParOut ih

theorem ends_boot (fuel : ℕ) : Ends (boot cfg (exec cfg fuel)) := by
  refine raises_bind (raises_when ?_) fun _ => raises_when ?_
  · refine raises_bind raises_self fun s => raises_bind (raises_indexAsLeader _ _) fun idx => ?_
    match idx with
    | none => exact raises_pure _
    | some 0 => exact raises_ignoreErr _
    | some (i + 1) => exact raises_update _
  · exact raises_bind raises_self fun s => raises_expect _ _

/-! ### Proposals of a later epoch -/

/-- The block whose epoch a proposal makes a node believe in, after the checks of its handler. -/
def Believed (cfg : Config) : ConsensusMessage → Block → Prop
  | .HsPropose b, c | .SyncReply b, c => b = c
  | .FBPropose b, c => b = c ∧ (cfg.parameters.exp = 1 → b.verify cfg.committee = .ok ())
  | .SPBPropose v p, c => v.block = c ∧
      (cfg.parameters.exp = 1 → v.verify cfg.committee p cfg.parameters.fallbackLength = .ok ())
  | _, _ => False

/-- The epoch ends after such a commit, or because the believed block is of a later one. -/
abbrev EndsFor (cfg : Config) (m : ConsensusMessage) {α : Type} (x : M α) : Prop :=
  Raises ConsensusError.EndsEpoch
    (fun t => t.Concluded ∨ ∃ b, Believed cfg m b ∧ t.epoch < b.epoch) x

theorem Ends.endsFor {α : Type} {x : M α} (h : Ends x) (m : ConsensusMessage) : EndsFor cfg m x :=
  raises_mono h fun _ => .inl

theorem endsFor_buffer {m m' : ConsensusMessage} {s : Core} {x : M Unit} (hx : Ends x)
    (hm : Believed cfg m b) {e : ConsensusError}
    (he : ((if b.epoch > s.epoch then do
        update fun s => { s with unhandleMessage := s.unhandleMessage ++ [(b.epoch, m')] }
        fail (.EpochEnd s.epoch)
      else x : M Unit) s).1 = .err e) (hb : e.EndsEpoch) :
    (fun t : Core => t.Concluded ∨ ∃ b, Believed cfg m b ∧ t.epoch < b.epoch)
      ((if b.epoch > s.epoch then do
        update fun s => { s with unhandleMessage := s.unhandleMessage ++ [(b.epoch, m')] }
        fail (.EpochEnd s.epoch)
      else x : M Unit) s).2 := by
  by_cases hgt : b.epoch > s.epoch
  · rw [if_pos hgt]
    exact .inr ⟨b, hm, hgt⟩
  · rw [if_neg hgt] at he ⊢
    exact .inl (hx s e he hb)

theorem endsFor_handleOptProposal {m : ConsensusMessage} (fuel : ℕ) (hm : Believed cfg m b) :
    EndsFor cfg m (handleOptProposal cfg (exec cfg fuel) b) := by
  refine raises_self_bind fun s e he hb => ?_
  by_cases hlt : b.epoch < s.epoch
  · rw [if_pos hlt] at he
    cases he
  · rw [if_neg hlt] at he ⊢
    exact endsFor_buffer (ends_admitOptProposal (ends_exec fuel)) hm he hb

/-- A message that is checked before it is believed. -/
theorem endsFor_check {m : ConsensusMessage} {p : Prop} [Decidable p] {x : Check}
    {f : Unit → M Unit} (h : Harmless x) (hf : (p → x = .ok ()) → EndsFor cfg m (f ())) :
    EndsFor cfg m (when p (ofExcept x) >>= f) := by
  refine raises_bind_ok (P := fun _ => p → x = .ok ()) (Ends.endsFor (ends_check h) m) ?_ ?_
  · intro s u t hrun hp
    exact when_ofExcept_ok hrun hp
  · intro u t e hp
    exact hf hp t e

theorem endsFor_handleFallbackPropose (fuel : ℕ) :
    EndsFor cfg (.FBPropose b) (handleFallbackPropose cfg (exec cfg fuel) b) := by
  refine raises_bind (Ends.endsFor (ends_fallbackMessageFilter _ _) _) fun _ => ?_
  refine raises_bind (Ends.endsFor (ends_ensureM id) _) fun _ => ?_
  refine endsFor_check (harmless_blockVerify _ _) fun hver => ?_
  refine raises_self_bind fun s e he hb => endsFor_buffer ?_ ⟨rfl, hver⟩ he hb
  exact raises_bind (ends_mempoolVerify _ _) fun ok =>
    raises_ite (ends_exec fuel _ trivial) (raises_pure _)

theorem endsFor_handleSpbProposal (fuel : ℕ) (v : SPBValue) (p : SPBProof) :
    EndsFor cfg (.SPBPropose v p) (handleSpbProposal cfg (exec cfg fuel) v p) := by
  refine raises_bind (Ends.endsFor (ends_smvbaMsgFilter _ _) _) fun _ => ?_
  refine raises_bind (Ends.endsFor (ends_ensureM id) _) fun _ => ?_
  refine endsFor_check (harmless_valueVerify _ _ _ _) fun hver => ?_
  exact raises_self_bind fun s e he hb => endsFor_buffer (ends_exec fuel _ trivial)
    ⟨rfl, hver⟩ he hb

end Core

end Ipotane
