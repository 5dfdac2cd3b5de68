import Ipotane.Signers
import Ipotane.Endorsements

/-! What a quorum of optimistic prepares commits. -/
namespace Ipotane

open Lib Handler

section FastPath

variable [Crypto] {S : Setup} {cfg : Config} {s t : Core} {b : Block} {p : PrePare} {e : ℕ}
  {honest : PublicKey → Prop} {foreign : Cores → ConsensusMessage → Prop} {w : World}
  {i : PublicKey}

namespace Core

/-- What the channel of the optimistic path brings is tagged `OPT`. -/
def OptTagged : ℕ × Event → Prop
  | (_, .receive (.HsPropose b)) | (_, .receive (.SyncReply b)) | (_, .receive (.HsLoopBack b)) =>
    b.tag = OPT
  | _ => True

instance (x : ℕ × Event) : Decidable (OptTagged x) := by
  obtain ⟨_, x⟩ := x
  unfold OptTagged
  rcases x
  case receive m => rcases m <;> infer_instance
  all_goals infer_instance

/-- What the optimistic path then works on. -/
def OnOpt : Event → Prop
  | .send (.HsPropose b) _ _ | .process b _ | .endorse b => b.tag = OPT
  | _ => True

def OptInv (s : Core) : Prop := ∀ x ∈ s.trace, OnOpt x.2

theorem Admits.tag (hs : OptInv s) (hc : ∀ x ∈ s.trace, OptTagged x) (h : s.Admits cfg b) :
    b.tag = OPT := by
  cases h with
  | own h => exact hs _ h
  | loopback h => exact hc _ h
  | proposal h =>
    rcases h.received with hr | hr
    · exact hc _ hr
    · exact hc _ hr

theorem OptLog.onOpt (hs : OptInv s) (hc : ∀ x ∈ s.trace, OptTagged x) {y : Event}
    (h : s.OptLog cfg y) : OnOpt y := by
  unfold OptLog at h
  split at h
  case h_2 => exact h.2.1
  case h_7 => exact h.1.tag hs hc
  case h_12 => exact h.elim
  all_goals trivial

theorem PesLog.onOpt {y : Event} (h : s.PesLog cfg y) : OnOpt y := by
  unfold PesLog at h
  split at h
  case h_8 m dest tag =>
    cases m with
    | HsPropose b => exact h.1.elim
    | _ => trivial
  case h_15 => exact h.elim
  all_goals trivial

theorem Records.onOpt (hs : OptInv s) (hc : ∀ x ∈ s.trace, OptTagged x) {y : Event}
    (h : Records cfg s t y) : OnOpt y := by
  cases h with
  | opt h => exact h.onOpt hs hc
  | pes _ h => exact h.onOpt
  | endorse hp _ =>
    obtain ⟨height, hp⟩ := hp
    exact hs _ hp
  | _ => trivial

theorem OptInv.turn (hs : OptInv s) (hc : ∀ x ∈ t.trace, OptTagged x) (h : Turn cfg s t) :
    OptInv t := by
  have hcs : ∀ x ∈ s.trace, OptTagged x := fun x hx => hc x (h.trace.subset hx)
  intro x hx
  cases h with
  | step h =>
    rcases h.recorded hx with hx | ⟨_, hr⟩
    · exact hs x hx
    · exact hr.onOpt hs hcs
  | epoch _ ht =>
    subst ht
    rcases mem_renewed_trace hx with hx | rfl | ⟨m, rfl, _⟩
    · exact hs x hx
    · trivial
    · trivial

/-- Where only blocks of the optimistic path arrive on its channel, only such blocks
are voted for. -/
theorem Reachable.onOpt {alive : Bool} (h : Reachable cfg s alive)
    (hc : ∀ x ∈ s.trace, OptTagged x) : OptInv s := by
  refine (h.invariant (C := fun l => ∀ x ∈ l, OptTagged x) ?_ ?_ ?_ ?_).2 hc
  · exact fun l l' hl hc x hx => hc x (hl.subset hx)
  · intro x hx
    cases List.mem_singleton.mp hx
    trivial
  · intro s m hs _ x hx
    rcases List.mem_cons.mp hx with rfl | hx
    · trivial
    · exact hs x hx
  · exact fun s t _ hs hc ht => hs.turn hc ht

/-- What `handle_par_prepare` knows of the prepare that completes a quorum. -/
structure Completes (cfg : Config) (e : ℕ) (b : Block) (p : PrePare) : Prop where
  epoch : p.epoch = e
  val : p.val = OPT
  hash : b.digest = p.qc.hash
  checked : cfg.parameters.exp = 1 → p.verify cfg.committee cfg.parameters.fallbackLength = .ok ()

theorem Reachable.completes {alive : Bool} (h : Reachable cfg s alive)
    (hx : (e, .commit b (.fastPath p)) ∈ s.trace) : Completes cfg e b p := by
  refine h.recorded (P := fun x => x.2 = .commit b (.fastPath p) → Completes cfg x.1 b p)
    ?_ ?_ _ hx rfl
  · rintro u t y hr hy
    simp only at hy
    subst hy
    cases hr with
    | opt h => exact h.elim
    | pes _ h => exact h.elim
    | fastCommit _ _ hd hp hv _ _ _ => exact ⟨hp.epoch, hv, hd, hp.checked⟩
  · rintro e y ho rfl
    exact absurd trivial ho

end Core

/-- The committed block is the optimistic one of its height and epoch that the certificate in the
completing prepare is for. -/
structure CertifiedCommit (c : Committee) (e : ℕ) (b : Block) (p : PrePare) : Prop where
  height : b.height = p.height
  epoch : b.epoch = e
  tag : b.tag = OPT
  verified : p.qc.verify c = .ok ()
  hash : p.qc.hash = b.digest
  qcTag : p.qc.tag = OPT
  qcEpoch : p.qc.epoch = e
  qcHeight : p.qc.height = p.height

/-- What `PrePare::verify` does not compare. -/
def PrePare.Tied (p : PrePare) (c : Committee) : Prop :=
  p.qc.tag = OPT ∧ p.qc.epoch = p.epoch ∧ p.qc.height = p.height ∧
    (p.qc.isGenesis → p.qc.verify c = .ok ())

instance (p : PrePare) (c : Committee) : Decidable (p.Tied c) :=
  inferInstanceAs (Decidable (_ ∧ _ ∧ _ ∧ _))

/-- No other block that an honest node has voted for hashes to the digest of `b`, and the numbers
are those of the source's types. -/
def Block.Distinct (b : Block) (honest : PublicKey → Prop) (core : Cores) : Prop :=
  ∀ k p, honest k → (core k).Ever (.endorse p) → p.digest = b.digest →
    (SignedMessage.block p).hashed = (SignedMessage.block b).hashed ∧
      (SignedMessage.block p).Ranged ∧ (SignedMessage.block b).Ranged

/-- What is to be evaluated when the honest nodes are listed. -/
def Block.distinctAmong (b : Block) (l : List PublicKey) (core : Cores) : Bool :=
  l.all fun k => (core k).trace.all fun x =>
    match x.2 with
    | .endorse p => decide (p.digest = b.digest → SignedMessage.SameCovered (.block p) (.block b) ∧
        (SignedMessage.block p).Ranged ∧ (SignedMessage.block b).Ranged)
    | _ => true

theorem Block.distinct_of_among {l : List PublicKey} {core : Cores}
    (h : b.distinctAmong l core = true) : b.Distinct (· ∈ l) core := by
  rintro k p hk ⟨e, hp⟩ hd
  have hx := List.all_eq_true.mp (List.all_eq_true.mp h k hk) _ hp
  obtain ⟨hsame, hr⟩ := of_decide_eq_true hx hd
  exact ⟨hsame.hashed, hr⟩

theorem PrePare.verified_qc {c : Committee} {n : ℕ} (h : p.verify c n = .ok ())
    (hg : ¬ p.qc.isGenesis) : p.qc.verify c = .ok () := by
  unfold PrePare.verify at h
  rw [check_seq, check_seq, check_seq] at h
  have hq := h.2.2.1
  rwa [QC.check, if_neg hg] at hq

theorem certifiedCommit_iff_tied (h : Run S honest foreign w) (hexp : S.parameters.exp = 1)
    (hf : FaultBound S.committee honest)
    (hopt : ∀ k, honest k → ∀ x ∈ (w.core k).trace, Core.OptTagged x)
    (hg : p.qc.Genuine honest w.core) (hd : b.Distinct honest w.core)
    (hx : (e, .commit b (.fastPath p)) ∈ (w.core i).trace) :
    CertifiedCommit S.committee e b p ↔ p.Tied S.committee := by
  have hc := (h.reachable i).completes hx
  constructor
  · intro hs
    exact ⟨hs.qcTag, hs.qcEpoch.trans hc.epoch.symm, hs.qcHeight, fun _ => hs.verified⟩
  · rintro ⟨htag, hepoch, hheight, hgen⟩
    have hver : p.qc.verify S.committee = .ok () := by
      by_cases hq : p.qc.isGenesis
      · exact hgen hq
      · exact PrePare.verified_qc (hc.checked hexp) hq
    obtain ⟨k, q, hk, hq, hash, hqh, hqe⟩ :=
      (QC.verify_iff.mp hver).exists_endorsed h hg hf htag
    have hqt : q.tag = OPT := by
      obtain ⟨e', hq⟩ := hq
      exact (h.reachable k).onOpt (hopt k hk) _ hq
    obtain ⟨hhash, hqr, hbr⟩ := hd k q hk hq (hash.trans hc.hash.symm)
    obtain ⟨-, hh, he, -, -, ht⟩ := SignedMessage.sameCovered_of_hashed hqr hbr hhash
    exact ⟨hh.symm.trans (hqh.trans hheight), he.symm.trans (hqe.trans (hepoch.trans hc.epoch)),
      ht.symm.trans hqt, hver, hc.hash.symm, htag, hepoch.trans hc.epoch, hheight⟩

end FastPath

/-! ### A completing prepare with the certificate of its height and one with another -/

/-- The prepares of the faulty node for height `1`. -/
def tiedPrepare : PrePare := PrePare.new 2 0 1 (certify leaderProposal OPT) OPT

def untiedPrepare : PrePare := PrePare.new 2 0 1 (certify faultyFallback PES) OPT

/-- Nodes `0` and `1` have processed the block of height `2` and prepare height `1`; node `0`
takes the third prepare from node `2`. -/
def toQuorum (p : PrePare) : List Act :=
  toFallbackVotes ++ [.deliver 0 1 0, .forge 0 (.HsPropose proposalOnVotes) OPT,
    .forge 1 (.HsPropose proposalOnVotes) OPT, .deliver 0 1 5, .forge 0 (.ParPrePare p) PES]

theorem certifiedCommit_of_tiedPrepare : ∃ w i e b,
    Run sampleSetup (· ∈ honestNodes) (fun _ m => ∃ a ∈ toQuorum tiedPrepare, a.forged = some m) w ∧
    (e, .commit b (.fastPath tiedPrepare)) ∈ (w.core i).trace ∧
    CertifiedCommit fourNodes e b tiedPrepare := by
  obtain ⟨w, hr, hg, hopt, hd, hx⟩ := exists_attack sampleSetup (· ∈ honestNodes)
    (toQuorum tiedPrepare)
    (fun w => tiedPrepare.qc.GenuineAmong honestNodes w.core ∧
      (honestNodes.all fun k => (w.core k).trace.all fun x => decide (Core.OptTagged x)) = true ∧
      leaderProposal.distinctAmong honestNodes w.core = true ∧
      (0, .commit leaderProposal (.fastPath tiedPrepare)) ∈ (w.core 0).trace)
    (by decide) (by decide +kernel)
  refine ⟨w, 0, 0, leaderProposal, hr, hx, (certifiedCommit_iff_tied hr rfl ?_ ?_ hg.genuine
    (Block.distinct_of_among hd) hx).mpr ?_⟩
  · exact faultBound_of_filter (by decide +kernel)
  · intro k hk x hx
    exact of_decide_eq_true (List.all_eq_true.mp (List.all_eq_true.mp hopt k hk) x hx)
  · show tiedPrepare.Tied fourNodes
    decide +kernel

/-- The third prepare makes node `0` commit a fallback block. -/
theorem not_certifiedCommit_of_untiedPrepare :
    ¬ ∀ (S : Setup) (honest : PublicKey → Prop) (foreign : Cores → ConsensusMessage → Prop)
      (w : World) (i : PublicKey) (e : ℕ) (b : Block) (p : PrePare), S.committee.total % 3 = 1 →
      S.parameters.exp = 1 → FaultBound S.committee honest → Run S honest foreign w → honest i →
      p.qc.Genuine honest w.core → b.Distinct honest w.core →
      (e, .commit b (.fastPath p)) ∈ (w.core i).trace → CertifiedCommit S.committee e b p := by
  intro h
  obtain ⟨w, hr, hg, hd, hx⟩ := exists_attack sampleSetup (· ∈ honestNodes) (toQuorum untiedPrepare)
    (fun w => untiedPrepare.qc.GenuineAmong honestNodes w.core ∧
      faultyFallback.distinctAmong honestNodes w.core = true ∧
      (0, .commit faultyFallback (.fastPath untiedPrepare)) ∈ (w.core 0).trace)
    (by decide) (by decide +kernel)
  have hc := h _ _ _ w 0 0 faultyFallback untiedPrepare (by decide) rfl
    (faultBound_of_filter (by decide +kernel)) hr (by decide) hg.genuine
    (Block.distinct_of_among hd) hx
  exact absurd hc.tag (by decide)

end Ipotane
