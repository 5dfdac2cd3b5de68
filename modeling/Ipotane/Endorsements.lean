import Ipotane.Signers
import Ipotane.Replay

/-! The certificates that the blocks of the optimistic path are built on. -/
namespace Ipotane

open Lib Handler

section Endorsements

variable [Crypto] {S : Setup} {cfg : Config} {s t : Core} {b : Block} {honest : PublicKey → Prop}
  {foreign : Cores → ConsensusMessage → Prop} {w : World} {i : PublicKey} {input : Input} {fuel : ℕ}

namespace Core

/-- What has come on record since `s`. -/
def added (s t : Core) : List (ℕ × Event) := t.trace.take (t.trace.length - s.trace.length)

/-- The turn of the loop that takes `input` comes to an end and signs an optimistic vote for `b`. -/
def Endorses (cfg : Config) (fuel : ℕ) (s : Core) (input : Input) (b : Block) : Prop :=
  (handle cfg fuel input (arrival s input)).1 ≠ .exhausted ∧
    (s.epoch, .endorse b) ∈ added (arrival s input) (handle cfg fuel input (arrival s input)).2

instance (cfg : Config) (fuel : ℕ) (s : Core) (input : Input) (b : Block) :
    Decidable (Endorses cfg fuel s input b) :=
  inferInstanceAs (Decidable (_ ∧ _))

/-- The input is an `HsPropose` of `b`, or the node is handed back `b` and has let it pass. -/
inductive Offers (s : Core) (b : Block) : Input → Prop
  | proposal : Offers s b (.core (.HsPropose b))
  | back {e : ℕ} (h : (e, .approve b) ∈ s.trace) : Offers s b (.core (.HsLoopBack b))

theorem mem_added {x : ℕ × Event} (h : x ∈ added s t) : x ∈ t.trace := List.mem_of_mem_take h

theorem added_same (h : t.trace = s.trace) : added s t = [] := by
  unfold added
  rw [h, Nat.sub_self]
  rfl

theorem rejects_admitOptProposal {call : Call → M Unit} (h : ¬ Vetted cfg b) :
    Rejects s (admitOptProposal cfg call b) := by
  refine rejects_reads_bind (reads_indexAsLeader _ _) fun idx hidx => ?_
  refine rejects_reads_bind (reads_ensureM _ _) fun _ hsome => ?_
  refine rejects_reads_bind (reads_ofExcept _) fun _ hver => ?_
  obtain ⟨_, rfl⟩ := indexAsLeader_ok hidx
  exact absurd ⟨ensureM_ok hsome, ofExcept_ok hver⟩ h

/-- A proposal that does not pass the checks leaves nothing on record. -/
theorem handleOptProposal_trace {call : Call → M Unit} (h : ¬ Vetted cfg b) :
    (handleOptProposal cfg call b s).2.trace = s.trace := by
  unfold handleOptProposal
  rw [bind_run (x := self) rfl]
  by_cases hlt : b.epoch < s.epoch
  · rw [if_pos hlt]
    rfl
  · rw [if_neg hlt]
    by_cases hgt : b.epoch > s.epoch
    · rw [if_pos hgt]
      rfl
    · rw [if_neg hgt, (rejects_admitOptProposal h).1]

theorem Records.approve_vetted (h : Records cfg s t (.approve b)) : Vetted cfg b := by
  cases h with
  | opt h => exact h.vetted
  | pes _ h => exact h.elim

theorem Reachable.approve_vetted {alive : Bool} (h : Reachable cfg s alive) {e : ℕ}
    (hb : (e, .approve b) ∈ s.trace) : Vetted cfg b := by
  refine h.recorded (P := fun x => x.2 = .approve b → Vetted cfg b) ?_ ?_ _ hb rfl
  · rintro u t y hr rfl
    exact hr.approve_vetted
  · rintro e y ho rfl
    exact absurd trivial ho

theorem Records.endorse_height (h : Records cfg s t (.endorse b)) : b.qc.height + 1 = b.height := by
  cases h with
  | opt h => exact h.elim
  | pes _ h => exact h.elim
  | endorse _ hq => exact hq

/-- Every block that the node votes for is one height above its certificate. -/
theorem Reachable.endorse_height {alive : Bool} (h : Reachable cfg s alive)
    (hb : Endorses cfg fuel s input b) : b.qc.height + 1 = b.height := by
  refine h.recorded_handle (P := fun x => x.2 = .endorse b →
    b.qc.height + 1 = b.height) ?_ ?_ hb.1 _
    (mem_added hb.2) rfl
  · rintro u t y hr rfl
    exact hr.endorse_height
  · rintro e y ho rfl
    exact absurd trivial ho

/-- A node only votes for an offered block that has passed the checks. -/
theorem Reachable.endorse_vetted {alive : Bool} (h : Reachable cfg s alive) (ho : Offers s b input)
    (hb : Endorses cfg fuel s input b) : Vetted cfg b := by
  cases ho with
  | back he => exact h.approve_vetted he
  | proposal =>
    by_contra hn
    have htrace : (handle cfg fuel (.core (.HsPropose b))
      (arrival s (.core (.HsPropose b)))).2.trace =
        (arrival s (.core (.HsPropose b))).trace := by
      cases fuel with
      | zero => rfl
      | succ fuel => exact handleOptProposal_trace hn
    have hnew := hb.2
    rw [added_same htrace] at hnew
    cases hnew

end Core

/-- The block extends the genesis block, or its certificate is an optimistic one of its epoch for
a block one height below. -/
def BuildsOnOpt (c : Committee) (honest : PublicKey → Prop) (core : Cores) (b : Block) : Prop :=
  (b.qc = .genesis ∧ b.height = 1) ∨
  (b.qc.verify c = .ok () ∧ b.qc.tag = OPT ∧ b.qc.epoch = b.epoch ∧ b.qc.height + 1 = b.height ∧
    ∃ k p, honest k ∧ (core k).Ever (.sign (.vote (HVote.new p k OPT))) ∧
      p.digest = b.qc.hash ∧ p.height = b.qc.height ∧ p.epoch = b.epoch)

/-- What the voting rule leaves open: the tag and the epoch of the certificate, and whether a
certificate that is taken for the genesis one would pass `verify`. -/
def RootedOpt (c : Committee) (b : Block) : Prop :=
  b.qc = .genesis ∨ (b.qc.tag = OPT ∧ b.qc.epoch = b.epoch ∧
    (b.qc.isGenesis → b.qc.verify c = .ok ()))

instance (c : Committee) (b : Block) : Decidable (RootedOpt c b) :=
  inferInstanceAs (Decidable (_ ∨ _))

theorem buildsOnOpt_iff_rootedOpt (h : Run S honest foreign w) (hf : FaultBound S.committee honest)
    (hg : b.qc.Genuine honest w.core) (ho : (w.core i).Offers b input)
    (hb : (w.core i).Endorses (S.config i) fuel input b) :
    BuildsOnOpt S.committee honest w.core b ↔ RootedOpt S.committee b := by
  have hr := h.reachable i
  have hheight : b.qc.height + 1 = b.height := hr.endorse_height hb
  have hvet : Core.Vetted (S.config i) b := hr.endorse_vetted ho hb
  constructor
  · rintro (⟨hq, _⟩ | ⟨hver, htag, hepoch, _⟩)
    · exact .inl hq
    · exact .inr ⟨htag, hepoch, fun _ => hver⟩
  · rintro (hq | ⟨htag, hepoch, hgen⟩)
    · refine .inl ⟨hq, ?_⟩
      rw [hq] at hheight
      exact hheight.symm
    · have hback : b.qc.Backed S.committee := by
        by_cases hq : b.qc.isGenesis
        · exact QC.verify_iff.mp (hgen hq)
        · exact (Block.verify_ok hvet.verified).2.2 hq
      obtain ⟨k, p, hk, hv, hd, hh, he⟩ := hback.exists_block h hg hf
      rw [htag] at hv
      exact .inr ⟨QC.verify_iff.mpr hback, htag, hepoch, hheight, k, p, hk, hv, hd, hh,
        he.trans hepoch⟩

end Endorsements

/-! ### A certificate of optimistic votes and one of fallback votes -/

/-- Node `2` is the faulty one. -/
def honestNodes : List PublicKey := [0, 1, 3]

/-- The certificate of the votes of nodes `0` to `2` on a block. -/
def certify (b : Block) (tag : ℕ) : QC :=
  ⟨b.digest, b.height, b.epoch, b.round, tag, b.author, 2,
    [0, 1, 2].map fun k => (k, (HVote.new b k tag).signature)⟩

/-- The next block of the faulty leader, on top of the leader's proposal. -/
def proposalOnVotes : Block := Block.new (certify leaderProposal OPT) 2 2 0 0 [] OPT

/-- Nodes `0` and `1` vote for the proposal of node `1`. -/
def toVotes : List Act := [.boot 1, .boot 0, .deliver 0 1 0]

def faultyFallback : Block := Block.new .genesis 2 1 0 1 [] PES

/-- The same block on top of a fallback block. -/
def proposalOnFallback : Block := Block.new (certify faultyFallback PES) 2 2 0 0 [] OPT

/-- Nodes `0` and `1` vote for the fallback block of node `2`. -/
def toFallbackVotes : List Act :=
  [.boot 1, .boot 0, .boot 3, .forge 0 (.FBPropose faultyFallback) PES,
    .forge 1 (.FBPropose faultyFallback) PES]

/-- The faulty leader of height `2` builds on the votes for height `1`. -/
theorem buildsOnOpt_on_votes : ∃ w i, Run sampleSetup (· ∈ honestNodes)
      (fun _ m => ∃ a ∈ toVotes, a.forged = some m) w ∧
    (w.core i).Endorses (sampleSetup.config i) 40 (.core (.HsPropose proposalOnVotes))
    proposalOnVotes ∧ BuildsOnOpt fourNodes (· ∈ honestNodes) w.core proposalOnVotes := by
  obtain ⟨w, hr, hg, hb⟩ := exists_attack sampleSetup (· ∈ honestNodes) toVotes
    (fun w => proposalOnVotes.qc.GenuineAmong honestNodes w.core ∧
      (w.core 0).Endorses (sampleSetup.config 0) 40
        (.core (.HsPropose proposalOnVotes)) proposalOnVotes)
    (by decide) (by decide +kernel)
  refine ⟨w, 0, hr, hb, (buildsOnOpt_iff_rootedOpt hr ?_ hg.genuine .proposal hb).mpr ?_⟩
  · exact faultBound_of_filter (by decide +kernel)
  · show RootedOpt fourNodes proposalOnVotes
    decide +kernel

/-- It builds on the fallback votes for height `1`, and node `0` votes for that block, too. -/
theorem not_buildsOnOpt_on_fallback_votes :
    ¬ ∀ (S : Setup) (honest : PublicKey → Prop) (foreign : Cores → ConsensusMessage → Prop)
      (w : World) (i : PublicKey) (b : Block) (fuel : ℕ), S.committee.total % 3 = 1 →
      FaultBound S.committee honest → Run S honest foreign w → honest i → w.phase i = .running →
      foreign w.core (.HsPropose b) → b.qc.Genuine honest w.core →
      (w.core i).Endorses (S.config i) fuel (.core (.HsPropose b)) b →
      BuildsOnOpt S.committee honest w.core b := by
  intro h
  obtain ⟨w, hr, hg, hp, hb⟩ := exists_attack sampleSetup (· ∈ honestNodes)
    (toFallbackVotes ++ [.forge 3 (.HsPropose proposalOnFallback) OPT])
    (fun w => proposalOnFallback.qc.GenuineAmong honestNodes w.core ∧ w.phase 0 = .running ∧
      (w.core 0).Endorses (sampleSetup.config 0) 40 (.core (.HsPropose proposalOnFallback))
        proposalOnFallback)
    (by decide) (by decide +kernel)
  have hbuilds := h _ _ _ w 0 proposalOnFallback 40 (by decide)
    (faultBound_of_filter (by decide +kernel)) hr (by decide) hp
    ⟨_, List.mem_append_right _ (List.mem_singleton_self _), rfl⟩ hg.genuine hb
  rcases hbuilds with ⟨hq, _⟩ | ⟨_, htag, _⟩
  · exact absurd (congrArg QC.height hq) (by decide)
  · exact absurd htag (by decide)

end Ipotane
