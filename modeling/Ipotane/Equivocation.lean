import Ipotane.Core.Append
import Ipotane.Timers

/-! The proposals of the optimistic path: a leader makes one for each height that it enters. -/
namespace Ipotane

open Lib Handler

section Equivocation

variable [Crypto]

/-- The epoch and the height of a proposal that is sent. -/
def Event.proposal : Event → Option (ℕ × ℕ)
  | .send (.HsPropose b) _ _ => some (b.epoch, b.height)
  | _ => none

namespace Core

/-- The proposals that the node has sent, newest first. -/
def proposed (s : Core) : List (ℕ × ℕ) := s.trace.filterMap fun x => x.2.proposal

/-- The leader that the node can be at a height. -/
def LeadsAt (cfg : Config) (height : ℕ) : Prop :=
  (cfg.committee.indexAsLeader cfg.parameters.leaderWindow cfg.name height).isSome = true

/-- What a proposal of the epoch `e` looks like that a node sends before it is in the state `s`. -/
structure WellFormed (cfg : Config) (s : Core) (e : ℕ) (b : Block) : Prop where
  epoch : b.epoch = e
  past : e ≤ s.epoch
  reached : e = s.epoch → b.height ≤ s.height
  successor : b.height = b.qc.height + 1
  leads : LeadsAt cfg b.height

structure Regular (cfg : Config) (s : Core) : Prop where
  height : s.height = s.highQc.height + 1
  proposals : ∀ e b dest tag, (e, .send (.HsPropose b) dest tag) ∈ s.trace → WellFormed cfg s e b
  once : s.proposed.Nodup

/-- The node has made no proposal for its height. -/
def Idle (s : Core) : Prop :=
  ∀ b dest tag, s.Did (.send (.HsPropose b) dest tag) → b.height < s.height

/-- The timer only runs for a height without a proposal. -/
structure Rested (cfg : Config) (s : Core) : Prop where
  regular : Regular cfg s
  timer : s.timer ≠ none → s.Idle

/-- Whoever was at rest still is. -/
def Settles (cfg : Config) (s t : Core) : Prop := s.Rested cfg → t.Rested cfg

variable {cfg : Config} {s t : Core} {b : Block} {call : Call → M Unit}

/-! ### Changes of the state -/

theorem WellFormed.mono {e : ℕ} (h : WellFormed cfg s e b) (he : t.epoch = s.epoch)
    (hh : s.height ≤ t.height) : WellFormed cfg t e b :=
  ⟨h.epoch, he ▸ h.past, fun heq => (h.reached (heq.trans he)).trans hh, h.successor, h.leads⟩

theorem proposal_eq_none {x : Event} (h : ∀ b dest tag, x ≠ .send (.HsPropose b) dest tag) :
    x.proposal = none := by
  unfold Event.proposal
  split
  · exact absurd rfl (h _ _ _)
  · rfl

/-- What has been added to the record says nothing about proposals. -/
structure Unproposed (s t : Core) : Prop where
  epoch : t.epoch = s.epoch
  record : ∃ new, t.trace = new ++ s.trace ∧ ∀ x ∈ new, ∀ b dest tag, x.2 ≠ .send
    (.HsPropose b) dest tag

theorem Unproposed.proposed (h : Unproposed s t) : t.proposed = s.proposed := by
  obtain ⟨new, hn, hx⟩ := h.record
  unfold Core.proposed
  rw [hn, List.filterMap_append]
  have hnil : new.filterMap (fun x => x.2.proposal) = [] := by
    refine List.filterMap_eq_nil_iff.mpr fun x hm => ?_
    exact proposal_eq_none (hx x hm)
  rw [hnil, List.nil_append]

theorem Unproposed.mem {e : ℕ} {dest : Option PublicKey} {tag : ℕ} (h : Unproposed s t)
    (hm : (e, .send (.HsPropose b) dest tag) ∈ t.trace) :
    (e, .send (.HsPropose b) dest tag) ∈ s.trace := by
  obtain ⟨new, hn, hx⟩ := h.record
  rw [hn] at hm
  rcases List.mem_append.mp hm with hm | hm
  · exact absurd rfl (hx _ hm b dest tag)
  · exact hm

theorem unproposed_same (he : t.epoch = s.epoch) (ht : t.trace = s.trace) : Unproposed s t :=
  ⟨he, [], ht, fun _ h => (nomatch h)⟩

theorem unproposed_cons {x : Event} (he : t.epoch = s.epoch)
    (ht : t.trace = (s.epoch, x) :: s.trace)
    (hx : ∀ b dest tag, x ≠ .send (.HsPropose b) dest tag) : Unproposed s t :=
  ⟨he, [(s.epoch, x)], ht, fun _ hy => List.mem_singleton.mp hy ▸ hx⟩

theorem Regular.unproposed (h : Regular cfg s) (hs : Unproposed s t) (hh : s.height ≤ t.height)
    (hq : t.height = t.highQc.height + 1) : Regular cfg t where
  height := hq
  proposals e b dest tag hm := (h.proposals e b dest tag (hs.mem hm)).mono hs.epoch hh
  once := hs.proposed ▸ h.once

theorem Idle.unproposed (h : s.Idle) (hs : Unproposed s t) (hh : s.height ≤ t.height) : t.Idle := by
  intro b dest tag hm
  unfold Core.Did at hm
  rw [hs.epoch] at hm
  exact (h b dest tag (hs.mem hm)).trans_le hh

/-- A height above the old one has no proposal. -/
theorem Regular.idle_above (h : Regular cfg s) (hs : Unproposed s t)
    (hh : s.height < t.height) : t.Idle := by
  intro b dest tag hm
  unfold Core.Did at hm
  rw [hs.epoch] at hm
  exact ((h.proposals _ b dest tag (hs.mem hm)).reached rfl).trans_lt hh

theorem settles_unproposed (hs : Unproposed s t) (hh : t.height = s.height)
    (hq : t.highQc = s.highQc) (ht : t.timer = s.timer) : Settles cfg s t := by
  intro h
  refine ⟨h.regular.unproposed hs hh.ge ?_, fun hn => ?_⟩
  · rw [hh, hq]
    exact h.regular.height
  · exact (h.timer (ht ▸ hn)).unproposed hs hh.ge

theorem tolerant_settles : Tolerant (Settles cfg) := by
  rintro s t h ⟨new, hn, hx⟩
  refine settles_unproposed ⟨h.epoch, new, hn, ?_⟩ h.height h.highQc h.timer
  rintro x hm b dest tag heq
  have hminor := (hx x hm).2
  rw [heq] at hminor
  exact hminor

/-! ### Certificates, the timer, and a proposal -/

theorem unproposed_adopt (s : Core) (qc : QC) : Unproposed s (s.adopt qc) := by
  have he := (extends_adopt (s := s) qc).epoch
  rcases adopt_trace s qc with ht | ⟨_, ht⟩
  · exact unproposed_same he ht
  · exact unproposed_cons he ht nofun

theorem Regular.adopt (h : Regular cfg s) (qc : QC) : Regular cfg (s.adopt qc) := by
  refine h.unproposed (unproposed_adopt s qc) ?_ ?_
  · rw [adopt_height]
    exact le_max_left _ _
  · have hh := h.height
    rw [adopt_height, adopt_highQc]
    split <;> omega

theorem settles_adopt (s : Core) (qc : QC) : Settles cfg s (s.adopt qc) := by
  intro h
  refine ⟨h.regular.adopt qc, fun hn => ?_⟩
  rw [adopt_timer] at hn
  refine (h.timer hn).unproposed (unproposed_adopt s qc) ?_
  rw [adopt_height]
  exact le_max_left _ _

/-- A height that has just been entered has no proposal. -/
theorem Regular.idle_adopt (h : Regular cfg s) {qc : QC} (hq : s.height ≤ qc.height) :
    (s.adopt qc).Idle := by
  refine h.idle_above (unproposed_adopt s qc) ?_
  rw [adopt_height]
  omega

theorem unproposed_arm (duration : Option ℕ) : Unproposed s (s.arm duration) :=
  unproposed_cons rfl rfl nofun

theorem Regular.arm_none (h : Regular cfg s) : Rested cfg (s.arm none) :=
  ⟨h.unproposed (unproposed_arm none) le_rfl h.height, fun hn => absurd rfl hn⟩

theorem Rested.arm (h : Rested cfg s) (hi : s.Idle) (duration : Option ℕ) :
    Rested cfg (s.arm duration) :=
  ⟨h.regular.unproposed (unproposed_arm _) le_rfl h.regular.height, fun _ =>
    hi.unproposed (unproposed_arm _) le_rfl⟩

/-- The proposal of a node for its height. -/
def ownProposal (cfg : Config) (s : Core) : Block :=
  Block.new s.highQc cfg.name s.height s.epoch 0 (cfg.payload s.requests) OPT

/-- The state once the proposal has been sent. -/
def proposing (cfg : Config) (s : Core) : Core :=
  (({ s with requests := s.requests + 1 } : Core).log (.sign (.block (s.ownProposal cfg)))).log
    (.send (.HsPropose (s.ownProposal cfg)) none OPT)

theorem Regular.proposing (h : Regular cfg s) (hi : s.Idle) (hl : LeadsAt cfg s.height) :
    Regular cfg (s.proposing cfg) := by
  refine ⟨h.height, fun e b dest tag hm => ?_, ?_⟩
  · rcases List.mem_cons.mp hm with hm | hm
    · cases hm
      exact ⟨rfl, le_rfl, fun _ => le_rfl, h.height, hl⟩
    · rcases List.mem_cons.mp hm with hm | hm
      · cases hm
      · exact (h.proposals e b dest tag hm).mono rfl le_rfl
  · change ((s.epoch, s.height) :: s.proposed).Nodup
    refine List.nodup_cons.mpr ⟨fun hm => ?_, h.once⟩
    obtain ⟨⟨e, x⟩, hx, heq⟩ := List.mem_filterMap.mp hm
    unfold Event.proposal at heq
    split at heq
    · rename_i b dest tag hx'
      dsimp only at hx'
      subst hx'
      obtain ⟨hepoch, hheight⟩ := Prod.mk.inj (Option.some.inj heq)
      have hlt : b.height < s.height := by
        refine hi b dest tag ?_
        unfold Core.Did
        rwa [← hepoch, (h.proposals _ _ _ _ hx).epoch]
      exact hlt.ne hheight
    · cases heq

/-! ### Handlers -/

/-- However `x` ends, a node at rest is left at rest. -/
abbrev Rests (cfg : Config) (s : Core) {α : Type} (x : M α) : Prop :=
  Steps (Settles cfg) (fun _ _ => True) s x

theorem rests_of_keeps {α : Type} {x : M α} (h : Keeps (Settles cfg) x) : Rests cfg s x :=
  fun _ => ⟨h s, fun _ _ => trivial⟩

theorem Rests.rested {α : Type} {x : M α} (h : Rests cfg s x) (hs : s.Rested cfg)
    (hne : (x s).1 ≠ .exhausted) : (x s).2.Rested cfg := by
  obtain ⟨hr, _⟩ := h hne
  generalize (x s).2 = t at hr
  induction hr with
  | refl => exact hs
  | tail _ h ih => exact h ih

/-- What the calls of a handler leave behind; the block that is processed may be one that has just
been proposed. -/
structure Restful (cfg : Config) (call : Call → M Unit) : Prop where
  propose : ∀ s, s.Rested cfg → s.Idle → (call .optPropose s).1 ≠ .exhausted →
    (call .optPropose s).2.Rested cfg
  own : ∀ b s, s.Regular cfg → cfg.name ∈ cfg.committee.sortedNames → LeadsAt cfg b.height →
    (call (.processOptBlock b) s).1 ≠ .exhausted → (call (.processOptBlock b) s).2.Rested cfg
  block : ∀ b s, Rests cfg s (call (.processOptBlock b))
  vote : ∀ v s, Rests cfg s (call (.handleOptVote v))
  aside : ∀ c, Aside c → Keeps (Settles cfg) (call c)

theorem rests_reads_bind {α β : Type} {x : M α} {f : α → M β} (hx : Reads x)
    (hf : ∀ a, x s = (.ok a, s) → Rests cfg s (f a)) : Rests cfg s (x >>= f) :=
  steps_reads_bind hx (fun _ _ => trivial) hf

theorem settles_log {x : Event} (hx : x.Minor) : Settles cfg s (s.log x) :=
  tolerant_settles.mark ⟨rfl, rfl, rfl, rfl, rfl⟩ rfl hx

theorem rests_optVoteSection (hc : Restful cfg call) : Rests cfg s (optVoteSection cfg call b) := by
  refine steps_self_bind (steps_when fun _ => ?_)
  have hvote : Keeps (Settles cfg) (makeOptVote cfg b) := by
    refine keeps_bind (keeps_add _ _) fun _ => keeps_bind keeps_self fun _ => ?_
    refine keeps_ite (keeps_bind (keeps_update fun _ => ?_) fun _ => keeps_pure _) (keeps_pure _)
    exact tolerant_settles.pair ⟨rfl, rfl, rfl, rfl, rfl⟩ rfl trivial trivial
  refine steps_bind (rests_of_keeps hvote) fun vote t _ _ => ?_
  cases vote with
  | none => exact steps_pure _
  | some v =>
    refine rests_reads_bind (reads_add _ _) fun _ _ => ?_
    refine steps_bind (rests_of_keeps (keeps_sendVote tolerant_settles v _)) fun _ u _ _ => ?_
    refine rests_reads_bind (reads_indexAsLeader _ _) fun _ _ => steps_when fun _ => ?_
    exact steps_update_bind (settles_log trivial) (hc.vote v _)

/-- `process_opt_block` after the timer has been looked at. -/
def afterTimer (cfg : Config) (call : Call → M Unit) (b : Block) : M Unit := do
  match ← getAncestors b with
  | none => pure ()
  | some (b0, b1) => do
    storeBlock b
    optPrepareSection cfg call b
    optCommitSection call b b0 b1
    optVoteSection cfg call b

theorem rests_afterTimer (hc : Restful cfg call) : Rests cfg s (afterTimer cfg call b) := by
  refine steps_bind (rests_of_keeps (keeps_getAncestors tolerant_settles b))
    fun ancestors t _ _ => ?_
  cases ancestors with
  | none => exact steps_pure _
  | some x =>
    refine steps_bind (rests_of_keeps (keeps_storeBlock tolerant_settles b)) fun _ u _ _ => ?_
    refine steps_bind (rests_of_keeps (keeps_optPrepareSection tolerant_settles hc.aside))
      fun _ v _ _ => ?_
    refine steps_bind (rests_of_keeps (keeps_optCommitSection tolerant_settles hc.aside _ _))
      fun _ w _ _ => ?_
    exact rests_optVoteSection hc

theorem rests_processOptBlock (hc : Restful cfg call) :
    Rests cfg s (processOptBlock cfg call b) := by
  refine steps_self_bind (steps_update_bind (settles_log trivial) ?_)
  refine rests_reads_bind (reads_indexAsLeader _ _) fun _ _ => ?_
  refine steps_bind (steps_when fun _ => steps_update fun h => h.regular.arm_none) fun _ _ _ _ => ?_
  exact rests_afterTimer hc

/-- A leader of the height stops its timer first. -/
theorem own_processOptBlock (hc : Restful cfg call) (h : s.Regular cfg)
    (hn : cfg.name ∈ cfg.committee.sortedNames) (hl : LeadsAt cfg b.height)
    (hne : (processOptBlock cfg call b s).1 ≠ .exhausted) :
    (processOptBlock cfg call b s).2.Rested cfg := by
  have hidx : indexAsLeader cfg cfg.name b.height (s.log (.process b s.height)) =
      (.ok (cfg.committee.indexAsLeader cfg.parameters.leaderWindow cfg.name b.height),
        s.log (.process b s.height)) := by
    unfold indexAsLeader
    rw [if_pos hn]
    rfl
  have htimer : when ((cfg.committee.indexAsLeader cfg.parameters.leaderWindow cfg.name
    b.height).isSome = true)
      (resetTimer none) (s.log (.process b s.height)) = (.ok (),
        (s.log (.process b s.height)).arm none) := by
    have hl : (cfg.committee.indexAsLeader cfg.parameters.leaderWindow cfg.name
      b.height).isSome = true := hl
    rw [when, if_pos hl]
    rfl
  have hrun : processOptBlock cfg call b s =
      afterTimer cfg call b ((s.log (.process b s.height)).arm none) := by
    unfold processOptBlock
    rw [bind_run (x := self) rfl, bind_run (x := emit _) rfl, bind_run hidx, bind_run htimer]
    rfl
  rw [hrun] at hne ⊢
  refine (rests_afterTimer hc).rested (Regular.arm_none ?_) hne
  exact h.unproposed (unproposed_cons rfl rfl (by simp)) le_rfl h.height

theorem optPropose_run (hn : cfg.name ∈ cfg.committee.sortedNames) (hl : s.Leads cfg) :
    optPropose cfg call s = call (.processOptBlock (s.ownProposal cfg)) (s.proposing cfg) := by
  obtain ⟨i, hi⟩ := Option.isSome_iff_exists.mp hl
  have hidx : indexAsLeader cfg cfg.name s.height s = (.ok (some i), s) := by
    unfold indexAsLeader
    rw [if_pos hn, hi]
    rfl
  unfold optPropose
  rw [bind_run (x := self) rfl, bind_run hidx]
  rfl

theorem rested_optPropose (hc : Restful cfg call) (h : s.Rested cfg) (hi : s.Idle)
    (hne : (optPropose cfg call s).1 ≠ .exhausted) : (optPropose cfg call s).2.Rested cfg := by
  by_cases hn : cfg.name ∈ cfg.committee.sortedNames
  · by_cases hl : s.Leads cfg
    · rw [optPropose_run hn hl] at hne ⊢
      exact hc.own _ _ (h.regular.proposing hi hl) hn hl hne
    · have hrun : optPropose cfg call s = (.panic .notLeader, s) := by
        have hnone := Option.not_isSome_iff_eq_none.mp hl
        unfold optPropose
        rw [bind_run (x := self) rfl]
        unfold indexAsLeader
        rw [if_pos hn, hnone]
        rfl
      rw [hrun]
      exact h
  · have hrun : optPropose cfg call s = (.panic .unknownKey, s) := by
      unfold optPropose
      rw [bind_run (x := self) rfl]
      unfold indexAsLeader
      rw [if_neg hn]
      rfl
    rw [hrun]
    exact h

/-- A certificate for the height of the node moves it on to a height without a proposal. -/
theorem rests_processQc_bind {qc : QC} {f : Unit → M Unit} (hq : s.height ≤ qc.height)
    (hf : ∀ t, t.Rested cfg → t.Idle → (f () t).1 ≠ .exhausted → (f () t).2.Rested cfg) :
    Rests cfg s (processQc qc >>= f) := by
  by_cases hb : qc.height + 1 < 2 ^ 64
  · intro hne
    rw [bind_run (processQc_run (.inr hb))] at hne ⊢
    exact ⟨.single fun h => hf _ (settles_adopt s qc h) (h.regular.idle_adopt hq) hne,
      fun _ _ => trivial⟩
  · have hrun : processQc qc s = (.panic .overflow, s) := processQc_overflow (by omega) (by omega)
    refine steps_of_panic (p := .overflow) (t := s) ?_ .refl trivial
    rw [bind_eq, andThen, hrun]

theorem rests_handleOptVote (hc : Restful cfg call) {v : HVote} :
    Rests cfg s (handleOptVote cfg call v) := by
  refine steps_self_bind (steps_ite (fun _ => steps_pure _) fun hold => ?_)
  refine rests_reads_bind (reads_add _ _) fun _ _ => ?_
  refine rests_reads_bind (reads_indexAsLeader _ _) fun idx _ => ?_
  refine rests_reads_bind (reads_ensureM _ _) fun _ _ =>
    rests_reads_bind (reads_ofExcept _) fun _ _ => ?_
  refine steps_bind (rests_of_keeps (keeps_collect tolerant_settles fun _ => trivial))
    fun result t hres _ => ?_
  cases result with
  | none => exact steps_pure _
  | some qc =>
    obtain ⟨hadd, _⟩ := collect_some hres
    have hqc : qc.height = v.height := by rw [(QCMaker.append_some hadd).2.1]; rfl
    have hheight : t.height = s.height := by
      have hh := collect_height (s := s) (fun a => a.addHsVote v cfg.committee) .assembled
      rwa [hres] at hh
    refine rests_processQc_bind (by omega) fun u hrest hidle hne => ?_
    match idx, hne with
    | none, _ => exact hrest
    | some 0, hne => exact hc.propose _ hrest hidle hne
    | some (i + 1), _ => exact hrest.arm hidle _

/-- Every call leaves a node at rest. -/
theorem restful_exec : ∀ fuel, Restful cfg (exec cfg fuel)
  | 0 =>
    ⟨fun _ _ _ hne => absurd rfl hne, fun _ _ _ _ _ hne => absurd rfl hne, fun _ _ => steps_exhaust,
      fun _ _ => steps_exhaust, fun _ _ _ => .refl⟩
  | fuel + 1 =>
    have hc := restful_exec fuel
    ⟨fun _ h hi hne => rested_optPropose hc h hi hne, fun _ _ h hn hl hne =>
      own_processOptBlock hc h hn hl hne,
      fun _ _ => rests_processOptBlock hc, fun _ _ => rests_handleOptVote hc,
      keeps_exec tolerant_settles (fuel + 1)⟩

/-! ### Turns -/

theorem settles_defer (epoch : ℕ) (m : ConsensusMessage) : Settles cfg s (s.defer epoch m) :=
  settles_unproposed (unproposed_same rfl rfl) rfl rfl rfl

/-- A proposal of a later epoch goes into the buffer. -/
theorem rests_defer {c : Prop} [Decidable c] {epoch : ℕ} {m : ConsensusMessage}
    {e : ConsensusError} {x : M Unit} (hx : Rests cfg s x) : Rests cfg s (if c then do
        update fun s => s.defer epoch m
        fail e
      else x) :=
  steps_ite (fun _ => steps_update_bind (settles_defer epoch m) (steps_fail e)) fun _ => hx

theorem rests_mempoolVerify_bind {tag : ℕ} {c : Call} (hc : ∀ t, Rests cfg t (call c)) :
    Rests cfg s (do if ← mempoolVerify cfg b tag then call c else pure ()) := by
  refine steps_bind (rests_of_keeps (keeps_mempoolVerify tolerant_settles b tag)) fun ok t _ _ => ?_
  exact steps_ite (fun _ => hc t) fun _ => steps_pure _

theorem rests_processQc (qc : QC) : Rests cfg s (processQc qc) := by
  by_cases hb : qc.height < s.height ∨ qc.height + 1 < 2 ^ 64
  · exact steps_of_ok (processQc_run hb) (.single (settles_adopt s qc))
  · exact steps_of_panic (processQc_overflow (by omega) (by omega)) .refl trivial

theorem rests_handleOptProposal (hc : Restful cfg call) :
    Rests cfg s (handleOptProposal cfg call b) := by
  refine steps_self_bind (steps_ite (fun _ => steps_pure _) fun _ => rests_defer ?_)
  refine rests_reads_bind (reads_indexAsLeader _ _) fun _ _ =>
    rests_reads_bind (reads_ensureM _ _) fun _ _ => ?_
  refine rests_reads_bind (reads_ofExcept _) fun _ _ => steps_update_bind (settles_log trivial) ?_
  refine steps_bind (steps_when fun _ => rests_of_keeps ?_) fun _ t _ _ => ?_
  · exact keeps_bind keeps_self fun _ => keeps_terminateSmvba tolerant_settles _ _ _
  · refine steps_bind (rests_processQc _) fun _ u _ _ => ?_
    exact rests_mempoolVerify_bind (hc.block b)

theorem rests_handleFallbackPropose (hc : Restful cfg call) :
    Rests cfg s (handleFallbackPropose cfg call b) := by
  refine rests_reads_bind reads_fallbackMessageFilter fun _ _ =>
    rests_reads_bind (reads_ensureM _ _) fun _ _ => ?_
  refine rests_reads_bind (reads_when (reads_ofExcept _)) fun _ _ =>
    steps_self_bind (rests_defer ?_)
  exact rests_mempoolVerify_bind fun t =>
    rests_of_keeps (hc.aside (.processFallbackPropose b) trivial)

theorem rests_handleSpbProposal (hc : Restful cfg call) (v : SPBValue) (p : SPBProof) :
    Rests cfg s (handleSpbProposal cfg call v p) := by
  refine rests_reads_bind reads_smvbaMsgFilter fun _ _ =>
    rests_reads_bind (reads_ensureM _ _) fun _ _ => ?_
  refine rests_reads_bind (reads_when (reads_ofExcept _)) fun _ _ =>
    steps_self_bind (rests_defer ?_)
  exact rests_of_keeps (hc.aside (.processSpbPropose v p) trivial)

/-- The calls of the event loop, but for the one of the timer. -/
theorem rests_exec (fuel : ℕ) {c : Call} (hn : c ≠ .optPropose) :
    Rests cfg s (exec cfg fuel c) := by
  cases fuel with
  | zero => exact steps_exhaust
  | succ fuel =>
    have hc : Restful cfg (exec cfg fuel) := restful_exec fuel
    cases c with
    | optPropose => exact absurd rfl hn
    | handleOptProposal b => exact rests_handleOptProposal hc
    | processOptBlock b => exact rests_processOptBlock hc
    | handleOptVote v => exact rests_handleOptVote hc
    | handleFallbackPropose b => exact rests_handleFallbackPropose hc
    | handleSpbProposal v p => exact rests_handleSpbProposal hc v p
    | _ => exact rests_of_keeps (keeps_exec tolerant_settles (fuel + 1) _ trivial)

theorem rests_optPropose (fuel : ℕ) (hi : s.Idle) : Rests cfg s (exec cfg fuel .optPropose) :=
  fun hne => ⟨.single fun h => (restful_exec fuel).propose s h hi hne, fun _ _ => trivial⟩

/-- The start of an epoch, in which nothing has been proposed. -/
theorem rests_boot (fuel : ℕ) (hi : s.Idle) : Rests cfg s (boot cfg (exec cfg fuel)) := by
  refine steps_bind (steps_when fun _ => steps_self_bind ?_) fun _ t _ _ => steps_when fun _ => ?_
  · refine rests_reads_bind (reads_indexAsLeader _ _) fun idx _ => ?_
    match idx with
    | none => exact steps_pure _
    | some 0 => exact steps_ignoreErr (rests_optPropose fuel hi)
    | some (i + 1) => exact steps_update fun h => h.arm hi _
  · exact steps_self_bind (steps_expect (rests_exec fuel nofun) fun _ => trivial)

theorem coreCall_ne {m : ConsensusMessage} {c : Call} (h : coreCall m = some c) :
    c ≠ .optPropose := by
  rintro rfl
  cases m <;> cases h

theorem smvbaCall_ne {m : ConsensusMessage} {c : Call} (h : smvbaCall m = some c) :
    c ≠ .optPropose := by
  rintro rfl
  cases m <;> cases h

/-- The proposals of the next epoch are still to come. -/
theorem Regular.renewed (h : Regular cfg s) : Rested cfg s.renewed ∧ s.renewed.Idle := by
  obtain ⟨new, hnew, hx⟩ := renewed_grown s
  obtain ⟨marks, rest, heq, -⟩ := renewed_eq s
  have hold : ∀ {e b dest tag}, (e, .send (.HsPropose b) dest tag) ∈ s.renewed.trace →
      (e, .send (.HsPropose b) dest tag) ∈ s.trace := by
    intro e b dest tag hm
    rw [hnew] at hm
    rcases List.mem_append.mp hm with hm | hm
    · exact absurd trivial (hx _ hm).2
    · exact hm
  have hheight : s.renewed.height = 1 := by rw [heq]; rfl
  have hhighQc : s.renewed.highQc = .genesis := by rw [heq]; rfl
  have htimer : s.renewed.timer = none := by rw [heq]; rfl
  have hidle : s.renewed.Idle := by
    intro b dest tag hm
    have hpast := (h.proposals _ b dest tag (hold hm)).past
    rw [renewed_epoch] at hpast
    omega
  refine ⟨⟨⟨?_, fun e b dest tag hm => ?_, ?_⟩, fun hn => absurd htimer hn⟩, hidle⟩
  · rw [hheight, hhighQc]
    rfl
  · have hp := h.proposals e b dest tag (hold hm)
    refine ⟨hp.epoch, ?_, fun he => ?_, hp.successor, hp.leads⟩
    · rw [renewed_epoch]
      exact hp.past.trans (Nat.le_succ _)
    · have hpast := hp.past
      rw [renewed_epoch] at he
      omega
  · have hnil : new.filterMap (fun x => x.2.proposal) = [] := by
      refine List.filterMap_eq_nil_iff.mpr fun x hm => proposal_eq_none ?_
      rintro b dest tag he
      exact absurd (he ▸ trivial) (hx x hm).2
    unfold proposed
    rw [hnew, List.filterMap_append, hnil, List.nil_append]
    exact h.once

/-! ### Runs -/

/-- The timer fires, and an epoch starts, only where there is no proposal yet. -/
theorem rests_handle (fuel : ℕ) {i : Input} (hi : i = .timer ∨ i = .boot → s.Idle) :
    Rests cfg s (handle cfg fuel i) := by
  cases i with
  | boot => exact rests_boot fuel (hi (.inr rfl))
  | timer => exact rests_optPropose fuel (hi (.inl rfl))
  | core m =>
    change Rests cfg s ((coreCall m).elim (pure ()) (exec cfg fuel))
    cases hc : coreCall m with
    | none => exact steps_pure _
    | some c => exact rests_exec fuel (coreCall_ne hc)
  | smvba m =>
    change Rests cfg s ((smvbaCall m).elim (pure ()) (exec cfg fuel))
    cases hc : smvbaCall m with
    | none => exact steps_pure _
    | some c => exact rests_exec fuel (smvbaCall_ne hc)

theorem Rested.nextEpoch (h : s.Rested cfg) {fuel : ℕ}
    (hne : (nextEpoch cfg fuel s).1 ≠ .exhausted) : (nextEpoch cfg fuel s).2.Rested cfg := by
  by_cases hn : s.epoch + 1 < 2 ^ 64
  · have hrun : Core.nextEpoch cfg fuel s = boot cfg (exec cfg fuel) s.renewed := by
      change (add s.epoch 1 >>= _) s = _
      rw [bind_run (add_run hn)]
      rfl
    rw [hrun] at hne ⊢
    obtain ⟨hrest, hidle⟩ := h.regular.renewed
    exact (rests_boot fuel hidle).rested hrest hne
  · have hrun : Core.nextEpoch cfg fuel s = (.panic .overflow, s) := by
      change (add s.epoch 1 >>= _) s = _
      unfold add
      rw [if_neg hn]
      rfl
    rw [hrun]
    exact h

theorem settles_arrival (i : Input) : Settles cfg s (s.arrival i) := by
  cases i with
  | core m => exact settles_unproposed (unproposed_cons rfl rfl nofun) rfl rfl rfl
  | smvba m => exact settles_unproposed (unproposed_cons rfl rfl nofun) rfl rfl rfl
  | boot => exact id
  | timer => exact id

/-- A turn ends as its handler does, but for an error: that is logged, or ends the epoch. -/
theorem react_cases (cfg : Config) (fuel : ℕ) (i : Input) (s : Core) :
    (∃ e t, handle cfg fuel i (s.arrival i) = (.err (.EpochEnd e), t) ∧
        react cfg fuel i s = Core.nextEpoch cfg fuel t) ∨
      (∃ e t, handle cfg fuel i (s.arrival i) = (.err e, t) ∧ react cfg fuel i s = (.ok (), t)) ∨
      react cfg fuel i s = handle cfg fuel i (s.arrival i) := by
  unfold react
  split
  · rename_i hr
    exact .inl ⟨_, _, hr, rfl⟩
  · rename_i hr
    exact .inr (.inl ⟨_, _, hr, rfl⟩)
  · exact .inr (.inr rfl)

theorem Rested.react (h : s.Rested cfg) {fuel : ℕ} {i : Input}
    (hi : i = .timer ∨ i = .boot → s.Idle)
    (hne : (react cfg fuel i s).1 ≠ .exhausted) : (react cfg fuel i s).2.Rested cfg := by
  have hidle : i = .timer ∨ i = .boot → (s.arrival i).Idle := by
    rintro (rfl | rfl)
    · exact hi (.inl rfl)
    · exact hi (.inr rfl)
  have hrests : Rests cfg (s.arrival i) (handle cfg fuel i) := rests_handle fuel hidle
  have hhandle := hrests.rested (settles_arrival i h)
  rcases react_cases cfg fuel i s with ⟨e, t, hr, heq⟩ | ⟨e, t, hr, heq⟩ | heq
  · rw [hr] at hhandle
    rw [heq] at hne ⊢
    exact (hhandle nofun).nextEpoch hne
  · rw [hr] at hhandle
    rw [heq]
    exact hhandle nofun
  · rw [heq] at hne ⊢
    exact hhandle hne

/-- The states of a node that boots once, and whose timer fires only while it is set. -/
inductive Timed (cfg : Config) : Core → Bool → Prop
  | boot (fuel : ℕ) (hf : (react cfg fuel .boot new).1 ≠ .exhausted) :
      Timed cfg (react cfg fuel .boot new).2 (decide ((react cfg fuel .boot new).1 = .ok ()))
  | react {s : Core} (fuel : ℕ) (i : Input) (h : Timed cfg s true) (hb : i ≠ .boot)
      (ht : i = .timer → s.timer ≠ none) (hf : (react cfg fuel i s).1 ≠ .exhausted) :
      Timed cfg (react cfg fuel i s).2 (decide ((react cfg fuel i s).1 = .ok ()))

theorem rested_new (cfg : Config) : (new : Core).Rested cfg ∧ (new : Core).Idle := by
  have hnone : ∀ {e b dest tag}, (e, .send (.HsPropose b) dest tag) ∉ (new : Core).trace := by
    intro e b dest tag hm
    exact absurd trivial (not_own_of_new hm)
  refine ⟨⟨⟨rfl, fun _ _ _ _ hm => absurd hm hnone, ?_⟩, fun _ _ _ _ hm => absurd hm hnone⟩,
    fun _ _ _ hm => absurd hm hnone⟩
  exact List.nodup_nil

theorem Timed.rested {alive : Bool} (h : Timed cfg s alive) : s.Rested cfg := by
  induction h with
  | boot fuel hf =>
    obtain ⟨hrest, hidle⟩ := rested_new cfg
    exact hrest.react (fun _ => hidle) hf
  | react fuel i _ hb ht hf ih =>
    refine ih.react (fun hi => ?_) hf
    exact ih.timer (ht (hi.resolve_right hb))

/-- A node stands one height above its highest certificate; it proposes on that certificate where it
leads, and no more than once for a height. -/
theorem Timed.proposes_solely {alive : Bool} (h : Timed cfg s alive) :
    s.height = s.highQc.height + 1 ∧
      (∀ e b dest tag, (e, .send (.HsPropose b) dest tag) ∈ s.trace →
        b.epoch = e ∧ b.height = b.qc.height + 1 ∧ LeadsAt cfg b.height) ∧
      s.proposed.Nodup := by
  have hr := h.rested.regular
  refine ⟨hr.height, fun e b dest tag hm => ?_, hr.once⟩
  have hp := hr.proposals e b dest tag hm
  exact ⟨hp.epoch, hp.successor, hp.leads⟩

end Core

end Equivocation

/-- A node that reacts to one input after the other, the timer among them only while it is set. -/
def replayTimed (cfg : Config) : List Input → Core → Option Core
  | [], s => some s
  | i :: is, s =>
    if i = .boot ∨ (i = .timer ∧ s.timer = none) then none
    else
      match Core.react cfg 40 i s with
      | (.ok (), t) => replayTimed cfg is t
      | _ => none

theorem timed_replay {cfg : Config} {is : List Input} {s t : Core} (h : Core.Timed cfg s true)
    (hr : replayTimed cfg is s = some t) : Core.Timed cfg t true := by
  induction is generalizing s with
  | nil =>
    cases hr
    exact h
  | cons i is ih =>
    unfold replayTimed at hr
    split at hr
    · cases hr
    · rename_i hi
      obtain ⟨hb, ht⟩ := not_or.mp hi
      split at hr
      · rename_i u hreact
        have hnext := h.react 40 i hb (fun he hn => ht ⟨he, hn⟩) (by simp [hreact])
        rw [hreact] at hnext
        exact ih hnext hr
      · cases hr

/-- The deputy of the first height proposes when its timer fires, and as the leader of the second
one when it has the votes on the leader's proposal. -/
def deputyInputs : List Input :=
  [.timer, .core (.HSVote (HVote.new leaderProposal 0 OPT)),
    .core (.HSVote (HVote.new leaderProposal 1 OPT)),
    .core (.HSVote (HVote.new leaderProposal 3 OPT))]

theorem proposes_solely_deputyInputs : ∃ s : Core, s.proposed = [(0, 2), (0, 1)] ∧
    s.height = s.highQc.height + 1 ∧ s.proposed.Nodup := by
  have hboot : (Core.react (sampleConfig 2) 40 .boot .new).1 = .ok () := by decide +kernel
  have hstart : Core.Timed (sampleConfig 2) (booted (sampleConfig 2)) true := by
    have hb : Core.Timed (sampleConfig 2) _ _ := .boot 40 (by simp [hboot])
    simpa [booted, hboot] using hb
  have hrun : (replayTimed (sampleConfig 2) deputyInputs (booted (sampleConfig 2))).any
      (fun s => decide (s.proposed = [(0, 2), (0, 1)])) = true := by decide +kernel
  obtain ⟨s, hs, hp⟩ := (Option.any_eq_true _ _).mp hrun
  obtain ⟨hheight, _, honce⟩ := Core.Timed.proposes_solely (timed_replay hstart hs)
  exact ⟨s, of_decide_eq_true hp, hheight, honce⟩

end Ipotane
