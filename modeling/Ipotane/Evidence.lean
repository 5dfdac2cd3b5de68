import Ipotane.Core.Append
import Ipotane.Core.Effect
import Ipotane.Symbolic

/-! What a node has collected for the heights and rounds of the agreement is kept, unless it
enters a height or a round that something was collected for. -/
namespace Ipotane

namespace Core

open Lib Handler

section Evidence

variable [Crypto] {cfg : Config} {s t u : Core}

/-- What has been collected in `s` is still there in `t`. -/
structure Grows (s t : Core) : Prop where
  opts : Map.Le (· ⊆ ·) [] s.parPrepareOpts t.parPrepareOpts
  pess : Map.Le (· ⊆ ·) [] s.parPreparePess t.parPreparePess
  votes : Map.Le (· ⊆ ·) [] s.smvbaVotes t.smvbaVotes
  dones : Map.Le (· ⊆ ·) [] s.smvbaDones t.smvbaDones
  noPrevotes : Map.Le (· ⊆ ·) [] s.smvbaNoPrevotes t.smvbaNoPrevotes
  yes : Map.Le (· ≤ ·) false s.smvbaYFlag t.smvbaYFlag
  no : Map.Le (· ≤ ·) false s.smvbaNFlag t.smvbaNFlag
  done : Map.Le (· ≤ ·) false s.smvbaDFlag t.smvbaDFlag
  round : Map.Le (· ≤ ·) 1 s.smvbaCurrentRound t.smvbaCurrentRound

/-- Nothing has been collected for the round, and the height is not beyond it. -/
structure Blank (s : Core) (height round : ℕ) : Prop where
  votes : s.smvbaVotes.getD (height, round) [] = []
  dones : s.smvbaDones.getD (height, round) [] = []
  noPrevotes : s.smvbaNoPrevotes.getD (height, round) [] = []
  yes : s.smvbaYFlag.getD (height, round) false = false
  no : s.smvbaNFlag.getD (height, round) false = false
  done : s.smvbaDFlag.getD (height, round) false = false
  round : s.smvbaCurrentRound.getD height 1 ≤ round

/-- No prepare of the height has been collected. -/
def Unprepared (s : Core) (height : ℕ) : Prop :=
  s.parPrepareOpts.getD height [] = [] ∧ s.parPreparePess.getD height [] = []

/-- The rounds that the new entries reset are blank in `s`, and so are the prepares of the
heights that they enter; a round that is entered by a quorum of votes is marked before it is
reset. -/
structure Spares (s : Core) (new : List (ℕ × Event)) : Prop where
  rounds : ∀ e h r, (e, .reset h r) ∈ new → s.Blank h r
  heights : ∀ e h past, (e, .reset h 1) :: past <:+ new →
    (∀ e', past.head? ≠ some (e', .enterRound h 1)) → s.Unprepared h

def Terminates : Event → Bool
  | .terminate _ _ _ => true
  | _ => false

/-- No height is terminated by the new entries. -/
def Unended (new : List (ℕ × Event)) : Prop := ∀ x ∈ new, Terminates x.2 = false

theorem Spares.suffix {l new : List (ℕ × Event)} (h : Spares s new) (hl : l <:+ new) : Spares s l :=
  ⟨fun e h' r hm => h.rounds e h' r (hl.subset hm),
    fun e h' past hp hh => h.heights e h' past (hp.trans hl) hh⟩

/-- The message that a turn begins with is no part of what its steps put on record. -/
theorem Spares.take {l : List (ℕ × Event)} {m : ConsensusMessage}
    (h : Spares s (l ++ [(s.epoch, .receive m)])) : Spares (s.log (.receive m)) l where
  rounds e height round hm :=
    have hb := h.rounds e height round (List.mem_append_left _ hm)
    ⟨hb.votes, hb.dones, hb.noPrevotes, hb.yes, hb.no, hb.done, hb.round⟩
  heights e height past hp hh := by
    have hsuf : (e, .reset height 1) :: (past ++ [(s.epoch, .receive m)]) <:+
        l ++ [(s.epoch, .receive m)] := by
      obtain ⟨pre, rfl⟩ := hp
      exact ⟨pre, by simp⟩
    refine h.heights e height _ hsuf fun e' => ?_
    cases past with
    | nil => simp
    | cons x past => exact hh e'

/-! ### Steps that reset nothing -/

/-- The tables that hold the evidence. -/
def evidence (s : Core) :=
  (s.parPrepareOpts, s.parPreparePess, s.smvbaVotes, s.smvbaDones, s.smvbaNoPrevotes, s.smvbaYFlag,
    s.smvbaNFlag, s.smvbaDFlag, s.smvbaCurrentRound)

theorem grows_of_eq (h : t.evidence = s.evidence) : Grows s t := by
  simp only [evidence, Prod.mk.injEq] at h
  obtain ⟨h1, h2, h3, h4, h5, h6, h7, h8, h9⟩ := h
  constructor
  · exact .of_eq List.Subset.refl h1
  · exact .of_eq List.Subset.refl h2
  · exact .of_eq List.Subset.refl h3
  · exact .of_eq List.Subset.refl h4
  · exact .of_eq List.Subset.refl h5
  · exact .of_eq le_refl h6
  · exact .of_eq le_refl h7
  · exact .of_eq le_refl h8
  · exact .of_eq le_refl h9

theorem Grows.refl (s : Core) : Grows s s := grows_of_eq rfl

theorem Grows.trans (h : Grows s t) (h' : Grows t u) : Grows s u where
  opts := .trans List.Subset.trans h.opts h'.opts
  pess := .trans List.Subset.trans h.pess h'.pess
  votes := .trans List.Subset.trans h.votes h'.votes
  dones := .trans List.Subset.trans h.dones h'.dones
  noPrevotes := .trans List.Subset.trans h.noPrevotes h'.noPrevotes
  yes := .trans le_trans h.yes h'.yes
  no := .trans le_trans h.no h'.no
  done := .trans le_trans h.done h'.done
  round := .trans le_trans h.round h'.round

theorem grows_alike (h : Alike s t) : Grows s t where
  opts := .of_getD List.Subset.refl h.parPrepareOpts
  pess := .of_getD List.Subset.refl h.parPreparePess
  votes := .of_getD List.Subset.refl h.smvbaVotes
  dones := .of_getD List.Subset.refl h.smvbaDones
  noPrevotes := .of_getD List.Subset.refl h.smvbaNoPrevotes
  yes := .of_getD le_refl h.smvbaYFlag
  no := .of_getD le_refl h.smvbaNFlag
  done k := h.smvbaDFlag k
  round := .of_getD le_refl h.smvbaCurrentRound

theorem evidence_collect {α : Type} (add : Aggregator → Appended α Aggregator) (mark : α → Event) :
    (collect add mark s).2.evidence = s.evidence := by
  unfold collect
  split <;> rfl

theorem evidence_settle {b b1 b0 : Block} {marks : List (ℕ × Event)} :
    (s.settle b b1 b0 marks).evidence = s.evidence := by
  unfold settle
  split <;> rfl

theorem grows_putOpt {p : PrePare}
    (h : hasKey p.author (s.parPrepareOpts.getD p.height []) = false) : Grows s (s.putOpt p) :=
  { Grows.refl s with opts := (Grows.refl s).opts.insert (subset_put h) }

theorem grows_putPes {p : PrePare}
    (h : hasKey p.author (s.parPreparePess.getD p.height []) = false) : Grows s (s.putPes p) :=
  { Grows.refl s with pess := (Grows.refl s).pess.insert (subset_put h) }

theorem grows_finish (v : SPBValue) (p : SPBProof) : Grows s (s.finish v p) :=
  { Grows.refl s with done := .of_getD le_refl fun _ => Map.getD_orInsert }

theorem grows_countDone (m : MDoneAndShare) : Grows s (s.countDone m) :=
  { Grows.refl s with
    dones := (Grows.refl s).dones.insert (List.subset_insert _ _)
    done := .of_getD le_refl fun _ => Map.getD_orInsert }

theorem grows_countMvote (m : MVote) : Grows s (s.countMvote m) :=
  { Grows.refl s with votes := (Grows.refl s).votes.insert (List.subset_insert _ _) }

theorem grows_countNo (m : MPreVote) : Grows s (s.countNo m) :=
  { Grows.refl s with noPrevotes := (Grows.refl s).noPrevotes.insert (List.subset_insert _ _) }

theorem grows_raiseYes (key : ℕ × ℕ) (marks : List (ℕ × Event)) : Grows s (s.raiseYes key marks) :=
  { Grows.refl s with yes := (Grows.refl s).yes.insert (Bool.le_true _) }

theorem grows_raiseNo (key : ℕ × ℕ) (m : MVote) : Grows s (s.raiseNo key m) :=
  { Grows.refl s with no := (Grows.refl s).no.insert (Bool.le_true _) }

/-! ### Steps that reset a round -/

/-- The round was blank in `s`, so its reset loses nothing. -/
theorem Grows.updateSmvbaState {height round : ℕ} (h : Grows s u) (hb : s.Blank height round) :
    Grows s (u.updateSmvbaState height round) where
  opts := h.opts
  pess := h.pess
  votes := h.votes.insert (fun _ hx => hb.votes ▸ hx)
  dones := h.dones.insert (fun _ hx => hb.dones ▸ hx)
  noPrevotes := h.noPrevotes.insert (fun _ hx => hb.noPrevotes ▸ hx)
  yes := h.yes.insert hb.yes.le
  no := h.no.insert hb.no.le
  done := h.done.insert hb.done.le
  round := h.round.insert hb.round

theorem Grows.enterHeight {next : ℕ} (h : Grows s u) (hb : s.Blank next 1)
    (hp : s.Unprepared next) : Grows s (u.enterHeight next) := by
  refine Grows.updateSmvbaState ?_ hb
  exact { h with
    opts := h.opts.insert (fun _ hx => hp.1 ▸ hx)
    pess := h.pess.insert (fun _ hx => hp.2 ▸ hx) }

/-- A certificate that is adopted leaves the evidence alone, or its height is entered. -/
theorem adopt_evidence (u : Core) (qc : QC) :
    (u.adopt qc).evidence = u.evidence ∨
      ((u.adopt qc).evidence = (u.enterHeight (qc.height + 1)).evidence ∧
        (u.adopt qc).trace = (u.epoch, .reset (qc.height + 1) 1) :: u.trace) := by
  unfold adopt updateHighQc
  by_cases hlt : qc.height < u.height
  · rw [if_pos hlt]
    split <;> exact .inl rfl
  · rw [if_neg hlt]
    split <;> exact .inr ⟨rfl, rfl⟩

/-- How a step that terminates nothing deals with the evidence. -/
inductive Deals (s t : Core) : Prop
  | grows (h : Grows s t)
  | height {next : ℕ} (h : t.evidence = (s.enterHeight next).evidence)
      (ht : t.trace = (s.epoch, .reset next 1) :: s.trace)
  | round {height round : ℕ}
      (ht : t = (s.log (.enterRound height round)).updateSmvbaState height round)

theorem deals_adopt (u : Core) (qc : QC) : Deals u (u.adopt qc) := by
  rcases adopt_evidence u qc with h | ⟨h, ht⟩
  · exact .grows (grows_of_eq h)
  · exact .height h ht

/-- Without a termination nothing is cleaned up before a proposal's certificate is adopted. -/
theorem cleanFor_eq {b : Block} (he : Extends (s.cleanFor cfg b) t)
    (hn : ∀ new, t.trace = new ++ s.trace → Unended new) : s.cleanFor cfg b = s := by
  rcases cleanFor_cases s cfg b with heq | heq
  · exact heq
  · obtain ⟨l, hl⟩ := he.trace
    rw [heq] at hl
    have hl' : t.trace = (l ++ [(s.epoch, .terminate (b.height - 2) (s.heightAfter b.qc)
        (.proposal b))]) ++ s.trace := by
      rw [← hl, List.append_assoc]
      rfl
    cases hn _ hl' _ (List.mem_append_right _ (List.mem_singleton_self _))

theorem OptStep.deals (h : OptStep cfg s t)
    (hn : ∀ new, t.trace = new ++ s.trace → Unended new) : Deals s t := by
  cases h with
  | quiet h => exact .grows (grows_alike h)
  | @proposal b _ _ _ =>
    rw [cleanFor_eq (extends_adopt _) hn]
    exact deals_adopt _ _
  | @overflow b _ _ =>
    rw [cleanFor_eq (Extends.refl _) hn]
    exact .grows (Grows.refl s)
  | adopt _ _ _ _ _ => exact deals_adopt _ _
  | countVote _ _ _ _ _ => exact .grows (grows_of_eq (evidence_collect _ _))
  | settle _ _ _ _ _ _ => exact .grows (grows_of_eq evidence_settle)
  | _ => exact .grows (grows_of_eq rfl)

theorem PesStep.deals (h : PesStep cfg s t)
    (hn : ∀ new, t.trace = new ++ s.trace → Unended new) : Deals s t := by
  cases h with
  | @terminate k _ _ => cases hn [_] rfl _ List.mem_cons_self
  | countFallback _ => exact .grows (grows_of_eq (evidence_collect _ _))
  | countSpb _ => exact .grows (grows_of_eq (evidence_collect _ _))
  | countPre _ _ => exact .grows (grows_of_eq (evidence_collect _ _))
  | putOpt _ _ hk => exact .grows (grows_putOpt hk)
  | putPes _ _ hk => exact .grows (grows_putPes hk)
  | countDone _ => exact .grows (grows_countDone _)
  | enterRound _ _ => exact .round rfl
  | finish _ => exact .grows (grows_finish _ _)
  | countMvote _ => exact .grows (grows_countMvote _)
  | countNo _ _ => exact .grows (grows_countNo _)
  | yes _ _ _ => exact .grows (grows_raiseYes _ _)
  | voteYes _ _ _ => exact .grows (grows_raiseYes _ _)
  | voteNo _ _ _ => exact .grows (grows_raiseNo _ _)
  | _ => exact .grows (grows_of_eq rfl)

theorem Step.deals (h : Step cfg s t) (hn : ∀ new, t.trace = new ++ s.trace → Unended new) :
    Deals s t := by
  cases h with
  | opt h => exact h.deals hn
  | pes _ h => exact h.deals hn

/-- The mark of a round that is entered is never the last entry after a step. -/
theorem Step.head (h : Step cfg s t) {e height round : ℕ}
    (ht : t.trace.head? = some (e, .enterRound height round)) : t.trace = s.trace := by
  obtain ⟨new, heq, hnew⟩ := h.grown
  cases new with
  | nil => exact heq
  | cons x new =>
    have hx : x = (e, .enterRound height round) := by
      rw [heq] at ht
      exact Option.some.inj ht
    have hr := (hnew x List.mem_cons_self).2
    rw [hx] at hr
    cases hr with
    | opt h => exact h.elim
    | pes _ h _ => exact h.elim
    | enterRound _ _ _ htr =>
      rw [htr] at ht
      cases ht

/-! ### A turn -/

/-- Induction over the steps of a turn: `l` is what they have put on record so far. -/
theorem steps_grow (h : Relation.ReflTransGen (Step cfg) s t) : ∀ l, t.trace = l ++ s.trace →
    Spares s l → Unended l →
    Grows s t ∧ ∀ e height round, l.head? ≠ some (e, .enterRound height round) := by
  induction h with
  | refl =>
    intro l hl _ _
    have hnil : l = [] := List.append_left_eq_self.mp hl.symm
    exact ⟨Grows.refl s, by simp [hnil]⟩
  | @tail u t hpre hlast ih =>
    intro l hl hsp hun
    obtain ⟨old, hold⟩ := (steps_extends hpre).trace
    obtain ⟨new, hnew⟩ := hlast.extends.trace
    have hsplit : l = new ++ old := by
      apply (List.append_left_inj s.trace).mp
      rw [← hl, ← hnew, ← hold, List.append_assoc]
    have hsuf : old <:+ l := ⟨new, hsplit.symm⟩
    obtain ⟨hg, hhead⟩ := ih old hold.symm (hsp.suffix hsuf) fun x hm => hun x (hsuf.subset hm)
    have hlead : ∀ e height round, l.head? ≠ some (e, .enterRound height round) := by
      intro e height round hlr
      have htr : t.trace.head? = some (e, .enterRound height round) := by
        rw [hl, List.head?_append, hlr]
        rfl
      have hsame : l = old := by
        apply (List.append_left_inj s.trace).mp
        rw [← hl, hlast.head htr, hold]
      exact hhead e height round (hsame ▸ hlr)
    refine ⟨?_, hlead⟩
    have hdeals : Deals u t := by
      refine hlast.deals ?_
      intro new' hnew' x hm
      have heq : new' = new := List.append_cancel_right (hnew'.symm.trans hnew.symm)
      exact hun x (hsplit ▸ List.mem_append_left _ (heq ▸ hm))
    cases hdeals with
    | grows h => exact hg.trans h
    | @height next h ht =>
      have hl' : l = (u.epoch, .reset next 1) :: old := by
        apply (List.append_left_inj s.trace).mp
        rw [← hl, ht, ← hold]
        rfl
      have hb : s.Blank next 1 := hsp.rounds u.epoch next 1 (hl' ▸ List.mem_cons_self)
      have hp : s.Unprepared next :=
        hsp.heights u.epoch next old (hl' ▸ List.suffix_rfl) fun e => hhead e next 1
      exact (hg.enterHeight hb hp).trans (grows_of_eq h)
    | @round height round ht =>
      have hmem : (u.epoch, .reset height round) ∈ l := by
        have htr : t.trace = (u.epoch, .reset height round) :: (u.epoch,
          .enterRound height round) ::
            (old ++ s.trace) := by rw [ht, hold]; rfl
        rw [hl, ← List.cons_append, ← List.cons_append] at htr
        rw [List.append_cancel_right htr]
        exact List.mem_cons_self
      rw [ht]
      exact Grows.updateSmvbaState (hg.trans (grows_of_eq rfl)) (hsp.rounds _ _ _ hmem)

/-- A node that is still in its epoch has only taken steps. -/
theorem steps_of_turns (h : Relation.ReflTransGen (Turn cfg) s t) :
    s.epoch ≤ t.epoch ∧ (t.epoch = s.epoch → Relation.ReflTransGen (Step cfg) s t) := by
  induction h with
  | refl => exact ⟨Nat.le_refl _, fun _ => .refl⟩
  | @tail u t _ hlast ih =>
    cases hlast with
    | step h =>
      rw [h.extends.epoch]
      exact ⟨ih.1, fun he => (ih.2 he).tail h⟩
    | epoch _ ht =>
      have he : t.epoch = u.epoch + 1 := ht ▸ renewed_epoch u
      exact ⟨by omega, fun _ => by omega⟩

/-- The evidence that a node has collected is kept in a turn that ends neither a height nor the
epoch, if the heights and rounds that it enters were blank. -/
theorem evidence_kept (h : Reachable cfg s true) (fuel : ℕ) (i : Input)
    (hne : (react cfg fuel i s).1 ≠ .exhausted) (new : List (ℕ × Event))
    (hnew : (react cfg fuel i s).2.trace = new ++ s.trace) (hun : Unended new)
    (he : (react cfg fuel i s).2.epoch = s.epoch) (hsp : Spares s new) :
    Grows s (react cfg fuel i s).2 := by
  have hturns := react_turns h.storeOk hne
  have htake : ∀ m, Relation.ReflTransGen (Turn cfg) (s.log (.receive m)) (react cfg fuel i s).2 →
      Grows s (react cfg fuel i s).2 := by
    intro m hturns
    obtain ⟨l, hl⟩ := (steps_extends ((steps_of_turns hturns).2 he)).trace
    have hsplit : new = l ++ [(s.epoch, .receive m)] := by
      apply (List.append_left_inj s.trace).mp
      rw [← hnew, ← hl, List.append_assoc]
      rfl
    subst hsplit
    have hgrows := steps_grow ((steps_of_turns hturns).2 he) l hl.symm hsp.take
      fun x hm => hun x (List.mem_append_left _ hm)
    have htaken : Grows s (s.log (.receive m)) := grows_of_eq rfl
    exact htaken.trans hgrows.1
  cases i with
  | core m => exact htake m hturns
  | smvba m => exact htake m hturns
  | boot => exact (steps_grow ((steps_of_turns hturns).2 he) new hnew hsp hun).1
  | timer => exact (steps_grow ((steps_of_turns hturns).2 he) new hnew hsp hun).1

end Evidence

/-! ### A prepare that comes early -/

instance (s : Core) (height round : ℕ) : Decidable (s.Blank height round) :=
  decidable_of_iff (s.smvbaVotes.getD (height, round) [] = [] ∧
      s.smvbaDones.getD (height, round) [] = [] ∧ s.smvbaNoPrevotes.getD (height, round) [] = [] ∧
      s.smvbaYFlag.getD (height, round) false = false ∧
      s.smvbaNFlag.getD (height, round) false = false ∧
      s.smvbaDFlag.getD (height, round) false = false ∧ s.smvbaCurrentRound.getD height 1 ≤ round)
    ⟨fun ⟨h1, h2, h3, h4, h5, h6, h7⟩ => ⟨h1, h2, h3, h4, h5, h6, h7⟩,
      fun ⟨h1, h2, h3, h4, h5, h6, h7⟩ => ⟨h1, h2, h3, h4, h5, h6, h7⟩⟩

instance (s : Core) (height : ℕ) : Decidable (s.Unprepared height) :=
  inferInstanceAs (Decidable (_ ∧ _))

instance (new : List (ℕ × Event)) : Decidable (Unended new) :=
  inferInstanceAs (Decidable (∀ _ ∈ new, _))

/-- The height and the round that an entry resets. -/
def resetOf : Event → Option (ℕ × ℕ)
  | .reset height round => some (height, round)
  | _ => none

theorem spares_of_resetOf {s : Core} {new : List (ℕ × Event)}
    (h : ∀ x ∈ new, ∀ k ∈ resetOf x.2, s.Blank k.1 k.2 ∧ s.Unprepared k.1) : Spares s new :=
  ⟨fun _ _ _ hm => (h _ hm _ rfl).1,
    fun _ _ _ hp _ => (h _ (hp.subset List.mem_cons_self) _ rfl).2⟩

end Core

/-- The first block's certificate, and the block of the next leader on top of it. -/
def firstQc : QC :=
  ⟨leaderProposal.digest, 1, 0, 0, OPT, 1, 1,
    [0, 1, 2].map fun k => (k, (HVote.new leaderProposal k OPT).signature)⟩

def secondProposal : Block := Block.new firstQc 2 2 0 0 [] OPT

/-- Node `3` is at the third height already. -/
def earlyPrepare : PrePare := PrePare.new 3 0 2 firstQc OPT

/-- A node enters the second height before anything of it has come. -/
theorem evidence_kept_secondProposal : ∃ s, Core.Reachable (sampleConfig 0) s true ∧
    (Core.react (sampleConfig 0) 40 (.core (.HsPropose secondProposal)) s).2.height = 2 ∧
    s.Grows (Core.react (sampleConfig 0) 40 (.core (.HsPropose secondProposal)) s).2 := by
  obtain ⟨s, hr, hok, htr, hun, he, hh, hsp⟩ := exists_replay (sampleConfig 0) [.boot]
    (fun s =>
      let r := Core.react (sampleConfig 0) 40 (.core (.HsPropose secondProposal)) s
      r.1 = .ok () ∧ r.2.trace = s.newEntries r.2 ++ s.trace ∧ Core.Unended (s.newEntries r.2) ∧
        r.2.epoch = s.epoch ∧ r.2.height = 2 ∧
        ∀ x ∈ s.newEntries r.2, ∀ k ∈ Core.resetOf x.2, s.Blank k.1 k.2 ∧ s.Unprepared k.1)
    (by decide +kernel)
  refine ⟨s, hr, hh, ?_⟩
  exact Core.evidence_kept hr 40 _ (by simp [hok]) _ htr hun he (Core.spares_of_resetOf hsp)

/-- It forgets a prepare of the second height when it enters that height. -/
theorem not_evidence_kept_earlyPrepare :
    ¬ ∀ (cfg : Config) (s : Core), Core.Reachable cfg s true → ∀ (fuel : ℕ) (i : Input),
      (Core.react cfg fuel i s).1 ≠ .exhausted → ∀ new,
      (Core.react cfg fuel i s).2.trace = new ++ s.trace → Core.Unended new →
      (Core.react cfg fuel i s).2.epoch = s.epoch → s.Grows (Core.react cfg fuel i s).2 := by
  intro h
  obtain ⟨s, hr, hok, htr, hun, he, hsome, hnone⟩ := exists_replay (sampleConfig 0)
    [.boot, .smvba (.ParPrePare earlyPrepare)]
    (fun s =>
      let r := Core.react (sampleConfig 0) 40 (.core (.HsPropose secondProposal)) s
      r.1 = .ok () ∧ r.2.trace = s.newEntries r.2 ++ s.trace ∧ Core.Unended (s.newEntries r.2) ∧
        r.2.epoch = s.epoch ∧ s.parPrepareOpts.getD 2 [] ≠ [] ∧ r.2.parPrepareOpts.getD 2 [] = [])
    (by decide +kernel)
  have hgrows := h _ s hr 40 _ (by simp [hok]) _ htr hun he
  refine hsome (List.eq_nil_iff_forall_not_mem.mpr fun p hp => ?_)
  have hmem := hgrows.opts 2 hp
  rw [hnone] at hmem
  exact List.not_mem_nil hmem

end Ipotane
