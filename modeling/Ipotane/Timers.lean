import Ipotane.Core.Effect
import Ipotane.Lib.History
import Ipotane.Replay

/-! The proposal timer and the leaders of a height. -/
namespace Ipotane

open Lib

section Timers

variable [Crypto]

/-- What the timer was last set to in the epoch `e`. -/
def lastArm (e : ℕ) : List (ℕ × Event) → Option ℕ
  | [] => none
  | x :: past =>
    match x.2 with
    | .arm duration => if x.1 = e then duration else lastArm e past
    | _ => lastArm e past

/-- A node that enters a height while its timer runs leads that height. A round of the agreement
is entered with a mark of its own, and leaves the node at its height. -/
def Steered (cfg : Config) (x : ℕ × Event) (past : List (ℕ × Event)) : Prop :=
  match x.2 with
  | .reset height 1 => past.head? ≠ some (x.1, .enterRound height 1) → lastArm x.1 past ≠ none →
      (cfg.committee.indexAsLeader cfg.parameters.leaderWindow cfg.name height).isSome = true
  | _ => True

instance (cfg : Config) (x : ℕ × Event) (past : List (ℕ × Event)) :
    Decidable (Steered cfg x past) := by
  obtain ⟨_, x⟩ := x
  unfold Steered
  rcases x
  case reset height round =>
    match round with
    | 0 => exact inferInstanceAs (Decidable True)
    | 1 => exact inferInstanceAs (Decidable (_ → _ → _))
    | _ + 2 => exact inferInstanceAs (Decidable True)
  all_goals infer_instance

namespace Core

variable {cfg : Config} {s t : Core} {alive : Bool}

/-- The entry does not set the timer. -/
def Event.Unarmed (x : ℕ × Event) : Prop := ∀ duration, x.2 ≠ .arm duration

theorem lastArm_append {new l : List (ℕ × Event)} (h : ∀ x ∈ new, Event.Unarmed x) (e : ℕ) :
    lastArm e (new ++ l) = lastArm e l := by
  induction new with
  | nil => rfl
  | cons x new ih =>
    have hrest := ih fun y hy => h y (List.mem_cons_of_mem _ hy)
    rw [List.cons_append, lastArm]
    split
    · rename_i duration hx
      exact absurd hx (h x List.mem_cons_self duration)
    · exact hrest

/-- Nothing has set the timer in an epoch that has not begun. -/
theorem lastArm_of_le {l : List (ℕ × Event)} {e : ℕ} (h : ∀ x ∈ l, x.1 < e) :
    lastArm e l = none := by
  induction l with
  | nil => rfl
  | cons x l ih =>
    have hrest := ih fun y hy => h y (List.mem_cons_of_mem _ hy)
    have hx := h x List.mem_cons_self
    rw [lastArm]
    split
    · rw [if_neg (by omega)]
      exact hrest
    · exact hrest

structure TimerInv (cfg : Config) (s : Core) : Prop where
  timely : s.Timely
  timer : s.timer = lastArm s.epoch s.trace
  leads : s.timer ≠ none → s.Leads cfg

/-! ### One step -/

theorem adopt_timer (qc : QC) : (s.adopt qc).timer = s.timer := by
  unfold adopt updateHighQc
  split <;> split <;> rfl

theorem cleanFor_timer {b : Block} : (s.cleanFor cfg b).timer = s.timer := by
  unfold cleanFor
  split <;> rfl

theorem collect_timer {α : Type} (add : Aggregator → Appended α Aggregator) (mark : α → Event) :
    (collect add mark s).2.timer = s.timer := by
  unfold collect
  split <;> rfl

theorem settle_timer {b b1 b0 : Block} {marks : List (ℕ × Event)} :
    (s.settle b b1 b0 marks).timer = s.timer := by
  unfold settle
  split <;> rfl

/-- Only `reset_timer` changes the timer. -/
theorem Step.timer_cases (h : Step cfg s t) :
    (∃ duration, (duration ≠ none → s.Leads cfg) ∧ t = s.arm duration) ∨ t.timer = s.timer := by
  cases h with
  | opt h =>
    cases h with
    | quiet h => exact .inr h.timer
    | proposal _ _ _ => exact .inr ((adopt_timer _).trans cleanFor_timer)
    | overflow _ _ => exact .inr cleanFor_timer
    | adopt _ _ _ _ _ => exact .inr (adopt_timer _)
    | arm h => exact .inl ⟨_, h, rfl⟩
    | countVote _ _ _ _ _ => exact .inr (collect_timer _ _)
    | settle _ _ _ _ _ _ => exact .inr settle_timer
    | _ => exact .inr rfl
  | pes _ h =>
    cases h with
    | countFallback _ => exact .inr (collect_timer _ _)
    | countSpb _ => exact .inr (collect_timer _ _)
    | countPre _ _ => exact .inr (collect_timer _ _)
    | _ => exact .inr rfl

/-- A step that does not set the timer does not say so either. -/
theorem Step.lastArm_eq (h : Step cfg s t) (hn : ∀ duration, t ≠ s.arm duration) (e : ℕ) :
    lastArm e t.trace = lastArm e s.trace := by
  obtain ⟨new, heq, hnew⟩ := h.grown
  rw [heq]
  refine lastArm_append ?_ e
  rintro ⟨e', y⟩ hy duration rfl
  have hr := (hnew _ hy).2
  cases hr with
  | opt h => exact h.elim
  | pes _ h => exact h.elim
  | arm _ ht => exact hn duration ht

theorem Clearing.lastArm_eq (h : Clearing s t) (e : ℕ) : lastArm e t.trace = lastArm e s.trace := by
  obtain ⟨new, heq, hnew⟩ := h
  rw [heq]
  refine lastArm_append ?_ e
  rintro ⟨e', y⟩ hy duration rfl
  exact (hnew _ hy).elim

theorem adopt_trace_of_le {qc : QC} (h : s.height ≤ qc.height) :
    (s.adopt qc).trace = (s.epoch, .reset (qc.height + 1) 1) :: s.trace := by
  have hlt : ¬ qc.height < s.height := by omega
  unfold adopt updateHighQc
  rw [if_neg hlt]
  split <;> rfl

/-- A proposal may take the node to another height, and the record says so. -/
theorem proposal_enters {b : Block} (ha : s.trace.head? = some (s.epoch, .approve b)) :
    ((s.cleanFor cfg b).adopt b.qc).height = s.height ∨
      ∃ past, ((s.cleanFor cfg b).adopt b.qc).trace =
          (s.epoch, .reset ((s.cleanFor cfg b).adopt b.qc).height 1) :: past ∧
        lastArm s.epoch past = lastArm s.epoch s.trace ∧
        past.head? ≠ some (s.epoch, .enterRound ((s.cleanFor cfg b).adopt b.qc).height 1) := by
  have hheight : (s.cleanFor cfg b).height = s.height := cleanFor_height
  rw [adopt_height, hheight]
  by_cases hlt : b.qc.height < s.height
  · exact .inl (by omega)
  · have hmax : max s.height (b.qc.height + 1) = b.qc.height + 1 := by omega
    rw [hmax]
    refine .inr ⟨(s.cleanFor cfg b).trace, ?_, (clearing_cleanFor b).lastArm_eq _, ?_⟩
    · rw [adopt_trace_of_le (by omega), (extends_cleanFor b).epoch]
    · rcases cleanFor_cases s cfg b with heq | heq
      · rw [heq, ha]
        exact nofun
      · rw [heq]
        exact nofun

/-- A node that goes on to another height leads it, or the record says so. -/
theorem Step.height_cases (h : Step cfg s t) :
    t.height = s.height ∨ t.Leads cfg ∨
      ∃ past, t.trace = (s.epoch, .reset t.height 1) :: past ∧
        lastArm s.epoch past = lastArm s.epoch s.trace ∧
        past.head? ≠ some (s.epoch, .enterRound t.height 1) := by
  cases h with
  | opt h =>
    cases h with
    | quiet h => exact .inl h.height
    | proposal _ _ ha => exact (proposal_enters ha).imp id .inr
    | overflow _ _ => exact .inl cleanFor_height
    | adopt _ _ _ _ hl => exact .inr (.inl hl)
    | countVote _ _ _ _ _ => exact .inl (collect_height _ _)
    | settle _ _ _ _ _ _ => exact .inl settle_height
    | _ => exact .inl rfl
  | pes _ h => exact .inl h.height_eq

theorem TimerInv.step (hs : TimerInv cfg s) (hc : Along (Steered cfg) t.trace) (h : Step cfg s t) :
    TimerInv cfg t := by
  have he := h.extends.epoch
  have harm : ∀ duration, (duration ≠ none → s.Leads cfg) → t = s.arm duration →
    TimerInv cfg t := by
    rintro duration hl rfl
    refine ⟨hs.timely.step h, ?_, hl⟩
    change duration = if s.epoch = s.epoch then duration else lastArm s.epoch s.trace
    rw [if_pos rfl]
  rcases h.timer_cases with ⟨duration, hl, ht⟩ | htimer
  · exact harm duration hl ht
  · by_cases hset : ∃ duration, t = s.arm duration
    · obtain ⟨duration, ht⟩ := hset
      refine harm duration ?_ ht
      rw [ht] at htimer
      intro hd
      exact hs.leads (htimer ▸ hd)
    · have hlast := h.lastArm_eq (fun d hd => hset ⟨d, hd⟩) s.epoch
      refine ⟨hs.timely.step h, ?_, ?_⟩
      · rw [htimer, hs.timer, he, hlast]
      · intro hrun
        rw [htimer] at hrun
        rcases h.height_cases with hsame | hl | ⟨past, htr, hpast, hhead⟩
        · unfold Leads
          rw [hsame]
          exact hs.leads hrun
        · exact hl
        · rw [htr] at hc
          refine hc.1 hhead ?_
          rw [hpast, ← hs.timer]
          exact hrun

theorem TimerInv.renewed (hs : TimerInv cfg s) : TimerInv cfg s.renewed := by
  have hnone : s.renewed.timer = none := by
    obtain ⟨marks, rest, heq, -, -⟩ := renewed_eq s
    rw [heq]
    rfl
  refine ⟨hs.timely.renewed, ?_, fun h => absurd hnone h⟩
  obtain ⟨new, heq, hnew⟩ := renewed_grown s
  rw [hnone, heq, lastArm_append, lastArm_of_le]
  · intro x hx
    have := hs.timely x hx
    rw [renewed_epoch]
    omega
  · rintro x hx duration hd
    have hown := (hnew x hx).2
    rw [hd] at hown
    exact hown trivial

theorem Reachable.timerInv (h : Reachable cfg s alive) (hc : Along (Steered cfg) s.trace) :
    TimerInv cfg s := by
  refine (h.invariant (C := Along (Steered cfg)) (fun _ _ => Along.suffix) ?_ ?_ ?_).2 hc
  · exact ⟨.new, rfl, fun h => absurd rfl h⟩
  · intro s m hs _
    exact ⟨hs.timely.take m, hs.timer, hs.leads⟩
  · intro s t _ hs hc ht
    cases ht with
    | step ht => exact hs.step hc ht
    | epoch _ ht => exact ht ▸ hs.renewed

end Core

/-- If a node with a running timer only goes on to heights that it leads, it leads its height
whenever the timer fires, and whenever else it proposes. -/
theorem timer_led {S : Setup} {honest : PublicKey → Prop}
    {foreign : Cores → ConsensusMessage → Prop}
    {w : World} {i : PublicKey} {fuel : ℕ} {input : Input} (h : Run S honest foreign w)
    (hm : MayTake foreign w i input) (hc : Along (Steered (S.config i)) (w.core i).trace) :
    ((w.core i).timer ≠ none → (w.core i).Leads (S.config i)) ∧
      (Core.react (S.config i) fuel input (w.core i)).1 ≠ .panic .notLeader := by
  have hleads := ((h.reachable i).timerInv hc).leads
  refine ⟨hleads, ?_⟩
  intro hp
  rcases Core.react_stops (h.reachable i).storeOk hp with hst | ⟨hst, -⟩ | ⟨-, rfl, hno⟩
  · cases hst
  · cases hst
  · refine hno (hleads ?_)
    rcases hm with ⟨-, hboot⟩ | ⟨-, ha⟩
    · cases hboot
    · cases ha with
      | timer ht => exact ht

end Timers

/-! ### A timer that is not stopped -/

/-- Node `3` waits as the second leader of height `2` while the others make three blocks. -/
def toFourthBlock : List Act :=
  [.boot 0, .boot 1, .boot 2, .boot 3, .deliver 0 1 0, .deliver 2 0 1, .deliver 3 0 2,
    .deliver 2 1 0, .deliver 2 1 2, .deliver 3 1 3, .deliver 3 2 1, .deliver 0 2 2, .deliver 1 2 2,
    .deliver 0 1 8, .deliver 0 2 7, .timer 0, .deliver 1 0 7, .deliver 2 0 7, .deliver 0 1 12,
    .deliver 0 2 11]

theorem timer_led_before_fourthBlock : ∃ w, sampleSetup.Runs w ∧ (w.core 3).timer ≠ none ∧
    (w.core 3).Leads (sampleSetup.config 3) ∧
    (Core.react (sampleSetup.config 3) 40 .timer (w.core 3)).1 ≠ .panic .notLeader := by
  obtain ⟨w, hr, hp, ht, hc⟩ := exists_play sampleSetup toFourthBlock
    (fun w => w.phase 3 = .running ∧ (w.core 3).timer ≠ none ∧
      Along (Steered (sampleSetup.config 3)) (w.core 3).trace)
    (by decide +kernel) (by decide +kernel)
  obtain ⟨hl, hok⟩ := timer_led hr (.inr ⟨hp, .timer ht⟩) hc
  exact ⟨w, hr, ht, hl ht, hok⟩

/-- The fourth block takes node `3` to a height that it does not lead, without its parent. -/
theorem not_timer_led_after_fourthBlock :
    ¬ ∀ (S : Setup) (w : World) (i : PublicKey) (fuel : ℕ) (input : Input), S.parameters.exp = 1 →
      S.Runs w → i ∈ S.committee.sortedNames → MayTake (fun _ _ => False) w i input →
      (Core.react (S.config i) fuel input (w.core i)).1 ≠ .panic .notLeader := by
  intro h
  obtain ⟨w, input, hr, hm, hp⟩ := exists_turn sampleSetup
    (toFourthBlock ++ [.deliver 3 0 12]) (.timer 3)
    (fun r => r.1 = .panic .notLeader) (by decide +kernel) (by decide +kernel)
  exact h _ w 3 40 input rfl hr (by decide) hm hp

end Ipotane
