import Ipotane.Core.Effect
import Ipotane.Lib.History
import Ipotane.Replay

/-! One prepare value per epoch and height. -/
namespace Ipotane.Core

open Lib Handler

section Prepares

variable [Crypto] {cfg : Config} {s t : Core}

/-- No height of an epoch is prepared with both values. -/
def PreparesOnce (s : Core) : Prop :=
  ∀ p q, s.Ever (.send (.ParPrePare p) none PES) → s.Ever (.send (.ParPrePare q) none PES) →
    p.epoch = q.epoch → p.height = q.height → ¬ (p.val = OPT ∧ q.val = PES)

/-- The height below the block was prepared for the pessimistic path. -/
def Closes (e : ℕ) (b : Block) : ℕ × Event → Prop
  | (e', .sign (.prepare p)) => e' = e ∧ p.val = PES ∧ p.height + 1 = b.height
  | _ => False

instance (e : ℕ) (b : Block) (x : ℕ × Event) : Decidable (Closes e b x) := by
  obtain ⟨_, x⟩ := x
  unfold Closes
  rcases x
  case sign item => rcases item <;> infer_instance
  all_goals infer_instance

/-- A termination leaves the node two heights ahead, and a block that the node has passed is not
processed once the height below it has been prepared for the pessimistic path. -/
def Orderly (x : ℕ × Event) (past : List (ℕ × Event)) : Prop :=
  match x with
  | (_, .terminate k reached _) => k + 2 ≤ reached
  | (e, .process b height) => height ≤ b.height ∨ ∀ y ∈ past, ¬ Closes e b y
  | _ => True

instance (x : ℕ × Event) (past : List (ℕ × Event)) : Decidable (Orderly x past) := by
  obtain ⟨_, x⟩ := x
  unfold Orderly
  rcases x <;> infer_instance

structure PrepareInv (s : Core) : Prop where
  timely : s.Timely
  past : ∀ e p, (e, .sign (.prepare p)) ∈ s.trace → p.epoch = e
  sent : ∀ p dest tag, s.Ever (.send (.ParPrePare p) dest tag) → s.Ever (.sign (.prepare p))
  kept : ∀ p, s.Did (.sign (.prepare p)) → s.prepareTag.contains p.height = true ∨
    p.height + 2 ≤ s.height
  seen : ∀ b height, s.Did (.process b height) → height ≤ s.height ∧ (height ≤ b.height ∨
    ∀ p, s.Did (.sign (.prepare p)) → p.val = PES → p.height + 1 ≠ b.height)
  once : ∀ p q, s.Ever (.sign (.prepare p)) → s.Ever (.sign (.prepare q)) → p.epoch = q.epoch →
    p.height = q.height → ¬ (p.val = OPT ∧ q.val = PES)

theorem Records.prepare_inv {p : PrePare} (h : Records cfg s t (.sign (.prepare p))) :
    p.epoch = s.epoch ∧ s.PrepareCause cfg p.height p.qc p.val ∧
      s.prepareTag.contains p.height = false ∧ t = s.signPrepare p := by
  cases h with
  | opt h => exact h.elim
  | pes _ h => exact h.elim
  | prepare _ hc hn ht => exact ⟨rfl, hc, hn, ht⟩

theorem Records.process_inv {b : Block} {height : ℕ} (h : Records cfg s t (.process b height)) :
    s.Admits cfg b ∧ height = s.height := by
  cases h with
  | opt h => exact h
  | pes _ h => exact h.elim

theorem Records.sendPrepare_inv {p : PrePare} {dest : Option PublicKey} {tag : ℕ}
    (h : Records cfg s t (.send (.ParPrePare p) dest tag)) : s.Did (.sign (.prepare p)) := by
  cases h with
  | opt h => exact h.elim
  | pes _ h => exact h.1

theorem PrepareInv.kept_step (hs : PrepareInv s) (hc : Along Orderly t.trace) (h : Step cfg s t)
    {p : PrePare} (hp : s.Did (.sign (.prepare p))) :
    t.prepareTag.contains p.height = true ∨ p.height + 2 ≤ t.height := by
  have hle := h.height_le
  rcases hs.kept p hp with hk | hk
  · rcases h.prepareTag hk with hk | ⟨k, hk, _, hclean⟩
    · exact .inl hk
    · obtain ⟨past, _, hreach⟩ := hc.of_mem hclean
      have : k + 2 ≤ t.height := hreach
      exact .inr (by omega)
  · exact .inr (by omega)

/-- A height is not prepared a second time with another value. -/
theorem PrepareInv.fresh (hs : PrepareInv s) {p q : PrePare} (hq : s.Did (.sign (.prepare q)))
    (hp : s.PrepareCause cfg p.height p.qc p.val) (hn : s.prepareTag.contains p.height = false)
    (hh : p.height = q.height) : p.val = OPT ∧ q.val ≠ PES := by
  have hgone : q.height + 2 ≤ s.height := by
    rcases hs.kept q hq with hk | hk
    · rw [← hh, hn] at hk
      cases hk
    · exact hk
  generalize hval : p.val = val at hp
  cases hp with
  | opt hb hbh hqc =>
    refine ⟨rfl, fun hpes => ?_⟩
    rcases (hs.seen _ _ hb).2 with hle | hno
    · omega
    · exact hno q hq hpes (by omega)
  | pes _ _ hf => omega

theorem PrepareInv.did_of_epoch (hs : PrepareInv s) {e : ℕ} {p : PrePare}
    (h : (e, .sign (.prepare p)) ∈ s.trace) (he : p.epoch = s.epoch) :
    s.Did (.sign (.prepare p)) := by
  rw [Did, ← he, hs.past e p h]
  exact h

/-- A prepare of `t` is one of `s`, or the step is that prepare. -/
theorem Step.prepare_cases (h : Step cfg s t) {e : ℕ} {p : PrePare}
    (hp : (e, .sign (.prepare p)) ∈ t.trace) :
    (e, .sign (.prepare p)) ∈ s.trace ∨ (e = s.epoch ∧ p.epoch = s.epoch ∧
      s.PrepareCause cfg p.height p.qc p.val ∧ s.prepareTag.contains p.height = false ∧
      t = s.signPrepare p) := by
  rcases h.recorded hp with hp | ⟨he, hr⟩
  · exact .inl hp
  · exact .inr ⟨he, hr.prepare_inv⟩

theorem PrepareInv.seen_step (hs : PrepareInv s) (hc : Along Orderly t.trace) (h : Step cfg s t)
    {b : Block} {height : ℕ} (hb : t.Did (.process b height)) : height ≤ t.height ∧
      (height ≤ b.height ∨ ∀ p, t.Did (.sign (.prepare p)) → p.val = PES →
        p.height + 1 ≠ b.height) := by
  have hle := h.height_le
  have he := h.extends.epoch
  unfold Did at hb ⊢
  rw [he] at hb ⊢
  by_cases hold : (s.epoch, Event.process b height) ∈ s.trace
  · -- a new prepare for the pessimistic path is not below the node
    obtain ⟨hbh, hseen⟩ := hs.seen b height hold
    refine ⟨by omega, ?_⟩
    rcases hseen with hseen | hseen
    · exact .inl hseen
    by_cases hlow : height ≤ b.height
    · exact .inl hlow
    refine .inr fun p hp hval => ?_
    rcases h.prepare_cases hp with hp | ⟨_, _, hcause, _, _⟩
    · exact hseen p hp hval
    · rw [hval] at hcause
      cases hcause with
      | pes _ _ hf => omega
  · obtain ⟨past, hsuf, hpast⟩ := hc.of_mem hb
    have hnew : s.trace <:+ past := suffix_past hsuf h.extends.trace hold
    rcases h.recorded hb with hb' | ⟨_, hr⟩
    · exact absurd hb' hold
    obtain ⟨_, rfl⟩ := hr.process_inv
    refine ⟨hle, ?_⟩
    rcases hpast with hpast | hpast
    · exact .inl hpast
    refine .inr fun p hp hval => ?_
    rcases h.prepare_cases hp with hp | ⟨_, _, _, _, ht⟩
    · exact fun hh => hpast _ (hnew.subset hp) ⟨rfl, hval, hh⟩
    · -- the step has signed a prepare and nothing else
      rw [ht] at hb
      rcases List.mem_cons.mp hb with hb | hb
      · cases hb
      · exact absurd hb hold

theorem PrepareInv.step (hs : PrepareInv s) (hc : Along Orderly t.trace) (h : Step cfg s t) :
    PrepareInv t := by
  have he := h.extends
  refine ⟨hs.timely.step h, ?_, ?_, ?_, fun b height => hs.seen_step hc h, ?_⟩
  · intro e p hp
    rcases h.prepare_cases hp with hp | ⟨hep, hpe, _⟩
    · exact hs.past e p hp
    · exact hpe.trans hep.symm
  · rintro p dest tag ⟨e, hp⟩
    rcases h.recorded hp with hp | ⟨_, hr⟩
    · exact he.ever (hs.sent p dest tag ⟨e, hp⟩)
    · exact he.ever hr.sendPrepare_inv.ever
  · intro p hp
    unfold Did at hp
    rw [he.epoch] at hp
    rcases h.prepare_cases hp with hp | ⟨_, _, _, _, rfl⟩
    · exact hs.kept_step hc h hp
    · refine .inl ?_
      unfold signPrepare Map.contains
      simp
  · rintro p q ⟨e, hp⟩ ⟨e', hq⟩ hep hh ⟨hpv, hqv⟩
    rcases h.prepare_cases hp with hp | ⟨_, hpe, hpc, hpn, hpt⟩ <;>
      rcases h.prepare_cases hq with hq | ⟨_, hqe, hqc, hqn, hqt⟩
    · exact hs.once p q ⟨e, hp⟩ ⟨e', hq⟩ hep hh ⟨hpv, hqv⟩
    · have hd := hs.did_of_epoch hp (hep.trans hqe)
      obtain ⟨hv, _⟩ := hs.fresh hd hqc hqn hh.symm
      rw [hqv] at hv
      cases hv
    · have hd := hs.did_of_epoch hq (hep.symm.trans hpe)
      exact (hs.fresh hd hpc hpn hh).2 hqv
    · have htr := congrArg Core.trace (hpt.symm.trans hqt)
      simp only [signPrepare, List.cons.injEq, Prod.mk.injEq, Event.sign.injEq,
        SignedItem.prepare.injEq] at htr
      rw [htr.1.2, hqv] at hpv
      cases hpv

theorem PrepareInv.take (hs : PrepareInv s) (m : ConsensusMessage) :
    PrepareInv (s.log (.receive m)) := by
  refine ⟨hs.timely.take m, fun e p hp => hs.past e p (mem_take hp trivial), ?_,
    fun p hp => hs.kept p (mem_take hp trivial), ?_, ?_⟩
  · rintro p dest tag ⟨e, hp⟩
    exact (extends_log _).ever (hs.sent p dest tag ⟨e, mem_take hp trivial⟩)
  · intro b height hb
    obtain ⟨hle, hseen⟩ := hs.seen b height (mem_take hb trivial)
    exact ⟨hle, hseen.imp_right fun h p hp => h p (mem_take hp trivial)⟩
  · rintro p q ⟨e, hp⟩ ⟨e', hq⟩
    exact hs.once p q ⟨e, mem_take hp trivial⟩ ⟨e', mem_take hq trivial⟩

theorem PrepareInv.renewed (hs : PrepareInv s) : PrepareInv s.renewed := by
  refine ⟨hs.timely.renewed, fun e p hp => hs.past e p (mem_renewed hp trivial), ?_,
    fun p hp => (hs.timely.not_renewed_did hp trivial).elim,
    fun b height hb => (hs.timely.not_renewed_did hb trivial).elim, ?_⟩
  · rintro p dest tag ⟨e, hp⟩
    obtain ⟨e', he'⟩ := hs.sent p dest tag ⟨e, mem_renewed hp trivial⟩
    exact ⟨e', (renewed_trace s).subset he'⟩
  · rintro p q ⟨e, hp⟩ ⟨e', hq⟩
    exact hs.once p q ⟨e, mem_renewed hp trivial⟩ ⟨e', mem_renewed hq trivial⟩

theorem PrepareInv.new : PrepareInv .new := by
  refine ⟨.new, fun e p hp => (not_own_of_new hp trivial).elim, ?_,
    fun p hp => (not_own_of_new hp trivial).elim,
    fun b height hb => (not_own_of_new hb trivial).elim, ?_⟩
  · rintro p dest tag ⟨e, hp⟩
    exact (not_own_of_new hp trivial).elim
  · rintro p q ⟨e, hp⟩
    exact (not_own_of_new hp trivial).elim

theorem PrepareInv.reachable {alive : Bool} (h : Reachable cfg s alive)
    (hc : Along Orderly s.trace) : PrepareInv s := by
  refine (h.invariant (fun l l' hl => Along.suffix hl) PrepareInv.new ?_ ?_).2 hc
  · exact fun s m hs _ => hs.take m
  · intro s t _ hs hc ht
    cases ht with
    | step ht => exact hs.step hc ht
    | epoch _ ht => exact ht ▸ hs.renewed

end Prepares

end Ipotane.Core

namespace Ipotane

open Lib

theorem preparesOnce_of_orderly [Crypto] {S : Setup} {w : World} {k : PublicKey} (h : S.Runs w)
    (hc : Along Core.Orderly (w.core k).trace) : (w.core k).PreparesOnce := by
  have hs := Core.PrepareInv.reachable (h.reachable k) hc
  intro p q hp hq
  exact hs.once p q (hs.sent p _ _ hp) (hs.sent q _ _ hq)

/-! ### A block that returns after its height is terminated -/

/-- Node `0` misses the payload of the block of height `2`. -/
def missingPayload : Setup :=
  { sampleSetup with status := fun k n => if k = 0 ∧ n = 2 then .Wait else .Accept }

/-- The fallback chain of node `0` is complete, and the next two heights have their blocks. -/
def toPrepare : List Act :=
  [.boot 0, .boot 1, .boot 2, .boot 3, .deliver 0 1 0, .deliver 2 1 0, .deliver 3 1 0,
    .deliver 1 0 0, .deliver 2 0 0, .deliver 0 1 4, .deliver 0 2 2]

def toReturn : List Act :=
  [.deliver 2 1 2, .deliver 2 3 1, .deliver 0 2 3, .deliver 1 2 3, .deliver 3 1 8, .deliver 3 2 3,
    .deliver 3 2 7, .deliver 0 3 6, .payload 0 0]

/-- The prepares that a node has broadcast. -/
def Core.prepares (s : Core) : List PrePare :=
  s.sends.filterMap fun x =>
    match x with
    | (.ParPrePare p, none, 1) => some p
    | _ => none

theorem ever_of_mem_prepares {s : Core} {p : PrePare} (h : p ∈ s.prepares) :
    s.Ever (.send (.ParPrePare p) none PES) := by
  obtain ⟨x, hx, hp⟩ := List.mem_filterMap.mp h
  obtain ⟨n, hn⟩ := List.getElem?_of_mem hx
  split at hp
  · cases hp
    exact mem_of_sends hn
  · cases hp

theorem preparesOnce_before_the_block_returns : ∃ w, missingPayload.Runs w ∧
    (∃ p ∈ (w.core 0).prepares, p.height = 1 ∧ p.val = PES) ∧ (w.core 0).PreparesOnce := by
  obtain ⟨w, hr, hp, hc⟩ := exists_play missingPayload toPrepare
    (fun w => (∃ p ∈ (w.core 0).prepares, p.height = 1 ∧ p.val = PES) ∧
      Along Core.Orderly (w.core 0).trace) (by decide +kernel) (by decide +kernel)
  exact ⟨w, hr, hp, preparesOnce_of_orderly hr hc⟩

/-- Node `0` prepares height `1` a second time when the block of height `2` comes back. -/
theorem not_preparesOnce_after_the_block_returns :
    ¬ ∀ (S : Setup) (w : World) (k : PublicKey), S.Runs w → (w.core k).PreparesOnce := by
  intro h
  obtain ⟨w, hr, p, hp, q, hq, he, hh, hv⟩ := exists_play missingPayload (toPrepare ++ toReturn)
    (fun w => ∃ p ∈ (w.core 0).prepares, ∃ q ∈ (w.core 0).prepares, p.epoch = q.epoch ∧
      p.height = q.height ∧ p.val = OPT ∧ q.val = PES) (by decide +kernel) (by decide +kernel)
  exact h _ w 0 hr p q (ever_of_mem_prepares hp) (ever_of_mem_prepares hq) he hh hv

end Ipotane
