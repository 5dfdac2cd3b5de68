import Ipotane.EpochChange
import Ipotane.Provenance

/-! The epochs of a committee in which every node runs the program. -/
namespace Ipotane

open Lib Handler

section Epochs

variable [Crypto] {S : Setup} {w : World} {σ τ : Cores} {P : Block → Prop}

/-- Where the blocks that are signed and the blocks that are proposed are in `P`, all that come on
record are. -/
theorem Core.Records.blocks_in {cfg : Config} {s t : Core} {y : Event} (h : Core.Records cfg s t y)
    (hs : s.Shelved P) (hk : s.Kept) (hp : ∀ b, y = .sign (.block b) → P b)
    (hv : ∀ v, y = .propose v → P v.block) : ∀ b ∈ y.blocks, P b := by
  cases y with
  | propose v => exact List.forall_mem_singleton.mpr (hv v rfl)
  | _ =>
    refine h.blocks hs hk hp ?_
    intro v hv
    cases hv

/-- Some node of the committee has reached the epoch of the block. -/
def Reached (S : Setup) (σ : Cores) (b : Block) : Prop :=
  ∃ k e y, k ∈ S.committee.sortedNames ∧ (e, y) ∈ (σ k).trace ∧ b.epoch ≤ e

theorem Reached.later {b : Block} (h : Reached S σ b) (hl : Later σ τ) : Reached S τ b := by
  obtain ⟨k, e, y, hk, hx, he⟩ := h
  exact ⟨k, e, y, hk, (hl k).subset hx, he⟩

/-- What holds at a node, in view of all nodes. -/
structure Settled (S : Setup) (σ : Cores) (s : Core) : Prop where
  timely : s.Timely
  kept : s.Kept
  shelved : s.Shelved (Reached S σ)

theorem Settled.later {s : Core} (h : Settled S σ s) (hl : Later σ τ) : Settled S τ s :=
  { h with
    shelved := ⟨fun x hx b hb => (h.shelved.record x hx b hb).later hl,
      fun q hq b hb => (h.shelved.waiting q hq b hb).later hl⟩ }

/-- A node makes its own blocks for the epoch that it is in. -/
theorem Settled.step {i : PublicKey} {s t : Core} (h : Settled S σ s)
    (hi : i ∈ S.committee.sortedNames)
    (ht : σ i = t) (hs : Core.Step (S.config i) s t) : Settled S σ t := by
  have hown : ∀ {y : Event} {b : Block}, (s.epoch, y) ∈ t.trace → b.epoch = s.epoch →
    Reached S σ b := by
    intro y b hy hb
    exact ⟨i, s.epoch, y, hi, ht ▸ hy, hb.le⟩
  refine ⟨h.timely.step hs, h.kept.step hs, ?_, ?_⟩
  · rintro ⟨e, y⟩ hx
    rcases hs.recorded hx with hold | ⟨he, hr⟩
    · exact h.shelved.record _ hold
    · obtain rfl : e = s.epoch := he
      refine hr.blocks_in h.shelved h.kept ?_ ?_
      · rintro b rfl
        exact hown hx hr.block_made.2.1
      · rintro v rfl
        cases hr with
        | opt h => exact h.elim
        | pes _ h => exact h.elim
        | propose _ _ _ _ he _ => exact hown hx he
  · intro q hq b hb
    rcases hs.waiting hq with hq | ⟨m, hm, heq⟩
    · exact h.shelved.waiting q hq b hb
    · exact h.shelved.did hm (heq ▸ hb : b ∈ m.blocks)

theorem Core.Believed.mem_blocks {cfg : Config} {m : ConsensusMessage} {b : Block}
    (h : Core.Believed cfg m b) : b ∈ m.blocks := by
  cases m with
  | HsPropose _ => exact List.mem_singleton.mpr (Eq.symm h)
  | SyncReply _ => exact List.mem_singleton.mpr (Eq.symm h)
  | FBPropose _ => exact List.mem_singleton.mpr h.1.symm
  | SPBPropose _ _ => exact List.mem_singleton.mpr h.1.symm
  | _ => exact h.elim

/-- A message that comes is of no epoch that the committee has not reached. -/
theorem grounded_of_settled {i : PublicKey} {m : ConsensusMessage} {input : Input}
    (hs : ∀ k, Settled S σ (σ k)) (he : EpochInv S (fun k => k ∈ S.committee.sortedNames) σ)
    (hm : input = .core m ∨ input = .smvba m) (ha : Arrives (fun _ => False) σ i input) :
    Grounded S (fun k => k ∈ S.committee.sortedNames) σ i input := by
  have hmsg : ∀ m', input.message = some m' → m' = m := by
    intro m' hm'
    rcases hm with rfl | rfl <;> exact (Option.some.inj hm').symm
  constructor
  · intro m' b hm' hb _
    obtain rfl := hmsg m' hm'
    obtain ⟨k, e, y, hk, hx, he⟩ := ha.shelved (fun k => (hs k).shelved) hm b hb.mem_blocks
    exact ⟨k, hk, he.trans ((hs k).timely _ hx)⟩
  · intro b hm'
    obtain rfl := hmsg _ hm'
    exact ha.setAside he.anchored hm

theorem inductive_settled (S : Setup) :
    Inductive S (fun k => k ∈ S.committee.sortedNames) (fun _ _ => False) (fun _ _ _ => True)
      (fun _ => True) (fun σ => (∀ k, Settled S σ (σ k)) ∧
        EpochInv S (fun k => k ∈ S.committee.sortedNames) σ) where
  earlier := fun _ _ _ h => h
  start := ⟨fun _ => ⟨.new, .new, .new⟩, (EpochInv.inductive S _ fun _ _ => False).start⟩
  take := by
    rintro σ i m hi ⟨hs, he⟩ - ⟨input, hm, ha, -⟩
    have hl : Later σ (Function.update σ i ((σ i).log (.receive m))) :=
      later_update (List.suffix_cons _ _)
    refine ⟨fun k => ?_, he.take hi hm (grounded_of_settled hs he hm ha)⟩
    by_cases hk : k = i
    · subst hk
      rw [Function.update_self]
      have hblocks := ha.shelved (fun j => (hs j).shelved) hm
      exact Settled.later ⟨(hs k).timely.take m, (hs k).kept.take m, (hs k).shelved.take hblocks⟩ hl
    · rw [Function.update_of_ne hk]
      exact (hs k).later hl
  turn := by
    rintro σ i t hi - ⟨hs, he⟩ - ht
    have hl : Later σ (Function.update σ i t) := later_update ht.trace
    refine ⟨fun k => ?_, he.turn hi ht⟩
    by_cases hk : k = i
    · subst hk
      rw [Function.update_self]
      cases ht with
      | step ht => exact ((hs k).later hl).step hi (Function.update_self ..) ht
      | epoch _ ht =>
        have hnext : Settled S σ (σ k).renewed :=
          ⟨(hs k).timely.renewed, (hs k).kept.renewed, (hs k).shelved.renewed⟩
        rw [← ht] at hnext
        exact hnext.later hl
    · rw [Function.update_of_ne hk]
      exact (hs k).later hl

/-- No epoch is left, by no node, before a member has committed an output of its agreement. -/
theorem Setup.Runs.epochs_concluded (h : S.Runs w) {i : PublicKey} {e : ℕ}
    (he : e < (w.core i).epoch) : Justified (fun k => k ∈ S.committee.sortedNames) w.core e := by
  by_cases hi : i ∈ S.committee.sortedNames
  · have hinv := ((h.invariant (inductive_settled S)).2 trivial).2
    exact hinv.justified (fun k => ⟨_, h.reachable k⟩) (hinv.left i e hi he)
  · rw [h.core_new hi] at he
    exact absurd he (Nat.not_lt_zero e)

end Epochs

theorem epochs_concluded_toOutput : ∃ w, soloSetup.Runs w ∧ 0 < (w.core 0).epoch ∧
    Justified (fun k => k ∈ oneNode.sortedNames) w.core 0 := by
  obtain ⟨w, hr, he⟩ := exists_play soloSetup toOutput (fun w => 0 < (w.core 0).epoch)
    (by decide +kernel) (by decide +kernel)
  exact ⟨w, hr, he, hr.epochs_concluded he⟩

end Ipotane
