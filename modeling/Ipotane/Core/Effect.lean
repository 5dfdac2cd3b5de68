import Ipotane.Core.Record

/-! What a step does to the height, to the prepares and to the flags of a node. -/
namespace Ipotane.Core

open Lib Handler

variable [Crypto] {cfg : Config} {s t : Core} {b : Block} {qc : QC}

/-! ### Heights -/

theorem settle_height {b1 b0 : Block} {marks : List (ℕ × Event)} :
    (s.settle b b1 b0 marks).height = s.height := by
  unfold settle
  split <;> rfl

theorem OptStep.height_le (h : OptStep cfg s t) : s.height ≤ t.height := by
  cases h with
  | quiet h => exact h.height.ge
  | proposal _ _ =>
    rw [adopt_height, cleanFor_height]
    exact Nat.le_max_left _ _
  | overflow _ _ => exact cleanFor_height.ge
  | adopt _ _ _ _ _ =>
    rw [adopt_height]
    exact Nat.le_max_left _ _
  | countVote _ _ _ _ _ => exact (collect_height _ _).ge
  | settle _ _ _ _ _ _ => exact settle_height.ge
  | _ => exact le_rfl

theorem PesStep.height_eq (h : PesStep cfg s t) : t.height = s.height := by
  cases h with
  | countFallback _ => exact collect_height _ _
  | countSpb _ => exact collect_height _ _
  | countPre _ _ => exact collect_height _ _
  | _ => rfl

/-- Within an epoch a node does not go back. -/
theorem Step.height_le (h : Step cfg s t) : s.height ≤ t.height := by
  cases h with
  | opt h => exact h.height_le
  | pes _ h => exact h.height_eq.ge

/-! ### Tables that a termination empties -/

/-- A step has ended the heights up to `k`, and the log tells the height it ends at. -/
def Cleans (s t : Core) (k : ℕ) : Prop := ∃ site, (s.epoch, .terminate k t.height site) ∈ t.trace

theorem adopt_prepareTag (s : Core) (qc : QC) : (s.adopt qc).prepareTag = s.prepareTag := by
  unfold adopt updateHighQc
  split <;> split <;> rfl

theorem collect_prepareTag {α : Type} (add : Aggregator → Appended α Aggregator)
    (mark : α → Event) : (collect add mark s).2.prepareTag = s.prepareTag := by
  unfold collect
  split <;> rfl

theorem settle_prepareTag {b1 b0 : Block} {marks : List (ℕ × Event)} :
    (s.settle b b1 b0 marks).prepareTag = s.prepareTag := by
  unfold settle
  split <;> rfl

theorem cleanFor_cases (s : Core) (cfg : Config) (b : Block) :
    s.cleanFor cfg b = s ∨
      s.cleanFor cfg b = s.cleanSmvbaState (b.height - 2) (s.heightAfter b.qc) (.proposal b) := by
  unfold cleanFor
  split
  · exact .inr rfl
  · exact .inl rfl

/-- What the two steps that may follow a termination have in common. -/
theorem cleans_of_cleanFor
    (hc : s.cleanFor cfg b = s.cleanSmvbaState (b.height - 2) (s.heightAfter b.qc) (.proposal b))
    (he : Extends (s.cleanFor cfg b) t) (hh : t.height = s.heightAfter b.qc) :
    Cleans s t (b.height - 2) := by
  refine ⟨.proposal b, he.trace.subset ?_⟩
  rw [hc, hh]
  exact List.mem_cons_self

theorem proposal_cleans (hb : b.qc.height < s.height ∨ b.qc.height + 1 < 2 ^ 64)
    (hc : s.cleanFor cfg b = s.cleanSmvbaState (b.height - 2) (s.heightAfter b.qc) (.proposal b)) :
    Cleans s ((s.cleanFor cfg b).adopt b.qc) (b.height - 2) := by
  refine cleans_of_cleanFor hc (extends_adopt _) ?_
  rw [adopt_heightAfter (by rwa [cleanFor_height]), cleanFor_heightAfter]

theorem overflow_cleans (hb : 2 ^ 64 ≤ b.qc.height + 1)
    (hc : s.cleanFor cfg b = s.cleanSmvbaState (b.height - 2) (s.heightAfter b.qc) (.proposal b)) :
    Cleans s (s.cleanFor cfg b) (b.height - 2) := by
  refine cleans_of_cleanFor hc (Extends.refl _) ?_
  rw [cleanFor_height, heightAfter, if_neg (by omega)]

/-- A prepare stays on record until its height is terminated. -/
theorem OptStep.prepareTag (h : OptStep cfg s t) {height : ℕ}
    (hc : s.prepareTag.contains height = true) :
    t.prepareTag.contains height = true ∨ ∃ k, height ≤ k ∧ Cleans s t k := by
  have hclean : ∀ {k r : ℕ} {site : Termination}, ¬ height ≤ k →
      (s.cleanSmvbaState k r site).prepareTag.contains height = true := fun hk =>
    Map.contains_retain (by simpa using hk) hc
  cases h with
  | quiet h => exact .inl (h.prepareTag ▸ hc)
  | @proposal b _ hb =>
    rw [adopt_prepareTag]
    rcases cleanFor_cases s cfg b with heq | heq
    · rw [heq]
      exact .inl hc
    · by_cases hk : height ≤ b.height - 2
      · exact .inr ⟨_, hk, proposal_cleans hb heq⟩
      · rw [heq]
        exact .inl (hclean hk)
  | @overflow b _ hb =>
    rcases cleanFor_cases s cfg b with heq | heq
    · rw [heq]
      exact .inl hc
    · by_cases hk : height ≤ b.height - 2
      · exact .inr ⟨_, hk, overflow_cleans hb heq⟩
      · refine .inl ?_
        rw [heq]
        exact hclean hk
  | adopt _ _ _ _ _ => exact .inl (adopt_prepareTag s _ ▸ hc)
  | countVote _ _ _ _ _ => exact .inl (collect_prepareTag (s := s) _ _ ▸ hc)
  | settle _ _ _ _ _ _ =>
    rw [settle_prepareTag]
    exact .inl hc
  | _ => exact .inl hc

theorem PesStep.prepareTag (h : PesStep cfg s t) {height : ℕ}
    (hc : s.prepareTag.contains height = true) :
    t.prepareTag.contains height = true ∨ ∃ k, height ≤ k ∧ Cleans s t k := by
  cases h with
  | @terminate k _ _ =>
    by_cases hk : height ≤ k
    · exact .inr ⟨k, hk, _, List.mem_cons_self⟩
    · exact .inl (Map.contains_retain (by simpa using hk) hc)
  | prepare _ _ =>
    refine .inl ?_
    unfold signPrepare Map.contains
    rw [Map.get_insert]
    split
    · rfl
    · exact hc
  | countFallback _ => exact .inl (collect_prepareTag (s := s) _ _ ▸ hc)
  | countSpb _ => exact .inl (collect_prepareTag (s := s) _ _ ▸ hc)
  | countPre _ _ => exact .inl (collect_prepareTag (s := s) _ _ ▸ hc)
  | _ => exact .inl hc

theorem Step.prepareTag (h : Step cfg s t) {height : ℕ} (hc : s.prepareTag.contains height = true) :
    t.prepareTag.contains height = true ∨ ∃ k, height ≤ k ∧ Cleans s t k := by
  cases h with
  | opt h => exact h.prepareTag hc
  | pes _ h => exact h.prepareTag hc

/-! ### The flags of a vote -/

/-- The node has voted in a round of the agreement, as its flags tell. -/
def flagged (s : Core) (key : ℕ × ℕ) : Bool :=
  s.smvbaYFlag.getD key false || s.smvbaNFlag.getD key false

/-- The step has reset the round, after all that was on record before. -/
def Resets (s t : Core) (key : ℕ × ℕ) : Prop :=
  ∃ past, (s.epoch, .reset key.1 key.2) :: past <:+ t.trace ∧ s.trace <:+ past

theorem flagged_updateSmvbaState {key : ℕ × ℕ} {height round : ℕ} (hne : key ≠ (height, round)) :
    (s.updateSmvbaState height round).flagged key = s.flagged key := by
  simp only [flagged, updateSmvbaState, Map.getD_insert, if_neg hne]

theorem flagged_clean {key : ℕ × ℕ} {k reached : ℕ} {site : Termination} (hk : ¬ key.1 ≤ k) :
    (s.cleanSmvbaState k reached site).flagged key = s.flagged key := by
  have hgt : decide (key.1 > k) = true := by simpa using hk
  simp only [flagged, cleanSmvbaState, Map.getD_retain, hgt, if_true]

theorem flagged_adopt (s : Core) (qc : QC) (key : ℕ × ℕ) :
    (s.adopt qc).flagged key = s.flagged key ∨
      (key = (qc.height + 1, 1) ∧ (s.adopt qc).trace = (s.epoch, .reset (qc.height + 1) 1) ::
        s.trace) := by
  unfold adopt updateHighQc
  split
  · split <;> exact .inl rfl
  · by_cases hk : key = (qc.height + 1, 1)
    · refine .inr ⟨hk, ?_⟩
      split <;> rfl
    · refine .inl ?_
      have hflag : (s.enterHeight (qc.height + 1)).flagged key = s.flagged key :=
        (flagged_updateSmvbaState hk).trans rfl
      split <;> exact hflag

theorem flagged_settle {key : ℕ × ℕ} {b1 b0 : Block} {marks : List (ℕ × Event)} :
    (s.settle b b1 b0 marks).flagged key = s.flagged key := by
  unfold settle
  split <;> rfl

theorem flagged_collect {α : Type} (add : Aggregator → Appended α Aggregator) (mark : α → Event)
    (key : ℕ × ℕ) : (collect add mark s).2.flagged key = s.flagged key := by
  unfold collect
  split <;> rfl

theorem OptStep.flagged (h : OptStep cfg s t) {key : ℕ × ℕ} (hf : s.flagged key = true) :
    t.flagged key = true ∨ Resets s t key ∨ ∃ k, key.1 ≤ k ∧ Cleans s t k := by
  cases h with
  | quiet h =>
    refine .inl ?_
    unfold Core.flagged at *
    rwa [h.smvbaYFlag, h.smvbaNFlag]
  | @proposal b _ hb =>
    rcases flagged_adopt (s.cleanFor cfg b) b.qc key with hkeep | ⟨rfl, htr⟩
    · rw [hkeep]
      rcases cleanFor_cases s cfg b with heq | heq
      · rw [heq]
        exact .inl hf
      · by_cases hk : key.1 ≤ b.height - 2
        · exact .inr (.inr ⟨_, hk, proposal_cleans hb heq⟩)
        · rw [heq, flagged_clean hk]
          exact .inl hf
    · refine .inr (.inl ⟨(s.cleanFor cfg b).trace, ?_, (extends_cleanFor b).trace⟩)
      rw [htr, (extends_cleanFor b).epoch]
  | @overflow b _ hb =>
    rcases cleanFor_cases s cfg b with heq | heq
    · rw [heq]
      exact .inl hf
    · by_cases hk : key.1 ≤ b.height - 2
      · exact .inr (.inr ⟨_, hk, overflow_cleans hb heq⟩)
      · refine .inl ?_
        rw [heq, flagged_clean hk]
        exact hf
  | @adopt qc _ _ _ _ _ _ =>
    rcases flagged_adopt s qc key with hkeep | ⟨rfl, htr⟩
    · exact .inl (hkeep.trans hf)
    · exact .inr (.inl ⟨s.trace, by rw [htr], List.suffix_rfl⟩)
  | countVote _ _ _ _ _ => exact .inl ((flagged_collect _ _ _).trans hf)
  | settle _ _ _ _ _ _ => exact .inl (flagged_settle.trans hf)
  | _ => exact .inl hf

theorem PesStep.flagged (h : PesStep cfg s t) {key : ℕ × ℕ} (hf : s.flagged key = true) :
    t.flagged key = true ∨ Resets s t key ∨ ∃ k, key.1 ≤ k ∧ Cleans s t k := by
  cases h with
  | @terminate k _ _ =>
    by_cases hk : key.1 ≤ k
    · exact .inr (.inr ⟨k, hk, _, List.mem_cons_self⟩)
    · exact .inl ((flagged_clean hk).trans hf)
  | @enterRound m _ _ =>
    by_cases hk : key = (m.height, m.round + 1)
    · subst hk
      exact .inr (.inl ⟨_, List.suffix_rfl, List.suffix_cons _ _⟩)
    · exact .inl ((flagged_updateSmvbaState hk).trans hf)
  | @yes m _ _ _ _ _ =>
    refine .inl ?_
    simp only [Core.flagged, raiseYes, Map.getD_insert] at hf ⊢
    split
    · rfl
    · exact hf
  | @voteYes m _ _ _ _ _ =>
    refine .inl ?_
    simp only [Core.flagged, raiseYes, Map.getD_insert] at hf ⊢
    split
    · rfl
    · exact hf
  | @voteNo m _ _ _ =>
    refine .inl ?_
    simp only [Core.flagged, raiseNo, Map.getD_insert] at hf ⊢
    split
    · simp
    · exact hf
  | countFallback _ => exact .inl ((flagged_collect _ _ _).trans hf)
  | countSpb _ => exact .inl ((flagged_collect _ _ _).trans hf)
  | countPre _ _ => exact .inl ((flagged_collect _ _ _).trans hf)
  | _ => exact .inl hf

/-- The flags of a round stay up until the round is reset or its height is terminated. -/
theorem Step.flagged (h : Step cfg s t) {key : ℕ × ℕ} (hf : s.flagged key = true) :
    t.flagged key = true ∨ Resets s t key ∨ ∃ k, key.1 ≤ k ∧ Cleans s t k := by
  cases h with
  | opt h => exact h.flagged hf
  | pes _ h => exact h.flagged hf

end Ipotane.Core
