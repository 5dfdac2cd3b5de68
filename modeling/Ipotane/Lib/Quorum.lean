import Mathlib.Algebra.BigOperators.Group.Finset.Basic
import Mathlib.Algebra.Order.BigOperators.Group.Finset

/-! Weighted quorums over a finite electorate: inclusion-exclusion for two quorums. -/
namespace Lib

variable {α : Type} [DecidableEq α] {U A B : Finset α} {w : α → ℕ} {q : ℕ}

theorem weight_add_le (hA : A ⊆ U) (hB : B ⊆ U) :
    A.sum w + B.sum w ≤ U.sum w + (A ∩ B).sum w := by
  have hu : (A ∪ B).sum w ≤ U.sum w :=
    Finset.sum_le_sum_of_subset (Finset.union_subset hA hB)
  have hi : (A ∪ B).sum w + (A ∩ B).sum w = A.sum w + B.sum w := Finset.sum_union_inter
  omega

/-- Two sets that together outweigh the electorate have a common member. -/
theorem exists_common (hA : A ⊆ U) (hB : B ⊆ U) (h : U.sum w < A.sum w + B.sum w) :
    ∃ x, x ∈ A ∧ x ∈ B := by
  have hpos : 0 < (A ∩ B).sum w := by
    have := weight_add_le (w := w) hA hB
    omega
  obtain ⟨x, hx, _⟩ := Finset.exists_ne_zero_of_sum_ne_zero (Nat.pos_iff_ne_zero.mp hpos)
  exact ⟨x, Finset.mem_inter.mp hx⟩

end Lib
