import Mathlib.Data.List.Infix

/-! Histories, newest entry first. -/
namespace Lib

variable {α : Type} {P : α → List α → Prop} {l l' : List α} {x : α}

/-- Every entry is in `P` with its past. -/
def Along (P : α → List α → Prop) : List α → Prop
  | [] => True
  | x :: past => P x past ∧ Along P past

instance Along.decidable [∀ x past, Decidable (P x past)] : ∀ l, Decidable (Along P l)
  | [] => isTrue trivial
  | x :: past =>
    have := Along.decidable past
    inferInstanceAs (Decidable (P x past ∧ Along P past))

theorem Along.suffix (h : l <:+ l') (hl : Along P l') : Along P l := by
  induction l' with
  | nil =>
    rw [List.suffix_nil.mp h]
    trivial
  | cons y past ih =>
    rcases List.suffix_cons_iff.mp h with rfl | h
    · exact hl
    · exact ih h hl.2

/-- Entries that are in `P` with any past that ends in the old entries may be added. -/
theorem Along.append {new : List α} (h : Along P l)
    (hnew : ∀ x ∈ new, ∀ past, l <:+ past → P x past) : Along P (new ++ l) := by
  induction new with
  | nil => exact h
  | cons x new ih =>
    refine ⟨hnew x List.mem_cons_self _ (List.suffix_append _ _), ih ?_⟩
    intro y hy
    exact hnew y (List.mem_cons_of_mem _ hy)

theorem Along.of_mem (h : Along P l) (hx : x ∈ l) : ∃ past, x :: past <:+ l ∧ P x past := by
  induction l with
  | nil => cases hx
  | cons y past ih =>
    rcases List.mem_cons.mp hx with rfl | hx
    · exact ⟨past, List.suffix_rfl, h.1⟩
    · obtain ⟨past', hs, hp⟩ := ih h.2 hx
      exact ⟨past', hs.trans (List.suffix_cons _ _), hp⟩

/-- A new entry comes after everything that was there. -/
theorem suffix_past {past : List α} (h : x :: past <:+ l') (hl : l <:+ l') (hx : x ∉ l) :
    l <:+ past := by
  rcases List.suffix_or_suffix_of_suffix h hl with h | h
  · exact absurd (h.subset List.mem_cons_self) hx
  · rcases List.suffix_cons_iff.mp h with rfl | h
    · exact absurd List.mem_cons_self hx
    · exact h

/-- Lists that agree wherever both have an entry. -/
theorem prefix_or_prefix (h : ∀ n (hn : n < l.length) (hn' : n < l'.length), l[n] = l'[n]) :
    l <+: l' ∨ l' <+: l := by
  rcases Nat.le_total l.length l'.length with hle | hle
  · refine .inl (List.prefix_iff_eq_take.mpr (List.ext_getElem (by simp [hle]) ?_))
    intro n hn _
    rw [List.getElem_take]
    exact h n hn (by omega)
  · refine .inr (List.prefix_iff_eq_take.mpr (List.ext_getElem (by simp [hle]) ?_))
    intro n hn _
    rw [List.getElem_take]
    exact (h n (by omega) hn).symm

end Lib
