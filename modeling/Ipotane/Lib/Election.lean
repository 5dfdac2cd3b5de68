import Ipotane.Lib.Quorum
import Mathlib.Logic.Relation

/-! Elections in which a part of the electorate is faulty: at each position an honest voter votes
for one candidate at most. -/
namespace Lib

variable {α ι δ : Type} [DecidableEq α] {U : Finset α} {w : α → ℕ} {q f : ℕ} {honest : α → Prop}
  {voted : α → ι → δ → Prop} {i : ι} {d d' : δ}

/-- The honest members of a quorum have voted for `d` at position `i`. -/
def Elected (U : Finset α) (w : α → ℕ) (q : ℕ) (honest : α → Prop)
    (voted : α → ι → δ → Prop) (i : ι) (d : δ) : Prop :=
  ∃ A ⊆ U, q ≤ A.sum w ∧ ∀ k ∈ A, honest k → voted k i d

/-- The faulty part of the electorate weighs `f` at most. -/
def FaultyWeigh (U : Finset α) (w : α → ℕ) (f : ℕ) (honest : α → Prop) : Prop :=
  ∀ A ⊆ U, (∀ k ∈ A, ¬ honest k) → A.sum w ≤ f

/-- No honest voter votes for two candidates at one position. -/
def VotesForOne (honest : α → Prop) (voted : α → ι → δ → Prop) : Prop :=
  ∀ k i d d', honest k → voted k i d → voted k i d' → d = d'

omit [DecidableEq α] in
theorem FaultyWeigh.exists_honest {A : Finset α} (hf : FaultyWeigh U w f honest) (hA : A ⊆ U)
    (h : f < A.sum w) : ∃ k ∈ A, honest k := by
  by_contra hn
  have hle : A.sum w ≤ f := by
    refine hf A hA ?_
    intro k hk hh
    exact hn ⟨k, hk, hh⟩
  omega

/-- There is an honest voter in both of two quorums. -/
theorem Elected.common {j : ι} (hf : FaultyWeigh U w f honest) (hq : U.sum w + f < q + q)
    (h : Elected U w q honest voted i d) (h' : Elected U w q honest voted j d') :
    ∃ k, honest k ∧ voted k i d ∧ voted k j d' := by
  obtain ⟨A, hA, hqA, hall⟩ := h
  obtain ⟨B, hB, hqB, hall'⟩ := h'
  have hsum := weight_add_le (w := w) hA hB
  have hlt : f < (A ∩ B).sum w := by omega
  obtain ⟨k, hk, hh⟩ := hf.exists_honest (Finset.inter_subset_left.trans hA) hlt
  exact ⟨k, hh, hall k (Finset.mem_inter.mp hk).1 hh, hall' k (Finset.mem_inter.mp hk).2 hh⟩

/-- One candidate is elected at most. -/
theorem Elected.unique (hf : FaultyWeigh U w f honest) (hq : U.sum w + f < q + q)
    (hv : VotesForOne honest voted) (h : Elected U w q honest voted i d)
    (h' : Elected U w q honest voted i d') : d = d' := by
  obtain ⟨k, hk, hd, hd'⟩ := h.common hf hq h'
  exact hv k i d d' hk hd hd'

/-- Where everything elected stands on something elected one height below, everything elected has a
chain below it. -/
theorem chain_below {P : ℕ → δ → Prop} {link : δ → δ → Prop} {h : ℕ}
    (hdown : ∀ h d, 0 < h → P (h + 1) d → ∃ d', P h d' ∧ link d' d) (hpos : 0 < h) (n : ℕ) :
    ∀ d, P (h + n) d → ∃ d', P h d' ∧ Relation.ReflTransGen link d' d := by
  induction n with
  | zero => exact fun d hd => ⟨d, hd, .refl⟩
  | succ n ih =>
    intro d hd
    obtain ⟨c, hc, hcd⟩ := hdown (h + n) d (by omega) hd
    obtain ⟨d', hd', hchain⟩ := ih c hc
    exact ⟨d', hd', hchain.tail hcd⟩

end Lib
