import Ipotane.Crypto
import Ipotane.Lib.Quorum
import Mathlib.Data.Finset.Image
import Mathlib.Data.Finset.Dedup
import Mathlib.Tactic.IntervalCases

/-! The committee and its thresholds (`consensus/src/config.rs`). -/
namespace Ipotane

/-- Addresses are left out: a node is addressed by its name. -/
structure Authority where
  name : PublicKey
  id : ℕ
  stake : ℕ
deriving DecidableEq

/-- The authorities in the iteration order of the source's map. The map has one entry for
each name, and the sum of the stakes is a positive `u32`. -/
structure Committee where
  authorities : List Authority
  nodup : (authorities.map Authority.name).Nodup
  total_pos : 0 < (authorities.map Authority.stake).sum
  total_lt : (authorities.map Authority.stake).sum < 2 ^ 32

structure Parameters where
  timeoutDelay : ℕ
  maxPayloadSize : ℕ
  ddos : Bool
  randomDdos : Bool
  fallbackLength : ℕ
  exp : ℕ
  leaderWindow : ℕ
deriving DecidableEq

namespace Committee

variable (c : Committee)

def find (name : PublicKey) : Option Authority :=
  c.authorities.find? fun a => a.name = name

def size : ℕ := c.authorities.length

def stake (name : PublicKey) : ℕ := (c.find name).elim 0 Authority.stake

/-- `Committee::id`, for a name of the committee. -/
def id (name : PublicKey) : ℕ := (c.find name).elim 0 Authority.id

def total : ℕ := (c.authorities.map Authority.stake).sum

def quorumThreshold : ℕ := 2 * ((c.total - 1) / 3) + 1

def randomCoinThreshold : ℕ := (c.total - 1) / 3 + 1

/-- The number of faults that the comment on `quorum_threshold` calls `f`. -/
def maxFaulty : ℕ := (c.total - 1) / 3

def names : Finset PublicKey := (c.authorities.map Authority.name).toFinset

def stakeOf (s : Finset PublicKey) : ℕ := s.sum c.stake

variable {c}

theorem find_of_mem {a : Authority} (h : a ∈ c.authorities) : c.find a.name = some a := by
  have hn := c.nodup
  unfold find
  generalize c.authorities = l at h hn
  induction l with
  | nil => simp at h
  | cons b l ih =>
    rw [List.map_cons, List.nodup_cons] at hn
    rcases List.mem_cons.mp h with rfl | h
    · simp
    · have hne : b.name ≠ a.name := by
        intro he
        exact hn.1 (he ▸ List.mem_map_of_mem h)
      simpa [List.find?_cons, hne] using ih h hn.2

theorem stake_of_mem {a : Authority} (h : a ∈ c.authorities) : c.stake a.name = a.stake := by
  simp [stake, find_of_mem h]

theorem mem_names_of_stake_pos {k : PublicKey} (h : 0 < c.stake k) : k ∈ c.names := by
  unfold stake at h
  cases hf : c.find k with
  | none => simp [hf] at h
  | some a =>
    have hk : a.name = k := by simpa using List.find?_some hf
    have hm : a ∈ c.authorities := List.mem_of_find?_eq_some hf
    simpa [names, hk] using List.mem_map_of_mem (f := Authority.name) hm

theorem stakeOf_names : c.stakeOf c.names = c.total := by
  have hs : (c.authorities.map fun a => c.stake a.name) = c.authorities.map Authority.stake :=
    List.map_congr_left fun a ha => stake_of_mem ha
  calc c.stakeOf c.names = ((c.authorities.map Authority.name).map c.stake).sum :=
        List.sum_toFinset _ c.nodup
    _ = c.total := by simp [Committee.total, ← hs, Function.comp_def]

theorem size_pos : 0 < c.size := by
  have htotal := c.total_pos
  unfold size
  cases h : c.authorities with
  | nil => simp [h] at htotal
  | cons a l => exact Nat.succ_pos _

theorem stakeOf_mono {A B : Finset PublicKey} (h : A ⊆ B) : c.stakeOf A ≤ c.stakeOf B :=
  Finset.sum_le_sum_of_subset h

theorem maxFaulty_lt_quorumThreshold : c.maxFaulty < c.quorumThreshold := by
  unfold maxFaulty quorumThreshold
  omega

/-- The threshold reaches two thirds only for the sizes `3f + 1`. -/
theorem total_lt_two_quorums (h : c.total % 3 = 1) :
    c.total + c.maxFaulty < c.quorumThreshold + c.quorumThreshold := by
  unfold maxFaulty quorumThreshold
  omega

/-- Two quorums of a committee of `3f + 1` overlap in more than `f` of the stake. -/
theorem quorum_overlap (h : c.total % 3 = 1) {A B : Finset PublicKey}
    (hA : A ⊆ c.names) (hB : B ⊆ c.names) (hqA : c.quorumThreshold ≤ c.stakeOf A)
    (hqB : c.quorumThreshold ≤ c.stakeOf B) : c.maxFaulty < c.stakeOf (A ∩ B) := by
  have hi : c.stakeOf A + c.stakeOf B ≤ c.stakeOf c.names + c.stakeOf (A ∩ B) :=
    Lib.weight_add_le hA hB
  have ht := total_lt_two_quorums h
  rw [stakeOf_names] at hi
  omega

/-- What the comment on `quorum_threshold` derives, and what every certificate rests on. -/
def QuorumsIntersect (c : Committee) : Prop :=
  (∀ A B : Finset PublicKey, A ⊆ c.names → B ⊆ c.names →
    c.quorumThreshold ≤ c.stakeOf A → c.quorumThreshold ≤ c.stakeOf B →
    c.maxFaulty < c.stakeOf (A ∩ B)) ∧
  c.quorumThreshold = c.total - c.maxFaulty

theorem quorumsIntersect_iff (c : Committee) : c.QuorumsIntersect ↔ c.total % 3 = 1 := by
  constructor
  · rintro ⟨_, he⟩
    have hp : 0 < c.total := c.total_pos
    unfold quorumThreshold maxFaulty at he
    omega
  · intro h
    refine ⟨fun A B hA hB => quorum_overlap h hA hB, ?_⟩
    unfold quorumThreshold maxFaulty
    omega

/-- Six nodes of stake one: `N = 3f + 3` with `f = 1`. -/
def sixNodes : Committee where
  authorities := [⟨0, 0, 1⟩, ⟨1, 1, 1⟩, ⟨2, 2, 1⟩, ⟨3, 3, 1⟩, ⟨4, 4, 1⟩, ⟨5, 5, 1⟩]
  nodup := by decide
  total_pos := by decide
  total_lt := by decide

theorem sixNodes_not_quorumsIntersect : ¬ sixNodes.QuorumsIntersect := by
  rintro ⟨h, _⟩
  have := h {0, 1, 2} {3, 4, 5} (by decide) (by decide) (by decide) (by decide)
  revert this
  decide

end Committee

end Ipotane
