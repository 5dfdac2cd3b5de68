import Ipotane.Leader

/-! The leader schedule: the list of the leaders of a height and the index of one of them agree. -/
namespace Ipotane

open Lib

namespace Committee

variable {c : Committee} {window height i j : ℕ} {name : PublicKey}

theorem sortedNames_nodup : c.sortedNames.Nodup :=
  (List.perm_insertionSort _ _).nodup_iff.mpr c.nodup

theorem mem_sortedNames_iff : name ∈ c.sortedNames ↔ name ∈ c.names := by
  rw [sortedNames, List.mem_insertionSort, names, List.mem_toFinset]

/-- The names are sorted, so they come in one order. -/
theorem sortedNames_of_perm {c' : Committee} (h : c'.authorities.Perm c.authorities) :
    c'.sortedNames = c.sortedNames := by
  refine List.Perm.eq_of_sortedLE (List.sortedLE_insertionSort) (List.sortedLE_insertionSort) ?_
  exact ((List.perm_insertionSort _ _).trans (h.map _)).trans (List.perm_insertionSort _ _).symm

/-- `name_to_idx`: the sorted names with their positions, collected into a map. -/
def nameToIdx (c : Committee) : Map PublicKey ℕ :=
  c.sortedNames.zipIdx.foldl (fun m x => m.insert x.1 x.2) .empty

/-- The map has the positions that the model of `index_as_leader` looks up in the list. -/
theorem get_nameToIdx : c.nameToIdx.get name =
    if name ∈ c.sortedNames then some (c.sortedNames.idxOf name) else none := by
  unfold nameToIdx
  have hn : c.sortedNames.Nodup := sortedNames_nodup
  generalize c.sortedNames = l at hn
  induction l using List.reverseRecOn with
  | nil => rfl
  | append_singleton l a ih =>
    obtain ⟨hl, -, hne⟩ := List.nodup_append.mp hn
    rw [List.zipIdx_append, List.foldl_append]
    change (Map.insert _ a (0 + l.length)).get name = _
    rw [Map.get_insert, ih hl, Nat.zero_add]
    by_cases ha : name = a
    · have hnot : a ∉ l := fun hmem => hne a hmem a (List.mem_singleton_self a) rfl
      rw [if_pos ha, ha, if_pos (List.mem_append_right _ (List.mem_singleton_self a)),
        List.idxOf_append, if_neg hnot]
      simp
    · rw [if_neg ha]
      by_cases hmem : name ∈ l
      · rw [if_pos hmem, if_pos (List.mem_append_left _ hmem), List.idxOf_append, if_pos hmem]
      · rw [if_neg hmem, if_neg (by simp [hmem, ha])]

theorem mod_size_lt (n : ℕ) : n % c.size < c.sortedNames.length := by
  rw [sortedNames_length]
  exact Nat.mod_lt _ size_pos

/-- The authorities take turns: the `i`-th leader of a height. -/
def leaderAt (c : Committee) (height i : ℕ) : PublicKey :=
  c.sortedNames.get ⟨(height + i) % c.size, mod_size_lt _⟩

/-- How far the authority stands behind the first leader of the height. -/
def offset (c : Committee) (name : PublicKey) (height : ℕ) : ℕ :=
  (c.sortedNames.idxOf name + c.size - height % c.size) % c.size

theorem getElem_turn : c.sortedNames[(height + i) % c.size]? = some (c.leaderAt height i) :=
  List.getElem?_eq_getElem (mod_size_lt _)

theorem getLeaders_eq : c.getLeaders window height = (List.range window).map
    (c.leaderAt height) := by
  unfold getLeaders getLeaderIdx
  dsimp only
  rw [sortedNames_length, List.range'_eq_map_range, List.filterMap_map]
  have hturn : ∀ i, c.sortedNames[(height % c.size + i + c.size) % c.size]? =
    some (c.leaderAt height i) := by
    intro i
    rw [Nat.add_mod_right, Nat.mod_add_mod, getElem_turn]
  simp only [Function.comp_def, hturn, List.filterMap_eq_map']

theorem leaderAt_inj {height' : ℕ} : c.leaderAt height i = c.leaderAt height' j ↔
    (height + i) % c.size = (height' + j) % c.size := by
  unfold leaderAt
  rw [sortedNames_nodup.get_inj_iff, Fin.mk.injEq]

theorem mod_add_eq_iff {n p : ℕ} (hp : p < n) :
    (height + i) % n = p ↔ i % n = (p + n - height % n) % n := by
  have hlt : height % n < n := Nat.mod_lt _ (by omega)
  have hi : i % n < n := Nat.mod_lt _ (by omega)
  rw [Nat.add_mod]
  generalize height % n = a at hlt ⊢
  generalize i % n = b at hi ⊢
  by_cases hle : a ≤ p
  · rw [show p + n - a = p - a + n
      by omega, Nat.add_mod_right, Nat.mod_eq_of_lt (show p - a < n by omega)]
    by_cases hab : a + b < n
    · rw [Nat.mod_eq_of_lt hab]
      omega
    · rw [Nat.mod_eq_sub_mod (by omega), Nat.mod_eq_of_lt (show a + b - n < n by omega)]
      omega
  · rw [Nat.mod_eq_of_lt (show p + n - a < n by omega)]
    by_cases hab : a + b < n
    · rw [Nat.mod_eq_of_lt hab]
      omega
    · rw [Nat.mod_eq_sub_mod (by omega), Nat.mod_eq_of_lt (show a + b - n < n by omega)]
      omega

theorem offset_lt : c.offset name height < c.size := Nat.mod_lt _ size_pos

/-- The leaders at which an authority stands are those at its offset. -/
theorem leaderAt_eq_iff (h : name ∈ c.names) :
    c.leaderAt height i = name ↔ i % c.size = c.offset name height := by
  have hmem : name ∈ c.sortedNames := mem_sortedNames_iff.mpr h
  have hlt : c.sortedNames.idxOf name < c.size :=
    sortedNames_length ▸ List.idxOf_lt_length_of_mem hmem
  rw [offset, ← mod_add_eq_iff hlt]
  constructor
  · rintro rfl
    exact (List.Nodup.idxOf_getElem sortedNames_nodup _ _).symm
  · intro he
    unfold leaderAt
    simp only [he, List.get_eq_getElem, List.getElem_idxOf]

theorem leaderAt_mem : c.leaderAt height i ∈ c.names :=
  mem_sortedNames_iff.mp (List.get_mem _ _)

theorem getElem_getLeaders : (c.getLeaders window height)[i]? =
    if i < window then some (c.leaderAt height i) else none := by
  rw [getLeaders_eq, List.getElem?_map]
  split
  · rw [List.getElem?_range (by assumption)]
    rfl
  · rw [List.getElem?_eq_none (by simpa using Nat.le_of_not_lt (by assumption))]
    rfl

theorem mem_getLeaders (h : name ∈ c.names) :
    name ∈ c.getLeaders window height ↔ c.offset name height < window := by
  rw [getLeaders_eq, List.mem_map]
  constructor
  · rintro ⟨i, hi, he⟩
    have hle : i % c.size ≤ i := Nat.mod_le _ _
    rw [(leaderAt_eq_iff h).mp he] at hle
    exact Nat.lt_of_le_of_lt hle (List.mem_range.mp hi)
  · intro hlt
    exact ⟨_, List.mem_range.mpr hlt, (leaderAt_eq_iff h).mpr (Nat.mod_eq_of_lt offset_lt)⟩

/-- The arithmetic on positions gives the offset. -/
theorem indexAsLeader_eq : c.indexAsLeader window name height =
    if c.offset name height < window then some (c.offset name height) else none := by
  unfold indexAsLeader getLeaderIdx offset
  rw [sortedNames_length]

/-- `i` is the least position of the name in the list. -/
def LeastAt (l : List PublicKey) (name : PublicKey) (i : ℕ) : Prop :=
  l[i]? = some name ∧ ∀ j < i, l[j]? ≠ some name

theorem getElem_getLeaders_iff (h : name ∈ c.names) :
    (c.getLeaders window height)[i]? = some name ↔ i < window ∧
    i % c.size = c.offset name height := by
  rw [getElem_getLeaders, Option.ite_none_right_eq_some, Option.some.injEq, leaderAt_eq_iff h]

theorem indexAsLeader_eq_some_iff (h : name ∈ c.names) :
    c.indexAsLeader window name height = some i ↔ LeastAt (c.getLeaders window height) name i := by
  unfold LeastAt
  rw [indexAsLeader_eq, Option.ite_none_right_eq_some, Option.some.injEq, getElem_getLeaders_iff h]
  have hmod : c.offset name height % c.size = c.offset name height := Nat.mod_eq_of_lt offset_lt
  constructor
  · rintro ⟨hlt, rfl⟩
    refine ⟨⟨hlt, hmod⟩, fun j hj => ?_⟩
    rw [Ne, getElem_getLeaders_iff h]
    rintro ⟨-, he⟩
    have hle : j % c.size ≤ j := Nat.mod_le _ _
    omega
  · rintro ⟨⟨hlt, he⟩, hleast⟩
    have hle : i % c.size ≤ i := Nat.mod_le _ _
    have hi : i = c.offset name height := by
      by_contra hne
      have hj : c.offset name height < i := by omega
      exact hleast _ hj ((getElem_getLeaders_iff h).mpr ⟨by omega, hmod⟩)
    exact ⟨hi ▸ hlt, hi.symm⟩

theorem indexAsLeader_eq_none_iff (h : name ∈ c.names) :
    c.indexAsLeader window name height = none ↔ name ∉ c.getLeaders window height := by
  rw [indexAsLeader_eq, mem_getLeaders h]
  simp

theorem card_getLeaders : (c.getLeaders window height).toFinset.card = min window c.size := by
  have hset : (c.getLeaders window height).toFinset =
      (Finset.range (min window c.size)).image (c.leaderAt height) := by
    ext k
    simp only [getLeaders_eq, List.mem_toFinset, List.mem_map, List.mem_range, Finset.mem_image,
      Finset.mem_range]
    constructor
    · rintro ⟨i, hi, rfl⟩
      refine ⟨i % c.size, lt_min ?_ (Nat.mod_lt _ size_pos), leaderAt_inj.mpr ?_⟩
      · exact Nat.lt_of_le_of_lt (Nat.mod_le _ _) hi
      · rw [Nat.add_mod_mod]
    · rintro ⟨i, hi, rfl⟩
      exact ⟨i, (lt_min_iff.mp hi).1, rfl⟩
  rw [hset, Finset.card_image_of_injOn, Finset.card_range]
  intro i hi j hj he
  have hi : i < c.size := (lt_min_iff.mp (Finset.mem_range.mp hi)).2
  have hj : j < c.size := (lt_min_iff.mp (Finset.mem_range.mp hj)).2
  have hmod : i % c.size = j % c.size :=
    ((leaderAt_eq_iff leaderAt_mem).mp he).trans ((leaderAt_eq_iff leaderAt_mem).mp rfl).symm
  rwa [Nat.mod_eq_of_lt hi, Nat.mod_eq_of_lt hj] at hmod

theorem getLeaders_add_size :
    c.getLeaders window (height + c.size) = c.getLeaders window height := by
  rw [getLeaders_eq, getLeaders_eq]
  refine List.map_congr_left fun i _ => leaderAt_inj.mpr ?_
  rw [Nat.add_right_comm, Nat.add_mod_right]

/-- Each authority is the `i`-th leader of one height in a row of as many heights as authorities. -/
theorem existsUnique_height (h : name ∈ c.names) (hi : i < window) :
    ∃! t, height ≤ t ∧ t < height + c.size ∧ (c.getLeaders window t)[i]? = some name := by
  have hturn : ∀ k, (c.getLeaders window (height + k))[i]? = some name ↔
      k % c.size = c.offset name (height + i) := by
    intro k
    rw [getElem_getLeaders, if_pos hi, Option.some.injEq, ← leaderAt_eq_iff h]
    rw [leaderAt_inj.mpr
      (by rw [Nat.add_right_comm] : (height + k + i) % c.size = (height + i + k) % c.size)]
  refine ⟨height + c.offset name (height + i), ⟨Nat.le_add_right _ _, ?_, ?_⟩, ?_⟩
  · exact Nat.add_lt_add_left offset_lt _
  · exact (hturn _).mpr (Nat.mod_eq_of_lt offset_lt)
  · rintro t ⟨hle, hlt, ht⟩
    obtain ⟨k, rfl⟩ := Nat.exists_eq_add_of_le hle
    have hk := (hturn k).mp ht
    rw [Nat.mod_eq_of_lt (by omega)] at hk
    rw [hk]

/-- The list of the leaders and the index agree, a window has as many leaders as fit, the order in
which the authorities are listed does not matter, and in a row of as many heights as there are
authorities each of them leads once at each place. -/
theorem schedule_consistent (c : Committee) (window : ℕ) :
    (∀ (height : ℕ), ∀ name ∈ c.names,
      (∀ i, c.indexAsLeader window name height = some i ↔
        LeastAt (c.getLeaders window height) name i) ∧
      (c.indexAsLeader window name height = none ↔ name ∉ c.getLeaders window height)) ∧
    (∀ height, (c.getLeaders window height).toFinset ⊆ c.names ∧
      (c.getLeaders window height).toFinset.card = min window c.size) ∧
    (∀ c' : Committee, c'.authorities.Perm c.authorities → ∀ height name,
      c'.getLeaders window height = c.getLeaders window height ∧
      c'.indexAsLeader window name height = c.indexAsLeader window name height) ∧
    (∀ height, c.getLeaders window (height + c.size) = c.getLeaders window height) ∧
    ∀ height, ∀ name ∈ c.names, ∀ i < min window c.size,
      ∃! t, height ≤ t ∧ t < height + c.size ∧ (c.getLeaders window t)[i]? = some name := by
  refine ⟨fun height name hn =>
    ⟨fun i => indexAsLeader_eq_some_iff hn, indexAsLeader_eq_none_iff hn⟩,
    fun height => ⟨?_, card_getLeaders⟩, fun c' hp height name => ?_, fun height =>
    getLeaders_add_size, fun height name hn i hi => existsUnique_height hn (lt_min_iff.mp hi).1⟩
  · intro k hk
    rw [getLeaders_eq, List.mem_toFinset, List.mem_map] at hk
    obtain ⟨i, -, rfl⟩ := hk
    exact leaderAt_mem
  · unfold getLeaders indexAsLeader getLeaderIdx
    rw [sortedNames_of_perm hp]
    exact ⟨rfl, rfl⟩

/-- The sums of `get_leaders` are no overflow as long as the names and the leaders, with 32 bytes
each, fit into vectors. -/
theorem getLeaders_fits (hw : 32 * window < 2 ^ 63) (hn : 32 * c.size < 2 ^ 63) :
    c.getLeaderIdx height + window < 2 ^ 64 ∧
      ∀ i ∈ List.range' (c.getLeaderIdx height) window, i + c.sortedNames.length < 2 ^ 64 := by
  have hlt : c.getLeaderIdx height < c.size := by
    unfold getLeaderIdx
    rw [sortedNames_length]
    exact Nat.mod_lt _ size_pos
  rw [sortedNames_length]
  refine ⟨by omega, fun i hi => ?_⟩
  have := List.mem_range'_1.mp hi
  omega

end Committee

end Ipotane
