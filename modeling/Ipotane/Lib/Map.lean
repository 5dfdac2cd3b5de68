import Mathlib.Data.List.Nodup
import Mathlib.Data.List.Basic

/-! Lookup tables with the operations of a hash map, and keyed lists for the tables
whose size is counted. -/
namespace Lib

/-- A table is known by its lookups: two tables with the same entries are equal. -/
def Map (K V : Type) := K → Option V

namespace Map

variable {K V : Type} {m : Map K V} {k k' : K} {v v' : V}

def empty : Map K V := fun _ => none

def get (m : Map K V) (k : K) : Option V := m k

def contains (m : Map K V) (k : K) : Bool := (m.get k).isSome

def getD (m : Map K V) (k : K) (v : V) : V := (m.get k).getD v

def retain (m : Map K V) (p : K → Bool) : Map K V := fun k => if p k then m k else none

@[simp] theorem get_empty : (empty : Map K V).get k = none := rfl

@[simp] theorem getD_empty : (empty : Map K V).getD k v = v := rfl

theorem get_retain (p : K → Bool) : (m.retain p).get k = if p k then m.get k else none := rfl

theorem getD_retain (p : K → Bool) : (m.retain p).getD k v = if p k then m.getD k v else v := by
  by_cases hk : p k <;> simp [getD, get_retain, hk]

theorem contains_iff : m.contains k = true ↔ ∃ v, m.get k = some v := by
  simp [contains, Option.isSome_iff_exists]

theorem contains_retain {p : K → Bool} (hp : p k = true) (hc : m.contains k = true) :
    (m.retain p).contains k = true := by
  unfold contains at *
  rwa [get_retain, if_pos hp]

variable [DecidableEq K]

def insert (m : Map K V) (k : K) (v : V) : Map K V := fun k' => if k' = k then some v else m k'

/-- `entry(k).or_insert(v)`: a present entry is kept. -/
def orInsert (m : Map K V) (k : K) (v : V) : Map K V :=
  if m.contains k then m else m.insert k v

def erase (m : Map K V) (k : K) : Map K V := fun k' => if k' = k then none else m k'

theorem get_insert : (m.insert k v).get k' = if k' = k then some v else m.get k' := rfl

@[simp] theorem get_insert_self : (m.insert k v).get k = some v := by simp [get_insert]

theorem get_erase : (m.erase k).get k' = if k' = k then none else m.get k' := rfl

theorem erase_of_get (h : m.get k = none) : m.erase k = m := by
  funext k'
  unfold erase
  split
  · subst k'
    exact h.symm
  · rfl

theorem getD_insert : (m.insert k v).getD k' v' = if k' = k then v else m.getD k' v' := by
  by_cases hk : k' = k <;> simp [getD, get_insert, hk]

theorem get_orInsert :
    (m.orInsert k v).get k' = if k' = k then some ((m.get k).getD v) else m.get k' := by
  unfold orInsert
  split
  · rename_i h
    obtain ⟨w, hw⟩ := contains_iff.mp h
    by_cases hk : k' = k
    · simp [hk, hw]
    · simp [hk]
  · rename_i h
    have hn : m.get k = none := by simpa [contains] using h
    simp [get_insert, hn]

/-- An `or_insert` is invisible to a lookup that falls back to the inserted value. -/
@[simp] theorem getD_orInsert : (m.orInsert k v).getD k' v = m.getD k' v := by
  by_cases hk : k' = k <;> simp [getD, get_orInsert, hk]

/-! Tables whose entries all satisfy a property. -/

/-- Every lookup that falls back to `d` is in `P`. -/
def Each (P : V → Prop) (d : V) (m : Map K V) : Prop := ∀ k, P (m.getD k d)

variable {P : V → Prop} {d : V}

omit [DecidableEq K] in
theorem each_empty (h : P d) : Each P d (empty : Map K V) := fun _ => h

theorem Each.insert (h : Each P d m) (hv : P v) : Each P d (m.insert k v) := by
  intro k'
  rw [getD_insert]
  split
  · exact hv
  · exact h k'

omit [DecidableEq K] in
theorem Each.retain (h : Each P d m) (hd : P d) (p : K → Bool) : Each P d (m.retain p) := by
  intro k'
  rw [getD_retain]
  split
  · exact h k'
  · exact hd

omit [DecidableEq K] in
theorem Each.congr {m' : Map K V} (h : Each P d m) (he : ∀ k, m'.getD k d = m.getD k d) :
    Each P d m' := by
  intro k
  rw [he k]
  exact h k

/-! Tables that are compared entry by entry. -/

/-- Every lookup in `m` is in the relation `R` to the same lookup in `m'`. -/
def Le (R : V → V → Prop) (d : V) (m m' : Map K V) : Prop := ∀ k, R (m.getD k d) (m'.getD k d)

variable {R : V → V → Prop} {m' m'' : Map K V}

omit [DecidableEq K] in
theorem Le.of_eq (hr : ∀ v, R v v) (h : m' = m) : Le R d m m' := by
  intro k
  rw [h]
  exact hr _

omit [DecidableEq K] in
theorem Le.of_getD (hr : ∀ v, R v v) (h : ∀ k, m'.getD k d = m.getD k d) : Le R d m m' := by
  intro k
  rw [h k]
  exact hr _

omit [DecidableEq K] in
theorem Le.trans (ht : ∀ {a b c}, R a b → R b c → R a c) (h : Le R d m m') (h' : Le R d m' m'') :
    Le R d m m'' := fun k => ht (h k) (h' k)

/-- A new entry has to be compared with the one it replaces in the first table only. -/
theorem Le.insert (h : Le R d m m') (hv : R (m.getD k d) v) : Le R d m (m'.insert k v) := by
  intro k'
  rw [getD_insert]
  by_cases hk : k' = k
  · rw [if_pos hk, hk]
    exact hv
  · rw [if_neg hk]
    exact h k'

end Map

/-! Keyed lists: at most one pair for each key, newest first. -/
section Keyed

variable {K V : Type} [DecidableEq K] {l : List (K × V)} {k k' : K} {v : V}

def put (k : K) (v : V) (l : List (K × V)) : List (K × V) :=
  (k, v) :: l.filter (fun p => p.1 ≠ k)

def hasKey (k : K) (l : List (K × V)) : Bool := l.any (fun p => p.1 = k)

theorem hasKey_iff : hasKey k l = true ↔ k ∈ l.map Prod.fst := by
  simp [hasKey, List.any_eq_true]

theorem mem_put {p : K × V} : p ∈ put k v l ↔ p = (k, v) ∨ (p ∈ l ∧ p.1 ≠ k) := by
  simp [put]

theorem subset_put (h : hasKey k l = false) : l ⊆ put k v l := by
  intro p hp
  refine mem_put.mpr (.inr ⟨hp, ?_⟩)
  rintro rfl
  rw [hasKey_iff.mpr (List.mem_map_of_mem hp)] at h
  cases h

theorem nodup_put (h : (l.map Prod.fst).Nodup) : ((put k v l).map Prod.fst).Nodup := by
  refine List.nodup_cons.mpr ⟨by simp, ?_⟩
  exact h.sublist (List.filter_sublist.map Prod.fst)

theorem mem_of_lookup (h : l.lookup k = some v) : (k, v) ∈ l := by
  induction l with
  | nil => simp at h
  | cons p l ih =>
    rw [List.lookup_cons] at h
    split at h
    · rename_i hp
      have hk : k = p.1 := by simpa using hp
      have hv : p.2 = v := by simpa using h
      subst hk hv
      exact List.mem_cons_self
    · exact List.mem_cons_of_mem _ (ih h)

end Keyed

end Lib
