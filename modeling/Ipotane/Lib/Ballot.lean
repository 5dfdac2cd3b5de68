import Ipotane.Lib.Map
import Mathlib.Algebra.GroupWithZero.Nat
import Mathlib.Data.List.Induction

/-! Ballots that are counted as they come: a voter counts once, and the stake that has been
counted since the last quorum makes the next one. -/
namespace Lib

section Ballot

variable {V A : Type} [DecidableEq A] (author : V → A) (stake : A → ℕ) (threshold : ℕ)

def count (l : List V) (v : V) : List V := if author v ∈ l.map author then l else l ++ [v]

/-- The votes that count, in the order in which they came. -/
def counted (l : List V) : List V := l.foldl (count author) []

def fill (w : ℕ) (v : V) : ℕ := if threshold ≤ w + stake (author v) then 0 else w + stake (author v)

/-- The stake that has been counted since the last quorum. -/
def openStake (l : List V) : ℕ := (counted author l).foldl (fill author stake threshold) 0

/-- `v` makes a quorum with the votes that came before it. -/
def Completes (l : List V) (v : V) : Prop :=
  author v ∉ (counted author l).map author ∧
    threshold ≤ openStake author stake threshold l + stake (author v)

instance (l : List V) (v : V) : Decidable (Completes author stake threshold l v) :=
  inferInstanceAs (Decidable (_ ∧ _))

/-- The quorums that voters with these stakes make, one after another, when `w` has been counted. -/
def quorums (w : ℕ) : List V → ℕ
  | [] => 0
  | v :: l => (if threshold ≤ w + stake (author v) then 1 else 0) + quorums
      (fill author stake threshold w v) l

/-- Two quorums, one after the other. -/
def TwoQuorums (l : List V) : Prop :=
  ∃ a b, l = a ++ b ∧ threshold ≤ (a.map fun v => stake (author v)).sum ∧
    threshold ≤ (b.map fun v => stake (author v)).sum

/-- The first vote of each voter of `l`, in the order in which the voters came. -/
structure Roll (l g : List V) : Prop where
  order : g.Sublist l
  nodup : (g.map author).Nodup
  mem : ∀ k, k ∈ g.map author ↔ k ∈ l.map author
  first : ∀ u ∈ g, ∃ a b, l = a ++ u :: b ∧ author u ∉ a.map author

variable {author} {stake} {threshold} {l : List V} {v : V}

theorem counted_snoc : counted author (l ++ [v]) = count author (counted author l) v := by
  simp [counted, List.foldl_append]

theorem counted_snoc_of_mem (h : author v ∈ (counted author l).map author) :
    counted author (l ++ [v]) = counted author l := by
  rw [counted_snoc, count, if_pos h]

theorem counted_snoc_of_not_mem (h : author v ∉ (counted author l).map author) :
    counted author (l ++ [v]) = counted author l ++ [v] := by
  rw [counted_snoc, count, if_neg h]

theorem mem_of_mem_counted (h : v ∈ counted author l) : v ∈ l := by
  induction l using List.reverseRecOn with
  | nil => exact h
  | append_singleton l u ih =>
    refine List.mem_append.mpr ?_
    by_cases hu : author u ∈ (counted author l).map author
    · rw [counted_snoc_of_mem hu] at h
      exact .inl (ih h)
    · rw [counted_snoc_of_not_mem hu] at h
      exact (List.mem_append.mp h).imp_left ih

/-- No voter counts twice. -/
theorem nodup_counted : ((counted author l).map author).Nodup := by
  induction l using List.reverseRecOn with
  | nil => exact List.nodup_nil
  | append_singleton l u ih =>
    by_cases hu : author u ∈ (counted author l).map author
    · rwa [counted_snoc_of_mem hu]
    · rw [counted_snoc_of_not_mem hu, List.map_append]
      refine List.nodup_append.mpr ⟨ih, List.nodup_singleton _, ?_⟩
      rintro a ha b hb rfl
      exact hu (List.mem_singleton.mp hb ▸ ha)

/-- Whoever has voted is counted. -/
theorem author_mem_counted {k : A} : k ∈ (counted author l).map author ↔ k ∈ l.map author := by
  induction l using List.reverseRecOn with
  | nil => exact Iff.rfl
  | append_singleton l u ih =>
    rw [List.map_append, List.mem_append, ← ih]
    by_cases hu : author u ∈ (counted author l).map author
    · rw [counted_snoc_of_mem hu]
      refine ⟨.inl, ?_⟩
      rintro (h | h)
      · exact h
      · rwa [List.mem_singleton.mp h]
    · rw [counted_snoc_of_not_mem hu, List.map_append, List.mem_append]

theorem counted_sublist : (counted author l).Sublist l := by
  induction l using List.reverseRecOn with
  | nil => exact List.Sublist.refl _
  | append_singleton l u ih =>
    by_cases hu : author u ∈ (counted author l).map author
    · rw [counted_snoc_of_mem hu]
      exact ih.trans (List.sublist_append_left _ _)
    · rw [counted_snoc_of_not_mem hu]
      exact ih.append (List.Sublist.refl _)

theorem first_of_mem_counted {u : V} (h : u ∈ counted author l) :
    ∃ a b, l = a ++ u :: b ∧ author u ∉ a.map author := by
  induction l using List.reverseRecOn with
  | nil => cases h
  | append_singleton l x ih =>
    have hold : u ∈ counted author l →
        ∃ a b, l ++ [x] = a ++ u :: b ∧ author u ∉ a.map author := by
      intro h
      obtain ⟨a, b, rfl, ha⟩ := ih h
      exact ⟨a, b ++ [x], by simp, ha⟩
    by_cases hx : author x ∈ (counted author l).map author
    · rw [counted_snoc_of_mem hx] at h
      exact hold h
    · rw [counted_snoc_of_not_mem hx] at h
      rcases List.mem_append.mp h with h | h
      · exact hold h
      · rw [List.mem_singleton.mp h]
        exact ⟨l, [], rfl, fun hl => hx (author_mem_counted.mpr hl)⟩

theorem roll_counted : Roll author l (counted author l) :=
  ⟨counted_sublist, nodup_counted, fun _ => author_mem_counted, fun _ => first_of_mem_counted⟩

theorem openStake_snoc_of_mem (h : author v ∈ (counted author l).map author) :
    openStake author stake threshold (l ++ [v]) = openStake author stake threshold l := by
  unfold openStake
  rw [counted_snoc_of_mem h]

theorem openStake_snoc_of_not_mem (h : author v ∉ (counted author l).map author) :
    openStake author stake threshold (l ++ [v]) =
      fill author stake threshold (openStake author stake threshold l) v := by
  unfold openStake
  rw [counted_snoc_of_not_mem h, List.foldl_append]
  rfl

omit [DecidableEq A] in
theorem foldl_fill_le (l : List V) (w : ℕ) :
    l.foldl (fill author stake threshold) w ≤ w + (l.map fun v => stake (author v)).sum := by
  induction l generalizing w with
  | nil => exact Nat.le_refl _
  | cons v l ih =>
    refine Nat.le_trans (ih _) ?_
    have hfill : fill author stake threshold w v ≤ w + stake (author v) := by
      unfold fill
      split
      · exact Nat.zero_le _
      · exact Nat.le_refl _
    rw [List.map_cons, List.sum_cons]
    omega

/-- The votes that have been counted have the stake of the next quorum, and more. -/
theorem openStake_le :
    openStake author stake threshold l ≤ ((counted author l).map fun v =>
      stake (author v)).sum := by
  have h : openStake author stake threshold l ≤
      0 + ((counted author l).map fun v => stake (author v)).sum := foldl_fill_le _ 0
  rwa [Nat.zero_add] at h

/-- A quorum has distinct voters. -/
theorem Completes.nodup (h : Completes author stake threshold l v) :
    ((counted author l ++ [v]).map author).Nodup := by
  rw [← counted_snoc_of_not_mem h.1]
  exact nodup_counted

theorem Completes.threshold_le (h : Completes author stake threshold l v) :
    threshold ≤ (((counted author l ++ [v]).map author).map stake).sum := by
  have hv := h.2
  have hle : openStake author stake threshold l ≤
      ((counted author l).map fun v => stake (author v)).sum := openStake_le
  simp only [List.map_append, List.map_map, List.map_cons, List.map_nil, List.sum_append,
    List.sum_singleton]
  exact Nat.le_trans hv (Nat.add_le_add_right hle _)

omit [DecidableEq A] in
theorem quorums_snoc (w : ℕ) : quorums author stake threshold w (l ++ [v]) =
    quorums author stake threshold w l +
      (if threshold ≤ l.foldl (fill author stake threshold) w + stake (author v)
        then 1 else 0) := by
  induction l generalizing w with
  | nil => rw [List.nil_append, quorums, quorums, quorums, Nat.add_comm]; rfl
  | cons u l ih =>
    rw [List.cons_append, quorums, ih, quorums, List.foldl_cons, Nat.add_assoc]

omit [DecidableEq A] in
theorem quorums_pos_iff (l : List V) : ∀ w < threshold,
    (0 < quorums author stake threshold w l ↔
      threshold ≤ w + (l.map fun v => stake (author v)).sum) := by
  induction l with
  | nil =>
    intro w hw
    simp only [quorums, List.map_nil, List.sum_nil]
    omega
  | cons u l ih =>
    intro w hw
    rw [quorums, fill, List.map_cons, List.sum_cons]
    by_cases hu : threshold ≤ w + stake (author u)
    · rw [if_pos hu, if_pos hu]
      omega
    · rw [if_neg hu, if_neg hu, Nat.zero_add, ih _ (by omega)]
      omega

omit [DecidableEq A] in
theorem one_lt_quorums_iff (l : List V) : ∀ w < threshold,
    (1 < quorums author stake threshold w l ↔ ∃ a b, l = a ++ b ∧
      threshold ≤ w + (a.map fun v => stake (author v)).sum ∧
      threshold ≤ (b.map fun v => stake (author v)).sum) := by
  induction l with
  | nil =>
    intro w hw
    constructor
    · intro h
      cases h
    · rintro ⟨a, b, hab, -, hb⟩
      obtain ⟨-, rfl⟩ := List.append_eq_nil_iff.mp hab.symm
      rw [List.map_nil, List.sum_nil] at hb
      omega
  | cons u l ih =>
    intro w hw
    rw [quorums, fill]
    by_cases hu : threshold ≤ w + stake (author u)
    · rw [if_pos hu, if_pos hu]
      have hpos : 0 < threshold := by omega
      have hrest : 0 < quorums author stake threshold 0 l ↔
          threshold ≤ 0 + (l.map fun v => stake (author v)).sum := quorums_pos_iff l 0 hpos
      constructor
      · intro h
        have hl := hrest.mp (by omega)
        exact ⟨[u], l, rfl, by simpa using hu, by simpa using hl⟩
      · rintro ⟨a, b, hab, ha, hb⟩
        have hsum : (b.map fun v => stake (author v)).sum ≤ (l.map fun v =>
          stake (author v)).sum := by
          cases a with
          | nil => exact absurd ha (by simpa using hw)
          | cons x a =>
            obtain ⟨-, hl⟩ := List.cons.inj hab
            rw [hl]
            change _ ≤ (List.map _ (a ++ b)).sum
            rw [List.map_append, List.sum_append]
            exact Nat.le_add_left _ _
        have := hrest.mpr (by omega)
        omega
    · rw [if_neg hu, if_neg hu, Nat.zero_add, ih _ (by omega)]
      constructor
      · rintro ⟨a, b, rfl, ha, hb⟩
        refine ⟨u :: a, b, rfl, ?_, hb⟩
        rw [List.map_cons, List.sum_cons]
        omega
      · rintro ⟨a, b, hab, ha, hb⟩
        cases a with
        | nil => exact absurd ha (by simpa using hw)
        | cons x a =>
          obtain ⟨rfl, rfl⟩ := List.cons.inj hab
          refine ⟨a, b, rfl, ?_, hb⟩
          rw [List.map_cons, List.sum_cons] at ha
          omega

omit [DecidableEq A] in
theorem quorums_le_one_iff (ht : 0 < threshold) :
    quorums author stake threshold 0 l ≤ 1 ↔ ¬ TwoQuorums author stake threshold l := by
  rw [← Nat.not_lt, one_lt_quorums_iff l 0 ht, TwoQuorums]
  simp only [Nat.zero_add]

/-- The votes that complete a quorum are as many as the quorums of the votes that count. -/
theorem quorums_counted_snoc {n : ℕ} (h : quorums author stake threshold 0 (counted author l) = n) :
    quorums author stake threshold 0 (counted author (l ++ [v])) =
      n + (if Completes author stake threshold l v then 1 else 0) := by
  by_cases hv : author v ∈ (counted author l).map author
  · rw [counted_snoc_of_mem hv, if_neg (fun hc => hc.1 hv), h, Nat.add_zero]
  · rw [counted_snoc_of_not_mem hv, quorums_snoc, h]
    congr 1
    exact if_congr ⟨fun hw => ⟨hv, hw⟩, And.right⟩ rfl rfl

omit [DecidableEq A] in
/-- Before the first quorum all the stake that has been counted is open. -/
theorem foldl_fill_of_lt (l : List V) : ∀ w, w + (l.map fun v => stake (author v)).sum < threshold →
    l.foldl (fill author stake threshold) w = w + (l.map fun v => stake (author v)).sum := by
  induction l with
  | nil => exact fun _ _ => rfl
  | cons u l ih =>
    intro w hw
    rw [List.map_cons, List.sum_cons] at hw ⊢
    rw [List.foldl_cons, fill, if_neg (by omega), ih _ (by omega), Nat.add_assoc]

/-- The first quorum is made by the vote with which the stake of the voters reaches
the threshold. -/
theorem first_quorum_iff (ht : 0 < threshold) :
    quorums author stake threshold 0 (counted author l) = 0 ∧ Completes author stake threshold l v ↔
      ((counted author l).map fun v => stake (author v)).sum < threshold ∧
        threshold ≤ ((counted author (l ++ [v])).map fun v => stake (author v)).sum := by
  have hnone : quorums author stake threshold 0 (counted author l) = 0 ↔
      ((counted author l).map fun v => stake (author v)).sum < threshold := by
    have hpos : 0 < quorums author stake threshold 0 (counted author l) ↔
        threshold ≤ 0 + ((counted author l).map fun v => stake (author v)).sum :=
          quorums_pos_iff _ 0 ht
    omega
  rw [hnone]
  refine and_congr_right fun hlt => ?_
  have hopen : openStake author stake threshold l =
      ((counted author l).map fun v => stake (author v)).sum := by
    have hfill : openStake author stake threshold l =
        0 + ((counted author l).map fun v => stake (author v)).sum :=
          foldl_fill_of_lt _ 0 (by omega)
    rwa [Nat.zero_add] at hfill
  unfold Completes
  rw [hopen]
  by_cases hv : author v ∈ (counted author l).map author
  · rw [counted_snoc_of_mem hv]
    exact ⟨fun h => absurd hv h.1, fun h => absurd h (Nat.not_le.mpr hlt)⟩
  · rw [counted_snoc_of_not_mem hv, List.map_append, List.sum_append]
    exact ⟨fun h => by simpa using h.2, fun h => ⟨hv, by simpa using h⟩⟩

end Ballot

/-! ### Ballots in a table -/

section Feed

variable {V K M : Type} [DecidableEq K] (key : V → K) (append : M → V → M) (d : M)

/-- A vote goes to the ballot of its key. -/
def Map.feed (t : Map K M) (v : V) : Map K M := t.insert (key v) (append (t.getD (key v) d) v)

/-- A ballot has the votes of its key. -/
theorem Map.getD_foldl_feed (l : List V) (k : K) :
    (l.foldl (Map.feed key append d) .empty).getD k d =
      (l.filter fun v => key v = k).foldl append d := by
  induction l using List.reverseRecOn with
  | nil => rfl
  | append_singleton l v ih =>
    rw [List.foldl_append, List.filter_append, List.foldl_append]
    change ((l.foldl (Map.feed key append d) .empty).insert (key v) _).getD k d = _
    rw [Map.getD_insert]
    by_cases hk : key v = k
    · rw [if_pos hk.symm, hk, ih, List.filter_cons_of_pos (by simpa using hk)]
      rfl
    · rw [if_neg (Ne.symm hk), ih, List.filter_cons_of_neg (by simpa using hk)]
      rfl

/-- Every ballot is the outcome of votes in `P` that have its key. -/
def Map.Folds (P : V → Prop) (t : Map K M) : Prop :=
  ∀ k, ∃ l : List V, t.getD k d = l.foldl append d ∧ ∀ v ∈ l, key v = k ∧ P v

variable {key} {append} {d} {P Q : V → Prop} {t : Map K M}

omit [DecidableEq K] in
theorem Map.folds_empty : Map.Folds key append d P .empty :=
  fun _ => ⟨[], rfl, fun _ h => (nomatch h)⟩

omit [DecidableEq K] in
theorem Map.Folds.mono (h : Map.Folds key append d P t) (hp : ∀ v, P v → Q v) :
    Map.Folds key append d Q t := by
  intro k
  obtain ⟨l, hl, hv⟩ := h k
  exact ⟨l, hl, fun v hm => ⟨(hv v hm).1, hp v (hv v hm).2⟩⟩

theorem Map.Folds.feed (h : Map.Folds key append d P t) {v : V} (hv : P v) :
    Map.Folds key append d P (Map.feed key append d t v) := by
  intro k
  unfold Map.feed
  rw [Map.getD_insert]
  by_cases hk : k = key v
  · rw [if_pos hk]
    obtain ⟨l, hl, hm⟩ := h (key v)
    refine ⟨l ++ [v], by rw [hl, List.foldl_append]; rfl, ?_⟩
    intro u hu
    rcases List.mem_append.mp hu with hu | hu
    · exact ⟨(hm u hu).1.trans hk.symm, (hm u hu).2⟩
    · rw [List.mem_singleton.mp hu]
      exact ⟨hk.symm, hv⟩
  · rw [if_neg hk]
    exact h k

omit [DecidableEq K] in
theorem Map.Folds.retain (h : Map.Folds key append d P t) (p : K → Bool) :
    Map.Folds key append d P (t.retain p) := by
  intro k
  rw [Map.getD_retain]
  split
  · exact h k
  · exact ⟨[], rfl, fun _ h => (nomatch h)⟩

end Feed

end Lib
