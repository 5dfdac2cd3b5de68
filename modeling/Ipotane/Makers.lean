import Ipotane.Assembly

/-! When the makers of the aggregator return their first certificate, and when the coin comes. -/
namespace Ipotane

open Lib

section Makers

variable [Crypto] {c : Committee}

/-! ### Certificates and proofs -/

/-- The members of the committee whose votes count, with their stake. -/
abbrev voters {V : Type} (author : V → PublicKey) (l : List V) : Finset PublicKey :=
  (l.map author).toFinset

omit [Crypto] in
theorem stakeOf_voters {V : Type} {author : V → PublicKey} {l : List V} :
    c.stakeOf (voters author l) = ((counted author l).map fun v => c.stake (author v)).sum := by
  have hsame : voters author l = voters author (counted author l) := by
    ext k
    rw [List.mem_toFinset, List.mem_toFinset, author_mem_counted]
  rw [hsame, Committee.stakeOf, List.sum_toFinset _ nodup_counted, List.map_map]
  rfl

omit [Crypto] in
theorem stakeOf_voters_snoc {V : Type} {author : V → PublicKey} {l : List V} {v : V}
    (h : author v ∉ l.map author) :
    c.stakeOf (voters author (l ++ [v])) = c.stakeOf (voters author l) + c.stake (author v) := by
  have hnew : author v ∉ voters author l := fun hmem => h (List.mem_toFinset.mp hmem)
  have hins : voters author (l ++ [v]) = insert (author v) (voters author l) := by
    ext k
    simp [or_comm]
  rw [hins, Committee.stakeOf, Finset.sum_insert hnew, Nat.add_comm]
  rfl

omit [Crypto] in
theorem stakeOf_voters_mono {V : Type} {author : V → PublicKey} {l : List V} {v : V} :
    c.stakeOf (voters author l) ≤ c.stakeOf (voters author (l ++ [v])) := by
  refine Committee.stakeOf_mono fun k hk => ?_
  rw [List.mem_toFinset, List.map_append]
  exact List.mem_append_left _ (List.mem_toFinset.mp hk)

/-- The maker has returned nothing for the votes in `past`, and it returns something for `v`. -/
def FirstIssue {V α M : Type} (append : M → V → Appended α M) (new : M) (past : List V)
    (v : V) : Prop :=
  certificates append new past = [] ∧
    ∃ a, (append (past.foldl (fun m v => (append m v).2) new) v).1 = .ok (some a)

/-- `v` is the vote with which the stake of the distinct voters reaches the threshold. -/
def Reaches {V : Type} (c : Committee) (author : V → PublicKey) (threshold : ℕ) (past : List V)
    (v : V) : Prop :=
  c.stakeOf (voters author past) < threshold ∧ threshold ≤ c.stakeOf (voters author (past ++ [v]))

omit [Crypto] in
/-- A maker that answers the quorums answers the first one when the threshold is reached. -/
theorem firstIssue_iff {V α M : Type} {append : M → V → Appended α M} {new : M}
    {author : V → PublicKey}
    (h : ∀ g v, (∃ a, (append (g.foldl (fun m v => (append m v).2) new) v).1 = .ok (some a)) ↔
      Completes author c.stake c.quorumThreshold g v) (past : List V) (v : V) :
    FirstIssue append new past v ↔ Reaches c author c.quorumThreshold past v := by
  have hpos : 0 < c.quorumThreshold := Nat.succ_pos _
  unfold FirstIssue Reaches
  rw [← List.length_eq_zero_iff, length_certificates h, h, first_quorum_iff hpos, stakeOf_voters,
    stakeOf_voters]

/-- A vote of an author whose vote the maker has is rejected, and the maker stays as it is. The
first certificate comes with the vote that reaches the threshold, and a certificate has one entry
for each author, made of the author's first vote. -/
theorem votes_accumulate (c : Committee) :
    (∀ (past : List HVote) (v : HVote),
      let m := past.foldl (fun m v => (QCMaker.append m v c).2) .new
      (v.author ∈ past.map HVote.author →
        m.append v c = (.error (.AuthorityReuseinQC v.author), m)) ∧
      (FirstIssue (fun m v => QCMaker.append m v c) .new past v ↔
        Reaches c HVote.author c.quorumThreshold past v) ∧
      ∀ q, (m.append v c).1 = .ok (some q) → ∃ g, Roll HVote.author (past ++ [v]) g ∧
        q.votes = g.map fun u => (u.author, u.signature)) ∧
    (∀ (past : List SPBVote) (v : SPBVote),
      let m := past.foldl (fun m v => (ProofMaker.append m v c).2) .new
      (v.author ∈ past.map SPBVote.author →
        m.append v c = (.error (.AuthorityReuseinProof v.author m.used), m)) ∧
      (FirstIssue (fun m v => ProofMaker.append m v c) .new past v ↔
        Reaches c SPBVote.author c.quorumThreshold past v) ∧
      ∀ p, (m.append v c).1 = .ok (some p) → Roll SPBVote.author (past ++ [v]) p.shares) := by
  constructor
  · intro past v m
    refine ⟨fun hv => ?_, firstIssue_iff ?_ past v, fun q hq => ?_⟩
    · unfold QCMaker.append
      refine if_pos ?_
      change v.author ∈ (past.foldl (fun m v => (QCMaker.append m v c).2) .new).used
      rw [QCMaker.foldl_append]
      exact List.mem_reverse.mpr (author_mem_counted.mpr hv)
    · intro g u
      exact ⟨fun ⟨_, hq⟩ => (QCMaker.append_foldl.mp hq).1,
        fun hc => ⟨_, QCMaker.append_foldl.mpr ⟨hc, rfl⟩⟩⟩
    · obtain ⟨hc, rfl⟩ := QCMaker.append_foldl.mp hq
      refine ⟨counted HVote.author past ++ [v], ?_, rfl⟩
      rw [← counted_snoc_of_not_mem hc.1]
      exact roll_counted
  · intro past v m
    refine ⟨fun hv => ?_, firstIssue_iff ?_ past v, fun p hp => ?_⟩
    · unfold ProofMaker.append
      refine if_pos ?_
      change v.author ∈ (past.foldl (fun m v => (ProofMaker.append m v c).2) .new).used
      rw [ProofMaker.foldl_append]
      exact List.mem_reverse.mpr (author_mem_counted.mpr hv)
    · intro g u
      exact ⟨fun ⟨_, hp⟩ => (ProofMaker.append_foldl.mp hp).1,
        fun hc => ⟨_, ProofMaker.append_foldl.mpr ⟨hc, rfl⟩⟩⟩
    · obtain ⟨hc, rfl⟩ := ProofMaker.append_foldl.mp hp
      change Roll SPBVote.author (past ++ [v]) (counted SPBVote.author past ++ [v])
      rw [← counted_snoc_of_not_mem hc.1]
      exact roll_counted

/-! ### Coins -/

/-- Valid shares of distinct authors for the coin of one epoch, height and round. -/
structure SharesFor (c : Committee) (epoch height round : ℕ) (l : List RandomnessShare) : Prop where
  distinct : (l.map RandomnessShare.author).Nodup
  valid : ∀ s ∈ l, s.verify c = .ok ()
  stamp : ∀ s ∈ l, s.epoch = epoch ∧ s.height = height ∧ s.round = round

theorem SharesFor.left {epoch height round : ℕ} {l post : List RandomnessShare}
    (h : SharesFor c epoch height round (l ++ post)) : SharesFor c epoch height round l where
  distinct := ((List.sublist_append_left l post).map _).nodup h.distinct
  valid s hs := h.valid s (List.mem_append_left _ hs)
  stamp s hs := h.stamp s (List.mem_append_left _ hs)

theorem SharesFor.split {epoch height round : ℕ} {l past post : List RandomnessShare}
    {s : RandomnessShare} (h : SharesFor c epoch height round l) (he : l = past ++ s :: post) :
    SharesFor c epoch height round (past ++ [s]) ∧ s.author ∉ past.map RandomnessShare.author := by
  have happ : SharesFor c epoch height round ((past ++ [s]) ++ post) := by
    rwa [List.append_assoc, List.singleton_append, ← he]
  have hleft := happ.left
  refine ⟨hleft, fun hmem => ?_⟩
  obtain ⟨-, -, hne⟩ := List.nodup_append.mp (List.map_append ▸ hleft.distinct)
  exact hne _ hmem _ (List.mem_singleton_self _) rfl

namespace SMVBARandomCoinMaker

/-- `combine_signatures` succeeds on valid shares of members with the stake of the threshold. -/
def CombinesEnough (c : Committee) : Prop := ∀ (epoch height round : ℕ) (g : List RandomnessShare),
  SharesFor c epoch height round g →
  c.randomCoinThreshold ≤ c.stakeOf (voters RandomnessShare.author g) →
  (Crypto.combine (sharesById c g)).isSome = true

/-- The coin comes once, when the stake of the shares reaches the threshold, and its leader is
the authority at an index below the size of the committee. -/
structure CoinOnCrossing (c : Committee) (l : List RandomnessShare) : Prop where
  crossing : ∀ past s post, l = past ++ s :: post →
    ((∃ coin, (append (past.foldl (fun m s => (append m s c).2) .new) s c).1 = .ok (some coin)) ↔
      Reaches c RandomnessShare.author c.randomCoinThreshold past s)
  once : (certificates (fun m s => append m s c) .new l).length =
    if c.randomCoinThreshold ≤ c.stakeOf (voters RandomnessShare.author l) then 1 else 0
  leader : ∀ past s post coin, l = past ++ s :: post →
    (append (past.foldl (fun m s => (append m s c).2) .new) s c).1 = .ok (some coin) →
    ∃ n, Crypto.combine (sharesById c (past ++ [s])) = some n ∧ n % c.size < c.size ∧
      c.sortedNames[n % c.size]? = some coin.leader

variable {l past : List RandomnessShare} {s : RandomnessShare} {epoch height round : ℕ}

/-- What the maker holds after shares of distinct authors. -/
theorem foldl_append (h : (l.map RandomnessShare.author).Nodup) :
    l.foldl (fun m s => (append m s c).2) .new =
      (⟨c.stakeOf (voters RandomnessShare.author l), l, (l.map RandomnessShare.author).reverse⟩ :
        SMVBARandomCoinMaker) := by
  induction l using List.reverseRecOn with
  | nil => rfl
  | append_singleton l s ih =>
    rw [List.map_append, List.nodup_append] at h
    obtain ⟨hl, -, hne⟩ := h
    have hs : s.author ∉ l.map RandomnessShare.author := fun hmem =>
      hne _ hmem _ (List.mem_singleton_self _) rfl
    rw [List.foldl_append, ih hl, List.foldl_cons, List.foldl_nil, append,
      if_neg (fun hmem => hs (List.mem_reverse.mp hmem)), stakeOf_voters_snoc hs]
    simp only [List.map_append, List.map_cons, List.map_nil, List.reverse_append,
      List.reverse_cons, List.reverse_nil, List.nil_append, List.singleton_append]
    split
    · split <;> rfl
    · rfl

/-- A coin is made when the stake of the shares is the threshold. -/
theorem append_foldl (h : ((past ++ [s]).map RandomnessShare.author).Nodup) :
    (append (past.foldl (fun m s => (append m s c).2) .new) s c).1 =
      if c.stakeOf (voters RandomnessShare.author (past ++ [s])) = c.randomCoinThreshold then
        .ok ((electedLeader c (past ++ [s])).map fun leader =>
          ⟨s.height, s.epoch, s.round, leader, past ++ [s]⟩)
      else .ok none := by
  rw [List.map_append, List.nodup_append] at h
  obtain ⟨hl, -, hne⟩ := h
  have hs : s.author ∉ past.map RandomnessShare.author := fun hmem =>
    hne _ hmem _ (List.mem_singleton_self _) rfl
  rw [foldl_append hl, append, if_neg (fun hmem => hs (List.mem_reverse.mp hmem)),
    stakeOf_voters_snoc hs]
  dsimp only
  split
  · cases electedLeader c (past ++ [s]) <;> rfl
  · rfl

/-- The combined signature elects an authority. -/
theorem electedLeader_eq_some {n : ℕ} (h : Crypto.combine (sharesById c l) = some n) :
    ∃ leader, electedLeader c l = some leader ∧ c.sortedNames[n % c.size]? = some leader := by
  have hlt : n % c.size < c.sortedNames.length := by
    rw [Committee.sortedNames_length]
    exact Nat.mod_lt _ Committee.size_pos
  exact ⟨c.sortedNames[n % c.size], by rw [electedLeader, h]; exact List.getElem?_eq_getElem hlt,
    List.getElem?_eq_getElem hlt⟩

/-- With enough shares, whether there is a coin is a matter of the stake. -/
theorem issues_iff (hcombine : CombinesEnough c)
    (h : SharesFor c epoch height round (past ++ [s])) :
    (∃ coin, (append (past.foldl (fun m s => (append m s c).2) .new) s c).1 = .ok (some coin)) ↔
      c.stakeOf (voters RandomnessShare.author (past ++ [s])) = c.randomCoinThreshold := by
  rw [append_foldl h.distinct]
  constructor
  · rintro ⟨coin, hc⟩
    by_contra hne
    rw [if_neg hne] at hc
    cases hc
  · intro he
    obtain ⟨n, hn⟩ := Option.isSome_iff_exists.mp (hcombine epoch height round _ h he.ge)
    obtain ⟨leader, hl, -⟩ := electedLeader_eq_some hn
    rw [if_pos he, hl]
    exact ⟨_, rfl⟩

omit [Crypto] in
theorem threshold_pos : 0 < c.randomCoinThreshold := Nat.succ_pos _

/-- A maker that answers the crossing of the threshold returns one coin, or none before it. -/
theorem once_of_crossing (h : ∀ past s post, l = past ++ s :: post →
    ((∃ coin, (append (past.foldl (fun m s => (append m s c).2) .new) s c).1 = .ok (some coin)) ↔
      Reaches c RandomnessShare.author c.randomCoinThreshold past s)) :
    (certificates (fun m s => append m s c) .new l).length =
      if c.randomCoinThreshold ≤ c.stakeOf (voters RandomnessShare.author l) then 1 else 0 := by
  induction l using List.reverseRecOn with
  | nil =>
    have hnone : ¬ c.randomCoinThreshold ≤ c.stakeOf (voters RandomnessShare.author []) :=
      Nat.not_le.mpr threshold_pos
    rw [if_neg hnone]
    rfl
  | append_singleton l s ih =>
    have hold := ih fun past x post he => h past x (post ++ [s]) (by rw [he]; simp)
    have hmono : c.stakeOf (voters RandomnessShare.author l) ≤
        c.stakeOf (voters RandomnessShare.author (l ++ [s])) := stakeOf_voters_mono
    rw [certificates_snoc, List.length_append, hold]
    by_cases hr : Reaches c RandomnessShare.author c.randomCoinThreshold l s
    · obtain ⟨coin, hcoin⟩ := (h l s [] rfl).mpr hr
      rw [if_neg (Nat.not_le.mpr hr.1), if_pos hr.2, hcoin]
      rfl
    · have hnone : issued (append (l.foldl (fun m s => (append m s c).2) .new) s c).1 = [] :=
        List.eq_nil_iff_forall_not_mem.mpr fun coin hc =>
          hr ((h l s [] rfl).mp ⟨coin, of_mem_issued hc⟩)
      rw [hnone, List.length_nil, Nat.add_zero]
      refine if_congr ?_ rfl rfl
      unfold Reaches at hr
      omega

/-- No share takes the stake past the threshold without stopping there. -/
def StopsThere (c : Committee) (l : List RandomnessShare) : Prop :=
  ∀ past s post, l = past ++ s :: post →
  Reaches c RandomnessShare.author c.randomCoinThreshold past s →
  c.stakeOf (voters RandomnessShare.author (past ++ [s])) = c.randomCoinThreshold

theorem coinOnCrossing_of_stopsThere (hcombine : CombinesEnough c)
    (hl : SharesFor c epoch height round l) (h : StopsThere c l) : CoinOnCrossing c l := by
  have hcross : ∀ past s post, l = past ++ s :: post →
      ((∃ coin, (append (past.foldl (fun m s => (append m s c).2) .new) s c).1 = .ok (some coin)) ↔
        Reaches c RandomnessShare.author c.randomCoinThreshold past s) := by
    intro past s post he
    obtain ⟨hpast, hnew⟩ := hl.split he
    rw [issues_iff hcombine hpast]
    refine ⟨fun hs => ⟨?_, hs.ge⟩, h past s post he⟩
    -- a valid share adds stake
    have hpos : 0 < c.stake s.author := by
      have hv := hl.valid s (by rw [he]; simp)
      rw [RandomnessShare.verify, check_seq, ensure_ok] at hv
      exact hv.1
    rw [stakeOf_voters_snoc hnew] at hs
    omega
  refine ⟨hcross, once_of_crossing hcross, fun past s post coin he hcoin => ?_⟩
  have hpast := (hl.split he).1
  have hfull := (issues_iff hcombine hpast).mp ⟨coin, hcoin⟩
  obtain ⟨n, hn⟩ := Option.isSome_iff_exists.mp (hcombine _ _ _ _ hpast hfull.ge)
  obtain ⟨leader, helected, hat⟩ := electedLeader_eq_some hn
  rw [append_foldl hpast.distinct, if_pos hfull, helected] at hcoin
  cases hcoin
  exact ⟨n, hn, Nat.mod_lt _ Committee.size_pos, hat⟩

/-- The coin comes as it should if and only if no share takes the stake past the threshold. -/
theorem coinOnCrossing_iff (hcombine : CombinesEnough c) (hl : SharesFor c epoch height round l) :
    CoinOnCrossing c l ↔ StopsThere c l := by
  refine ⟨fun h past s post he hr => ?_, coinOnCrossing_of_stopsThere hcombine hl⟩
  exact (issues_iff hcombine (hl.split he).1).mp ((h.crossing past s post he).mpr hr)

/-- No share is too heavy when all stakes are one. -/
theorem stopsThere_of_unit (hunit : ∀ a ∈ c.authorities, a.stake = 1)
    (hl : SharesFor c epoch height round l) : StopsThere c l := by
  intro past s post he ⟨hlt, hle⟩
  have hone : c.stake s.author ≤ 1 := by
    unfold Committee.stake
    cases hf : c.find s.author with
    | none => exact Nat.zero_le _
    | some a => exact (hunit a (List.mem_of_find?_eq_some hf)).le
  rw [stakeOf_voters_snoc (hl.split he).2] at hle ⊢
  omega

end SMVBARandomCoinMaker

end Makers

/-! ### A coin that never comes -/

namespace SMVBARandomCoinMaker

/-- The symbolic scheme combines any shares. -/
theorem symbolic_combinesEnough (c : Committee) : CombinesEnough c := by
  intro epoch height round g hg hq
  have hne : g ≠ [] := by
    rintro rfl
    exact absurd hq (Nat.not_le.mpr threshold_pos)
  have hlen : sharesById c g ≠ [] := by
    intro hnil
    have hlen := congrArg List.length hnil
    rw [sharesById, List.length_insertionSort] at hlen
    rw [← List.dropLast_append_getLast hne, List.foldl_append] at hlen
    cases hlen
  obtain ⟨x, rest, hx⟩ := List.exists_cons_of_ne_nil hlen
  rw [hx]
  rfl

/-- The share of node `k` for the first coin of height `2`. -/
def firstShare (k : PublicKey) : RandomnessShare := RandomnessShare.new 2 0 1 k

theorem firstShares_for {c : Committee} {l : List PublicKey} (hn : l.Nodup)
    (hv : ∀ s ∈ l.map firstShare, s.verify c = .ok ()) : SharesFor c 0 2 1 (l.map firstShare) where
  distinct := by simpa [List.map_map, Function.comp_def, firstShare, RandomnessShare.new] using hn
  valid := hv
  stamp s hs := by
    obtain ⟨k, -, rfl⟩ := List.mem_map.mp hs
    exact ⟨rfl, rfl, rfl⟩

/-- Four nodes of stake two: the threshold is three. -/
def heavyNodes : Committee where
  authorities := [⟨0, 0, 2⟩, ⟨1, 1, 2⟩, ⟨2, 2, 2⟩, ⟨3, 3, 2⟩]
  nodup := by decide
  total_pos := by decide
  total_lt := by decide

theorem coinOnCrossing_firstShares : SharesFor fourNodes 0 2 1 ([0, 1, 2].map firstShare) ∧
    CoinOnCrossing fourNodes ([0, 1, 2].map firstShare) :=
  have hl : SharesFor fourNodes 0 2 1 ([0, 1, 2].map firstShare) :=
    firstShares_for (by decide) (by decide +kernel)
  ⟨hl, (coinOnCrossing_iff (symbolic_combinesEnough _) hl).mpr (stopsThere_of_unit (by decide) hl)⟩

/-- The shares of two heavy nodes have a stake of two, then of four. -/
theorem not_coinOnCrossing_heavyNodes :
    ¬ ∀ c : Committee, (∀ a ∈ c.authorities, 0 < a.stake) → CombinesEnough c →
      ∀ (epoch height round : ℕ) (l : List RandomnessShare), SharesFor c epoch height round l →
        CoinOnCrossing c l := by
  intro h
  have honce := (h heavyNodes (by decide) (symbolic_combinesEnough _) 0 2 1 ([0, 1].map firstShare)
    (firstShares_for (by decide) (by decide +kernel))).once
  revert honce
  decide +kernel

end SMVBARandomCoinMaker

end Ipotane
