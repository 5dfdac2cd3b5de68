import Ipotane.Aggregator
import Ipotane.Certificates
import Ipotane.Lib.Ballot

/-! The certificates and proofs that the aggregator assembles of votes that were checked one by
one. -/
namespace Ipotane

open Lib

section Assembly

variable [Crypto] {c : Committee}

/-- A signature is valid for one digest at most. -/
def SignaturesBind : Prop := ∀ (s : Signature) (d d' : Digest) (k : PublicKey),
  Crypto.verify s d k = true → Crypto.verify s d' k = true → d = d'

/-- The aggregator that has been given the votes, the first one first. -/
def fed {V α : Type} (add : Aggregator → V → Committee → Appended α Aggregator) (c : Committee)
    (l : List V) : Aggregator := l.foldl (fun a v => (add a v c).2) .new

theorem fed_snoc {V α : Type}
    (add : Aggregator → V → Committee → Appended α Aggregator) (l : List V)
    (v : V) : fed add c (l ++ [v]) = (add (fed add c l) v c).2 := by
  simp [fed, List.foldl_append]

/-! ### Makers -/

/-- What a maker holds after the votes of its group. -/
theorem QCMaker.foldl_append (g : List HVote) :
    g.foldl (fun m v => (m.append v c).2) .new =
      (⟨openStake HVote.author c.stake c.quorumThreshold g,
        (counted HVote.author g).map fun v => (v.author, v.signature),
        ((counted HVote.author g).map HVote.author).reverse⟩ : QCMaker) := by
  induction g using List.reverseRecOn with
  | nil => rfl
  | append_singleton g v ih =>
    rw [List.foldl_append, ih, List.foldl_cons, List.foldl_nil, append]
    by_cases hv : v.author ∈ (counted HVote.author g).map HVote.author
    · rw [if_pos (List.mem_reverse.mpr hv), openStake_snoc_of_mem hv, counted_snoc_of_mem hv]
    · rw [if_neg (fun h => hv (List.mem_reverse.mp h)), openStake_snoc_of_not_mem hv,
        counted_snoc_of_not_mem hv]
      unfold fill
      simp only [List.map_append, List.map_cons, List.map_nil, List.reverse_append,
        List.reverse_cons, List.reverse_nil, List.nil_append, List.singleton_append]
      split <;> rfl

theorem ProofMaker.foldl_append (g : List SPBVote) :
    g.foldl (fun m v => (m.append v c).2) .new =
      (⟨openStake SPBVote.author c.stake c.quorumThreshold g, counted SPBVote.author g,
        ((counted SPBVote.author g).map SPBVote.author).reverse⟩ : ProofMaker) := by
  induction g using List.reverseRecOn with
  | nil => rfl
  | append_singleton g v ih =>
    rw [List.foldl_append, ih, List.foldl_cons, List.foldl_nil, append]
    by_cases hv : v.author ∈ (counted SPBVote.author g).map SPBVote.author
    · rw [if_pos (List.mem_reverse.mpr hv), openStake_snoc_of_mem hv, counted_snoc_of_mem hv]
    · rw [if_neg (fun h => hv (List.mem_reverse.mp h)), openStake_snoc_of_not_mem hv,
        counted_snoc_of_not_mem hv]
      unfold fill
      simp only [List.map_append, List.map_cons, List.map_nil, List.reverse_append,
        List.reverse_cons, List.reverse_nil, List.nil_append, List.singleton_append]
      split <;> rfl

/-- A maker returns a certificate when a vote makes a quorum with those of its group. -/
theorem QCMaker.append_foldl {g : List HVote} {v : HVote} {q : QC} :
    (append (g.foldl (fun m v => (m.append v c).2) .new) v c).1 = .ok (some q) ↔
      Completes HVote.author c.stake c.quorumThreshold g v ∧
        q = assemble ((counted HVote.author g ++ [v]).map fun v => (v.author, v.signature)) v := by
  rw [foldl_append, append, Completes]
  simp only [List.mem_reverse, List.map_append, List.map_cons, List.map_nil]
  by_cases hv : v.author ∈ (counted HVote.author g).map HVote.author
  · rw [if_pos hv]
    simp [hv]
  · rw [if_neg hv]
    by_cases hq : c.quorumThreshold ≤ openStake HVote.author c.stake c.quorumThreshold
      g + c.stake v.author
    · rw [if_pos hq]
      simp [hv, hq, eq_comm]
    · rw [if_neg hq]
      simp [hq]

theorem ProofMaker.append_foldl {g : List SPBVote} {v : SPBVote} {p : SPBProof} :
    (append (g.foldl (fun m v => (m.append v c).2) .new) v c).1 = .ok (some p) ↔
      Completes SPBVote.author c.stake c.quorumThreshold g v ∧
        p = ⟨(v.phase + 1) % 256, v.round, v.height, counted SPBVote.author g ++ [v]⟩ := by
  rw [foldl_append, append, Completes]
  simp only [List.mem_reverse]
  by_cases hv : v.author ∈ (counted SPBVote.author g).map SPBVote.author
  · rw [if_pos hv]
    simp [hv]
  · rw [if_neg hv]
    by_cases hq : c.quorumThreshold ≤ openStake SPBVote.author c.stake c.quorumThreshold
      g + c.stake v.author
    · rw [if_pos hq]
      simp [hv, hq, eq_comm]
    · rw [if_neg hq]
      simp [hq]

/-! ### Tables -/

namespace Aggregator

/-- A table whose calls go to the maker of the vote's key. -/
theorem fed_table {V α M K : Type} [DecidableEq K]
    {add : Aggregator → V → Committee → Appended α Aggregator}
    (table : Aggregator → Map K M) (key : V → K) (append : M → V → Appended α M) {new : M}
    (hnew : table .new = .empty)
    (hadd : ∀ a v, table (add a v c).2 = Map.feed key (fun m v => (append m v).2) new (table a) v)
    (l : List V) (k : K) :
    (table (fed add c l)).getD k new =
      (l.filter fun v => key v = k).foldl (fun m v => (append m v).2) new := by
  have h : table (fed add c l) = l.foldl (Map.feed key (fun m v => (append m v).2) new) .empty := by
    induction l using List.reverseRecOn with
    | nil => exact hnew
    | append_singleton l v ih => rw [fed_snoc, hadd, ih, List.foldl_append]; rfl
  rw [h, Map.getD_foldl_feed]

theorem hsVotes_fed (l : List HVote) (k : ℕ × Digest) :
    (fed addHsVote c l).hsVotes.getD k .new =
      (l.filter fun u => (u.height, u.hash) = k).foldl (fun m v => (m.append v c).2) .new :=
  fed_table hsVotes (fun u => (u.height, u.hash)) (fun m v => m.append v c) rfl (fun _ _ => rfl) l k

theorem fallbackVotes_fed (l : List HVote) (k : ℕ × ℕ) :
    (fed addFallbackVote c l).fallbackVotes.getD k .new =
      (l.filter fun u => (u.height, u.round) = k).foldl (fun m v => (m.append v c).2) .new :=
  fed_table fallbackVotes (fun u => (u.height, u.round)) (fun m v => m.append v c) rfl
    (fun _ _ => rfl) l k

theorem spbVotes_fed (l : List SPBVote) (k : ℕ × ℕ × ℕ) :
    (fed addSpbVote c l).spbVotes.getD k .new =
      (l.filter fun u => (u.height, u.round, u.phase) = k).foldl
      (fun m v => (m.append v c).2) .new :=
  fed_table spbVotes (fun u => (u.height, u.round, u.phase)) (fun m v => m.append v c) rfl
    (fun _ _ => rfl) l k

theorem preVotes_fed (l : List SPBVote) (k : ℕ × ℕ) :
    (fed addPreVote c l).preVotes.getD k .new =
      (l.filter fun u => (u.height, u.round) = k).foldl (fun m v => (m.append v c).2) .new :=
  fed_table preVotes (fun u => (u.height, u.round)) (fun m v => m.append v c) rfl
    (fun _ _ => rfl) l k

end Aggregator

/-! ### Certificates -/

theorem HVote.verify_iff {v : HVote} : v.verify c = .ok () ↔
    0 < c.stake v.author ∧ Crypto.verify v.signature v.digest v.author = true := by
  rw [HVote.verify, check_seq, checkSignature, ensure_ok, ensure_ok]

/-- A certificate of a quorum of checked votes that sign the digest of the last one is valid. -/
theorem QC.assembled_ok {g : List HVote} {v : HVote} (hg : ∀ u ∈ g, u.verify c = .ok ())
    (hv : v.verify c = .ok ()) (h : Completes HVote.author c.stake c.quorumThreshold g v)
    (hall : ∀ u ∈ counted HVote.author g, u.digest = v.digest) :
    (QCMaker.assemble ((counted HVote.author g ++ [v]).map fun v =>
      (v.author, v.signature)) v).verify c = .ok () := by
  have hold : ∀ u ∈ counted HVote.author g ++ [v], u.verify c = .ok () ∧ u.digest = v.digest := by
    intro u hu
    rcases List.mem_append.mp hu with hu | hu
    · exact ⟨hg u (mem_of_mem_counted hu), hall u hu⟩
    · rw [List.mem_singleton.mp hu]
      exact ⟨hv, rfl⟩
  have hnames : (((counted HVote.author g ++ [v]).map fun v =>
    (v.author, v.signature)).map Prod.fst) =
      (counted HVote.author g ++ [v]).map HVote.author := by
    rw [List.map_map]
    rfl
  refine QC.verify_iff.mpr ⟨?_, ?_, ?_, ?_⟩
  · change (List.map Prod.fst (List.map _ _)).Nodup
    rw [hnames]
    exact h.nodup
  · intro s hs
    obtain ⟨u, hu, rfl⟩ := List.mem_map.mp hs
    exact (HVote.verify_iff.mp (hold u hu).1).1
  · intro s hs
    obtain ⟨u, hu, rfl⟩ := List.mem_map.mp hs
    have hdigest : (QCMaker.assemble
        ((counted HVote.author g ++ [v]).map fun v => (v.author, v.signature)) v).digest =
          v.digest := rfl
    rw [hdigest, ← (hold u hu).2]
    exact (HVote.verify_iff.mp (hold u hu).1).2
  · change c.quorumThreshold ≤ c.stakeOf (List.map Prod.fst (List.map _ _)).toFinset
    rw [hnames, Committee.stakeOf, List.sum_toFinset _ h.nodup]
    exact h.threshold_le

/-- It is valid in no other case. -/
theorem QC.assembled_verify {g : List HVote} {v : HVote} (hb : SignaturesBind)
    (hg : ∀ u ∈ g, u.verify c = .ok ()) (hv : v.verify c = .ok ())
    (h : Completes HVote.author c.stake c.quorumThreshold g v) :
    (QCMaker.assemble ((counted HVote.author g ++ [v]).map fun v =>
      (v.author, v.signature)) v).verify c
        = .ok () ↔
      ∀ u ∈ counted HVote.author g, u.digest = v.digest := by
  refine ⟨?_, QC.assembled_ok hg hv h⟩
  intro hq u hu
  have hmem : u ∈ counted HVote.author g ++ [v] := List.mem_append_left _ hu
  have hvalid := (QC.verify_iff.mp hq).valid (u.author, u.signature) (List.mem_map_of_mem hmem)
  exact hb _ _ _ _ (HVote.verify_iff.mp (hg u (mem_of_mem_counted hu))).2 hvalid

/-! ### How often a maker returns one -/

section Once

variable {V α M : Type}

def issued : Except ConsensusError (Option α) → List α
  | .ok (some a) => [a]
  | _ => []

omit [Crypto] in
theorem of_mem_issued {r : Except ConsensusError (Option α)} {a : α} (h : a ∈ issued r) :
    r = .ok (some a) := by
  unfold issued at h
  split at h
  · rw [List.mem_singleton.mp h]
  · cases h

/-- What a maker has returned when it has been given the votes, the first one first. -/
def certificates (append : M → V → Appended α M) (m : M) : List V → List α
  | [] => []
  | v :: l => issued (append m v).1 ++ certificates append (append m v).2 l

omit [Crypto] in
theorem certificates_snoc (append : M → V → Appended α M) (m : M) (l : List V) (v : V) :
    certificates append m (l ++ [v]) =
      certificates append m l ++ issued (append (l.foldl (fun m v => (append m v).2) m) v).1 := by
  induction l generalizing m with
  | nil => exact (List.append_nil _).trans (List.nil_append _).symm
  | cons u l ih =>
    rw [List.cons_append, certificates, ih, certificates, List.foldl_cons, List.append_assoc]

omit [Crypto] in
/-- A maker that answers the quorums returns as many certificates as there are quorums. -/
theorem length_certificates {append : M → V → Appended α M} {new : M} {author : V → PublicKey}
    (h : ∀ g v, (∃ a, (append (g.foldl (fun m v => (append m v).2) new) v).1 = .ok (some a)) ↔
      Completes author c.stake c.quorumThreshold g v) (l : List V) :
    (certificates append new l).length =
      quorums author c.stake c.quorumThreshold 0 (counted author l) := by
  induction l using List.reverseRecOn with
  | nil => rfl
  | append_singleton l v ih =>
    rw [certificates_snoc, List.length_append, quorums_counted_snoc ih.symm]
    congr 1
    by_cases hc : Completes author c.stake c.quorumThreshold l v
    · obtain ⟨a, ha⟩ := (h l v).mpr hc
      rw [if_pos hc, ha]
      rfl
    · rw [if_neg hc]
      unfold issued
      split
      · rename_i a ha
        exact absurd ((h l v).mp ⟨a, ha⟩) hc
      · rfl

end Once

/-- A maker returns at most one certificate unless the votes that count are two quorums, one
after the other. -/
theorem certificates_once (c : Committee) :
    (∀ l : List HVote, (certificates (fun m v => QCMaker.append m v c) .new l).length ≤ 1 ↔
      ¬ TwoQuorums HVote.author c.stake c.quorumThreshold (counted HVote.author l)) ∧
    (∀ l : List SPBVote, (certificates (fun m v => ProofMaker.append m v c) .new l).length ≤ 1 ↔
      ¬ TwoQuorums SPBVote.author c.stake c.quorumThreshold (counted SPBVote.author l)) := by
  have hpos : 0 < c.quorumThreshold := Nat.succ_pos _
  constructor
  · intro l
    rw [← quorums_le_one_iff hpos, length_certificates]
    intro g v
    exact ⟨fun ⟨_, hq⟩ => (QCMaker.append_foldl.mp hq).1, fun hc =>
      ⟨_, QCMaker.append_foldl.mpr ⟨hc, rfl⟩⟩⟩
  · intro l
    rw [← quorums_le_one_iff hpos, length_certificates]
    intro g v
    exact ⟨fun ⟨_, hp⟩ => (ProofMaker.append_foldl.mp hp).1,
      fun hc => ⟨_, ProofMaker.append_foldl.mpr ⟨hc, rfl⟩⟩⟩

omit [Crypto] in
/-- Whoever is not a member adds nothing to the stake. -/
theorem stakeOf_inter_names (A : Finset PublicKey) : c.stakeOf (A ∩ c.names) = c.stakeOf A := by
  refine Finset.sum_subset Finset.inter_subset_left ?_
  intro k hk hn
  by_contra hne
  exact hn (Finset.mem_inter.mpr ⟨hk, Committee.mem_names_of_stake_pos (Nat.pos_of_ne_zero hne)⟩)

omit [Crypto] in
/-- Voters who outweigh the committee twice over would have to vote twice. -/
theorem not_twoQuorums {V : Type} {author : V → PublicKey} {l : List V}
    (hc : c.total < c.quorumThreshold + c.quorumThreshold) :
    ¬ TwoQuorums author c.stake c.quorumThreshold (counted author l) := by
  rintro ⟨a, b, hab, ha, hb⟩
  have hnodup : ((a ++ b).map author).Nodup := hab ▸ nodup_counted
  rw [List.map_append, List.nodup_append] at hnodup
  obtain ⟨hna, hnb, hne⟩ := hnodup
  have hsum : ∀ {g : List V}, (g.map author).Nodup →
      c.stakeOf ((g.map author).toFinset ∩ c.names) = (g.map fun v => c.stake (author v)).sum := by
    intro g hg
    rw [stakeOf_inter_names, Committee.stakeOf, List.sum_toFinset _ hg, List.map_map]
    rfl
  obtain ⟨k, hka, hkb⟩ : ∃ k, k ∈ (a.map author).toFinset ∩ c.names ∧
      k ∈ (b.map author).toFinset ∩ c.names := by
    refine exists_common Finset.inter_subset_right Finset.inter_subset_right (w := c.stake) ?_
    have hA := hsum hna
    have hB := hsum hnb
    have hn : c.stakeOf c.names = c.total := Committee.stakeOf_names
    unfold Committee.stakeOf at hA hB hn
    omega
  exact hne k (List.mem_toFinset.mp (Finset.mem_inter.mp hka).1) k
    (List.mem_toFinset.mp (Finset.mem_inter.mp hkb).1) rfl

/-! ### Proofs -/

/-- All shares of a proof are votes for one hash and phase. -/
def SPBProof.Uniform (p : SPBProof) : Prop :=
  ∃ (hash : Digest) (phase : ℕ), ∀ u ∈ p.shares, u.hash = hash ∧ u.phase = phase

theorem SPBProof.uniform_iff {votes : List SPBVote} {v : SPBVote} {phase round height : ℕ} :
    (⟨phase, round, height, votes ++ [v]⟩ : SPBProof).Uniform ↔
      ∀ u ∈ votes, u.hash = v.hash ∧ u.phase = v.phase := by
  constructor
  · rintro ⟨hash, phase, hall⟩ u hu
    obtain ⟨hh, hp⟩ := hall u (List.mem_append_left _ hu)
    obtain ⟨hh', hp'⟩ := hall v (List.mem_append_right _ (List.mem_singleton_self v))
    exact ⟨hh.trans hh'.symm, hp.trans hp'.symm⟩
  · intro hall
    refine ⟨v.hash, v.phase, fun u hu => ?_⟩
    rcases List.mem_append.mp hu with hu | hu
    · exact hall u hu
    · rw [List.mem_singleton.mp hu]
      exact ⟨rfl, rfl⟩

/-- When `v` completes a quorum of votes with its key, those that count agree with it. -/
def Agree {V K D : Type} [DecidableEq K] (c : Committee) (author : V → PublicKey) (key : V → K)
    (field : V → D) (past : List V) (v : V) : Prop :=
  Completes author c.stake c.quorumThreshold (past.filter fun u => key u = key v) v →
    ∀ u ∈ counted author (past.filter fun u => key u = key v), field u = field v

namespace Aggregator

/-- What a call that goes to the maker of its key returns. -/
theorem qcs_verify (hb : SignaturesBind) {K : Type} [DecidableEq K] {key : HVote → K}
    {past : List HVote} {v : HVote} (hv : ∀ u ∈ past ++ [v], u.verify c = .ok ()) :
    (∀ q, (QCMaker.append ((past.filter fun u => key u = key v).foldl
        (fun m v => (m.append v c).2) .new) v c).1 = .ok (some q) → q.verify c = .ok ()) ↔
      Agree c HVote.author key HVote.digest past v := by
  have hgroup : ∀ u ∈ past.filter fun u => key u = key v, u.verify c = .ok () :=
    fun u hu => hv u (List.mem_append_left _ (List.mem_of_mem_filter hu))
  have hlast : v.verify c = .ok () := hv v (List.mem_append_right _ (List.mem_singleton_self v))
  constructor
  · intro h hc
    exact (QC.assembled_verify hb hgroup hlast hc).mp (h _ (QCMaker.append_foldl.mpr ⟨hc, rfl⟩))
  · intro h q hq
    obtain ⟨hc, rfl⟩ := QCMaker.append_foldl.mp hq
    exact (QC.assembled_verify hb hgroup hlast hc).mpr (h hc)

theorem proofs_uniform {K : Type} [DecidableEq K] {key : SPBVote → K} {past : List SPBVote}
    {v : SPBVote} :
    (∀ p, (ProofMaker.append ((past.filter fun u => key u = key v).foldl
        (fun m v => (m.append v c).2) .new) v c).1 = .ok (some p) → p.Uniform) ↔
      Agree c SPBVote.author key (fun u => (u.hash, u.phase)) past v := by
  unfold Agree
  simp only [Prod.mk.injEq]
  constructor
  · intro h hc
    exact SPBProof.uniform_iff.mp (h _ (ProofMaker.append_foldl.mpr ⟨hc, rfl⟩))
  · intro h p hp
    obtain ⟨hc, rfl⟩ := ProofMaker.append_foldl.mp hp
    exact SPBProof.uniform_iff.mpr (h hc)

/-- The votes of one key may differ in what they sign: what the aggregator returns is valid
when those that make the quorum agree. -/
theorem assembled_valid (hb : SignaturesBind) (c : Committee) :
    (∀ (past : List HVote) (v : HVote), (∀ u ∈ past ++ [v], u.verify c = .ok ()) →
      ((∀ q, (addHsVote (fed addHsVote c past) v c).1 = .ok (some q) → q.verify c = .ok ()) ↔
        Agree c HVote.author (fun u => (u.height, u.hash)) HVote.digest past v) ∧
      ((∀ q, (addFallbackVote (fed addFallbackVote c past) v c).1 = .ok (some q) →
          q.verify c = .ok ()) ↔
        Agree c HVote.author (fun u => (u.height, u.round)) HVote.digest past v)) ∧
    (∀ (past : List SPBVote) (v : SPBVote), (∀ u ∈ past ++ [v], u.verify c = .ok ()) →
      ((∀ p, (addSpbVote (fed addSpbVote c past) v c).1 = .ok (some p) → p.Uniform) ↔
        Agree c SPBVote.author (fun u => (u.height, u.round, u.phase))
        (fun u => (u.hash, u.phase)) past v) ∧
      ((∀ p, (addPreVote (fed addPreVote c past) v c).1 = .ok (some p) → p.Uniform) ↔
        Agree c SPBVote.author (fun u => (u.height, u.round)) (fun u => (u.hash, u.phase))
        past v)) := by
  refine ⟨fun past v hv => ⟨?_, ?_⟩, fun past v hv => ⟨?_, ?_⟩⟩
  · rw [← qcs_verify hb hv, ← hsVotes_fed]
    rfl
  · rw [← qcs_verify hb hv, ← fallbackVotes_fed]
    rfl
  · rw [← proofs_uniform, ← spbVotes_fed]
    rfl
  · rw [← proofs_uniform, ← preVotes_fed]
    rfl

end Aggregator

end Assembly

/-! ### A vote that spoils a certificate -/

theorem symbolic_signaturesBind : SignaturesBind := by
  intro s d d' k h h'
  have hs : s = (k, d) := of_decide_eq_true h
  have hs' : s = (k, d') := of_decide_eq_true h'
  exact (Prod.mk.inj (hs.symm.trans hs')).2

/-- The vote of node `k` for the proposal of the leader. -/
def leaderVote (k : PublicKey) : HVote := HVote.new leaderProposal k OPT

/-- Node `3` signs the leader's proposal in another round. -/
def strayVote : HVote :=
  let vote : HVote := { leaderVote 3 with round := 7 }
  { vote with signature := Crypto.sign 3 vote.digest }

theorem assembled_valid_leaderVotes :
    ((∀ u ∈ [leaderVote 0, leaderVote 1] ++ [leaderVote 2], u.verify fourNodes = .ok ()) ∧
      ∃ q, (Aggregator.addHsVote (fed Aggregator.addHsVote fourNodes [leaderVote 0, leaderVote 1])
        (leaderVote 2) fourNodes).1 = .ok (some q)) ∧
    ∀ q, (Aggregator.addHsVote (fed Aggregator.addHsVote fourNodes [leaderVote 0, leaderVote 1])
      (leaderVote 2) fourNodes).1 = .ok (some q) → q.verify fourNodes = .ok () :=
  have hv : ∀ u ∈ [leaderVote 0, leaderVote 1] ++ [leaderVote 2], u.verify fourNodes = .ok () := by
    decide +kernel
  ⟨⟨hv, QCMaker.assemble ([leaderVote 0, leaderVote 1, leaderVote 2].map fun v =>
    (v.author, v.signature))
      (leaderVote 2), by decide +kernel⟩,
        (((Aggregator.assembled_valid symbolic_signaturesBind fourNodes).1 _ _ hv).1).mpr
    fun _ => by decide +kernel⟩

theorem strayVote_spoils :
    ¬ ∀ (c : Committee) (past : List HVote) (v : HVote), (∀ u ∈ past ++ [v], u.verify c = .ok ()) →
      ∀ q, (Aggregator.addHsVote (fed Aggregator.addHsVote c past) v c).1 = .ok (some q) →
        q.verify c = .ok () := by
  intro h
  have hq := h fourNodes [leaderVote 0, leaderVote 1] strayVote (by decide +kernel)
    (QCMaker.assemble ([leaderVote 0, leaderVote 1, strayVote].map fun v =>
      (v.author, v.signature)) strayVote)
    (by decide +kernel)
  revert hq
  decide +kernel

/-- Six votes of stake one make two certificates of a quorum of three. -/
theorem not_certificates_once_sixNodes :
    ¬ ∀ c : Committee, (∀ a ∈ c.authorities, 0 < a.stake) →
      (∀ l : List HVote, (∀ v ∈ l, v.author ∈ c.names) →
        (certificates (fun m v => QCMaker.append m v c) .new l).length ≤ 1) ∧
      (∀ l : List SPBVote, (∀ v ∈ l, v.author ∈ c.names) →
        (certificates (fun m v => ProofMaker.append m v c) .new l).length ≤ 1) := by
  intro h
  have honce := (h Committee.sixNodes (by decide)).1
    [leaderVote 0, leaderVote 1, leaderVote 2, leaderVote 3, leaderVote 4, leaderVote 5]
      (by decide +kernel)
  revert honce
  decide +kernel

end Ipotane
