import Ipotane.Messages
import Ipotane.Symbolic

/-! What an accepted certificate, proof or value says (`consensus/src/messages.rs`). -/
namespace Ipotane

/-! ### Checks -/

theorem check_bind {ε α β : Type} {x : Except ε α} {f : α → Except ε β} {b : β} :
    x >>= f = .ok b ↔ ∃ a, x = .ok a ∧ f a = .ok b := by
  cases x with
  | ok a => simp [bind, Except.bind]
  | error e => simp [bind, Except.bind]

@[simp] theorem ensure_ok {p : Prop} [Decidable p] {e : ConsensusError} {u : Unit} :
    ensure p e = .ok u ↔ p := by
  unfold ensure
  by_cases hp : p <;> simp [hp]

/-- Two checks in sequence. -/
theorem check_seq {α : Type} {x : Check} {y : Except ConsensusError α} {b : α} :
    (do x; y) = .ok b ↔ x = .ok () ∧ y = .ok b := by
  rw [check_bind]
  constructor
  · rintro ⟨⟨⟩, hx, hy⟩
    exact ⟨hx, hy⟩
  · rintro ⟨hx, hy⟩
    exact ⟨(), hx, hy⟩

section Checks

variable [Crypto] {c : Committee}

/-! ### Quorum certificates -/

namespace QC

/-- Distinct members with a quorum of stake have validly signed the certificate's digest. -/
structure Backed (q : QC) (c : Committee) : Prop where
  distinct : (q.votes.map Prod.fst).Nodup
  member : ∀ v ∈ q.votes, 0 < c.stake v.1
  valid : ∀ v ∈ q.votes, Crypto.verify v.2 q.digest v.1 = true
  quorum : c.quorumThreshold ≤ c.stakeOf (q.votes.map Prod.fst).toFinset

theorem tally_ok {used : List PublicKey} {weight w : ℕ} {votes : List (PublicKey × Signature)} :
    tally c used weight votes = .ok w ↔
      (votes.map Prod.fst).Nodup ∧ (∀ v ∈ votes, v.1 ∉ used ∧ 0 < c.stake v.1) ∧
      weight + ((votes.map Prod.fst).map c.stake).sum = w := by
  induction votes generalizing used weight with
  | nil => simp [tally]
  | cons v votes ih =>
    obtain ⟨name, sig⟩ := v
    rw [tally, check_seq, check_seq, ensure_ok, ensure_ok, ih]
    simp only [List.map_cons, List.nodup_cons, List.mem_cons, List.sum_cons, List.mem_map,
      forall_eq_or_imp, Prod.exists, exists_and_right, exists_eq_right]
    constructor
    · rintro ⟨hu, hs, hn, hm, hw⟩
      refine ⟨⟨?_, hn⟩, ⟨⟨hu, hs⟩, ?_⟩, by omega⟩
      · rintro ⟨sig', hmem⟩
        exact (hm _ hmem).1 (Or.inl rfl)
      · intro v hv
        exact ⟨fun h => (hm v hv).1 (Or.inr h), (hm v hv).2⟩
    · rintro ⟨⟨hni, hn⟩, ⟨⟨hu, hs⟩, hm⟩, hw⟩
      refine ⟨hu, hs, hn, ?_, by omega⟩
      intro v hv
      refine ⟨?_, (hm v hv).2⟩
      rintro (rfl | h)
      · exact hni ⟨v.2, hv⟩
      · exact (hm v hv).1 h

/-- `QC::verify` accepts exactly the certificates that are backed. -/
theorem verify_iff {q : QC} : q.verify c = .ok () ↔ q.Backed c := by
  unfold verify
  rw [check_bind]
  simp only [check_seq, tally_ok, ensure_ok, checkBatch, verifyBatch, List.all_eq_true,
    List.not_mem_nil, not_false_eq_true, true_and, zero_add]
  constructor
  · rintro ⟨w, ⟨hn, hm, rfl⟩, hq, hv⟩
    exact ⟨hn, hm, hv, by rwa [Committee.stakeOf, List.sum_toFinset _ hn]⟩
  · rintro ⟨hn, hm, hv, hq⟩
    exact ⟨_, ⟨hn, hm, rfl⟩, by rwa [Committee.stakeOf, List.sum_toFinset _ hn] at hq, hv⟩

end QC

theorem Block.verify_ok {b : Block} (h : b.verify c = .ok ()) :
    0 < c.stake b.author ∧ Crypto.verify b.signature b.digest b.author = true ∧
      (¬ b.qc.isGenesis → b.qc.Backed c) := by
  unfold Block.verify at h
  rw [check_seq, check_seq, checkSignature, ensure_ok, ensure_ok] at h
  refine ⟨h.1, h.2.1, fun hg => ?_⟩
  have hq := h.2.2
  rw [QC.check, if_neg hg] at hq
  exact QC.verify_iff.mp hq

/-! ### Proofs of a strong provable broadcast -/

namespace SPBProof

variable {v : SPBValue} {p : SPBProof} {fallbackLength : ℕ}

theorem tally_ok {weight w : ℕ} {shares : List SPBVote} :
    tally c weight shares = .ok w ↔
      (∀ s ∈ shares, 0 < c.stake s.author) ∧
      weight + (shares.map fun s => c.stake s.author).sum = w := by
  induction shares generalizing weight with
  | nil => simp [tally]
  | cons s shares ih =>
    rw [tally, check_seq, ensure_ok, ih]
    simp only [List.mem_cons, forall_eq_or_imp, List.map_cons, List.sum_cons, and_assoc,
      Nat.add_assoc]

theorem verifyShares_ok {shares : List SPBVote} :
    verifyShares c shares = .ok () ↔ ∀ s ∈ shares, s.verify c = .ok () := by
  induction shares with
  | nil => simp [verifyShares]
  | cons s shares ih => simp [verifyShares, check_seq, ih]

/-- All that `SPBProof::verify` establishes: the stakes are added up share by share. -/
theorem verify_ok (hp : INIT_PHASE < p.phase) (h : p.verify c = .ok ()) :
    (∀ s ∈ p.shares, 0 < c.stake s.author ∧ Crypto.verify s.signature s.digest s.author = true) ∧
      c.quorumThreshold ≤ (p.shares.map fun s => c.stake s.author).sum := by
  unfold verify at h
  rw [if_neg (by omega), check_bind] at h
  obtain ⟨w, ht, h⟩ := h
  obtain ⟨hm, rfl⟩ := tally_ok.mp ht
  rw [check_seq, ensure_ok, verifyShares_ok] at h
  refine ⟨fun s hs => ⟨hm s hs, ?_⟩, by simpa using h.1⟩
  have hv := h.2 s hs
  rw [SPBVote.verify, check_seq, checkSignature, ensure_ok] at hv
  simpa using hv.2

/-- What a proof of `v` should be: valid votes of distinct members with a quorum of stake,
all for `v` in the phase before, at the height and round of `v`. -/
structure SoundFor (p : SPBProof) (c : Committee) (v : SPBValue) : Prop where
  distinct : (p.shares.map SPBVote.author).Nodup
  member : ∀ s ∈ p.shares, 0 < c.stake s.author
  valid : ∀ s ∈ p.shares, Crypto.verify s.signature s.digest s.author = true
  quorum : c.quorumThreshold ≤ c.stakeOf (p.shares.map SPBVote.author).toFinset
  value : ∀ s ∈ p.shares, s.hash = { v with phase := p.phase - 1 }.digest
  height : p.height = v.block.height
  round : p.round = v.round

/-- The comparisons that no check makes: the authors with each other, the shares and the
header of the proof with the value. -/
structure BoundTo (p : SPBProof) (v : SPBValue) : Prop where
  distinct : (p.shares.map SPBVote.author).Nodup
  value : ∀ s ∈ p.shares, s.hash = { v with phase := p.phase - 1 }.digest
  height : p.height = v.block.height
  round : p.round = v.round

end SPBProof

namespace SPBValue

variable {v : SPBValue} {p : SPBProof} {fallbackLength : ℕ}

theorem verify_ok (h : v.verify c p fallbackLength = .ok ()) :
    v.block.qc.round = fallbackLength ∧ v.block.verify c = .ok () ∧ p.verify c = .ok () := by
  unfold SPBValue.verify at h
  rw [check_seq, check_seq, check_seq, ensure_ok] at h
  exact h.2

end SPBValue

/-- An accepted proof is sound for the value it came with exactly when it is bound to it. -/
theorem SPBProof.soundFor_iff_boundTo {v : SPBValue} {p : SPBProof} {fallbackLength : ℕ}
    (hp : p.phase = LOCK_PHASE ∨ p.phase = FIN_PHASE)
    (h : v.verify c p fallbackLength = .ok ()) : p.SoundFor c v ↔ p.BoundTo v := by
  have hpos : INIT_PHASE < p.phase := by
    rcases hp with hp | hp <;> rw [hp] <;> decide
  obtain ⟨hvalid, hq⟩ := SPBProof.verify_ok hpos (SPBValue.verify_ok h).2.2
  constructor
  · intro hs
    exact ⟨hs.distinct, hs.value, hs.height, hs.round⟩
  · intro hb
    refine ⟨hb.distinct, fun s hs => (hvalid s hs).1, fun s hs => (hvalid s hs).2, ?_, hb.value,
      hb.height, hb.round⟩
    rw [Committee.stakeOf, List.sum_toFinset _ hb.distinct, List.map_map]
    exact hq

end Checks

/-! ### A proof that is sound and one that is forged -/

/-- A fallback block of node `0` at height `2`, and the certificate of its first three votes. -/
def sampleFallback : Block := Block.new .genesis 0 2 0 1 [] PES

def sampleQc : QC :=
  ⟨sampleFallback.digest, 2, 0, 1, PES, 0, 0,
    [0, 1, 2].map fun k => (k, (HVote.new sampleFallback k PES).signature)⟩

/-- The value that node `0` proposes on top of that certificate. -/
def sampleValue : SPBValue :=
  ⟨PES, [0, 1, 2].map fun k => (k, (PrePare.new k 0 2 sampleQc PES).signature),
    Block.new sampleQc 0 2 0 2 [] PES, 1, LOCK_PHASE⟩

def sampleProof : SPBProof :=
  ⟨LOCK_PHASE, 1, 2, [0, 1, 2].map (SPBVote.new { sampleValue with phase := INIT_PHASE })⟩

/-- Three times the vote of node `3` on a value of its own, at another height and round. -/
def forgedProof : SPBProof :=
  ⟨LOCK_PHASE, 9, 9, List.replicate 3
    (SPBVote.new ⟨PES, [], Block.new .genesis 3 9 0 2 [] PES, 9, INIT_PHASE⟩ 3)⟩

theorem sampleProof_soundFor :
    sampleValue.verify fourNodes sampleProof 1 = .ok () ∧
    sampleProof.SoundFor fourNodes sampleValue :=
  have h : sampleValue.verify fourNodes sampleProof 1 = .ok () := by decide +kernel
  ⟨h, (SPBProof.soundFor_iff_boundTo (.inl rfl) h).mpr
    ⟨by decide, by decide +kernel, by decide +kernel, rfl⟩⟩

theorem forgedProof_accepted_not_soundFor :
    ¬ ∀ (c : Committee) (v : SPBValue) (p : SPBProof) (fallbackLength : ℕ),
      (p.phase = LOCK_PHASE ∨ p.phase = FIN_PHASE) → v.verify c p fallbackLength = .ok () →
      p.SoundFor c v := by
  intro h
  have hs := h fourNodes sampleValue forgedProof 1 (.inl rfl) (by decide +kernel)
  have hd := hs.distinct
  revert hd
  decide

/-! ### External validity of pessimistic inputs -/

section External

variable [Crypto] {c : Committee} {v : SPBValue} {p : SPBProof} {fallbackLength : ℕ}

/-- The prepares that each member has signed. -/
abbrev Signed := PublicKey → PrePare → Prop

namespace SPBValue

/-- A valid signature under the digest of a `PES` prepare was made for a `PES` prepare. -/
def Unforged (v : SPBValue) (signed : Signed) : Prop :=
  ∀ s ∈ v.signatures, Crypto.verify s.2 (abaValDigest PES) s.1 = true →
    ∃ q, signed s.1 q ∧ q.val = PES

/-- The member has signed a `PES` prepare of the value's epoch and height. -/
def Prepared (v : SPBValue) (signed : Signed) (k : PublicKey) : Prop :=
  ∃ q, signed k q ∧ q.val = PES ∧ q.epoch = v.block.epoch ∧ q.height = v.block.height

/-- Only the signers in `R` may have made their `PES` prepares for other epochs and heights alone,
so that their signature can only be a replay: the digest that they sign names neither. -/
def ReplayedBy (v : SPBValue) (signed : Signed) (R : Finset PublicKey) : Prop :=
  ∀ s ∈ v.signatures, s.1 ∉ R → ∀ q, signed s.1 q → q.val = PES → v.Prepared signed s.1

/-- What the inputs of the pessimistic path should carry: a quorum prepared this epoch and
height, and the certificate is that of the last fallback block there. -/
structure ExternallyValid (v : SPBValue) (c : Committee) (signed : Signed)
    (fallbackLength : ℕ) : Prop where
  prepared : ∃ S ⊆ c.names, c.quorumThreshold ≤ c.stakeOf S ∧ ∀ k ∈ S, v.Prepared signed k
  backed : v.block.qc.Backed c
  epoch : v.block.qc.epoch = v.block.epoch
  height : v.block.qc.height = v.block.height
  tag : v.block.qc.tag = PES
  round : v.block.qc.round = fallbackLength

/-- The members among the signers whose signature is valid, each counted once. -/
def validSigners (v : SPBValue) (c : Committee) : Finset PublicKey :=
  c.names.filter fun k => ∃ s ∈ v.signatures, s.1 = k ∧
    Crypto.verify s.2 (abaValDigest PES) s.1 = true

/-- What the checks leave open: that the valid signers hold a quorum without those of `R`, and that
the certificate, if it is not taken for the genesis one unverified, is of this epoch, this
height and the pessimistic path. -/
structure Vouched (v : SPBValue) (c : Committee) (R : Finset PublicKey) : Prop where
  signers : c.quorumThreshold ≤ c.stakeOf (v.validSigners c \ R)
  genesis : v.block.qc.isGenesis → v.block.qc.verify c = .ok ()
  epoch : v.block.qc.epoch = v.block.epoch
  height : v.block.qc.height = v.block.height
  tag : v.block.qc.tag = PES

variable {R : Finset PublicKey}

theorem prepared_of_validSigners {signed : Signed} (hu : v.Unforged signed)
    (hr : v.ReplayedBy signed R) {k : PublicKey} (hk : k ∈ v.validSigners c \ R) :
    v.Prepared signed k := by
  obtain ⟨hk, hR⟩ := Finset.mem_sdiff.mp hk
  obtain ⟨_, s, hs, rfl, hv⟩ := Finset.mem_filter.mp hk
  obtain ⟨q, hq, hval⟩ := hu s hs hv
  exact hr s hs hR q hq hval

/-- The smallest history in which no signature is forged: the valid signers have each made `PES`
prepares for one height only, those of `R` for the one after that of the value. -/
def smallestHistory (v : SPBValue) (R : Finset PublicKey) : Signed := fun k q =>
  (∃ s ∈ v.signatures, s.1 = k ∧ Crypto.verify s.2 (abaValDigest PES) s.1 = true) ∧
    q.epoch = v.block.epoch ∧ q.height = if k ∈ R then v.block.height + 1 else v.block.height

theorem smallestHistory_unforged : v.Unforged (v.smallestHistory R) := fun s hs hv =>
  ⟨⟨s.1, v.block.epoch, if s.1 ∈ R then v.block.height + 1 else v.block.height, PES, v.block.qc,
    s.2⟩, ⟨⟨s, hs, rfl, hv⟩, rfl, rfl⟩, rfl⟩

theorem smallestHistory_replayedBy : v.ReplayedBy (v.smallestHistory R) R := by
  rintro s - hR q ⟨hk, he, hh⟩ hval
  rw [if_neg hR] at hh
  exact ⟨q, ⟨hk, he, by rw [if_neg hR, hh]⟩, hval, he, hh⟩

theorem not_mem_of_prepared {k : PublicKey} (h : v.Prepared (v.smallestHistory R) k) : k ∉ R := by
  obtain ⟨q, ⟨_, _, hq⟩, _, _, hh⟩ := h
  intro hR
  rw [if_pos hR] at hq
  omega

/-- Under the smallest history only valid signers outside `R` prepared. -/
theorem signers_of_externallyValid
    (h : v.ExternallyValid c (v.smallestHistory R) fallbackLength) :
    c.quorumThreshold ≤ c.stakeOf (v.validSigners c \ R) := by
  obtain ⟨S, hS, hq, hprep⟩ := h.prepared
  have hsub : S ⊆ v.validSigners c \ R := by
    intro k hk
    have hR := not_mem_of_prepared (hprep k hk)
    obtain ⟨q, ⟨hs, _⟩, _⟩ := hprep k hk
    exact Finset.mem_sdiff.mpr ⟨Finset.mem_filter.mpr ⟨hS hk, hs⟩, hR⟩
  exact hq.trans (Committee.stakeOf_mono hsub)

/-- For an accepted value, external validity under every history in which only signers of `R` have
been replayed is what the checks leave open. -/
theorem externallyValid_iff_vouched (h : v.verify c p fallbackLength = .ok ()) :
    (∀ signed, v.Unforged signed → v.ReplayedBy signed R →
      v.ExternallyValid c signed fallbackLength) ↔ v.Vouched c R := by
  obtain ⟨hround, hblock, _⟩ := verify_ok h
  constructor
  · intro hall
    have hv := hall (v.smallestHistory R) smallestHistory_unforged smallestHistory_replayedBy
    exact ⟨signers_of_externallyValid hv, fun _ => QC.verify_iff.mpr hv.backed, hv.epoch, hv.height,
      hv.tag⟩
  · intro hv signed hu hr
    have hb : v.block.qc.Backed c := by
      by_cases hg : v.block.qc.isGenesis
      · exact QC.verify_iff.mp (hv.genesis hg)
      · exact (Block.verify_ok hblock).2.2 hg
    refine ⟨⟨v.validSigners c \ R, ?_, hv.signers, ?_⟩, hb, hv.epoch, hv.height, hv.tag, hround⟩
    · exact Finset.sdiff_subset.trans (Finset.filter_subset _ _)
    · intro k hk
      exact prepared_of_validSigners hu hr hk

end SPBValue

end External

theorem sampleValue_externallyValid :
    sampleValue.verify fourNodes sampleProof 1 = .ok () ∧
      ∀ signed, sampleValue.Unforged signed → sampleValue.ReplayedBy signed {3} →
        sampleValue.ExternallyValid fourNodes signed 1 :=
  have h : sampleValue.verify fourNodes sampleProof 1 = .ok () := by decide +kernel
  ⟨h, (SPBValue.externallyValid_iff_vouched h).mpr
    ⟨by decide +kernel, fun _ => by decide +kernel, by decide +kernel, by decide +kernel,
      by decide +kernel⟩⟩

/-- A value of height `1` without a signature, on a certificate without a vote. -/
def bareValue : SPBValue :=
  ⟨PES, [], Block.new { QC.genesis with round := 1 } 0 1 0 2 [] PES, 1, INIT_PHASE⟩

theorem bareValue_accepted_not_externallyValid :
    ¬ ∀ (c : Committee) (v : SPBValue) (p : SPBProof) (fallbackLength : ℕ) (signed : Signed),
      v.val = PES → v.Unforged signed → v.verify c p fallbackLength = .ok () →
      v.ExternallyValid c signed fallbackLength := by
  intro h
  have hv := h fourNodes bareValue ⟨INIT_PHASE, 1, 1, []⟩ 1 (fun _ _ => False) rfl
    (fun s hs => absurd hs List.not_mem_nil) (by decide +kernel)
  have hh := hv.height
  revert hh
  decide +kernel

end Ipotane
