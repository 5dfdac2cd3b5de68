import Ipotane.Certificates

/-! Why a certificate is rejected (`QC::verify`). -/
namespace Ipotane

/-! ### Checks that fail -/

theorem ensure_error {p : Prop} [Crypto] [Decidable p] {e e' : ConsensusError} :
    ensure p e = .error e' ↔ ¬ p ∧ e = e' := by
  unfold ensure
  by_cases hp : p <;> simp [hp]

/-- A sequence of two checks fails at the first one that fails. -/
theorem check_seq_error {α : Type} [Crypto] {x : Check} {y : Except ConsensusError α}
    {e : ConsensusError} : (do x; y) = .error e ↔ x = .error e ∨ x = .ok () ∧ y = .error e := by
  cases x <;> simp [bind, Except.bind]

theorem check_bind_error {ε α β : Type} {x : Except ε α} {f : α → Except ε β} {e : ε} :
    x >>= f = .error e ↔ x = .error e ∨ ∃ a, x = .ok a ∧ f a = .error e := by
  cases x <;> simp [bind, Except.bind]

section Faults

variable [Crypto] {c : Committee}

namespace QC

/-- Voters that the loop of `QC::verify` passes: none twice, each with stake. -/
structure Voters (c : Committee) (votes : List (PublicKey × Signature)) : Prop where
  distinct : (votes.map Prod.fst).Nodup
  member : ∀ v ∈ votes, 0 < c.stake v.1

/-- What is wrong with a voter who comes after the voters in `past`. -/
inductive Offends (c : Committee) (past : List PublicKey) (k : PublicKey) : ConsensusError → Prop
  | reuse (h : k ∈ past) : Offends c past k (.AuthorityReuseinQC k)
  | unknown (h : k ∉ past) (hs : c.stake k = 0) : Offends c past k (.UnknownAuthority k)

/-- What is wrong with a certificate, the voters first, then their stake, then the signatures. -/
inductive Fault (q : QC) (c : Committee) : ConsensusError → Prop
  | voter {pre post : List (PublicKey × Signature)} {v : PublicKey × Signature} {e : ConsensusError}
      (hv : q.votes = pre ++ v :: post) (hpre : Voters c pre)
      (he : Offends c (pre.map Prod.fst) v.1 e) :
      Fault q c e
  | quorum (hv : Voters c q.votes)
      (hq : ((q.votes.map Prod.fst).map c.stake).sum < c.quorumThreshold) :
      Fault q c .QCRequiresQuorum
  | signature (hv : Voters c q.votes)
      (hq : c.quorumThreshold ≤ ((q.votes.map Prod.fst).map c.stake).sum)
      {v : PublicKey × Signature}
      (hm : v ∈ q.votes) (hs : Crypto.verify v.2 q.digest v.1 = false) : Fault q c .InvalidSignature

variable {used : List PublicKey} {weight w : ℕ} {votes : List (PublicKey × Signature)}
  {v : PublicKey × Signature} {e : ConsensusError}

omit [Crypto] in
theorem Offends.congr {past past' : List PublicKey} {k : PublicKey} (h : Offends c past k e)
    (hp : ∀ x, x ∈ past ↔ x ∈ past') : Offends c past' k e := by
  cases h with
  | reuse h => exact .reuse ((hp k).mp h)
  | unknown h hs => exact .unknown (fun h' => h ((hp k).mpr h')) hs

/-- One turn of the loop: it stops at an offending voter, and goes on otherwise. -/
theorem tally_cons_error : tally c used weight (v :: votes) = .error e ↔
    Offends c used v.1 e ∨
      v.1 ∉ used ∧ 0 < c.stake v.1 ∧
      tally c (v.1 :: used) (weight + c.stake v.1) votes = .error e := by
  rw [tally, check_seq_error, check_seq_error, ensure_error, ensure_error, ensure_ok, ensure_ok]
  constructor
  · rintro (⟨hu, rfl⟩ | ⟨hu, ⟨hs, rfl⟩ | ⟨hs, ht⟩⟩)
    · exact .inl (.reuse (not_not.mp hu))
    · exact .inl (.unknown hu (Nat.eq_zero_of_not_pos hs))
    · exact .inr ⟨hu, hs, ht⟩
  · rintro (h | ⟨hu, hs, ht⟩)
    · cases h with
      | reuse h => exact .inl ⟨not_not.mpr h, rfl⟩
      | unknown h hs => exact .inr ⟨h, .inl ⟨by omega, rfl⟩⟩
    · exact .inr ⟨hu, .inr ⟨hs, ht⟩⟩

/-- The loop stops at the first voter who offends those before it. -/
theorem tally_error : tally c used weight votes = .error e ↔
    ∃ pre v post, votes = pre ++ v :: post ∧ Voters c pre ∧ (∀ u ∈ pre, u.1 ∉ used) ∧
      Offends c (pre.map Prod.fst ++ used) v.1 e := by
  induction votes generalizing used weight with
  | nil => simp [tally]
  | cons u votes ih =>
    rw [tally_cons_error, ih]
    constructor
    · rintro (h | ⟨hu, hs, pre, v, post, rfl, hpre, hnot, he⟩)
      · exact ⟨[], u, votes, rfl, ⟨List.nodup_nil, by simp⟩, by simp, h⟩
      · have hnew : ∀ x ∈ pre, x.1 ∉ used ∧ x.1 ≠ u.1 := fun x hx =>
          ⟨fun h => hnot x hx (List.mem_cons_of_mem _ h), fun h => hnot x hx
            (h ▸ List.mem_cons_self)⟩
        refine ⟨u :: pre, v, post, rfl, ⟨List.nodup_cons.mpr ⟨?_, hpre.distinct⟩, ?_⟩, ?_, ?_⟩
        · intro hmem
          obtain ⟨x, hx, he⟩ := List.mem_map.mp hmem
          exact (hnew x hx).2 he
        · exact List.forall_mem_cons.mpr ⟨hs, hpre.member⟩
        · exact List.forall_mem_cons.mpr ⟨hu, fun x hx => (hnew x hx).1⟩
        · refine he.congr fun x => ?_
          simp only [List.map_cons, List.mem_append, List.mem_cons]
          tauto
    · rintro ⟨pre, v, post, hv, hpre, hnot, he⟩
      cases pre with
      | nil =>
        obtain ⟨rfl, rfl⟩ := List.cons.inj hv
        exact .inl he
      | cons x pre =>
        obtain ⟨rfl, rfl⟩ := List.cons.inj hv
        obtain ⟨hx, hdistinct⟩ := List.nodup_cons.mp hpre.distinct
        obtain ⟨hs, hmember⟩ := List.forall_mem_cons.mp hpre.member
        obtain ⟨hu, hnot⟩ := List.forall_mem_cons.mp hnot
        refine .inr ⟨hu, hs, pre, v, post, rfl, ⟨hdistinct, hmember⟩, ?_, ?_⟩
        · intro y hy hmem
          rcases List.mem_cons.mp hmem with h | h
          · exact hx (h ▸ List.mem_map_of_mem hy)
          · exact hnot y hy h
        · refine he.congr fun y => ?_
          simp only [List.map_cons, List.mem_append, List.mem_cons]
          tauto

theorem tally_new_ok : tally c [] 0 votes = .ok w ↔
    Voters c votes ∧ ((votes.map Prod.fst).map c.stake).sum = w := by
  rw [tally_ok]
  constructor
  · rintro ⟨hn, hm, hw⟩
    exact ⟨⟨hn, fun v hv => (hm v hv).2⟩, by omega⟩
  · rintro ⟨hv, hw⟩
    exact ⟨hv.distinct, fun v hm => ⟨List.not_mem_nil, hv.member v hm⟩, by omega⟩

/-- The weight that the loop adds up stays within the stake of the committee, so within `u32`. -/
theorem Voters.stake_le (h : Voters c votes) :
    ((votes.map Prod.fst).map c.stake).sum ≤ c.total := by
  rw [← List.sum_toFinset _ h.distinct, ← Committee.stakeOf_names]
  refine Committee.stakeOf_mono fun k hk => ?_
  obtain ⟨v, hv, rfl⟩ := List.mem_map.mp (List.mem_toFinset.mp hk)
  exact Committee.mem_names_of_stake_pos (h.member v hv)

theorem checkBatch_error {d : Digest} : checkBatch d votes = .error e ↔
    (∃ v ∈ votes, Crypto.verify v.2 d v.1 = false) ∧ .InvalidSignature = e := by
  rw [checkBatch, ensure_error, verifyBatch, List.all_eq_true]
  simp only [not_forall, exists_prop, Bool.not_eq_true]

theorem verify_error {q : QC} : q.verify c = .error e ↔ q.Fault c e := by
  rw [verify, check_bind_error]
  simp only [tally_new_ok, check_seq_error, ensure_error, ensure_ok, checkBatch_error]
  constructor
  · rintro (h | ⟨w, ⟨hv, rfl⟩, ⟨hq, rfl⟩ | ⟨hq, ⟨v, hm, hs⟩, rfl⟩⟩)
    · obtain ⟨pre, v, post, hvotes, hpre, -, he⟩ := tally_error.mp h
      exact .voter hvotes hpre (by simpa using he)
    · exact .quorum hv (Nat.lt_of_not_le hq)
    · exact .signature hv hq hm hs
  · intro h
    cases h with
    | voter hvotes hpre he =>
      exact .inl (tally_error.mpr ⟨_, _, _, hvotes, hpre, fun _ _ => List.not_mem_nil,
        by simpa using he⟩)
    | quorum hv hq => exact .inr ⟨_, ⟨hv, rfl⟩, .inl ⟨Nat.not_le.mpr hq, rfl⟩⟩
    | signature hv hq hm hs => exact .inr ⟨_, ⟨hv, rfl⟩, .inr ⟨hq, ⟨_, hm, hs⟩, rfl⟩⟩

/-- A certificate is accepted if and only if it is backed, and the error names what is wrong with
it, which is the first offending voter if there is one. -/
theorem verify_exact (c : Committee) (q : QC) :
    (q.verify c = .ok () ↔ q.Backed c) ∧ ∀ e, q.verify c = .error e ↔ q.Fault c e :=
  ⟨verify_iff, fun _ => verify_error⟩

end QC

end Faults

end Ipotane
