import Ipotane.Core.Run

/-! The operations that only look at the state: what they return. -/
namespace Ipotane.Core

open Lib Handler

variable [Crypto] {cfg : Config} {s t : Core} {a b n epoch height : ℕ}

theorem reads_ensureM (p : Prop) [Decidable p] (e : ConsensusError) : Reads (ensureM p e) :=
  reads_ite (reads_pure ()) (reads_fail e)

theorem looks_ensureM (p : Prop) [Decidable p] (e : ConsensusError) : Looks (ensureM p e) :=
  looks_ite_fail e

theorem ensureM_ok {p : Prop} [Decidable p] {e : ConsensusError} {u : Unit}
    (h : ensureM p e s = (.ok u, t)) : p := by
  unfold ensureM at h
  split at h
  · assumption
  · cases h

theorem reads_add (a b : ℕ) : Reads (add a b) := reads_ite (reads_pure _) (reads_crash _)

theorem add_ok (h : add a b s = (.ok n, t)) : n = a + b ∧ a + b < 2 ^ 64 := by
  unfold add at h
  split at h
  · cases h
    exact ⟨rfl, by assumption⟩
  · cases h

theorem add_run (h : a + b < 2 ^ 64) : add a b s = (.ok (a + b), s) := by
  unfold add
  rw [if_pos h]
  rfl

theorem add_panic {p : Panic} (h : add a b s = (.panic p, t)) : p = .overflow ∧ 2 ^ 64 ≤ a + b := by
  unfold add at h
  split at h
  · cases h
  · cases h
    exact ⟨rfl, by omega⟩

theorem reads_sub (a b : ℕ) : Reads (sub a b) := reads_ite (reads_pure _) (reads_crash _)

theorem sub_ok (h : sub a b s = (.ok n, t)) : n = a - b ∧ b ≤ a := by
  unfold sub at h
  split at h
  · cases h
    exact ⟨rfl, by assumption⟩
  · cases h

theorem sub_panic {p : Panic} (h : sub a b s = (.panic p, t)) : p = .overflow ∧ a < b := by
  unfold sub at h
  split at h
  · cases h
  · cases h
    exact ⟨rfl, by omega⟩

theorem reads_indexAsLeader (name : PublicKey) (height : ℕ) :
    Reads (indexAsLeader cfg name height) :=
  reads_ite (reads_pure _) (reads_crash _)

theorem indexAsLeader_ok {name : PublicKey} {idx : Option ℕ}
    (h : indexAsLeader cfg name height s = (.ok idx, t)) :
    name ∈ cfg.committee.sortedNames ∧
      idx = cfg.committee.indexAsLeader cfg.parameters.leaderWindow name height := by
  unfold indexAsLeader at h
  split at h
  · cases h
    exact ⟨by assumption, rfl⟩
  · cases h

theorem indexAsLeader_panic {name : PublicKey} {p : Panic}
    (h : indexAsLeader cfg name height s = (.panic p, t)) :
    p = .unknownKey ∧ name ∉ cfg.committee.sortedNames := by
  unfold indexAsLeader at h
  split at h
  · cases h
  · cases h
    exact ⟨rfl, by assumption⟩

/-- A message of `epoch` and `height` that the filters let through. -/
def Fresh (s : Core) (epoch height : ℕ) : Prop :=
  s.epoch ≤ epoch ∧ s.height < height + 2

theorem reads_fallbackMessageFilter : Reads (fallbackMessageFilter epoch height) :=
  reads_bind reads_self fun _ => reads_bind (reads_add _ _) fun _ => reads_pure _

theorem fallbackMessageFilter_ok {fresh : Bool}
    (h : fallbackMessageFilter epoch height s = (.ok fresh, s)) :
    fresh = true ↔ s.Fresh epoch height := by
  obtain ⟨s₁, t₁, h₁, h⟩ := bind_ok h
  obtain ⟨n, t₂, h₂, h⟩ := bind_ok h
  cases h₁
  obtain ⟨rfl, _⟩ := add_ok h₂
  cases h
  simp only [decide_eq_true_eq, Fresh]
  omega

theorem fallbackMessageFilter_panic {p : Panic}
    (h : fallbackMessageFilter epoch height s = (.panic p, t)) : p = .overflow ∧
    2 ^ 64 ≤ height + 2 := by
  rcases bind_panic h with h | ⟨s₁, t₁, h₁, h⟩
  · cases h
  · rcases bind_panic h with h | ⟨n, t₂, h₂, h⟩
    · exact add_panic h
    · cases h

theorem reads_smvbaMsgFilter : Reads (smvbaMsgFilter epoch height) :=
  reads_bind reads_self fun _ =>
    reads_ite (reads_pure _) (reads_bind (reads_add _ _) fun _ => reads_pure _)

theorem smvbaMsgFilter_ok {fresh : Bool} (h : smvbaMsgFilter epoch height s = (.ok fresh, s)) :
    fresh = true ↔ s.Fresh epoch height := by
  obtain ⟨s₁, t₁, h₁, h⟩ := bind_ok h
  cases h₁
  split at h
  · cases h
    simp only [Fresh, Bool.false_eq_true, false_iff]
    omega
  · obtain ⟨n, t₂, h₂, h⟩ := bind_ok h
    obtain ⟨rfl, _⟩ := add_ok h₂
    cases h
    simp only [decide_eq_true_eq, Fresh]
    omega

theorem smvbaMsgFilter_panic {p : Panic} (h : smvbaMsgFilter epoch height s = (.panic p, t)) :
    p = .overflow ∧ s.epoch ≤ epoch ∧ 2 ^ 64 ≤ height + 2 := by
  rcases bind_panic h with h | ⟨s₁, t₁, h₁, h⟩
  · cases h
  · cases h₁
    split at h
    · cases h
    · rename_i he
      rcases bind_panic h with h | ⟨n, t₂, h₂, h⟩
      · obtain ⟨rfl, hb⟩ := add_panic h
        exact ⟨rfl, Nat.le_of_not_lt he, hb⟩
      · cases h

end Ipotane.Core
