import Ipotane.Coins
import Ipotane.Passive
import Ipotane.Mempool

/-! Keys that are not in the committee, and the lookups that panic on them. -/
namespace Ipotane

open Lib Handler

section Strangers

variable [Crypto]

theorem SMVBARandomCoinMaker.leader_mem {c : Committee} {shares : List RandomnessShare}
    {k : PublicKey} (h : electedLeader c shares = some k) : k ∈ c.sortedNames := by
  unfold electedLeader at h
  obtain ⟨n, -, hn⟩ := Option.bind_eq_some_iff.mp h
  exact List.mem_of_getElem? hn

namespace Core

variable {cfg : Config} {s t : Core}

/-- The names in the messages that are not checked before they are looked up: the author of a
proposal, and what a node that verifies nothing takes unseen. -/
def Acquainted (cfg : Config) : ℕ × Event → Prop
  | (e, .receive (.HsPropose b)) | (e, .receive (.SyncReply b)) =>
    b.epoch = e → b.author ∈ cfg.committee.sortedNames
  | (_, .receive (.SPBDoneAndShare m)) =>
    cfg.parameters.exp ≠ 1 → m.share.author ∈ cfg.committee.sortedNames
  | (_, .suspend b tag) =>
    tag = FALLBACK → cfg.parameters.exp ≠ 1 → b.author ∈ cfg.committee.sortedNames
  | _ => True

instance (x : ℕ × Event) : Decidable (Acquainted cfg x) := by
  obtain ⟨_, x⟩ := x
  unfold Acquainted
  rcases x
  case receive m => rcases m <;> infer_instance
  all_goals infer_instance

/-- The names that the record of a node tells of. -/
def Introduced (cfg : Config) : Event → Prop
  | .sign (.share x) => x.author ∈ cfg.committee.sortedNames
  | .sign (.done m) | .send (.SPBDoneAndShare m) _ _ | .keep (.SPBDoneAndShare m) =>
    m.share.author ∈ cfg.committee.sortedNames
  | .coin c => c.leader ∈ cfg.committee.sortedNames
  | .halted m => m.value.block.author ∈ cfg.committee.sortedNames
  | .suspend b tag => tag ≠ FALLBACK ∨ cfg.parameters.exp = 1 → b.author ∈ cfg.committee.sortedNames
  | _ => True

structure AcquaintedInv (cfg : Config) (s : Core) : Prop where
  kept : s.Kept
  record : ∀ x ∈ s.trace, Introduced cfg x.2
  shares : ∀ key : ℕ × ℕ, ∀ x ∈ s.coinShares key, x.author ∈ cfg.committee.sortedNames

theorem Issues.introduced (hs : AcquaintedInv cfg s) {m : ConsensusMessage} (h : s.Issues cfg m)
    (dest : Option PublicKey) (tag : ℕ) : Introduced cfg (.send m dest tag) ∧
    Introduced cfg (.keep m) := by
  cases m with
  | SPBDoneAndShare m =>
    have hm := hs.record _ h
    exact ⟨hm, hm⟩
  | _ => exact ⟨trivial, trivial⟩

theorem OptLog.introduced {y : Event} (h : s.OptLog cfg y) : Introduced cfg y := by
  unfold OptLog at h
  split at h
  case h_8 =>
    intro _
    exact Committee.mem_sortedNames_of_stake_pos (Block.verify_ok h.1.vetted.verified).1
  all_goals trivial

theorem PesLog.introduced (hs : AcquaintedInv cfg s) (hn : cfg.name ∈ cfg.committee.sortedNames)
    {y : Event} (h : s.PesLog cfg y) : Introduced cfg y := by
  unfold PesLog at h
  split at h
  case h_4 x =>
    obtain ⟨-, -, hx⟩ := h
    rw [hx]
    exact hn
  case h_5 m =>
    have hm := hs.record _ h.2.2.1
    exact hm
  case h_8 => exact (h.1.introduced hs _ _).1
  case h_9 => exact (h.1.introduced hs none 0).2
  case h_10 =>
    rcases h with ⟨rfl, -, hv⟩ | ⟨-, m, hm, rfl⟩
    · rintro (hne | he)
      · exact absurd rfl hne
      · exact Committee.mem_sortedNames_of_stake_pos (Block.verify_ok (hv he)).1
    · exact fun _ => hs.record _ hm
  all_goals trivial

theorem Records.introduced (hs : AcquaintedInv cfg s) (hn : cfg.name ∈ cfg.committee.sortedNames)
    {y : Event} (h : Records cfg s t y) : Introduced cfg y := by
  cases h with
  | opt h => exact h.introduced
  | pes _ h => exact h.introduced hs hn
  | coin _ _ _ _ _ hl _ => exact SMVBARandomCoinMaker.leader_mem hl
  | halted _ _ hl _ _ =>
    obtain ⟨c, hc, hleader⟩ := Option.map_eq_some_iff.mp hl
    have hcoin := hs.record _ (hs.kept.coins _ c hc).1
    have hmem : c.leader ∈ cfg.committee.sortedNames := hcoin
    rw [hleader] at hmem
    exact hmem
  | _ => trivial

/-- A share that is counted is of a member. -/
theorem AcquaintedInv.counted (hs : AcquaintedInv cfg s) (hc : ∀ x ∈ s.trace, Acquainted cfg x)
    {x : RandomnessShare} (h : ∃ m, s.Hears (.SPBDoneAndShare m) ∧ m.share = x)
    (hv : cfg.parameters.exp = 1 → x.verify cfg.committee = .ok ()) :
    x.author ∈ cfg.committee.sortedNames := by
  obtain ⟨m, hm, rfl⟩ := h
  rcases hm with hm | ⟨tag, hm⟩ | hm
  · by_cases he : cfg.parameters.exp = 1
    · have hver := hv he
      unfold RandomnessShare.verify at hver
      rw [check_seq, ensure_ok] at hver
      exact Committee.mem_sortedNames_of_stake_pos hver.1
    · exact hc _ hm he
  · exact hs.record _ hm
  · exact hs.record _ hm

theorem AcquaintedInv.step (hs : AcquaintedInv cfg s) (hn : cfg.name ∈ cfg.committee.sortedNames)
    (hc : ∀ x ∈ s.trace, Acquainted cfg x) (h : Step cfg s t) : AcquaintedInv cfg t := by
  refine ⟨hs.kept.step h, ?_, ?_⟩
  · intro x hx
    rcases h.recorded hx with hx | ⟨-, hr⟩
    · exact hs.record x hx
    · exact hr.introduced hs hn
  · intro key x hx
    rcases h.coinShares hx with hx | hx
    · exact hs.shares key x hx
    · exact hs.counted hc hx.heard hx.checked

theorem AcquaintedInv.take (hs : AcquaintedInv cfg s) (m : ConsensusMessage) :
    AcquaintedInv cfg (s.log (.receive m)) := by
  refine ⟨hs.kept.take m, ?_, hs.shares⟩
  intro x hx
  rcases List.mem_cons.mp hx with rfl | hx
  · trivial
  · exact hs.record x hx

theorem AcquaintedInv.renewed (hs : AcquaintedInv cfg s) : AcquaintedInv cfg s.renewed := by
  refine ⟨hs.kept.renewed, ?_, ?_⟩
  · intro x hx
    rcases mem_renewed_trace hx with hx | rfl | ⟨m, rfl, -, -⟩
    · exact hs.record x hx
    · trivial
    · trivial
  · intro key x hx
    obtain ⟨marks, rest, heq, -, -⟩ := renewed_eq s
    rw [heq] at hx
    cases hx

theorem AcquaintedInv.new : AcquaintedInv cfg .new := by
  refine ⟨.new, ?_, ?_⟩
  · intro x hx
    cases List.mem_singleton.mp hx
    trivial
  · intro key x hx
    cases hx

end Core

/-! ### The synchronizer of the mempool -/

namespace Mempool

variable {cfg : MempoolConfig} {m t : Mempool}

end Mempool

end Strangers

/-! ### A proposal of a stranger -/

end Ipotane
