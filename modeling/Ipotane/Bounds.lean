import Ipotane.Cluster

/-! The sums and differences that the handlers form. -/
namespace Ipotane

open Lib

section Bounds

variable [Crypto]

/-- The sums formed of a message are numbers of 64 bits, and a block after the second height is
processed by a node that is at the second height or after it. -/
def Bounded (cfg : Config) (x : ℕ × Event) : Prop :=
  match x.2 with
  | .receive m | .keep m | .send m none _ => ∀ n ∈ m.sums x.1, n < 2 ^ 64
  | .process b height => cfg.pesPath = true → 2 < b.height → 2 ≤ height
  | _ => True

instance (cfg : Config) (x : ℕ × Event) : Decidable (Bounded cfg x) := by
  obtain ⟨e, x⟩ := x
  cases x with
  | receive m | keep m => exact inferInstanceAs (Decidable (∀ n ∈ m.sums e, n < 2 ^ 64))
  | send m dest tag =>
    cases dest with
    | none => exact inferInstanceAs (Decidable (∀ n ∈ m.sums e, n < 2 ^ 64))
    | some k => exact .isTrue trivial
  | process b height =>
    exact inferInstanceAs (Decidable (cfg.pesPath = true → 2 < b.height → 2 ≤ height))
  | _ => exact .isTrue trivial

variable {cfg : Config}

namespace Core

variable {s t : Core} {alive : Bool}

/-- The heights of a block that is worked on are those of a message. -/
def Drawn (s : Core) : ℕ × Event → Prop
  | (e, .sign (.block b)) | (e, .send (.HsPropose b) _ _) => b.epoch = e
  | (e, .process b _) => ∃ m, s.Heard e m ∧ b.height + 1 ∈ m.sums e ∧ b.qc.height + 1 ∈ m.sums e
  | (e, .store b) => ∃ m n, s.Heard e m ∧ n ∈ m.sums e ∧ b.height + 1 ≤ n
  | (e, .halted m) => s.Heard e (.SMVBAHalt m)
  | _ => True

theorem Drawn.mono {y : ℕ × Event} (h : s.Drawn y) (ht : s.trace ⊆ t.trace) : t.Drawn y := by
  unfold Drawn at *
  split at h
  · exact h
  · exact h
  · obtain ⟨m, hm, hn⟩ := h
    exact ⟨m, hm.mono ht, hn⟩
  · obtain ⟨m, n, hm, hn⟩ := h
    exact ⟨m, n, hm.mono ht, hn⟩
  · exact h.mono ht
  · trivial

theorem Admits.drawn {b : Block} (hs : ∀ y ∈ s.trace, s.Drawn y) (h : Admits cfg s b) :
    ∃ m, s.Hears m ∧ b.height + 1 ∈ m.sums s.epoch ∧ b.qc.height + 1 ∈ m.sums s.epoch := by
  have hin : ∀ {l : List ℕ}, l = [b.height + 1, b.qc.height + 1] →
      b.height + 1 ∈ l ∧ b.qc.height + 1 ∈ l := by
    rintro l rfl
    simp
  cases h with
  | own h => exact ⟨_, .inr (.inl ⟨_, h⟩), hin (if_pos (hs _ h))⟩
  | proposal h =>
    rcases h.received with hr | hr
    · exact ⟨_, .inl hr, hin (if_pos h.epoch)⟩
    · exact ⟨_, .inl hr, hin (if_pos h.epoch)⟩
  | loopback h => exact ⟨_, .inl h, hin rfl⟩

/-- The height of an output is that of a message. -/
theorem Output.drawn {b : Block} (hs : ∀ y ∈ s.trace, s.Drawn y) (h : s.Output b)
    (he : s.epoch ≤ b.epoch) : ∃ m, s.Hears m ∧ b.height + 2 ∈ m.sums s.epoch := by
  rcases h with ⟨m, hm, rfl⟩ | h
  · exact ⟨_, hs _ hm, by simp [ConsensusMessage.sums, he]⟩
  · exact ⟨_, .inl h, by simp [ConsensusMessage.sums, he]⟩

theorem Fallen.drawn {b : Block} (h : s.Fallen b) :
    ∃ m, s.Hears m ∧ b.height + 2 ∈ m.sums s.epoch := by
  rcases h.hears with h | h
  · exact ⟨_, h, List.mem_cons_self⟩
  · exact ⟨_, h, List.mem_cons_self⟩

theorem OptLog.drawn (hs : ∀ y ∈ s.trace, s.Drawn y) {y : Event} (h : s.OptLog cfg y) :
    s.Drawn (s.epoch, y) := by
  unfold OptLog at h
  split at h
  case h_1 =>
    obtain ⟨payload, rfl⟩ := h
    rfl
  case h_2 =>
    have hsigned := hs _ h.1
    exact hsigned
  case h_7 => exact h.1.drawn hs
  all_goals trivial

theorem PesLog.drawn {y : Event} (h : s.PesLog cfg y) : s.Drawn (s.epoch, y) := by
  unfold PesLog at h
  split at h
  case h_1 => exact h.1.epoch
  case h_8 m _ _ =>
    obtain ⟨h, -, -⟩ := h
    cases m with
    | HsPropose _ => exact h.elim
    | _ => trivial
  all_goals trivial

theorem Records.drawn (hs : ∀ y ∈ s.trace, s.Drawn y) {y : Event} (h : Records cfg s t y) :
    s.Drawn (s.epoch, y) := by
  cases h with
  | opt h => exact h.drawn hs
  | pes _ h => exact h.drawn
  | store hp _ _ _ =>
    obtain ⟨m, hm, hn, -⟩ := hs _ hp
    exact ⟨m, _, hm, hn, le_rfl⟩
  | @pesStore b _ h hf _ _ =>
    have hdrawn : ∃ m, s.Hears m ∧ b.height + 2 ∈ m.sums s.epoch := by
      cases h with
      | fallen h => exact h.drawn
      | output h _ => exact h.drawn hs hf.1
    obtain ⟨m, hm, hn⟩ := hdrawn
    exact ⟨m, _, hm, hn, by omega⟩
  | fork _ hb _ _ _ _ => exact hb.epoch
  | halted _ h _ _ _ => exact h.hears
  | _ => trivial

theorem Reachable.drawn (h : Reachable cfg s alive) : ∀ y ∈ s.trace, s.Drawn y := by
  refine h.caused (fun ht hy => hy.mono ht) (fun hs hr => hr.drawn hs) ?_
  intro u e y hy
  cases y <;> first | trivial | exact absurd trivial hy

theorem Heard.bounded {e n : ℕ} {m : ConsensusMessage} (hc : ∀ x ∈ s.trace, Bounded cfg x)
    (h : s.Heard e m) (hn : n ∈ m.sums e) : n < 2 ^ 64 := by
  rcases h with h | ⟨tag, h⟩ | h
  · exact hc _ h n hn
  · exact hc _ h n hn
  · exact hc _ h n hn

end Core

end Bounds

end Ipotane
