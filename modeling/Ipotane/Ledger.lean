import Ipotane.Hotstuff
import Ipotane.Lib.History
import Ipotane.Replay
import Ipotane.Signers

/-! The blocks that the two-chain HotStuff commits. -/
namespace Ipotane

open Lib Handler

section Ledger

variable [Crypto]

def Event.committed : Event → Option Block
  | commit b _ => some b
  | _ => none

/-- The blocks that the node has sent on its commit channel, the first one first. -/
def Core.ledger (s : Core) : List Block := s.trace.reverse.filterMap fun x => x.2.committed

/-- Blocks that the nodes have made hash to one digest only if the same bytes are hashed. -/
def HashesApart (σ : Cores) : Prop :=
  ∀ i j b b', (σ i).Ever (.sign (.block b)) → (σ j).Ever (.sign (.block b')) →
    b.digest = b'.digest →
    (SignedMessage.block b).hashed = (SignedMessage.block b').hashed

variable {c : Committee} {σ τ : Cores} {s t : Core} {b p : Block} {q : QC} {k : PublicKey}

theorem HashesApart.earlier (h : HashesApart τ) (hl : Later σ τ) : HashesApart σ := by
  rintro i j b b' ⟨e, hb⟩ ⟨e', hb'⟩
  exact h i j b b' ⟨e, (hl i).subset hb⟩ ⟨e', (hl j).subset hb'⟩

theorem HashesApart.sameCovered (h : HashesApart σ) (hb : b.Founded σ) (hp : p.Founded σ)
    (hd : b.digest = p.digest) : SignedMessage.SameCovered (.block b) (.block p) := by
  have hranged : ∀ {b : Block}, b.Founded σ → (SignedMessage.block b).Ranged := by
    intro b hb
    refine ⟨hb.bound, ?_, ?_⟩
    · rw [hb.epoch]
      decide
    · rw [hb.tag]
      decide
  exact SignedMessage.sameCovered_of_hashed (hranged hb) (hranged hp)
    (h _ _ b p ⟨0, hb.signed⟩ ⟨0, hp.signed⟩ hd)

/-! ### Certificates -/

/-- Behind a certificate there is a quorum of members. -/
theorem QC.TallyOf.voters {P : HVote → Prop} (h : q.TallyOf c P) :
    ∃ A : Finset PublicKey, A ⊆ c.names ∧ c.quorumThreshold ≤ c.stakeOf A ∧
      ∀ k ∈ A, ∃ v, P v ∧ v.author = k := by
  obtain ⟨l, v, hall, hc, -⟩ := h
  refine ⟨((counted HVote.author l ++ [v]).map HVote.author).toFinset ∩ c.names,
    Finset.inter_subset_right, ?_, ?_⟩
  · rw [stakeOf_inter_names, Committee.stakeOf, List.sum_toFinset _ hc.nodup]
    exact hc.threshold_le
  · intro k hk
    obtain ⟨u, hu, rfl⟩ := List.mem_map.mp (List.mem_toFinset.mp (Finset.mem_inter.mp hk).1)
    refine ⟨u, hall u ?_, rfl⟩
    rcases List.mem_append.mp hu with hu | hu
    · exact List.mem_append_left _ (mem_of_mem_counted hu)
    · exact List.mem_append_right _ hu

theorem QC.TallyOf.overlap {q' : QC} {P P' : HVote → Prop} (hn : c.total % 3 = 1)
    (h : q.TallyOf c P) (h' : q'.TallyOf c P') : ∃ v v', P v ∧ P' v' ∧ v.author = v'.author := by
  obtain ⟨A, hA, hqA, hall⟩ := h.voters
  obtain ⟨B, hB, hqB, hall'⟩ := h'.voters
  have hcommon := Committee.quorum_overlap hn hA hB hqA hqB
  obtain ⟨k, hk, -⟩ := Finset.exists_ne_zero_of_sum_ne_zero
    (Nat.ne_of_gt (Nat.zero_lt_of_lt hcommon))
  obtain ⟨v, hv, rfl⟩ := hall k (Finset.mem_inter.mp hk).1
  obtain ⟨v', hv', heq⟩ := hall' _ (Finset.mem_inter.mp hk).2
  exact ⟨v, v', hv, hv', heq.symm⟩

/-- A certificate that is not for the genesis block is for a block of its height. -/
theorem QC.Collected.block (hs : ∀ k, Trusty c σ (σ k)) (hq : q.Collected σ) (hg : ¬ q.isGenesis) :
    ∃ b : Block, b.Founded σ ∧ b.digest = q.hash ∧ b.height = q.height := by
  rcases hq with rfl | ⟨k, hq⟩
  · exact absurd ⟨rfl, rfl, rfl, rfl⟩ hg
  · obtain ⟨l, v, hall, -, -⟩ := (hs k).tallies q hq
    obtain ⟨hkey, -, b, hv, hb⟩ := hall v (List.mem_append_right _ (List.mem_singleton_self v))
    cases Prod.mk.inj hkey with
    | intro hh hd =>
      rw [hv] at hh hd
      exact ⟨b, hb, hd, hh⟩

theorem Block.Founded.genesis_height (hb : b.Founded σ) (hg : b.qc.isGenesis) : b.height = 1 := by
  rw [hb.height, hg.2.1]
  rfl

/-- The parent of a block is one height below it. -/
theorem Block.Founded.parent_height (hs : ∀ k, Trusty c σ (σ k)) (hd : HashesApart σ)
    (hb : b.Founded σ)
    (hp : ∀ p, s.Ever (.store p) → p.Founded σ) (h : s.Parent b p) : p.height + 1 = b.height := by
  rcases h with ⟨hg, rfl⟩ | ⟨hg, heq, hst⟩
  · rw [hb.genesis_height hg]
    rfl
  · obtain ⟨b', hb', hd', hh⟩ := hb.qc.block hs hg
    have hsame := hd.sameCovered (hp p hst) hb' (heq.trans hd'.symm)
    have hph : p.height = b'.height := hsame.2.1
    rw [hph, hh]
    exact hb.height.symm

/-! ### One step -/

namespace Core

variable {cfg : Config} {x : ℕ × Event} {new : List (ℕ × Event)}

theorem mem_ledger : b ∈ s.ledger ↔ ∃ e rule, (e, .commit b rule) ∈ s.trace := by
  constructor
  · intro h
    obtain ⟨⟨e, y⟩, hx, hy⟩ := List.mem_filterMap.mp h
    cases y with
    | commit b' rule =>
      cases hy
      exact ⟨e, rule, List.mem_reverse.mp hx⟩
    | _ => cases hy
  · rintro ⟨e, rule, hx⟩
    exact List.mem_filterMap.mpr ⟨_, List.mem_reverse.mpr hx, rfl⟩

/-- Neither a block that is stored nor one that is committed comes on record. -/
structure KeepsLedger (s t : Core) : Prop where
  last : t.lastCommittedHeight = s.lastCommittedHeight
  record : ∃ new, t.trace = new ++ s.trace ∧
    ∀ x ∈ new, x.2.committed = none ∧ ∀ b, x.2 ≠ .store b

theorem ledger_of_append (h : t.trace = new ++ s.trace) (hn : ∀ x ∈ new, x.2.committed = none) :
    t.ledger = s.ledger := by
  have hnil : new.reverse.filterMap (fun x => x.2.committed) = [] :=
    List.filterMap_eq_nil_iff.mpr fun x hx => hn x (List.mem_reverse.mp hx)
  unfold ledger
  rw [h, List.reverse_append, List.filterMap_append, hnil, List.append_nil]

theorem KeepsLedger.ledger (h : KeepsLedger s t) : t.ledger = s.ledger := by
  obtain ⟨new, heq, hnew⟩ := h.record
  exact ledger_of_append heq fun x hx => (hnew x hx).1

theorem KeepsLedger.stored (h : KeepsLedger s t) (hb : t.Ever (.store b)) : s.Ever (.store b) := by
  obtain ⟨new, heq, hnew⟩ := h.record
  obtain ⟨e, hb⟩ := hb
  rw [heq] at hb
  rcases List.mem_append.mp hb with hb | hb
  · exact absurd rfl ((hnew _ hb).2 b)
  · exact ⟨e, hb⟩

theorem keepsLedger_same (hl : t.lastCommittedHeight = s.lastCommittedHeight)
    (ht : t.trace = s.trace) : KeepsLedger s t :=
  ⟨hl, [], ht, fun _ hx => (nomatch hx)⟩

theorem keepsLedger_cons {e : ℕ} {y : Event} (hl : t.lastCommittedHeight = s.lastCommittedHeight)
    (ht : t.trace = (e, y) :: s.trace) (hc : y.committed = none) (hs : ∀ b, y ≠ .store b) :
    KeepsLedger s t := by
  refine ⟨hl, [(e, y)], ht, ?_⟩
  exact List.forall_mem_singleton.mpr ⟨hc, hs⟩

theorem KeepsLedger.trans {u : Core} (h : KeepsLedger s t) (h' : KeepsLedger t u) :
    KeepsLedger s u := by
  obtain ⟨new, heq, hnew⟩ := h.record
  obtain ⟨new', heq', hnew'⟩ := h'.record
  refine ⟨h'.last.trans h.last, new' ++ new, by rw [heq', heq, List.append_assoc], ?_⟩
  intro x hx
  rcases List.mem_append.mp hx with hx | hx
  · exact hnew' x hx
  · exact hnew x hx

theorem keepsLedger_adopt (s : Core) (qc : QC) : KeepsLedger s (s.adopt qc) := by
  have hl : (s.adopt qc).lastCommittedHeight = s.lastCommittedHeight := by
    unfold adopt updateHighQc
    split <;> split <;> rfl
  rcases adopt_trace s qc with ht | ⟨-, ht⟩
  · exact keepsLedger_same hl ht
  · exact keepsLedger_cons hl ht rfl nofun

theorem keepsLedger_cleanFor (s : Core) (cfg : Config) (b : Block) :
    KeepsLedger s (s.cleanFor cfg b) := by
  unfold cleanFor
  split
  · exact keepsLedger_cons rfl rfl rfl nofun
  · exact keepsLedger_same rfl rfl

theorem OptLog.keepsLedger {y : Event} (h : s.OptLog cfg y) : y.committed = none ∧
    ∀ b, y ≠ .store b := by
  cases y with
  | commit _ _ => exact h.elim
  | store _ => exact h.elim
  | _ => exact ⟨rfl, nofun⟩

/-- What a step of this mode stores and commits. -/
inductive Settling (s t : Core) : Prop
  | keep (h : KeepsLedger s t)
  | broken {b b1 b0 : Block} (hp : s.Did (.process b s.height)) (h1 : s.Parent b b1)
      (h0 : s.Parent b1 b0)
      (hc : ¬ Consecutive b0 b1 b)
  | settle {b b1 b0 : Block} {marks : List (ℕ × Event)} (hp : s.Did (.process b s.height))
      (h1 : s.Parent b b1) (h0 : s.Parent b1 b0) (hm : ∀ x ∈ marks, (s.insertBlock b).Tidy x.2)
      (ht : t = s.settle b b1 b0 marks)
  | late {b b1 b0 : Block} (hs : s.Did (.store b)) (h1 : s.Parent b b1) (h0 : s.Parent b1 b0)
      (hc : Consecutive b0 b1 b) (hl : s.lastCommittedHeight < b0.height)

theorem OptStep.settling (hm : cfg.pesPath = false) (h : OptStep cfg s t) : Settling s t := by
  cases h with
  | quiet h => exact .keep (keepsLedger_same h.lastCommittedHeight h.trace)
  | log h => exact .keep (keepsLedger_cons rfl rfl h.keepsLedger.1 h.keepsLedger.2)
  | @vote b _ _ _ _ _ =>
    have hmid : KeepsLedger s (s.log (.endorse b)) := keepsLedger_cons rfl rfl rfl nofun
    exact .keep (hmid.trans (keepsLedger_cons rfl rfl rfl nofun))
  | @proposal b _ _ _ => exact .keep ((keepsLedger_cleanFor s cfg b).trans (keepsLedger_adopt _ _))
  | @overflow b _ _ => exact .keep (keepsLedger_cleanFor s cfg b)
  | adopt _ _ _ _ _ => exact .keep (keepsLedger_adopt _ _)
  | arm _ => exact .keep (keepsLedger_cons rfl rfl rfl nofun)
  | buffer _ _ => exact .keep (keepsLedger_same rfl rfl)
  | countVote _ _ _ _ _ =>
    refine .keep ⟨?_, _, collect_trace _ _, ?_⟩
    · unfold collect
      split <;> rfl
    · intro x hx
      obtain ⟨q, -, rfl⟩ := List.mem_map.mp hx
      exact ⟨rfl, nofun⟩
  | store hp h1 h0 hc =>
    refine .broken hp h1 h0 (hc.resolve_left ?_)
    rw [hm]
    decide
  | settle hp h1 h0 _ _ ht => exact .settle hp h1 h0 (fun x hx => (ht x hx).2) rfl
  | commit _ hs h1 h0 hc hl => exact .late hs h1 h0 hc hl

end Core

/-! ### Blocks and their grandparents -/

/-- The blocks of three successive heights, or the first ones. -/
inductive Ancestry (σ : Cores) (s : Core) (b b1 b0 : Block) : Prop
  | first (hb : b.height = 1) (hg : b.qc.isGenesis) (h1 : b1 = .genesis) (h0 : b0 = .genesis)
  | later (h1 : b1.height + 1 = b.height) (h0 : b0.height + 1 = b1.height) (hs : s.Ever (.store b1))

theorem Block.Founded.ancestry {b1 b0 : Block} (hs : ∀ k, Trusty c σ (σ k)) (hd : HashesApart σ)
    (hb : b.Founded σ) (hp : ∀ p, s.Ever (.store p) → p.Founded σ) (h1 : s.Parent b b1)
    (h0 : s.Parent b1 b0) : Ancestry σ s b b1 b0 := by
  have hh1 := hb.parent_height hs hd hp h1
  rcases h1 with ⟨hg, rfl⟩ | ⟨-, -, hst⟩
  · rcases h0 with ⟨-, rfl⟩ | ⟨hn, -, -⟩
    · exact .first (hb.genesis_height hg) hg rfl rfl
    · exact absurd Core.genesis_isGenesis hn
  · exact .later hh1 ((hp b1 hst).parent_height hs hd hp h0) hst

/-- Nothing is committed out of turn: what is stored is at most two heights ahead. -/
structure Orderly (s : Core) : Prop where
  stored : ∀ b, s.Ever (.store b) → b.height ≤ s.lastCommittedHeight + 2
  heights : s.ledger.map Block.height = List.range' 1 s.lastCommittedHeight
  certified : ∀ b ∈ s.ledger, ∃ b1, s.Ever (.store b1) ∧ s.Parent b1 b ∧ b.height + 1 = b1.height

theorem Orderly.keepsLedger (h : Orderly s) (ht : Core.KeepsLedger s t) (he : Core.Extends s t) :
    Orderly t where
  stored := by
    intro b hb
    rw [ht.last]
    exact h.stored b (ht.stored hb)
  heights := by
    rw [ht.ledger, ht.last]
    exact h.heights
  certified := by
    intro b hb
    rw [ht.ledger] at hb
    obtain ⟨b1, hst, hp, hh⟩ := h.certified b hb
    exact ⟨b1, he.ever hst, he.parent hp, hh⟩

theorem Core.Tidy.plain {y : Event} (h : s.Tidy y) : y.committed = none ∧ ∀ b, y ≠ .store b := by
  rcases h with ⟨b, rfl, -⟩ | ⟨b, rfl, -⟩
  · exact ⟨rfl, nofun⟩
  · exact ⟨rfl, nofun⟩

theorem Core.ledger_commit {e : ℕ} {rule : CommitRule}
    (h : t.trace = (e, .commit b rule) :: s.trace) : t.ledger = s.ledger ++ [b] := by
  unfold ledger
  rw [h, List.reverse_cons, List.filterMap_append]
  rfl

theorem Core.stored_insertBlock (h : (s.insertBlock b).Ever (.store p)) : p = b ∨
    s.Ever (.store p) := by
  obtain ⟨e, h⟩ := h
  rcases List.mem_cons.mp h with h | h
  · cases h
    exact .inl rfl
  · exact .inr ⟨e, h⟩

theorem Core.ledger_insertBlock : (s.insertBlock b).ledger = s.ledger :=
  Core.ledger_of_append (List.singleton_append (l := s.trace)).symm
    (List.forall_mem_singleton.mpr rfl)

theorem Orderly.insertBlock (h : Orderly s) (hb : b.height ≤ s.lastCommittedHeight + 2) :
    Orderly (s.insertBlock b) where
  stored := by
    intro p hp
    rcases Core.stored_insertBlock hp with rfl | hp
    · exact hb
    · exact h.stored p hp
  heights := by
    rw [Core.ledger_insertBlock]
    exact h.heights
  certified := by
    intro p hp
    have hext : Core.Extends s (s.insertBlock b) := Core.extends_cons rfl rfl
    rw [Core.ledger_insertBlock] at hp
    obtain ⟨b1, hst, hpar, hh⟩ := h.certified p hp
    exact ⟨b1, hext.ever hst, hext.parent hpar, hh⟩

/-- The next block is committed, two heights below the one that is stored. -/
theorem Orderly.commitNext {b1 b0 : Block} {marks : List (ℕ × Event)} (h : Orderly s)
    (hb : b.height = s.lastCommittedHeight + 3) (hh : b0.height = s.lastCommittedHeight + 1)
    (hst : s.Ever (.store b1)) (h0 : s.Parent b1 b0) (h1 : b0.height + 1 = b1.height)
    (hm : ∀ x ∈ marks, (s.insertBlock b).Tidy x.2) :
    Orderly (((s.insertBlock b).marked marks).markCommit b0 (.twoChain b1 b)) := by
  have hmarked : Core.KeepsLedger (s.insertBlock b) ((s.insertBlock b).marked marks) :=
    ⟨rfl, marks, rfl, fun x hx => (hm x hx).plain⟩
  have hledger : (((s.insertBlock b).marked marks).markCommit b0 (.twoChain b1 b)).ledger =
      s.ledger ++ [b0] := by
    rw [Core.ledger_commit rfl, hmarked.ledger, Core.ledger_insertBlock]
  have hext : Core.Extends s (((s.insertBlock b).marked marks).markCommit b0 (.twoChain b1 b)) :=
    (Core.extends_cons rfl rfl : Core.Extends s (s.insertBlock b)).trans
      ((Core.extends_marked marks).trans (Core.extends_cons rfl rfl))
  constructor
  · rintro p ⟨e, hp⟩
    change p.height ≤ b0.height + 2
    have hp' : ((s.insertBlock b).marked marks).Ever (.store p) := by
      rcases List.mem_cons.mp hp with hp | hp
      · cases hp
      · exact ⟨e, hp⟩
    rcases Core.stored_insertBlock (hmarked.stored hp') with rfl | hp
    · omega
    · have := h.stored p hp
      omega
  · rw [hledger, List.map_append, h.heights]
    change _ = List.range' 1 b0.height
    rw [hh, List.range'_concat]
    simp [hh, Nat.add_comm]
  · intro p hp
    rw [hledger] at hp
    rcases List.mem_append.mp hp with hp | hp
    · obtain ⟨p1, hst, hpar, hh⟩ := h.certified p hp
      exact ⟨p1, hext.ever hst, hext.parent hpar, hh⟩
    · rw [List.mem_singleton.mp hp]
      exact ⟨b1, hext.ever hst, hext.parent h0, h1⟩

theorem Orderly.settle {b1 b0 : Block} {marks : List (ℕ × Event)} (h : Orderly s)
    (ha : Ancestry σ s b b1 b0) (h0 : s.Parent b1 b0)
    (hm : ∀ x ∈ marks, (s.insertBlock b).Tidy x.2) : Orderly (s.settle b b1 b0 marks) := by
  by_cases hl : b0.height > s.lastCommittedHeight
  · have heq : s.settle b b1 b0 marks =
        ((s.insertBlock b).marked marks).markCommit b0 (.twoChain b1 b) := if_pos hl
    rw [heq]
    cases ha with
    | first _ _ _ hgen =>
      rw [hgen] at hl
      exact absurd hl (Nat.not_lt_zero _)
    | later hh1 hh0 hst =>
      have := h.stored b1 hst
      exact h.commitNext (by omega) (by omega) hst h0 hh0 hm
  · have heq : s.settle b b1 b0 marks = s.insertBlock b := if_neg hl
    rw [heq]
    refine h.insertBlock ?_
    cases ha with
    | first hb _ _ _ => omega
    | later hh1 hh0 _ => omega

/-- Blocks of successive heights pass the test that comes before a commit. -/
theorem Ancestry.consecutive {b1 b0 : Block} (ha : Ancestry σ s b b1 b0) (hb : b.Founded σ) :
    Core.Consecutive b0 b1 b := by
  have hbound := hb.bound
  cases ha with
  | first _ hg h1 h0 =>
    rw [h1, h0]
    exact ⟨(by decide : 0 + 1 < 2 ^ 64), (by decide : 0 + 1 < 2 ^ 64), .inr hg⟩
  | later h1 h0 _ => exact ⟨by omega, by omega, .inl ⟨h0, h1⟩⟩

theorem Orderly.step {cfg : Config} (h : Orderly s) (hpes : cfg.pesPath = false)
    (hs : ∀ k, Trusty c σ (σ k)) (hd : HashesApart σ) (hi : Trusty c σ s)
    (ht : Core.OptStep cfg s t) : Orderly t := by
  have hstored : ∀ p, s.Ever (.store p) → p.Founded σ :=
    fun p hp => hi.shelved.ever hp (List.mem_singleton.mpr rfl)
  have hprocess : ∀ {b : Block} {height : ℕ}, s.Did (.process b height) → b.Founded σ :=
    fun hp => hi.shelved.did hp (List.mem_singleton.mpr rfl)
  cases ht.settling hpes with
  | keep h' => exact h.keepsLedger h' ht.extends
  | broken hp h1 h0 hc =>
    exact absurd (((hprocess hp).ancestry hs hd hstored h1 h0).consecutive (hprocess hp)) hc
  | settle hp h1 h0 hm heq =>
    rw [heq]
    exact h.settle ((hprocess hp).ancestry hs hd hstored h1 h0) h0 hm
  | @late b b1 b0 hst h1 h0 hc hl =>
    -- the block is stored, so its grandparent has been committed
    exfalso
    have := h.stored b hst.ever
    cases (hstored b hst.ever).ancestry hs hd hstored h1 h0 with
    | first _ _ _ hgen =>
      rw [hgen] at hl
      exact absurd hl (Nat.not_lt_zero _)
    | later hh1 hh0 _ => omega

theorem Orderly.new : Orderly .new where
  stored := by
    rintro b ⟨e, hb⟩
    cases List.mem_singleton.mp hb
  heights := rfl
  certified := fun b hb => (nomatch hb)

/-! ### All nodes -/

variable {S : Setup} {w : World}

theorem pointwise_orderly (hS : S.Hotstuff) :
    Pointwise S (fun k => k ∈ S.committee.sortedNames) (fun _ _ => False) (fun _ _ _ => True)
      HashesApart (fun σ _ s => Trusty S.committee σ s ∧ Orderly s) where
  earlier := fun hl hd => hd.earlier hl
  later := fun hl hs => ⟨hs.1.mono hl, hs.2⟩
  start := fun _ => ⟨.new, .new⟩
  take := by
    intro σ i m hi hs _ hm
    have htake : Core.KeepsLedger (σ i) ((σ i).log (.receive m)) :=
      Core.keepsLedger_cons rfl rfl rfl nofun
    exact ⟨(pointwise_trusty hS).take σ i m hi (fun k => (hs k).1) trivial hm,
      (hs i).2.keepsLedger htake (Core.extends_log _)⟩
  turn := by
    intro σ i t hi hs hd ht
    have hn : ¬ (σ i).PesActive (S.config i) := Core.not_pesActive hS.opt hS.pes (hs i).1.kinds
    refine ⟨(pointwise_trusty hS).turn σ i t hi (fun k => (hs k).1) trivial ht, ?_⟩
    exact (hs i).2.step hS.pes (fun k => (hs k).1) (hd.earlier (later_update ht.trace)) (hs i).1
      (ht.optStep (hs i).1 hn)

theorem Setup.Runs.orderly (hS : S.Hotstuff) (h : S.Runs w) (hd : HashesApart w.core)
    (k : PublicKey) : Orderly (w.core k) :=
  ((h.invariant (pointwise_orderly hS).everywhere).2 hd k).2

/-- A node votes for one block of a height at most. -/
theorem Setup.Runs.one_vote (hS : S.Hotstuff) (h : S.Runs w) {v v' : HVote} (hv : v.Stands w.core)
    (hv' : v'.Stands w.core) (ha : v.author = v'.author) (hh : v.height = v'.height) :
    v.hash = v'.hash := by
  have hprompt : ∀ x ∈ (w.core v.author).trace, Core.Prompt x := by
    rintro ⟨e, y⟩ hx
    have hk := h.trusty hS v.author
    unfold Core.Prompt
    split
    · rename_i e' b heq
      cases heq
      exact ((hk.shelved.record _ hx) b (List.mem_singleton.mpr rfl)).epoch.trans
        (hk.kinds _ hx).1.symm
    · trivial
  have honce := ((h.reachable v.author).voteInv hprompt).once
  obtain ⟨hsv, b, hb, hf⟩ := hv
  obtain ⟨hsv', b', hb', hf'⟩ := hv'
  have htag : v.tag = OPT ∧ v.epoch = 0 := by
    rw [hb]
    exact ⟨rfl, hf.epoch⟩
  have htag' : v'.tag = OPT ∧ v'.epoch = 0 := by
    rw [hb']
    exact ⟨rfl, hf'.epoch⟩
  exact honce v v' hsv (ha ▸ hsv') htag.1 htag'.1 (htag.2.trans htag'.2.symm) hh

/-- There is one certified block of a height at most. -/
theorem Setup.Runs.one_certified (hS : S.Hotstuff) (hn : S.committee.total % 3 = 1)
    (h : S.Runs w) {q q' : QC}
    (hq : q.Collected w.core) (hq' : q'.Collected w.core) (hg : ¬ q.isGenesis)
    (hg' : ¬ q'.isGenesis) (hh : q.height = q'.height) : q.hash = q'.hash := by
  rcases hq with rfl | ⟨k, hq⟩
  · exact absurd ⟨rfl, rfl, rfl, rfl⟩ hg
  rcases hq' with rfl | ⟨k', hq'⟩
  · exact absurd ⟨rfl, rfl, rfl, rfl⟩ hg'
  obtain ⟨v, v', ⟨hkey, hv⟩, ⟨hkey', hv'⟩, ha⟩ :=
    ((h.trusty hS k).tallies q hq).overlap hn ((h.trusty hS k').tallies q' hq')
  obtain ⟨hvh, hvd⟩ := Prod.mk.inj hkey
  obtain ⟨hvh', hvd'⟩ := Prod.mk.inj hkey'
  rw [← hvd, ← hvd']
  exact h.one_vote hS hv hv' ha (by rw [hvh, hvh', hh])

/-- There is a certificate for each block that is committed. -/
theorem Setup.Runs.ledger_certified (hS : S.Hotstuff) (h : S.Runs w) (hd : HashesApart w.core)
    {i : PublicKey} (hb : b ∈ (w.core i).ledger) :
    ∃ q : QC, q.Collected w.core ∧ ¬ q.isGenesis ∧ q.hash = b.digest ∧ q.height = b.height := by
  obtain ⟨b1, hst, hp, hb1⟩ := (h.orderly hS hd i).certified b hb
  have hf : b1.Founded w.core := (h.trusty hS i).shelved.ever hst (List.mem_singleton.mpr rfl)
  have hheight := hf.height
  rcases hp with ⟨-, rfl⟩ | ⟨hg, heq, -⟩
  · -- the genesis block is not committed
    have hmem : (0 : ℕ) ∈ (w.core i).ledger.map Block.height := List.mem_map.mpr ⟨_, hb, rfl⟩
    rw [(h.orderly hS hd i).heights] at hmem
    have := List.mem_range'_1.mp hmem
    omega
  · exact ⟨b1.qc, hf.qc, hg, heq.symm, by omega⟩

/-- A block that is committed is the one that the certificates of its height are for. -/
theorem Setup.Runs.certificate_of_ledger (hS : S.Hotstuff) (hn : S.committee.total % 3 = 1)
    (h : S.Runs w)
    (hd : HashesApart w.core) {i : PublicKey} (hb : b ∈ (w.core i).ledger) (hq : q.Collected w.core)
    (hg : ¬ q.isGenesis) (hh : q.height = b.height) : q.hash = b.digest := by
  obtain ⟨q', hq', hg', hhash, hheight⟩ := h.ledger_certified hS hd hb
  rw [← hhash]
  exact h.one_certified hS hn hq hq' hg hg' (hh.trans hheight.symm)

/-- Two committed blocks of one height have one digest. -/
theorem Setup.Runs.one_committed (hS : S.Hotstuff) (hn : S.committee.total % 3 = 1) (h : S.Runs w)
    (hd : HashesApart w.core) {i j : PublicKey} {b' : Block} (hb : b ∈ (w.core i).ledger)
    (hb' : b' ∈ (w.core j).ledger) (hh : b.height = b'.height) : b.digest = b'.digest := by
  obtain ⟨q, hq, hg, hhash, hheight⟩ := h.ledger_certified hS hd hb
  rw [← hhash]
  exact h.certificate_of_ledger hS hn hd hb' hq hg (hheight.trans hh)

/-- The parent of a committed block above the first one is the committed block below it. -/
theorem Setup.Runs.parent_of_ledger (hS : S.Hotstuff) (hn : S.committee.total % 3 = 1)
    (h : S.Runs w)
    (hd : HashesApart w.core) {i j : PublicKey} {b' : Block} (hb : b ∈ (w.core i).ledger)
    (hb' : b' ∈ (w.core j).ledger) (hpos : 0 < b.height) (hh : b.height + 1 = b'.height) :
    b'.parent = b.digest := by
  obtain ⟨e, rule, hx⟩ := Core.mem_ledger.mp hb'
  have hf : b'.Founded w.core := (h.trusty hS j).shelved.record _ hx b' (List.mem_singleton.mpr rfl)
  have hheight := hf.height
  refine h.certificate_of_ledger hS hn hd hb hf.qc ?_ (by omega)
  rintro ⟨-, hzero, -⟩
  have hgen : QC.genesis.height = 0 := rfl
  omega

/-- The ledgers of all nodes are prefixes of one chain of blocks. -/
theorem Setup.Runs.one_chain {f : ℕ} (hS : S.Hotstuff) (hn : S.committee.total = 3 * f + 1)
    (h : S.Runs w) (hd : HashesApart w.core) :
    (∀ i j, (w.core i).ledger.map Block.digest <+: (w.core j).ledger.map Block.digest ∨
      (w.core j).ledger.map Block.digest <+: (w.core i).ledger.map Block.digest) ∧
    ∀ i, (w.core i).ledger.map Block.height = List.range' 1 (w.core i).ledger.length ∧
      (w.core i).ledger.IsChain fun b b' => b'.parent = b.digest := by
  have hmod : S.committee.total % 3 = 1 := by omega
  have hlength : ∀ i, (w.core i).ledger.length = (w.core i).lastCommittedHeight := by
    intro i
    have := congrArg List.length (h.orderly hS hd i).heights
    simpa using this
  have hheight : ∀ i n (hn : n < (w.core i).ledger.length),
    ((w.core i).ledger[n]).height = n + 1 := by
    intro i n hn
    have hget : ((w.core i).ledger.map Block.height)[n]? = some (n + 1) := by
      rw [(h.orderly hS hd i).heights, List.getElem?_range' (by rw [← hlength]; exact hn)]
      simp [Nat.add_comm]
    simpa [hn] using hget
  refine ⟨?_, fun i => ⟨?_, ?_⟩⟩
  · intro i j
    refine prefix_or_prefix ?_
    intro n hi hj
    simp only [List.length_map] at hi hj
    simp only [List.getElem_map]
    refine h.one_committed hS hmod hd (List.getElem_mem hi) (List.getElem_mem hj) ?_
    rw [hheight i n hi, hheight j n hj]
  · rw [hlength]
    exact (h.orderly hS hd i).heights
  · refine List.isChain_iff_getElem.mpr ?_
    intro n hlt
    refine h.parent_of_ledger hS hmod hd (List.getElem_mem _) (List.getElem_mem _) ?_ ?_
    · rw [hheight i n (by omega)]
      exact Nat.succ_pos n
    · rw [hheight i n (by omega), hheight i (n + 1) hlt]

/-- What the nodes have sent on their commit channels are prefixes of one chain of blocks. A node
that stops in the middle of a turn has sent a part of its ledger only. -/
theorem Setup.Runs.total_order {f : ℕ} (hS : S.Hotstuff) (hn : S.committee.total = 3 * f + 1)
    (h : S.Runs w) (hd : HashesApart w.core) {sent : PublicKey → List Block}
    (hsent : ∀ i, sent i <+: (w.core i).ledger) :
    (∀ i j, (sent i).map Block.digest <+: (sent j).map Block.digest ∨
      (sent j).map Block.digest <+: (sent i).map Block.digest) ∧
    ∀ i, (sent i).map Block.height = List.range' 1 (sent i).length ∧
      (sent i).IsChain fun b b' => b'.parent = b.digest := by
  obtain ⟨hcommon, hchain⟩ := h.one_chain hS hn hd
  have hdigest : ∀ i, (sent i).map Block.digest <+: (w.core i).ledger.map Block.digest := fun i =>
    (hsent i).map _
  refine ⟨fun i j => ?_, fun i => ⟨?_, List.IsChain.prefix (hchain i).2 (hsent i)⟩⟩
  · rcases hcommon i j with hij | hji
    · exact List.prefix_or_prefix_of_prefix ((hdigest i).trans hij) (hdigest j)
    · exact List.prefix_or_prefix_of_prefix (hdigest i) ((hdigest j).trans hji)
  · have hheights := List.prefix_iff_eq_take.mp ((hsent i).map Block.height)
    rw [(hchain i).1, List.length_map, List.take_range'_of_length_ge (hsent i).length_le]
      at hheights
    exact hheights

def Event.signedBlock : Event → Option Block
  | sign (.block b) => some b
  | _ => none

/-- The blocks that the node has made. -/
def Core.signedBlocks (s : Core) : List Block := s.trace.filterMap fun x => x.2.signedBlock

theorem Core.mem_signedBlocks (h : s.Ever (.sign (.block b))) : b ∈ s.signedBlocks := by
  obtain ⟨e, h⟩ := h
  exact List.mem_filterMap.mpr ⟨_, h, rfl⟩

/-- The blocks of a run are apart if the members make no two of one digest. -/
theorem Setup.Runs.hashesApart (h : S.Runs w) (hm : ((S.committee.sortedNames.flatMap fun k =>
    (w.core k).signedBlocks).map Block.digest).Nodup) : HashesApart w.core := by
  have hmember : ∀ {k b}, (w.core k).Ever (.sign (.block b)) →
      b ∈ S.committee.sortedNames.flatMap fun k => (w.core k).signedBlocks := by
    intro k b hb
    refine List.mem_flatMap.mpr ⟨k, ?_, Core.mem_signedBlocks hb⟩
    by_contra hk
    rw [h.core_new hk] at hb
    obtain ⟨e, hb⟩ := hb
    cases List.mem_singleton.mp hb
  intro i j b b' hb hb' hd
  rw [List.inj_on_of_nodup_map hm (hmember hb) (hmember hb') hd]

end Ledger

/-! ### A block that two nodes commit -/

/-- Four nodes that run the optimistic path alone. -/
def hotstuffSetup : Setup := { sampleSetup with pesPath := false }

/-- The leaders of the heights `1`, `2` and `3` propose, and nodes `0` and `3` take all
three blocks. -/
def toCommit : List Act :=
  [.boot 0, .boot 1, .boot 2, .boot 3, .deliver 0 1 0, .deliver 2 1 0, .deliver 2 0 0,
    .deliver 2 1 1, .deliver 0 2 1, .deliver 3 1 0, .deliver 3 2 1, .deliver 3 2 2, .deliver 3 0 2,
    .deliver 0 3 2]

theorem total_order_toCommit : ∃ w, hotstuffSetup.Runs w ∧ (w.core 0).ledger ≠ [] ∧
    (w.core 3).ledger ≠ [] ∧
    ((w.core 0).ledger.map Block.digest <+: (w.core 3).ledger.map Block.digest ∨
      (w.core 3).ledger.map Block.digest <+: (w.core 0).ledger.map Block.digest) := by
  obtain ⟨w, hr, h0, h3, hm⟩ := exists_play hotstuffSetup toCommit
    (fun w => (w.core 0).ledger ≠ [] ∧ (w.core 3).ledger ≠ [] ∧
      ((hotstuffSetup.committee.sortedNames.flatMap fun k =>
        (w.core k).signedBlocks).map Block.digest).Nodup)
    (by decide +kernel) (by decide +kernel)
  have htotal : hotstuffSetup.committee.total = 3 * 1 + 1 := by decide
  exact ⟨w, hr, h0, h3,
    (Setup.Runs.total_order ⟨rfl, rfl⟩ htotal hr (hr.hashesApart hm) fun _ =>
    List.prefix_rfl).1 0 3⟩

end Ipotane
