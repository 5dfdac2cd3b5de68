import Ipotane.Core.Record
import Ipotane.Certificates
import Ipotane.Symbolic

/-! Only members of the committee are counted. -/
namespace Ipotane

/-! ### The checks that look at the stake -/

section Checks

variable [Crypto] {c : Committee}

theorem HVote.stake_pos {v : HVote} (h : v.verify c = .ok ()) : 0 < c.stake v.author := by
  unfold HVote.verify at h
  rw [check_seq, ensure_ok] at h
  exact h.1

theorem SPBVote.stake_pos {x : SPBVote} (h : x.verify c = .ok ()) : 0 < c.stake x.author := by
  unfold SPBVote.verify at h
  rw [check_seq, ensure_ok] at h
  exact h.1

theorem RandomnessShare.stake_pos {x : RandomnessShare} (h : x.verify c = .ok ()) :
    0 < c.stake x.author := by
  unfold RandomnessShare.verify at h
  rw [check_seq, ensure_ok] at h
  exact h.1

theorem SPBValue.stake_pos {v : SPBValue} {p : SPBProof} {n : ℕ} (h : v.verify c p n = .ok ()) :
    0 < c.stake v.block.author :=
  (Block.verify_ok (SPBValue.verify_ok h).2.1).1

theorem MPreVote.stake_pos {m : MPreVote} {n : ℕ} (h : m.verify c n = .ok ()) :
    0 < c.stake m.author := by
  unfold MPreVote.verify at h
  rw [check_seq, ensure_ok] at h
  exact h.1

theorem MVote.stake_pos {m : MVote} {n : ℕ} (h : m.verify c n = .ok ()) :
    0 < c.stake m.author := by
  unfold MVote.verify at h
  rw [check_seq, ensure_ok] at h
  exact h.1

/-- The vote inside a `Yes` is checked with it. -/
theorem MVote.vote_verify {m : MVote} {n : ℕ} {v : SPBValue} {p : SPBProof} {x : SPBVote}
    (h : m.verify c n = .ok ()) (ht : m.tag = .Yes v p x) : x.verify c = .ok () := by
  unfold MVote.verify at h
  rw [check_seq, check_seq, ht, MVoteTag.verify, check_seq] at h
  exact h.2.2.2

theorem MVote.vote_stake_pos {m : MVote} {n : ℕ} {v : SPBValue} {p : SPBProof} {x : SPBVote}
    (h : m.verify c n = .ok ()) (ht : m.tag = .Yes v p x) : 0 < c.stake x.author :=
  SPBVote.stake_pos (MVote.vote_verify h ht)

end Checks

end Ipotane

namespace Ipotane.Core

open Lib Handler

section Members

variable [Crypto] {cfg : Config} {s t : Core}

/-- The tables whose sizes or weights are compared with a threshold, and the keys in them. -/
structure OnlyMembers (cfg : Config) (s : Core) : Prop where
  parPrepareOpts : s.parPrepareOpts.Each (fun l => ∀ p ∈ l, 0 < cfg.committee.stake p.1) []
  parPreparePess : s.parPreparePess.Each (fun l => ∀ p ∈ l, 0 < cfg.committee.stake p.1) []
  smvbaDones : s.smvbaDones.Each (fun l => ∀ k ∈ l, 0 < cfg.committee.stake k) []
  smvbaVotes : s.smvbaVotes.Each (fun l => ∀ k ∈ l, 0 < cfg.committee.stake k) []
  smvbaNoPrevotes : s.smvbaNoPrevotes.Each (fun l => ∀ k ∈ l, 0 < cfg.committee.stake k) []
  spbFinishs : s.spbFinishs.Each (fun l => ∀ p ∈ l, 0 < cfg.committee.stake p.1) []
  spbLocks : s.spbLocks.Each (fun l => ∀ p ∈ l, 0 < cfg.committee.stake p.1) []
  hsVotes : s.aggregator.hsVotes.Each (fun m => ∀ k ∈ m.used, 0 < cfg.committee.stake k) .new
  fallbackVotes : s.aggregator.fallbackVotes.Each
    (fun m => ∀ k ∈ m.used, 0 < cfg.committee.stake k) .new
  spbVotes : s.aggregator.spbVotes.Each (fun m => ∀ k ∈ m.used, 0 < cfg.committee.stake k) .new
  preVotes : s.aggregator.preVotes.Each (fun m => ∀ k ∈ m.used, 0 < cfg.committee.stake k) .new
  smvbaRandomcoin :
    s.aggregator.smvbaRandomcoin.Each (fun m => ∀ k ∈ m.used, 0 < cfg.committee.stake k) .new

/-- The prepares and dones that are taken carry the name of a member. -/
def Enrolled (cfg : Config) : ℕ × Event → Prop
  | (_, .receive (.ParPrePare p)) => 0 < cfg.committee.stake p.author
  | (_, .receive (.SPBDoneAndShare m)) => 0 < cfg.committee.stake m.author
  | _ => True

instance (x : ℕ × Event) : Decidable (Enrolled cfg x) := by
  obtain ⟨_, x⟩ := x
  unfold Enrolled
  rcases x
  case receive m => rcases m <;> infer_instance
  all_goals infer_instance

/-- What a node makes carries its name, and what it counts has been checked. -/
def Attributed (cfg : Config) : Event → Prop
  | .send (.ParPrePare p) _ _ | .keep (.ParPrePare p) | .sign (.prepare p) => p.author = cfg.name
  | .send (.SPBDoneAndShare m) _ _ | .keep (.SPBDoneAndShare m)
  | .sign (.done m) => m.author = cfg.name
  | .send (.SPBPropose v _) _ _ | .propose v => v.block.author = cfg.name
  | .count m => cfg.parameters.exp = 1 →
      m.verify cfg.committee cfg.parameters.fallbackLength = .ok ()
  | _ => True

structure MemberInv (cfg : Config) (s : Core) : Prop where
  members : s.OnlyMembers cfg
  proposes : ∀ key v, s.spbProposes.get key = some v → v.block.author = cfg.name
  record : ∀ x ∈ s.trace, Attributed cfg x.2

/-! ### What the makers and the lists keep -/

variable {c : Committee}

theorem used_append {m : QCMaker} {v : HVote} (h : ∀ k ∈ m.used, 0 < c.stake k)
    (hv : 0 < c.stake v.author) : ∀ k ∈ (m.append v c).2.used, 0 < c.stake k := by
  unfold QCMaker.append
  split
  · exact h
  · dsimp only
    split <;> exact List.forall_mem_cons.mpr ⟨hv, h⟩

theorem used_appendProof {m : ProofMaker} {x : SPBVote} (h : ∀ k ∈ m.used, 0 < c.stake k)
    (hx : 0 < c.stake x.author) : ∀ k ∈ (m.append x c).2.used, 0 < c.stake k := by
  unfold ProofMaker.append
  split
  · exact h
  · dsimp only
    split <;> exact List.forall_mem_cons.mpr ⟨hx, h⟩

theorem used_appendShare {m : SMVBARandomCoinMaker} {x : RandomnessShare}
    (h : ∀ k ∈ m.used, 0 < c.stake k) (hx : 0 < c.stake x.author) :
    ∀ k ∈ (m.append x c).2.used, 0 < c.stake k := by
  unfold SMVBARandomCoinMaker.append
  split
  · exact h
  · dsimp only
    split
    · split <;> exact List.forall_mem_cons.mpr ⟨hx, h⟩
    · exact List.forall_mem_cons.mpr ⟨hx, h⟩

omit [Crypto] in
theorem stakes_insert {l : List PublicKey} {k : PublicKey} (h : ∀ k ∈ l, 0 < c.stake k)
    (hk : 0 < c.stake k) : ∀ k' ∈ l.insert k, 0 < c.stake k' := by
  intro k' hk'
  rcases List.mem_insert_iff.mp hk' with heq | hk'
  · rw [heq]
    exact hk
  · exact h k' hk'

omit [Crypto] in
theorem stakes_put {V : Type} {l : List (PublicKey × V)} {k : PublicKey} {v : V}
    (h : ∀ p ∈ l, 0 < c.stake p.1) (hk : 0 < c.stake k) : ∀ p ∈ put k v l, 0 < c.stake p.1 := by
  intro p hp
  rcases mem_put.mp hp with rfl | ⟨hp, -⟩
  · exact hk
  · exact h p hp

/-- The tables of a state that has only counted a vote. -/
theorem OnlyMembers.collect {α : Type} {add : Aggregator → Appended α Aggregator} {mark : α → Event}
    (h : OnlyMembers cfg { s with aggregator := (add s.aggregator).2 }) :
    OnlyMembers cfg (Core.collect add mark s).2 := by
  have ha := collect_aggregator (s := s) add mark
  unfold Core.collect at ha ⊢
  split at ha
  · rename_i hadd
    rw [hadd] at h
    exact { h with }
  · rename_i hadd
    rw [hadd] at h
    exact { h with }
  · rename_i hadd
    rw [hadd] at h
    exact { h with }

theorem OnlyMembers.clean (h : s.OnlyMembers cfg) (k reached : ℕ) (site : Termination) :
    (s.cleanSmvbaState k reached site).OnlyMembers cfg :=
  { h with
    parPrepareOpts := h.parPrepareOpts.retain (by simp) _
    parPreparePess := h.parPreparePess.retain (by simp) _
    smvbaDones := h.smvbaDones.retain (by simp) _
    smvbaVotes := h.smvbaVotes.retain (by simp) _
    smvbaNoPrevotes := h.smvbaNoPrevotes.retain (by simp) _
    spbFinishs := h.spbFinishs.retain (by simp) _
    spbLocks := h.spbLocks.retain (by simp) _
    spbVotes := h.spbVotes.retain (by simp [ProofMaker.new]) _
    preVotes := h.preVotes.retain (by simp [ProofMaker.new]) _
    smvbaRandomcoin := h.smvbaRandomcoin.retain (by simp [SMVBARandomCoinMaker.new]) _ }

theorem OnlyMembers.updateSmvbaState (h : s.OnlyMembers cfg) (height round : ℕ) :
    (s.updateSmvbaState height round).OnlyMembers cfg :=
  { h with
    smvbaDones := h.smvbaDones.insert (by simp)
    smvbaVotes := h.smvbaVotes.insert (by simp)
    smvbaNoPrevotes := h.smvbaNoPrevotes.insert (by simp) }

theorem OnlyMembers.updatePrepareState (h : s.OnlyMembers cfg) (height : ℕ) :
    (s.updatePrepareState height).OnlyMembers cfg :=
  { h with
    parPrepareOpts := h.parPrepareOpts.insert (by simp)
    parPreparePess := h.parPreparePess.insert (by simp) }

theorem OnlyMembers.enterHeight (h : s.OnlyMembers cfg) (next : ℕ) :
    (s.enterHeight next).OnlyMembers cfg := by
  have hclean : OnlyMembers cfg { s with
      aggregator := s.aggregator.cleanupHsVote s.height
      height := next } :=
    { h with hsVotes := h.hsVotes.retain (by simp [QCMaker.new]) _ }
  exact (hclean.updatePrepareState next).updateSmvbaState next 1

theorem OnlyMembers.adopt (h : s.OnlyMembers cfg) (qc : QC) : (s.adopt qc).OnlyMembers cfg := by
  have hhigh : ∀ {u : Core}, u.OnlyMembers cfg → (u.updateHighQc qc).OnlyMembers cfg := by
    intro u hu
    unfold updateHighQc
    split
    · exact { hu with }
    · exact hu
  unfold Core.adopt
  split
  · exact hhigh h
  · exact hhigh (h.enterHeight _)

theorem OnlyMembers.cleanFor (h : s.OnlyMembers cfg) (b : Block) :
    (s.cleanFor cfg b).OnlyMembers cfg := by
  unfold Core.cleanFor
  split
  · exact h.clean _ _ _
  · exact h

theorem OnlyMembers.alike (h : s.OnlyMembers cfg) (ht : Alike s t) : t.OnlyMembers cfg where
  parPrepareOpts := h.parPrepareOpts.congr ht.parPrepareOpts
  parPreparePess := h.parPreparePess.congr ht.parPreparePess
  smvbaDones := h.smvbaDones.congr ht.smvbaDones
  smvbaVotes := h.smvbaVotes.congr ht.smvbaVotes
  smvbaNoPrevotes := h.smvbaNoPrevotes.congr ht.smvbaNoPrevotes
  spbFinishs := h.spbFinishs.congr ht.spbFinishs
  spbLocks := h.spbLocks.congr ht.spbLocks
  hsVotes := ht.aggregator ▸ h.hsVotes
  fallbackVotes := ht.aggregator ▸ h.fallbackVotes
  spbVotes := ht.aggregator ▸ h.spbVotes
  preVotes := ht.aggregator ▸ h.preVotes
  smvbaRandomcoin := ht.aggregator ▸ h.smvbaRandomcoin

theorem OnlyMembers.empty
    (h : ∀ k, t.parPrepareOpts.getD k [] = [] ∧ t.parPreparePess.getD k [] = [])
    (hd : ∀ k, t.smvbaDones.getD k [] = [] ∧ t.smvbaVotes.getD k [] = [] ∧
      t.smvbaNoPrevotes.getD k [] = [])
    (hf : t.spbFinishs = .empty) (hl : t.spbLocks = .empty) (ha : t.aggregator = .new) :
    t.OnlyMembers cfg := by
  constructor
  · exact fun k => by simp [(h k).1]
  · exact fun k => by simp [(h k).2]
  · exact fun k => by simp [(hd k).1]
  · exact fun k => by simp [(hd k).2.1]
  · exact fun k => by simp [(hd k).2.2]
  · exact fun k => by simp [hf]
  · exact fun k => by simp [hl]
  all_goals
    rw [ha]
    exact Map.each_empty (by simp [QCMaker.new, ProofMaker.new, SMVBARandomCoinMaker.new])

/-! ### Steps -/

theorem OptStep.members (h : OptStep cfg s t) (hs : s.OnlyMembers cfg) : t.OnlyMembers cfg := by
  cases h with
  | quiet h => exact hs.alike h
  | proposal _ _ => exact (hs.cleanFor _).adopt _
  | overflow _ _ => exact hs.cleanFor _
  | adopt _ _ _ _ _ => exact hs.adopt _
  | countVote _ hv _ _ _ =>
    refine OnlyMembers.collect ?_
    exact { hs with hsVotes := hs.hsVotes.insert (used_append (hs.hsVotes _) (HVote.stake_pos hv)) }
  | settle _ _ _ _ _ _ =>
    unfold Core.settle
    split <;> exact { hs with }
  | _ => exact { hs with }

/-- A prepare that is counted was taken or made by the node itself. -/
theorem MemberInv.prepare_author (hs : MemberInv cfg s) (hn : 0 < cfg.committee.stake cfg.name)
    (hc : ∀ x ∈ s.trace, Enrolled cfg x) {p : PrePare} (h : s.Countable cfg p) :
    0 < cfg.committee.stake p.author := by
  have hown : p.author = cfg.name → 0 < cfg.committee.stake p.author := fun h => h ▸ hn
  rcases h.hears with h | ⟨tag, h⟩ | h
  · exact hc _ h
  · exact hown (hs.record _ h)
  · exact hown (hs.record _ h)

theorem MemberInv.done_author (hs : MemberInv cfg s) (hn : 0 < cfg.committee.stake cfg.name)
    (hc : ∀ x ∈ s.trace, Enrolled cfg x) {m : MDoneAndShare} (h : s.Hears (.SPBDoneAndShare m)) :
    0 < cfg.committee.stake m.author := by
  have hown : m.author = cfg.name → 0 < cfg.committee.stake m.author := fun h => h ▸ hn
  rcases h with h | ⟨tag, h⟩ | h
  · exact hc _ h
  · exact hown (hs.record _ h)
  · exact hown (hs.record _ h)

theorem MemberInv.lock_author (hs : MemberInv cfg s) (hn : 0 < cfg.committee.stake cfg.name)
    (hv : cfg.parameters.exp = 1) {v : SPBValue} {p : SPBProof} (h : s.SpbSource cfg v p) :
    0 < cfg.committee.stake v.block.author := by
  cases h with
  | own h =>
    have hname : v.block.author = cfg.name := hs.record _ h
    rw [hname]
    exact hn
  | peer _ _ hver => exact SPBValue.stake_pos (hver hv)

theorem PesStep.members (h : PesStep cfg s t) (hs : MemberInv cfg s)
    (hn : 0 < cfg.committee.stake cfg.name) (hv : cfg.parameters.exp = 1)
    (hc : ∀ x ∈ s.trace, Enrolled cfg x) : t.OnlyMembers cfg := by
  have hm := hs.members
  cases h with
  | terminate _ => exact hm.clean _ _ _
  | countFallback h =>
    refine OnlyMembers.collect ?_
    exact { hm with
      fallbackVotes := hm.fallbackVotes.insert (used_append (hm.fallbackVotes _)
        (HVote.stake_pos (h.checked hv))) }
  | countSpb h =>
    refine OnlyMembers.collect ?_
    exact { hm with
      spbVotes := hm.spbVotes.insert (used_appendProof (hm.spbVotes _)
        (SPBVote.stake_pos (h.checked hv))) }
  | @countPre m v q x h ht =>
    have hver : m.verify cfg.committee cfg.parameters.fallbackLength = .ok () := hs.record _ h hv
    refine OnlyMembers.collect ?_
    exact { hm with
      preVotes := hm.preVotes.insert (used_appendProof (hm.preVotes _)
        (MVote.vote_stake_pos hver ht)) }
  | countShare _ _ _ hver =>
    exact { hm with
      smvbaRandomcoin := hm.smvbaRandomcoin.insert
        (used_appendShare (hm.smvbaRandomcoin _) (RandomnessShare.stake_pos (hver hv))) }
  | putOpt hp _ _ =>
    exact { hm with
      parPrepareOpts := hm.parPrepareOpts.insert
        (stakes_put (hm.parPrepareOpts _) (hs.prepare_author hn hc hp)) }
  | putPes hp _ _ =>
    exact { hm with
      parPreparePess := hm.parPreparePess.insert
        (stakes_put (hm.parPreparePess _) (hs.prepare_author hn hc hp)) }
  | countDone h =>
    exact { hm with
      smvbaDones := hm.smvbaDones.insert
        (stakes_insert (hm.smvbaDones _) (hs.done_author hn hc h.hears)) }
  | @enterRound m _ _ =>
    have hlog : (s.log (.enterRound m.height (m.round + 1))).OnlyMembers cfg := { hm with }
    exact hlog.updateSmvbaState _ _
  | lock h _ =>
    exact { hm with
      spbLocks := hm.spbLocks.insert (stakes_put (hm.spbLocks _) (hs.lock_author hn hv h)) }
  | finish h =>
    exact { hm with
      spbFinishs := hm.spbFinishs.insert (stakes_put (hm.spbFinishs _)
        (SPBValue.stake_pos (h.checked hv))) }
  | countMvote h =>
    exact { hm with
      smvbaVotes := hm.smvbaVotes.insert (stakes_insert (hm.smvbaVotes _)
        (MVote.stake_pos (h.checked hv))) }
  | countNo h _ =>
    exact { hm with
      smvbaNoPrevotes := hm.smvbaNoPrevotes.insert
        (stakes_insert (hm.smvbaNoPrevotes _) (MPreVote.stake_pos (h.taken.checked hv))) }
  | _ => exact { hm with }

theorem adopt_spbProposes (s : Core) (qc : QC) : (s.adopt qc).spbProposes = s.spbProposes := by
  unfold adopt updateHighQc
  split <;> split <;> rfl

theorem collect_spbProposes {α : Type} (add : Aggregator → Appended α Aggregator)
    (mark : α → Event) : (collect add mark s).2.spbProposes = s.spbProposes := by
  unfold collect
  split <;> rfl

theorem get_clean {key : ℕ × ℕ} {k reached : ℕ} {v : SPBValue}
    (h : (s.cleanSmvbaState k reached site).spbProposes.get key = some v) :
    s.spbProposes.get key = some v := by
  unfold cleanSmvbaState at h
  rw [Map.get_retain] at h
  split at h
  · exact h
  · cases h

theorem get_cleanFor {key : ℕ × ℕ} {b : Block} {v : SPBValue}
    (h : (s.cleanFor cfg b).spbProposes.get key = some v) : s.spbProposes.get key = some v := by
  unfold cleanFor at h
  split at h
  · exact get_clean h
  · exact h

/-- A proposal that a node keeps is one that it had, or one that it has just made. -/
theorem Step.proposes (h : Step cfg s t) {key : ℕ × ℕ} {v : SPBValue}
    (hv : t.spbProposes.get key = some v) :
    s.spbProposes.get key = some v ∨
      (s.Initial cfg v ∧ v.phase = INIT_PHASE ∧ v.block.author = cfg.name ∧
        v.block.epoch = s.epoch ∧ key = (v.block.height, v.round) ∧ t = s.propose v) := by
  cases h with
  | opt h =>
    refine .inl ?_
    cases h with
    | quiet h => rwa [h.spbProposes] at hv
    | proposal _ _ =>
      rw [adopt_spbProposes] at hv
      exact get_cleanFor hv
    | overflow _ _ => exact get_cleanFor hv
    | adopt _ _ _ _ _ => rwa [adopt_spbProposes] at hv
    | countVote _ _ _ _ _ => rwa [collect_spbProposes] at hv
    | settle _ _ _ _ _ _ =>
      unfold Core.settle at hv
      split at hv <;> exact hv
    | _ => exact hv
  | pes _ h =>
    cases h with
    | terminate _ => exact .inl (get_clean hv)
    | countFallback _ => exact .inl (collect_spbProposes (s := s) _ _ ▸ hv)
    | countSpb _ => exact .inl (collect_spbProposes (s := s) _ _ ▸ hv)
    | countPre _ _ => exact .inl (collect_spbProposes (s := s) _ _ ▸ hv)
    | @propose w hi hp ha he =>
      have hget : (if key = (w.block.height, w.round) then some w
        else s.spbProposes.get key) = some v := hv
      split at hget
      · rename_i hkey
        cases hget
        exact .inr ⟨hi, hp, ha, he, hkey, rfl⟩
      · exact .inl hget
    | _ => exact .inl hv

theorem Issues.attributed (hs : MemberInv cfg s) {m : ConsensusMessage} (h : s.Issues cfg m)
    (dest : Option PublicKey) (tag : ℕ) :
    Attributed cfg (.send m dest tag) ∧ Attributed cfg (.keep m) := by
  cases m with
  | ParPrePare p =>
    have hp : p.author = cfg.name := hs.record _ h
    exact ⟨hp, hp⟩
  | SPBDoneAndShare m =>
    have hm : m.author = cfg.name := hs.record _ h
    exact ⟨hm, hm⟩
  | SPBPropose v p =>
    refine ⟨?_, trivial⟩
    rcases h with ⟨-, h⟩ | ⟨-, h⟩
    · have hv := hs.record _ h
      exact hv
    · cases h with
      | init _ _ _ ha _ => exact ha
      | lock _ _ hw hv =>
        have hauthor := hs.proposes _ _ hw
        rw [hv]
        exact hauthor
  | _ => exact ⟨trivial, trivial⟩

theorem PesLog.attributed (hs : MemberInv cfg s) {y : Event} (h : s.PesLog cfg y) :
    Attributed cfg y := by
  unfold PesLog at h
  split at h
  case h_5 =>
    rw [h.2.2.2.1]
    rfl
  case h_8 => exact (h.1.attributed hs _ _).1
  case h_9 => exact (h.1.attributed hs none 0).2
  all_goals trivial

theorem OptLog.attributed {y : Event} (h : s.OptLog cfg y) : Attributed cfg y := by
  unfold OptLog at h
  split at h <;> trivial

theorem Records.attributed (hs : MemberInv cfg s) {y : Event} (h : Records cfg s t y) :
    Attributed cfg y := by
  cases h with
  | opt h => exact h.attributed
  | pes _ h => exact h.attributed hs
  | prepare _ _ _ _ => rfl
  | propose _ _ _ hn _ _ => exact hn
  | count _ h _ => exact h.checked
  | _ => trivial

theorem MemberInv.step (hs : MemberInv cfg s) (hn : 0 < cfg.committee.stake cfg.name)
    (hv : cfg.parameters.exp = 1) (hc : ∀ x ∈ s.trace, Enrolled cfg x) (h : Step cfg s t) :
    MemberInv cfg t := by
  refine ⟨?_, ?_, ?_⟩
  · cases h with
    | opt h => exact h.members hs.members
    | pes _ h => exact h.members hs hn hv hc
  · intro key v hget
    rcases h.proposes hget with hget | ⟨_, _, ha, _⟩
    · exact hs.proposes key v hget
    · exact ha
  · intro x hx
    rcases h.recorded hx with hx | ⟨_, hr⟩
    · exact hs.record x hx
    · exact hr.attributed hs

theorem MemberInv.take (hs : MemberInv cfg s) (m : ConsensusMessage) :
    MemberInv cfg (s.log (.receive m)) := by
  refine ⟨{ hs.members with }, hs.proposes, ?_⟩
  intro x hx
  rcases List.mem_cons.mp hx with rfl | hx
  · trivial
  · exact hs.record x hx

omit [Crypto] in
theorem getD_insert_nil {K V : Type} [DecidableEq K] (k k' : K) :
    ((Map.empty : Map K (List V)).insert k []).getD k' [] = [] := by
  rw [Map.getD_insert]
  split <;> rfl

theorem MemberInv.renewed (hs : MemberInv cfg s) : MemberInv cfg s.renewed := by
  obtain ⟨marks, rest, heq, -, -⟩ := renewed_eq s
  refine ⟨?_, ?_, ?_⟩
  · rw [heq]
    refine OnlyMembers.empty ?_ ?_ rfl rfl rfl
    · exact fun k => ⟨getD_insert_nil _ k, getD_insert_nil _ k⟩
    · exact fun k => ⟨getD_insert_nil _ k, getD_insert_nil _ k, getD_insert_nil _ k⟩
  · intro key v hget
    rw [heq] at hget
    cases hget
  · intro x hx
    rcases mem_renewed_trace hx with hx | rfl | ⟨m, rfl, _⟩
    · exact hs.record x hx
    · trivial
    · trivial

theorem MemberInv.new : MemberInv cfg .new := by
  refine ⟨OnlyMembers.empty ?_ ?_ rfl rfl rfl, ?_, ?_⟩
  · exact fun k => ⟨getD_insert_nil _ k, getD_insert_nil _ k⟩
  · exact fun k => ⟨getD_insert_nil _ k, getD_insert_nil _ k, getD_insert_nil _ k⟩
  · intro key v hget
    cases hget
  · intro x hx
    cases List.mem_singleton.mp hx
    trivial

theorem onlyMembers_of_enrolled {alive : Bool} (h : Reachable cfg s alive)
    (hv : cfg.parameters.exp = 1) (hn : 0 < cfg.committee.stake cfg.name)
    (hc : ∀ x ∈ s.trace, Enrolled cfg x) : s.OnlyMembers cfg := by
  refine ((h.invariant (C := fun l => ∀ x ∈ l, Enrolled cfg x) ?_ MemberInv.new ?_ ?_).2 hc).members
  · exact fun l l' hl hc x hx => hc x (hl.subset hx)
  · exact fun s m hs _ => hs.take m
  · intro s t _ hs hc ht
    cases ht with
    | step ht => exact hs.step hn hv (fun x hx => hc x (ht.extends.trace.subset hx)) ht
    | epoch _ ht => exact ht ▸ hs.renewed

end Members

/-! ### Prepares of strangers -/

/-- A prepare of the key `k` for height `1`. -/
def samplePrepare (k : PublicKey) : PrePare := PrePare.new k 0 1 .genesis OPT

theorem onlyMembers_with_prepares : ∃ s, Reachable (sampleConfig 0) s true ∧
    hasKey 2 (s.parPrepareOpts.getD 1 []) = true ∧ s.OnlyMembers (sampleConfig 0) := by
  obtain ⟨s, hr, hk, hc⟩ := exists_replay (sampleConfig 0)
    [.boot, .smvba (.ParPrePare (samplePrepare 1)), .smvba (.ParPrePare (samplePrepare 2))]
    (fun s => hasKey 2 (s.parPrepareOpts.getD 1 []) = true ∧
      ∀ x ∈ s.trace, Enrolled (sampleConfig 0) x)
    (by decide +kernel)
  exact ⟨s, hr, hk, onlyMembers_of_enrolled hr rfl (by decide) hc⟩

/-- Three keys that nobody has enrolled reach the quorum of prepares. -/
theorem not_onlyMembers_after_strange_prepares :
    ¬ ∀ (cfg : Config) (s : Core), cfg.parameters.exp = 1 → Reachable cfg s true →
    s.OnlyMembers cfg := by
  intro h
  obtain ⟨s, hr, hk⟩ := exists_replay (sampleConfig 0)
    [.boot, .smvba (.ParPrePare (samplePrepare 7)), .smvba (.ParPrePare (samplePrepare 8)),
      .smvba (.ParPrePare (samplePrepare 9))]
    (fun s => ∃ p ∈ s.parPrepareOpts.getD 1 [], p.1 = 9) (by decide +kernel)
  obtain ⟨p, hp, hp9⟩ := hk
  have hpos := (h _ s rfl hr).parPrepareOpts 1 p hp
  rw [hp9] at hpos
  revert hpos
  decide

end Ipotane.Core
