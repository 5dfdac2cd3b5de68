import Ipotane.Core.Tables
import Ipotane.Core.Effect
import Ipotane.Replay

/-! The common coin: which shares a node combines. -/
namespace Ipotane

open Lib Handler

section Coins

variable [Crypto] {S : Setup} {w : World}

/-- A share as a member makes it. -/
structure RandomnessShare.Made (x : RandomnessShare) (c : Committee) : Prop where
  member : x.author ∈ c.sortedNames
  share : x.signatureShare = Crypto.signShare x.author x.digest

/-- A share that a member has made for the coin of a round. -/
structure RandomnessShare.MadeFor (x : RandomnessShare) (c : Committee)
    (height round epoch : ℕ) : Prop where
  made : x.Made c
  height_eq : x.height = height
  round_eq : x.round = round
  epoch_eq : x.epoch = epoch

/-- What the threshold scheme promises about the shares of the committee: they are valid, and
valid shares on `d` combine to the one signature on `d`, of which `σ` tells the first bytes. -/
structure ThresholdScheme (c : Committee) (σ : Digest → ℕ) : Prop where
  correct : ∀ k ∈ c.sortedNames, ∀ d, Crypto.verifyShare (c.id k) (Crypto.signShare k d) d = true
  unique : ∀ d l n, (∀ x ∈ l, Crypto.verifyShare x.1 x.2 d = true) →
    Crypto.combine l = some n → n = σ d

/-- The leader that the signature on `(round, height, epoch)` determines. -/
def coinLeader (c : Committee) (σ : Digest → ℕ) (height round epoch : ℕ) : Option PublicKey :=
  c.sortedNames[σ (RandomnessShare.coinDigest round height epoch) % c.size]?

namespace SMVBARandomCoinMaker

theorem mem_sharesById {c : Committee} {shares : List RandomnessShare} {p : ℕ × SignatureShare}
    (h : p ∈ sharesById c shares) : ∃ x ∈ shares, p = (c.id x.author, x.signatureShare) := by
  have hfold : ∀ (l : List RandomnessShare) (m : List (ℕ × SignatureShare)),
      p ∈ l.foldl (fun m s => put (c.id s.author) s.signatureShare m) m →
      p ∈ m ∨ ∃ x ∈ l, p = (c.id x.author, x.signatureShare) := by
    intro l
    induction l with
    | nil => exact fun m h => .inl h
    | cons x l ih =>
      intro m h
      rcases ih _ h with h | ⟨y, hy, hp⟩
      · rcases mem_put.mp h with h | ⟨h, -⟩
        · exact .inr ⟨x, List.mem_cons_self, h⟩
        · exact .inl h
      · exact .inr ⟨y, List.mem_cons_of_mem _ hy, hp⟩
  unfold sharesById at h
  rw [List.mem_insertionSort] at h
  rcases hfold _ _ h with h | h
  · cases h
  · exact h

theorem electedLeader_eq {c : Committee} {σ : Digest → ℕ} (hσ : ThresholdScheme c σ)
    {shares : List RandomnessShare} {height round epoch : ℕ} {leader : PublicKey}
    (hs : ∀ x ∈ shares, x.MadeFor c height round epoch)
    (h : electedLeader c shares = some leader) :
    coinLeader c σ height round epoch = some leader := by
  obtain ⟨n, hn, hleader⟩ := Option.bind_eq_some_iff.mp h
  have hvalid : ∀ p ∈ sharesById c shares,
      Crypto.verifyShare p.1 p.2 (RandomnessShare.coinDigest round height epoch) = true := by
    intro p hp
    obtain ⟨x, hx, rfl⟩ := mem_sharesById hp
    obtain ⟨hmade, hh, hr, he⟩ := hs x hx
    have hd : x.digest = RandomnessShare.coinDigest round height epoch := by
      rw [RandomnessShare.digest, hh, hr, he]
    rw [← hd, hmade.share]
    exact hσ.correct _ hmade.member _
  rw [coinLeader, ← hσ.unique _ _ _ hvalid hn]
  exact hleader

end SMVBARandomCoinMaker

namespace Core

variable {cfg : Config} {s t : Core} {key : ℕ × ℕ} {x : RandomnessShare}

/-- The shares that the node has collected for a round. -/
def coinShares (s : Core) (key : ℕ × ℕ) : List RandomnessShare :=
  (s.aggregator.smvbaRandomcoin.getD key .new).shares

/-! ### What a step adds to the shares -/

theorem mem_append {m : SMVBARandomCoinMaker} {c : Committee} {y : RandomnessShare}
    (h : x ∈ (m.append y c).2.shares) : x ∈ m.shares ∨ x = y := by
  unfold SMVBARandomCoinMaker.append at h
  split at h
  · exact .inl h
  · dsimp only at h
    split at h
    · split at h
      · exact (List.mem_append.mp h).imp_right List.mem_singleton.mp
      · exact (List.mem_append.mp h).imp_right List.mem_singleton.mp
    · exact (List.mem_append.mp h).imp_right List.mem_singleton.mp

theorem coinShares_eq (h : t.aggregator.smvbaRandomcoin = s.aggregator.smvbaRandomcoin) :
    t.coinShares key = s.coinShares key := by
  unfold coinShares
  rw [h]

theorem coinShares_adopt (qc : QC) : (s.adopt qc).coinShares key = s.coinShares key := by
  unfold adopt updateHighQc
  split <;> split <;> rfl

theorem coinShares_clean {height reached : ℕ} {site : Termination}
    (h : x ∈ (s.cleanSmvbaState height reached site).coinShares key) :
    x ∈ s.coinShares key := by
  have hget : x ∈ ((s.aggregator.smvbaRandomcoin.retain _).getD key .new).shares := h
  rw [Map.getD_retain] at hget
  split at hget
  · exact hget
  · cases hget

theorem coinShares_cleanFor {b : Block} (h : x ∈ (s.cleanFor cfg b).coinShares key) :
    x ∈ s.coinShares key := by
  unfold cleanFor at h
  split at h
  · exact coinShares_clean h
  · exact h

theorem coinShares_settle {b b1 b0 : Block} {marks : List (ℕ × Event)} :
    (s.settle b b1 b0 marks).coinShares key = s.coinShares key := by
  unfold settle
  split <;> rfl

theorem coinShares_collect {α : Type} {add : Aggregator → Appended α Aggregator} {mark : α → Event}
    (h : (add s.aggregator).2.smvbaRandomcoin = s.aggregator.smvbaRandomcoin) :
    (collect add mark s).2.coinShares key = s.coinShares key := by
  unfold collect
  split <;> rename_i hadd <;> rw [hadd] at h <;> exact coinShares_eq h

/-- A share that is counted has just been taken, and no coin is known yet. -/
structure Counted (cfg : Config) (s : Core) (key : ℕ × ℕ) (x : RandomnessShare) : Prop where
  heard : ∃ m, s.Hears (.SPBDoneAndShare m) ∧ m.share = x
  fresh : s.Fresh x.epoch x.height
  unknown : s.getCoinLeader x.height x.round = none
  checked : cfg.parameters.exp = 1 → x.verify cfg.committee = .ok ()
  key : key = (x.height, x.round)

theorem OptStep.coinShares (h : OptStep cfg s t) (hx : x ∈ t.coinShares key) :
    x ∈ s.coinShares key := by
  cases h with
  | quiet h => exact coinShares_eq (s := s) (by rw [h.aggregator]) ▸ hx
  | proposal _ _ =>
    rw [coinShares_adopt] at hx
    exact coinShares_cleanFor hx
  | overflow _ _ => exact coinShares_cleanFor hx
  | adopt _ _ _ _ _ => rwa [coinShares_adopt] at hx
  | countVote _ _ _ _ _ => rwa [coinShares_collect rfl] at hx
  | settle _ _ _ _ _ _ => rwa [coinShares_settle] at hx
  | _ => exact hx

theorem PesStep.coinShares (h : PesStep cfg s t) (hx : x ∈ t.coinShares key) :
    x ∈ s.coinShares key ∨ Counted cfg s key x := by
  cases h with
  | terminate _ => exact .inl (coinShares_clean hx)
  | countFallback _ => exact .inl (by rwa [coinShares_collect rfl] at hx)
  | countSpb _ => exact .inl (by rwa [coinShares_collect rfl] at hx)
  | countPre _ _ => exact .inl (by rwa [coinShares_collect rfl] at hx)
  | @countShare y h hf hn hv =>
    have hget : x ∈ ((s.aggregator.smvbaRandomcoin.insert (y.height, y.round) _).getD
      key .new).shares := hx
    rw [Map.getD_insert] at hget
    split at hget
    · rename_i hkey
      rcases mem_append hget with hold | rfl
      · rw [hkey]
        exact .inl hold
      · exact .inr ⟨h, hf, hn, hv, hkey⟩
    · exact .inl hget
  | _ => exact .inl hx

theorem Step.coinShares (h : Step cfg s t) (hx : x ∈ t.coinShares key) :
    x ∈ s.coinShares key ∨ Counted cfg s key x := by
  cases h with
  | opt h => exact .inl (h.coinShares hx)
  | pes _ h => exact h.coinShares hx

/-! ### The shares on record -/

/-- What an entry of the record tells about shares. -/
def ShareMade (c : Committee) : ℕ × Event → Prop
  | (e, .sign (.share x)) => x.Made c ∧ x.epoch = e
  | (e, .sign (.done m)) | (e, .send (.SPBDoneAndShare m) _ _) | (e, .keep (.SPBDoneAndShare m)) =>
    m.share.Made c ∧ m.share.epoch = e
  | (_, .receive (.SPBDoneAndShare m)) => m.share.Made c
  | (_, .requeue (.SPBDoneAndShare _)) => False
  | (e, .coin coin) => ∃ shares : List RandomnessShare,
      (∀ x ∈ shares, x.MadeFor c coin.height coin.round e) ∧
      SMVBARandomCoinMaker.electedLeader c shares = some coin.leader
  | _ => True

/-- The share is not of a later epoch, or its coin is known, or its height is over. -/
def Settled (s : Core) (x : RandomnessShare) : Prop :=
  x.epoch ≤ s.epoch ∨ s.getCoinLeader x.height x.round ≠ none ∨ x.height + 2 ≤ s.height

structure CoinInv (c : Committee) (s : Core) : Prop where
  timely : s.Timely
  record : ∀ x ∈ s.trace, ShareMade c x
  settled : ∀ m, s.Did (.receive (.SPBDoneAndShare m)) → s.Settled m.share
  shares : ∀ key : ℕ × ℕ, ∀ x ∈ s.coinShares key, x.MadeFor c key.1 key.2 s.epoch

theorem Settled.step (h : s.Settled x) (ht : Step cfg s t) : t.Settled x := by
  rcases h with h | h | h
  · exact .inl (ht.extends.epoch ▸ h)
  · exact .inr (.inl (ht.getCoinLeader h))
  · exact .inr (.inr (h.trans ht.height_le))

theorem Issues.shareMade (hs : CoinInv cfg.committee s) {m : ConsensusMessage} (h : s.Issues cfg m)
    (dest : Option PublicKey) (tag : ℕ) : ShareMade cfg.committee (s.epoch, .send m dest tag) ∧
      ShareMade cfg.committee (s.epoch, .keep m) := by
  cases m with
  | SPBDoneAndShare m =>
    have hm := hs.record _ h
    exact ⟨hm, hm⟩
  | _ => exact ⟨trivial, trivial⟩

theorem PesLog.shareMade (hs : CoinInv cfg.committee s) (hn : cfg.name ∈ cfg.committee.sortedNames)
    {y : Event} (h : s.PesLog cfg y) : ShareMade cfg.committee (s.epoch, y) := by
  unfold PesLog at h
  split at h
  case h_4 x =>
    obtain ⟨-, -, hx⟩ := h
    rw [hx]
    exact ⟨⟨hn, rfl⟩, rfl⟩
  case h_5 m =>
    have hm := hs.record _ h.2.2.1
    exact hm
  case h_8 => exact (h.1.shareMade hs _ _).1
  case h_9 => exact (h.1.shareMade hs none 0).2
  all_goals trivial

theorem OptLog.shareMade {y : Event} (h : s.OptLog cfg y) {c : Committee} {e : ℕ} :
    ShareMade c (e, y) := by
  unfold OptLog at h
  split at h <;> trivial

theorem Records.shareMade (hs : CoinInv cfg.committee s) (hn : cfg.name ∈ cfg.committee.sortedNames)
    {y : Event} (h : Records cfg s t y) : ShareMade cfg.committee (s.epoch, y) := by
  cases h with
  | opt h => exact h.shareMade
  | pes _ h => exact h.shareMade hs hn
  | @coin coin _ _ _ _ hshares hl _ =>
    refine ⟨coin.shares, ?_, hl⟩
    rw [← hshares]
    exact hs.shares (coin.height, coin.round)
  | _ => trivial

/-- A share that is counted is one of the node's epoch. -/
theorem CoinInv.counted (hs : CoinInv cfg.committee s) {key : ℕ × ℕ} (h : Counted cfg s key x) :
    x.MadeFor cfg.committee key.1 key.2 s.epoch := by
  obtain ⟨⟨m, hm, rfl⟩, hf, hn, -, rfl⟩ := h
  rcases hm with hm | ⟨tag, hm⟩ | hm
  · have hmade : m.share.Made cfg.committee := hs.record _ hm
    refine ⟨hmade, rfl, rfl, ?_⟩
    rcases hs.settled m hm with he | hk | hh
    · exact le_antisymm he hf.1
    · exact absurd hn hk
    · have hlow := hf.2
      omega
  · obtain ⟨hmade, he⟩ : m.share.Made _ ∧ m.share.epoch = _ := hs.record _ hm
    exact ⟨hmade, rfl, rfl, he⟩
  · obtain ⟨hmade, he⟩ : m.share.Made _ ∧ m.share.epoch = _ := hs.record _ hm
    exact ⟨hmade, rfl, rfl, he⟩

theorem CoinInv.step (hs : CoinInv cfg.committee s) (hn : cfg.name ∈ cfg.committee.sortedNames)
    (h : Step cfg s t) : CoinInv cfg.committee t := by
  have he := h.extends.epoch
  refine ⟨hs.timely.step h, ?_, ?_, ?_⟩
  · rintro ⟨e, y⟩ hx
    rcases h.recorded hx with hx | ⟨hx, hr⟩
    · exact hs.record _ hx
    · simp only at hx
      rw [hx]
      exact hr.shareMade hs hn
  · intro m hm
    unfold Did at hm
    rw [he] at hm
    exact (hs.settled m (h.receive_mem hm)).step h
  · intro key x hx
    rw [he]
    rcases h.coinShares hx with hx | hx
    · exact hs.shares key x hx
    · exact hs.counted hx

theorem CoinInv.take {c : Committee} (hs : CoinInv c s) {m : ConsensusMessage}
    (hm : ∀ d, m = .SPBDoneAndShare d → d.share.Made c ∧ s.Settled d.share) :
    CoinInv c (s.log (.receive m)) := by
  refine ⟨hs.timely.take m, ?_, ?_, hs.shares⟩
  · intro x hx
    rcases List.mem_cons.mp hx with rfl | hx
    · cases m with
      | SPBDoneAndShare d => exact (hm d rfl).1
      | _ => trivial
    · exact hs.record x hx
  · intro d hd
    rcases List.mem_cons.mp hd with hd | hd
    · cases hd
      exact (hm d rfl).2
    · exact hs.settled d hd

theorem CoinInv.renewed {c : Committee} (hs : CoinInv c s) : CoinInv c s.renewed := by
  refine ⟨hs.timely.renewed, ?_, ?_, ?_⟩
  · intro x hx
    rcases mem_renewed_trace hx with hx | rfl | ⟨m, rfl, -, hm⟩
    · exact hs.record x hx
    · trivial
    · cases m with
      | SPBDoneAndShare d => exact hm.elim
      | _ => trivial
  · intro m hm
    have hle := hs.timely _ (receive_mem_renewed hm)
    rw [renewed_epoch] at hle
    simp only at hle
    omega
  · intro key x hx
    obtain ⟨marks, rest, heq, -, -⟩ := renewed_eq s
    rw [heq] at hx
    cases hx

theorem CoinInv.new (c : Committee) : CoinInv c .new := by
  refine ⟨.new, ?_, ?_, ?_⟩
  · intro x hx
    cases List.mem_singleton.mp hx
    trivial
  · intro m hm
    cases List.mem_singleton.mp hm
  · intro key x hx
    cases hx

end Core

/-! ### All nodes -/

/-- A share is taken only in its epoch, unless its coin is known or its height is over. -/
def TakesSettled (σ : Cores) (i : PublicKey) : Input → Prop
  | .core (.SPBDoneAndShare m) | .smvba (.SPBDoneAndShare m) => (σ i).Settled m.share
  | _ => True

instance (s : Core) (x : RandomnessShare) : Decidable (s.Settled x) :=
  inferInstanceAs (Decidable (_ ∨ _ ∨ _))

instance (σ : Cores) (i : PublicKey) (input : Input) : Decidable (TakesSettled σ i input) := by
  unfold TakesSettled
  rcases input
  case core m => rcases m <;> infer_instance
  case smvba m => rcases m <;> infer_instance
  all_goals infer_instance

theorem Arrives.shareMade {σ : Cores} {i : PublicKey} {m : MDoneAndShare} {input : Input}
    {c : Committee} (hs : ∀ k, ∀ x ∈ (σ k).trace, Core.ShareMade c x)
    (hm : input = .core (.SPBDoneAndShare m) ∨ input = .smvba (.SPBDoneAndShare m))
    (ha : Arrives (fun _ => False) σ i input) : m.share.Made c := by
  rcases hm with rfl | rfl
  · cases ha with
    | core _ h _ => exact (hs _ _ h).1
    | foreignCore h => exact h.elim
  · cases ha with
    | smvba _ h _ _ => exact (hs _ _ h).1
    | foreignSmvba h => exact h.elim
    | requeuedSmvba h _ => exact (hs _ _ h).elim

theorem inductive_coinInv (S : Setup) :
    Inductive S (fun k => k ∈ S.committee.sortedNames) (fun _ _ => False) TakesSettled
      (fun _ => True) (fun σ => ∀ k, (σ k).CoinInv S.committee) where
  earlier := fun _ _ _ h => h
  start := fun _ => .new _
  take := by
    rintro σ i m _ hs _ ⟨input, hm, ha, hg⟩ k
    by_cases hk : k = i
    · subst hk
      rw [Function.update_self]
      refine (hs k).take ?_
      rintro d rfl
      refine ⟨ha.shareMade (fun j => (hs j).record) hm, ?_⟩
      rcases hm with rfl | rfl <;> exact hg
    · rw [Function.update_of_ne hk]
      exact hs k
  turn := by
    intro σ i t hi _ hs _ ht k
    by_cases hk : k = i
    · subst hk
      rw [Function.update_self]
      cases ht with
      | step ht => exact (hs k).step hi ht
      | epoch _ ht => exact ht ▸ (hs k).renewed
    · rw [Function.update_of_ne hk]
      exact hs k

/-- The coins of a run are those that the signatures of the committee determine. -/
structure CoinsAgree (S : Setup) (σ : Digest → ℕ) (w : World) : Prop where
  determined : ∀ k e c, (e, .coin c) ∈ (w.core k).trace →
    coinLeader S.committee σ c.height c.round e = some c.leader
  same : ∀ k k' e c c', (e, .coin c) ∈ (w.core k).trace → (e, .coin c') ∈ (w.core k').trace →
    c.height = c'.height → c.round = c'.round → c.leader = c'.leader

theorem coinsAgree_of_settled {σ : Digest → ℕ} (hσ : ThresholdScheme S.committee σ)
    (h : GuardedRun S (fun k => k ∈ S.committee.sortedNames) (fun _ _ => False) TakesSettled w) :
    CoinsAgree S σ w := by
  have hinv := (h.invariant (inductive_coinInv S)).2 trivial
  have hdet : ∀ k e c, (e, .coin c) ∈ (w.core k).trace →
      coinLeader S.committee σ c.height c.round e = some c.leader := by
    intro k e c hc
    obtain ⟨shares, hmade, hl⟩ := (hinv k).record _ hc
    exact SMVBARandomCoinMaker.electedLeader_eq hσ hmade hl
  refine ⟨hdet, ?_⟩
  intro k k' e c c' hc hc' hh hr
  have hone := hdet k e c hc
  rw [hh, hr, hdet k' e c' hc'] at hone
  exact (Option.some.inj hone).symm

end Coins

/-! ### Shares of a later epoch -/

/-- The coins that a node has recorded, with the epochs. -/
def Core.coins [Crypto] (s : Core) : List (ℕ × RandomCoin) :=
  s.trace.filterMap fun x =>
    match x.2 with
    | .coin c => some (x.1, c)
    | _ => none

theorem Core.mem_coins [Crypto] {s : Core} {e : ℕ} {c : RandomCoin} (h : (e, c) ∈ s.coins) :
    (e, .coin c) ∈ s.trace := by
  obtain ⟨⟨e', y⟩, hx, hy⟩ := List.mem_filterMap.mp h
  cases y <;> cases hy
  exact hx

theorem thresholdScheme_symbolic : ThresholdScheme fourNodes fun d => d.val % 7 where
  correct := by
    have hid : (fourNodes.sortedNames.all fun k => fourNodes.id k == k.val) = true := by
      decide +kernel
    intro k hk d
    refine decide_eq_true ?_
    rw [eq_of_beq (List.all_eq_true.mp hid k hk)]
    rfl
  unique := by
    intro d l n hl h
    cases l with
    | nil => cases h
    | cons x l =>
      have hx : x.2 = (x.1, d) := of_decide_eq_true (hl x List.mem_cons_self)
      cases h
      change x.2.2.val % 7 = d.val % 7
      rw [hx]

/-- Nodes `0`, `1` and `2` end epoch `0` and finish their first values of epoch `1`. -/
def toNextCoin : List Act :=
  [.boot 0, .boot 1, .boot 2, .boot 3, .deliver 0 1 0, .deliver 2 1 0, .deliver 1 0 0, .deliver 2 0
    0, .deliver 0 1 1, .deliver 1 0 3, .deliver 2 1 1, .deliver 0 1 4, .deliver 0 2 0, .deliver 2 0
    4, .deliver 1 2 0, .deliver 2 1 5, .deliver 0 2 2, .deliver 1 0 5, .deliver 2 0 5, .deliver 1 2
    3, .deliver 0 1 6, .deliver 2 1 6, .deliver 0 2 4, .deliver 1 0 6, .deliver 2 0 6, .deliver 0 1
    7, .deliver 1 2 4, .deliver 0 1 8, .deliver 1 0 7, .deliver 2 1 8, .deliver 0 2 5, .deliver 2 0
    8, .deliver 1 2 5, .deliver 2 1 9, .deliver 0 2 6, .deliver 1 0 9, .deliver 2 0 9, .deliver 0 1
    10, .deliver 1 2 7, .deliver 0 1 11, .deliver 1 0 10, .deliver 2 1 11, .deliver 0 2 8, .deliver
    2 0 11, .deliver 1 2 8, .deliver 2 1 12, .deliver 0 2 9, .deliver 1 0 12, .deliver 1 2 10,
    .deliver 0 1 13, .deliver 0 2 11, .deliver 1 2 11, .deliver 1 0 13, .deliver 0 1 16, .deliver 2
    1 16, .deliver 0 1 16, .deliver 2 1 16, .deliver 1 0 14, .deliver 2 0 14, .deliver 0 1 17,
    .deliver 1 0 17, .deliver 2 1 17, .deliver 0 1 20, .deliver 0 2 12, .deliver 2 0 18, .deliver 1
    2 12, .deliver 2 1 21, .deliver 0 2 14, .deliver 1 0 19, .deliver 2 0 19, .deliver 1 2 15,
    .deliver 0 1 22, .deliver 2 1 22, .deliver 0 2 16, .deliver 1 0 20, .deliver 2 0 20, .deliver 0
    1 23, .deliver 1 2 16, .deliver 0 1 24, .deliver 1 0 21, .deliver 2 1 24, .deliver 0 2 17,
    .deliver 2 0 22, .deliver 1 2 17, .deliver 2 1 25, .deliver 0 2 18, .deliver 1 0 23, .deliver 2
    0 23, .deliver 0 1 26, .deliver 1 2 19, .deliver 0 1 27, .deliver 1 0 24, .deliver 2 1 27,
    .deliver 0 2 20, .deliver 2 0 25, .deliver 1 2 20, .deliver 2 1 28, .deliver 0 2 21, .deliver 1
    0 26, .deliver 1 2 22, .deliver 0 1 29, .deliver 0 2 23, .deliver 1 2 23]

/-- Node `3`, which is still in epoch `0`, takes the shares of epoch `1`. -/
def toCrossedShares : List Act :=
  [.deliver 3 0 27, .deliver 3 1 30]

theorem coinsAgree_before_the_shares_cross : ∃ w, sampleSetup.Runs w ∧ (w.core 1).coins ≠ [] ∧
    CoinsAgree sampleSetup (fun d => d.val % 7) w := by
  obtain ⟨w, hr, hm⟩ := exists_guarded_runs sampleSetup
    (fun σ i input => decide (TakesSettled σ i input))
      (fun σ i input => of_decide_eq_true) toNextCoin (fun w => (w.core 1).coins ≠ [])
    (by decide +kernel) (by decide +kernel)
  exact ⟨w, hr.run, hm, coinsAgree_of_settled thresholdScheme_symbolic hr⟩

/-- Node `3` combines its share of epoch `0` with a share of epoch `1`. -/
theorem not_coinsAgree_after_the_shares_cross : ¬ ∀ (S : Setup) (σ : Digest → ℕ) (w : World),
    ThresholdScheme S.committee σ → S.Runs w → CoinsAgree S σ w := by
  intro h
  obtain ⟨w, hr, hm⟩ := exists_play sampleSetup (toNextCoin ++ toCrossedShares)
    (fun w => ∃ x ∈ (w.core 1).coins, ∃ y ∈ (w.core 3).coins, x.1 = y.1 ∧ x.2.height = y.2.height ∧
      x.2.round = y.2.round ∧ x.2.leader ≠ y.2.leader)
    (by decide +kernel) (by decide +kernel)
  obtain ⟨⟨e, c⟩, hx, ⟨e', c'⟩, hy, he, hh, hround, hne⟩ := hm
  simp only at he
  subst he
  exact hne ((h _ _ w thresholdScheme_symbolic hr).same 1 3 e c c' (Core.mem_coins hx)
    (Core.mem_coins hy) hh hround)

end Ipotane
