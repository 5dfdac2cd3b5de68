import Ipotane.Branches

/-! Fallback chains: the blocks that a value of the agreement stands on, and the votes for them. -/
namespace Ipotane

open Lib Handler

section Chains

variable [Crypto]

/-! ### The votes of all nodes -/

/-- The blocks that a message hands to a fallback chain. -/
def ConsensusMessage.chain : ConsensusMessage → List Block
  | FBPropose b | FBLoopBack b => [b]
  | _ => []

def ConsensusMessage.ballots : ConsensusMessage → List HVote
  | FBVote v => [v]
  | _ => []

def Event.chain : Event → List Block
  | receive m | send m _ _ | keep m | requeue m => m.chain
  | suspend b tag => if tag = FALLBACK then [b] else []
  | _ => []

def Event.ballots : Event → List HVote
  | receive m | send m _ _ | keep m | requeue m => m.ballots
  | sign (.vote v) => if v.tag = PES then [v] else []
  | _ => []

/-- The author of the block has broadcast it for its fallback chain. -/
def Block.Planted (b : Block) (σ : Cores) : Prop :=
  (b.epoch, .send (.FBPropose b) none PES) ∈ (σ b.author).trace ∧ 0 < b.round

/-- The vote is that of its author on such a block. -/
def HVote.Backs (v : HVote) (σ : Cores) (b : Block) : Prop :=
  v = HVote.new b v.author PES ∧ b.Planted σ ∧ ∃ e, (e, .sign (.vote v)) ∈ (σ v.author).trace

/-- A vote on a block goes to the author of the block, which has not broadcast it in a
later epoch. -/
def Addressed (k : PublicKey) : ℕ × Event → Prop
  | (e, .receive (.FBVote v)) | (e, .keep (.FBVote v)) => v.proposer = k ∧ v.epoch ≤ e
  | (_, .send (.FBVote v) dest _) => dest = some v.proposer
  | (_, .requeue (.FBVote _)) => False
  | _ => True

structure Fair (σ : Cores) (k : PublicKey) (x : ℕ × Event) : Prop where
  made : ∀ b, x.2 = .sign (.block b) → b.author = k ∧ b.epoch = x.1
  chain : ∀ b ∈ x.2.chain, b.Planted σ
  ballots : ∀ v ∈ x.2.ballots, ∃ b, v.Backs σ b
  addressed : Addressed k x

variable {S : Setup} {w : World} {σ τ : Cores} {k : PublicKey} {s t : Core} {b : Block}

theorem Block.Planted.mono (h : b.Planted σ) (hl : Later σ τ) : b.Planted τ :=
  ⟨(hl _).subset h.1, h.2⟩

theorem HVote.Backs.mono {v : HVote} (h : v.Backs σ b) (hl : Later σ τ) : v.Backs τ b := by
  obtain ⟨hv, hb, e, he⟩ := h
  exact ⟨hv, hb.mono hl, e, (hl _).subset he⟩

theorem Fair.mono {x : ℕ × Event} (h : Fair σ k x) (hl : Later σ τ) : Fair τ k x where
  made := h.made
  chain := fun b hb => (h.chain b hb).mono hl
  ballots := by
    intro v hv
    obtain ⟨b, hb⟩ := h.ballots v hv
    exact ⟨b, hb.mono hl⟩
  addressed := h.addressed

namespace Core

variable {cfg : Config} {y : Event}

theorem OptLog.plain (h : s.OptLog cfg y) : y.chain = [] ∧ y.ballots = [] := by
  unfold OptLog at h
  split at h
  case h_8 =>
    obtain ⟨-, rfl⟩ := h
    exact ⟨rfl, rfl⟩
  all_goals first | exact ⟨rfl, rfl⟩ | exact h.elim

theorem PesLog.chain_inv (h : s.PesLog cfg y) (hb : b ∈ y.chain) :
    (∃ dest tag, y = .send (.FBPropose b) dest tag) ∨ s.Hears (.FBPropose b) := by
  cases y with
  | send m dest tag =>
    cases m with
    | FBPropose c =>
      rw [List.mem_singleton.mp hb]
      exact .inl ⟨dest, tag, rfl⟩
    | FBLoopBack c => exact h.1.elim
    | _ => cases hb
  | keep m =>
    cases m with
    | FBPropose c => exact nomatch h.2
    | FBLoopBack c => exact h.1.elim
    | _ => cases hb
  | receive m => exact h.elim
  | requeue m => exact h.elim
  | suspend c tag =>
    change b ∈ if tag = FALLBACK then [c] else [] at hb
    split at hb
    · rename_i htag
      rw [List.mem_singleton.mp hb]
      rcases h with ⟨-, h, -⟩ | ⟨hpes, -⟩
      · exact .inr h
      · exact absurd (hpes.symm.trans htag) (by decide)
    · cases hb
  | _ => cases hb

theorem PesLog.ballots_inv {v : HVote} (h : s.PesLog cfg y) (hv : v ∈ y.ballots) :
    (y = .sign (.vote v) ∧ ∃ b, v = HVote.new b cfg.name PES ∧ s.Fallen b) ∨
      (s.Did (.sign (.vote v)) ∧ v.tag = PES) := by
  cases y with
  | send m dest tag =>
    cases m with
    | FBVote u =>
      rw [List.mem_singleton.mp hv]
      exact .inr h.1
    | _ => cases hv
  | keep m =>
    cases m with
    | FBVote u =>
      rw [List.mem_singleton.mp hv]
      exact .inr h.1
    | _ => cases hv
  | receive m => exact h.elim
  | requeue m => exact h.elim
  | sign x =>
    cases x with
    | vote u =>
      change v ∈ if u.tag = PES then [u] else [] at hv
      split at hv
      · obtain ⟨b, rfl, -, hb, -⟩ := h
        rw [List.mem_singleton.mp hv]
        exact .inl ⟨rfl, b, rfl, hb⟩
      · cases hv
    | _ => cases hv
  | _ => cases hv

theorem Records.chain_inv (h : Records cfg s t y) (hb : b ∈ y.chain) :
    (∃ dest tag, y = .send (.FBPropose b) dest tag) ∨ s.Hears (.FBPropose b) := by
  cases h with
  | opt h =>
    rw [h.plain.1] at hb
    cases hb
  | pes _ h => exact h.chain_inv hb
  | _ => cases hb

theorem Records.ballots_inv {v : HVote} (h : Records cfg s t y) (hv : v ∈ y.ballots) :
    (y = .sign (.vote v) ∧ ∃ b, v = HVote.new b cfg.name PES ∧ s.Fallen b) ∨
      (s.Did (.sign (.vote v)) ∧ v.tag = PES) := by
  cases h with
  | opt h =>
    rw [h.plain.2] at hv
    cases hv
  | pes _ h => exact h.ballots_inv hv
  | vote _ _ _ _ _ _ => exact nomatch hv
  | _ => cases hv

end Core

/-- Every entry of a node is fair. -/
structure Honest (σ : Cores) (k : PublicKey) (s : Core) : Prop where
  timely : s.Timely
  kept : s.Kept
  fair : ∀ x ∈ s.trace, Fair σ k x

namespace Honest

variable {cfg : Config}

theorem did_planted (hs : Honest σ k s) {y : Event} (h : s.Did y) : ∀ b ∈ y.chain, b.Planted σ :=
  (hs.fair _ h).chain

theorem heard_planted (hs : Honest σ k s) {m : ConsensusMessage} (h : s.Hears m) :
    ∀ b ∈ m.chain, b.Planted σ := by
  rcases h with h | ⟨tag, h⟩ | h
  · exact hs.did_planted h
  · exact hs.did_planted h
  · exact hs.did_planted h

theorem fallen_planted (hs : Honest σ k s) (h : s.Fallen b) : b.Planted σ := by
  rcases h.hears with h | h
  · exact hs.heard_planted h b (List.mem_singleton.mpr rfl)
  · exact hs.heard_planted h b (List.mem_singleton.mpr rfl)

/-- The author of a block has not broadcast it in an epoch that it has not reached. -/
theorem backs_epoch (hs : ∀ k, Honest σ k (σ k)) {v : HVote} (h : v.Backs σ b)
    (hk : v.proposer = k) : v.epoch ≤ (σ k).epoch := by
  obtain ⟨hv, ⟨hb, -⟩, -⟩ := h
  have hle := (hs b.author).timely _ hb
  rw [hv] at hk ⊢
  have ha : b.author = k := hk
  rwa [ha] at hle

/-- A vote that the node has signed for a fallback chain is on a block of that chain. -/
theorem signed_backs (hs : Honest σ k s) {v : HVote} (h : s.Did (.sign (.vote v)))
    (htag : v.tag = PES) : ∃ b, v.Backs σ b := by
  refine (hs.fair _ h).ballots v ?_
  change v ∈ if v.tag = PES then [v] else []
  rw [if_pos htag]
  exact List.mem_singleton.mpr rfl

theorem backed (hs : Honest σ k (σ k)) (hl : Later σ τ) {y : Event} (hname : cfg.name = k)
    (h : Core.Records cfg (σ k) (τ k) y) (hy : ((σ k).epoch, y) ∈ (τ k).trace) {v : HVote}
    (hv : v ∈ y.ballots) : ∃ b, v.Backs τ b := by
  rcases h.ballots_inv hv with ⟨rfl, b, hvb, hb⟩ | ⟨hd, htag⟩
  · have ha : v.author = k := by
      rw [hvb]
      exact hname
    refine ⟨b, ?_, (hs.fallen_planted hb).mono hl, _, ha ▸ hy⟩
    rw [ha, ← hname]
    exact hvb
  · obtain ⟨b, hb⟩ := hs.signed_backs hd htag
    exact ⟨b, hb.mono hl⟩

theorem planted (hs : Honest σ k (σ k)) (hl : Later σ τ) {y : Event}
    (h : Core.Records cfg (σ k) (τ k) y) (hy : ((σ k).epoch, y) ∈ (τ k).trace)
    (hb : b ∈ y.chain) : b.Planted τ := by
  rcases h.chain_inv hb with ⟨dest, tag, rfl⟩ | hheard
  · obtain ⟨-, -, hhead, -⟩ := h.branch_inv
    obtain ⟨hr, rfl, rfl⟩ := h.branch_form
    obtain ⟨ha, he⟩ := (hs.fair _ (List.mem_of_mem_head? hhead)).made b rfl
    refine ⟨?_, hr⟩
    rw [ha, he]
    exact hy
  · exact (hs.heard_planted hheard b (List.mem_singleton.mpr rfl)).mono hl

theorem addressed (hs : ∀ k, Honest σ k (σ k)) {y : Event} (hname : cfg.name = k)
    (h : Core.Records cfg (σ k) t y) : Addressed k ((σ k).epoch, y) := by
  cases y with
  | receive m => exact h.not_receive.elim
  | requeue m => exact h.not_requeue.elim
  | send m dest tag =>
    cases m with
    | FBVote v =>
      cases h with
      | opt h => exact h.elim
      | pes _ h => exact h.2.2
    | _ => trivial
  | keep m =>
    cases m with
    | FBVote v =>
      cases h with
      | opt h => exact h.elim
      | pes _ h =>
        obtain ⟨⟨hd, htag⟩, haddr⟩ := h
        have hproposer : v.proposer = k := (Option.some.inj haddr).trans hname
        obtain ⟨b, hb⟩ := (hs k).signed_backs hd htag
        exact ⟨hproposer, backs_epoch hs hb hproposer⟩
    | _ => trivial
  | _ => trivial

theorem records (hs : ∀ k, Honest σ k (σ k)) (hl : Later σ τ) {y : Event} (hname : cfg.name = k)
    (h : Core.Records cfg (σ k) (τ k) y) (hy : ((σ k).epoch, y) ∈ (τ k).trace) :
    Fair τ k ((σ k).epoch, y) where
  made := by
    rintro b rfl
    obtain ⟨ha, he, -⟩ := h.block_made
    exact ⟨ha.trans hname, he⟩
  chain := fun b hb => (hs k).planted hl h hy hb
  ballots := fun v hv => (hs k).backed hl hname h hy hv
  addressed := addressed hs hname h

end Honest

/-- A message that has been sent is fair where it arrives. -/
theorem Fair.sent {i j : PublicKey} {e tag : ℕ} {m : ConsensusMessage} {dest : Option PublicKey}
    (hs : ∀ k, Honest σ k (σ k)) (h : Fair σ j (e, .send m dest tag))
    (hd : dest = none ∨ dest = some i) : Fair σ i ((σ i).epoch, .receive m) where
  made := fun b hb => (nomatch hb)
  chain := h.chain
  ballots := h.ballots
  addressed := by
    cases m with
    | FBVote v =>
      have haddr : dest = some v.proposer := h.addressed
      obtain ⟨b, hb⟩ := h.ballots v (List.mem_singleton.mpr rfl)
      have hproposer : v.proposer = i := by
        rcases hd with hd | hd
        · rw [haddr] at hd
          cases hd
        · exact Option.some.inj (haddr.symm.trans hd)
      exact ⟨hproposer, Honest.backs_epoch hs hb hproposer⟩
    | _ => trivial

theorem Fair.requeued {i : PublicKey} {e e' : ℕ} {m : ConsensusMessage}
    (h : Fair σ i (e, .requeue m)) : Fair σ i (e', .receive m) where
  made := fun b hb => (nomatch hb)
  chain := h.chain
  ballots := h.ballots
  addressed := by
    cases m with
    | FBVote v => exact h.addressed.elim
    | _ => trivial

theorem Arrives.fair {i : PublicKey} {m : ConsensusMessage} {input : Input}
    (hs : ∀ k, Honest σ k (σ k)) (hm : input = .core m ∨ input = .smvba m)
    (ha : Arrives (fun _ => False) σ i input) : Fair σ i ((σ i).epoch, .receive m) := by
  have hmsg : ∀ m', (input = .core m' ∨ input = .smvba m') → m' = m := by
    rintro m' (rfl | rfl) <;> rcases hm with hm | hm <;> cases hm <;> rfl
  have hnone : m.chain = [] → m.ballots = [] → Fair σ i ((σ i).epoch, .receive m) := by
    intro hc hb
    refine ⟨fun b hb => (nomatch hb), fun b hmem => ?_, fun v hmem => ?_, ?_⟩
    · change b ∈ m.chain at hmem
      rw [hc] at hmem
      cases hmem
    · change v ∈ m.ballots at hmem
      rw [hb] at hmem
      cases hmem
    · cases m with
      | FBVote v => cases hb
      | _ => trivial
  cases ha with
  | core _ h hd =>
    obtain rfl := hmsg _ (.inl rfl)
    exact Fair.sent hs ((hs _).fair _ h) hd
  | smvba _ h _ hd =>
    obtain rfl := hmsg _ (.inr rfl)
    exact Fair.sent hs ((hs _).fair _ h) hd
  | requeued h =>
    obtain rfl := hmsg _ (.inl rfl)
    exact ((hs i).fair _ h).requeued
  | requeuedSmvba h _ =>
    obtain rfl := hmsg _ (.inr rfl)
    exact ((hs i).fair _ h).requeued
  | foreignCore h => exact h.elim
  | foreignSmvba h => exact h.elim
  | timer _ => rcases hm with hm | hm <;> cases hm
  | fallbackPayload h =>
    obtain rfl := hmsg _ (.inr rfl)
    exact ⟨fun b hb => (nomatch hb), ((hs i).fair _ h).chain, fun v hv => (nomatch hv), trivial⟩
  | outputPayload _ =>
    obtain rfl := hmsg _ (.inr rfl)
    exact hnone rfl rfl
  | request _ _ =>
    obtain rfl := hmsg _ (.inl rfl)
    exact hnone rfl rfl
  | payload _ =>
    obtain rfl := hmsg _ (.inl rfl)
    exact hnone rfl rfl
  | parent _ _ =>
    obtain rfl := hmsg _ (.inl rfl)
    exact hnone rfl rfl

/-- What waits for its epoch has been taken, or is of no chain. -/
theorem Honest.waiting (hs : Honest σ k s) {q : ℕ × ConsensusMessage} (hq : q ∈ s.unhandleMessage)
    (hp : Core.Proposes q.2) (e : ℕ) : Fair σ k (e, .requeue q.2) := by
  obtain ⟨n, m⟩ := q
  rcases hs.kept.waiting _ hq with ⟨b, hb⟩ | ⟨e', he'⟩
  · simp only at hb
    subst hb
    exact ⟨fun c hc => (nomatch hc), fun c hc => (nomatch hc), fun v hv => (nomatch hv), trivial⟩
  · have hfair := hs.fair _ he'
    refine ⟨fun c hc => (nomatch hc), hfair.chain, hfair.ballots, ?_⟩
    cases m with
    | FBVote v => exact hp.elim
    | _ => trivial

theorem pointwise_honest (S : Setup) : Pointwise S (fun k => k ∈ S.committee.sortedNames)
    (fun _ _ => False) (fun _ _ _ => True) (fun _ => True) Honest where
  earlier := fun _ => id
  later := fun hl hs => ⟨hs.timely, hs.kept, fun x hx => (hs.fair x hx).mono hl⟩
  start := by
    intro k
    refine ⟨.new, .new, fun x hx => ?_⟩
    cases List.mem_singleton.mp hx
    exact ⟨fun b hb => (nomatch hb), fun b hb => (nomatch hb), fun v hv => (nomatch hv), trivial⟩
  take := by
    rintro σ i m _ hs - ⟨input, hm, ha, -⟩
    refine ⟨(hs i).timely.take m, (hs i).kept.take m, fun x hx => ?_⟩
    rcases List.mem_cons.mp hx with rfl | hx
    · exact ha.fair hs hm
    · exact (hs i).fair x hx
  turn := by
    intro σ i t _ hs _ ht
    have hl : Later σ (Function.update σ i t) := later_update ht.trace
    have hold : ∀ x ∈ (σ i).trace, Fair (Function.update σ i t) i x :=
      fun x hx => ((hs i).fair x hx).mono hl
    cases ht with
    | step ht =>
      refine ⟨(hs i).timely.step ht, (hs i).kept.step ht, fun x hx => ?_⟩
      rcases ht.recorded hx with hx' | ⟨he, hr⟩
      · exact hold x hx'
      · obtain ⟨e, y⟩ := x
        simp only at he
        subst he
        have hnew : Core.Records (S.config i) (σ i) (Function.update σ i t i) y := by
          rwa [Function.update_self]
        have hmem : ((σ i).epoch, y) ∈ (Function.update σ i t i).trace := by
          rwa [Function.update_self]
        exact Honest.records hs hl rfl hnew hmem
    | epoch _ ht =>
      subst ht
      refine ⟨(hs i).timely.renewed, (hs i).kept.renewed, fun x hx => ?_⟩
      rcases Core.mem_renewed_trace hx with hx | rfl | ⟨m, rfl, hq, hp⟩
      · exact hold x hx
      · exact ⟨fun b hb => (nomatch hb), fun b hb => (nomatch hb), fun v hv =>
          (nomatch hv), trivial⟩
      · exact ((hs i).waiting hq hp _).mono hl

theorem Setup.Runs.honest (h : S.Runs w) (k : PublicKey) : Honest w.core k (w.core k) :=
  (h.invariant (pointwise_honest S).everywhere).2 trivial k

/-! ### Certificates -/

/-- The certificate is that of a quorum of members who have voted for the block. -/
structure QC.Certifies (q : QC) (c : Committee) (σ : Cores) (b : Block) : Prop where
  hash : q.hash = b.digest
  proposer : q.proposer = b.author
  epoch : q.epoch = b.epoch
  height : q.height = b.height
  round : q.round = b.round
  nodup : (q.votes.map Prod.fst).Nodup
  quorum : c.quorumThreshold ≤ ((q.votes.map Prod.fst).map c.stake).sum
  voted : ∀ x ∈ q.votes, x.1 ∈ c.sortedNames ∧ x.2 = (HVote.new b x.1 PES).signature ∧
    ∃ e, (e, .sign (.vote (HVote.new b x.1 PES))) ∈ (σ x.1).trace

/-- `F 1`, ..., `F L` is the fallback chain that the certificate of the block is on top of. -/
structure Chained (S : Setup) (σ : Cores) (b : Block) (F : ℕ → Block) : Prop where
  length : 0 < S.parameters.fallbackLength
  member : ∀ r, 0 < r → r ≤ S.parameters.fallbackLength →
    (F r).author = b.author ∧ (F r).epoch = b.epoch ∧ (F r).height = b.height ∧ (F r).round = r ∧
      (F r).Planted σ
  linked : ∀ r, 0 < r → r < S.parameters.fallbackLength →
    (F (r + 1)).qc.Certifies S.committee σ (F r)
  headed : b.qc.Certifies S.committee σ (F S.parameters.fallbackLength)

/-- Votes that agree on the block make a certificate of it. -/
theorem QC.TallyOf.certifies {q : QC} {c : Committee} {P : HVote → Prop} (h : q.TallyOf c P)
    (hp : ∀ v, P v → v.Backs σ b)
    (hm : ∀ k (e : ℕ) (v : HVote), (e, .sign (.vote v)) ∈ (σ k).trace → k ∈ c.sortedNames) :
    q.Certifies c σ b := by
  obtain ⟨l, v, hall, hc, rfl⟩ := h
  have hback : ∀ u ∈ counted HVote.author l ++ [v], u.Backs σ b := by
    intro u hu
    refine hp u (hall u ?_)
    rcases List.mem_append.mp hu with hu | hu
    · exact List.mem_append_left _ (mem_of_mem_counted hu)
    · exact List.mem_append_right _ hu
  have hv := (hback v (List.mem_append_right _ (List.mem_singleton_self v))).1
  have hauthors : (((counted HVote.author l ++ [v]).map fun v =>
    (v.author, v.signature)).map Prod.fst) =
      (counted HVote.author l ++ [v]).map HVote.author := by
    rw [List.map_map]
    rfl
  constructor
  · exact congrArg HVote.hash hv
  · exact congrArg HVote.proposer hv
  · exact congrArg HVote.epoch hv
  · exact congrArg HVote.height hv
  · exact congrArg HVote.round hv
  · exact hauthors ▸ hc.nodup
  · exact hauthors ▸ hc.threshold_le
  · intro x hx
    obtain ⟨u, hu, rfl⟩ := List.mem_map.mp hx
    obtain ⟨hu, -, e, he⟩ := hback u hu
    rw [hu] at he
    exact ⟨hm _ _ _ he, congrArg HVote.signature hu, e, he⟩

section Runs

variable {f : ℕ} {e : ℕ} {q : QC}

/-- A vote that counts for a certificate is on a block of the node, of the epoch of the
certificate. -/
theorem Setup.Runs.backed (h : S.Runs w) {v : HVote} (hv : (w.core k).Heard e (.FBVote v))
    (he : e ≤ v.epoch) : ∃ b, v.Backs w.core b ∧ b.author = k ∧ b.epoch = e := by
  have hs := h.honest k
  have hentry : (∃ b, v.Backs w.core b) ∧ v.proposer = k ∧ v.epoch ≤ e := by
    rcases hv with hv | ⟨tag, hv⟩ | hv
    · have hfair := hs.fair _ hv
      exact ⟨hfair.ballots v (List.mem_singleton.mpr rfl), hfair.addressed⟩
    · have hdest : none = some v.proposer := (hs.fair _ hv).addressed
      cases hdest
    · have hfair := hs.fair _ hv
      exact ⟨hfair.ballots v (List.mem_singleton.mpr rfl), hfair.addressed⟩
  obtain ⟨⟨b, hb⟩, hproposer, hle⟩ := hentry
  have ha : v.proposer = b.author := congrArg HVote.proposer hb.1
  have hepoch : v.epoch = b.epoch := congrArg HVote.epoch hb.1
  exact ⟨b, hb, ha.symm.trans hproposer, by omega⟩

variable (hn : S.committee.total = 3 * f + 1)

include hn

theorem Setup.Runs.branching (h : S.Runs w) (k : PublicKey) : (w.core k).Branching := by
  have hmod : (S.config k).committee.total % 3 = 1 := by
    change S.committee.total % 3 = 1
    omega
  refine (h.reachable k).branching hmod ?_
  rintro ⟨e, y⟩ hx q hq
  simp only at hq
  subst hq
  obtain ⟨l, v, hall, -, -⟩ := ((h.reachable k).polled hmod).tallies e q hx
  obtain ⟨hv, he, -, hr⟩ := hall v (List.mem_append_right _ (List.mem_singleton_self v))
  obtain ⟨b, ⟨hb, hplanted, -⟩, -, -⟩ := h.backed hv he
  have hround : v.round = b.round := congrArg HVote.round hb
  have hpos := hplanted.2
  omega

/-- Blocks of one author, epoch, height and round are the same block. -/
theorem Setup.Runs.planted_unique (h : S.Runs w) {b d : Block} (hb : b.Planted w.core)
    (hd : d.Planted w.core) (ha : b.author = d.author) (hs : SameBranch b d) : b = d := by
  by_contra hne
  have hsym : Std.Symm fun b c : Block => ¬ SameBranch b c :=
    ⟨fun _ _ hn h => hn ⟨h.1.symm, h.2.1.symm, h.2.2.symm⟩⟩
  have hmem : ∀ {b : Block}, b.Planted w.core → b ∈ (w.core b.author).branches :=
    fun hb => Core.mem_branches.mpr ⟨_, _, _, hb.1⟩
  have hbm := hmem hb
  rw [ha] at hbm
  exact (h.branching hn d.author).once.forall hbm (hmem hd) hne hs

/-- A certificate that a node has completed is one of a block that the node has broadcast. -/
theorem Setup.Runs.certified (h : S.Runs w) (hq : (e, .assembledFallback q) ∈ (w.core k).trace) :
    ∃ b, b.Planted w.core ∧ b.author = k ∧ b.epoch = e ∧ b.height = q.height ∧ b.round = q.round ∧
      q.Certifies S.committee w.core b := by
  have hmod : (S.config k).committee.total % 3 = 1 := by
    change S.committee.total % 3 = 1
    omega
  have htally := ((h.reachable k).polled hmod).tallies e q hq
  obtain ⟨l, v, hall, -, -⟩ := id htally
  obtain ⟨hv, hle, hh, hr⟩ := hall v (List.mem_append_right _ (List.mem_singleton_self v))
  obtain ⟨b, hb, ha, he⟩ := h.backed hv hle
  have hbh : v.height = b.height := congrArg HVote.height hb.1
  have hbr : v.round = b.round := congrArg HVote.round hb.1
  refine ⟨b, hb.2.1, ha, he, hbh.symm.trans hh, hbr.symm.trans hr, htally.certifies ?_ ?_⟩
  · -- all votes of the tally are on this block
    rintro u ⟨hu, hule, huh, hur⟩
    obtain ⟨d, hd, hda, hde⟩ := h.backed hu hule
    have hdh : u.height = d.height := congrArg HVote.height hd.1
    have hdr : u.round = d.round := congrArg HVote.round hd.1
    have hsame : SameBranch d b := ⟨hde.trans he.symm, by omega, by omega⟩
    rwa [← h.planted_unique hn hd.2.1 hb.2.1 (hda.trans ha.symm) hsame]
  · intro i e' u hu
    by_contra hi
    rw [h.core_new hi] at hu
    exact Core.not_own_of_new hu trivial

/-- Under a certificate of round `n` there are the blocks of the rounds up to `n`. -/
theorem Setup.Runs.chain_below (h : S.Runs w) (n : ℕ) :
    ∀ q, (e, .assembledFallback q) ∈ (w.core k).trace → q.round = n → ∃ F : ℕ → Block,
      (∀ r, 0 < r → r ≤ n → (F r).author = k ∧ (F r).epoch = e ∧ (F r).height = q.height ∧
        (F r).round = r ∧ (F r).Planted w.core) ∧
      (∀ r, 0 < r → r < n → (F (r + 1)).qc.Certifies S.committee w.core (F r)) ∧
      q.Certifies S.committee w.core (F n) := by
  induction n with
  | zero =>
    intro q hq hr
    obtain ⟨b, hb, -, -, -, hround, -⟩ := h.certified hn hq
    have := hb.2
    omega
  | succ n ih =>
    intro q hq hr
    obtain ⟨b, hb, ha, he, hh, hround, hcert⟩ := h.certified hn hq
    have hgrown := ((h.branching hn b.author).grown _ _ _ _ hb.1).2
    rw [ha, he] at hgrown
    -- the chain below `b`, if there is one
    have hbelow : ∃ F : ℕ → Block, (∀ r, 0 < r → r ≤ n → (F r).author = k ∧ (F r).epoch = e ∧
        (F r).height = q.height ∧ (F r).round = r ∧ (F r).Planted w.core) ∧
        (∀ r, 0 < r → r < n → (F (r + 1)).qc.Certifies S.committee w.core (F r)) ∧
        (0 < n → b.qc.Certifies S.committee w.core (F n)) := by
      by_cases hzero : n = 0
      · exact ⟨fun _ => b, by omega, by omega, by omega⟩
      · rcases hgrown with hone | ⟨hmade, hheight, hnext⟩
        · omega
        · obtain ⟨F, hmember, hlinked, hheaded⟩ := ih b.qc hmade (by omega)
          refine ⟨F, fun r hpos hle => ?_, hlinked, fun _ => hheaded⟩
          obtain ⟨ha, he, hFh, hrest⟩ := hmember r hpos hle
          exact ⟨ha, he, by omega, hrest⟩
    obtain ⟨F, hmember, hlinked, hheaded⟩ := hbelow
    have hold : ∀ r, r ≤ n → Function.update F (n + 1) b r = F r := fun r hr =>
      Function.update_of_ne (by omega) _ _
    refine ⟨Function.update F (n + 1) b, fun r hpos hle => ?_, fun r hpos hlt => ?_, ?_⟩
    · by_cases hlast : r = n + 1
      · subst hlast
        rw [Function.update_self]
        exact ⟨ha, he, hh, hround.trans hr, hb⟩
      · rw [hold r (by omega)]
        exact hmember r hpos (by omega)
    · rw [hold r (by omega)]
      by_cases hlast : r = n
      · subst hlast
        rw [Function.update_self]
        exact hheaded hpos
      · rw [hold (r + 1) (by omega)]
        exact hlinked r hpos (by omega)
    · rw [Function.update_self]
      exact hcert

/-- A node broadcasts one block for each round of a fallback chain, and what it proposes or hands on
in an agreement stands on the whole chain of the author. -/
theorem Setup.Runs.fallback_chains (h : S.Runs w) (k : PublicKey) :
    (w.core k).BranchesOnce ∧
    (∀ e v p dest tag, (e, .send (.SPBPropose v p) dest tag) ∈ (w.core k).trace →
      v.block.author = k ∧ v.block.epoch = e) ∧
    ∀ e m dest tag, (e, .send m dest tag) ∈ (w.core k).trace → ∀ v ∈ m.values, v.val = PES →
      ∃ F, Chained S w.core v.block F := by
  refine ⟨(h.branching hn k).once, fun e v p dest tag =>
    (h.reachable k).harvest.sent e v p dest tag, ?_⟩
  have hstocked : (w.core k).Stocked fun v => v.val = PES → ∃ F, Chained S w.core v.block F := by
    refine ((h.invariant (inductive_stocked S fun v n hv => hv)).2 ?_ k).2
    intro i e v hv hpes
    obtain ⟨ha, he, hstands⟩ := (h.reachable i).harvest.inputs e v hv
    obtain ⟨hmade, hheight, hround⟩ := hstands (by rw [hpes]; decide)
    have ha : v.block.author = i := ha
    obtain ⟨F, hmember, hlinked, hheaded⟩ := h.chain_below hn _ _ hmade hround
    obtain ⟨b, hb, -, -, -, hbr, -⟩ := h.certified hn hmade
    have hlength : 0 < S.parameters.fallbackLength := by
      have hpos := hb.2
      change v.block.qc.round = S.parameters.fallbackLength at hround
      omega
    refine ⟨F, hlength, fun r hpos hle => ?_, hlinked, hheaded⟩
    obtain ⟨hFa, hFe, hFh, hrest⟩ := hmember r hpos hle
    exact ⟨hFa.trans ha.symm, hFe.trans he.symm, hFh.trans hheight, hrest⟩
  exact fun e m dest tag hm v hv => hstocked _ hm v hv

end Runs

end Chains

/-! ### A chain of two blocks -/

/-- Four nodes that run the pessimistic path alone, with fallback chains of two blocks. -/
def chainSetup : Setup :=
  { sampleSetup with
    parameters := { sampleParameters with fallbackLength := 2 }
    optPath := false }

/-- Nodes `0`, `1` and `2` build their chains, and node `0` takes the prepares of all three. -/
def toChains : List Act :=
  [.boot 0, .boot 1, .boot 2, .deliver 1 0 0, .deliver 2 0 0, .deliver 0 1 0, .deliver 1 0 1,
    .deliver 2 1 0, .deliver 0 1 1, .deliver 0 2 0, .deliver 2 0 2, .deliver 1 2 0, .deliver 2 1 2,
    .deliver 0 2 1, .deliver 1 0 3, .deliver 2 0 3, .deliver 0 1 3, .deliver 1 2 2, .deliver 0 1 4,
    .deliver 1 0 4, .deliver 2 1 4, .deliver 0 2 3, .deliver 2 0 5, .deliver 1 2 3, .deliver 2 1 5,
    .deliver 0 2 4, .deliver 1 2 5, .deliver 0 1 6, .deliver 0 2 6]

theorem fallback_chains_toChains : ∃ w, chainSetup.Runs w ∧ (w.core 0).BranchesOnce ∧
    ∃ v : SPBValue, v.val = PES ∧ ∃ F, Chained chainSetup w.core v.block F := by
  obtain ⟨w, hr, hm⟩ := exists_play chainSetup toChains
    (fun w => (w.core 0).sends.any (fun x => x.1.values.any fun v => v.val = PES) = true)
    (by decide +kernel) (by decide +kernel)
  obtain ⟨⟨m, dest, tag⟩, hx, hm⟩ := List.any_eq_true.mp hm
  obtain ⟨v, hv, hpes⟩ := List.any_eq_true.mp hm
  obtain ⟨n, hn⟩ := List.getElem?_of_mem hx
  obtain ⟨e, he⟩ := mem_of_sends hn
  have htotal : chainSetup.committee.total = 3 * 1 + 1 := by decide
  obtain ⟨honce, -, hchain⟩ := Setup.Runs.fallback_chains htotal hr 0
  exact ⟨w, hr, honce, v, of_decide_eq_true hpes, hchain e m dest tag he v hv
    (of_decide_eq_true hpes)⟩

end Ipotane
