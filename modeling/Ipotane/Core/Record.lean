import Ipotane.Core.Trace

/-! What a step adds to the record of a node, and why it may. -/
namespace Ipotane

variable [Crypto]

/-- What only a step puts on record. -/
def Event.Own : Event → Prop
  | .receive _ | .requeue _ | .reset _ _ => False
  | _ => True

/-- What a step that cleans up puts on record, and nothing else. -/
def Event.Clears : Event → Prop
  | .terminate _ _ _ | .reset _ _ => True
  | _ => False

namespace Core

open Lib Handler

def Clearing (s t : Core) : Prop := ∃ new, t.trace = new ++ s.trace ∧ ∀ x ∈ new, x.2.Clears

inductive Records (cfg : Config) (s t : Core) : Event → Prop
  | opt {x : Event} (h : s.OptLog cfg x) : Records cfg s t x
  | pes {x : Event} (ha : s.PesActive cfg) (h : s.PesLog cfg x) (ht : t = s.log x) :
      Records cfg s t x
  | vote {b : Block} (hp : ∃ height, s.Did (.process b height)) (hs : s.Did (.store b))
      (hv : s.lastVotedHeight < b.height) (hq : b.qc.height + 1 = b.height)
      (hh : b.height = s.height)
      (ht : t = s.signVote b (HVote.new b cfg.name OPT)) :
      Records cfg s t (.sign (.vote (HVote.new b cfg.name OPT)))
  | endorse {b : Block} (hp : ∃ height, s.Did (.process b height))
      (hq : b.qc.height + 1 = b.height) : Records cfg s t (.endorse b)
  | clean {b : Block} (hp : s.Proposed cfg b) (hm : cfg.pesPath = true) (hh : 2 < b.height)
      (ht : Clearing s t) (hr : t.height = s.heightAfter b.qc) :
      Records cfg s t (.terminate (b.height - 2) (s.heightAfter b.qc) (.proposal b))
  | adopt {qc : QC} (hq : s.Did (.assembled qc) ∨ ∃ b, s.Proposed cfg b ∧ b.qc = qc)
      (hh : s.height ≤ qc.height) : Records cfg s t (.reset (qc.height + 1) 1)
  | arm {duration : Option ℕ} (h : duration ≠ none → s.Leads cfg) (ht : t = s.arm duration) :
      Records cfg s t (.arm duration)
  | assembled {v : HVote} {qc : QC} (hh : s.Hears (.HSVote v))
      (hv : v.verify cfg.committee = .ok ())
      (he : s.epoch ≤ v.epoch) (hn : s.height ≤ v.height) (hb : v.height + 1 < 2 ^ 64)
      (ha : (s.aggregator.addHsVote v cfg.committee).1 = .ok (some qc))
      (ht : t = (collect (fun a => a.addHsVote v cfg.committee) .assembled s).2) :
      Records cfg s t (.assembled qc)
  | store {b b1 b0 : Block} (hp : s.Did (.process b s.height)) (h1 : s.Parent b b1)
      (h0 : s.Parent b1 b0) (ht : t.store = (s.insertBlock b).store) : Records cfg s t (.store b)
  | commit {b b1 b0 : Block} (hp : ∃ height, s.Did (.process b height)) (h1 : s.Parent b b1)
      (h0 : s.Parent b1 b0) (hc : Consecutive b0 b1 b) (hl : s.lastCommittedHeight < b0.height) :
      Records cfg s t (.commit b0 (.twoChain b1 b))
  | pesStore {b : Block} (ha : s.PesActive cfg) (h : s.Grafts b)
      (hf : s.Fresh b.epoch b.height) (hg : s.trace.head? = some (s.epoch, .graft b))
      (ht : t = s.insertBlock b) :
      Records cfg s t (.store b)
  | fork {b : Block} (ha : s.PesActive cfg) (hb : s.Makes cfg b) (hq : s.Starts b.qc)
      (hr : b.round = 1) (hn : s.fallbackIsInvoke.contains b.height = false) (ht : t = s.fork b) :
      Records cfg s t (.sign (.block b))
  | terminate {height : ℕ} {site : Termination} (ha : s.PesActive cfg)
      (h : (height + 2 = s.height ∧ ∃ b, site = .block b ∧ s.Did (.process b s.height)) ∨
        ∃ p, site = .prepare p ∧ s.Countable cfg p ∧ p.height = height + 1)
      (ht : t = s.cleanSmvbaState height s.height site) :
      Records cfg s t (.terminate height s.height site)
  | fastCommit {b : Block} {p : PrePare} (ha : s.PesActive cfg) (hb : s.Ever (.store b))
      (hd : b.digest = p.qc.hash) (hp : s.Countable cfg p) (hv : p.val = OPT)
      (hq : (s.parPrepareOpts.getD p.height []).length = cfg.committee.quorumThreshold)
      (hl : s.lastCommittedHeight < b.height)
      (ht : t = s.markCommit b (.fastPath p)) :
      Records cfg s t (.commit b (.fastPath p))
  | outputCommit {b : Block} (ha : s.PesActive cfg) (hb : s.Did (.store b)) (ho : s.Output b)
      (ht : b.tag ≠ OPT) (hf : s.Fresh b.epoch b.height) (hl : s.lastCommittedHeight < b.height)
      (ht : t = s.markCommit b .smvbaOutput) :
      Records cfg s t (.commit b .smvbaOutput)
  | assembledFallback {v : HVote} {qc : QC} (ha : s.PesActive cfg)
      (h : s.Taken cfg (.FBVote v) v.epoch v.height (v.verify cfg.committee))
      (hadd : (s.aggregator.addFallbackVote v cfg.committee).1 = .ok (some qc))
      (ht : t = (collect (fun a => a.addFallbackVote v cfg.committee) .assembledFallback s).2) :
      Records cfg s t (.assembledFallback qc)
  | proved {x : SPBVote} {p : SPBProof} (ha : s.PesActive cfg)
      (h : s.Taken cfg (.SPBVote x) x.epoch x.height (x.verify cfg.committee))
      (hadd : (s.aggregator.addSpbVote x cfg.committee).1 = .ok (some p))
      (ht : t = (collect (fun a => a.addSpbVote x cfg.committee) .proved s).2) :
      Records cfg s t (.proved p)
  | finProved {m : MVote} {v : SPBValue} {q p : SPBProof} {x : SPBVote} (ha : s.PesActive cfg)
      (h : s.Did (.count m)) (ht : m.tag = .Yes v q x)
      (hadd : (s.aggregator.addPreVote x cfg.committee).1 = .ok (some p))
      (ht : t = (collect (fun a => a.addPreVote x cfg.committee) .finProved s).2) :
      Records cfg s t (.finProved p)
  | coin {c : RandomCoin} (ha : s.PesActive cfg) (h : ∃ m, s.Hears (.SPBDoneAndShare m) ∧
        m.share.height = c.height ∧ m.share.round = c.round ∧ m.share.epoch = c.epoch)
      (hf : s.Fresh c.epoch c.height) (hn : s.getCoinLeader c.height c.round = none)
      (hs : (s.aggregator.smvbaRandomcoin.getD (c.height, c.round) .new).shares = c.shares)
      (hl : SMVBARandomCoinMaker.electedLeader cfg.committee c.shares = some c.leader)
      (ht : t = s.learnCoin c) :
      Records cfg s t (.coin c)
  | prepare {height val : ℕ} {qc : QC} (ha : s.PesActive cfg)
      (hc : s.PrepareCause cfg height qc val)
      (hn : s.prepareTag.contains height = false)
      (ht : t = s.signPrepare (PrePare.new cfg.name s.epoch height qc val)) :
      Records cfg s t (.sign (.prepare (PrePare.new cfg.name s.epoch height qc val)))
  | enterRound {m : MVote} (ha : s.PesActive cfg) (h : s.Did (.count m))
      (hq : (s.smvbaVotes.getD (m.height, m.round) []).length = cfg.committee.quorumThreshold)
      (ht : t = (s.log (.enterRound m.height (m.round + 1))).updateSmvbaState m.height
        (m.round + 1)) :
      Records cfg s t (.enterRound m.height (m.round + 1))
  | reset {m : MVote} (ha : s.PesActive cfg) (h : s.Did (.count m))
      (hq : (s.smvbaVotes.getD (m.height, m.round) []).length = cfg.committee.quorumThreshold)
      (ht : t = (s.log (.enterRound m.height (m.round + 1))).updateSmvbaState m.height
        (m.round + 1)) :
      Records cfg s t (.reset m.height (m.round + 1))
  | propose {v : SPBValue} (ha : s.PesActive cfg) (hi : s.Initial cfg v) (hv : v.phase = INIT_PHASE)
      (hn : v.block.author = cfg.name) (he : v.block.epoch = s.epoch)
      (ht : t = s.propose v) :
      Records cfg s t (.propose v)
  | lock {v : SPBValue} {p : SPBProof} (ha : s.PesActive cfg) (h : s.SpbSource cfg v p)
      (hv : v.phase = LOCK_PHASE)
      (ht : t = s.lock v p) :
      Records cfg s t (.lock v p)
  | finish {v : SPBValue} {p : SPBProof} (ha : s.PesActive cfg)
      (h : s.Taken cfg (.SPBFinsh v p) v.block.epoch p.height
        (v.verify cfg.committee p cfg.parameters.fallbackLength))
      (ht : t = s.finish v p) :
      Records cfg s t (.finish v p)
  | count {m : MVote} (ha : s.PesActive cfg) (h : s.Taken cfg (.SMVBAVote m) m.epoch m.height
        (m.verify cfg.committee cfg.parameters.fallbackLength))
      (ht : t = s.countMvote m) :
      Records cfg s t (.count m)
  | mvoteYes {m : MPreVote} {v : SPBValue} {p : SPBProof} (ha : s.PesActive cfg) (h : s.Open cfg m)
      (ht : m.tag = .Yes v p) (hv : v.phase ≤ LOCK_PHASE)
      (ht : t = s.raiseYes (m.height, m.round)
        [(s.epoch, .sign (.mvote (mvoteOn cfg m (.Yes v p (SPBVote.new v cfg.name))))),
         (s.epoch, .sign (.spbVote (SPBVote.new v cfg.name)))]) :
      Records cfg s t (.sign (.mvote (mvoteOn cfg m (.Yes v p (SPBVote.new v cfg.name)))))
  | spbVote {m : MPreVote} {v : SPBValue} {p : SPBProof} (ha : s.PesActive cfg) (h : s.Open cfg m)
      (ht : m.tag = .Yes v p) (hv : v.phase ≤ LOCK_PHASE) :
      Records cfg s t (.sign (.spbVote (SPBVote.new v cfg.name)))
  | mvoteNo {m : MPreVote} (ha : s.PesActive cfg) (h : s.Open cfg m) (ht : m.tag = .No)
      (hq : (s.smvbaNoPrevotes.getD (m.height, m.round) []).length = cfg.committee.quorumThreshold)
      (ht : t = s.raiseNo (m.height, m.round) (mvoteOn cfg m .No)) :
      Records cfg s t (.sign (.mvote (mvoteOn cfg m .No)))
  | halted {m : MHalt} (ha : s.PesActive cfg) (h : s.Taken cfg (.SMVBAHalt m) m.epoch m.height
        (m.verify cfg.committee cfg.parameters.fallbackLength))
      (hl : s.getCoinLeader m.height m.round = some m.value.block.author)
      (hn : s.smvbaHaltFalg.getD m.height false = false)
      (ht : t = s.halt m) :
      Records cfg s t (.halted m)

variable {cfg : Config} {s t u : Core} {x : ℕ × Event}

/-- A record that has grown from that of `s` by what the step to `t` makes. -/
def Grown (cfg : Config) (s t : Core) (l : List (ℕ × Event)) : Prop :=
  ∃ new, l = new ++ s.trace ∧ ∀ x ∈ new, x.1 = s.epoch ∧ Records cfg s t x.2

theorem Grown.refl : Grown cfg s t s.trace := ⟨[], rfl, fun _ hx => (nomatch hx)⟩

theorem Grown.cons {y : Event} {l : List (ℕ × Event)} (h : Grown cfg s t l)
    (hy : Records cfg s t y) : Grown cfg s t ((s.epoch, y) :: l) := by
  obtain ⟨new, rfl, hnew⟩ := h
  refine ⟨(s.epoch, y) :: new, rfl, ?_⟩
  intro x hx
  rcases List.mem_cons.mp hx with rfl | hx
  · exact ⟨rfl, hy⟩
  · exact hnew x hx

theorem grown_cons {y : Event} (hy : Records cfg s t y) : Grown cfg s t ((s.epoch, y) :: s.trace) :=
  Grown.refl.cons hy

theorem collect_grown {α : Type} {add : Aggregator → Appended α Aggregator} {mark : α → Event}
    (hy : ∀ a, (add s.aggregator).1 = .ok (some a) → Records cfg s t (mark a)) :
    Grown cfg s t (collect add mark s).2.trace := by
  unfold collect
  split
  · exact Grown.refl
  · exact Grown.refl
  · rename_i a agg hadd
    exact grown_cons (hy a (by rw [hadd]))

theorem cleanFor_grown {b : Block} (hp : s.Proposed cfg b) (ht : Clearing s t)
    (hr : t.height = s.heightAfter b.qc) : Grown cfg s t (s.cleanFor cfg b).trace := by
  unfold cleanFor
  split
  · rename_i hm
    exact grown_cons (.clean hp hm.1 hm.2 ht hr)
  · exact Grown.refl

theorem clearing_cleanFor (b : Block) : Clearing s (s.cleanFor cfg b) := by
  unfold cleanFor
  split
  · refine ⟨[_], rfl, ?_⟩
    intro x hx
    cases List.mem_singleton.mp hx
    trivial
  · exact ⟨[], rfl, fun _ hx => (nomatch hx)⟩

theorem adopt_heightAfter {qc : QC} (hb : qc.height < s.height ∨ qc.height + 1 < 2 ^ 64) :
    (s.adopt qc).height = s.heightAfter qc := by
  rw [adopt_height, heightAfter]
  split
  · rfl
  · omega

theorem cleanFor_heightAfter (s : Core) (cfg : Config) (b : Block) (qc : QC) :
    (s.cleanFor cfg b).heightAfter qc = s.heightAfter qc := by
  unfold heightAfter
  rw [cleanFor_height]

theorem adopt_trace (s : Core) (qc : QC) :
    (s.adopt qc).trace = s.trace ∨
      (s.height ≤ qc.height ∧ (s.adopt qc).trace = (s.epoch, .reset (qc.height + 1) 1) ::
        s.trace) := by
  unfold adopt updateHighQc
  by_cases hlt : qc.height < s.height
  · rw [if_pos hlt]
    split <;> exact .inl rfl
  · rw [if_neg hlt]
    split <;> exact .inr ⟨by omega, rfl⟩

theorem Clearing.adopt (h : Clearing s t) (qc : QC) : Clearing s (t.adopt qc) := by
  rcases adopt_trace t qc with htr | ⟨-, htr⟩
  · unfold Clearing
    rwa [htr]
  · obtain ⟨new, heq, hnew⟩ := h
    refine ⟨(t.epoch, .reset (qc.height + 1) 1) :: new, by rw [htr, heq]; rfl, ?_⟩
    exact List.forall_mem_cons.mpr ⟨trivial, hnew⟩

theorem adopt_grown {qc : QC} (hu : Grown cfg s t u.trace) (he : u.epoch = s.epoch)
    (hy : u.height ≤ qc.height → Records cfg s t (.reset (qc.height + 1) 1)) :
    Grown cfg s t (u.adopt qc).trace := by
  rcases adopt_trace u qc with h | ⟨hle, h⟩
  · rw [h]
    exact hu
  · rw [h, he]
    exact hu.cons (hy hle)

theorem settle_grown {b b1 b0 : Block} {marks : List (ℕ × Event)}
    (hp : s.Did (.process b s.height)) (h1 : s.Parent b b1) (h0 : s.Parent b1 b0)
    (hc : Consecutive b0 b1 b) (hr : t.store = (s.insertBlock b).store)
    (ht : ∀ x ∈ marks, x.1 = s.epoch ∧ (s.insertBlock b).Tidy x.2) :
    Grown cfg s t (s.settle b b1 b0 marks).trace := by
  have hstore : Grown cfg s t (s.insertBlock b).trace := grown_cons (.store hp h1 h0 hr)
  unfold settle
  split
  · rename_i hl
    refine Grown.cons (l := marks ++ (s.insertBlock b).trace) ?_ (.commit ⟨_, hp⟩ h1 h0 hc hl)
    obtain ⟨new, hnew, hrec⟩ := hstore
    refine ⟨marks ++ new, by rw [hnew, List.append_assoc], ?_⟩
    intro x hx
    rcases List.mem_append.mp hx with hx | hx
    · obtain ⟨he, hx⟩ := ht x hx
      refine ⟨he, .opt ?_⟩
      rcases hx with ⟨c, hx, ⟨e, hst⟩ | hgen⟩ | ⟨c, hx, e, hst⟩
      · rw [hx]
        rcases List.mem_cons.mp hst with hst | hst
        · cases hst
          exact .inl ⟨_, hp⟩
        · exact .inr (.inl ⟨e, hst⟩)
      · rw [hx]
        exact .inr (.inr hgen)
      · rw [hx]
        rcases List.mem_cons.mp hst with hst | hst
        · cases hst
          exact .inl ⟨_, hp⟩
        · exact .inr ⟨e, hst⟩
    · exact hrec x hx
  · exact hstore

theorem OptStep.grown (h : OptStep cfg s t) : Grown cfg s t t.trace := by
  cases h with
  | quiet h =>
    rw [h.trace]
    exact Grown.refl
  | log h => exact grown_cons (.opt h)
  | vote hp hs hv hq hh => exact (grown_cons (.endorse hp hq)).cons (.vote hp hs hv hq hh rfl)
  | @proposal b hp hb =>
    have hreach : ((s.cleanFor cfg b).adopt b.qc).height = s.heightAfter b.qc := by
      rw [adopt_heightAfter (by rwa [cleanFor_height]), cleanFor_heightAfter]
    refine adopt_grown (cleanFor_grown hp ((clearing_cleanFor _).adopt _) hreach)
      (extends_cleanFor _).epoch fun hh => ?_
    rw [cleanFor_height] at hh
    exact .adopt (.inr ⟨_, hp, rfl⟩) hh
  | @overflow b hp hb =>
    refine cleanFor_grown hp (clearing_cleanFor b) ?_
    rw [cleanFor_height, heightAfter, if_neg (by omega)]
  | adopt hq hb hv hn hl => exact adopt_grown Grown.refl rfl fun hh => .adopt (.inl hq) hh
  | arm h => exact grown_cons (.arm h rfl)
  | buffer h he => exact Grown.refl
  | countVote hh hv he hn hb => exact collect_grown fun _ ha => .assembled hh hv he hn hb ha rfl
  | store hp h1 h0 hm => exact grown_cons (.store hp h1 h0 rfl)
  | settle hp h1 h0 hm hc ht => exact settle_grown hp h1 h0 hc settle_store ht
  | commit hp hs h1 h0 hc hl => exact grown_cons (.commit hp h1 h0 hc hl)

theorem PesStep.grown (ha : s.PesActive cfg) (h : PesStep cfg s t) : Grown cfg s t t.trace := by
  cases h with
  | log h => exact grown_cons (.pes ha h rfl)
  | store h hg => exact grown_cons (.pesStore ha h.1 h.2 hg rfl)
  | fork hb hq hr hn => exact grown_cons (.fork ha hb hq hr hn rfl)
  | terminate h => exact grown_cons (.terminate ha h rfl)
  | fastCommit hb hd hp hv hq hl => exact grown_cons (.fastCommit ha hb hd hp hv hq hl rfl)
  | outputCommit hb ho ht hf hl => exact grown_cons (.outputCommit ha hb ho ht hf hl rfl)
  | countFallback h => exact collect_grown fun _ hadd => .assembledFallback ha h hadd rfl
  | countSpb h => exact collect_grown fun _ hadd => .proved ha h hadd rfl
  | countPre h ht => exact collect_grown fun _ hadd => .finProved ha h ht hadd rfl
  | coin h hf hn hs hl => exact grown_cons (.coin ha h hf hn hs hl rfl)
  | prepare hc hn => exact grown_cons (.prepare ha hc hn rfl)
  | enterRound h hq => exact (grown_cons (.enterRound ha h hq rfl)).cons (.reset ha h hq rfl)
  | propose hi hv hn he => exact grown_cons (.propose ha hi hv hn he rfl)
  | lock h hv => exact grown_cons (.lock ha h hv rfl)
  | finish h => exact grown_cons (.finish ha h rfl)
  | countMvote h => exact grown_cons (.count ha h rfl)
  | voteYes h ht hv => exact (grown_cons (.spbVote ha h ht hv)).cons (.mvoteYes ha h ht hv rfl)
  | voteNo h ht hq => exact grown_cons (.mvoteNo ha h ht hq rfl)
  | halt h hl hn => exact grown_cons (.halted ha h hl hn rfl)
  | _ => exact Grown.refl

/-- Every entry that a step adds has its cause before the step. -/
theorem Step.grown (h : Step cfg s t) : Grown cfg s t t.trace := by
  cases h with
  | opt h => exact h.grown
  | pes ha h => exact h.grown ha

/-- An entry of the record after a step is old, or the step has made it. -/
theorem Step.recorded (h : Step cfg s t) (hx : x ∈ t.trace) :
    x ∈ s.trace ∨ (x.1 = s.epoch ∧ Records cfg s t x.2) := by
  obtain ⟨new, heq, hnew⟩ := h.grown
  rw [heq] at hx
  rcases List.mem_append.mp hx with hx | hx
  · exact .inr (hnew x hx)
  · exact .inl hx

/-- A new epoch resets the first round and hands back the messages that waited for it. -/
theorem mem_renewed_trace (h : x ∈ s.renewed.trace) :
    x ∈ s.trace ∨ x = (s.epoch + 1, .reset 1 1) ∨
      ∃ m, x = (s.epoch + 1, .requeue m) ∧ (s.epoch + 1, m) ∈ s.unhandleMessage ∧ Proposes m := by
  obtain ⟨marks, rest, heq, hm, -⟩ := renewed_eq s
  rw [heq] at h
  rcases List.mem_append.mp h with h | h
  · exact .inr (.inr (hm x h))
  · rcases List.mem_cons.mp h with rfl | h
    · exact .inr (.inl rfl)
    · exact .inl h

theorem Records.not_receive {m : ConsensusMessage} (h : Records cfg s t (.receive m)) : False := by
  cases h with
  | opt h => exact h.elim
  | pes _ h => exact h.elim

theorem Records.not_requeue {m : ConsensusMessage} (h : Records cfg s t (.requeue m)) : False := by
  cases h with
  | opt h => exact h.elim
  | pes _ h => exact h.elim

/-- No step takes a message. -/
theorem Step.receive_mem {e : ℕ} {m : ConsensusMessage} (h : Step cfg s t)
    (hm : (e, .receive m) ∈ t.trace) : (e, .receive m) ∈ s.trace := by
  rcases h.recorded hm with hm | ⟨_, hr⟩
  · exact hm
  · exact hr.not_receive.elim

theorem receive_mem_renewed {e : ℕ} {m : ConsensusMessage}
    (hm : (e, .receive m) ∈ s.renewed.trace) : (e, .receive m) ∈ s.trace := by
  rcases mem_renewed_trace hm with hm | hm | ⟨m', hm, _⟩
  · exact hm
  · cases hm
  · cases hm

/-! ### The epochs of the record -/

theorem not_own_of_new {e : ℕ} {y : Event} (h : (e, y) ∈ (Core.new).trace) : ¬ y.Own := by
  cases List.mem_singleton.mp h
  exact id

theorem mem_take {m : ConsensusMessage} {e : ℕ} {y : Event}
    (h : (e, y) ∈ (s.log (.receive m)).trace) (hy : y.Own) : (e, y) ∈ s.trace := by
  rcases List.mem_cons.mp h with h | h
  · cases h
    exact hy.elim
  · exact h

theorem mem_renewed {e : ℕ} {y : Event} (h : (e, y) ∈ s.renewed.trace) (hy : y.Own) :
    (e, y) ∈ s.trace := by
  rcases mem_renewed_trace h with h | h | ⟨m, h, _⟩
  · exact h
  · cases h
    exact hy.elim
  · cases h
    exact hy.elim

/-- No entry of a step is added between two epochs. -/
theorem renewed_grown (s : Core) :
    ∃ new, s.renewed.trace = new ++ s.trace ∧ ∀ x ∈ new, x.1 = s.epoch + 1 ∧ ¬ x.2.Own := by
  obtain ⟨marks, rest, heq, hm, -⟩ := renewed_eq s
  refine ⟨marks ++ [(s.epoch + 1, .reset 1 1)], by rw [heq]; simp, ?_⟩
  intro x hx
  rcases List.mem_append.mp hx with hx | hx
  · obtain ⟨m, rfl, -⟩ := hm x hx
    exact ⟨rfl, id⟩
  · cases List.mem_singleton.mp hx
    exact ⟨rfl, id⟩

theorem renewed_trace (s : Core) : s.trace <:+ s.renewed.trace := by
  obtain ⟨new, heq, -⟩ := renewed_grown s
  rw [heq]
  exact List.suffix_append _ _

theorem renewed_epoch (s : Core) : s.renewed.epoch = s.epoch + 1 := by
  obtain ⟨marks, rest, heq, -, -⟩ := renewed_eq s
  rw [heq]
  rfl

/-- Nothing on record is of an epoch that has not begun. -/
def Timely (s : Core) : Prop := ∀ x ∈ s.trace, x.1 ≤ s.epoch

theorem Timely.new : Timely .new := by
  intro x hx
  cases List.mem_singleton.mp hx
  exact le_rfl

theorem Timely.take (h : s.Timely) (m : ConsensusMessage) : (s.log (.receive m)).Timely := by
  intro x hx
  rcases List.mem_cons.mp hx with rfl | hx
  · exact le_rfl
  · exact h x hx

theorem Timely.step (h : s.Timely) (ht : Step cfg s t) : t.Timely := by
  intro x hx
  rw [ht.extends.epoch]
  rcases ht.recorded hx with hx | ⟨hx, _⟩
  · exact h x hx
  · exact hx.le

theorem Timely.renewed (h : s.Timely) : s.renewed.Timely := by
  intro x hx
  rw [renewed_epoch]
  rcases mem_renewed_trace hx with hx | rfl | ⟨m, rfl, _⟩
  · have := h x hx
    omega
  · exact le_rfl
  · exact le_rfl

/-- No step of a new epoch has been made when it begins. -/
theorem Timely.not_renewed_did (h : s.Timely) {y : Event} (hy : s.renewed.Did y) (ho : y.Own) :
    False := by
  have hle := h _ (mem_renewed hy ho)
  rw [renewed_epoch] at hle
  simp only at hle
  omega

/-- A message that was taken from a channel, broadcast or kept in the epoch `e`. -/
def Heard (s : Core) (e : ℕ) (m : ConsensusMessage) : Prop :=
  (e, .receive m) ∈ s.trace ∨ (∃ tag, (e, .send m none tag) ∈ s.trace) ∨ (e, .keep m) ∈ s.trace

theorem Heard.mono {e : ℕ} {m : ConsensusMessage} (h : s.Heard e m) (ht : s.trace ⊆ t.trace) :
    t.Heard e m := by
  rcases h with h | ⟨tag, h⟩ | h
  · exact .inl (ht h)
  · exact .inr (.inl ⟨tag, ht h⟩)
  · exact .inr (.inr (ht h))

/-! ### Runs of one node -/

theorem turns_invariant {P : Core → Prop} {C : List (ℕ × Event) → Prop}
    (hC : ∀ l l', l <:+ l' → C l' → C l)
    (hturn : ∀ s t, s.StoreOk → P s → C t.trace → Turn cfg s t → P t) (hs : s.StoreOk)
    (hp : C s.trace → P s) (h : Relation.ReflTransGen (Turn cfg) s t) : C t.trace → P t := by
  induction h with
  | refl => exact hp
  | tail hpre hlast ih =>
    intro hc
    exact hturn _ _ (turns_storeOk hpre hs) (ih (hC _ _ hlast.trace hc)) hc hlast

/-- Induction over the life of a node, under a condition on its record. -/
theorem Reachable.invariant {P : Core → Prop} {C : List (ℕ × Event) → Prop} {alive : Bool}
    (hC : ∀ l l', l <:+ l' → C l' → C l) (hnew : P .new)
    (htake : ∀ s m, P s → C (s.log (.receive m)).trace → P (s.log (.receive m)))
    (hturn : ∀ s t, s.StoreOk → P s → C t.trace → Turn cfg s t → P t)
    (h : Reachable cfg s alive) : s.StoreOk ∧ (C s.trace → P s) := by
  induction h with
  | new => exact ⟨fun _ _ h => (nomatch h), fun _ => hnew⟩
  | @react s fuel i h hne ih =>
    obtain ⟨hs, ih⟩ := ih
    have hturns := react_turns hs hne
    refine ⟨turns_storeOk hturns (hs.arrival i), turns_invariant hC hturn (hs.arrival i) ?_ hturns⟩
    intro hc
    cases i with
    | core m => exact htake s m (ih (hC _ _ (List.suffix_cons _ _) hc)) hc
    | smvba m => exact htake s m (ih (hC _ _ (List.suffix_cons _ _) hc)) hc
    | boot => exact ih hc
    | timer => exact ih hc

theorem Reachable.timely {alive : Bool} (h : Reachable cfg s alive) : s.Timely := by
  refine (h.invariant (C := fun _ => True) (fun _ _ _ h => h) Timely.new ?_ ?_).2 trivial
  · exact fun s m hs _ => hs.take m
  · intro s t _ hs _ ht
    cases ht with
    | step ht => exact hs.step ht
    | epoch _ ht => exact ht ▸ hs.renewed

section Recorded

variable {P : ℕ × Event → Prop} {alive : Bool}

/-- What is true of every entry that a step makes is true of the record. -/
theorem steps_recorded (hP : ∀ {u v : Core} {y : Event}, Records cfg u v y → P (u.epoch, y))
    (h : Relation.ReflTransGen (Step cfg) s t) (hs : ∀ x ∈ s.trace, P x) : ∀ x ∈ t.trace, P x := by
  induction h with
  | refl => exact hs
  | tail _ hlast ih =>
    intro x hx
    rcases hlast.recorded hx with hx | ⟨he, hr⟩
    · exact ih x hx
    · have hnew := hP hr
      rwa [← he] at hnew

theorem Reachable.recorded (hP : ∀ {u v : Core} {y : Event}, Records cfg u v y → P (u.epoch, y))
    (ho : ∀ e (y : Event), ¬ y.Own → P (e, y)) (h : Reachable cfg s alive) :
    ∀ x ∈ s.trace, P x := by
  refine (h.invariant (P := fun s => ∀ x ∈ s.trace, P x) (C := fun _ => True) ?_ ?_ ?_ ?_).2 trivial
  · exact fun _ _ _ h => h
  · intro x hx
    exact ho _ _ (not_own_of_new hx)
  · intro s m hs _ x hx
    rcases List.mem_cons.mp hx with rfl | hx
    · exact ho _ _ id
    · exact hs x hx
  · intro s t _ hs _ ht x hx
    cases ht with
    | step ht => exact steps_recorded hP (.single ht) hs x hx
    | epoch _ ht =>
      subst ht
      obtain ⟨new, heq, hnew⟩ := renewed_grown s
      rw [heq] at hx
      rcases List.mem_append.mp hx with hx | hx
      · exact ho _ _ (hnew x hx).2
      · exact hs x hx

/-- The same for a property that speaks of the record itself, and survives its growth. -/
theorem Reachable.caused {Q : Core → ℕ × Event → Prop}
    (hmono : ∀ {u v : Core} {y : ℕ × Event}, u.trace ⊆ v.trace → Q u y → Q v y)
    (hQ : ∀ {u v : Core} {y : Event}, (∀ x ∈ u.trace, Q u x) → Records cfg u v y → Q u (u.epoch, y))
    (ho : ∀ (u : Core) (e : ℕ) (y : Event), ¬ y.Own → Q u (e, y)) (h : Reachable cfg s alive) :
    ∀ x ∈ s.trace, Q s x := by
  refine (h.invariant (P := fun s => ∀ x ∈ s.trace, Q s x) (C := fun _ => True)
    (fun _ _ _ h => h) ?_ ?_ ?_).2 trivial
  · exact fun x hx => ho _ _ _ (not_own_of_new hx)
  · intro s m hs _ x hx
    rcases List.mem_cons.mp hx with rfl | hx
    · exact ho _ _ _ id
    · exact hmono (List.subset_cons_self _ _) (hs x hx)
  · intro s t _ hs _ ht x hx
    have hsub := ht.trace.subset
    cases ht with
    | step ht =>
      obtain ⟨e, y⟩ := x
      rcases ht.recorded hx with hx | ⟨he, hr⟩
      · exact hmono hsub (hs _ hx)
      · simp only at he
        exact hmono hsub (he ▸ hQ hs hr)
    | epoch _ ht =>
      subst ht
      obtain ⟨new, heq, hnew⟩ := renewed_grown s
      rw [heq] at hx
      rcases List.mem_append.mp hx with hx | hx
      · exact ho _ _ _ (hnew x hx).2
      · exact hmono hsub (hs x hx)

theorem Reachable.storeOk (h : Reachable cfg s alive) : s.StoreOk :=
  (h.invariant (P := fun _ => True) (C := fun _ => True) (fun _ _ _ h => h) trivial
    (fun _ _ _ _ => trivial) (fun _ _ _ _ _ _ => trivial)).1

theorem mem_arrival {input : Input} (h : x ∈ (arrival s input).trace) :
    x ∈ s.trace ∨ ∃ m, x = (s.epoch, .receive m) := by
  cases input with
  | boot => exact .inl h
  | timer => exact .inl h
  | _ =>
    rcases List.mem_cons.mp h with h | h
    · exact .inr ⟨_, h⟩
    · exact .inl h

/-- The same after a turn of the loop. -/
theorem Reachable.recorded_handle {fuel : ℕ} {input : Input}
    (hP : ∀ {u v : Core} {y : Event}, Records cfg u v y → P (u.epoch, y))
    (ho : ∀ e (y : Event), ¬ y.Own → P (e, y)) (h : Reachable cfg s alive)
    (hne : (handle cfg fuel input (arrival s input)).1 ≠ .exhausted) :
    ∀ x ∈ (handle cfg fuel input (arrival s input)).2.trace, P x := by
  refine steps_recorded hP (handle_steps h.storeOk hne) ?_
  intro x hx
  rcases mem_arrival hx with hx | ⟨m, rfl⟩
  · exact h.recorded hP ho x hx
  · exact ho _ _ id

end Recorded

end Core

end Ipotane
