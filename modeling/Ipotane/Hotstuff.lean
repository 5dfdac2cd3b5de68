import Ipotane.Core.Effect
import Ipotane.Provenance
import Ipotane.Tallies
import Ipotane.Votes

/-! Runs of the mode in which the pessimistic path is off. -/
namespace Ipotane

open Lib Handler

section Hotstuff

variable [Crypto]

/-- The mode of the two-chain HotStuff. -/
structure Setup.Hotstuff (S : Setup) : Prop where
  opt : S.optPath = true
  pes : S.pesPath = false

/-- The optimistic votes in a message. -/
def ConsensusMessage.optVotes : ConsensusMessage → List HVote
  | HSVote v => [v]
  | _ => []

def Event.optVotes : Event → List HVote
  | send m _ _ | receive m | keep m | requeue m => m.optVotes
  | sign (.vote v) => [v]
  | _ => []

/-- What a node puts on record in this mode. -/
def Event.OfHotstuff : Event → Prop
  | send m _ tag => Core.smvbaCall m = none ∧ tag = OPT
  | receive m => Core.smvbaCall m = none
  | suspend _ tag => tag = OPT
  | commit _ rule => rule ≠ .smvbaOutput
  | requeue _ => False
  | _ => True

/-- The genesis certificate, or one that a node has assembled. -/
def QC.Collected (q : QC) (σ : Cores) : Prop := q = .genesis ∨ ∃ k, (σ k).Ever (.assembled q)

/-- The author of the block has signed it on top of such a certificate. -/
structure Block.Founded (b : Block) (σ : Cores) : Prop where
  signed : (0, .sign (.block b)) ∈ (σ b.author).trace
  qc : b.qc.Collected σ
  height : b.height = b.qc.height + 1
  bound : b.height < 2 ^ 64
  epoch : b.epoch = 0
  tag : b.tag = OPT

/-- The author of the vote has signed it for such a block. -/
def HVote.Stands (v : HVote) (σ : Cores) : Prop :=
  (σ v.author).Ever (.sign (.vote v)) ∧ ∃ b, v = HVote.new b v.author OPT ∧ b.Founded σ

variable {c : Committee} {σ τ : Cores} {s t : Core} {b : Block} {q : QC} {v : HVote}

theorem QC.Collected.mono (h : q.Collected σ) (hl : Later σ τ) : q.Collected τ := by
  refine h.imp id ?_
  rintro ⟨k, e, hq⟩
  exact ⟨k, e, (hl k).subset hq⟩

theorem Block.Founded.mono (h : b.Founded σ) (hl : Later σ τ) : b.Founded τ :=
  { h with
    signed := (hl _).subset h.signed
    qc := h.qc.mono hl }

theorem HVote.Stands.mono (h : v.Stands σ) (hl : Later σ τ) : v.Stands τ := by
  obtain ⟨⟨e, hv⟩, b, hb, hf⟩ := h
  exact ⟨⟨e, (hl _).subset hv⟩, b, hb, hf.mono hl⟩

/-- What holds at a node of this mode, in view of all nodes. -/
structure Trusty (c : Committee) (σ : Cores) (s : Core) : Prop where
  epoch : s.epoch = 0
  kinds : ∀ x ∈ s.trace, x.1 = 0 ∧ x.2.OfHotstuff
  shelved : s.Shelved fun b => b.Founded σ
  votes : ∀ x ∈ s.trace, ∀ v ∈ x.2.optVotes, v.Stands σ
  high : s.highQc.Collected σ
  height : s.height = s.highQc.height + 1
  bound : s.height < 2 ^ 64
  polls : ∀ key, ∃ l : List HVote, s.aggregator.hsVotes.getD key .new =
    l.foldl (fun m v => (m.append v c).2) .new ∧ ∀ v ∈ l, (v.height, v.hash) = key ∧ v.Stands σ
  tallies : ∀ q, s.Ever (.assembled q) → q.TallyOf c fun v =>
    (v.height, v.hash) = (q.height, q.hash) ∧ v.Stands σ

namespace Core

variable {cfg : Config} {y : Event}

theorem not_pesActive (hopt : cfg.optPath = true) (hpes : cfg.pesPath = false)
    (hs : ∀ x ∈ s.trace, x.1 = 0 ∧ x.2.OfHotstuff) : ¬ s.PesActive cfg := by
  rintro (h | h | ⟨m, hm, hsome⟩)
  · rw [hpes] at h
    cases h
  · rw [hopt] at h
    cases h
  · have hnone : smvbaCall m = none := (hs _ hm).2
    rw [hnone] at hsome
    cases hsome

/-- No epoch ends. -/
theorem Turn.optStep (h : Turn cfg s t) (hs : Trusty c σ s) (hn : ¬ s.PesActive cfg) :
    OptStep cfg s t := by
  cases h with
  | step h =>
    cases h with
    | opt h => exact h
    | pes ha _ => exact absurd ha hn
  | epoch h _ =>
    exfalso
    rcases h with ⟨b, hb, -⟩ | ⟨m, b, hm, hb, hlt⟩
    · exact (hs.kinds _ hb).2 rfl
    · have hkind : smvbaCall m = none := (hs.kinds _ hm).2
      have hblocks := hs.shelved.record _ hm
      cases m with
      | HsPropose b' =>
        obtain rfl : b' = b := hb
        have := (hblocks b' (List.mem_singleton.mpr rfl)).epoch
        omega
      | SyncReply b' =>
        obtain rfl : b' = b := hb
        have := (hblocks b' (List.mem_singleton.mpr rfl)).epoch
        omega
      | FBPropose _ => cases hkind
      | SPBPropose _ _ => cases hkind
      | _ => exact hb.elim

/-! ### One step -/

theorem OptLog.ofHotstuff (h : s.OptLog cfg y) : y.OfHotstuff := by
  unfold OptLog at h
  split at h
  case h_2 => exact ⟨rfl, h.2.2.2⟩
  case h_3 => exact ⟨rfl, h.2.2.2⟩
  case h_4 => exact ⟨rfl, h.2.2⟩
  case h_8 => exact h.2
  case h_12 => exact h.elim
  all_goals trivial

theorem Records.ofHotstuff (h : Records cfg s t y) (hn : ¬ s.PesActive cfg) : y.OfHotstuff := by
  cases h with
  | opt h => exact h.ofHotstuff
  | commit _ _ _ _ _ => exact nofun
  | pes ha _ _ => exact absurd ha hn
  | fastCommit ha _ _ _ _ _ _ _ => exact absurd ha hn
  | outputCommit ha _ _ _ _ _ _ => exact absurd ha hn
  | _ => trivial

theorem Records.optBlocks {P : Block → Prop} (h : Records cfg s t y) (hn : ¬ s.PesActive cfg)
    (hs : s.Shelved P) (hp : ∀ b, y = .sign (.block b) → P b) : ∀ b ∈ y.blocks, P b := by
  cases h with
  | opt h => exact h.blocks hs hp
  | store h _ _ _ => exact List.forall_mem_singleton.mpr (hs.did h (List.mem_singleton.mpr rfl))
  | endorse h _ =>
    obtain ⟨height, h⟩ := h
    exact List.forall_mem_singleton.mpr (hs.did h (List.mem_singleton.mpr rfl))
  | commit _ _ h _ hl =>
    refine List.forall_mem_singleton.mpr ?_
    rcases h with ⟨-, rfl⟩ | ⟨-, -, h⟩
    · exact absurd hl (Nat.not_lt_zero _)
    · exact hs.ever h (List.mem_singleton.mpr rfl)
  | vote _ _ _ _ _ _ => exact fun b hb => (nomatch hb)
  | clean _ _ _ _ _ => exact fun b hb => (nomatch hb)
  | adopt _ _ => exact fun b hb => (nomatch hb)
  | arm _ _ => exact fun b hb => (nomatch hb)
  | assembled _ _ _ _ _ _ _ => exact fun b hb => (nomatch hb)
  | _ => exact absurd (by assumption) hn

/-- A block that the node signs extends the highest certificate that it knows. -/
theorem Records.founded (h : Records cfg s t (.sign (.block b))) (hn : ¬ s.PesActive cfg)
    (hs : Trusty c σ s) (ht : (0, .sign (.block b)) ∈ (σ cfg.name).trace) : b.Founded σ := by
  cases h with
  | opt h =>
    obtain ⟨payload, rfl⟩ := h
    exact ⟨ht, hs.high, hs.height, hs.bound, hs.epoch, rfl⟩
  | pes ha _ _ => exact absurd ha hn
  | fork ha _ _ _ _ _ => exact absurd ha hn

/-- An optimistic vote is one that has been signed, or it is signed now. -/
theorem Records.stands (h : Records cfg s t y) (hn : ¬ s.PesActive cfg) (hs : Trusty c σ s)
    (ht : (0, y) ∈ (σ cfg.name).trace) : ∀ v ∈ y.optVotes, v.Stands σ := by
  cases h with
  | opt h =>
    intro v hv
    cases y with
    | send m dest tag =>
      cases m with
      | HSVote u => exact hs.votes _ h.1 v hv
      | _ => cases hv
    | keep m =>
      cases m with
      | HSVote u => exact hs.votes _ h.1 v hv
      | _ => cases hv
    | sign x =>
      cases x with
      | vote u => exact h.elim
      | _ => cases hv
    | receive m => exact h.elim
    | requeue m => exact h.elim
    | _ => cases hv
  | @vote b hp _ _ _ _ _ =>
    obtain ⟨height, hp⟩ := hp
    refine List.forall_mem_singleton.mpr ⟨⟨0, ht⟩, b, rfl, ?_⟩
    exact hs.shelved.did hp (List.mem_singleton.mpr rfl)
  | endorse _ _ => exact fun b hb => (nomatch hb)
  | store _ _ _ _ => exact fun b hb => (nomatch hb)
  | commit _ _ _ _ _ => exact fun b hb => (nomatch hb)
  | clean _ _ _ _ _ => exact fun b hb => (nomatch hb)
  | adopt _ _ => exact fun b hb => (nomatch hb)
  | arm _ _ => exact fun b hb => (nomatch hb)
  | assembled _ _ _ _ _ _ _ => exact fun b hb => (nomatch hb)
  | _ => exact absurd (by assumption) hn

/-! ### The highest certificate -/

theorem cleanFor_highQc (s : Core) (cfg : Config) (b : Block) :
    (s.cleanFor cfg b).highQc = s.highQc := by
  unfold cleanFor
  split <;> rfl

theorem collect_highQc {α : Type} (add : Aggregator → Appended α Aggregator) (mark : α → Event) :
    (collect add mark s).2.highQc = s.highQc := by
  unfold collect
  split <;> rfl

theorem settle_highQc {b1 b0 : Block} {marks : List (ℕ × Event)} :
    (s.settle b b1 b0 marks).highQc = s.highQc := by
  unfold settle
  split <;> rfl

/-- The certificate that the node takes over, if it is higher than the one that it has. -/
structure TakesOver (cfg : Config) (s t : Core) (q : QC) : Prop where
  source : s.Did (.assembled q) ∨ ∃ b, s.Proposed cfg b ∧ b.qc = q
  bound : q.height < s.height ∨ q.height + 1 < 2 ^ 64
  height : t.height = max s.height (q.height + 1)
  high : t.highQc = if q.height > s.highQc.height then q else s.highQc

theorem OptStep.highQc (h : OptStep cfg s t) :
    (t.height = s.height ∧ t.highQc = s.highQc) ∨ ∃ q, TakesOver cfg s t q := by
  cases h with
  | quiet h => exact .inl ⟨h.height, h.highQc⟩
  | @proposal b hp hb _ =>
    refine .inr ⟨b.qc, .inr ⟨b, hp, rfl⟩, hb, ?_, ?_⟩
    · rw [adopt_height, cleanFor_height]
    · rw [adopt_highQc, cleanFor_highQc]
  | overflow _ _ => exact .inl ⟨cleanFor_height, cleanFor_highQc _ _ _⟩
  | adopt hq hb _ _ _ => exact .inr ⟨_, .inl hq, .inr hb, adopt_height _ _, adopt_highQc _ _⟩
  | countVote _ _ _ _ _ => exact .inl ⟨collect_height _ _, collect_highQc _ _⟩
  | settle _ _ _ _ _ _ => exact .inl ⟨settle_height, settle_highQc⟩
  | _ => exact .inl ⟨rfl, rfl⟩

/-! ### The votes that are counted -/

theorem adopt_hsVotes (s : Core) (qc : QC) :
    (s.adopt qc).aggregator.hsVotes = s.aggregator.hsVotes ∨
      (s.adopt qc).aggregator.hsVotes = s.aggregator.hsVotes.retain fun k => k.1 > s.height := by
  unfold adopt updateHighQc
  by_cases hlt : qc.height < s.height
  · rw [if_pos hlt]
    split <;> exact .inl rfl
  · rw [if_neg hlt]
    split <;> exact .inr rfl

theorem cleanFor_hsVotes (s : Core) (cfg : Config) (b : Block) :
    (s.cleanFor cfg b).aggregator.hsVotes = s.aggregator.hsVotes := by
  unfold cleanFor
  split <;> rfl

theorem settle_hsVotes {b1 b0 : Block} {marks : List (ℕ × Event)} :
    (s.settle b b1 b0 marks).aggregator.hsVotes = s.aggregator.hsVotes := by
  unfold settle
  split <;> rfl

/-- A step counts an optimistic vote, drops those of low heights, or leaves the votes
as they are. -/
inductive Ballots (cfg : Config) (s t : Core) : Prop
  | same (h : t.aggregator.hsVotes = s.aggregator.hsVotes)
  | drop (h : t.aggregator.hsVotes = s.aggregator.hsVotes.retain fun k => k.1 > s.height)
  | count {v : HVote} (hv : s.Hears (.HSVote v))
      (h : t.aggregator.hsVotes = (s.aggregator.addHsVote v cfg.committee).2.hsVotes)

theorem OptStep.ballots (h : OptStep cfg s t) : Ballots cfg s t := by
  have hadopt : ∀ {u : Core} {qc : QC}, u.aggregator.hsVotes = s.aggregator.hsVotes →
    u.height = s.height →
      t = u.adopt qc → Ballots cfg s t := by
    rintro u qc hu hh rfl
    rcases adopt_hsVotes u qc with heq | heq
    · exact .same (heq.trans hu)
    · refine .drop ?_
      rw [heq, hu, hh]
  cases h with
  | quiet h => exact .same (by rw [h.aggregator])
  | @proposal b _ _ _ => exact hadopt (cleanFor_hsVotes s cfg b) cleanFor_height rfl
  | overflow _ _ => exact .same (cleanFor_hsVotes s cfg _)
  | adopt _ _ _ _ _ => exact hadopt rfl rfl rfl
  | countVote hv _ _ _ _ => exact .count hv (by rw [collect_aggregator])
  | settle _ _ _ _ _ _ => exact .same settle_hsVotes
  | _ => exact .same rfl

end Core

theorem Trusty.stands (hs : Trusty c σ s) (h : s.Hears (.HSVote v)) : v.Stands σ := by
  rcases h with h | ⟨tag, h⟩ | h
  · exact hs.votes _ h v (List.mem_singleton.mpr rfl)
  · exact hs.votes _ h v (List.mem_singleton.mpr rfl)
  · exact hs.votes _ h v (List.mem_singleton.mpr rfl)

/-- The maker of a key has been given votes for that key. -/
theorem Trusty.ballots {cfg : Config} (hs : Trusty cfg.committee σ s)
    (h : Core.Ballots cfg s t) (key : ℕ × Digest) :
    ∃ l : List HVote, t.aggregator.hsVotes.getD key .new =
      l.foldl (fun m v => (m.append v cfg.committee).2) .new ∧
        ∀ v ∈ l, (v.height, v.hash) = key ∧ v.Stands σ := by
  obtain ⟨l, hl, hall⟩ := hs.polls key
  cases h with
  | same h => exact ⟨l, by rw [h, hl], hall⟩
  | drop h =>
    rw [h, Map.getD_retain]
    split
    · exact ⟨l, hl, hall⟩
    · exact ⟨[], rfl, fun v hv => (nomatch hv)⟩
  | @count v hv h =>
    have hins : t.aggregator.hsVotes.getD key .new =
        (s.aggregator.hsVotes.insert (v.height, v.hash)
          ((s.aggregator.hsVotes.getD (v.height, v.hash) .new).append v cfg.committee).2).getD
            key .new := by
      rw [h]
      rfl
    rw [hins, Map.getD_insert]
    by_cases hk : key = (v.height, v.hash)
    · subst hk
      rw [if_pos rfl]
      refine ⟨l ++ [v], by rw [List.foldl_append, ← hl]; rfl, ?_⟩
      intro u hu
      rcases List.mem_append.mp hu with hu | hu
      · exact hall u hu
      · rw [List.mem_singleton.mp hu]
        exact ⟨rfl, hs.stands hv⟩
    · rw [if_neg hk]
      exact ⟨l, hl, hall⟩

/-- A certificate is assembled of votes for its block. -/
theorem Core.Records.tally {cfg : Config} (h : Core.Records cfg s t (.assembled q))
    (hs : Trusty cfg.committee σ s) :
    q.TallyOf cfg.committee fun v => (v.height, v.hash) = (q.height, q.hash) ∧ v.Stands σ := by
  cases h with
  | opt h => exact h.elim
  | pes _ h => exact h.elim
  | @assembled v _ hv _ _ _ _ hadd _ =>
    obtain ⟨l, hl, hall⟩ := hs.polls (v.height, v.hash)
    have hmake : (QCMaker.append (s.aggregator.hsVotes.getD (v.height, v.hash) .new) v
        cfg.committee).1 = .ok (some q) := hadd
    rw [hl] at hmake
    obtain ⟨hc, hq⟩ := QCMaker.append_foldl.mp hmake
    refine ⟨l, v, ?_, hc, hq⟩
    have hkey : (q.height, q.hash) = (v.height, v.hash) := by
      rw [hq]
      rfl
    intro u hu
    rcases List.mem_append.mp hu with hu | hu
    · exact ⟨(hall u hu).1.trans hkey.symm, (hall u hu).2⟩
    · rw [List.mem_singleton.mp hu]
      exact ⟨hkey.symm, hs.stands hv⟩

/-- What a node takes over has been collected, and keeps it one height above. -/
theorem Trusty.takesOver {cfg : Config} (hs : Trusty c σ s)
    (hi : Later (Function.update σ cfg.name s) σ) (h : Core.TakesOver cfg s t q) :
    t.highQc.Collected σ ∧ t.height = t.highQc.height + 1 ∧ t.height < 2 ^ 64 := by
  have hq : q.Collected σ := by
    rcases h.source with hq | ⟨b, hb, rfl⟩
    · refine .inr ⟨cfg.name, 0, (hi cfg.name).subset ?_⟩
      rw [Function.update_self, ← hs.epoch]
      exact hq
    · exact (hs.shelved.received hb).qc
  have hheight := hs.height
  have hbound := hs.bound
  have hb := h.bound
  rw [h.high, h.height]
  split
  · exact ⟨hq, by omega, by omega⟩
  · exact ⟨hs.high, by omega, by omega⟩

theorem Trusty.step {cfg : Config} (hs : Trusty cfg.committee σ s) (hn : ¬ s.PesActive cfg)
    (hi : σ cfg.name = t) (h : Core.OptStep cfg s t) : Trusty cfg.committee σ t := by
  have hstep : Core.Step cfg s t := .opt h
  have hext := h.extends
  -- what comes on record
  have hnew : ∀ x ∈ t.trace, x ∈ s.trace ∨
      x.1 = 0 ∧ Core.Records cfg s t x.2 ∧ (0, x.2) ∈ (σ cfg.name).trace := by
    intro x hx
    rcases hstep.recorded hx with hold | ⟨he, hr⟩
    · exact .inl hold
    · rw [hs.epoch] at he
      refine .inr ⟨he, hr, ?_⟩
      rw [hi, ← he]
      exact hx
  have hlater : Later (Function.update σ cfg.name s) σ := by
    intro k
    by_cases hk : k = cfg.name
    · subst hk
      rw [Function.update_self, hi]
      exact hext.trace
    · rw [Function.update_of_ne hk]
  have hhigh : t.highQc.Collected σ ∧ t.height = t.highQc.height + 1 ∧ t.height < 2 ^ 64 := by
    rcases h.highQc with ⟨hh, hq⟩ | ⟨q, hq⟩
    · rw [hh, hq]
      exact ⟨hs.high, hs.height, hs.bound⟩
    · exact hs.takesOver hlater hq
  refine ⟨hext.epoch.trans hs.epoch, ?_, ⟨?_, ?_⟩, ?_, hhigh.1, hhigh.2.1, hhigh.2.2,
    hs.ballots h.ballots, ?_⟩
  · intro x hx
    rcases hnew x hx with hx | ⟨he, hr, -⟩
    · exact hs.kinds x hx
    · exact ⟨he, hr.ofHotstuff hn⟩
  · intro x hx
    rcases hnew x hx with hx | ⟨-, hr, ht⟩
    · exact hs.shelved.record x hx
    · refine hr.optBlocks hn hs.shelved ?_
      intro b hb
      rw [hb] at hr ht
      exact hr.founded hn hs ht
  · intro p hp b hb
    rcases hstep.waiting hp with hp | ⟨m, hm, heq⟩
    · exact hs.shelved.waiting p hp b hb
    · exact hs.shelved.did hm (heq ▸ hb : b ∈ m.blocks)
  · intro x hx
    rcases hnew x hx with hx | ⟨-, hr, ht⟩
    · exact hs.votes x hx
    · exact hr.stands hn hs ht
  · rintro q ⟨e, hq⟩
    rcases hnew _ hq with hq | ⟨-, hr, -⟩
    · exact hs.tallies q ⟨e, hq⟩
    · exact hr.tally hs

/-! ### All nodes -/

theorem Trusty.mono (hs : Trusty c σ s) (hl : Later σ τ) : Trusty c τ s :=
  { hs with
    shelved := ⟨fun x hx b hb => (hs.shelved.record x hx b hb).mono hl,
      fun p hp b hb => (hs.shelved.waiting p hp b hb).mono hl⟩
    votes := fun x hx v hv => (hs.votes x hx v hv).mono hl
    high := hs.high.mono hl
    polls := by
      intro key
      obtain ⟨l, hl', hall⟩ := hs.polls key
      exact ⟨l, hl', fun v hv => ⟨(hall v hv).1, (hall v hv).2.mono hl⟩⟩
    tallies := fun q hq => (hs.tallies q hq).mono fun v hv => ⟨hv.1, hv.2.mono hl⟩ }

theorem Trusty.new : Trusty c σ .new := by
  have hreset : ∀ x ∈ (Core.new).trace, x = (0, .reset 1 1) := fun x hx => List.mem_singleton.mp hx
  refine ⟨rfl, ?_, .new, ?_,
    .inl rfl, rfl, (by decide : 1 < 2 ^ 64), fun key => ⟨[], rfl, fun v hv => (nomatch hv)⟩, ?_⟩
  · intro x hx
    rw [hreset x hx]
    exact ⟨rfl, trivial⟩
  · intro x hx
    rw [hreset x hx]
    exact fun v hv => (nomatch hv)
  · rintro q ⟨e, hq⟩
    cases hreset _ hq

theorem Trusty.take {m : ConsensusMessage} (hs : Trusty c σ s) (hk : Core.smvbaCall m = none)
    (hb : ∀ b ∈ m.blocks, b.Founded σ) (hv : ∀ v ∈ m.optVotes, v.Stands σ) :
    Trusty c σ (s.log (.receive m)) :=
  { hs with
    kinds := List.forall_mem_cons.mpr ⟨⟨hs.epoch, hk⟩, hs.kinds⟩
    shelved := hs.shelved.take hb
    votes := List.forall_mem_cons.mpr ⟨hv, hs.votes⟩
    tallies := by
      rintro q ⟨e, hq⟩
      exact hs.tallies q ⟨e, Core.mem_take hq trivial⟩ }

/-- Only messages of the optimistic path come, with votes that stand. -/
theorem Arrives.optimistic {i : PublicKey} {m : ConsensusMessage} {input : Input}
    (hs : ∀ k, Trusty c σ (σ k)) (hm : input = .core m ∨ input = .smvba m)
    (ha : Arrives (fun _ => False) σ i input) :
    Core.smvbaCall m = none ∧ ∀ v ∈ m.optVotes, v.Stands σ := by
  have hmsg : ∀ m', (input = .core m' ∨ input = .smvba m') → m' = m := by
    rintro m' (rfl | rfl) <;> rcases hm with hm | hm <;> cases hm <;> rfl
  cases ha with
  | core _ h _ =>
    obtain rfl := hmsg _ (.inl rfl)
    exact ⟨((hs _).kinds _ h).2.1, (hs _).votes _ h⟩
  | smvba _ h ht _ => exact absurd ((hs _).kinds _ h).2.2 ht
  | request _ _ =>
    obtain rfl := hmsg _ (.inl rfl)
    exact ⟨rfl, fun v hv => (nomatch hv)⟩
  | foreignCore h => exact h.elim
  | foreignSmvba h => exact h.elim
  | payload _ =>
    obtain rfl := hmsg _ (.inl rfl)
    exact ⟨rfl, fun v hv => (nomatch hv)⟩
  | parent _ _ =>
    obtain rfl := hmsg _ (.inl rfl)
    exact ⟨rfl, fun v hv => (nomatch hv)⟩
  | fallbackPayload h => exact absurd ((hs i).kinds _ h).2 (by decide : ¬ FALLBACK = OPT)
  | outputPayload h => exact absurd ((hs i).kinds _ h).2 (by decide : ¬ PES = OPT)
  | requeued h => exact (((hs i).kinds _ h).2).elim
  | requeuedSmvba h _ => exact (((hs i).kinds _ h).2).elim
  | timer _ => rcases hm with hm | hm <;> cases hm

variable {S : Setup} {w : World}

theorem pointwise_trusty (hS : S.Hotstuff) :
    Pointwise S (fun k => k ∈ S.committee.sortedNames) (fun _ _ => False) (fun _ _ _ => True)
      (fun _ => True) (fun σ _ s => Trusty S.committee σ s) where
  earlier := fun _ => id
  later := fun hl hs => hs.mono hl
  start := fun _ => .new
  take := by
    rintro σ i m _ hs - ⟨input, hm, ha, -⟩
    obtain ⟨hk, hv⟩ := ha.optimistic hs hm
    exact (hs i).take hk (ha.shelved (fun k => (hs k).shelved) hm) hv
  turn := by
    intro σ i t _ hs _ ht
    have hn : ¬ (σ i).PesActive (S.config i) := Core.not_pesActive hS.opt hS.pes (hs i).kinds
    have hstep := ht.optStep (hs i) hn
    have hlater : Later σ (Function.update σ i t) := later_update ht.trace
    exact ((hs i).mono hlater).step hn (Function.update_self ..) hstep

theorem Setup.Runs.trusty (hS : S.Hotstuff) (h : S.Runs w) (k : PublicKey) :
    Trusty S.committee w.core (w.core k) :=
  (h.invariant (pointwise_trusty hS).everywhere).2 trivial k

end Hotstuff

end Ipotane
