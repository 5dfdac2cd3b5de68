import Ipotane.EpochChange

/-! The values of the agreement: where they come from, and their two bits. -/
namespace Ipotane

open Lib Handler

section Values

variable [Crypto]

def PreVoteTag.values : PreVoteTag → List SPBValue
  | Yes v _ => [v]
  | No => []

def MVoteTag.values : MVoteTag → List SPBValue
  | Yes v _ _ => [v]
  | No => []

/-- The values that a message carries. -/
def ConsensusMessage.values : ConsensusMessage → List SPBValue
  | SPBPropose v _ | SPBFinsh v _ => [v]
  | SMVBAPreVote m => m.tag.values
  | SMVBAVote m => m.tag.values
  | SMVBAHalt m => [m.value]
  | _ => []

/-- The values of an entry of the record. -/
def Event.values : Event → List SPBValue
  | send m _ _ | receive m | keep m | requeue m => m.values
  | propose v | lock v _ | finish v _ => [v]
  | count m | sign (.mvote m) => m.tag.values
  | halted m | sign (.halt m) => [m.value]
  | _ => []

namespace Core

variable {cfg : Config} {s t : Core} {P : SPBValue → Prop} {v : SPBValue}

/-- Every value on record is in `P`. -/
def Stocked (P : SPBValue → Prop) (s : Core) : Prop := ∀ x ∈ s.trace, ∀ v ∈ x.2.values, P v

/-! ### One step -/

theorem Stocked.did (hs : s.Stocked P) {y : Event} (h : s.Did y) : ∀ v ∈ y.values, P v := hs _ h

theorem Stocked.heard (hs : s.Stocked P) {m : ConsensusMessage} (h : s.Hears m) :
    ∀ v ∈ m.values, P v := by
  rcases h with h | ⟨tag, h⟩ | h
  · exact hs _ h
  · exact hs _ h
  · exact hs _ h

theorem Stocked.proposed (hs : s.Stocked P) (hk : s.Kept) {key : ℕ × ℕ}
    (h : s.spbProposes.get key = some v) : P v :=
  hs.did (hk.proposes key v h).1 v (List.mem_singleton.mpr rfl)

theorem Stocked.halt (hs : s.Stocked P) (hk : s.Kept) {leader : PublicKey} {p : SPBProof}
    (h : s.HaltCause leader v p) : P v := by
  cases h with
  | finish _ _ hf =>
    have hd := (hk.finishs _ _ (mem_of_lookup hf)).1
    exact hs.did hd v (List.mem_singleton.mpr rfl)
  | @votes m q x hm ht _ _ _ _ =>
    refine hs.did hm v ?_
    change v ∈ m.tag.values
    rw [ht]
    exact List.mem_singleton.mpr rfl

theorem Stocked.source (hs : s.Stocked P) {p : SPBProof} (h : s.SpbSource cfg v p) : P v := by
  cases h with
  | own h => exact hs.did h v (List.mem_singleton.mpr rfl)
  | peer h _ _ => exact hs.did h v (List.mem_singleton.mpr rfl)

theorem Stocked.issued (hs : s.Stocked P) (hk : s.Kept)
    (hP : ∀ v n, P v → P { v with phase := n }) {m : ConsensusMessage} (h : s.Issues cfg m) :
    ∀ v ∈ m.values, P v := by
  cases m with
  | SPBPropose v p =>
    refine List.forall_mem_singleton.mpr ?_
    rcases h with ⟨-, h⟩ | ⟨hp, h⟩
    · exact hs.did h v (List.mem_singleton.mpr rfl)
    · cases h with
      | init _ hproof _ _ _ =>
        rw [hproof] at hp
        exact absurd rfl hp
      | lock _ _ hw hv =>
        rw [hv]
        exact hP _ _ (hs.proposed hk hw)
  | SPBFinsh v p =>
    refine List.forall_mem_singleton.mpr ?_
    obtain ⟨-, -, w, hw, rfl⟩ := h
    exact hP _ _ (hs.proposed hk hw)
  | SMVBAPreVote m =>
    intro v hv
    obtain ⟨-, c, -, -, -, hlock⟩ := h
    cases htag : m.tag with
    | No =>
      rw [ConsensusMessage.values, htag] at hv
      cases hv
    | Yes w p =>
      rw [ConsensusMessage.values, htag] at hv
      cases List.mem_singleton.mp hv
      rw [htag] at hlock
      have hd := (hk.locks _ _ (mem_of_lookup hlock)).1
      exact hs.did hd _ (List.mem_singleton.mpr rfl)
  | SMVBAVote m => exact hs _ (List.mem_of_mem_head? h)
  | SMVBAHalt m => exact hs.did h
  | _ => exact fun v hv => (nomatch hv)

theorem Stocked.pesLog (hs : s.Stocked P) (hk : s.Kept)
    (hP : ∀ v n, P v → P { v with phase := n }) {y : Event} (h : s.PesLog cfg y) :
    ∀ v ∈ y.values, P v := by
  unfold PesLog at h
  split at h
  case h_7 =>
    obtain ⟨leader, v, p, rfl, hc⟩ := h
    exact List.forall_mem_singleton.mpr (hs.halt hk hc)
  case h_8 => exact hs.issued hk hP h.1
  case h_9 => exact hs.issued hk hP h.1
  case h_15 => exact h.elim
  all_goals exact fun v hv => (nomatch hv)

theorem OptLog.values {y : Event} (h : s.OptLog cfg y) : y.values = [] := by
  unfold OptLog at h
  split at h
  all_goals first | rfl | exact h.elim

theorem Records.values (hs : s.Stocked P) (hk : s.Kept) (hP : ∀ v n, P v → P { v with phase := n })
    {y : Event} (hp : ∀ v, y = .propose v → P v) (h : Records cfg s t y) : ∀ v ∈ y.values, P v := by
  cases h with
  | opt h =>
    rw [h.values]
    exact fun v hv => (nomatch hv)
  | pes _ h => exact hs.pesLog hk hP h
  | propose _ _ _ _ _ _ => exact List.forall_mem_singleton.mpr (hp _ rfl)
  | lock _ h _ _ => exact List.forall_mem_singleton.mpr (hs.source h)
  | finish _ h _ => exact hs.heard h.hears
  | count _ h _ => exact hs.heard h.hears
  | halted _ h _ _ _ => exact hs.heard h.hears
  | mvoteYes _ h ht _ _ =>
    refine List.forall_mem_singleton.mpr (hs.heard h.taken.hears _ ?_)
    rw [ConsensusMessage.values, ht]
    exact List.mem_singleton.mpr rfl
  | _ => exact fun v hv => (nomatch hv)

/-- A step puts no value on record but those that are there and those that it proposes. -/
theorem Stocked.step (hs : s.Stocked P) (hk : s.Kept) (hP : ∀ v n, P v → P { v with phase := n })
    (hp : ∀ e v, (e, .propose v) ∈ t.trace → P v) (h : Step cfg s t) : t.Stocked P := by
  rintro ⟨e, y⟩ hx
  rcases h.recorded hx with hold | ⟨-, hr⟩
  · exact hs _ hold
  · refine hr.values hs hk hP ?_
    intro v hv
    exact hp e v (hv ▸ hx)

theorem Stocked.renewed (hs : s.Stocked P) (hk : s.Kept) : s.renewed.Stocked P := by
  intro x hx
  rcases mem_renewed_trace hx with hx | rfl | ⟨m, rfl, hm, -⟩
  · exact hs x hx
  · exact fun v hv => (nomatch hv)
  · rcases hk.waiting _ hm with ⟨b, hb⟩ | ⟨e, hr⟩
    · simp only at hb
      rw [hb]
      exact fun v hv => (nomatch hv)
    · have hreceived := hs _ hr
      exact hreceived

end Core

/-! ### All nodes -/

variable {S : Setup} {w : World} {P : SPBValue → Prop}

/-- A message that comes has been sent, or carries no value. -/
theorem Arrives.stocked {σ : Cores} {i : PublicKey} {m : ConsensusMessage} {input : Input}
    (hs : ∀ k, (σ k).Stocked P) (hm : input = .core m ∨ input = .smvba m)
    (ha : Arrives (fun _ => False) σ i input) : ∀ v ∈ m.values, P v := by
  have hmsg : ∀ m', (input = .core m' ∨ input = .smvba m') → m' = m := by
    rintro m' (rfl | rfl) <;> rcases hm with hm | hm <;> cases hm <;> rfl
  have hnone : m.values = [] → ∀ v ∈ m.values, P v := by
    intro h
    rw [h]
    exact fun v hv => (nomatch hv)
  cases ha with
  | core _ h _ =>
    obtain rfl := hmsg _ (.inl rfl)
    exact hs _ _ h
  | smvba _ h _ _ =>
    obtain rfl := hmsg _ (.inr rfl)
    exact hs _ _ h
  | requeuedSmvba h _ =>
    obtain rfl := hmsg _ (.inr rfl)
    exact hs _ _ h
  | foreignCore h => exact h.elim
  | foreignSmvba h => exact h.elim
  | timer _ => rcases hm with hm | hm <;> cases hm
  | request _ _ =>
    obtain rfl := hmsg _ (.inl rfl)
    exact hnone rfl
  | payload _ =>
    obtain rfl := hmsg _ (.inl rfl)
    exact hnone rfl
  | parent _ _ =>
    obtain rfl := hmsg _ (.inl rfl)
    exact hnone rfl
  | fallbackPayload _ =>
    obtain rfl := hmsg _ (.inr rfl)
    exact hnone rfl
  | outputPayload _ =>
    obtain rfl := hmsg _ (.inr rfl)
    exact hnone rfl
  | requeued _ =>
    obtain rfl := hmsg _ (.inl rfl)
    exact hnone rfl

/-- If the proposed values are in `P`, all values are. -/
theorem inductive_stocked (S : Setup) (hP : ∀ v n, P v → P { v with phase := n }) :
    Inductive S (fun k => k ∈ S.committee.sortedNames) (fun _ _ => False) (fun _ _ _ => True)
      (fun σ => ∀ k e v, (e, .propose v) ∈ (σ k).trace → P v)
      (fun σ => ∀ k, (σ k).Kept ∧ (σ k).Stocked P) where
  earlier := by
    intro σ τ hl hc k e v hv
    exact hc k e v ((hl k).subset hv)
  start := by
    intro k
    refine ⟨.new, ?_⟩
    intro x hx
    cases List.mem_singleton.mp hx
    exact fun v hv => (nomatch hv)
  take := by
    rintro σ i m _ hs _ ⟨input, hm, ha, -⟩ k
    by_cases hk : k = i
    · subst hk
      rw [Function.update_self]
      refine ⟨(hs k).1.take m, ?_⟩
      intro x hx
      rcases List.mem_cons.mp hx with rfl | hx
      · exact ha.stocked (fun j => (hs j).2) hm
      · exact (hs k).2 x hx
    · rw [Function.update_of_ne hk]
      exact hs k
  turn := by
    intro σ i t _ _ hs hc ht k
    by_cases hk : k = i
    · subst hk
      rw [Function.update_self]
      cases ht with
      | step ht =>
        refine ⟨(hs k).1.step ht, (hs k).2.step (hs k).1 hP ?_ ht⟩
        intro e v hv
        refine hc k e v ?_
        rw [Function.update_self]
        exact hv
      | epoch _ ht =>
        subst ht
        exact ⟨(hs k).1.renewed, (hs k).2.renewed (hs k).1⟩
    · rw [Function.update_of_ne hk]
      exact hs k

/-! ### The two bits of a value -/

/-- The bit that is agreed on is the tag of the block that is executed. -/
def SPBValue.Matched (v : SPBValue) : Prop := (v.val = OPT ∨ v.val = PES) ∧ v.val = v.block.tag

/-- A node that moves on to another round does not carry an `OPT` value over. -/
def CarriesPes : ℕ × Event → Prop
  | (_, .carry v) => v.val ≠ OPT
  | _ => True

instance (x : ℕ × Event) : Decidable (CarriesPes x) := by
  obtain ⟨_, x⟩ := x
  unfold CarriesPes
  rcases x <;> infer_instance

namespace Core

variable {cfg : Config} {s t : Core}

/-- The first value of a height is matched; a later one is, unless it goes on with an
`OPT` value. -/
theorem Initial.matched {v : SPBValue} (h : s.Initial cfg v) (hk : s.Kept)
    (hs : ∀ e v, (e, .propose v) ∈ s.trace → v.Matched) (hc : ∀ x ∈ s.trace, CarriesPes x) :
    v.Matched := by
  cases h with
  | first _ hb ht _ =>
    rcases hb with hb | ⟨hb, -, -⟩
    · exact ⟨.inl hb, hb.trans (ht.1 hb).symm⟩
    · have hne : v.val ≠ OPT := by
        rw [hb]
        decide
      exact ⟨.inr hb, hb.trans (ht.2 hne).symm⟩
  | @next last _ hcarry hl hv _ _ ht =>
    have hlast : last.val = PES := by
      obtain ⟨hbit, -⟩ := hs _ _ (hk.proposes _ _ hl).1
      exact hbit.resolve_left (hc _ hcarry)
    have hval : v.val = PES := hv.trans hlast
    exact ⟨.inr hval, hval.trans ht.symm⟩

theorem Reachable.proposes_matched {alive : Bool} (h : Reachable cfg s alive)
    (hc : ∀ x ∈ s.trace, CarriesPes x) : ∀ e v, (e, .propose v) ∈ s.trace → v.Matched := by
  refine ((h.invariant (P := fun s => s.Kept ∧ ∀ e v, (e, .propose v) ∈ s.trace → v.Matched)
    (C := fun l => ∀ x ∈ l, CarriesPes x) ?_ ⟨.new, ?_⟩ ?_ ?_).2 hc).2
  · exact fun l l' hl hc x hx => hc x (hl.subset hx)
  · exact fun e v hv => (not_own_of_new hv trivial).elim
  · exact fun s m hs _ => ⟨hs.1.take m, fun e v hv => hs.2 e v (mem_take hv trivial)⟩
  · intro s t _ hs hc ht
    cases ht with
    | step ht =>
      refine ⟨hs.1.step ht, ?_⟩
      intro e v hv
      rcases ht.recorded hv with hv | ⟨-, hr⟩
      · exact hs.2 e v hv
      · cases hr with
        | opt h => exact h.elim
        | pes _ h => exact h.elim
        | propose _ hi _ _ _ _ =>
          exact hi.matched hs.1 hs.2 fun x hx => hc x (ht.extends.trace.subset hx)
    | epoch _ ht =>
      subst ht
      exact ⟨hs.1.renewed, fun e v hv => hs.2 e v (mem_renewed hv trivial)⟩

/-- What an agreement makes a node commit is not tagged `OPT`. -/
theorem Reachable.output_tag {alive : Bool} (h : Reachable cfg s alive) {e : ℕ} {b : Block}
    (hb : (e, .commit b .smvbaOutput) ∈ s.trace) : b.tag ≠ OPT := by
  refine h.recorded (P := fun x => ∀ b, x.2 = .commit b .smvbaOutput → b.tag ≠ OPT) ?_ ?_ _ hb b rfl
  · rintro u v y hr b rfl
    cases hr with
    | opt h => exact h.elim
    | pes _ h => exact h.elim
    | outputCommit _ _ _ ht _ _ _ => exact ht
  · rintro e y ho b rfl
    exact (ho trivial).elim

/-- Why a node has left epoch `e`. -/
def LeftBy (cfg : Config) (s : Core) (e : ℕ) : Prop :=
  (∃ b, (e, .commit b .smvbaOutput) ∈ s.trace ∧ b.tag = PES) ∨
    ∃ m b, (e, .receive m) ∈ s.trace ∧ Believed cfg m b ∧ e < b.epoch

theorem LeftBy.mono {e : ℕ} (h : LeftBy cfg s e) (ht : s.trace <:+ t.trace) : LeftBy cfg t e := by
  rcases h with ⟨b, hb, htag⟩ | ⟨m, b, hm, hb⟩
  · exact .inl ⟨b, ht.subset hb, htag⟩
  · exact .inr ⟨m, b, ht.subset hm, hb⟩

theorem Reachable.left {alive : Bool} (h : Reachable cfg s alive) :
    ∀ e < s.epoch, LeftBy cfg s e := by
  refine (h.invariant (P := fun s => ∀ e < s.epoch, LeftBy cfg s e) (C := fun _ => True)
    (fun _ _ _ h => h) ?_ ?_ ?_).2 trivial
  · exact fun e he => absurd he (Nat.not_lt_zero e)
  · exact fun s m hs _ e he => (hs e he).mono (List.suffix_cons _ _)
  · intro s t _ hs _ ht e he
    have htr := ht.trace
    cases ht with
    | step ht =>
      rw [ht.extends.epoch] at he
      exact (hs e he).mono htr
    | epoch hend ht =>
      subst ht
      rw [renewed_epoch] at he
      by_cases hlast : e = s.epoch
      · subst hlast
        refine LeftBy.mono ?_ htr
        exact hend
      · exact (hs e (by omega)).mono htr

end Core

/-- An `OPT` decision of the agreement is not executed as a `PES` block. -/
structure OptInert (S : Setup) (w : World) : Prop where
  sent : ∀ k e m dest tag, (e, .send m dest tag) ∈ (w.core k).trace →
    ∀ v ∈ m.values, v.val = v.block.tag
  uncommitted : ∀ k e m, (e, .halted m) ∈ (w.core k).trace → m.value.val = OPT →
    ∀ e', (e', .commit m.value.block .smvbaOutput) ∉ (w.core k).trace
  left : ∀ k e, e < (w.core k).epoch →
    (∃ e' m, (e', .halted m) ∈ (w.core k).trace ∧ m.value.val = PES ∧
      (e, .commit m.value.block .smvbaOutput) ∈ (w.core k).trace) ∨
    ∃ m b, (e, .receive m) ∈ (w.core k).trace ∧ Core.Believed (S.config k) m b ∧ e < b.epoch

theorem optInert_of_carriesPes (h : S.Runs w)
    (hc : ∀ k ∈ S.committee.sortedNames, ∀ x ∈ (w.core k).trace, CarriesPes x) : OptInert S w := by
  have hmatched : ∀ k, (w.core k).Stocked SPBValue.Matched := by
    intro k
    refine ((h.invariant (inductive_stocked S fun v n hv => hv)).2 ?_ k).2
    intro k e v hv
    by_cases hk : k ∈ S.committee.sortedNames
    · exact (h.reachable k).proposes_matched (hc k hk) e v hv
    · rw [h.core_new hk] at hv
      exact (Core.not_own_of_new hv trivial).elim
  have hrooted := fun k => ((h.invariant (inductive_rooted S)).2 trivial k).rooted
  have hhalted : ∀ {k e m}, (e, .halted m) ∈ (w.core k).trace → m.value.val = m.value.block.tag :=
    fun hm => (hmatched _ _ hm _ (List.mem_singleton.mpr rfl)).2
  constructor
  · exact fun k e m dest tag hm v hv => (hmatched k _ hm v hv).2
  · intro k e m hm hopt e' hcommit
    refine (h.reachable k).output_tag hcommit ?_
    rw [← hhalted hm]
    exact hopt
  · intro k e he
    rcases (h.reachable k).left e he with ⟨b, hb, htag⟩ | hlater
    · obtain ⟨e', -, m, hm, rfl⟩ := hrooted k _ hb
      exact .inl ⟨e', m, hm, (hhalted hm).trans htag, hb⟩
    · exact .inr hlater

end Values

/-! ### An `OPT` value that is carried over -/

/-- Node `2` prepares height `1` with `OPT`, the three others with `PES`. Their values are finished,
but the coin elects node `2`, and nobody has its lock. -/
def toEmptyRound : List Act :=
  [.boot 0, .boot 1, .boot 2, .boot 3, .deliver 0 1 0, .deliver 2 1 0, .deliver 3 1 0, .deliver 2 0
    1, .deliver 2 1 2, .deliver 1 0 0, .deliver 3 0 0, .deliver 0 1 1, .deliver 1 0 3, .deliver 3 1
    1, .deliver 0 1 4, .deliver 0 3 0, .deliver 3 0 4, .deliver 1 3 0, .deliver 3 1 5, .deliver 0 3
    2, .deliver 1 0 5, .deliver 3 0 5, .deliver 1 3 3, .deliver 0 1 6, .deliver 3 1 6, .deliver 0 3
    4, .deliver 1 3 4, .deliver 1 0 6, .deliver 3 0 6, .deliver 0 1 7, .deliver 1 0 7, .deliver 3 1
    7, .deliver 0 1 8, .deliver 0 3 5, .deliver 3 0 8, .deliver 1 3 5, .deliver 3 1 9, .deliver 0 3
    6, .deliver 1 0 9, .deliver 3 0 9, .deliver 0 1 10, .deliver 1 3 7, .deliver 0 1 11, .deliver 1
    0 10, .deliver 3 1 11, .deliver 0 3 8, .deliver 3 0 11, .deliver 1 3 8, .deliver 3 1 12,
    .deliver 0 3 9, .deliver 1 0 12, .deliver 1 3 10, .deliver 0 1 13, .deliver 0 3 11, .deliver 1 0
    13, .deliver 3 0 13, .deliver 1 3 11, .deliver 0 1 14, .deliver 3 1 14, .deliver 1 0 14,
    .deliver 3 0 14, .deliver 0 1 15, .deliver 3 1 15, .deliver 0 3 13, .deliver 1 3 13]

/-- Node `2` takes the `No` votes of the other nodes. -/
def toCarriedRound : List Act :=
  [.deliver 2 0 15, .deliver 2 1 16, .deliver 2 3 14]

theorem optInert_before_the_round_is_carried : ∃ w, sampleSetup.Runs w ∧
    (w.core 2).sends.any (fun x => x.1.values.any fun v => v.val = OPT) = true ∧
    OptInert sampleSetup w := by
  obtain ⟨w, hr, hm, hc⟩ := exists_play sampleSetup toEmptyRound
    (fun w => (w.core 2).sends.any (fun x => x.1.values.any fun v => v.val = OPT) = true ∧
      fourNodes.sortedNames.all (fun k => (w.core k).trace.all (CarriesPes ·)) = true)
    (by decide +kernel) (by decide +kernel)
  refine ⟨w, hr, hm, optInert_of_carriesPes hr ?_⟩
  intro k hk x hx
  exact of_decide_eq_true (List.all_eq_true.mp (List.all_eq_true.mp hc k hk) x hx)

/-- Node `2` enters round `2` with its `OPT` value and a block that is tagged `PES`. -/
theorem not_optInert_after_the_round_is_carried :
    ¬ ∀ (S : Setup) (w : World), S.Runs w → OptInert S w := by
  intro h
  obtain ⟨w, hr, hm⟩ := exists_play sampleSetup (toEmptyRound ++ toCarriedRound)
    (fun w => (w.core 2).sends.any (fun x => x.1.values.any fun v => v.val ≠ v.block.tag) = true)
    (by decide +kernel) (by decide +kernel)
  obtain ⟨⟨m, dest, tag⟩, hx, hm⟩ := List.any_eq_true.mp hm
  obtain ⟨v, hv, hne⟩ := List.any_eq_true.mp hm
  obtain ⟨n, hn⟩ := List.getElem?_of_mem hx
  obtain ⟨e, he⟩ := mem_of_sends hn
  exact of_decide_eq_true hne ((h _ w hr).sent 2 e m dest tag he v hv)

end Ipotane
