import Ipotane.EpochChange
import Ipotane.Ledger
import Ipotane.Locks

/-! What an agreement puts out: a proposal of the elected leader that a quorum has voted for. -/
namespace Ipotane

open Lib Handler

section Outputs

variable [Crypto]

/-- The values of the messages that follow the coin. -/
def ConsensusMessage.sealed : ConsensusMessage → List SPBValue
  | SMVBAPreVote m => m.tag.values
  | SMVBAVote m => m.tag.values
  | SMVBAHalt m => [m.value]
  | _ => []

/-- The values of an entry that is made after the coin. -/
def Event.sealed : Event → List SPBValue
  | send m _ _ | receive m | keep m | requeue m => m.sealed
  | count m | sign (.mvote m) => m.tag.values
  | halted m | sign (.halt m) => [m.value]
  | _ => []

namespace Core

variable {cfg : Config} {s t : Core} {P : SPBValue → Prop} {v : SPBValue} {alive : Bool}

/-- What the node has locked or finished is in `P`. -/
def Secures (P : SPBValue → Prop) (s : Core) : Prop :=
  ∀ e v q, (e, .lock v q) ∈ s.trace ∨ (e, .finish v q) ∈ s.trace → P v

/-- What is on record from after the coin is in `P`. -/
def Seals (P : SPBValue → Prop) (s : Core) : Prop := ∀ x ∈ s.trace, ∀ v ∈ x.2.sealed, P v

/-! ### One step -/

theorem Seals.heard (hs : s.Seals P) {m : ConsensusMessage} (h : s.Hears m) :
    ∀ v ∈ m.sealed, P v := by
  rcases h with h | ⟨tag, h⟩ | h
  · exact hs _ h
  · exact hs _ h
  · exact hs _ h

theorem Seals.halt (hs : s.Seals P) (hk : s.Kept) (hP : s.Secures P) {leader : PublicKey}
    {p : SPBProof} (h : s.HaltCause leader v p) : P v := by
  cases h with
  | finish _ _ hf => exact hP _ v p (.inr (hk.finishs _ _ (mem_of_lookup hf)).1)
  | @votes m q x hm ht _ _ _ _ =>
    refine hs _ hm v ?_
    change v ∈ m.tag.values
    rw [ht]
    exact List.mem_singleton.mpr rfl

/-- A prevote carries the lock of the node, and what comes later carries what has been taken. -/
theorem Seals.issued (hs : s.Seals P) (hk : s.Kept) (hP : s.Secures P) {m : ConsensusMessage}
    (h : s.Issues cfg m) : ∀ v ∈ m.sealed, P v := by
  cases m with
  | SMVBAPreVote m =>
    intro v hv
    obtain ⟨-, c, -, -, -, hlock⟩ := h
    cases htag : m.tag with
    | No =>
      rw [ConsensusMessage.sealed, htag] at hv
      cases hv
    | Yes w p =>
      rw [ConsensusMessage.sealed, htag] at hv
      cases List.mem_singleton.mp hv
      rw [htag] at hlock
      exact hP _ v p (.inl (hk.locks _ _ (mem_of_lookup hlock)).1)
  | SMVBAVote m => exact hs _ (List.mem_of_mem_head? h)
  | SMVBAHalt m => exact hs _ h
  | _ => exact fun v hv => (nomatch hv)

theorem Seals.pesLog (hs : s.Seals P) (hk : s.Kept) (hP : s.Secures P) {y : Event}
    (h : s.PesLog cfg y) : ∀ v ∈ y.sealed, P v := by
  unfold PesLog at h
  split at h
  case h_7 =>
    obtain ⟨leader, v, p, rfl, hc⟩ := h
    exact List.forall_mem_singleton.mpr (hs.halt hk hP hc)
  case h_8 => exact hs.issued hk hP h.1
  case h_9 => exact hs.issued hk hP h.1
  case h_15 => exact h.elim
  all_goals exact fun v hv => (nomatch hv)

theorem OptLog.sealed {y : Event} (h : s.OptLog cfg y) : y.sealed = [] := by
  unfold OptLog at h
  split at h
  all_goals first | rfl | exact h.elim

theorem Records.sealed (hs : s.Seals P) (hk : s.Kept) (hP : s.Secures P) {y : Event}
    (h : Records cfg s t y) : ∀ v ∈ y.sealed, P v := by
  cases h with
  | opt h =>
    rw [h.sealed]
    exact fun v hv => (nomatch hv)
  | pes _ h => exact hs.pesLog hk hP h
  | count _ h _ => exact hs.heard h.hears
  | halted _ h _ _ _ => exact hs.heard h.hears
  | mvoteYes _ h ht _ _ =>
    refine List.forall_mem_singleton.mpr (hs.heard h.taken.hears _ ?_)
    rw [ConsensusMessage.sealed, ht]
    exact List.mem_singleton.mpr rfl
  | _ => exact fun v hv => (nomatch hv)

theorem Secures.earlier (h : t.Secures P) (ht : s.trace ⊆ t.trace) : s.Secures P :=
  fun e v q hv => h e v q (hv.imp (fun hv => ht hv) fun hv => ht hv)

theorem Seals.step (hs : s.Seals P) (hk : s.Kept) (hP : t.Secures P) (h : Step cfg s t) :
    t.Seals P := by
  intro x hx
  rcases h.recorded hx with hold | ⟨-, hr⟩
  · exact hs _ hold
  · exact hr.sealed hs hk (hP.earlier h.extends.trace.subset)

theorem Seals.renewed (hs : s.Seals P) (hk : s.Kept) : s.renewed.Seals P := by
  intro x hx
  rcases mem_renewed_trace hx with hx | rfl | ⟨m, rfl, hm, -⟩
  · exact hs x hx
  · exact fun v hv => (nomatch hv)
  · rcases hk.waiting _ hm with ⟨b, hb⟩ | ⟨e, hr⟩
    · simp only at hb
      rw [hb]
      exact fun v hv => (nomatch hv)
    · have hreceived := hs _ hr
      exact hreceived

end Core

/-! ### All nodes -/

variable {S : Setup} {w : World} {P : SPBValue → Prop} {σ : Cores} {k : PublicKey}
  {v : SPBValue} {b : Block}

theorem ConsensusMessage.Internal.sealed {m : ConsensusMessage} (h : m.Internal) :
    m.sealed = [] := by
  cases m with
  | SMVBAPreVote m => exact h.elim
  | SMVBAVote m => exact h.elim
  | SMVBAHalt m => exact h.elim
  | _ => rfl

/-- A message that is taken comes from the node's own tasks, or has been sent or put back before. -/
theorem Arrives.origin {i : PublicKey} {m : ConsensusMessage} {input : Input}
    (hm : input = .core m ∨ input = .smvba m) (ha : Arrives (fun _ => False) σ i input) :
    m.Internal ∨ (∃ j e dest tag, (e, .send m dest tag) ∈ (σ j).trace) ∨
      ∃ e, (e, .requeue m) ∈ (σ i).trace := by
  have hmsg : ∀ m', (input = .core m' ∨ input = .smvba m') → m' = m := by
    rintro m' (rfl | rfl) <;> rcases hm with hm | hm <;> cases hm <;> rfl
  have hown : ∀ m' : ConsensusMessage, m'.Internal →
    (input = .core m' ∨ input = .smvba m') → m.Internal :=
    fun m' hint hm' => hmsg m' hm' ▸ hint
  cases ha with
  | core _ h _ => exact .inr (.inl ⟨_, _, _, _, hmsg _ (.inl rfl) ▸ h⟩)
  | smvba _ h _ _ => exact .inr (.inl ⟨_, _, _, _, hmsg _ (.inr rfl) ▸ h⟩)
  | requeuedSmvba h _ => exact .inr (.inr ⟨_, hmsg _ (.inr rfl) ▸ h⟩)
  | foreignCore h => exact h.elim
  | foreignSmvba h => exact h.elim
  | timer _ => rcases hm with hm | hm <;> cases hm
  | request _ _ => exact .inl (hown (.SyncRequest _ _) trivial (.inl rfl))
  | @payload e b _ => exact .inl (hown (.HsLoopBack b) trivial (.inl rfl))
  | @parent e b _ _ _ => exact .inl (hown (.HsLoopBack b) trivial (.inl rfl))
  | @fallbackPayload e b _ => exact .inl (hown (.FBLoopBack b) trivial (.inr rfl))
  | @outputPayload e b _ => exact .inl (hown (.ParLoopBack b) trivial (.inr rfl))
  | @requeued e b _ => exact .inl (hown (.HsPropose b) trivial (.inl rfl))

/-- If what is locked or finished is in `P`, all that follows is. -/
theorem inductive_seals (S : Setup) (P : SPBValue → Prop) :
    Inductive S (fun k => k ∈ S.committee.sortedNames) (fun _ _ => False) (fun _ _ _ => True)
      (fun σ => ∀ k, (σ k).Secures P) (fun σ => ∀ k, (σ k).Kept ∧ (σ k).Seals P) where
  earlier := fun σ τ hl hc k => (hc k).earlier (hl k).subset
  start := by
    intro k
    refine ⟨.new, ?_⟩
    intro x hx
    cases List.mem_singleton.mp hx
    exact fun v hv => (nomatch hv)
  take := by
    rintro σ i m _ hs _ ⟨input, hm, ha, -⟩ k
    by_cases hk : k = i
    · subst hk
      rw [Function.update_self]
      refine ⟨(hs k).1.take m, ?_⟩
      intro x hx
      rcases List.mem_cons.mp hx with rfl | hx
      · change ∀ v ∈ m.sealed, P v
        rcases ha.origin hm with hint | ⟨j, e, dest, tag, hsend⟩ | ⟨e, hreq⟩
        · rw [hint.sealed]
          exact fun v hv => (nomatch hv)
        · exact (hs j).2 _ hsend
        · exact (hs k).2 _ hreq
      · exact (hs k).2 x hx
    · rw [Function.update_of_ne hk]
      exact hs k
  turn := by
    intro σ i t _ _ hs hc ht k
    by_cases hk : k = i
    · subst hk
      have hsecures := hc k
      rw [Function.update_self] at hsecures ⊢
      cases ht with
      | step ht => exact ⟨(hs k).1.step ht, (hs k).2.step (hs k).1 hsecures ht⟩
      | epoch _ ht =>
        subst ht
        exact ⟨(hs k).1.renewed, (hs k).2.renewed (hs k).1⟩
    · rw [Function.update_of_ne hk]
      exact hs k

/-- Some node has locked or finished the value. -/
def Secured (σ : Cores) (v : SPBValue) : Prop :=
  ∃ k e q, (e, .lock v q) ∈ (σ k).trace ∨ (e, .finish v q) ∈ (σ k).trace

namespace Setup.Runs

/-- A quorum has voted in the first phase for what a quorum has locked. -/
theorem backed_before (h : S.Runs w) (hb : Backed S w.core v LOCK_PHASE) :
    Backed S w.core v INIT_PHASE := by
  obtain ⟨A, hA, hq, hall⟩ := hb
  have hne : A.Nonempty := by
    refine Finset.nonempty_iff_ne_empty.mpr ?_
    rintro rfl
    exact absurd hq (Nat.not_le_of_gt (Nat.succ_pos _))
  obtain ⟨k, hk⟩ := hne
  obtain ⟨u, hu⟩ := hall k hk
  obtain ⟨q, hl⟩ := hu.locked rfl
  obtain ⟨B, hB, hqB, hallB⟩ := h.spb_staged.1 k u q hl
  refine ⟨B, hB, hqB, fun j hj => ?_⟩
  obtain ⟨x, hx⟩ := hallB j hj
  refine ⟨x, hx.phase, hx.author.trans hu.author, hx.epoch.trans hu.epoch,
    hx.height.trans hu.height, hx.round.trans hu.round, hx.signed, hx.locked, fun hone => ?_⟩
  have hsame := hu.block hone
  rw [← hu.author] at hone
  exact (hx.block hone).trans hsame

/-- Every block that a node commits as the output of an agreement is that of a value on which it has
halted by then, made by the leader that its coin elected; a quorum has voted for values of this
maker, epoch, height and round, which is the same value unless the maker proposed two there. -/
theorem output_backed (h : S.Runs w) {e : ℕ} (hb : (e, .commit b .smvbaOutput) ∈ (w.core k).trace) :
    ∃ e' ≤ e, ∃ m c, (e', .halted m) ∈ (w.core k).trace ∧ m.value.block = b ∧
      (e', .coin c) ∈ (w.core k).trace ∧ c.height = m.height ∧ c.round = m.round ∧
      c.leader = b.author ∧ Backed S w.core m.value INIT_PHASE := by
  have hhalted : (w.core k).HaltedOn e b :=
    ((h.invariant (inductive_rooted S)).2 trivial k).rooted _ hb
  obtain ⟨e', he, m, c, hm, rfl, hc, hheight, hround, hleader⟩ := (h.reachable k).concludes hhalted
  refine ⟨e', he, m, c, hm, rfl, hc, hheight, hround, hleader, ?_⟩
  have hseals : (w.core k).Seals (Secured w.core) :=
    ((h.invariant (inductive_seals S (Secured w.core))).2 (fun j e v q hv => ⟨j, e, q, hv⟩) k).2
  obtain ⟨j, e, q, hl | hf⟩ := hseals _ hm m.value (List.mem_singleton.mpr rfl)
  · exact h.spb_staged.1 j _ q ⟨e, hl⟩
  · exact h.backed_before (h.spb_staged.2 j _ q ⟨e, hf⟩)

end Setup.Runs

end Outputs

theorem output_backed_toOutput : ∃ w b, soloSetup.Runs w ∧
    (w.core 0).Ever (.commit b .smvbaOutput) ∧
    ∃ v, v.block = b ∧ Backed soloSetup w.core v INIT_PHASE := by
  obtain ⟨w, hr, hc⟩ := exists_play soloSetup toOutput
    (fun w => ((w.core 0).trace.any fun x => x.2.committed.any fun b =>
      x.2 = .commit b .smvbaOutput) = true)
    (by decide) (by decide +kernel)
  obtain ⟨⟨e, y⟩, hx, hy⟩ := List.any_eq_true.mp hc
  obtain ⟨b, -, hb⟩ := (Option.any_eq_true _ _).mp hy
  cases of_decide_eq_true hb
  obtain ⟨-, -, m, -, -, hblock, -, -, -, -, hbacked⟩ := hr.output_backed hx
  exact ⟨w, b, hr, ⟨e, hx⟩, m.value, hblock, hbacked⟩

end Ipotane
