import Ipotane.Node
import Ipotane.Symbolic

/-! The payload of a block that is stored or committed is in the store. -/
namespace Ipotane

open Lib Handler

section Availability

variable [Crypto]

/-! ### Where a block comes from -/

namespace Core

variable {cfg : Config} {s t : Core} {b : Block}

/-- The block that a node works on when it makes the entry. -/
def worked : Event → Option Block
  | .process b _ | .graft b | .store b | .commit b _ | .cleanup b | .sync b
  | .send (.HsPropose b) _ _ => some b
  | _ => none

/-- The entry tells that the payload of the block is there. -/
def Supplies (b : Block) : Event → Prop
  | .sign (.block c) | .accept c => c = b
  | .receive m => loopback m = some b
  | _ => False

def Provided (past : List (ℕ × Event)) (b : Block) : Prop :=
  b = .genesis ∨ ∃ x ∈ past, Supplies b x.2

/-- A node works on a block after its payload has been supplied. -/
def InOrder (l : List (ℕ × Event)) : Prop :=
  ∀ x past, x :: past <:+ l → ∀ b ∈ worked x.2, Provided past b

theorem Provided.mono {past past' : List (ℕ × Event)} (h : Provided past b) (hp : past ⊆ past') :
    Provided past' b := by
  rcases h with h | ⟨x, hx, hb⟩
  · exact .inl h
  · exact .inr ⟨x, hp hx, hb⟩

theorem InOrder.provided {l : List (ℕ × Event)} (h : InOrder l) {x : ℕ × Event} (hx : x ∈ l)
    (hb : worked x.2 = some b) : Provided l b := by
  obtain ⟨pre, past, rfl⟩ := List.append_of_mem hx
  have hsuf : x :: past <:+ pre ++ x :: past := List.suffix_append _ _
  exact (h x past hsuf b hb).mono ((List.suffix_cons x past).trans hsuf).subset

theorem Supplied.provided (h : s.Supplied b) : Provided s.trace b := by
  cases h with
  | own h => exact .inr ⟨_, h, rfl⟩
  | accepted h => exact .inr ⟨_, h, rfl⟩
  | loopback h hm => exact .inr ⟨_, h, hm⟩

theorem Admits.provided (hs : InOrder s.trace) (h : s.Admits cfg b) : Provided s.trace b := by
  cases h with
  | own h => exact hs.provided h rfl
  | proposal _ ha => exact .inr ⟨_, ha, rfl⟩
  | loopback h => exact .inr ⟨_, h, rfl⟩

theorem InOrder.stored (hs : InOrder s.trace) (h : s.Ever (.store b)) : Provided s.trace b := by
  obtain ⟨e, h⟩ := h
  exact hs.provided h rfl

theorem OptLog.provided (hs : InOrder s.trace) {y : Event} (h : s.OptLog cfg y)
    (hb : worked y = some b) : Provided s.trace b := by
  unfold OptLog at h
  split at h
  case h_2 =>
    cases hb
    exact .inr ⟨_, h.1, rfl⟩
  case h_7 =>
    cases hb
    exact h.1.provided hs
  case h_9 =>
    cases hb
    rcases h with ⟨height, h⟩ | h
    · exact hs.provided h rfl
    · exact hs.stored h
  case h_10 =>
    cases hb
    rcases h with ⟨height, h⟩ | h | h
    · exact hs.provided h rfl
    · exact hs.stored h
    · exact .inl h
  case h_12 => exact h.elim
  all_goals cases hb

theorem PesLog.provided (hs : InOrder s.trace) {y : Event} (h : s.PesLog cfg y)
    (hb : worked y = some b) : Provided s.trace b := by
  unfold PesLog at h
  split at h
  case h_8 m dest tag =>
    cases m with
    | HsPropose c => exact h.1.elim
    | _ => cases hb
  case h_11 =>
    cases hb
    exact h.2.2.provided
  case h_13 =>
    cases hb
    exact hs.stored h
  case h_15 => exact h.elim
  all_goals cases hb

theorem Records.provided (hs : InOrder s.trace) {y : Event} (h : Records cfg s t y)
    (hb : worked y = some b) : Provided s.trace b := by
  cases h with
  | opt h => exact h.provided hs hb
  | pes _ h => exact h.provided hs hb
  | store hp _ _ _ =>
    cases hb
    exact hs.provided hp rfl
  | commit _ _ h0 _ _ =>
    cases hb
    rcases h0 with ⟨-, h0⟩ | ⟨-, -, h0⟩
    · exact .inl h0
    · exact hs.stored h0
  | pesStore _ _ _ hg _ =>
    cases hb
    exact hs.provided (List.mem_of_mem_head? hg) rfl
  | fastCommit _ hst _ _ _ _ _ _ =>
    cases hb
    exact hs.stored hst
  | outputCommit _ hst _ _ _ _ _ =>
    cases hb
    exact hs.stored hst.ever
  | _ => cases hb

/-- The entries of a step come after their causes. -/
theorem InOrder.append {l new : List (ℕ × Event)} (h : InOrder l)
    (hn : ∀ x ∈ new, ∀ b ∈ worked x.2, Provided l b) : InOrder (new ++ l) := by
  intro x past hsuf b hb
  rcases List.suffix_or_suffix_of_suffix hsuf (List.suffix_append new l) with hold | hnew
  · exact h x past hold b hb
  · rcases List.suffix_cons_iff.mp hnew with heq | hin
    · exact h x past (heq ▸ List.suffix_rfl) b hb
    · have hx : x ∈ new ++ l := hsuf.subset List.mem_cons_self
      rcases List.mem_append.mp hx with hx | hx
      · exact (hn x hx b hb).mono hin.subset
      · exact (h.provided hx hb).mono hin.subset

theorem InOrder.cons {l : List (ℕ × Event)} {x : ℕ × Event} (h : InOrder l)
    (hx : worked x.2 = none) : InOrder (x :: l) := by
  show InOrder ([x] ++ l)
  refine h.append ?_
  intro y hy b hb
  cases List.mem_singleton.mp hy
  rw [hx] at hb
  cases hb

theorem InOrder.turn (hs : InOrder s.trace) (h : Turn cfg s t) : InOrder t.trace := by
  cases h with
  | step h =>
    obtain ⟨new, heq, hnew⟩ := h.grown
    rw [heq]
    exact hs.append fun x hx b hb => (hnew x hx).2.provided hs hb
  | epoch _ ht =>
    obtain ⟨marks, rest, heq, hm, -⟩ := renewed_eq s
    have htr : t.trace = (marks ++ [(s.epoch + 1, .reset 1 1)]) ++ s.trace := by
      rw [ht, heq, List.append_assoc]
      rfl
    rw [htr]
    refine hs.append fun x hx b hb => ?_
    rcases List.mem_append.mp hx with hx | hx
    · obtain ⟨m, rfl, -, -⟩ := hm x hx
      cases hb
    · cases List.mem_singleton.mp hx
      cases hb

/-- A turn of the core keeps the order. -/
theorem InOrder.react {fuel : ℕ} {i : Input} (hs : InOrder s.trace) (hst : s.StoreOk)
    (hne : (Core.react cfg fuel i s).1 ≠ .exhausted) :
    InOrder (Core.react cfg fuel i s).2.trace := by
  have harr : InOrder (arrival s i).trace := by
    cases i with
    | boot => exact hs
    | timer => exact hs
    | _ =>
      exact hs.cons rfl
  exact turns_invariant (P := fun s => InOrder s.trace) (C := fun _ => True) (fun _ _ _ h => h)
    (fun _ _ _ hs _ ht => hs.turn ht) (hst.arrival i) (fun _ => harr) (react_turns hst hne) trivial

theorem received_of_turns {u v : Core} {e : ℕ} {m : ConsensusMessage}
    (h : Relation.ReflTransGen (Turn cfg) u v) (hm : (e, .receive m) ∈ v.trace) :
    (e, .receive m) ∈ u.trace := by
  induction h with
  | refl => exact hm
  | tail _ ht ih =>
    refine ih ?_
    cases ht with
    | step ht => exact ht.receive_mem hm
    | epoch _ ht =>
      subst ht
      exact receive_mem_renewed hm

/-- The only message that a turn takes is its input. -/
theorem received_react {fuel : ℕ} {i : Input} {e : ℕ} {m : ConsensusMessage} (hst : s.StoreOk)
    (hne : (Core.react cfg fuel i s).1 ≠ .exhausted)
    (hm : (e, .receive m) ∈ (Core.react cfg fuel i s).2.trace) :
    (e, .receive m) ∈ s.trace ∨ i = .core m ∨ i = .smvba m := by
  have harr := received_of_turns (react_turns hst hne) hm
  cases i with
  | boot => exact .inl harr
  | timer => exact .inl harr
  | core m' =>
    rcases List.mem_cons.mp harr with h | h
    · cases h
      exact .inr (.inl rfl)
    · exact .inl h
  | smvba m' =>
    rcases List.mem_cons.mp harr with h | h
    · cases h
      exact .inr (.inr rfl)
    · exact .inl h

end Core

/-! ### The tasks of a node -/

namespace Node

variable {cfg : Config} {mempool : MempoolConfig} {codec : Codec} {n n' : Node} {b : Block}
  {past : List (ℕ × Event)} {x : ℕ × Event}

/-- The payload of the block is in the store. -/
def Has (n : Node) (b : Block) : Prop := ∀ d ∈ b.payload, n.mempool.store.contains d = true

instance (n : Node) (b : Block) : Decidable (n.Has b) :=
  decidable_of_iff (b.payload.all (n.mempool.store.contains ·) = true) List.all_eq_true

/-- No payload in the store can be read as a block. -/
def Clean (codec : Codec) (n : Node) : Prop :=
  ∀ d p, n.mempool.store.get d = some (.payload p) → codec.readBlock p = none

/-- The entries that are not due any more, `past`, have been carried out. -/
structure Stocked (n : Node) (past : List (ℕ × Event)) : Prop where
  trace : n.core.trace = n.due.reverse ++ past
  inOrder : Core.InOrder n.core.trace
  sound : n.mempool.Sound
  blocks : ∀ d b, n.mempool.store.get d = some (.block b) → b.digest = d ∧ n.core.Ever (.store b)
  supplied : ∀ x ∈ past, ∀ b, Core.Supplies b x.2 → n.Has b
  received : ∀ e m, (e, .receive m) ∈ n.core.trace → ∀ b, Core.loopback m = some b → n.Has b
  coming : ∀ m, .core m ∈ n.coming ∨ .smvba m ∈ n.coming → ∀ b, Core.loopback m = some b → n.Has b
  inner : ∀ b ∈ n.blockInner, n.Has b
  waiting : ∀ b ∈ n.blockWaiting, n.Has b

theorem Has.mono (h : n.Has b)
    (hk : ∀ d, n.mempool.store.contains d = true → n'.mempool.store.contains d = true) : n'.Has b :=
  fun d hd => hk d (h d hd)

/-- What has been supplied for is there. -/
theorem Stocked.has (h : n.Stocked past) (hb : Core.Provided past b) : n.Has b := by
  rcases hb with rfl | ⟨x, hx, hb⟩
  · intro d hd
    cases hd
  · exact h.supplied x hx b hb

/-- Where a block is worked on, its payload is there. -/
theorem Stocked.worked {rest : List (ℕ × Event)} (h : n.Stocked past) (hd : n.due = x :: rest)
    (hb : Core.worked x.2 = some b) : n.Has b := by
  refine h.has (h.inOrder x past ?_ b hb)
  rw [h.trace, hd, List.reverse_cons, List.append_assoc]
  exact List.suffix_append _ _

theorem stocked_new : (new).Stocked Core.new.trace := by
  have hnew : ∀ x ∈ Core.new.trace, x = (0, .reset 1 1) := fun x hx => List.mem_singleton.mp hx
  refine ⟨rfl, ?_, ⟨nofun, nofun, nofun⟩, fun _ _ h => (nomatch h), ?_, ?_, nofun, nofun, nofun⟩
  · intro x past hsuf b hb
    rw [hnew x (hsuf.subset List.mem_cons_self)] at hb
    cases hb
  · intro x hx b hb
    rw [hnew x hx] at hb
    cases hb
  · intro e m hm
    cases hnew _ hm

/-- The core, the channels and the record stay as they are. -/
theorem Stocked.advance {m : Mempool} (h : n.Stocked past) (hm : n.mempool.Advances m) :
    ({ n with mempool := m } : Node).Stocked past where
  trace := h.trace
  inOrder := h.inOrder
  sound := hm.sound h.sound
  blocks d b hb := h.blocks d b (hm.blocks d b hb)
  supplied x hx b hb := (h.supplied x hx b hb).mono hm.keys
  received e m hr b hb := (h.received e m hr b hb).mono hm.keys
  coming m hc b hb := (h.coming m hc b hb).mono hm.keys
  inner b hb := (h.inner b hb).mono hm.keys
  waiting b hb := (h.waiting b hb).mono hm.keys

theorem Stocked.storeOk (h : n.Stocked past) (hc : n.Clean codec) : (n.found codec).StoreOk := by
  intro d b hb
  obtain ⟨y, hy, hread⟩ := Option.bind_eq_some_iff.mp hb
  cases y with
  | block c =>
    cases hread
    exact h.blocks d b hy
  | payload p =>
    rw [Codec.block, hc d p hy] at hread
    cases hread

/-! ### The steps -/

theorem Offers.has {i : Input} {m : ConsensusMessage} (h : n.Stocked past) (hi : n.Offers i)
    (hm : i = .core m ∨ i = .smvba m) (hb : Core.loopback m = some b) : n.Has b := by
  rcases hi with hi | hi
  · refine h.coming m ?_ b hb
    rcases hm with rfl | rfl
    · exact .inl hi
    · exact .inr hi
  · have hnone : Core.loopback m = none := by rcases hm with rfl | rfl <;> exact hi
    rw [hnone] at hb
    cases hb

theorem Stocked.turn {fuel : ℕ} {i : Input} {o : Outcome ConsensusError Panic Unit} {t : Core}
    {new : List (ℕ × Event)} (h : n.Stocked past) (hc : n.Clean codec) (hd : n.due = [])
    (hi : n.Offers i) (hr : Core.react cfg fuel i (n.found codec) = (o, t)) (ho : o ≠ .exhausted)
    (ht : t.trace = new ++ n.core.trace) (alive : Bool) :
    ({ n with
        core := t
        alive := alive
        coming := n.coming.erase i
        due := new.reverse } : Node).Stocked past := by
  have hst : (n.found codec).StoreOk := h.storeOk hc
  have hne : (Core.react cfg fuel i (n.found codec)).1 ≠ .exhausted := by rwa [hr]
  have hpast : n.core.trace = past := by
    have htrace := h.trace
    rwa [hd] at htrace
  refine ⟨?_, ?_, h.sound, ?_, h.supplied, ?_, ?_, h.inner, h.waiting⟩
  · rw [List.reverse_reverse, ht, hpast]
  · have horder := h.inOrder.react (s := n.found codec) hst hne
    rwa [hr] at horder
  · intro d b hb
    obtain ⟨hdig, e, he⟩ := h.blocks d b hb
    exact ⟨hdig, e, ht ▸ List.mem_append_right new he⟩
  · intro e m hm b hb
    have hrec : (e, .receive m) ∈ (Core.react cfg fuel i (n.found codec)).2.trace := by rwa [hr]
    rcases Core.received_react hst hne hrec with hold | hin
    · exact h.received e m hold b hb
    · have hhas : n.Has b := Offers.has h hi hin hb
      exact hhas
  · intro m hm b hb
    exact h.coming m (hm.imp List.mem_of_mem_erase List.mem_of_mem_erase) b hb

theorem answerGet_spec {m t : Mempool} {full : Bool} {made : Option Payload}
    {order digests : List Digest}
    {tag : ℕ} (hs : m.Sound) (hp : order.Perm (if tag = OPT then m.optQueue else m.pesQueue))
    (h : answerGet cfg mempool full made order tag m = (digests, t)) :
    m.Advances t ∧ ∀ d ∈ digests, t.store.contains d = true := by
  have hmoves : Moves Mempool.Advances m
      (Mempool.getPayload mempool full made order cfg.parameters.maxPayloadSize tag) :=
    Mempool.moves_getPayload
  have hm := Mempool.advances_of_moves hmoves
  unfold answerGet at h
  cases hget : Mempool.getPayload mempool full made order cfg.parameters.maxPayloadSize tag m with
  | mk o u =>
    rw [hget] at h hm
    cases o with
    | ok ds =>
      cases h
      exact ⟨hm, Mempool.getPayload_contains hs hp hget⟩
    | _ =>
      cases h
      exact ⟨hm, fun d hd => nomatch hd⟩

/-- What an entry stands for has been done once it is served. -/
theorem Stocked.serve {rest : List (ℕ × Event)} {e : ℕ} {y : Event} (h : n.Stocked past)
    (hd : n.due = (e, y) :: rest) (hs : Serves cfg mempool y n n') :
    ({ n' with due := rest } : Node).Stocked ((e, y) :: past) := by
  have hmem : (e, y) ∈ n.core.trace := by
    rw [h.trace, hd]
    simp
  have hpast {m : Mempool} {s : List Block} :
    ({ n with mempool := m, blockInner := s, due := rest } : Node).core.trace =
      rest.reverse ++ (e, y) :: past := by
    rw [h.trace, hd, List.reverse_cons, List.append_assoc]
    rfl
  -- the mempool moves on and what is supplied is there
  have hadv : ∀ m, n.mempool.Advances m →
      (∀ b, Core.Supplies b y → ({ n with mempool := m } : Node).Has b) →
      ({ n with mempool := m, due := rest } : Node).Stocked ((e, y) :: past) := by
    intro m hm hb
    have hn := h.advance hm
    refine ⟨hpast, hn.inOrder, hn.sound, hn.blocks, ?_, hn.received, hn.coming,
      hn.inner, hn.waiting⟩
    exact List.forall_mem_cons.mpr ⟨hb, hn.supplied⟩
  cases hs with
  | @draw _ b full made order m hp hget =>
    obtain ⟨hm, hkeys⟩ := answerGet_spec h.sound hp hget
    refine hadv m hm ?_
    rintro c rfl
    exact hkeys
  | accept hv =>
    refine hadv n.mempool Mempool.advances_refl ?_
    rintro c rfl
    exact Mempool.verifyPayload_accept hv
  | @suspend _ b tag m hv =>
    refine hadv m ?_ fun c hc => hc.elim
    have hm : n.mempool.Advances (Mempool.verifyPayload b tag n.mempool).2 :=
      Mempool.verifyPayload_advances
    rwa [hv] at hm
  | @write _ b =>
    have hkeys : ∀ d, n.mempool.store.contains d = true →
        (Mempool.write b.digest (.block b) n.mempool).2.store.contains d = true :=
      fun d hk => Mempool.contains_insert hk
    refine ⟨hpast, h.inOrder, h.sound.write _ _, ?_, ?_, ?_, ?_, ?_, ?_⟩
    · intro d c hc
      rw [Mempool.write_store, Map.get_insert] at hc
      split at hc
      · cases hc
        exact ⟨by symm; assumption, e, hmem⟩
      · exact h.blocks d c hc
    · refine List.forall_mem_cons.mpr ⟨fun c hc => hc.elim, ?_⟩
      exact fun x hx c hc => (h.supplied x hx c hc).mono hkeys
    · exact fun e m hm c hc => (h.received e m hm c hc).mono hkeys
    · exact fun m hm c hc => (h.coming m hm c hc).mono hkeys
    · exact fun c hc => (h.inner c hc).mono hkeys
    · exact fun c hc => (h.waiting c hc).mono hkeys
  | @sync _ b =>
    have hn := hadv n.mempool Mempool.advances_refl fun c hc => hc.elim
    refine ⟨hpast, hn.inOrder, hn.sound, hn.blocks, hn.supplied, hn.received, hn.coming,
      ?_, hn.waiting⟩
    intro c hc
    rcases List.mem_append.mp hc with hc | hc
    · exact hn.inner c hc
    · cases List.mem_singleton.mp hc
      exact h.worked hd rfl
  | cleanup => exact hadv _ Mempool.cleanup_advances fun c hc => hc.elim
  | other hx =>
    refine hadv n.mempool Mempool.advances_refl fun c hc => ?_
    cases y with
    | sign x =>
      cases x with
      | block b => exact absurd rfl (hx b 0).1
      | _ => exact hc.elim
    | accept b => exact absurd rfl (hx b 0).2.1
    | receive m => exact h.received e m hmem c hc
    | _ => exact hc.elim

/-- A block may be sent back to the core when its payload is there. -/
theorem Stocked.return {i : Input} (h : n.Stocked past)
    (hi : ∀ m, i = .core m ∨ i = .smvba m → ∀ b, Core.loopback m = some b → n.Has b) :
    ({ n with coming := n.coming ++ [i] } : Node).Stocked past := by
  refine ⟨h.trace, h.inOrder, h.sound, h.blocks, h.supplied, h.received, ?_, h.inner, h.waiting⟩
  intro m hm b hb
  have hmem : (.core m ∈ n.coming ∨ .smvba m ∈ n.coming) ∨ i = .core m ∨ i = .smvba m := by
    rcases hm with hm | hm <;> rcases List.mem_append.mp hm with hm | hm
    · exact .inl (.inl hm)
    · exact .inr (.inl (List.mem_singleton.mp hm).symm)
    · exact .inl (.inr hm)
    · exact .inr (.inr (List.mem_singleton.mp hm).symm)
  rcases hmem with hmem | hmem
  · exact h.coming m hmem b hb
  · exact hi m hmem b hb

theorem returned_loopback {m : ConsensusMessage} {tag : ℕ}
    (h : returns (Mempool.loopbackOf b tag) = .core m ∨
      returns (Mempool.loopbackOf b tag) = .smvba m) :
    Core.loopback m = some b := by
  unfold Mempool.loopbackOf at h
  split at h
  · rcases h with h | h <;> cases h
    rfl
  · split at h <;> rcases h with h | h <;> cases h <;> rfl

/-- What the mempool task, the synchronizers and the network do on their own. -/
theorem Stocked.step (h : n.Stocked past) (hc : n.Clean codec) (hs : Step cfg mempool codec n n') :
    ∃ past', n'.Stocked past' := by
  cases hs with
  | turn ha hd hi hr ho ht => exact ⟨past, h.turn hc hd hi hr ho ht _⟩
  | serve hd hs => exact ⟨_, h.serve hd hs⟩
  | message full m => exact ⟨past, h.advance (Mempool.handle_advances full m)⟩
  | takeInner hi ht =>
    have hm := @Mempool.takeInner_advances _ mempool _ _ _ hi h.sound
    rw [ht] at hm
    exact ⟨past, h.advance hm⟩
  | finishWaiter hw hk ht =>
    obtain ⟨rfl, hm⟩ := Mempool.finishWaiter_eq ht
    have hn := h.advance hm
    refine ⟨past, hn.return (i := returns _) ?_⟩
    intro m hi c hc
    rw [returned_loopback hi] at hc
    cases hc
    intro d hd
    exact hm.keys d ((h.sound.waiting _ hw d hd).elim (hk d) id)
  | dropWaiter hw _ =>
    exact ⟨past, h.advance (Mempool.advances_waiting List.erase_subset)⟩
  | @takeBlock b rest hb =>
    have hinner : ∀ c ∈ rest, n.Has c := fun c hc => h.inner c (hb ▸ List.mem_cons_of_mem _ hc)
    refine ⟨past, ?_⟩
    split
    · exact ⟨h.trace, h.inOrder, h.sound, h.blocks, h.supplied, h.received, h.coming, hinner,
        h.waiting⟩
    · refine ⟨h.trace, h.inOrder, h.sound, h.blocks, h.supplied, h.received, h.coming, hinner, ?_⟩
      intro c hc
      rcases List.mem_append.mp hc with hc | hc
      · exact h.waiting c hc
      · cases List.mem_singleton.mp hc
        exact h.inner b (hb ▸ List.mem_cons_self)
  | @finishBlock b hb hp =>
    have hn := h.return (i := .core (.HsLoopBack b)) ?_
    · exact ⟨past, hn.trace, hn.inOrder, hn.sound, hn.blocks, hn.supplied, hn.received, hn.coming,
        hn.inner, fun c hc => hn.waiting c (List.mem_of_mem_erase hc)⟩
    · intro m hi c hc
      rcases hi with hi | hi
      · cases hi
        cases hc
        exact h.waiting b hb
      · cases hi

/-- What is on its way to a node and what waits there, in every run. -/
theorem exists_stocked
    (h : Relation.ReflTransGen (fun a b => Step cfg mempool codec a b ∧ b.Clean codec) new n) :
    n.Clean codec ∧ ∃ past, n.Stocked past := by
  induction h with
  | refl => exact ⟨fun d p hp => (nomatch hp), _, stocked_new⟩
  | tail _ hs ih =>
    obtain ⟨hclean, past, hstock⟩ := ih
    exact ⟨hs.2, hstock.step hclean hs.1⟩

/-- A node that has not stored a payload which reads as a block stores and commits a block only
when its payload is in the store. -/
theorem payload_available {e : ℕ} {y : Event} {rest : List (ℕ × Event)}
    (h : Relation.ReflTransGen (fun a b => Step cfg mempool codec a b ∧ b.Clean codec) new n)
    (hd : n.due = (e, y) :: rest) (hy : y = .store b ∨ ∃ rule, y = .commit b rule) : n.Has b := by
  obtain ⟨-, past, hstock⟩ := exists_stocked h
  refine hstock.worked hd ?_
  rcases hy with rfl | ⟨rule, rfl⟩ <;> rfl

/-! ### Runs that are evaluated -/

section Evaluation

variable (cfg mempool codec)

/-- An entry is served; a queue is listed as it stands, and no payload is made. -/
def carry : Event → Node → Option Node
  | .sign (.block b), n =>
    let queue := if b.tag = OPT then n.mempool.optQueue else n.mempool.pesQueue
    let answer := answerGet cfg mempool false none queue b.tag n.mempool
    if answer.1 = b.payload then some { n with mempool := answer.2 } else none
  | .accept b, n => if (Mempool.verifyPayload b OPT n.mempool).1 = .ok true then some n else none
  | .suspend b tag, n =>
    let answer := Mempool.verifyPayload b tag n.mempool
    if answer.1 = .ok false then some { n with mempool := answer.2 } else none
  | .store b, n => some { n with mempool := (Mempool.write b.digest (.block b) n.mempool).2 }
  | .sync b, n => some { n with blockInner := n.blockInner ++ [b] }
  | .cleanup b, n => some { n with mempool := (Mempool.cleanup b.payload b.height n.mempool).2 }
  | _, n => some n

/-- Entries are served as long as there are any, `count` at most. -/
def carryOut : ℕ → Node → Option Node
  | 0, n => some n
  | count + 1, n =>
    match n.due with
    | [] => some n
    | (_, x) :: rest =>
      (carry cfg mempool x n).bind fun n' => carryOut count { n' with due := rest }

/-- The core takes an input. -/
def feed (i : Input) (n : Node) : Option Node :=
  let r := Core.react cfg 40 i (n.found codec)
  let new := r.2.trace.take (r.2.trace.length - n.core.trace.length)
  if n.alive = true ∧ n.due = [] ∧ n.Offers i ∧ r.1 = .ok () ∧ r.2.trace = new ++ n.core.trace then
    some { n with
      core := r.2
      alive := decide (r.1 = .ok ())
      coming := n.coming.erase i
      due := new.reverse }
  else none

inductive Move
  | feed (i : Input)
  | carry (count : ℕ)
  | message (m : MempoolMessage)

def move : Move → Node → Option Node
  | .feed i, n => feed cfg codec i n
  | .carry count, n => carryOut cfg mempool count n
  | .message m, n => some { n with mempool := (Mempool.handle mempool codec false m n.mempool).2 }

def run : List Move → Node → Option Node
  | [], n => some n
  | m :: moves, n => (move cfg mempool codec m n).bind (run moves)

variable {cfg mempool codec}

theorem serves_carry {y : Event} (h : carry cfg mempool y n = some n') :
    Serves cfg mempool y n n' := by
  unfold carry at h
  split at h
  · obtain ⟨hb, heq⟩ := Option.ite_none_right_eq_some.mp h
    cases heq
    exact .draw (List.Perm.refl _) (Prod.ext hb rfl)
  · obtain ⟨hv, heq⟩ := Option.ite_none_right_eq_some.mp h
    cases heq
    exact .accept hv
  · obtain ⟨hv, heq⟩ := Option.ite_none_right_eq_some.mp h
    cases heq
    exact .suspend (Prod.ext hv rfl)
  · cases h
    exact .write
  · cases h
    exact .sync
  · cases h
    exact .cleanup
  · cases h
    refine .other fun b tag => ⟨?_, ?_, ?_, ?_, ?_, ?_⟩ <;> (intro heq; simp_all)

theorem steps_carryOut {count : ℕ} (h : carryOut cfg mempool count n = some n') :
    Relation.ReflTransGen (Step cfg mempool codec) n n' := by
  induction count generalizing n with
  | zero =>
    cases h
    exact .refl
  | succ count ih =>
    unfold carryOut at h
    split at h
    · cases h
      exact .refl
    · rename_i e x rest hd
      obtain ⟨m, hm, h⟩ := Option.bind_eq_some_iff.mp h
      exact .head (.serve hd (serves_carry hm)) (ih h)

theorem step_feed {i : Input} (h : feed cfg codec i n = some n') : Step cfg mempool codec n n' := by
  unfold feed at h
  dsimp only at h
  split at h
  · rename_i hc
    obtain ⟨ha, hd, hi, hr, ht⟩ := hc
    cases h
    exact .turn ha hd hi rfl (by rw [hr]; exact nofun) ht
  · cases h

theorem steps_run {moves : List Move} (h : run cfg mempool codec moves n = some n') :
    Relation.ReflTransGen (Step cfg mempool codec) n n' := by
  induction moves generalizing n with
  | nil =>
    cases h
    exact .refl
  | cons m moves ih =>
    obtain ⟨u, hu, h⟩ := Option.bind_eq_some_iff.mp h
    refine .trans ?_ (ih h)
    cases m with
    | feed i => exact .single (step_feed hu)
    | carry count => exact steps_carryOut hu
    | message m =>
      cases hu
      exact .single (.message false m)

/-- A fact about the end of a run that is decided by evaluation. -/
theorem exists_run (moves : List Move) (p : Node → Prop) [DecidablePred p]
    (h : (run cfg mempool codec moves new).any (p ·) = true) :
    ∃ n, Relation.ReflTransGen (Step cfg mempool codec) new n ∧ p n := by
  cases hr : run cfg mempool codec moves new with
  | none =>
    rw [hr] at h
    cases h
  | some n =>
    rw [hr] at h
    exact ⟨n, steps_run hr, of_decide_eq_true h⟩

end Evaluation

end Node

end Availability

/-! ### A payload that is taken for a block -/

def memberMempool : MempoolConfig := ⟨0, [0, 1, 2, 3], 10, 500⟩

def samplePayload : Payload := .new [[1, 2, 3]] 1

def paidProposal : Block := Block.new .genesis 1 1 0 0 [samplePayload.digest] OPT

theorem payload_available_paidProposal : ∃ n : Node, samplePayload.digest ∈ paidProposal.payload ∧
    n.due.head? = some (0, .store paidProposal) ∧ n.Has paidProposal := by
  have hend : ∃ n, Relation.ReflTransGen (Node.Step (sampleConfig 0) memberMempool
      ⟨fun _ => none, fun _ => none⟩) .new n ∧ n.due.head? = some (0, .store paidProposal) :=
    Node.exists_run [.feed .boot, .message (.Payload samplePayload),
      .feed (.core (.HsPropose paidProposal)), .carry 4] _ (by decide +kernel)
  obtain ⟨n, hrun, hhead⟩ := hend
  obtain ⟨rest, hd⟩ := List.head?_eq_some_iff.mp hhead
  have hclean : Relation.ReflTransGen (fun a b => Node.Step (sampleConfig 0) memberMempool
      ⟨fun _ => none, fun _ => none⟩ a b ∧ b.Clean ⟨fun _ => none, fun _ => none⟩) .new n :=
    Relation.ReflTransGen.mono (fun _ _ h => ⟨h, fun _ _ _ => rfl⟩) _ _ hrun
  exact ⟨n, List.mem_singleton_self _, hhead, Node.payload_available hclean hd (.inl rfl)⟩

/-- The base64 text of the key `0` with its length in front. -/
def zeroKeyBytes : List UInt8 := leBytes 8 44 ++ List.replicate 43 65 ++ [61]

/-- The bytes of a list of one transaction of 334 bytes begin like these. -/
def disguisedParent : Digest :=
  Fin.ofNat _ ((leBytes 8 1 ++ leBytes 8 334 ++ List.replicate 16 0).foldl
    (fun n (b : UInt8) => n * 256 + b.toNat) 0)

/-- A block whose payload nobody has. -/
def disguisedBlock : Block :=
  ⟨⟨disguisedParent, 1, 0, 0, OPT, 0, 0, []⟩, 0, 1, 0, [7], default, OPT, 0⟩

/-- What `bincode` makes of the block; all its keys and its signature are zero. -/
def disguisedBytes : List UInt8 :=
  disguisedParent.bytes ++ leBytes 8 1 ++ leBytes 8 0 ++ leBytes 8 0 ++ leBytes 1
    OPT ++ zeroKeyBytes ++
    zeroKeyBytes ++ leBytes 8 0 ++ zeroKeyBytes ++ leBytes 8 1 ++ leBytes 8 0 ++
    (leBytes 8 1 ++ Digest.bytes 7) ++ List.replicate 64 0 ++ leBytes 1 OPT ++ leBytes 8 0

def disguise : Payload := .new [disguisedBytes.drop 16] 1

-- a list of transactions is its length and each transaction after its own
example : disguise.transactions.map (fun t => leBytes 8 1 ++ leBytes 8 t.length ++ t) =
    [disguisedBytes] := by decide +kernel

/-- Bytes that follow those of the block are ignored. -/
def disguiseCodec : Codec :=
  ⟨fun p => if p = disguise then some disguisedBlock else none, fun _ => none⟩

def disguiseQc : QC :=
  let qc : QC := ⟨disguise.digest, 1, 0, 0, OPT, 1, 1, []⟩
  { qc with votes := [1, 2, 3].map fun k => (k, Crypto.sign k qc.digest) }

def disguisePrepare (author : PublicKey) : PrePare := .new author 0 1 disguiseQc OPT

theorem not_payload_available_disguise : ¬ ∀ (n : Node) (b : Block) (e : ℕ) (y : Event)
    (rest : List (ℕ × Event)),
    Relation.ReflTransGen (Node.Step (sampleConfig 0) memberMempool disguiseCodec) .new n →
    n.due = (e, y) :: rest → (y = .store b ∨ ∃ rule, y = .commit b rule) → n.Has b := by
  intro h
  have hend : ∃ n, Relation.ReflTransGen (Node.Step (sampleConfig 0) memberMempool
    disguiseCodec) .new n ∧
      n.due.head? = some (0, .commit disguisedBlock (.fastPath (disguisePrepare 3))) ∧
      ¬ n.Has disguisedBlock :=
    Node.exists_run [.feed .boot, .message (.Payload disguise),
      .feed (.smvba (.ParPrePare (disguisePrepare 1))), .carry 9,
      .feed (.smvba (.ParPrePare (disguisePrepare 2))), .carry 9,
      .feed (.smvba (.ParPrePare (disguisePrepare 3))), .carry 3] _ (by decide +kernel)
  obtain ⟨n, hrun, hhead, hn⟩ := hend
  obtain ⟨rest, hd⟩ := List.head?_eq_some_iff.mp hhead
  exact hn (h n disguisedBlock _ _ rest hrun hd (.inr ⟨_, rfl⟩))

end Ipotane
