import Ipotane.Availability
import Ipotane.Ledger

/-! The mempools of a committee that runs the two-chain HotStuff, and the payloads of the blocks
that it commits. -/
namespace Ipotane

open Lib Handler

section Draws

variable [Crypto]

/-! ### The mempools -/

/-- What comes to the mempool of node `k`: the payloads of its own clients, and what the mempools of
other nodes have sent. -/
def Comes (m : PublicKey → Mempool) (k : PublicKey) : MempoolMessage → Prop
  | .OwnPayload p => p.author = k
  | x => ∃ j dest, j ≠ k ∧ (dest = none ∨ dest = some k) ∧ (x, dest) ∈ (m j).sent

/-- The mempool beside a core with the given record: it serves the entries one after the other, each
of them where `guard` holds, and takes what comes in between. -/
inductive Tends (cfg : Config) (mempool : MempoolConfig) (codec : Codec)
    (comes : MempoolMessage → Prop)
    (guard : Mempool → Event → Prop) : List (ℕ × Event) → Mempool → Prop
  | new : Tends cfg mempool codec comes guard Core.new.trace .new
  | serve {l : List (ℕ × Event)} {n n' : Node} {e : ℕ} {x : Event}
      (h : Tends cfg mempool codec comes guard l n.mempool) (hs : Node.Serves cfg mempool x n n')
      (hg : guard n.mempool x) : Tends cfg mempool codec comes guard ((e, x) :: l) n'.mempool
  | message {l : List (ℕ × Event)} {m : Mempool} {x : MempoolMessage} (full : Bool)
      (h : Tends cfg mempool codec comes guard l m) (hx : comes x) :
      Tends cfg mempool codec comes guard l (Mempool.handle mempool codec full x m).2
  | takeInner {l : List (ℕ × Event)} {m t : Mempool} {x : SynchronizerMessage}
      {rest : List SynchronizerMessage} (h : Tends cfg mempool codec comes guard l m)
      (hi : m.inner = x :: rest)
      (ht : Mempool.takeInner mempool x { m with inner := rest } = (.ok (), t)) :
      Tends cfg mempool codec comes guard l t
  | finishWaiter {l : List (ℕ × Event)} {m t : Mempool} {v : Waiter} {x : ConsensusMessage}
      (h : Tends cfg mempool codec comes guard l m) (hv : v ∈ m.waiting)
      (hk : ∀ d ∈ v.missing, m.store.contains d = true)
      (ht : Mempool.finishWaiter v m = (.ok x, t)) :
      Tends cfg mempool codec comes guard l t
  | dropWaiter {l : List (ℕ × Event)} {m : Mempool} {v : Waiter}
      (h : Tends cfg mempool codec comes guard l m) (hv : v ∈ m.waiting) (hc : v.cancelled = true) :
      Tends cfg mempool codec comes guard l { m with waiting := m.waiting.erase v }

/-- A run of the cores with a mempool beside each of them. -/
structure Team (S : Setup) (mempools : PublicKey → MempoolConfig) (codec : Codec)
    (guard : Mempool → Event → Prop) (w : World) (m : PublicKey → Mempool) : Prop where
  runs : S.Runs w
  tends : ∀ k, Tends (S.config k) (mempools k) codec (Comes m k) guard (w.core k).trace (m k)

/-- Block `a` is the parent of `b`, or further below it. -/
def Below (σ : Cores) : Block → Block → Prop :=
  Relation.TransGen fun a b => a.digest = b.parent ∧ (σ a.author).Ever (.sign (.block a))

/-- A block draws its payload from a queue that holds no digest of the chain below, or, if the queue
is empty, it is given a payload that is not in that chain. -/
def Spares (σ : Cores) (m : Mempool) (x : Event) : Prop :=
  ∀ b, x = .sign (.block b) → ∀ a, Below σ a b →
    a.payload.Disjoint (if m.optQueue = [] then b.payload else m.optQueue)

variable {cfg : Config} {mempool : MempoolConfig} {codec : Codec} {comes : MempoolMessage → Prop}
  {guard : Mempool → Event → Prop} {l : List (ℕ × Event)} {m t : Mempool} {b : Block}

/-- What is answered has been in the queue, unless that is empty. -/
theorem answerGet_queue {full : Bool} {made : Option Payload} {order digests : List Digest}
    (hp : order.Perm m.optQueue) (hq : m.optQueue ≠ [])
    (h : Node.answerGet cfg mempool full made order OPT m = (digests, t)) :
    digests ⊆ m.optQueue := by
  have hne : ¬ ((OPT = OPT ∧ m.optQueue = []) ∨ (OPT = PES ∧ m.pesQueue = [])) := by
    rintro (⟨-, h⟩ | ⟨h, -⟩)
    · exact hq h
    · exact absurd h (by decide)
  have hget : (Mempool.getPayload mempool full made order cfg.parameters.maxPayloadSize OPT m).1 =
      .ok (order.take (cfg.parameters.maxPayloadSize / Mempool.digestSize)) := by
    unfold Mempool.getPayload
    rw [bind_run (x := self) rfl, if_neg hne]
    rfl
  unfold Node.answerGet at h
  split at h
  · rename_i ds u hds
    cases h
    rw [hds] at hget
    cases hget
    exact fun d hd => hp.subset (List.mem_of_mem_take hd)
  · cases h
    exact List.nil_subset _

/-- The mempool has served each entry of the record. -/
theorem Tends.served (h : Tends cfg mempool codec comes guard l m) {e : ℕ} {x : Event}
    (hx : (e, x) ∈ l) (hnew : (e, x) ∉ Core.new.trace) :
    ∃ n n' : Node, guard n.mempool x ∧ Node.Serves cfg mempool x n n' := by
  induction h with
  | new => exact absurd hx hnew
  | serve h hs hg ih =>
    rcases List.mem_cons.mp hx with heq | hx
    · cases heq
      exact ⟨_, _, hg, hs⟩
    · exact ih hx
  | message _ _ _ ih => exact ih hx
  | takeInner _ _ _ ih => exact ih hx
  | finishWaiter _ _ _ _ ih => exact ih hx
  | dropWaiter _ _ _ ih => exact ih hx

/-- Where nothing of the chain is in the queues, a block has nothing that the chain has. -/
theorem Tends.fresh {σ : Cores} (h : Tends cfg mempool codec comes (Spares σ) l m) {e : ℕ}
    (hb : (e, .sign (.block b)) ∈ l) (ht : b.tag = OPT) {a : Block} (ha : Below σ a b) :
    a.payload.Disjoint b.payload := by
  obtain ⟨n, n', hg, hs⟩ := h.served hb fun hnew => nomatch List.mem_singleton.mp hnew
  have hdisjoint := hg b rfl a ha
  cases hs with
  | draw hp hget =>
    rw [ht, if_pos rfl] at hp
    rw [ht] at hget
    split at hdisjoint
    · exact hdisjoint
    · rename_i hq
      exact fun d hd hd' => hdisjoint hd (answerGet_queue hp hq hget hd')
  | other hx => exact absurd rfl (hx b 0).1

/-! ### The chain -/

section Runs

variable {S : Setup} {w : World} {mempools : PublicKey → MempoolConfig}
  {ms : PublicKey → Mempool} {f : ℕ}

theorem Setup.Runs.ledger_founded (hS : S.Hotstuff) (h : S.Runs w) {i : PublicKey} {b : Block}
    (hb : b ∈ (w.core i).ledger) : b.Founded w.core := by
  obtain ⟨e, rule, hx⟩ := Core.mem_ledger.mp hb
  exact (h.trusty hS i).shelved.record _ hx b (List.mem_singleton.mpr rfl)

/-- What a node commits, it commits in the order of the chain. -/
theorem Setup.Runs.ledger_below (hS : S.Hotstuff) (hn : S.committee.total = 3 * f + 1)
    (h : S.Runs w) (hd : HashesApart w.core) (i : PublicKey) :
    (w.core i).ledger.Pairwise fun a b => Below w.core a b ∧ a.height < b.height := by
  have hchain := (h.one_chain hS hn hd).2 i
  have hbelow : (w.core i).ledger.IsChain (Below w.core) := by
    refine List.isChain_iff_getElem.mpr ?_
    intro n hlt
    refine .single ⟨?_, 0, (h.ledger_founded hS (List.getElem_mem _)).signed⟩
    exact (List.isChain_iff_getElem.mp hchain.2 n hlt).symm
  have htrans : Trans (Below w.core) (Below w.core) (Below w.core) := ⟨Relation.TransGen.trans⟩
  refine List.Pairwise.and (List.isChain_iff_pairwise.mp hbelow) (List.pairwise_map.mp ?_)
  rw [hchain.1]
  exact List.pairwise_lt_range'

/-- The block of a ledger is above what is committed at lower heights. -/
theorem Setup.Runs.below_of_height (hS : S.Hotstuff) (hn : S.committee.total = 3 * f + 1)
    (h : S.Runs w)
    (hd : HashesApart w.core) {i j : PublicKey} {b b' : Block} (hb : b ∈ (w.core i).ledger)
    (hb' : b' ∈ (w.core j).ledger) (hlt : b.height < b'.height) :
    ∃ c, c.payload = b.payload ∧ Below w.core c b' := by
  have hheights := fun i => ((h.one_chain hS hn hd).2 i).1
  have hmem : ∀ {i : PublicKey} {b : Block}, b ∈ (w.core i).ledger →
      1 ≤ b.height ∧ b.height < 1 + (w.core i).ledger.length := by
    intro i b hb
    have hmem : b.height ∈ (w.core i).ledger.map Block.height := List.mem_map.mpr ⟨b, hb, rfl⟩
    rw [hheights i] at hmem
    exact List.mem_range'_1.mp hmem
  -- the ledger of `j` has a block at the height of `b`
  have hheight : b.height ∈ (w.core j).ledger.map Block.height := by
    rw [hheights j]
    exact List.mem_range'_1.mpr ⟨(hmem hb).1, hlt.trans (hmem hb').2⟩
  obtain ⟨c, hc, hch⟩ := List.mem_map.mp hheight
  have hdigest := h.one_committed hS (by omega) hd hc hb hch
  have hsame := hd.sameCovered (h.ledger_founded hS hc) (h.ledger_founded hS hb) hdigest
  refine ⟨c, hsame.2.2.2.1, ?_⟩
  obtain ⟨n, hnl, rfl⟩ := List.getElem_of_mem hc
  obtain ⟨m, hml, rfl⟩ := List.getElem_of_mem hb'
  have hpairs := List.pairwise_iff_getElem.mp (h.ledger_below hS hn hd j)
  rcases Nat.lt_trichotomy n m with hnm | rfl | hmn
  · exact (hpairs n m hnl hml hnm).1
  · omega
  · have hgt := (hpairs m n hml hnl hmn).2
    omega

/-- No digest is in two blocks of the chain that the committee commits, if every payload is drawn
from a queue that holds nothing of the chain it is put on. -/
theorem Team.payloads_once (hS : S.Hotstuff) (hn : S.committee.total = 3 * f + 1)
    (h : Team S mempools codec (Spares w.core) w ms) (hd : HashesApart w.core) {i j : PublicKey}
    {b b' : Block} (hb : b ∈ (w.core i).ledger) (hb' : b' ∈ (w.core j).ledger)
    (hne : b.digest ≠ b'.digest) : b.payload.Disjoint b'.payload := by
  have hlower : ∀ {i j : PublicKey} {b b' : Block}, b ∈ (w.core i).ledger → b' ∈ (w.core j).ledger →
      b.height < b'.height → b.payload.Disjoint b'.payload := by
    intro i j b b' hb hb' hlt
    obtain ⟨c, hpayload, hbelow⟩ := h.runs.below_of_height hS hn hd hb hb' hlt
    have hf := h.runs.ledger_founded hS hb'
    rw [← hpayload]
    exact (h.tends b'.author).fresh hf.signed hf.tag hbelow
  rcases Nat.lt_trichotomy b.height b'.height with hlt | heq | hgt
  · exact hlower hb hb' hlt
  · exact absurd (h.runs.one_committed hS (by omega) hd hb hb' heq) hne
  · exact (hlower hb' hb hgt).symm

end Runs

/-! ### Mempools that are evaluated -/

section Evaluation

variable (cfg mempool codec)

/-- The mempool serves a record from `m` on, with `check` before each entry. -/
def tend (check : Mempool → Event → Bool) (m : Mempool) : List (ℕ × Event) → Option Mempool
  | [] => none
  | x :: l =>
    if x :: l = Core.new.trace then some m
    else (tend check m l).bind fun t =>
      if check t x.2 = true then
        (Node.carry cfg mempool x.2 { Node.new with mempool := t }).map Node.mempool
      else none

/-- What a mempool is told before its core starts. -/
def told (xs : List MempoolMessage) : Mempool :=
  xs.foldl (fun m x => (Mempool.handle mempool codec false x m).2) .new

variable {cfg mempool codec}

theorem tends_told {xs : List MempoolMessage} (hx : ∀ x ∈ xs, comes x) :
    Tends cfg mempool codec comes guard Core.new.trace (told mempool codec xs) := by
  have hfold : ∀ {m : Mempool}, Tends cfg mempool codec comes guard Core.new.trace m →
      Tends cfg mempool codec comes guard Core.new.trace
        (xs.foldl (fun m x => (Mempool.handle mempool codec false x m).2) m) := by
    induction xs with
    | nil => exact id
    | cons x xs ih =>
      intro m hm
      exact ih (fun y hy => hx y (List.mem_cons_of_mem _ hy))
        (hm.message false (hx x List.mem_cons_self))
  exact hfold .new

theorem tends_tend {check : Mempool → Event → Bool} (hg : ∀ m x, check m x = true → guard m x)
    (hm : Tends cfg mempool codec comes guard Core.new.trace m)
    (h : tend cfg mempool check m l = some t) : Tends cfg mempool codec comes guard l t := by
  induction l generalizing t with
  | nil => cases h
  | cons x l ih =>
    unfold tend at h
    split at h
    · rename_i heq
      cases h
      rw [heq]
      exact hm
    · obtain ⟨u, hu, h⟩ := Option.bind_eq_some_iff.mp h
      obtain ⟨hc, h⟩ := Option.ite_none_right_eq_some.mp h
      obtain ⟨n, hn, rfl⟩ := Option.map_eq_some_iff.mp h
      exact (ih hu).serve (Node.serves_carry hn) (hg u x.2 hc)

end Evaluation

end Draws

/-! ### A payload that two proposers draw -/

/-- The mempools of the four nodes. -/
def poolConfig (k : PublicKey) : MempoolConfig := ⟨k, [0, 1, 2, 3], 10, 500⟩

def sampleCodec : Codec := ⟨fun _ => none, fun _ => none⟩

/-- Node `1` has a payload of a client. -/
def paidSetup : Setup :=
  { hotstuffSetup with payload := fun k _ => if k = 1 then [samplePayload.digest] else [] }

/-- What the mempools are told: the others are sent the payload, node `3` not yet. -/
def sparedMessages (k : PublicKey) : List MempoolMessage :=
  if k = 1 then [.OwnPayload samplePayload]
  else if k = 0 ∨ k = 2 then [.Payload samplePayload]
  else []

/-- Node `3` proposes at the heights `2` and `3` before the payload comes to it. -/
def toSpared : List Act :=
  [.boot 0, .boot 1, .boot 2, .boot 3, .deliver 0 1 0, .deliver 2 1 0, .deliver 3 0 1,
    .deliver 3 1 2, .deliver 3 2 0, .timer 3, .deliver 0 3 0, .deliver 1 3 0, .deliver 2 3 0,
    .deliver 3 0 2, .deliver 3 1 3, .deliver 3 2 1, .deliver 0 3 1, .deliver 1 3 1, .deliver 2 3 1,
    .deliver 0 1 5, .deliver 0 2 3]

/-- A block on the genesis block is checked by its parent, any other one by the queue. -/
def sparesCheck (m : Mempool) : Event → Bool
  | .sign (.block b) => b.qc.isGenesis ∨ (if m.optQueue = [] then b.payload else m.optQueue) = []
  | _ => true

def sparedMempool (w : World) (k : PublicKey) : Option Mempool :=
  tend (paidSetup.config k) (poolConfig k) sparesCheck
    (told (poolConfig k) sampleCodec (sparedMessages k)) (w.core k).trace

theorem spares_of_check {σ : Cores}
    (hroot : ∀ k b, (σ k).Ever (.sign (.block b)) → b.digest ≠ QC.genesis.hash) {m : Mempool}
    {x : Event} (h : sparesCheck m x = true) : Spares σ m x := by
  rintro b rfl a ha
  rcases of_decide_eq_true h with hg | hq
  · -- nothing is below a block on the genesis block
    obtain ⟨c, -, hdigest, hmade⟩ := Relation.TransGen.tail'_iff.mp ha
    exact absurd (hdigest.trans hg.1) (hroot _ _ hmade)
  · rw [hq]
    exact List.disjoint_nil_right _

theorem payloads_once_toSpared : ∃ w b b', paidSetup.Runs w ∧ b ∈ (w.core 0).ledger ∧
    b' ∈ (w.core 0).ledger ∧ b.payload ≠ [] ∧ b.digest ≠ b'.digest ∧
    b.payload.Disjoint b'.payload := by
  obtain ⟨w, hr, hms, hsent, hd, hroot, hledger⟩ := exists_play paidSetup toSpared
    (fun w => (fourNodes.sortedNames.all fun k => (sparedMempool w k).isSome) = true ∧
      ((sparedMempool w 1).any fun m => (.Payload samplePayload, none) ∈ m.sent) = true ∧
      ((fourNodes.sortedNames.flatMap fun k => (w.core k).signedBlocks).map Block.digest).Nodup ∧
      ((fourNodes.sortedNames.flatMap fun k => (w.core k).signedBlocks).all fun b =>
        b.digest ≠ QC.genesis.hash) = true ∧
      ((w.core 0).ledger.map Block.payload = [[samplePayload.digest], []] ∧
        ((w.core 0).ledger.map Block.digest).Nodup))
    (by decide +kernel) (by decide +kernel)
  have hapart : HashesApart w.core := hr.hashesApart hd
  have hmade : ∀ k b, (w.core k).Ever (.sign (.block b)) → b.digest ≠ QC.genesis.hash := by
    intro k b hb
    by_cases hk : k ∈ fourNodes.sortedNames
    · have hmem : b ∈ fourNodes.sortedNames.flatMap fun k => (w.core k).signedBlocks :=
        List.mem_flatMap.mpr ⟨k, hk, Core.mem_signedBlocks hb⟩
      exact of_decide_eq_true (List.all_eq_true.mp hroot b hmem)
    · rw [hr.core_new hk] at hb
      obtain ⟨e, hb⟩ := hb
      cases List.mem_singleton.mp hb
  let ms := fun k => (sparedMempool w k).getD .new
  have hmempool : ∀ k, sparedMempool w k = some (ms k) := by
    intro k
    have hsome : (sparedMempool w k).isSome = true := by
      by_cases hk : k ∈ fourNodes.sortedNames
      · exact List.all_eq_true.mp hms k hk
      · unfold sparedMempool
        rw [hr.core_new hk]
        rfl
    obtain ⟨m, hm⟩ := Option.isSome_iff_exists.mp hsome
    simp only [ms, hm, Option.getD_some]
  have hcomes : ∀ k, ∀ x ∈ sparedMessages k, Comes ms k x := by
    intro k x hx
    unfold sparedMessages at hx
    split at hx
    · rename_i hk
      rw [List.mem_singleton.mp hx, hk]
      rfl
    · rename_i hk
      split at hx
      · rw [List.mem_singleton.mp hx]
        obtain ⟨m, hm, hin⟩ := (Option.any_eq_true _ _).mp hsent
        refine ⟨1, none, Ne.symm hk, .inl rfl, ?_⟩
        simp only [ms, hm, Option.getD_some]
        exact of_decide_eq_true hin
      · cases hx
  have hteam : Team paidSetup poolConfig sampleCodec (Spares w.core) w ms :=
    ⟨hr, fun k => tends_tend (fun _ _ => spares_of_check hmade)
      (tends_told (hcomes k)) (hmempool k)⟩
  -- the two blocks of the ledger of node `0`
  obtain ⟨hpayloads, hdigests⟩ := hledger
  obtain ⟨b, l, hl, hb, hrest⟩ := List.map_eq_cons_iff.mp hpayloads
  obtain ⟨b', l', rfl, hb', hnil⟩ := List.map_eq_cons_iff.mp hrest
  have hmem : b ∈ (w.core 0).ledger ∧ b' ∈ (w.core 0).ledger := by
    rw [hl]
    exact ⟨List.mem_cons_self, List.mem_cons_of_mem _ List.mem_cons_self⟩
  have hne : b.digest ≠ b'.digest := by
    rw [hl] at hdigests
    intro heq
    exact (List.nodup_cons.mp hdigests).1 (List.mem_map.mpr ⟨b', List.mem_cons_self, heq.symm⟩)
  have htotal : paidSetup.committee.total = 3 * 1 + 1 := by decide
  refine ⟨w, b, b', hr, hmem.1, hmem.2, ?_, hne,
    Team.payloads_once ⟨rfl, rfl⟩ htotal hteam hapart hmem.1 hmem.2 hne⟩
  intro hempty
  have hlength := congrArg List.length hb
  rw [hempty] at hlength
  exact Nat.zero_ne_one hlength

end Ipotane
