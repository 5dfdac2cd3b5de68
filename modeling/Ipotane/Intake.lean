import Ipotane.Mempool
import Ipotane.Symbolic

/-! Where the payloads of a node's mempool come from: its payload maker (`mempool/src/payload.rs`)
and the network, which share the channel of the mempool's core. -/
namespace Ipotane

open Lib Handler

section Intake

variable [Crypto]

/-! ### `mempool/src/payload.rs` -/

/-- The transactions that wait for the next payload, and their total length. -/
structure Runner where
  transactions : List Transaction
  size : ℕ
deriving DecidableEq

namespace Runner

def new : Runner := ⟨[], 0⟩

variable (cfg : MempoolConfig)

/-- `Runner::make`. -/
def make (r : Runner) : Payload × Runner := (Payload.new r.transactions cfg.name, new)

/-- `Runner::add`. -/
def add (r : Runner) (tx : Transaction) : Option Payload × Runner :=
  let length := tx.length
  let (ret, r) :=
    if r.size + length > cfg.maxPayloadSize then (some (r.make cfg).1, (r.make cfg).2)
      else (none, r)
  (ret, ⟨r.transactions ++ [tx], r.size + length⟩)

/-- `PayloadMaker::make`: what the maker answers to a request. -/
def answer (r : Runner) : Option Payload × Runner :=
  let (payload, r) := r.make cfg
  (if payload.size = 0 then none else some payload, r)

end Runner

/-- The payload maker, the channel of the mempool's core and the mempool; `built` are the payloads
that the maker has built so far and `offered` the digests that the consensus core has been given. -/
structure Intake where
  runner : Runner
  channel : List MempoolMessage
  mempool : Mempool
  built : List Payload
  offered : List Digest

namespace Intake

def new : Intake := ⟨.new, [], .new, [], []⟩

/-- What happens next: a client sends a transaction, the network receiver delivers a message of
anyone, the mempool's core takes a message from its channel or a request of the consensus core,
which also writes blocks, or the synchronizer moves. -/
inductive Act
  | transaction (tx : Transaction)
  | deliver (m : MempoolMessage)
  | take (full : Bool)
  | get (full : Bool) (order : List Digest) (max tag : ℕ)
  | verify (b : Block) (tag : ℕ)
  | cleanup (digests : List Digest) (round : ℕ)
  | write (b : Block)
  | synchronize
  | finish (w : Waiter)
  | drop (w : Waiter)

variable (cfg : MempoolConfig) (codec : Codec)

/-- A request that finds its queue empty goes to the payload maker. -/
def Asks (n : Intake) (tag : ℕ) : Prop :=
  (tag = OPT ∧ n.mempool.optQueue = []) ∨ (tag = PES ∧ n.mempool.pesQueue = [])

instance (n : Intake) (tag : ℕ) : Decidable (n.Asks tag) := inferInstanceAs (Decidable (_ ∨ _))

/-- What the payload maker answers to a request, if it is asked. -/
def reply (n : Intake) (tag : ℕ) : Option Payload × Runner :=
  if n.Asks tag then n.runner.answer cfg else (none, n.runner)

/-- `ConsensusMempoolMessage::Get`: an error is answered with no digest. -/
def get (n : Intake) (full : Bool) (order : List Digest) (max tag : ℕ) : Intake :=
  let (result, m) := Mempool.getPayload cfg full (n.reply cfg tag).1 order max tag n.mempool
  { n with
    runner := (n.reply cfg tag).2
    mempool := m
    built := (n.reply cfg tag).1.toList ++ n.built
    offered :=
      match result with
      | .ok digests => digests ++ n.offered
      | _ => n.offered }

def act (n : Intake) : Act → Option Intake
  | .transaction tx =>
    let (made, runner) := n.runner.add cfg tx
    some { n with
      runner := runner
      channel := n.channel ++ made.toList.map .OwnPayload
      built := made.toList ++ n.built }
  | .deliver m => some { n with channel := n.channel ++ [m] }
  | .take full =>
    match n.channel with
    | [] => none
    | m :: rest =>
      some { n with channel := rest, mempool := (Mempool.handle cfg codec full m n.mempool).2 }
  | .get full order max tag =>
    if order.Perm (if tag = OPT then n.mempool.optQueue else n.mempool.pesQueue) then
      some (n.get cfg full order max tag)
    else none
  | .verify b tag => some { n with mempool := (Mempool.verifyPayload b tag n.mempool).2 }
  | .cleanup digests round => some { n with mempool := (Mempool.cleanup digests round n.mempool).2 }
  | .write b => some { n with mempool := (Mempool.write b.digest (.block b) n.mempool).2 }
  | .synchronize =>
    match n.mempool.inner with
    | [] => none
    | x :: rest =>
      match Mempool.takeInner cfg x { n.mempool with inner := rest } with
      | (.ok (), m) => some { n with mempool := m }
      | _ => none
  | .finish w =>
    if w ∈ n.mempool.waiting ∧ ∀ d ∈ w.missing, n.mempool.store.contains d = true then
      some { n with mempool := (Mempool.finishWaiter w n.mempool).2 }
    else none
  | .drop w =>
    if w ∈ n.mempool.waiting ∧ w.cancelled = true then
      some { n with mempool := { n.mempool with waiting := n.mempool.waiting.erase w } }
    else none

/-- The payload of an `OwnPayload` that the mempool's core takes while it has room for it. -/
def taken (n : Intake) : Act → Option Payload
  | .take full =>
    match n.channel with
    | .OwnPayload p :: _ =>
      if n.mempool.optQueue.length < cfg.queueCapacity ∧ full = false then some p else none
    | _ => none
  | _ => none

/-- The payload that is made for a request while the mempool has room for it. -/
def drawn (n : Intake) : Act → Option Payload
  | .get full _ _ tag => if n.Asks tag ∧ full = false then (n.reply cfg tag).1 else none
  | _ => none

/-- The payload that an act makes `process_own_payload` store and broadcast. -/
def Processes (n : Intake) (a : Act) (p : Payload) : Prop :=
  n.taken cfg a = some p ∨ n.drawn cfg a = some p

/-- The states of the node, as far as every act meets `guard` in the state before it. -/
inductive Runs (guard : Intake → Act → Prop) : Intake → Prop
  | new : Runs guard new
  | act {n n' : Intake} {a : Act} (h : Runs guard n) (hg : guard n a)
      (ha : n.act cfg codec a = some n') :
      Runs guard n'

end Intake

/-- The checks of `handle_others_payload`. -/
structure Payload.Checked (cfg : MempoolConfig) (p : Payload) : Prop where
  author : p.author ∈ cfg.authorities
  size : p.size ≤ cfg.maxPayloadSize
  signature : Crypto.verify p.signature p.digest p.author = true

namespace Mempool

variable {cfg : MempoolConfig} {codec : Codec} {P B P' B' : Payload → Prop}
  {m t u : Mempool} {full : Bool}

/-- The payloads in `P` may enter the store and the queues, those in `B` may be broadcast. -/
structure Admits (P B : Payload → Prop) (m t : Mempool) : Prop where
  stored : ∀ d p, t.store.get d = some (.payload p) →
    m.store.get d = some (.payload p) ∨ (p.digest = d ∧ P p)
  queued : ∀ d, d ∈ t.optQueue ∨ d ∈ t.pesQueue →
    (d ∈ m.optQueue ∨ d ∈ m.pesQueue) ∨ ∃ p, p.digest = d ∧ P p
  sent : ∀ p, (.Payload p, none) ∈ t.sent → (.Payload p, none) ∈ m.sent ∨ B p

theorem Admits.trans (h : Admits P B m t) (h' : Admits P B t u) : Admits P B m u where
  stored d p hp := (h'.stored d p hp).elim (h.stored d p) .inr
  queued d hd := (h'.queued d hd).elim (h.queued d) .inr
  sent p hp := (h'.sent p hp).elim (h.sent p) .inr

theorem admits_rest (hs : t.store = m.store) (ho : t.optQueue ⊆ m.optQueue)
    (hp : t.pesQueue ⊆ m.pesQueue) (hn : t.sent = m.sent) : Admits P B m t where
  stored _ _ h := .inl (hs ▸ h)
  queued _ h := .inl (h.imp (ho ·) (hp ·))
  sent _ h := .inl (hn ▸ h)

theorem admits_of_moves {α : Type} {x : Task α} (h : Moves (Admits P B) m x) :
    Admits P B m (x m).2 := by
  unfold Moves at h
  generalize (x m).2 = t at h ⊢
  induction h with
  | refl => exact admits_rest rfl (List.Subset.refl _) (List.Subset.refl _) rfl
  | tail _ h ih => exact ih.trans h

theorem admits_write {d : Digest} {p : Payload} (hd : p.digest = d) (hp : P p) :
    Admits P B m { m with store := m.store.insert d (.payload p) } where
  stored d' p' h := by
    rw [Map.get_insert] at h
    split at h
    · cases h
      exact .inr ⟨hd.trans (Eq.symm ‹_›), hp⟩
    · exact .inl h
  queued _ := .inl
  sent _ := .inl

theorem admits_enqueue {p : Payload} (hp : P p) :
    Admits P B m { m with
      optQueue := m.optQueue.insert p.digest
      pesQueue := m.pesQueue.insert p.digest } where
  stored _ _ := .inl
  queued d h := by
    simp only [List.mem_insert_iff] at h
    rcases h with (rfl | h) | rfl | h
    · exact .inr ⟨p, rfl, hp⟩
    · exact .inl (.inl h)
    · exact .inr ⟨p, rfl, hp⟩
    · exact .inl (.inr h)
  sent _ := .inl

theorem admits_send {x : MempoolMessage} {dest : Option PublicKey}
    (h : ∀ p, x = .Payload p → dest = none → B p) :
    Admits P B m { m with sent := (x, dest) :: m.sent } where
  stored _ _ := .inl
  queued _ := .inl
  sent p hp := by
    rcases List.mem_cons.mp hp with hp | hp
    · exact .inr (h p (Prod.mk.inj hp).1.symm (Prod.mk.inj hp).2.symm)
    · exact .inl hp

theorem admits_transmit {x : MempoolMessage} {dest : Option PublicKey}
    (h : ∀ p, x = .Payload p → dest = none → B p) : Moves (Admits P B) m (transmit cfg x dest) :=
  moves_reads_bind (reads_ensure _ _) fun _ _ => moves_update (admits_send h)

theorem ensureM_ok {p : Prop} [Decidable p] {e : MempoolError} {v : Unit}
    (h : ensureM p e m = (.ok v, t)) : p := by
  unfold ensureM at h
  split at h
  · assumption
  · cases h

theorem admits_processOwnPayload {p : Payload} (hp : full = false → P p ∧ B p) :
    Moves (Admits P B) m (processOwnPayload cfg full p.digest p) := by
  refine moves_reads_bind (reads_ensure _ _) fun _ hroom => ?_
  have hroom : full = false := ensureM_ok hroom
  refine moves_bind (moves_update (admits_write rfl (hp hroom).1)) fun _ _ _ => ?_
  refine admits_transmit fun q hq _ => ?_
  cases hq
  exact (hp hroom).2

theorem admits_handleOwnPayload {p : Payload}
    (hp : m.optQueue.length < cfg.queueCapacity → full = false → P p ∧ B p) :
    Moves (Admits P B) m (handleOwnPayload cfg full p) := by
  refine moves_self_bind (moves_reads_bind (reads_ensure _ _) fun _ hroom => ?_)
  have hroom : m.optQueue.length < cfg.queueCapacity := ensureM_ok hroom
  refine moves_bind (admits_processOwnPayload (hp hroom)) fun _ t ht =>
    moves_update (admits_enqueue ?_)
  obtain ⟨_, s, h₁, _⟩ := bind_ok ht
  exact (hp hroom (ensureM_ok h₁)).1

theorem admits_handleOthersPayload {p : Payload} (hp : p.Checked cfg → P p) :
    Moves (Admits P B) m (handleOthersPayload cfg p) := by
  refine moves_reads_bind (reads_ensure _ _) fun _ h₁ => ?_
  refine moves_reads_bind (reads_ensure _ _) fun _ h₂ => ?_
  refine moves_reads_bind (reads_ensure _ _) fun _ h₃ => ?_
  have hp : P p := hp ⟨ensureM_ok h₁, ensureM_ok h₂, ensureM_ok h₃⟩
  exact moves_bind (moves_update (admits_write rfl hp)) fun _ _ _ =>
    moves_update (admits_enqueue hp)

theorem admits_handleRequest (requestor : PublicKey) (digests : List Digest) :
    ∀ m, Moves (Admits P B) m (handleRequest cfg codec requestor digests) := by
  induction digests with
  | nil => exact fun m => moves_pure ()
  | cons digest digests ih =>
    intro m
    refine moves_self_bind ?_
    dsimp only
    split
    · exact ih m
    · split
      · exact moves_bind (moves_fail _) fun _ t _ => ih t
      · exact moves_bind (admits_transmit fun _ _ h => nomatch h) fun _ t _ => ih t

theorem admits_handle {x : MempoolMessage}
    (ho : ∀ p, x = .OwnPayload p → m.optQueue.length < cfg.queueCapacity → full = false → P p ∧ B p)
    (hp : ∀ p : Payload, p.Checked cfg → P p) : Admits P B m (handle cfg codec full x m).2 := by
  refine admits_of_moves ?_
  cases x with
  | OwnPayload p => exact admits_handleOwnPayload (ho p rfl)
  | Payload p => exact admits_handleOthersPayload (hp p)
  | PayloadRequest digests requestor => exact admits_handleRequest _ _ m

theorem admits_getPayload {made : Option Payload} {order : List Digest} {max tag : ℕ}
    (hp : (tag = OPT ∧ m.optQueue = []) ∨ (tag = PES ∧ m.pesQueue = []) →
      ∀ p, made = some p → full = false → P p ∧ B p) :
    Moves (Admits P B) m (getPayload cfg full made order max tag) := by
  refine moves_self_bind (moves_ite (fun hask => ?_) fun _ => ?_)
  · cases made with
    | none => exact moves_pure []
    | some p =>
      exact moves_bind (admits_processOwnPayload (hp hask p rfl)) fun _ _ _ => moves_pure _
  · refine moves_ite (fun _ => moves_update_bind ?_ (moves_pure _)) fun _ =>
      moves_update_bind ?_ (moves_pure _)
    · exact admits_rest rfl (List.filter_subset_self _) (List.Subset.refl _) rfl
    · exact admits_rest rfl (List.Subset.refl _) (List.filter_subset_self _) rfl

/-- The digests that a request is answered with are queued, or the one of a new payload. -/
theorem getPayload_digests {made : Option Payload} {order digests : List Digest} {max tag : ℕ}
    (hp : order.Perm (if tag = OPT then m.optQueue else m.pesQueue))
    (h : getPayload cfg full made order max tag m = (.ok digests, t)) :
    ∀ d ∈ digests, (d ∈ m.optQueue ∨ d ∈ m.pesQueue) ∨
      ∃ p, p.digest = d ∧ made = some p ∧ full = false ∧
        ((tag = OPT ∧ m.optQueue = []) ∨ (tag = PES ∧ m.pesQueue = [])) := by
  obtain ⟨s, s', h₁, h⟩ := bind_ok h
  cases h₁
  split at h
  · rename_i hask
    cases made with
    | none =>
      cases h
      exact fun d hd => nomatch hd
    | some p =>
      obtain ⟨_, u, h₂, h₃⟩ := bind_ok h
      cases h₃
      intro d hd
      cases List.mem_singleton.mp hd
      obtain ⟨_, v, h₄, _⟩ := bind_ok h₂
      exact .inr ⟨p, rfl, rfl, ensureM_ok h₄, hask⟩
  · have hd : digests = order.take (max / digestSize) := by
      dsimp only at h
      split at h <;>
      · obtain ⟨_, u, h₂, h₃⟩ := bind_ok h
        cases h₃
        rfl
    intro d hmem
    have hmem := hp.subset (List.mem_of_mem_take (hd ▸ hmem))
    refine .inl ?_
    split at hmem
    · exact .inl hmem
    · exact .inr hmem

theorem admits_verifyPayload {b : Block} {tag : ℕ} : Admits P B m (verifyPayload b tag m).2 := by
  refine admits_of_moves (moves_self_bind (moves_ite (fun _ => moves_pure _) fun _ => ?_))
  refine moves_update_bind ?_ (moves_pure _)
  exact admits_rest rfl (List.Subset.refl _) (List.Subset.refl _) rfl

theorem admits_cleanup {digests : List Digest} {round : ℕ} :
    Admits P B m (cleanup digests round m).2 :=
  admits_rest rfl (List.filter_subset_self _) (List.filter_subset_self _) rfl

theorem admits_block {b : Block} : Admits P B m (Mempool.write b.digest (.block b) m).2 where
  stored d p h := by
    rw [write_store, Map.get_insert] at h
    split at h
    · cases h
    · exact .inl h
  queued _ := .inl
  sent _ := .inl

theorem admits_takeInner {x : SynchronizerMessage} : Admits P B m (takeInner cfg x m).2 := by
  refine admits_of_moves ?_
  cases x with
  | Sync missing b tag =>
    refine moves_self_bind (moves_ite (fun _ => moves_pure _) fun _ => ?_)
    refine moves_update_bind ?_ (moves_ite (fun _ => moves_update_bind ?_ ?_) fun _ =>
      moves_pure ())
    · exact admits_rest rfl (List.Subset.refl _) (List.Subset.refl _) rfl
    · exact admits_rest rfl (List.Subset.refl _) (List.Subset.refl _) rfl
    · exact moves_expect (admits_transmit fun _ h _ => nomatch h)
  | Clean round =>
    exact moves_update (admits_rest rfl (List.Subset.refl _) (List.Subset.refl _) rfl)

end Mempool

namespace Intake

variable {cfg : MempoolConfig} {codec : Codec} {n n' : Intake} {a : Act} {P B V V' : Payload → Prop}

theorem drawn_get {full : Bool} {order : List Digest} {max tag : ℕ} (ha : n.Asks tag)
    (hf : full = false) : n.drawn cfg (.get full order max tag) = (n.reply cfg tag).1 :=
  if_pos ⟨ha, hf⟩

/-- What an act lets into the mempool. -/
theorem act_admits (h : n.act cfg codec a = some n') (ho : ∀ p, n.Processes cfg a p → P p ∧ B p)
    (hc : ∀ p : Payload, p.Checked cfg → P p) : Mempool.Admits P B n.mempool n'.mempool := by
  cases a with
  | transaction tx =>
    cases h
    exact Mempool.admits_rest rfl (List.Subset.refl _) (List.Subset.refl _) rfl
  | deliver m =>
    cases h
    exact Mempool.admits_rest rfl (List.Subset.refl _) (List.Subset.refl _) rfl
  | take full =>
    cases hch : n.channel with
    | nil => simp [act, hch] at h
    | cons m rest =>
      simp only [act, hch, Option.some.injEq] at h
      cases h
      refine Mempool.admits_handle (fun p hp hroom hfull => ho p (.inl ?_)) hc
      subst hp
      simp only [taken, hch]
      rw [if_pos ⟨hroom, hfull⟩]
  | get full order max tag =>
    obtain ⟨_, h⟩ := Option.ite_none_right_eq_some.mp h
    cases h
    refine Mempool.admits_of_moves (Mempool.admits_getPayload fun hask p hp hfull => ho p (.inr ?_))
    have hask : n.Asks tag := hask
    exact (drawn_get hask hfull).trans hp
  | verify b tag =>
    cases h
    exact Mempool.admits_verifyPayload
  | cleanup digests round =>
    cases h
    exact Mempool.admits_cleanup
  | write b =>
    cases h
    exact Mempool.admits_block
  | synchronize =>
    cases hi : n.mempool.inner with
    | nil => simp [act, hi] at h
    | cons x rest =>
      simp only [act, hi] at h
      have hx : Mempool.Admits P B { n.mempool with inner := rest }
          (Mempool.takeInner cfg x { n.mempool with inner := rest }).2 := Mempool.admits_takeInner
      split at h
      · rename_i m hm
        cases h
        rw [hm] at hx
        exact ⟨hx.stored, hx.queued, hx.sent⟩
      · cases h
  | finish w =>
    obtain ⟨_, h⟩ := Option.ite_none_right_eq_some.mp h
    cases h
    exact Mempool.admits_rest rfl (List.Subset.refl _) (List.Subset.refl _) rfl
  | drop w =>
    obtain ⟨_, h⟩ := Option.ite_none_right_eq_some.mp h
    cases h
    exact Mempool.admits_rest rfl (List.Subset.refl _) (List.Subset.refl _) rfl

/-- The other acts build no payload and offer no digest; only a delivery adds to the channel. -/
theorem act_keeps (h : n.act cfg codec a = some n')
    (ha : ∀ full order max tag, a ≠ .get full order max tag) (ht : ∀ tx, a ≠ .transaction tx) :
    (n'.offered = n.offered ∧ n'.built = n.built ∧ n'.runner = n.runner) ∧
      ∀ x ∈ n'.channel, x ∈ n.channel ∨ a = .deliver x := by
  cases a with
  | transaction tx => exact absurd rfl (ht tx)
  | get full order max tag => exact absurd rfl (ha full order max tag)
  | deliver m =>
    cases h
    refine ⟨⟨rfl, rfl, rfl⟩, fun x hx => ?_⟩
    rcases List.mem_append.mp hx with hx | hx
    · exact .inl hx
    · exact .inr (by rw [List.mem_singleton.mp hx])
  | take full =>
    cases hch : n.channel with
    | nil => simp [act, hch] at h
    | cons m rest =>
      simp only [act, hch, Option.some.injEq] at h
      cases h
      exact ⟨⟨rfl, rfl, rfl⟩, fun x hx => .inl (List.mem_cons_of_mem _ hx)⟩
  | synchronize =>
    cases hi : n.mempool.inner with
    | nil => simp [act, hi] at h
    | cons x rest =>
      simp only [act, hi] at h
      split at h
      · cases h
        exact ⟨⟨rfl, rfl, rfl⟩, fun x => .inl⟩
      · cases h
  | finish w =>
    obtain ⟨_, h⟩ := Option.ite_none_right_eq_some.mp h
    cases h
    exact ⟨⟨rfl, rfl, rfl⟩, fun x => .inl⟩
  | drop w =>
    obtain ⟨_, h⟩ := Option.ite_none_right_eq_some.mp h
    cases h
    exact ⟨⟨rfl, rfl, rfl⟩, fun x => .inl⟩
  | _ =>
    cases h
    exact ⟨⟨rfl, rfl, rfl⟩, fun x => .inl⟩

/-- What the consensus core is given was queued, or belongs to a new payload. -/
theorem get_offered {full : Bool} {order : List Digest} {max tag : ℕ}
    (hp : order.Perm (if tag = OPT then n.mempool.optQueue else n.mempool.pesQueue)) :
    ∀ d ∈ (n.get cfg full order max tag).offered,
      d ∈ n.offered ∨ (d ∈ n.mempool.optQueue ∨ d ∈ n.mempool.pesQueue) ∨
        ∃ p, p.digest = d ∧ n.Processes cfg (.get full order max tag) p := by
  intro d hd
  cases hg : Mempool.getPayload cfg full (n.reply cfg tag).1 order max tag n.mempool with
  | mk result m =>
    simp only [get, hg] at hd
    split at hd
    · rename_i digests
      rcases List.mem_append.mp hd with hd | hd
      · rcases Mempool.getPayload_digests hp hg d hd with hd | ⟨p, hp, hmade, hfull, hask⟩
        · exact .inr (.inl hd)
        · have hask : n.Asks tag := hask
          refine .inr (.inr ⟨p, hp, .inr ?_⟩)
          exact (drawn_get hask hfull).trans hmade
      · exact .inl hd
    · exact .inl hd

/-- Every payload in the mempool and every digest that consensus can see is of a payload in `V`. -/
structure Vouches (V : Payload → Prop) (n : Intake) : Prop where
  stored : ∀ d p, n.mempool.store.get d = some (.payload p) → p.digest = d ∧ V p
  queued : ∀ d, d ∈ n.mempool.optQueue ∨ d ∈ n.mempool.pesQueue → ∃ p, p.digest = d ∧ V p
  offered : ∀ d ∈ n.offered, ∃ p, p.digest = d ∧ V p

theorem vouches_new : Vouches V new :=
  ⟨fun _ _ h => (nomatch h), fun _ h => h.elim (nomatch ·) (nomatch ·), fun _ h => (nomatch h)⟩

theorem Vouches.mono (h : Vouches V n) (hv : ∀ p, V p → V' p) : Vouches V' n where
  stored d p hp := ⟨(h.stored d p hp).1, hv p (h.stored d p hp).2⟩
  queued d hd := (h.queued d hd).imp fun p hp => ⟨hp.1, hv p hp.2⟩
  offered d hd := (h.offered d hd).imp fun p hp => ⟨hp.1, hv p hp.2⟩

theorem Vouches.act (h : Vouches V n) (ha : n.act cfg codec a = some n')
    (ho : ∀ p, n.Processes cfg a p → V p) (hc : ∀ p : Payload, p.Checked cfg → V p) :
    Vouches V n' := by
  have hm : Mempool.Admits V (fun _ => True) n.mempool n'.mempool :=
    act_admits ha (fun p hp => ⟨ho p hp, trivial⟩) hc
  refine ⟨fun d p hp => ?_, fun d hd => ?_, fun d hd => ?_⟩
  · exact (hm.stored d p hp).elim (h.stored d p) id
  · exact (hm.queued d hd).elim (h.queued d) id
  · by_cases hget : ∃ full order max tag, a = .get full order max tag
    · obtain ⟨full, order, max, tag, rfl⟩ := hget
      obtain ⟨hp, ha⟩ := Option.ite_none_right_eq_some.mp ha
      cases ha
      rcases get_offered hp d hd with hd | hd | ⟨p, hp, hproc⟩
      · exact h.offered d hd
      · exact h.queued d hd
      · exact ⟨p, hp, ho p hproc⟩
    · by_cases htx : ∃ tx, a = .transaction tx
      · obtain ⟨tx, rfl⟩ := htx
        cases ha
        exact h.offered d hd
      · have hk := act_keeps ha (fun full order max tag he => hget ⟨full, order, max, tag, he⟩)
          fun tx he => htx ⟨tx, he⟩
        exact h.offered d (hk.1.1 ▸ hd)

/-- The payloads that have been built stay built, and a request is answered with a built one. -/
theorem act_built (h : n.act cfg codec a = some n') : n.built ⊆ n'.built := by
  by_cases hget : ∃ full order max tag, a = .get full order max tag
  · obtain ⟨full, order, max, tag, rfl⟩ := hget
    obtain ⟨_, h⟩ := Option.ite_none_right_eq_some.mp h
    cases h
    exact List.subset_append_right _ _
  · by_cases htx : ∃ tx, a = .transaction tx
    · obtain ⟨tx, rfl⟩ := htx
      cases h
      exact List.subset_append_right _ _
    · have hk := act_keeps h (fun full order max tag he => hget ⟨full, order, max, tag, he⟩)
        fun tx he => htx ⟨tx, he⟩
      exact hk.1.2.1 ▸ List.Subset.refl _

theorem drawn_built (h : n.act cfg codec a = some n') {p : Payload} (hp : n.drawn cfg a = some p) :
    p ∈ n'.built := by
  cases a with
  | get full order max tag =>
    obtain ⟨_, h⟩ := Option.ite_none_right_eq_some.mp h
    cases h
    obtain ⟨_, hp⟩ := Option.ite_none_right_eq_some.mp hp
    refine List.mem_append_left _ ?_
    rw [hp]
    exact List.mem_singleton_self p
  | _ => cases hp

/-! ### Only admitted payloads -/

/-- A payload that the node's own maker has built, or one that passes the checks. -/
def Admitted (cfg : MempoolConfig) (n : Intake) (p : Payload) : Prop := p ∈ n.built ∨ p.Checked cfg

/-- An `OwnPayload` that is taken carries an admitted payload. -/
def TakesAdmitted (cfg : MempoolConfig) (n : Intake) (a : Act) : Prop :=
  ∀ p, n.taken cfg a = some p → Admitted cfg n p

/-- Only admitted payloads are in the mempool as long as an `OwnPayload` is taken only for them. -/
theorem Runs.vouches_admitted (h : Runs cfg codec (TakesAdmitted cfg) n) :
    Vouches (Admitted cfg n) n := by
  induction h with
  | new => exact vouches_new
  | @act n n' a _ hg ha ih =>
    have hmono : ∀ p, Admitted cfg n p → Admitted cfg n' p := fun p => Or.imp_left (act_built ha ·)
    refine (ih.mono hmono).act ha (fun p hp => ?_) fun p => .inr
    rcases hp with hp | hp
    · exact hmono p (hg p hp)
    · exact .inl (drawn_built ha hp)

/-! ### Payloads that other nodes take -/

/-- Every node with the same limit and committee takes the payload from the network. -/
def Passes (cfg : MempoolConfig) (p : Payload) : Prop :=
  ∀ (peer : MempoolConfig) (m : Mempool), peer.authorities = cfg.authorities →
    peer.maxPayloadSize = cfg.maxPayloadSize → (Mempool.handleOthersPayload peer p m).1 = .ok ()

theorem ensureM_run {p : Prop} [Decidable p] {e : MempoolError} {m : Mempool} (h : p) :
    Mempool.ensureM p e m = (.ok (), m) := by
  unfold Mempool.ensureM
  rw [if_pos h]
  rfl

theorem passes_of_checked {p : Payload} (h : p.Checked cfg) : Passes cfg p := by
  intro peer m ha hm
  unfold Mempool.handleOthersPayload
  rw [bind_run (ensureM_run (ha ▸ h.author)), bind_run (ensureM_run (hm ▸ h.size)),
    bind_run (ensureM_run h.signature)]
  rfl

/-- The payloads that the maker builds: they are too big only because of one transaction. -/
structure Made (cfg : MempoolConfig) (p : Payload) : Prop where
  new : p = Payload.new p.transactions cfg.name
  fits : p.size ≤ cfg.maxPayloadSize ∨ ∃ tx ∈ p.transactions, cfg.maxPayloadSize < tx.length

theorem Made.checked {p : Payload} (h : Made cfg p) (hname : cfg.name ∈ cfg.authorities)
    (hsign : ∀ k d, Crypto.verify (Crypto.sign k d) d k = true)
    (hlen : ∀ tx ∈ p.transactions, tx.length ≤ cfg.maxPayloadSize) : p.Checked cfg := by
  refine ⟨?_, ?_, ?_⟩
  · rw [h.new]
    exact hname
  · rcases h.fits with hs | ⟨tx, htx, hlt⟩
    · exact hs
    · exact absurd (hlen tx htx) (Nat.not_le.mpr hlt)
  · rw [h.new]
    exact hsign _ _

/-- The batch is as long as the maker says, and within the limit unless one transaction is not. -/
structure Batched (cfg : MempoolConfig) (r : Runner) : Prop where
  size : r.size = (r.transactions.map List.length).sum
  fits : r.size ≤ cfg.maxPayloadSize ∨ ∃ tx ∈ r.transactions, cfg.maxPayloadSize < tx.length

omit [Crypto] in
theorem batched_new : Batched cfg .new := ⟨rfl, .inl (Nat.zero_le _)⟩

theorem Batched.make {r : Runner} (h : Batched cfg r) : Made cfg (r.make cfg).1 where
  new := rfl
  fits := by
    have hs : (r.make cfg).1.size = r.size := h.size.symm
    rw [hs]
    exact h.fits

theorem Batched.add {r : Runner} {tx : Transaction} (h : Batched cfg r) :
    Batched cfg (r.add cfg tx).2 ∧ ∀ p, (r.add cfg tx).1 = some p → Made cfg p := by
  unfold Runner.add
  by_cases hfull : r.size + tx.length > cfg.maxPayloadSize
  · simp only [if_pos hfull]
    refine ⟨⟨Nat.add_comm _ _, ?_⟩, fun p hp => ?_⟩
    · by_cases htx : tx.length ≤ cfg.maxPayloadSize
      · left
        change 0 + tx.length ≤ cfg.maxPayloadSize
        omega
      · exact .inr ⟨tx, List.mem_singleton_self tx, Nat.lt_of_not_le htx⟩
    · cases hp
      exact h.make
  · simp only [if_neg hfull]
    refine ⟨⟨?_, .inl (Nat.le_of_not_lt hfull)⟩, fun p hp => nomatch hp⟩
    simp [h.size]

theorem Batched.answer {r : Runner} (h : Batched cfg r) :
    Batched cfg (r.answer cfg).2 ∧ ∀ p, (r.answer cfg).1 = some p → Made cfg p := by
  refine ⟨batched_new, fun p hp => ?_⟩
  obtain ⟨_, hp⟩ := Option.ite_none_left_eq_some.mp hp
  cases hp
  exact h.make

/-- What holds of a node that takes no `OwnPayload` from the network. -/
structure OwnOnly (cfg : MempoolConfig) (n : Intake) : Prop where
  batched : Batched cfg n.runner
  built : ∀ p ∈ n.built, Made cfg p
  channel : ∀ p, .OwnPayload p ∈ n.channel → p ∈ n.built

theorem ownOnly_new : OwnOnly cfg new :=
  ⟨batched_new, fun _ h => (nomatch h), fun _ h => (nomatch h)⟩

theorem OwnOnly.built_of_taken (h : OwnOnly cfg n) {p : Payload} (hp : n.taken cfg a = some p) :
    p ∈ n.built := by
  unfold taken at hp
  split at hp
  · split at hp
    · rename_i q rest hch
      obtain ⟨_, hp⟩ := Option.ite_none_right_eq_some.mp hp
      cases hp
      exact h.channel p (hch ▸ List.mem_cons_self)
    · cases hp
  · cases hp

theorem OwnOnly.reply (h : OwnOnly cfg n) (tag : ℕ) :
    Batched cfg (n.reply cfg tag).2 ∧ ∀ p, (n.reply cfg tag).1 = some p → Made cfg p := by
  unfold Intake.reply
  split
  · exact h.batched.answer
  · exact ⟨h.batched, fun p hp => nomatch hp⟩

theorem OwnOnly.made_of_drawn (h : OwnOnly cfg n) {p : Payload} (hp : n.drawn cfg a = some p) :
    Made cfg p := by
  cases a with
  | get full order max tag =>
    obtain ⟨_, hp⟩ := Option.ite_none_right_eq_some.mp hp
    exact (h.reply tag).2 p hp
  | _ => cases hp

/-- What the maker builds next is added to what it has built. -/
theorem made_of_mem {made : Option Payload} {l : List Payload} (hl : ∀ p ∈ l, Made cfg p)
    (hm : ∀ p, made = some p → Made cfg p) : ∀ p ∈ made.toList ++ l, Made cfg p := by
  intro p hp
  rcases List.mem_append.mp hp with hp | hp
  · exact hm p (Option.mem_toList.mp hp)
  · exact hl p hp

theorem OwnOnly.act (h : OwnOnly cfg n) (ha : n.act cfg codec a = some n')
    (hd : ∀ p, a ≠ .deliver (.OwnPayload p)) : OwnOnly cfg n' := by
  have hbuilt : n.built ⊆ n'.built := act_built ha
  by_cases hget : ∃ full order max tag, a = .get full order max tag
  · obtain ⟨full, order, max, tag, rfl⟩ := hget
    obtain ⟨_, ha⟩ := Option.ite_none_right_eq_some.mp ha
    cases ha
    exact ⟨(h.reply tag).1, made_of_mem h.built (h.reply tag).2, fun p hp =>
      hbuilt (h.channel p hp)⟩
  · by_cases htx : ∃ tx, a = .transaction tx
    · obtain ⟨tx, rfl⟩ := htx
      cases ha
      refine ⟨h.batched.add.1, made_of_mem h.built h.batched.add.2, fun p hp => ?_⟩
      rcases List.mem_append.mp hp with hp | hp
      · exact hbuilt (h.channel p hp)
      · obtain ⟨q, hq, he⟩ := List.mem_map.mp hp
        cases he
        exact List.mem_append_left _ hq
    · obtain ⟨⟨_, hb, hr⟩, hch⟩ := act_keeps ha
        (fun full order max tag he => hget ⟨full, order, max, tag, he⟩) fun tx he => htx ⟨tx, he⟩
      refine ⟨hr ▸ h.batched, hb ▸ h.built, fun p hp => ?_⟩
      rcases hch _ hp with hp | hp
      · exact hbuilt (h.channel p hp)
      · exact absurd hp (hd p)

/-- Every payload that the node processes as its own is free of transactions above the limit. -/
def Fitting (cfg : MempoolConfig) (n : Intake) (a : Act) : Prop :=
  (∀ p, a ≠ .deliver (.OwnPayload p)) ∧
    ∀ p, n.Processes cfg a p → ∀ tx ∈ p.transactions, tx.length ≤ cfg.maxPayloadSize

/-- What the node stores, broadcasts and offers to consensus is accepted by the other nodes. -/
theorem Runs.acceptable (hname : cfg.name ∈ cfg.authorities)
    (hsign : ∀ k d, Crypto.verify (Crypto.sign k d) d k = true)
    (h : Runs cfg codec (Fitting cfg) n) :
    Vouches (Passes cfg) n ∧ ∀ p, (.Payload p, none) ∈ n.mempool.sent → Passes cfg p := by
  suffices hs : OwnOnly cfg n ∧ Vouches (Payload.Checked cfg) n ∧
      ∀ p, (.Payload p, none) ∈ n.mempool.sent → p.Checked cfg from
    ⟨hs.2.1.mono fun p => passes_of_checked, fun p hp => passes_of_checked (hs.2.2 p hp)⟩
  induction h with
  | new => exact ⟨ownOnly_new, vouches_new, fun _ h => (nomatch h)⟩
  | @act n n' a _ hg ha ih =>
    obtain ⟨ho, hv, hs⟩ := ih
    have hproc : ∀ p, n.Processes cfg a p → p.Checked cfg := by
      intro p hp
      have hmade : Made cfg p := by
        rcases hp with hp | hp
        · exact ho.built p (ho.built_of_taken hp)
        · exact ho.made_of_drawn hp
      exact hmade.checked hname hsign (hg.2 p hp)
    have hadm := act_admits ha (fun p hp => ⟨hproc p hp, hproc p hp⟩) fun p hp => hp
    refine ⟨ho.act ha hg.1, hv.act ha hproc fun p hp => hp, fun p hp => ?_⟩
    exact (hadm.sent p hp).elim (hs p) id

/-! ### Runs that are evaluated -/

/-- Plays the acts one after the other, as long as `check` lets them pass. -/
def play (cfg : MempoolConfig) (codec : Codec) (check : Intake → Act → Bool) : List Act →
    Intake → Option Intake
  | [], n => some n
  | a :: acts, n =>
    if check n a then (n.act cfg codec a).bind (play cfg codec check acts) else none

theorem runs_play {guard : Intake → Act → Prop} {check : Intake → Act → Bool} {acts : List Act}
    (hc : ∀ n a, check n a = true → guard n a) (h : Runs cfg codec guard n)
    (hp : play cfg codec check acts n = some n') : Runs cfg codec guard n' := by
  induction acts generalizing n with
  | nil =>
    cases hp
    exact h
  | cons a acts ih =>
    obtain ⟨hcheck, hp⟩ := Option.ite_none_right_eq_some.mp hp
    obtain ⟨m, hm, hp⟩ := Option.bind_eq_some_iff.mp hp
    exact ih (h.act (hc n a hcheck) hm) hp

/-- A fact about the end of a play that is decided by evaluation. -/
theorem exists_intake (cfg : MempoolConfig) (codec : Codec) {guard : Intake → Act → Prop}
    (check : Intake → Act → Bool) (hc : ∀ n a, check n a = true → guard n a) (acts : List Act)
    (p : Intake → Prop) [DecidablePred p] (h : (play cfg codec check acts new).any (p ·) = true) :
    ∃ n, Runs cfg codec guard n ∧ p n := by
  cases hp : play cfg codec check acts new with
  | none =>
    rw [hp] at h
    cases h
  | some n =>
    rw [hp] at h
    exact ⟨n, runs_play hc .new hp, of_decide_eq_true h⟩

/-- The act delivers no `OwnPayload`. -/
def fromPeers : Act → Bool
  | .deliver (.OwnPayload _) => false
  | _ => true

theorem ne_of_fromPeers (h : fromPeers a = true) (p : Payload) : a ≠ .deliver (.OwnPayload p) := by
  rintro rfl
  cases h

end Intake

end Intake

/-- A node whose payloads have at most three bytes, and that never reads a block as a payload. -/
def smallMempool : MempoolConfig := ⟨0, [0, 1, 2, 3], 10, 3⟩

def plainCodec : Codec := ⟨fun _ => none, fun _ => none⟩

/-- Two transactions that do not fit into one payload: the first one is stored in one of its own. -/
def toPayload : List Intake.Act := [.transaction [1, 2], .transaction [3, 4], .take false]

def fittingPayload : Payload := Payload.new [[1, 2]] 0

def fits (n : Intake) (a : Intake.Act) : Bool :=
  Intake.fromPeers a && ((n.taken smallMempool a).all (·.transactions.all (·.length ≤ 3)) &&
    (n.drawn smallMempool a).all (·.transactions.all (·.length ≤ 3)))

theorem fitting_of_fits (n : Intake) (a : Intake.Act) (h : fits n a = true) :
    Intake.Fitting smallMempool n a := by
  obtain ⟨hp, h⟩ := Bool.and_eq_true_iff.mp h
  obtain ⟨ht, hd⟩ := Bool.and_eq_true_iff.mp h
  refine ⟨Intake.ne_of_fromPeers hp, fun p hp tx htx => ?_⟩
  rcases hp with hp | hp
  · rw [hp] at ht
    exact of_decide_eq_true (List.all_eq_true.mp ht tx htx)
  · rw [hp] at hd
    exact of_decide_eq_true (List.all_eq_true.mp hd tx htx)

theorem acceptable_toPayload : ∃ n : Intake,
    n.mempool.store.get fittingPayload.digest = some (.payload fittingPayload) ∧
      Intake.Vouches (Intake.Passes smallMempool) n ∧
      ∀ p, (.Payload p, none) ∈ n.mempool.sent → Intake.Passes smallMempool p := by
  obtain ⟨n, hr, hs⟩ := Intake.exists_intake smallMempool plainCodec fits fitting_of_fits toPayload
    (fun n => n.mempool.store.get fittingPayload.digest = some (.payload fittingPayload))
    (by decide +kernel)
  exact ⟨n, hs, Intake.Runs.acceptable (by decide) (fun k d => decide_eq_true rfl) hr⟩

/-- A transaction of four bytes, and one that makes the maker build a payload of it. -/
def toLongPayload : List Intake.Act :=
  [.transaction [1, 2, 3, 4], .transaction [5], .take false, .take false]

def longPayload : Payload := Payload.new [[1, 2, 3, 4]] 0

/-- The node stores and broadcasts a payload that every other node rejects. -/
theorem not_acceptable_toLongPayload :
    ¬ ∀ (cfg : MempoolConfig) (codec : Codec) (n : Intake), cfg.name ∈ cfg.authorities →
      Intake.Runs cfg codec (fun _ a => ∀ p, a ≠ .deliver (.OwnPayload p)) n →
      Intake.Vouches (Intake.Passes cfg) n ∧
        ∀ p, (.Payload p, none) ∈ n.mempool.sent → Intake.Passes cfg p := by
  intro h
  obtain ⟨n, hr, hs, hb⟩ := Intake.exists_intake smallMempool plainCodec
    (fun _ a => Intake.fromPeers a)
    (fun _ _ => Intake.ne_of_fromPeers) toLongPayload
    (fun n => n.mempool.store.get longPayload.digest = some (.payload longPayload) ∧
      (.Payload longPayload, none) ∈ n.mempool.sent) (by decide +kernel)
  have hp := (h smallMempool plainCodec n (by decide) hr).2 longPayload hb
    ⟨1, [0, 1, 2, 3], 10, 3⟩ .new rfl rfl
  revert hp
  decide +kernel

/-- A stranger's payload under a signature of its own making. -/
def forgedPayload : Payload := ⟨[[1, 2, 3, 4]], 9, (9, 0)⟩

def admits (n : Intake) (a : Intake.Act) : Bool :=
  (n.taken smallMempool a).all fun p => p ∈ n.built

theorem takesAdmitted_of_admits (n : Intake) (a : Intake.Act) (h : admits n a = true) :
    Intake.TakesAdmitted smallMempool n a := by
  intro p hp
  unfold admits at h
  rw [hp] at h
  exact .inl (of_decide_eq_true h)

/-- Only what the maker has built is taken as an own payload. -/
theorem vouches_admitted_toPayload : ∃ n : Intake,
    n.mempool.store.get fittingPayload.digest = some (.payload fittingPayload) ∧
      Intake.Vouches (Intake.Admitted smallMempool n) n := by
  obtain ⟨n, hr, hs⟩ := Intake.exists_intake smallMempool plainCodec admits
    takesAdmitted_of_admits toPayload
    (fun n => n.mempool.store.get fittingPayload.digest = some (.payload fittingPayload))
    (by decide +kernel)
  exact ⟨n, hs, Intake.Runs.vouches_admitted hr⟩

/-- The node takes it as a payload of its own. -/
theorem not_vouches_forgedPayload :
    ¬ ∀ (cfg : MempoolConfig) (codec : Codec) (n : Intake), Intake.Runs cfg codec
    (fun _ _ => True) n →
      Intake.Vouches (Intake.Admitted cfg n) n := by
  intro h
  obtain ⟨n, hr, hs, hb⟩ := Intake.exists_intake smallMempool plainCodec (fun _ _ => true)
    (fun _ _ _ => trivial) [.deliver (.OwnPayload forgedPayload), .take false]
    (fun n => n.mempool.store.get forgedPayload.digest = some
      (.payload forgedPayload) ∧ n.built = [])
    (by decide +kernel)
  rcases ((h _ _ n hr).stored _ _ hs).2 with hp | hp
  · rw [hb] at hp
    cases hp
  · exact absurd hp.author (by decide)

end Ipotane
