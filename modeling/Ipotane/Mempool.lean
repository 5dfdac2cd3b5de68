import Ipotane.Messages
import Ipotane.Lib.Map
import Ipotane.Lib.Handler

/-! The mempool (`mempool/src`) and the store that it shares with the core (`store/src/lib.rs`). -/
namespace Ipotane

open Lib Handler

variable [Crypto]

/-! ### Payloads -/

abbrev Transaction := List UInt8

structure Payload where
  transactions : List Transaction
  author : PublicKey
  signature : Signature
deriving DecidableEq

namespace Payload

def digest (p : Payload) : Digest := sha512 (p.author.bytes ++ p.transactions.flatten)

def new (transactions : List Transaction) (author : PublicKey) : Payload :=
  let payload : Payload := ⟨transactions, author, default⟩
  { payload with signature := Crypto.sign author payload.digest }

def size (p : Payload) : ℕ := (p.transactions.map List.length).sum

end Payload

/-- The committee of the mempool is the list of its names. -/
structure MempoolConfig where
  name : PublicKey
  authorities : List PublicKey
  queueCapacity : ℕ
  maxPayloadSize : ℕ

inductive MempoolMessage
  | OwnPayload (payload : Payload)
  | Payload (payload : Payload)
  | PayloadRequest (digests : List Digest) (requestor : PublicKey)
deriving DecidableEq

inductive MempoolError
  | UnknownAuthority (author : PublicKey)
  | InvalidSignature
  | SerializationError
  | PayloadTooBig
  | MempoolFull
  | NotInCommittee (name : PublicKey)
deriving DecidableEq

/-- `expect("Failed to send payload sync request")`. -/
inductive MempoolPanic
  | unsentRequest
deriving DecidableEq

/-! ### The store -/

/-- The store keeps bytes; payloads and blocks are written to it under their digests. -/
inductive Stored
  | payload (p : Payload)
  | block (b : Block)
deriving DecidableEq

abbrev Store := Map Digest Stored

/-- What `bincode::deserialize` makes of the bytes of one kind where the other is expected. -/
structure Codec where
  readBlock : Payload → Option Block
  readPayload : Block → Option Payload

namespace Codec

variable (c : Codec)

def block : Stored → Option Block
  | .block b => some b
  | .payload p => c.readBlock p

def payload : Stored → Option Payload
  | .payload p => some p
  | .block b => c.readPayload b

/-- The blocks that the core finds in the store. -/
def blocks (store : Store) : Map Digest Block := fun d => (store.get d).bind c.block

end Codec

/-! ### The tasks of the mempool -/

inductive SynchronizerMessage
  | Sync (missing : List Digest) (block : Block) (tag : ℕ)
  | Clean (round : ℕ)
deriving DecidableEq

/-- A future of the synchronizer, which waits for payloads until it is cancelled. -/
structure Waiter where
  missing : List Digest
  block : Block
  tag : ℕ
  cancelled : Bool
deriving DecidableEq

instance : LawfulBEq Waiter := inferInstance

/-- The store, the state of the mempool's core, the channel to its synchronizer and the state
of that; `sent` is what has been given to the network. -/
structure Mempool where
  store : Store
  optQueue : List Digest
  pesQueue : List Digest
  inner : List SynchronizerMessage
  waiting : List Waiter
  pending : List (Digest × ℕ)
  requests : List (Digest × ℕ)
  sent : List (MempoolMessage × Option PublicKey)

namespace Mempool

def new : Mempool := ⟨.empty, [], [], [], [], [], [], []⟩

abbrev Task (α : Type) := Handler Mempool MempoolError MempoolPanic α

def ensureM (cond : Prop) [Decidable cond] (e : MempoolError) : Task Unit :=
  if cond then pure () else fail e

variable (cfg : MempoolConfig)

/-- `Synchronizer::transmit`; a broadcast needs no lookup. -/
def transmit (m : MempoolMessage) (dest : Option PublicKey) : Task Unit := do
  ensureM (dest.all (· ∈ cfg.authorities) = true) (.NotInCommittee (dest.getD 0))
  update fun s => { s with sent := (m, dest) :: s.sent }

def write (digest : Digest) (x : Stored) : Task Unit :=
  update fun s => { s with store := s.store.insert digest x }

/-! ### `mempool/src/core.rs` -/

/-- `full` tells whether a queue has reached the capacity that its table has grown to. -/
def processOwnPayload (full : Bool) (digest : Digest) (payload : Payload) : Task Unit := do
  ensureM (full = false) .MempoolFull
  write digest (.payload payload)
  transmit cfg (.Payload payload) none

def enqueue (digest : Digest) : Task Unit :=
  update fun s => { s with
    optQueue := s.optQueue.insert digest
    pesQueue := s.pesQueue.insert digest }

def handleOwnPayload (full : Bool) (payload : Payload) : Task Unit := do
  let s ← self
  ensureM (s.optQueue.length < cfg.queueCapacity) .MempoolFull
  processOwnPayload cfg full payload.digest payload
  enqueue payload.digest

def handleOthersPayload (payload : Payload) : Task Unit := do
  ensureM (payload.author ∈ cfg.authorities) (.UnknownAuthority payload.author)
  ensureM (payload.size ≤ cfg.maxPayloadSize) .PayloadTooBig
  ensureM (Crypto.verify payload.signature payload.digest payload.author = true) .InvalidSignature
  write payload.digest (.payload payload)
  enqueue payload.digest

def handleRequest (codec : Codec) (requestor : PublicKey) : List Digest → Task Unit
  | [] => pure ()
  | digest :: digests => do
    let s ← self
    match s.store.get digest with
    | none => pure ()
    | some x =>
      match codec.payload x with
      | none => fail .SerializationError
      | some payload => transmit cfg (.Payload payload) (some requestor)
    handleRequest codec requestor digests

/-- The match on the channel of the mempool's core. -/
def handle (codec : Codec) (full : Bool) : MempoolMessage → Task Unit
  | .OwnPayload payload => handleOwnPayload cfg full payload
  | .Payload payload => handleOthersPayload cfg payload
  | .PayloadRequest digests requestor => handleRequest cfg codec requestor digests

/-- `Digest::size`. -/
def digestSize : ℕ := 32

/-- `get_payload`: `made` is what the payload maker answers, `order` lists the queue as its
iterator does. -/
def getPayload (full : Bool) (made : Option Payload) (order : List Digest) (max tag : ℕ) :
    Task (List Digest) := do
  let s ← self
  if (tag = OPT ∧ s.optQueue = []) ∨ (tag = PES ∧ s.pesQueue = []) then
    match made with
    | some payload => do
      processOwnPayload cfg full payload.digest payload
      pure [payload.digest]
    | none => pure []
  else do
    let digests := order.take (max / digestSize)
    if tag = OPT then
      update fun s => { s with optQueue := s.optQueue.filter (· ∉ digests) }
    else
      update fun s => { s with pesQueue := s.pesQueue.filter (· ∉ digests) }
    pure digests

/-- `verify_payload`: a block whose payload is not there goes to the synchronizer. -/
def verifyPayload (block : Block) (tag : ℕ) : Task Bool := do
  let s ← self
  let missing := (block.payload.filter fun d => !s.store.contains d).dedup
  if missing = [] then pure true
  else do
    update fun s => { s with inner := s.inner ++ [.Sync missing block tag] }
    pure false

def cleanup (digests : List Digest) (round : ℕ) : Task Unit :=
  update fun s => { s with
    inner := s.inner ++ [.Clean round]
    optQueue := s.optQueue.filter (· ∉ digests)
    pesQueue := s.pesQueue.filter (· ∉ digests) }

/-! ### `mempool/src/synchronizer.rs` -/

/-- The `Sync` arm. -/
def sync (missing : List Digest) (block : Block) (tag : ℕ) : Task Unit := do
  let s ← self
  if hasKey block.digest s.pending then pure ()
  else do
    update fun s => { s with
      pending := put block.digest block.height s.pending
      waiting := s.waiting ++ [⟨missing, block, tag, false⟩] }
    let missing := missing.filter fun d => !hasKey d s.requests
    when (missing ≠ []) do
      update fun s => { s with
        requests := missing.foldl (fun l d => put d block.height l) s.requests }
      expect .unsentRequest (transmit cfg (.PayloadRequest missing cfg.name) (some block.author))

/-- The `Clean` arm: the handlers of the rounds up to `round` are told to give up. -/
def clean (round : ℕ) : Task Unit :=
  update fun s => { s with
    waiting := s.waiting.map fun w =>
      if s.pending.any (fun p => p.1 = w.block.digest ∧ p.2 ≤ round)
        then { w with cancelled := true }
      else w
    pending := s.pending.filter fun p => p.2 > round
    requests := s.requests.filter fun p => p.2 > round }

/-- A turn of the synchronizer that takes a message. -/
def takeInner : SynchronizerMessage → Task Unit
  | .Sync missing block tag => sync cfg missing block tag
  | .Clean round => clean round

/-- The message that brings a block back to the core. -/
def loopbackOf (block : Block) (tag : ℕ) : ConsensusMessage :=
  if tag = OPT then .HsLoopBack block
  else if tag = PES then .ParLoopBack block
  else .FBLoopBack block

/-- What the synchronizer does once a waiter has all its payloads. The sender to a handler is in
the pending entry: with that gone, the handler gives up. -/
def finishWaiter (w : Waiter) : Task ConsensusMessage := do
  update fun s => { s with
    waiting := (s.waiting.erase w).map fun v =>
      if v.block.digest = w.block.digest then { v with cancelled := true } else v
    pending := s.pending.filter fun p => p.1 ≠ w.block.digest
    requests := s.requests.filter fun p => p.1 ∉ w.block.payload }
  pure (loopbackOf w.block w.tag)

/-! ### What the tasks keep -/

section Keeps

variable {cfg : MempoolConfig} {codec : Codec} {m t : Mempool} {b : Block}
  {missing : List Digest} {full : Bool}

/-- A digest of the payload that is not in the store is among the missing ones. -/
def Covers (store : Store) (missing : List Digest) (b : Block) : Prop :=
  ∀ d ∈ b.payload, d ∈ missing ∨ store.contains d = true

structure Sound (m : Mempool) : Prop where
  queued : ∀ d, d ∈ m.optQueue ∨ d ∈ m.pesQueue → m.store.contains d = true
  inner : ∀ missing b tag, .Sync missing b tag ∈ m.inner → Covers m.store missing b
  waiting : ∀ w ∈ m.waiting, Covers m.store w.missing w.block

/-- The store keeps its keys and gets no block, the rest stays sound. -/
structure Advances (m t : Mempool) : Prop where
  keys : ∀ d, m.store.contains d = true → t.store.contains d = true
  blocks : ∀ d b, t.store.get d = some (.block b) → m.store.get d = some (.block b)
  sound : m.Sound → t.Sound

theorem Covers.mono {store store' : Store} (h : Covers store missing b)
    (hk : ∀ d, store.contains d = true → store'.contains d = true) : Covers store' missing b :=
  fun d hd => (h d hd).imp id (hk d)

theorem advances_refl : Advances m m := ⟨fun _ => id, fun _ _ => id, id⟩

theorem Advances.trans {u : Mempool} (h : Advances m t) (h' : Advances t u) : Advances m u where
  keys d hd := h'.keys d (h.keys d hd)
  blocks d b hb := h.blocks d b (h'.blocks d b hb)
  sound hs := h'.sound (h.sound hs)

theorem advances_of_moves {α : Type} {x : Task α} (h : Moves Advances m x) :
    Advances m (x m).2 := by
  unfold Moves at h
  generalize (x m).2 = t at h ⊢
  induction h with
  | refl => exact advances_refl
  | tail _ h ih => exact ih.trans h

/-- A change that leaves the store as it is. -/
theorem advances_of_store (hs : t.store = m.store) (h : m.Sound → t.Sound) : Advances m t where
  keys d hd := by rwa [hs]
  blocks d b hb := by rwa [← hs]
  sound := h

/-- New keys do no harm. -/
theorem Sound.store (h : m.Sound) {store : Store}
    (hk : ∀ d, m.store.contains d = true → store.contains d = true) :
    ({ m with store := store } : Mempool).Sound where
  queued d hd := hk d (h.queued d hd)
  inner missing b tag hm := (h.inner missing b tag hm).mono hk
  waiting w hw := (h.waiting w hw).mono hk

theorem contains_insert {d d' : Digest} {x : Stored} (h : m.store.contains d = true) :
    (m.store.insert d' x).contains d = true := by
  rw [Map.contains, Map.get_insert]
  split
  · rfl
  · exact h

theorem contains_insert_self {store : Store} {d : Digest} {x : Stored} :
    (store.insert d x).contains d = true := by
  rw [Map.contains, Map.get_insert_self]
  rfl

theorem write_store (d : Digest) (x : Stored) :
    (Mempool.write d x m).2.store = m.store.insert d x := rfl

theorem Sound.write (h : m.Sound) (d : Digest) (x : Stored) : (Mempool.write d x m).2.Sound :=
  h.store fun _ => contains_insert

theorem advances_payload (d : Digest) (p : Payload) :
    Advances m { m with store := m.store.insert d (.payload p) } where
  keys _ := contains_insert
  blocks d' b hb := by
    rw [Map.get_insert] at hb
    split at hb
    · cases hb
    · exact hb
  sound h := h.store fun _ => contains_insert

theorem reads_ensure (p : Prop) [Decidable p] (e : MempoolError) : Reads (Mempool.ensureM p e) :=
  reads_ite (reads_pure ()) (reads_fail e)

theorem moves_transmit (x : MempoolMessage) (dest : Option PublicKey) :
    Moves Advances m (transmit cfg x dest) := by
  refine moves_reads_bind (reads_ensure _ _) fun _ _ => moves_update ?_
  exact advances_of_store rfl fun h => ⟨h.queued, h.inner, h.waiting⟩

theorem moves_processOwnPayload (d : Digest) (p : Payload) :
    Moves Advances m (processOwnPayload cfg full d p) := by
  refine moves_reads_bind (reads_ensure _ _) fun _ _ => ?_
  refine moves_bind (moves_update (advances_payload d p)) fun _ _ _ => ?_
  exact moves_transmit _ _

theorem transmit_store {x : MempoolMessage} {dest : Option PublicKey} {u : Unit}
    (h : transmit cfg x dest m = (.ok u, t)) : t.store = m.store := by
  obtain ⟨_, s, h₁, h₂⟩ := bind_ok h
  cases (reads_ensure _ _).eq h₁
  cases h₂
  rfl

/-- An own payload is in the store afterwards. -/
theorem processOwnPayload_contains {d : Digest} {p : Payload} {u : Unit}
    (h : processOwnPayload cfg full d p m = (.ok u, t)) : t.store.contains d = true := by
  obtain ⟨_, s, h₁, h⟩ := bind_ok h
  obtain ⟨_, s', h₂, h₃⟩ := bind_ok h
  cases h₂
  rw [transmit_store h₃]
  exact contains_insert_self

theorem advances_enqueue {d : Digest} (h : m.store.contains d = true) :
    Advances m { m with
      optQueue := m.optQueue.insert d
      pesQueue := m.pesQueue.insert d } := by
  refine advances_of_store rfl fun hs => ⟨fun d' hd => ?_, hs.inner, hs.waiting⟩
  simp only [List.mem_insert_iff] at hd
  rcases hd with (rfl | hd) | rfl | hd
  · exact h
  · exact hs.queued d' (.inl hd)
  · exact h
  · exact hs.queued d' (.inr hd)

theorem moves_handleOwnPayload (p : Payload) :
    Moves Advances m (handleOwnPayload cfg full p) := by
  refine moves_self_bind ?_
  refine moves_reads_bind (reads_ensure _ _) fun _ _ => ?_
  refine moves_bind (moves_processOwnPayload _ _) fun _ _ h => ?_
  exact moves_update (advances_enqueue (processOwnPayload_contains h))

theorem moves_handleOthersPayload (p : Payload) : Moves Advances m (handleOthersPayload cfg p) := by
  refine moves_reads_bind (reads_ensure _ _) fun _ _ => ?_
  refine moves_reads_bind (reads_ensure _ _) fun _ _ => ?_
  refine moves_reads_bind (reads_ensure _ _) fun _ _ => ?_
  refine moves_bind (moves_update (advances_payload _ _)) fun _ _ h => ?_
  cases h
  exact moves_update (advances_enqueue contains_insert_self)

theorem moves_handleRequest (requestor : PublicKey) (digests : List Digest) :
    ∀ m, Moves Advances m (handleRequest cfg codec requestor digests) := by
  induction digests with
  | nil => exact fun m => moves_pure ()
  | cons digest digests ih =>
    intro m
    refine moves_self_bind ?_
    dsimp only
    split
    · exact ih m
    · split
      · exact moves_bind (moves_fail _) fun _ t _ => ih t
      · exact moves_bind (moves_transmit _ _) fun _ t _ => ih t

theorem handle_advances (full : Bool) (x : MempoolMessage) :
    Advances m (handle cfg codec full x m).2 := by
  refine advances_of_moves ?_
  cases x with
  | OwnPayload p => exact moves_handleOwnPayload p
  | Payload p => exact moves_handleOthersPayload p
  | PayloadRequest digests requestor => exact moves_handleRequest _ _ m

/-- The queues may only shrink. -/
theorem advances_of_queues (hs : t.store = m.store) (ho : t.optQueue ⊆ m.optQueue)
    (hp : t.pesQueue ⊆ m.pesQueue) (hi : t.inner = m.inner) (hw : t.waiting = m.waiting) :
    Advances m t := by
  refine advances_of_store hs fun h => ⟨?_, ?_, ?_⟩
  · intro d hd
    rw [hs]
    exact h.queued d (hd.imp (ho ·) (hp ·))
  · rw [hi, hs]
    exact h.inner
  · rw [hw, hs]
    exact h.waiting

theorem moves_getPayload {made : Option Payload} {order : List Digest} {max tag : ℕ} :
    Moves Advances m (getPayload cfg full made order max tag) := by
  refine moves_self_bind (moves_ite (fun _ => ?_) fun _ => ?_)
  · cases made with
    | none => exact moves_pure []
    | some p => exact moves_bind (moves_processOwnPayload _ _) fun _ _ _ => moves_pure _
  · refine moves_ite (fun _ => moves_update_bind ?_ (moves_pure _)) fun _ =>
      moves_update_bind ?_ (moves_pure _)
    · exact advances_of_queues rfl (List.filter_subset_self _) (List.Subset.refl _) rfl rfl
    · exact advances_of_queues rfl (List.Subset.refl _) (List.filter_subset_self _) rfl rfl

/-- The payload that a block is given is in the store. -/
theorem getPayload_contains {made : Option Payload} {order digests : List Digest} {max tag : ℕ}
    (hs : m.Sound) (hp : order.Perm (if tag = OPT then m.optQueue else m.pesQueue))
    (h : getPayload cfg full made order max tag m = (.ok digests, t)) :
    ∀ d ∈ digests, t.store.contains d = true := by
  have hadv : Advances m t := by
    have hmoves : Moves Advances m (getPayload cfg full made order max tag) := moves_getPayload
    have hadv := advances_of_moves hmoves
    rwa [h] at hadv
  obtain ⟨s, s', h₁, h⟩ := bind_ok h
  cases h₁
  split at h
  · cases made with
    | none =>
      cases h
      exact fun d hd => nomatch hd
    | some p =>
      obtain ⟨_, u, h₂, h₃⟩ := bind_ok h
      cases h₃
      intro d hd
      cases List.mem_singleton.mp hd
      exact processOwnPayload_contains h₂
  · have hd : digests = order.take (max / digestSize) := by
      dsimp only at h
      split at h <;>
      · obtain ⟨_, u, h₂, h₃⟩ := bind_ok h
        cases h₃
        rfl
    intro d hmem
    refine hadv.keys d (hs.queued d ?_)
    have hmem := hp.subset (List.mem_of_mem_take (hd ▸ hmem))
    split at hmem
    · exact .inl hmem
    · exact .inr hmem

theorem verifyPayload_accept {tag : ℕ} (h : (verifyPayload b tag m).1 = .ok true) :
    ∀ d ∈ b.payload, m.store.contains d = true := by
  intro d hd
  by_contra hn
  have hmem : d ∈ (b.payload.filter fun d => !m.store.contains d).dedup := by
    exact List.mem_dedup.mpr (List.mem_filter.mpr ⟨hd, by simpa using hn⟩)
  have hne : (b.payload.filter fun d => !m.store.contains d).dedup ≠ [] :=
    List.ne_nil_of_mem hmem
  have hrun : verifyPayload b tag m = (.ok false, { m with
      inner := m.inner ++ [.Sync (b.payload.filter fun d => !m.store.contains d).dedup
        b tag] }) := by
    unfold verifyPayload
    rw [bind_run (x := self) rfl, if_neg hne]
    rfl
  rw [hrun] at h
  cases h

theorem verifyPayload_advances {tag : ℕ} : Advances m (verifyPayload b tag m).2 := by
  refine advances_of_moves (moves_self_bind (moves_ite (fun _ => moves_pure _) fun _ => ?_))
  refine moves_update_bind ?_ (moves_pure _)
  refine advances_of_store rfl fun hs => ⟨hs.queued, fun missing c n hm => ?_, hs.waiting⟩
  rcases List.mem_append.mp hm with hm | hm
  · exact hs.inner missing c n hm
  · cases List.mem_singleton.mp hm
    intro d hd
    by_cases hk : m.store.contains d = true
    · exact .inr hk
    · exact .inl (List.mem_dedup.mpr (List.mem_filter.mpr ⟨hd, by simpa using hk⟩))

theorem cleanup_advances {digests : List Digest} {round : ℕ} :
    Advances m (cleanup digests round m).2 := by
  refine advances_of_store rfl fun hs => ⟨fun d hd => ?_, fun missing c n hm => ?_, hs.waiting⟩
  · exact hs.queued d (hd.imp List.mem_of_mem_filter List.mem_of_mem_filter)
  · rcases List.mem_append.mp hm with hm | hm
    · exact hs.inner missing c n hm
    · cases List.mem_singleton.mp hm

theorem sync_advances {tag : ℕ} (h : Covers m.store missing b) :
    Advances m (sync cfg missing b tag m).2 := by
  refine advances_of_moves (moves_self_bind (moves_ite (fun _ => moves_pure _) fun _ => ?_))
  refine moves_update_bind ?_ (moves_ite (fun _ => moves_update_bind ?_ ?_) fun _ => moves_pure ())
  · refine advances_of_store rfl fun hs => ⟨hs.queued, hs.inner, fun w hw => ?_⟩
    rcases List.mem_append.mp hw with hw | hw
    · exact hs.waiting w hw
    · cases List.mem_singleton.mp hw
      exact h
  · exact advances_of_store rfl fun hs => ⟨hs.queued, hs.inner, hs.waiting⟩
  · exact moves_expect (moves_transmit _ _)

theorem clean_advances {round : ℕ} : Advances m (clean round m).2 := by
  refine advances_of_store rfl fun hs => ⟨hs.queued, hs.inner, fun w hw => ?_⟩
  obtain ⟨w₀, hw₀, rfl⟩ := List.mem_map.mp hw
  have h := hs.waiting w₀ hw₀
  split <;> exact h

theorem takeInner_advances {x : SynchronizerMessage} {rest : List SynchronizerMessage}
    (hi : m.inner = x :: rest) :
    m.Sound → Advances m (takeInner cfg x { m with inner := rest }).2 := by
  intro hs
  have hrest : Advances m { m with inner := rest } := by
    refine advances_of_store rfl fun hs => ⟨hs.queued, fun missing c n hm => ?_, hs.waiting⟩
    exact hs.inner missing c n (hi ▸ List.mem_cons_of_mem _ hm)
  refine hrest.trans ?_
  cases x with
  | Sync missing c tag => exact sync_advances (hs.inner missing c tag (hi ▸ List.mem_cons_self))
  | Clean round => exact clean_advances

theorem advances_waiting {waiting : List Waiter} {pending requests : List (Digest × ℕ)}
    (hw : waiting ⊆ m.waiting) :
    Advances m { m with waiting := waiting, pending := pending, requests := requests } :=
  advances_of_store rfl fun hs => ⟨hs.queued, hs.inner, fun w h => hs.waiting w (hw h)⟩

theorem finishWaiter_eq {w : Waiter} {x : ConsensusMessage} (h : finishWaiter w m = (.ok x, t)) :
    x = loopbackOf w.block w.tag ∧ Advances m t := by
  cases h
  refine ⟨rfl, advances_of_store rfl fun hs => ⟨hs.queued, hs.inner, fun v hv => ?_⟩⟩
  obtain ⟨v₀, hv₀, rfl⟩ := List.mem_map.mp hv
  have h := hs.waiting v₀ (List.mem_of_mem_erase hv₀)
  split <;> exact h

end Keeps

end Mempool

end Ipotane
