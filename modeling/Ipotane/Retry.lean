import Ipotane.Intake

/-! The requests for the payloads of suspended blocks: how long the synchronizer of the mempool
keeps asking. -/
namespace Ipotane

open Lib Handler

section Retry

variable [Crypto]

namespace Mempool

variable (cfg : MempoolConfig)

/-- The timer of the synchronizer: the requests for the digests in `stale` are older than
`sync_retry_delay`. -/
def retry (stale : List Digest) : Task Unit := do
  let s ← self
  let retransmit := (s.requests.map Prod.fst).filter (· ∈ stale)
  when (retransmit ≠ []) do
    expect .unsentRequest (transmit cfg (.PayloadRequest retransmit cfg.name) none)

/-- A message is put into the channel of the synchronizer, the synchronizer makes a turn, or a task
writes to the store. -/
inductive Turn
  | verify (b : Block) (tag : ℕ)
  | cleanup (digests : List Digest) (round : ℕ)
  | write (digest : Digest) (x : Stored)
  | take
  | finish (w : Waiter)
  | drop (w : Waiter)
  | tick (stale : List Digest)

def turn (m : Mempool) : Turn → Option Mempool
  | .verify b tag => some (verifyPayload b tag m).2
  | .cleanup digests round => some (Mempool.cleanup digests round m).2
  | .write digest x => some (Mempool.write digest x m).2
  | .take =>
    match m.inner with
    | [] => none
    | x :: rest =>
      match takeInner cfg x { m with inner := rest } with
      | (.ok (), t) => some t
      | _ => none
  | .finish w =>
    if w ∈ m.waiting ∧ ∀ d ∈ w.missing, m.store.contains d = true then some (finishWaiter w m).2
    else none
  | .drop w =>
    if w ∈ m.waiting ∧ w.cancelled = true then some
      { m with waiting := m.waiting.erase w } else none
  | .tick stale => some (retry cfg stale m).2

/-- The state after some turns. -/
def turns (m : Mempool) : List Turn → Option Mempool
  | [] => some m
  | x :: xs => (m.turn cfg x).bind fun t => t.turns xs

/-- The waiter of a pending block. -/
structure WaitsFor (m : Mempool) (w : Waiter) (p : Digest × ℕ) : Prop where
  waits : w ∈ m.waiting
  holds : w.cancelled = false
  block : w.block.digest = p.1

/-- A digest that the timer asks for again. -/
structure Asked (m : Mempool) (d : Digest) : Prop where
  requested : hasKey d m.requests = true
  retried : ∀ stale, d ∈ stale → ∃ digests, d ∈ digests ∧
    (.PayloadRequest digests cfg.name, none) ∈ (retry cfg stale m).2.sent

/-- Every pending block has a waiter, and what that waits for is asked for. -/
def KeepsAsking (m : Mempool) : Prop :=
  ∀ p ∈ m.pending, (∃ w, m.WaitsFor w p) ∧
    ∀ w, m.WaitsFor w p → ∀ d ∈ w.missing, m.store.contains d = false → m.Asked cfg d

/-- No block above `round` waits for a payload that is requested under a height up to `round`
only. -/
def Spares (m : Mempool) (round : ℕ) : Prop :=
  ∀ p ∈ m.pending, round < p.2 → ∀ w, m.WaitsFor w p → ∀ d ∈ w.missing,
    m.store.contains d = false → ∃ q ∈ m.requests, q.1 = d ∧ round < q.2

/-- A clean-up that the synchronizer takes spares the requests of the blocks it keeps. -/
def Sparing (m : Mempool) : Turn → Prop
  | .take => ∀ round, m.inner.head? = some (.Clean round) → m.Spares round
  | _ => True

variable {cfg} {m t : Mempool}

/-- The waiters that have not been cancelled are those of the pending blocks. -/
structure Paired (m : Mempool) : Prop where
  sound : m.Sound
  nodup : (m.pending.map Prod.fst).Nodup
  waiter : ∀ p ∈ m.pending, ∃ w, m.WaitsFor w p
  entry : ∀ w ∈ m.waiting, w.cancelled = false → (w.block.digest, w.block.height) ∈ m.pending

/-! ### The timer -/

theorem retry_sent {stale : List Digest} (h : (m.requests.map Prod.fst).filter (· ∈ stale) ≠ []) :
    (retry cfg stale m).2.sent =
      (.PayloadRequest ((m.requests.map Prod.fst).filter (· ∈ stale)) cfg.name,
        none) :: m.sent := by
  unfold retry
  rw [bind_run (x := self) rfl]
  unfold when
  rw [if_pos h]
  rfl

theorem asked_of_hasKey {d : Digest} (h : hasKey d m.requests = true) : m.Asked cfg d := by
  refine ⟨h, fun stale hd => ?_⟩
  have hmem : d ∈ (m.requests.map Prod.fst).filter (· ∈ stale) :=
    List.mem_filter.mpr ⟨hasKey_iff.mp h, decide_eq_true hd⟩
  refine ⟨_, hmem, ?_⟩
  rw [retry_sent (List.ne_nil_of_mem hmem)]
  exact List.mem_cons_self

/-- Nothing changes but what has been given to the network. -/
def OnlySends (m t : Mempool) : Prop := ∃ sent, t = { m with sent := sent }

theorem onlySends_transmit (x : MempoolMessage) (dest : Option PublicKey) :
    m.OnlySends (transmit cfg x dest m).2 := by
  unfold transmit Mempool.ensureM
  split
  · exact ⟨(x, dest) :: m.sent, rfl⟩
  · exact ⟨m.sent, rfl⟩

theorem onlySends_request (x : MempoolMessage) (dest : Option PublicKey) (p : MempoolPanic) :
    m.OnlySends (expect p (transmit cfg x dest) m).2 := by
  have h : m.OnlySends (transmit cfg x dest m).2 := onlySends_transmit x dest
  unfold expect
  split
  · rename_i hx
    rwa [hx] at h
  · exact h

theorem onlySends_retry (cfg : MempoolConfig) (m : Mempool) (stale : List Digest) :
    m.OnlySends (retry cfg stale m).2 := by
  unfold retry
  rw [bind_run (x := self) rfl]
  unfold when
  split
  · exact onlySends_request _ _ _
  · exact ⟨m.sent, rfl⟩

/-! ### The waiters and the pending blocks -/

/-- Whatever a handler that has not been cancelled waits for is requested or in the store. -/
def Requested (m : Mempool) : Prop :=
  ∀ w ∈ m.waiting, w.cancelled = false → ∀ d ∈ w.missing, m.store.contains d = false →
    hasKey d m.requests = true

theorem Paired.height (h : Paired m) {w : Waiter} {p : Digest × ℕ} (hp : p ∈ m.pending)
    (hw : m.WaitsFor w p) : p.2 = w.block.height := by
  have hentry := h.entry w hw.waits hw.holds
  exact congrArg Prod.snd (List.inj_on_of_nodup_map h.nodup hp hentry hw.block.symm)

theorem Paired.keepsAsking_iff (h : Paired m) : m.KeepsAsking cfg ↔ m.Requested := by
  constructor
  · intro hk w hw hc d hd hs
    have hentry := h.entry w hw hc
    exact ((hk _ hentry).2 w ⟨hw, hc, rfl⟩ d hd hs).requested
  · intro hr p hp
    refine ⟨h.waiter p hp, fun w hw d hd hs => ?_⟩
    exact asked_of_hasKey (hr w hw.waits hw.holds d hd hs)

theorem Paired.rest (h : Paired m) (hs : t.Sound) (hw : t.waiting = m.waiting)
    (hp : t.pending = m.pending) : Paired t := by
  refine ⟨hs, by rw [hp]; exact h.nodup, fun p hm => ?_, ?_⟩
  · rw [hp] at hm
    obtain ⟨w, hw'⟩ := h.waiter p hm
    exact ⟨w, by rw [hw]; exact hw'.waits, hw'.holds, hw'.block⟩
  · rw [hw, hp]
    exact h.entry

theorem Requested.rest (h : m.Requested) (hw : t.waiting = m.waiting) (hr : t.requests = m.requests)
    (hk : ∀ d, m.store.contains d = true → t.store.contains d = true) : t.Requested := by
  intro w hm hc d hd hs
  rw [hw] at hm
  rw [hr]
  refine h w hm hc d hd ?_
  by_contra hn
  rw [hk d (by simpa using hn)] at hs
  cases hs

/-! ### `Sync` -/

omit [Crypto] in
theorem hasKey_foldl_put {d : Digest} {n : ℕ} {missing : List Digest} {l : List (Digest × ℕ)} :
    hasKey d (missing.foldl (fun l d => put d n l) l) = true ↔ d ∈ missing ∨ hasKey d l = true := by
  induction missing generalizing l with
  | nil => simp
  | cons d' missing ih =>
    rw [List.foldl_cons, ih, hasKey_iff, hasKey_iff, List.mem_cons]
    by_cases hd : d = d'
    · simp [hd, put]
    · simp [hd, put]

/-- What a `Sync` for a block that is not pending leaves behind. -/
theorem sync_eq (cfg : MempoolConfig) (missing : List Digest) {b : Block} (tag : ℕ)
    (h : hasKey b.digest m.pending = false) :
    ∃ sent, (sync cfg missing b tag m).2 = { m with
      pending := put b.digest b.height m.pending
      waiting := m.waiting ++ [⟨missing, b, tag, false⟩]
      requests := (missing.filter fun d => !hasKey d m.requests).foldl
        (fun l d => put d b.height l) m.requests
      sent := sent } := by
  unfold sync
  rw [bind_run (x := self) rfl, h, if_neg (Bool.false_ne_true), bind_run (x := update _) rfl]
  unfold when
  split
  · exact onlySends_request _ _ _
  · rename_i hm
    refine ⟨m.sent, ?_⟩
    rw [not_not.mp hm]
    rfl

section Sync

variable {missing : List Digest} {b : Block} {tag : ℕ}

theorem Paired.sync (h : Paired m) (hc : Covers m.store missing b)
    (hk : hasKey b.digest m.pending = false) : Paired (sync cfg missing b tag m).2 := by
  have hs : (Mempool.sync cfg missing b tag m).2.Sound := (sync_advances hc).sound h.sound
  obtain ⟨sent, heq⟩ := sync_eq cfg missing tag hk
  rw [heq] at hs ⊢
  refine ⟨hs, nodup_put h.nodup, fun p hp => ?_, fun w hw hcan => ?_⟩
  · rcases mem_put.mp hp with rfl | ⟨hp, _⟩
    · exact ⟨⟨missing, b, tag, false⟩, by simp, rfl, rfl⟩
    · obtain ⟨w, hw⟩ := h.waiter p hp
      exact ⟨w, List.mem_append_left _ hw.waits, hw.holds, hw.block⟩
  · rcases List.mem_append.mp hw with hw | hw
    · exact subset_put hk (h.entry w hw hcan)
    · cases List.mem_singleton.mp hw
      exact mem_put.mpr (.inl rfl)

theorem Requested.sync (h : m.Requested) (hk : hasKey b.digest m.pending = false) :
    (sync cfg missing b tag m).2.Requested := by
  obtain ⟨sent, heq⟩ := sync_eq cfg missing tag hk
  rw [heq]
  intro w hw hcan d hd hs
  refine hasKey_foldl_put.mpr ?_
  rcases List.mem_append.mp hw with hw | hw
  · exact .inr (h w hw hcan d hd hs)
  · cases List.mem_singleton.mp hw
    by_cases hr : hasKey d m.requests = true
    · exact .inr hr
    · exact .inl (List.mem_filter.mpr ⟨hd, by simpa using hr⟩)

end Sync

/-! ### `Clean` -/

section Clean

variable {round : ℕ}

/-- The handlers that a clean-up tells to give up. -/
theorem Paired.cut_iff (h : Paired m) {w : Waiter} (hw : w ∈ m.waiting) (hc : w.cancelled = false) :
    (m.pending.any fun p => p.1 = w.block.digest ∧ p.2 ≤ round) = true ↔
    w.block.height ≤ round := by
  have hentry := h.entry w hw hc
  simp only [List.any_eq_true, decide_eq_true_eq]
  constructor
  · rintro ⟨p, hp, hd, hr⟩
    rw [← h.height hp ⟨hw, hc, hd.symm⟩]
    exact hr
  · intro hr
    exact ⟨_, hentry, rfl, hr⟩

/-- The handlers that are left by a clean-up are those of the higher blocks. -/
theorem Paired.waits_clean (h : Paired m) {w : Waiter} (hc : w.cancelled = false) :
    w ∈ (clean round m).2.waiting ↔ w ∈ m.waiting ∧ round < w.block.height := by
  constructor
  · intro hw
    obtain ⟨v, hv, heq⟩ := List.mem_map.mp hw
    split at heq
    · cases heq
      cases hc
    · rename_i hcut
      cases heq
      rw [h.cut_iff hv hc] at hcut
      exact ⟨hv, not_le.mp hcut⟩
  · rintro ⟨hw, hr⟩
    refine List.mem_map.mpr ⟨w, hw, if_neg ?_⟩
    rw [h.cut_iff hw hc]
    exact not_le.mpr hr

theorem Paired.clean (h : Paired m) : Paired (clean round m).2 := by
  refine ⟨clean_advances.sound h.sound, ?_, fun p hp => ?_, fun w hw hc => ?_⟩
  · exact h.nodup.sublist (List.filter_sublist.map Prod.fst)
  · obtain ⟨hp, hr⟩ := List.mem_filter.mp hp
    obtain ⟨w, hw⟩ := h.waiter p hp
    refine ⟨w, (h.waits_clean hw.holds).mpr ⟨hw.waits, ?_⟩, hw.holds, hw.block⟩
    rw [← h.height hp hw]
    exact of_decide_eq_true hr
  · obtain ⟨hw, hr⟩ := (h.waits_clean hc).mp hw
    exact List.mem_filter.mpr ⟨h.entry w hw hc, decide_eq_true hr⟩

theorem hasKey_clean {d : Digest} :
    hasKey d (Mempool.clean round m).2.requests = true ↔ ∃ q ∈ m.requests, q.1 = d ∧
    round < q.2 := by
  rw [hasKey_iff, List.mem_map]
  change (∃ q ∈ m.requests.filter fun p => p.2 > round, q.1 = d) ↔ _
  simp only [List.mem_filter, decide_eq_true_eq, gt_iff_lt]
  constructor
  · rintro ⟨q, ⟨hq, hr⟩, hd⟩
    exact ⟨q, hq, hd, hr⟩
  · rintro ⟨q, hq, hd, hr⟩
    exact ⟨q, ⟨hq, hr⟩, hd⟩

/-- A clean-up leaves no waiting block without its requests exactly if it spares them. -/
theorem Paired.requested_clean_iff (h : Paired m) :
    (Mempool.clean round m).2.Requested ↔ m.Spares round := by
  constructor
  · intro hr p hp hround w hw d hd hs
    rw [h.height hp hw] at hround
    exact hasKey_clean.mp (hr w ((h.waits_clean hw.holds).mpr ⟨hw.waits, hround⟩) hw.holds d hd hs)
  · intro hspares w hw hc d hd hs
    obtain ⟨hw, hround⟩ := (h.waits_clean hc).mp hw
    exact hasKey_clean.mpr (hspares _ (h.entry w hw hc) hround w ⟨hw, hc, rfl⟩ d hd hs)

end Clean

/-! ### A waiter is done -/

section Finish

variable {w : Waiter}

theorem finishWaiter_run : (finishWaiter w m).2 = { m with
    waiting := (m.waiting.erase w).map fun v =>
      if v.block.digest = w.block.digest then { v with cancelled := true } else v
    pending := m.pending.filter fun p => p.1 ≠ w.block.digest
    requests := m.requests.filter fun p => p.1 ∉ w.block.payload } := rfl

/-- The handlers that are left are those of the other blocks. -/
theorem waits_finishWaiter {v : Waiter} (hc : v.cancelled = false) :
    v ∈ (finishWaiter w m).2.waiting ↔ v ∈ m.waiting ∧ v.block.digest ≠ w.block.digest := by
  constructor
  · intro hv
    rw [finishWaiter_run] at hv
    obtain ⟨u, hu, heq⟩ := List.mem_map.mp hv
    split at heq
    · cases heq
      cases hc
    · rename_i hne
      cases heq
      exact ⟨List.mem_of_mem_erase hu, hne⟩
  · rintro ⟨hv, hne⟩
    rw [finishWaiter_run]
    refine List.mem_map.mpr ⟨v, (List.mem_erase_of_ne ?_).mpr hv, if_neg hne⟩
    rintro rfl
    exact hne rfl

theorem Paired.finishWaiter (h : Paired m) : Paired (finishWaiter w m).2 := by
  have hs := ((finishWaiter_eq (w := w) (m := m) rfl).2).sound h.sound
  refine ⟨hs, ?_, fun p hp => ?_, fun v hv hc => ?_⟩
  · exact h.nodup.sublist (List.filter_sublist.map Prod.fst)
  · obtain ⟨hp, hne⟩ := List.mem_filter.mp hp
    obtain ⟨v, hv⟩ := h.waiter p hp
    refine ⟨v, (waits_finishWaiter hv.holds).mpr ⟨hv.waits, ?_⟩, hv.holds, hv.block⟩
    rw [hv.block]
    exact of_decide_eq_true hne
  · obtain ⟨hv, hne⟩ := (waits_finishWaiter hc).mp hv
    exact List.mem_filter.mpr ⟨h.entry v hv hc, decide_eq_true hne⟩

/-- The requests that go are those for payloads in the store. -/
theorem Requested.finishWaiter (h : m.Requested) (hs : m.Sound) (hw : w ∈ m.waiting)
    (hk : ∀ d ∈ w.missing, m.store.contains d = true) : (finishWaiter w m).2.Requested := by
  intro v hv hc d hd hstore
  obtain ⟨hv, _⟩ := (waits_finishWaiter hc).mp hv
  have hnot : d ∉ w.block.payload := by
    intro hmem
    rw [finishWaiter_run, (hs.waiting w hw d hmem).elim (hk d) id] at hstore
    cases hstore
  obtain ⟨q, hq, rfl⟩ := List.mem_map.mp (hasKey_iff.mp (h v hv hc d hd hstore))
  exact hasKey_iff.mpr (List.mem_map_of_mem (List.mem_filter.mpr ⟨hq, decide_eq_true hnot⟩))

end Finish

/-! ### A turn -/

section Turns

variable {x : Turn}

theorem onlyQueues_verifyPayload (m : Mempool) (b : Block) (tag : ℕ) :
    ∃ inner, (verifyPayload b tag m).2 = { m with inner := inner } := by
  unfold verifyPayload
  rw [bind_run (x := self) rfl]
  split
  · exact ⟨m.inner, rfl⟩
  · exact ⟨_, rfl⟩

theorem turn_take (h : m.turn cfg .take = some t) : ∃ x rest, m.inner = x :: rest ∧
    (takeInner cfg x { m with inner := rest }).2 = t := by
  unfold turn at h
  cases hi : m.inner with
  | nil =>
    rw [hi] at h
    cases h
  | cons x rest =>
    refine ⟨x, rest, rfl, ?_⟩
    rw [hi] at h
    dsimp only at h
    split at h
    · rename_i ht
      cases h
      rw [ht]
    · cases h

theorem turn_finish {w : Waiter} (h : m.turn cfg (.finish w) = some t) :
    (w ∈ m.waiting ∧ ∀ d ∈ w.missing, m.store.contains d = true) ∧ (finishWaiter w m).2 = t := by
  change (if _ then _ else _) = _ at h
  split at h
  · cases h
    exact ⟨‹_›, rfl⟩
  · cases h

theorem turn_drop {w : Waiter} (h : m.turn cfg (.drop w) = some t) :
    w.cancelled = true ∧ { m with waiting := m.waiting.erase w } = t := by
  change (if _ then _ else _) = _ at h
  split at h
  · rename_i hw
    cases h
    exact ⟨hw.2, rfl⟩
  · cases h

theorem sync_skip {missing : List Digest} {b : Block} {tag : ℕ}
    (h : hasKey b.digest m.pending = true) : (sync cfg missing b tag m).2 = m := by
  unfold sync
  rw [bind_run (x := self) rfl, if_pos h]
  rfl

theorem Paired.pop (h : Paired m) {x : SynchronizerMessage} {rest : List SynchronizerMessage}
    (hi : m.inner = x :: rest) : Paired { m with inner := rest } := by
  refine h.rest ⟨h.sound.queued, fun missing b tag hm => ?_, h.sound.waiting⟩ rfl rfl
  exact h.sound.inner missing b tag (hi ▸ List.mem_cons_of_mem _ hm)

theorem Paired.takeInner (h : Paired m) {x : SynchronizerMessage} {rest : List SynchronizerMessage}
    (hi : m.inner = x :: rest) : Paired (takeInner cfg x { m with inner := rest }).2 := by
  have hpop := h.pop hi
  cases x with
  | Sync missing b tag =>
    by_cases hk : hasKey b.digest m.pending = true
    · change Paired (Mempool.sync cfg missing b tag { m with inner := rest }).2
      rw [sync_skip (m := { m with inner := rest }) hk]
      exact hpop
    · have hcov := h.sound.inner missing b tag (hi ▸ List.mem_cons_self)
      exact hpop.sync hcov (by simpa using hk)
  | Clean round => exact hpop.clean

theorem Paired.drop (h : Paired m) {w : Waiter} (hw : w.cancelled = true) :
    Paired { m with waiting := m.waiting.erase w } := by
  refine ⟨⟨h.sound.queued, h.sound.inner, fun v hv => ?_⟩, h.nodup, fun p hp => ?_,
    fun v hv hc => ?_⟩
  · exact h.sound.waiting v (List.mem_of_mem_erase hv)
  · obtain ⟨v, hv⟩ := h.waiter p hp
    refine ⟨v, (List.mem_erase_of_ne ?_).mpr hv.waits, hv.holds, hv.block⟩
    rintro rfl
    exact Bool.false_ne_true (hv.holds.symm.trans hw)
  · exact h.entry v (List.mem_of_mem_erase hv) hc

theorem Paired.turn (h : Paired m) (ht : m.turn cfg x = some t) : Paired t := by
  cases x with
  | verify b tag =>
    cases ht
    have hs : (verifyPayload b tag m).2.Sound := verifyPayload_advances.sound h.sound
    obtain ⟨inner, heq⟩ := onlyQueues_verifyPayload m b tag
    rw [heq] at hs ⊢
    exact h.rest hs rfl rfl
  | cleanup digests round =>
    cases ht
    exact h.rest (cleanup_advances.sound h.sound) rfl rfl
  | write digest x =>
    cases ht
    exact h.rest (h.sound.write digest x) rfl rfl
  | take =>
    obtain ⟨x, rest, hi, rfl⟩ := turn_take ht
    exact h.takeInner hi
  | finish w =>
    obtain ⟨_, rfl⟩ := turn_finish ht
    exact h.finishWaiter
  | drop w =>
    obtain ⟨hw, rfl⟩ := turn_drop ht
    exact h.drop hw
  | tick stale =>
    cases ht
    obtain ⟨sent, heq⟩ := onlySends_retry cfg m stale
    rw [heq]
    exact h.rest ⟨h.sound.queued, h.sound.inner, h.sound.waiting⟩ rfl rfl

/-- A sparing turn keeps the requests. -/
theorem Requested.turn (h : m.Requested) (hp : Paired m) (hs : m.Sparing x)
    (ht : m.turn cfg x = some t) : t.Requested := by
  cases x with
  | verify b tag =>
    cases ht
    obtain ⟨inner, heq⟩ := onlyQueues_verifyPayload m b tag
    rw [heq]
    exact h.rest rfl rfl fun _ => id
  | cleanup digests round =>
    cases ht
    exact h.rest rfl rfl fun _ => id
  | write digest x =>
    cases ht
    exact h.rest rfl rfl fun _ => contains_insert
  | take =>
    obtain ⟨x, rest, hi, rfl⟩ := turn_take ht
    have hpop : ({ m with inner := rest } : Mempool).Requested := h.rest rfl rfl fun _ => id
    cases x with
    | Sync missing b tag =>
      by_cases hk : hasKey b.digest m.pending = true
      · change (Mempool.sync cfg missing b tag { m with inner := rest }).2.Requested
        rw [sync_skip (m := { m with inner := rest }) hk]
        exact hpop
      · exact hpop.sync (by simpa using hk)
    | Clean round =>
      refine (hp.pop hi).requested_clean_iff.mpr fun p hmem hr w hw => ?_
      exact hs round (by rw [hi]; rfl) p hmem hr w ⟨hw.waits, hw.holds, hw.block⟩
  | finish w =>
    obtain ⟨⟨hw, hk⟩, rfl⟩ := turn_finish ht
    exact h.finishWaiter hp.sound hw hk
  | drop w =>
    obtain ⟨_, rfl⟩ := turn_drop ht
    intro v hv
    exact h v (List.mem_of_mem_erase hv)
  | tick stale =>
    cases ht
    obtain ⟨sent, heq⟩ := onlySends_retry cfg m stale
    rw [heq]
    exact h.rest rfl rfl fun _ => id

/-- Only a sparing turn does. -/
theorem Requested.sparing (h : t.Requested) (hp : Paired m) (ht : m.turn cfg x = some t) :
    m.Sparing x := by
  cases x with
  | take =>
    intro round hhead
    obtain ⟨x, rest, hi, rfl⟩ := turn_take ht
    rw [hi] at hhead
    cases hhead
    have hspares := (hp.pop hi).requested_clean_iff.mp h
    exact fun p hmem hr w hw => hspares p hmem hr w ⟨hw.waits, hw.holds, hw.block⟩
  | _ => trivial

/-! ### Runs -/

theorem turns_append {xs ys : List Turn} :
    m.turns cfg (xs ++ ys) = (m.turns cfg xs).bind fun t => t.turns cfg ys := by
  induction xs generalizing m with
  | nil => rfl
  | cons x xs ih =>
    change (m.turn cfg x).bind (fun t => t.turns cfg (xs ++ ys)) = _
    simp only [ih]
    exact (Option.bind_assoc _ _ _).symm

theorem paired_new : Paired new where
  sound :=
    ⟨fun _ h => h.elim (fun h => (nomatch h)) (fun h => (nomatch h)), fun _ _ _ h => (nomatch h),
      fun _ h => (nomatch h)⟩
  nodup := List.nodup_nil
  waiter _ h := nomatch h
  entry _ h := nomatch h

theorem requested_new : new.Requested := fun _ h => nomatch h

theorem turns_snoc {xs : List Turn} (h : m.turns cfg (xs ++ [x]) = some t) :
    ∃ u, m.turns cfg xs = some u ∧ u.turn cfg x = some t := by
  rw [turns_append] at h
  obtain ⟨u, hu, h⟩ := Option.bind_eq_some_iff.mp h
  obtain ⟨v, hv, h⟩ := Option.bind_eq_some_iff.mp h
  cases h
  exact ⟨u, hu, hv⟩

theorem paired_turns {xs : List Turn} (h : new.turns cfg xs = some t) : Paired t := by
  induction xs using List.reverseRecOn generalizing t with
  | nil =>
    cases h
    exact paired_new
  | append_singleton xs x ih =>
    obtain ⟨u, hu, hx⟩ := turns_snoc h
    exact (ih hu).turn hx

/-- In every run the pending blocks keep their requests exactly if the clean-ups spare those that
higher blocks still need. -/
theorem keepsAsking_iff_sparing (xs : List Turn) :
    (∀ ys s, ys <+: xs → new.turns cfg ys = some s → s.KeepsAsking cfg) ↔
      ∀ ys x s t, ys ++ [x] <+: xs → new.turns cfg ys = some s → s.turn cfg x = some t →
      s.Sparing x := by
  constructor
  · intro h ys x s t hpre hs ht
    have hnext : new.turns cfg (ys ++ [x]) = some t := by
      rw [turns_append, hs]
      change (s.turn cfg x).bind _ = _
      rw [ht]
      rfl
    have hasking := h _ t hpre hnext
    exact ((paired_turns hnext).keepsAsking_iff.mp hasking).sparing (paired_turns hs) ht
  · intro h ys s hpre hs
    refine (paired_turns hs).keepsAsking_iff.mpr ?_
    induction ys using List.reverseRecOn generalizing s with
    | nil =>
      cases hs
      exact requested_new
    | append_singleton ys x ih =>
      obtain ⟨u, hu, hx⟩ := turns_snoc hs
      have hreq := ih u ((List.prefix_append ys [x]).trans hpre) hu
      exact hreq.turn (paired_turns hu) (h ys x u s hpre hu hx) hx

end Turns

end Mempool

end Retry

/-- Two blocks with one payload. -/
def lowerBlock : Block := Block.new .genesis 1 1 0 0 [fittingPayload.digest] OPT

def higherBlock : Block := Block.new .genesis 2 5 0 0 [fittingPayload.digest] OPT

/-- Both blocks are suspended, then the heights up to 3 are cleaned. -/
def cleanBetween : List Mempool.Turn :=
  [.verify lowerBlock OPT, .take, .verify higherBlock OPT, .take, .cleanup [] 3, .take]

/-- The payload was requested for the lower block: the higher one waits for it, and nobody asks. -/
theorem not_keepsAsking_cleanBetween :
    ¬ ∀ (cfg : MempoolConfig) (xs : List Mempool.Turn) (m : Mempool),
      Mempool.new.turns cfg xs = some m → m.KeepsAsking cfg := by
  intro h
  have hrun : (Mempool.new.turns smallMempool cleanBetween).any (fun m =>
      decide (m.pending = [(higherBlock.digest, 5)] ∧
        ⟨[fittingPayload.digest], higherBlock, OPT, false⟩ ∈ m.waiting ∧
        m.store.contains fittingPayload.digest = false ∧
          m.requests = [])) = true := by decide +kernel
  obtain ⟨m, hm⟩ := Option.isSome_iff_exists.mp
    (show (Mempool.new.turns smallMempool cleanBetween).isSome = true by decide +kernel)
  rw [hm] at hrun
  obtain ⟨hp, hw, hs, hr⟩ := of_decide_eq_true hrun
  have hmem : (higherBlock.digest, 5) ∈ m.pending := by
    rw [hp]
    exact List.mem_cons_self
  have hasked := (h smallMempool cleanBetween m hm _ hmem).2 _
    ⟨hw, rfl, rfl⟩ _ List.mem_cons_self hs
  have hkey := hasked.requested
  rw [hr] at hkey
  cases hkey

end Ipotane
