import Ipotane.Mempool
import Ipotane.Symbolic

/-! Blocks without their parents: the consensus synchronizer (`consensus/src/synchronizer.rs`), the
store's task (`store/src/lib.rs`) and the channels between them. -/
namespace Ipotane

open Lib

/-- Keys that a table of queues holds a queue for. -/
abbrev Queues (K : Type) := Map K (List ℕ)

/-- A future of the synchronizer: `asked` tells whether its `notify_read` has been sent, and `reply`
is what its oneshot channel holds. -/
structure ParentWaiter [Crypto] where
  id : ℕ
  block : Block
  asked : Bool
  reply : Option Stored
deriving DecidableEq

instance [Crypto] : LawfulBEq ParentWaiter := inferInstance

/-- The oneshot channel of a read is known by the block whose parent is read, that of a
`notify_read` by its waiter. -/
inductive StoreCommand [Crypto]
  | Write (key : Digest) (value : Stored)
  | Read (key : Digest) (reader : Block)
  | NotifyRead (key : Digest) (waiter : ℕ)

/-- What has happened: a key was put into the database, a block was accepted into `pending`, and a
block was delivered to the core. -/
inductive Mark [Crypto]
  | wrote (key : Digest)
  | accepted (b : Block)
  | delivered (b : Block)

/-- The channel of the store, its database and its obligations; the answered reads of
`get_parent_block`; the channel of the synchronizer and its state; what it has given to the core and
to the network. -/
structure Tasks [Crypto] where
  commands : List StoreCommand
  db : Store
  obligations : Queues Digest
  replies : List (Block × Option Stored)
  inner : List Block
  pending : List Digest
  waiting : List ParentWaiter
  requests : List Digest
  core : List ConsensusMessage
  sent : List ConsensusMessage
  opened : ℕ
  history : List Mark

section Resume

variable [Crypto]

namespace Tasks

def new : Tasks := ⟨[], .empty, .empty, [], [], [], [], [], [], [], 0, []⟩

/-- The core asks for the parent of a block, or goes on with the answer; any task writes; the
store's task serves a command; the synchronizer takes a block, polls a waiter or takes its result;
or its timer fires, with `stale` the requests that are old enough. -/
inductive Act
  | getParentBlock (b : Block)
  | resume (b : Block) (reply : Option Stored)
  | write (key : Digest) (value : Stored)
  | serve
  | take
  | poll (w : ParentWaiter)
  | complete (w : ParentWaiter)
  | tick (stale : List Digest)

/-- The steps of the synchronizer and of the store's task. -/
def Act.Internal : Act → Prop
  | .serve | .take | .poll _ | .complete _ => True
  | _ => False

/-- The oneshot channels in `ids` get a value. -/
def answer (ids : List ℕ) (value : Stored) (l : List ParentWaiter) : List ParentWaiter :=
  l.map fun w => if w.id ∈ ids then { w with reply := some value } else w

/-- A command in the loop of the store. -/
def execute (t : Tasks) : StoreCommand → Tasks
  | .Write key value => { t with
      db := t.db.insert key value
      obligations := t.obligations.erase key
      waiting := answer (t.obligations.getD key []) value t.waiting
      history := .wrote key :: t.history }
  | .Read key reader => { t with replies := t.replies ++ [(reader, t.db.get key)] }
  | .NotifyRead key waiter =>
    match t.db.get key with
    | none => { t with
        obligations := t.obligations.insert key (t.obligations.getD key [] ++ [waiter]) }
    | some value => { t with waiting := answer [waiter] value t.waiting }

/-- The synchronizer takes a block that is not pending. -/
def accept (name : PublicKey) (b : Block) (t : Tasks) : Tasks := { t with
  pending := t.pending ++ [b.digest]
  waiting := t.waiting ++ [⟨t.opened, b, false, none⟩]
  requests := if b.parent ∈ t.requests then t.requests else t.requests ++ [b.parent]
  sent := if b.parent ∈ t.requests then t.sent else .SyncRequest b.parent name :: t.sent
  opened := t.opened + 1
  history := .accepted b :: t.history }

/-- The result of a waiter. -/
def deliver (w : ParentWaiter) (t : Tasks) : Tasks := { t with
  pending := t.pending.filter (· ≠ w.block.digest)
  waiting := t.waiting.erase w
  requests := t.requests.filter (· ≠ w.block.parent)
  core := t.core ++ [.HsLoopBack w.block]
  history := .delivered w.block :: t.history }

def act (name : PublicKey) (t : Tasks) : Act → Option Tasks
  | .getParentBlock b =>
    some (if b.qc.isGenesis then t else { t with commands := t.commands ++ [.Read b.parent b] })
  | .resume b reply =>
    if (b, reply) ∈ t.replies then
      some { t with
        replies := t.replies.erase (b, reply)
        inner := if reply = none then t.inner ++ [b] else t.inner }
    else none
  | .write key value => some { t with commands := t.commands ++ [.Write key value] }
  | .serve =>
    match t.commands with
    | [] => none
    | x :: rest => some ({ t with commands := rest }.execute x)
  | .take =>
    match t.inner with
    | [] => none
    | b :: rest =>
      if b.digest ∈ t.pending then some { t with inner := rest }
      else some (accept name b { t with inner := rest })
  | .poll w =>
    if w ∈ t.waiting ∧ w.asked = false then
      some { t with
        commands := t.commands ++ [.NotifyRead w.block.parent w.id]
        waiting := t.waiting.map fun v => if v = w then { v with asked := true } else v }
    else none
  | .complete w => if w ∈ t.waiting ∧ w.reply ≠ none then some (deliver w t) else none
  | .tick stale =>
    some { t with
      sent := (t.requests.filter (· ∈ stale)).map (.SyncRequest · name) ++ t.sent }

/-- The states of the tasks, in any order of steps. -/
inductive Reached (name : PublicKey) : Tasks → Prop
  | new : Reached name new
  | act {t u : Tasks} {a : Act} (h : Reached name t) (ha : t.act name a = some u) : Reached name u

/-- No internal step can be taken. -/
def Quiet (name : PublicKey) (t : Tasks) : Prop := ∀ a : Act, a.Internal → t.act name a = none

/-- A pending block, whose waiter holds it. -/
def Suspended (t : Tasks) (b : Block) : Prop := b.digest ∈ t.pending ∧ ∃ w ∈ t.waiting, w.block = b

def accepts (d : Digest) : Mark → Bool
  | .accepted b => b.digest = d
  | _ => false

def delivers (d : Digest) : Mark → Bool
  | .delivered b => b.digest = d
  | _ => false

/-- The blocks that have been delivered, in order. -/
def deliveries (l : List Mark) : List Block :=
  l.reverse.filterMap fun
    | .delivered b => some b
    | _ => none

/-! ### The waiters -/

/-- What a waiter is from its start to its end. -/
def slots (t : Tasks) : List (ℕ × Block) := t.waiting.map fun w => (w.id, w.block)

/-- The `notify_read` of the waiter is on its way to the store or registered there. -/
def Asks (t : Tasks) (key : Digest) (id : ℕ) : Prop :=
  .NotifyRead key id ∈ t.commands ∨ id ∈ t.obligations.getD key []

/-- One waiter for each pending block, and a request for each parent that is not there. -/
structure Slotted (t : Tasks) : Prop where
  ids : (t.slots.map Prod.fst).Nodup
  digests : (t.slots.map (·.2.digest)).Nodup
  older : ∀ p ∈ t.slots, p.1 < t.opened
  pending : ∀ d, d ∈ t.pending ↔ ∃ p ∈ t.slots, p.2.digest = d
  asks : ∀ k i, t.Asks k i → i < t.opened ∧ ∀ p ∈ t.slots, p.1 = i → p.2.parent = k
  requested : ∀ p ∈ t.slots, t.db.contains p.2.parent = false → p.2.parent ∈ t.requests

/-- A waiter that has asked gets its answer. -/
structure Attended (t : Tasks) : Prop where
  unwritten : ∀ k i, i ∈ t.obligations.getD k [] → t.db.contains k = false
  replied : ∀ w ∈ t.waiting, w.reply ≠ none → t.db.contains w.block.parent = true
  asked : ∀ w ∈ t.waiting, w.asked = true → w.reply = none → t.Asks w.block.parent w.id

/-- The record tells what is in the store, which blocks are pending, and that no block was delivered
before its parent was written. -/
structure Recorded (t : Tasks) : Prop where
  wrote : ∀ k, t.db.contains k = true → .wrote k ∈ t.history
  balance : ∀ d, t.history.countP (accepts d) =
    t.history.countP (delivers d) + if d ∈ t.pending then 1 else 0
  inOrder : ∀ new b old, t.history = new ++ .delivered b :: old → .wrote b.parent ∈ old
  core : t.core = (deliveries t.history).map .HsLoopBack

variable {name : PublicKey} {t u : Tasks} {w : ParentWaiter}

theorem mem_slots {p : ℕ × Block} : p ∈ t.slots ↔
    ∃ w ∈ t.waiting, (w.id, w.block) = p := List.mem_map

theorem slot_mem (hw : w ∈ t.waiting) : (w.id, w.block) ∈ t.slots := List.mem_map_of_mem hw

theorem mem_answer {ids : List ℕ} {x : Stored} {l : List ParentWaiter} {v : ParentWaiter} :
    v ∈ answer ids x l ↔
      (v ∈ l ∧ v.id ∉ ids) ∨ ∃ w ∈ l, w.id ∈ ids ∧ { w with reply := some x } = v := by
  unfold answer
  rw [List.mem_map]
  constructor
  · rintro ⟨w, hw, heq⟩
    split at heq
    · exact .inr ⟨w, hw, ‹_›, heq⟩
    · subst heq
      exact .inl ⟨hw, ‹_›⟩
  · rintro (⟨hv, hid⟩ | ⟨w, hw, hid, rfl⟩)
    · exact ⟨v, hv, if_neg hid⟩
    · exact ⟨w, hw, if_pos hid⟩

theorem answer_slots (ids : List ℕ) (x : Stored) (l : List ParentWaiter) :
    (answer ids x l).map (fun w => (w.id, w.block)) = l.map fun w => (w.id, w.block) := by
  unfold answer
  rw [List.map_map]
  refine List.map_congr_left fun w _ => ?_
  simp only [Function.comp_apply]
  split <;> rfl

/-- Two waiters do not share an id. -/
theorem Slotted.eq_of_id (h : t.Slotted) {p q : ℕ × Block} (hp : p ∈ t.slots) (hq : q ∈ t.slots)
    (he : p.1 = q.1) : p = q := List.inj_on_of_nodup_map h.ids hp hq he

theorem Slotted.eq_of_digest (h : t.Slotted) {p q : ℕ × Block} (hp : p ∈ t.slots) (hq : q ∈ t.slots)
    (he : p.2.digest = q.2.digest) : p = q := List.inj_on_of_nodup_map h.digests hp hq he

theorem Slotted.nodup (h : t.Slotted) : t.waiting.Nodup :=
  List.Nodup.of_map _ (List.Nodup.of_map _ h.ids)

/-- The waiters keep their slots, what has been asked was asked before, and the store
keeps its keys. -/
theorem Slotted.mono (h : t.Slotted) (hs : u.slots = t.slots) (hp : u.pending = t.pending)
    (ho : u.opened = t.opened) (hr : u.requests = t.requests)
    (ha : ∀ k i, u.Asks k i → t.Asks k i)
    (hk : ∀ d, t.db.contains d = true → u.db.contains d = true) : u.Slotted where
  ids := hs ▸ h.ids
  digests := hs ▸ h.digests
  older p hm := ho ▸ h.older p (hs ▸ hm)
  pending d := by
    rw [hs, hp]
    exact h.pending d
  asks k i hi := by
    rw [ho, hs]
    exact h.asks k i (ha k i hi)
  requested p hm hd := by
    rw [hr]
    rw [hs] at hm
    refine h.requested p hm ?_
    by_contra hn
    rw [hk _ (by simpa using hn)] at hd
    cases hd

/-! ### What a step does -/

theorem act_resume {b : Block} {reply : Option Stored} (h : t.act name (.resume b reply) = some u) :
    { t with
      replies := t.replies.erase (b, reply)
      inner := if reply = none then t.inner ++ [b] else t.inner } = u := by
  change (if _ then _ else _) = _ at h
  split at h
  · cases h
    rfl
  · cases h

theorem act_serve (h : t.act name .serve = some u) :
    ∃ x rest, t.commands = x :: rest ∧ ({ t with commands := rest } : Tasks).execute x = u := by
  unfold act at h
  cases hc : t.commands with
  | nil =>
    rw [hc] at h
    cases h
  | cons x rest =>
    rw [hc] at h
    cases h
    exact ⟨x, rest, rfl, rfl⟩

theorem act_take (h : t.act name .take = some u) : ∃ b rest, t.inner = b :: rest ∧
    ((b.digest ∈ t.pending ∧ { t with inner := rest } = u) ∨
      (b.digest ∉ t.pending ∧ accept name b { t with inner := rest } = u)) := by
  unfold act at h
  cases hi : t.inner with
  | nil =>
    rw [hi] at h
    cases h
  | cons b rest =>
    rw [hi] at h
    dsimp only at h
    split at h
    · cases h
      exact ⟨b, rest, rfl, .inl ⟨‹_›, rfl⟩⟩
    · cases h
      exact ⟨b, rest, rfl, .inr ⟨‹_›, rfl⟩⟩

theorem act_poll (h : t.act name (.poll w) = some u) : w ∈ t.waiting ∧
    { t with
      commands := t.commands ++ [.NotifyRead w.block.parent w.id]
      waiting := t.waiting.map fun v => if v = w then { v with asked := true } else v } = u := by
  change (if _ then _ else _) = _ at h
  split at h
  · rename_i hw
    cases h
    exact ⟨hw.1, rfl⟩
  · cases h

theorem act_complete (h : t.act name (.complete w) = some u) :
    (w ∈ t.waiting ∧ w.reply ≠ none) ∧ deliver w t = u := by
  change (if _ then _ else _) = _ at h
  split at h
  · cases h
    exact ⟨‹_›, rfl⟩
  · cases h

/-! ### The store -/

section Execute

variable {x : StoreCommand} {rest : List StoreCommand}

/-- What is asked after a command has been served was asked before. -/
theorem asks_execute {k : Digest} {i : ℕ} (hc : t.commands = x :: rest)
    (h : (({ t with commands := rest } : Tasks).execute x).Asks k i) : t.Asks k i := by
  cases x with
  | Write key value =>
    rcases h with h | h
    · exact .inl (hc ▸ List.mem_cons_of_mem _ h)
    · change i ∈ (t.obligations.erase key).getD k [] at h
      rw [Map.getD, Map.get_erase] at h
      split at h
      · cases h
      · exact .inr h
  | Read key reader =>
    rcases h with h | h
    · exact .inl (hc ▸ List.mem_cons_of_mem _ h)
    · exact .inr h
  | NotifyRead key waiter =>
    unfold execute at h
    dsimp only at h
    split at h
    · rcases h with h | h
      · exact .inl (hc ▸ List.mem_cons_of_mem _ h)
      · dsimp only at h
        rw [Map.getD_insert] at h
        split at h
        · rename_i hk
          subst hk
          rcases List.mem_append.mp h with h | h
          · exact .inr h
          · cases List.mem_singleton.mp h
            exact .inl (hc ▸ List.mem_cons_self)
        · exact .inr h
    · rcases h with h | h
      · exact .inl (hc ▸ List.mem_cons_of_mem _ h)
      · exact .inr h

theorem execute_db_contains (d : Digest) (h : t.db.contains d = true) :
    (t.execute x).db.contains d = true := by
  cases x with
  | Write key value => exact Mempool.contains_insert (m := { Mempool.new with store := t.db }) h
  | Read key reader => exact h
  | NotifyRead key waiter =>
    unfold execute
    dsimp only
    split <;> exact h

theorem slots_execute : (t.execute x).slots = t.slots := by
  cases x with
  | Write key value => exact answer_slots _ _ _
  | Read key reader => rfl
  | NotifyRead key waiter =>
    unfold execute
    dsimp only
    split
    · rfl
    · exact answer_slots _ _ _

theorem execute_rest : (t.execute x).pending = t.pending ∧ (t.execute x).opened = t.opened ∧
    (t.execute x).requests = t.requests := by
  cases x with
  | NotifyRead key waiter =>
    unfold execute
    dsimp only
    split <;> exact ⟨rfl, rfl, rfl⟩
  | _ => exact ⟨rfl, rfl, rfl⟩

theorem Slotted.execute (h : t.Slotted) (hc : t.commands = x :: rest) :
    (({ t with commands := rest } : Tasks).execute x).Slotted := by
  obtain ⟨hp, ho, hr⟩ := execute_rest (t := { t with commands := rest }) (x := x)
  exact h.mono slots_execute hp ho hr (fun k i => asks_execute hc)
    fun d hd => execute_db_contains (t := { t with commands := rest }) d hd

/-- The waiters that a command answers wait for its key. -/
theorem replied_answer {ids : List ℕ} {value : Stored} (key : Digest) {db : Store}
    {l : List ParentWaiter} (hl : ∀ w ∈ l, w.reply ≠ none → db.contains w.block.parent = true)
    (hi : ∀ w ∈ l, w.id ∈ ids → w.block.parent = key) (hk : db.contains key = true) :
    ∀ w ∈ answer ids value l, w.reply ≠ none → db.contains w.block.parent = true := by
  intro w hw hr
  rcases mem_answer.mp hw with ⟨hw, _⟩ | ⟨v, hv, hid, rfl⟩
  · exact hl w hw hr
  · change db.contains v.block.parent = true
    rw [hi v hv hid]
    exact hk

theorem Attended.execute (h : t.Attended) (hs : t.Slotted) (hc : t.commands = x :: rest) :
    (({ t with commands := rest } : Tasks).execute x).Attended := by
  -- A waiter that is not answered goes on asking.
  have hstill {k : Digest} {i : ℕ} (hi : t.Asks k i) (hx : x ≠ .NotifyRead k i) :
      .NotifyRead k i ∈ rest ∨ i ∈ t.obligations.getD k [] := by
    refine hi.imp (fun hm => ?_) id
    rw [hc] at hm
    rcases List.mem_cons.mp hm with rfl | hm
    · exact absurd rfl hx
    · exact hm
  cases x with
  | Write key value =>
    have hkey : ∀ w ∈ t.waiting, w.id ∈ t.obligations.getD key [] → w.block.parent = key :=
      fun w hw hid => (hs.asks key w.id (.inr hid)).2 _ (slot_mem hw) rfl
    refine ⟨fun k i hi => ?_, ?_, fun w hw ha hr => ?_⟩
    · change i ∈ (t.obligations.erase key).getD k [] at hi
      rw [Map.getD, Map.get_erase] at hi
      split at hi
      · cases hi
      · rename_i hne
        change (t.db.insert key value).contains k = false
        rw [Map.contains, Map.get_insert, if_neg hne]
        exact h.unwritten k i hi
    · refine replied_answer key (fun w hw hr => ?_) hkey Mempool.contains_insert_self
      exact Mempool.contains_insert (m := { Mempool.new with store := t.db }) (h.replied w hw hr)
    · rcases mem_answer.mp hw with ⟨hw, hid⟩ | ⟨v, _, _, rfl⟩
      · refine (hstill (h.asked w hw ha hr) (by simp)).imp id fun hm => ?_
        change w.id ∈ (t.obligations.erase key).getD w.block.parent []
        rw [Map.getD, Map.get_erase, if_neg]
        · exact hm
        · intro hp
          rw [hp] at hm
          exact hid hm
      · cases hr
  | Read key reader =>
    exact ⟨h.unwritten, h.replied, fun w hw ha hr => hstill (h.asked w hw ha hr) (by simp)⟩
  | NotifyRead key waiter =>
    have hasks : t.Asks key waiter := .inl (hc ▸ List.mem_cons_self)
    unfold Tasks.execute
    dsimp only
    split
    · rename_i hget
      refine ⟨fun k i hi => ?_, h.replied, fun w hw ha hr => ?_⟩
      · dsimp only at hi
        rw [Map.getD_insert] at hi
        split at hi
        · rename_i hk
          rw [hk, Map.contains, hget]
          rfl
        · exact h.unwritten k i hi
      · by_cases hx : StoreCommand.NotifyRead key waiter = .NotifyRead w.block.parent w.id
        · cases hx
          refine .inr ?_
          dsimp only
          rw [Map.getD_insert, if_pos rfl]
          exact List.mem_append_right _ List.mem_cons_self
        · refine (hstill (h.asked w hw ha hr) hx).imp id fun hm => ?_
          dsimp only
          rw [Map.getD_insert]
          split
          · rename_i hk
            rw [hk] at hm
            exact List.mem_append_left _ hm
          · exact hm
    · rename_i value hget
      refine ⟨h.unwritten, ?_, fun w hw ha hr => ?_⟩
      · refine replied_answer key h.replied (fun w hw hid => ?_) ?_
        · cases List.mem_singleton.mp hid
          exact (hs.asks key w.id hasks).2 _ (slot_mem hw) rfl
        · rw [Map.contains, hget]
          rfl
      · rcases mem_answer.mp hw with ⟨hw, hid⟩ | ⟨v, _, _, rfl⟩
        · refine hstill (h.asked w hw ha hr) fun hx => ?_
          cases hx
          exact hid List.mem_cons_self
        · cases hr

end Execute

/-! ### The synchronizer -/

section Synchronizer

variable {b : Block}

theorem slots_accept : (accept name b t).slots = t.slots ++ [(t.opened, b)] := List.map_append

theorem Slotted.accept (h : t.Slotted) (hb : b.digest ∉ t.pending) : (accept name b t).Slotted := by
  have hfresh : ∀ p ∈ t.slots, p.1 ≠ t.opened := fun p hp => (h.older p hp).ne
  refine ⟨?_, ?_, fun p hp => ?_, fun d => ?_, fun k i hi => ?_, fun p hp hd => ?_⟩
  · rw [slots_accept, List.map_append]
    refine List.Nodup.append h.ids (List.nodup_singleton _) fun i hi hm => ?_
    obtain ⟨p, hp, rfl⟩ := List.mem_map.mp hi
    exact hfresh p hp (List.mem_singleton.mp hm)
  · rw [slots_accept, List.map_append]
    refine List.Nodup.append h.digests (List.nodup_singleton _) fun d hd hm => ?_
    obtain ⟨p, hp, rfl⟩ := List.mem_map.mp hd
    exact hb ((h.pending _).mpr ⟨p, hp, List.mem_singleton.mp hm⟩)
  · rw [slots_accept] at hp
    change p.1 < t.opened + 1
    rcases List.mem_append.mp hp with hp | hp
    · exact Nat.lt_succ_of_lt (h.older p hp)
    · cases List.mem_singleton.mp hp
      exact Nat.lt_succ_self _
  · rw [slots_accept]
    change d ∈ t.pending ++ [b.digest] ↔ _
    simp only [List.mem_append, List.mem_singleton, h.pending, or_and_right, exists_or,
      exists_eq_left, eq_comm]
  · obtain ⟨hlt, hkey⟩ := h.asks k i hi
    refine ⟨Nat.lt_succ_of_lt hlt, fun p hp heq => ?_⟩
    rw [slots_accept] at hp
    rcases List.mem_append.mp hp with hp | hp
    · exact hkey p hp heq
    · cases List.mem_singleton.mp hp
      exact absurd heq hlt.ne'
  · rw [slots_accept] at hp
    change p.2.parent ∈ if b.parent ∈ t.requests then t.requests else t.requests ++ [b.parent]
    have hmem : p.2.parent ∈ t.requests ∨ p.2.parent = b.parent := by
      rcases List.mem_append.mp hp with hp | hp
      · exact .inl (h.requested p hp hd)
      · cases List.mem_singleton.mp hp
        exact .inr rfl
    split
    · rename_i hb
      exact hmem.elim id fun he => he ▸ hb
    · exact List.mem_append.mpr (hmem.imp id List.mem_singleton.mpr)

theorem Attended.accept (h : t.Attended) : (accept name b t).Attended := by
  refine ⟨h.unwritten, fun w hw hr => ?_, fun w hw ha hr => ?_⟩
  · rcases List.mem_append.mp hw with hw | hw
    · exact h.replied w hw hr
    · cases List.mem_singleton.mp hw
      exact absurd rfl hr
  · rcases List.mem_append.mp hw with hw | hw
    · exact h.asked w hw ha hr
    · cases List.mem_singleton.mp hw
      cases ha

/-- The state once a waiter has been polled for the first time. -/
def polled (w : ParentWaiter) (t : Tasks) : Tasks := { t with
  commands := t.commands ++ [.NotifyRead w.block.parent w.id]
  waiting := t.waiting.map fun v => if v = w then { v with asked := true } else v }

theorem slots_polled : (polled w t).slots = t.slots := by
  change (t.waiting.map _).map _ = t.waiting.map _
  rw [List.map_map]
  refine List.map_congr_left fun v _ => ?_
  simp only [Function.comp_apply]
  split <;> rfl

theorem asks_polled {k : Digest} {i : ℕ} :
    (polled w t).Asks k i ↔ t.Asks k i ∨ (k = w.block.parent ∧ i = w.id) := by
  unfold Asks
  simp only [polled, List.mem_append, List.mem_singleton, StoreCommand.NotifyRead.injEq]
  tauto

theorem Slotted.polled (h : t.Slotted) (hw : w ∈ t.waiting) : (polled w t).Slotted := by
  refine ⟨?_, ?_, fun p hp => ?_, fun d => ?_, fun k i hi => ?_, fun p hp hd => ?_⟩
  · rw [slots_polled]
    exact h.ids
  · rw [slots_polled]
    exact h.digests
  · rw [slots_polled] at hp
    exact h.older p hp
  · rw [slots_polled]
    exact h.pending d
  · rw [slots_polled]
    rcases asks_polled.mp hi with hi | ⟨rfl, rfl⟩
    · exact h.asks k i hi
    · refine ⟨h.older _ (slot_mem hw), fun p hp he => ?_⟩
      rw [h.eq_of_id hp (slot_mem hw) he]
  · rw [slots_polled] at hp
    exact h.requested p hp hd

theorem Attended.polled (h : t.Attended) : (polled w t).Attended := by
  refine ⟨h.unwritten, fun v hv hr => ?_, fun v hv ha hr => ?_⟩
  · obtain ⟨v₀, hv₀, heq⟩ := List.mem_map.mp hv
    split at heq <;>
    · subst heq
      exact h.replied v₀ hv₀ hr
  · obtain ⟨v₀, hv₀, heq⟩ := List.mem_map.mp hv
    split at heq
    · subst heq
      rename_i he
      subst he
      exact asks_polled.mpr (.inr ⟨rfl, rfl⟩)
    · subst heq
      exact asks_polled.mpr (.inl (h.asked v₀ hv₀ ha hr))

theorem slots_deliver_subset : (deliver w t).slots ⊆ t.slots :=
  List.map_subset _ List.erase_subset

/-- The slots that are left are those of the other digests. -/
theorem Slotted.mem_slots_deliver (h : t.Slotted) (hw : w ∈ t.waiting) {p : ℕ × Block} :
    p ∈ (deliver w t).slots ↔ p ∈ t.slots ∧ p.2.digest ≠ w.block.digest := by
  constructor
  · intro hp
    refine ⟨slots_deliver_subset hp, fun he => ?_⟩
    obtain ⟨v, hv, rfl⟩ := mem_slots.mp hp
    obtain ⟨hne, hmem⟩ := (h.nodup.mem_erase_iff).mp hv
    have hslot := h.eq_of_digest (slot_mem hmem) (slot_mem hw) he
    have hinj : Set.InjOn (fun v : ParentWaiter => (v.id, v.block)) {v | v ∈ t.waiting} :=
      fun a ha b hb => List.inj_on_of_nodup_map (List.Nodup.of_map _ h.ids) ha hb
    exact hne (hinj hmem hw hslot)
  · rintro ⟨hp, hne⟩
    obtain ⟨v, hv, rfl⟩ := mem_slots.mp hp
    refine mem_slots.mpr ⟨v, (List.mem_erase_of_ne ?_).mpr hv, rfl⟩
    rintro rfl
    exact hne rfl

theorem Slotted.deliver (h : t.Slotted) (ha : t.Attended) (hw : w ∈ t.waiting)
    (hr : w.reply ≠ none) : (deliver w t).Slotted := by
  have hsub : (Tasks.deliver w t).slots.Sublist t.slots := List.erase_sublist.map _
  refine ⟨h.ids.sublist (hsub.map _), h.digests.sublist (hsub.map _), fun p hp => ?_, fun d => ?_,
    fun k i hi => ?_, fun p hp hd => ?_⟩
  · exact h.older p (slots_deliver_subset hp)
  · change d ∈ t.pending.filter (· ≠ w.block.digest) ↔ _
    simp only [List.mem_filter, decide_eq_true_eq, h.pending, h.mem_slots_deliver hw]
    constructor
    · rintro ⟨⟨p, hp, rfl⟩, hne⟩
      exact ⟨p, ⟨hp, hne⟩, rfl⟩
    · rintro ⟨p, ⟨hp, hne⟩, rfl⟩
      exact ⟨⟨p, hp, rfl⟩, hne⟩
  · obtain ⟨hlt, hkey⟩ := h.asks k i hi
    exact ⟨hlt, fun p hp => hkey p (slots_deliver_subset hp)⟩
  · refine List.mem_filter.mpr ⟨h.requested p (slots_deliver_subset hp) hd, decide_eq_true ?_⟩
    intro he
    change t.db.contains p.2.parent = false at hd
    rw [he, ha.replied w hw hr] at hd
    cases hd

theorem Attended.deliver (h : t.Attended) : (deliver w t).Attended where
  unwritten := h.unwritten
  replied v hv := h.replied v (List.mem_of_mem_erase hv)
  asked v hv := h.asked v (List.mem_of_mem_erase hv)

end Synchronizer

/-! ### The record -/

theorem deliveries_cons {x : Mark} (l : List Mark) (hx : ∀ b, x ≠ .delivered b) :
    deliveries (x :: l) = deliveries l := by
  unfold deliveries
  rw [List.reverse_cons, List.filterMap_append]
  cases x with
  | delivered b => exact absurd rfl (hx b)
  | _ => exact List.append_nil _

theorem Recorded.rest (h : t.Recorded) (hd : u.db = t.db) (hh : u.history = t.history)
    (hp : u.pending = t.pending) (hc : u.core = t.core) : u.Recorded where
  wrote k := by
    rw [hd, hh]
    exact h.wrote k
  balance d := by
    rw [hh, hp]
    exact h.balance d
  inOrder new b old he := h.inOrder new b old (hh ▸ he)
  core := by
    rw [hc, hh]
    exact h.core

/-- An entry that is no delivery leaves the order as it is. -/
theorem Recorded.inOrder_cons (h : t.Recorded) {x : Mark}
    (hx : ∀ b, x = .delivered b → .wrote b.parent ∈ t.history)
    (new : List Mark) (b : Block) (old : List Mark)
    (he : x :: t.history = new ++ .delivered b :: old) : .wrote b.parent ∈ old := by
  cases new with
  | nil =>
    cases he
    exact hx b rfl
  | cons y new =>
    obtain ⟨_, he⟩ := List.cons.inj he
    exact h.inOrder new b old he

theorem Recorded.execute (h : t.Recorded) (x : StoreCommand) : (t.execute x).Recorded := by
  cases x with
  | Write key value =>
    refine ⟨fun k hk => ?_, fun d => ?_, fun new b old he => ?_, ?_⟩
    · change (t.db.insert key value).contains k = true at hk
      rw [Map.contains, Map.get_insert] at hk
      split at hk
      · rename_i heq
        rw [heq]
        exact List.mem_cons_self
      · exact List.mem_cons_of_mem _ (h.wrote k hk)
    · change (Mark.wrote key :: t.history).countP _ = (Mark.wrote key :: t.history).countP _ + _
      rw [List.countP_cons_of_neg (by simp [accepts]), List.countP_cons_of_neg (by simp [delivers])]
      exact h.balance d
    · exact h.inOrder_cons (fun b hb => by cases hb) new b old he
    · exact h.core.trans (congrArg _ (deliveries_cons _ fun b hb => by cases hb).symm)
  | Read key reader => exact h.rest rfl rfl rfl rfl
  | NotifyRead key waiter =>
    unfold Tasks.execute
    dsimp only
    split <;> exact h.rest rfl rfl rfl rfl

theorem Recorded.accept {b : Block} (h : t.Recorded) (hb : b.digest ∉ t.pending) :
    (accept name b t).Recorded := by
  refine ⟨fun k hk => List.mem_cons_of_mem _ (h.wrote k hk), fun d => ?_,
    fun new c old he => ?_, ?_⟩
  · have hbal := h.balance d
    change (Mark.accepted b :: t.history).countP _ = (Mark.accepted b :: t.history).countP _ +
      if d ∈ t.pending ++ [b.digest] then 1 else 0
    rw [List.countP_cons_of_neg (p := delivers d) (by simp [delivers]), List.countP_cons]
    by_cases hd : b.digest = d
    · subst hd
      rw [if_neg hb] at hbal
      simp [accepts, hbal]
    · simp [accepts, hd, hbal, Ne.symm hd]
  · exact h.inOrder_cons (fun b hb => by cases hb) new c old he
  · exact h.core.trans (congrArg _ (deliveries_cons _ fun b hb => by cases hb).symm)

theorem Recorded.deliver (h : t.Recorded) (hs : t.Slotted) (ha : t.Attended) (hw : w ∈ t.waiting)
    (hr : w.reply ≠ none) : (deliver w t).Recorded := by
  refine ⟨fun k hk => List.mem_cons_of_mem _ (h.wrote k hk), fun d => ?_,
    fun new c old he => ?_, ?_⟩
  · have hbal := h.balance d
    have hpending : w.block.digest ∈ t.pending := (hs.pending _).mpr ⟨_, slot_mem hw, rfl⟩
    change (Mark.delivered w.block :: t.history).countP _ =
      (Mark.delivered w.block :: t.history).countP _ +
      if d ∈ t.pending.filter (· ≠ w.block.digest) then 1 else 0
    rw [List.countP_cons_of_neg (p := accepts d) (by simp [accepts]), List.countP_cons]
    by_cases hd : w.block.digest = d
    · subst hd
      rw [if_pos hpending] at hbal
      simp [delivers, hbal]
    · simp [delivers, hd, hbal, Ne.symm hd]
  · refine h.inOrder_cons (fun b hb => ?_) new c old he
    cases hb
    exact h.wrote _ (ha.replied w hw hr)
  · change t.core ++ [.HsLoopBack w.block] = (deliveries (.delivered w.block :: t.history)).map _
    unfold deliveries
    rw [List.reverse_cons, List.filterMap_append, List.map_append, h.core]
    rfl

/-! ### Runs -/

/-- What holds between any two steps. -/
structure Kept (t : Tasks) : Prop where
  slotted : t.Slotted
  attended : t.Attended
  recorded : t.Recorded

theorem kept_new : new.Kept where
  slotted := by
    refine ⟨List.nodup_nil, List.nodup_nil, fun _ h => (nomatch h), fun d => ?_, fun k i h => ?_,
      fun _ h => (nomatch h)⟩
    · exact ⟨fun h => (nomatch h), fun ⟨_, h, _⟩ => (nomatch h)⟩
    · rcases h with h | h <;> cases h
  attended := ⟨fun _ _ h => (nomatch h), fun _ h => (nomatch h), fun _ h => (nomatch h)⟩
  recorded := by
    refine ⟨fun k h => (nomatch h), fun _ => rfl, fun new b old h => ?_, rfl⟩
    cases new <;> cases h

/-- Commands that ask for nothing may be sent, and the rest may change. -/
theorem Kept.rest (h : t.Kept)
    (hc : ∀ k i, .NotifyRead k i ∈ u.commands ↔ .NotifyRead k i ∈ t.commands)
    (he : u =
      { t with commands := u.commands, replies := u.replies, inner := u.inner, sent := u.sent }) :
    u.Kept := by
  have hasks : ∀ k i, u.Asks k i ↔ t.Asks k i := by
    intro k i
    unfold Asks
    rw [hc, he]
  have hslots : u.slots = t.slots := by rw [he]; rfl
  have hdb : u.db = t.db := by rw [he]
  have hwaiting : u.waiting = t.waiting := by rw [he]
  refine ⟨h.slotted.mono hslots ?_ ?_ ?_ (fun k i => (hasks k i).mp)
    (fun d => by rw [hdb]; exact id), ⟨?_, ?_, ?_⟩, h.recorded.rest hdb ?_ ?_ ?_⟩
  · rw [he]
  · rw [he]
  · rw [he]
  · rw [hdb, he]
    exact h.attended.unwritten
  · rw [hdb, hwaiting]
    exact h.attended.replied
  · rw [hwaiting]
    exact fun w hw ha hr => (hasks _ _).mpr (h.attended.asked w hw ha hr)
  · rw [he]
  · rw [he]
  · rw [he]

theorem Kept.act (h : t.Kept) {a : Act} (ha : t.act name a = some u) : u.Kept := by
  cases a with
  | getParentBlock b =>
    cases ha
    split
    · exact h
    · exact h.rest (by simp) rfl
  | resume b reply =>
    obtain rfl := act_resume ha
    exact h.rest (fun _ _ => Iff.rfl) rfl
  | write key value =>
    cases ha
    exact h.rest (by simp) rfl
  | serve =>
    obtain ⟨x, rest, hc, rfl⟩ := act_serve ha
    have hr : ({ t with commands := rest } : Tasks).Recorded := h.recorded.rest rfl rfl rfl rfl
    exact ⟨h.slotted.execute hc, h.attended.execute h.slotted hc, hr.execute x⟩
  | take =>
    obtain ⟨b, rest, _, h'⟩ := act_take ha
    have hk : ({ t with inner := rest } : Tasks).Kept := h.rest (fun _ _ => Iff.rfl) rfl
    rcases h' with ⟨_, rfl⟩ | ⟨hb, rfl⟩
    · exact hk
    · exact ⟨hk.slotted.accept hb, hk.attended.accept, hk.recorded.accept hb⟩
  | poll w =>
    obtain ⟨hw, rfl⟩ := act_poll ha
    exact ⟨h.slotted.polled hw, h.attended.polled, h.recorded.rest rfl rfl rfl rfl⟩
  | complete w =>
    obtain ⟨⟨hw, hr⟩, rfl⟩ := act_complete ha
    exact ⟨h.slotted.deliver h.attended hw hr, h.attended.deliver,
      h.recorded.deliver h.slotted h.attended hw hr⟩
  | tick stale =>
    cases ha
    exact h.rest (fun _ _ => Iff.rfl) rfl

theorem Reached.kept (h : Reached name t) : t.Kept := by
  induction h with
  | new => exact kept_new
  | act _ ha ih => exact ih.act ha

/-- When no task can go on, every waiter is registered with the store. -/
theorem Kept.unstored (h : t.Kept) (hq : t.Quiet name) (hw : w ∈ t.waiting) :
    t.db.contains w.block.parent = false := by
  have hasked : w.asked = true := by
    by_contra hn
    have hpoll := hq (.poll w) trivial
    change (if _ then _ else _) = _ at hpoll
    rw [if_pos ⟨hw, by simpa using hn⟩] at hpoll
    cases hpoll
  have hreply : w.reply = none := by
    by_contra hn
    have hcomplete := hq (.complete w) trivial
    change (if _ then _ else _) = _ at hcomplete
    rw [if_pos ⟨hw, hn⟩] at hcomplete
    cases hcomplete
  rcases h.attended.asked w hw hasked hreply with hm | hm
  · have hserve := hq .serve trivial
    unfold Tasks.act at hserve
    cases hc : t.commands with
    | nil =>
      rw [hc] at hm
      cases hm
    | cons x rest =>
      rw [hc] at hserve
      cases hserve
  · exact h.attended.unwritten _ _ hm

/-- Each suspension ends with at most one delivery, after the parent was written, and is not
forgotten. -/
theorem Reached.resumes (h : Reached name t) :
    (∀ d, t.history.countP (accepts d) =
        t.history.countP (delivers d) + if d ∈ t.pending then 1 else 0) ∧
      t.core = (deliveries t.history).map .HsLoopBack ∧
      (∀ new b old, t.history = new ++ .delivered b :: old → .wrote b.parent ∈ old) ∧
      (∀ d ∈ t.pending, ∃ b, b.digest = d ∧ t.Suspended b) ∧
      (t.Quiet name → ∀ b, t.Suspended b → t.db.contains b.parent = false) ∧
      ∀ b, t.Suspended b → t.db.contains b.parent = false → b.parent ∈ t.requests := by
  have hk := h.kept
  refine ⟨hk.recorded.balance, hk.recorded.core, hk.recorded.inOrder, fun d hd => ?_, ?_, ?_⟩
  · obtain ⟨p, hp, rfl⟩ := (hk.slotted.pending d).mp hd
    obtain ⟨w, hw, rfl⟩ := mem_slots.mp hp
    exact ⟨w.block, rfl, hd, w, hw, rfl⟩
  · rintro hq b ⟨_, w, hw, rfl⟩
    exact hk.unstored hq hw
  · rintro b ⟨_, w, hw, rfl⟩ hs
    exact hk.slotted.requested _ (slot_mem hw) hs

/-- The state after some steps. -/
def acts (name : PublicKey) (t : Tasks) : List Act → Option Tasks
  | [] => some t
  | a :: l => (t.act name a).bind fun u => u.acts name l

theorem reached_acts {l : List Act} (h : Reached name t) (hl : t.acts name l = some u) :
    Reached name u := by
  induction l generalizing t with
  | nil =>
    cases hl
    exact h
  | cons a l ih =>
    obtain ⟨v, hv, hl⟩ := Option.bind_eq_some_iff.mp hl
    exact ih (h.act hv) hl

end Tasks

end Resume

/-- Two blocks on one parent. -/
def parentQc : QC := { QC.genesis with hash := leaderProposal.digest, height := 1, proposer := 1 }

def firstChild : Block := Block.new parentQc 2 2 0 0 [] OPT

def secondChild : Block := Block.new parentQc 3 2 0 0 [] OPT

/-- The parent is written after the first waiter has asked for it, and before the
second one does. -/
def resumedChildren : List Tasks.Act :=
  [.getParentBlock firstChild, .getParentBlock secondChild, .serve, .serve,
    .resume firstChild none, .resume secondChild none, .take, .take,
    .poll ⟨0, firstChild, false, none⟩, .serve, .write leaderProposal.digest
    (.block leaderProposal), .serve, .poll ⟨1, secondChild, false, none⟩, .serve,
    .complete ⟨1, secondChild, true, some (.block leaderProposal)⟩,
    .complete ⟨0, firstChild, true, some (.block leaderProposal)⟩]

theorem resumes_resumedChildren : ∃ t : Tasks,
    t.core = [.HsLoopBack secondChild, .HsLoopBack firstChild] ∧
      (∀ d, t.history.countP (Tasks.accepts d) =
        t.history.countP (Tasks.delivers d) + if d ∈ t.pending then 1 else 0) ∧
      ∀ new b old, t.history = new ++ .delivered b :: old → .wrote b.parent ∈ old := by
  have hrun : (Tasks.new.acts 0 resumedChildren).any (fun t =>
      decide (t.core = [.HsLoopBack secondChild, .HsLoopBack firstChild])) =
        true := by decide +kernel
  cases ht : Tasks.new.acts 0 resumedChildren with
  | none =>
    rw [ht] at hrun
    cases hrun
  | some t =>
    rw [ht] at hrun
    obtain ⟨hbalance, _, horder, _⟩ := Tasks.Reached.resumes (Tasks.reached_acts .new ht)
    exact ⟨t, of_decide_eq_true hrun, hbalance, horder⟩

end Ipotane
