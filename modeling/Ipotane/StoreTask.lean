import Ipotane.Resume

/-! The task that owns the database (`store/src/lib.rs`), and what its callers are told. -/
namespace Ipotane

open Lib

/-- The channel that a call makes for its reply: the number of the call. -/
abbrev Sender := ℕ

/-- The variables of the task of `Store::new`. The source has byte strings for keys and values. -/
structure StoreTask (K V : Type) where
  db : Map K V
  obligations : Map K (List Sender)

namespace StoreTask

inductive StoreCommand (K V : Type)
  | Write (key : K) (value : V)
  | Read (key : K) (sender : Sender)
  | NotifyRead (key : K) (sender : Sender)

/-- What is sent on a channel, `Ok` in both cases: the database does not fail. -/
inductive Reply (V : Type)
  | read (value : Option V)
  | notified (value : V)

/-- The methods of `Store`. -/
inductive Call (K V : Type)
  | write (key : K) (value : V)
  | read (key : K)
  | notifyRead (key : K)

variable {K V : Type} [DecidableEq K]

/-- One turn of the loop, with the replies in the order in which they are sent. -/
def process (t : StoreTask K V) : StoreCommand K V → List (Sender × Reply V) × StoreTask K V
  | .Write key value =>
    let db := t.db.insert key value
    match t.obligations.get key with
    | some senders => (senders.map fun s => (s, .notified value), ⟨db, t.obligations.erase key⟩)
    | none => ([], ⟨db, t.obligations⟩)
  | .Read key sender => ([(sender, .read (t.db.get key))], t)
  | .NotifyRead key sender =>
    match t.db.get key with
    | none => ([], ⟨t.db, t.obligations.insert key (t.obligations.getD key [] ++ [sender])⟩)
    | some value => ([(sender, .notified value)], t)

namespace Call

/-- What the call puts on the channel of the task. -/
def command (n : ℕ) : Call K V → StoreCommand K V
  | write key value => .Write key value
  | read key => .Read key n
  | notifyRead key => .NotifyRead key n

def key : Call K V → K
  | write key _ | read key | notifyRead key => key

def written (key : K) : Call K V → Option V
  | write key' value => if key' = key then some value else none
  | _ => none

def notifies (key : K) : Call K V → Bool
  | notifyRead key' => key' = key
  | _ => false

theorem notifies_iff {key : K} {c : Call K V} : c.notifies key = true ↔ c = notifyRead key := by
  cases c <;> simp [notifies]

end Call

/-- The task and its replies when the calls have come in this order; `db` is on disk
at the start. -/
def run (db : Map K V) (calls : List (Call K V)) : List (Sender × Reply V) × StoreTask K V :=
  calls.zipIdx.foldl
    (fun x c => (x.1 ++ (x.2.process (c.1.command c.2)).1, (x.2.process (c.1.command c.2)).2))
    ([], ⟨db, .empty⟩)

/-- What is sent on the channel of call `n`. -/
def repliesTo (db : Map K V) (calls : List (Call K V)) (n : ℕ) : List (Reply V) :=
  ((run db calls).1.filter fun x => x.1 = n).map Prod.snd

/-! ### What the calls say -/

/-- The value that the last write has left, or the one on disk. -/
def current (db : Map K V) (past : List (Call K V)) (key : K) : Option V :=
  (past.reverse.findSome? (Call.written key)).or (db.get key)

def firstWritten (post : List (Call K V)) (key : K) : Option V := post.findSome? (Call.written key)

/-- The calls that ask to be notified of the key, in the order in which they came. -/
def registered (past : List (Call K V)) (key : K) : List Sender :=
  (List.range past.length).filter fun n => past[n]?.any (Call.notifies key)

/-- The calls that wait for the key: no one waits for a key that is there. -/
def waiting (db : Map K V) (past : List (Call K V)) (key : K) : List Sender :=
  if current db past key = none then registered past key else []

/-- What a call should make the store send: a write answers those who wait for its key, in the order
in which they came, and a call that finds a value is answered at once. -/
def expected (db : Map K V) (past : List (Call K V)) : Call K V → List (Sender × Reply V)
  | .write key value => (waiting db past key).map fun s => (s, .notified value)
  | .read key => [(past.length, .read (current db past key))]
  | .notifyRead key => (current db past key).toList.map fun value => (past.length, .notified value)

variable {db : Map K V} {past pre post : List (Call K V)} {c : Call K V} {key key' : K} {value : V}

theorem run_snoc : run db (past ++ [c]) =
    ((run db past).1 ++ ((run db past).2.process (c.command past.length)).1,
      ((run db past).2.process (c.command past.length)).2) := by
  simp [run, List.zipIdx_append, List.foldl_append]

theorem current_snoc : current db (past ++ [c]) key = (c.written key).or (current db past key) := by
  have hone : [c].reverse.findSome? (Call.written key) = c.written key := by
    cases h : c.written key <;> simp [h]
  rw [current, List.reverse_append, List.findSome?_append, hone, Option.or_assoc]
  rfl

/-- What is known of a key at the end: what was written last, or what was there before. -/
theorem current_eq_none : current db (pre ++ post) key = none ↔
    current db pre key = none ∧ firstWritten post key = none := by
  unfold current firstWritten
  simp only [List.reverse_append, List.findSome?_append, Option.or_eq_none_iff,
    List.findSome?_eq_none_iff, List.mem_reverse]
  tauto

theorem firstWritten_snoc : firstWritten (post ++ [c]) key = (firstWritten post key).or
    (c.written key) := by
  rw [firstWritten, List.findSome?_append, firstWritten]
  cases h : c.written key <;> simp [h]

theorem registered_snoc : registered (past ++ [c]) key =
    registered past key ++ if c.notifies key then [past.length] else [] := by
  unfold registered
  rw [List.length_append, List.length_singleton, List.range_succ, List.filter_append]
  congr 1
  · refine List.filter_congr fun n hn => ?_
    rw [List.getElem?_append_left (List.mem_range.mp hn)]
  · by_cases hc : c.notifies key <;> simp [hc]

theorem mem_registered {n : ℕ} : n ∈ registered past key ↔ past[n]? = some (.notifyRead key) := by
  unfold registered
  rw [List.mem_filter, List.mem_range, Option.any_eq_true]
  simp only [Call.notifies_iff, exists_eq_right, and_iff_right_iff_imp]
  exact fun h => (List.getElem?_eq_some_iff.mp h).1

theorem nodup_registered : (registered past key).Nodup := List.nodup_range.filter _

theorem waiting_write : waiting db (past ++ [.write key' value]) key =
    if key' = key then [] else waiting db past key := by
  unfold waiting
  rw [current_snoc, registered_snoc]
  by_cases hk : key' = key <;> simp [Call.written, Call.notifies, hk]

theorem waiting_read : waiting db (past ++ [.read key']) key = waiting db past key := by
  unfold waiting
  rw [current_snoc, registered_snoc]
  simp [Call.written, Call.notifies]

theorem waiting_notifyRead : waiting db (past ++ [.notifyRead key']) key = waiting db past key ++
    if key' = key ∧ current db past key = none then [past.length] else [] := by
  unfold waiting
  rw [current_snoc, registered_snoc]
  by_cases hv : current db past key = none <;> simp [Call.written, Call.notifies, hv]

/-! ### The task keeps to them -/

/-- The database has what was written last, and the obligations are the calls that wait. -/
structure Consistent (db : Map K V) (past : List (Call K V)) (t : StoreTask K V) : Prop where
  stored : ∀ key, t.db.get key = current db past key
  obligations : ∀ key, t.obligations.get key =
    if waiting db past key = [] then none else some (waiting db past key)

variable {t : StoreTask K V}

theorem consistent_new : Consistent db [] ⟨db, .empty⟩ where
  stored _ := rfl
  obligations key := by
    have hnone : waiting db [] key = [] := ite_self _
    rw [if_pos hnone]
    rfl

theorem Consistent.getD (h : Consistent db past t) :
    t.obligations.getD key [] = waiting db past key := by
  rw [Map.getD, h.obligations]
  split
  · exact Eq.symm ‹_›
  · rfl

/-- A write answers the calls that wait for the key. -/
theorem Consistent.process_write (h : Consistent db past t) : t.process (.Write key value) =
    ((waiting db past key).map fun s => (s, .notified value),
      ⟨t.db.insert key value, t.obligations.erase key⟩) := by
  have ho := h.obligations key
  by_cases hw : waiting db past key = []
  · rw [if_pos hw] at ho
    simp only [process, ho, hw, List.map_nil, Map.erase_of_get ho]
  · rw [if_neg hw] at ho
    simp only [process, ho]

theorem Consistent.process_read (h : Consistent db past t) {s : Sender} :
    t.process (.Read key s) = ([(s, .read (current db past key))], t) := by
  rw [process, h.stored]

/-- A call for a key that is there is answered at once. -/
theorem Consistent.process_notifyRead_some (h : Consistent db past t) {s : Sender}
    (hv : current db past key = some value) :
    t.process (.NotifyRead key s) = ([(s, .notified value)], t) := by
  simp only [process, h.stored, hv]

theorem Consistent.process_notifyRead_none (h : Consistent db past t) {s : Sender}
    (hv : current db past key = none) : t.process (.NotifyRead key s) =
      ([], ⟨t.db, t.obligations.insert key (waiting db past key ++ [s])⟩) := by
  simp only [process, h.stored, hv, h.getD]

theorem Consistent.step (h : Consistent db past t) (c : Call K V) :
    Consistent db (past ++ [c]) (t.process (c.command past.length)).2 := by
  cases c with
  | write key' value =>
    rw [Call.command, h.process_write]
    refine ⟨fun key => ?_, fun key => ?_⟩
    · rw [Map.get_insert, h.stored, current_snoc]
      by_cases hk : key = key'
      · simp [Call.written, hk]
      · simp [Call.written, hk, Ne.symm hk]
    · rw [Map.get_erase, h.obligations, waiting_write]
      by_cases hk : key = key'
      · simp [hk]
      · simp [hk, Ne.symm hk]
  | read key' =>
    rw [Call.command, h.process_read]
    refine ⟨fun key => ?_, fun key => ?_⟩
    · rw [h.stored, current_snoc]
      rfl
    · rw [h.obligations, waiting_read]
  | notifyRead key' =>
    have hcur : ∀ key, current db (past ++ [.notifyRead key']) key =
      current db past key := fun key => by
      rw [current_snoc]
      rfl
    cases hv : current db past key' with
    | some value =>
      rw [Call.command, h.process_notifyRead_some hv]
      refine ⟨fun key => (h.stored key).trans (hcur key).symm, fun key => ?_⟩
      have hnot : ¬ (key' = key ∧ current db past key = none) := by
        rintro ⟨rfl, hn⟩
        rw [hn] at hv
        cases hv
      rw [h.obligations, waiting_notifyRead, if_neg hnot, List.append_nil]
    | none =>
      rw [Call.command, h.process_notifyRead_none hv]
      refine ⟨fun key => (h.stored key).trans (hcur key).symm, fun key => ?_⟩
      rw [Map.get_insert, h.obligations, waiting_notifyRead]
      by_cases hk : key = key'
      · simp [hk, hv]
      · simp [hk, Ne.symm hk]

theorem consistent_run : Consistent db past (run db past).2 := by
  induction past using List.reverseRecOn with
  | nil => exact consistent_new
  | append_singleton past c ih =>
    rw [run_snoc]
    exact ih.step c

/-! ### What is sent on the channel of a call -/

theorem repliesTo_snoc {n : ℕ} : repliesTo db (past ++ [c]) n = repliesTo db past n ++
    ((((run db past).2.process (c.command past.length)).1.filter fun x => x.1 = n).map
      Prod.snd) := by
  simp [repliesTo, run_snoc]

theorem replies_eq : ((run db past).2.process (c.command past.length)).1 = expected db past c := by
  have h : Consistent db past (run db past).2 := consistent_run
  cases c with
  | write key value => rw [Call.command, h.process_write, expected]
  | read key => rw [Call.command, h.process_read, expected]
  | notifyRead key =>
    rw [Call.command, expected]
    cases hv : current db past key with
    | some value => rw [h.process_notifyRead_some hv]; rfl
    | none => rw [h.process_notifyRead_none hv]; rfl

theorem mem_waiting {n : ℕ} : n ∈ waiting db past key ↔
    past[n]? = some (.notifyRead key) ∧ current db past key = none := by
  unfold waiting
  split <;> simp_all [mem_registered]

theorem lt_of_mem_waiting {n : ℕ} (h : n ∈ waiting db past key) : n < past.length :=
  (List.getElem?_eq_some_iff.mp (mem_waiting.mp h).1).1

theorem nodup_waiting : (waiting db past key).Nodup := by
  unfold waiting
  split
  · exact nodup_registered
  · exact List.nodup_nil

theorem le_of_mem_expected {x : Sender × Reply V} (h : x ∈ expected db past c) :
    x.1 ≤ past.length := by
  cases c with
  | write key value =>
    obtain ⟨s, hs, rfl⟩ := List.mem_map.mp h
    exact Nat.le_of_lt (lt_of_mem_waiting hs)
  | read key =>
    obtain rfl := List.mem_singleton.mp h
    exact Nat.le_refl _
  | notifyRead key =>
    obtain ⟨v, -, rfl⟩ := List.mem_map.mp h
    exact Nat.le_refl _

/-- Nothing is sent on a channel before the call that makes it. -/
theorem repliesTo_ge {n : ℕ} (hn : past.length ≤ n) : repliesTo db past n = [] := by
  induction past using List.reverseRecOn with
  | nil => rfl
  | append_singleton past c ih =>
    rw [List.length_append, List.length_singleton] at hn
    rw [repliesTo_snoc, ih (by omega), List.nil_append, List.map_eq_nil_iff, List.filter_eq_nil_iff,
      replies_eq]
    intro x hx
    have hlt : x.1 < n := Nat.lt_of_le_of_lt (le_of_mem_expected hx) (by omega)
    rw [decide_eq_true_eq]
    exact Nat.ne_of_lt hlt

/-- What a later call sends on the channel of an earlier one. -/
theorem later_reply {n : ℕ} (hn : n < past.length) :
    ((expected db past c).filter fun x => x.1 = n).map Prod.snd =
      match c with
      | .write key value => if n ∈ waiting db past key then [.notified value] else []
      | _ => [] := by
  cases c with
  | write key value =>
    have hfilter : ∀ l : List Sender, l.Nodup →
        ((l.map fun s => (s, Reply.notified value)).filter fun x => x.1 = n).map Prod.snd =
          if n ∈ l then [Reply.notified value] else [] := by
      intro l hl
      induction l with
      | nil => rfl
      | cons s l ih =>
        obtain ⟨hs, hl⟩ := List.nodup_cons.mp hl
        rw [List.map_cons, List.filter_cons]
        by_cases he : s = n
        · subst he
          simpa [hs] using ih hl
        · simpa [he, Ne.symm he] using ih hl
    exact hfilter _ nodup_waiting
  | read key => simp [expected, Nat.ne_of_gt hn]
  | notifyRead key => simp [expected, List.filter_map, Function.comp_def, Nat.ne_of_gt hn]

/-- A call waits for its key until it is there. -/
theorem mem_waiting_after : pre.length ∈ waiting db (pre ++ .notifyRead key :: post) key' ↔
    key' = key ∧ current db pre key = none ∧ firstWritten post key = none := by
  rw [mem_waiting, List.getElem?_append_right (Nat.le_refl _), Nat.sub_self,
    current_eq_none, firstWritten, List.findSome?_cons]
  constructor
  · rintro ⟨hget, hcur⟩
    cases hget
    exact ⟨rfl, hcur⟩
  · rintro ⟨rfl, hcur⟩
    exact ⟨rfl, hcur⟩

/-- The one answer to a `notify_read`: the value that is there, or the first one that is
written later. -/
theorem repliesTo_notifyRead : repliesTo db (pre ++ .notifyRead key :: post) pre.length =
    ((current db pre key).or (firstWritten post key)).toList.map .notified := by
  induction post using List.reverseRecOn with
  | nil =>
    rw [repliesTo_snoc, repliesTo_ge (Nat.le_refl _), List.nil_append, replies_eq, expected]
    cases current db pre key <;> simp [firstWritten]
  | append_singleton post c ih =>
    have hlt : pre.length < (pre ++ .notifyRead key :: post).length := by simp
    rw [← List.cons_append, ← List.append_assoc, repliesTo_snoc, ih, replies_eq, later_reply hlt,
      firstWritten_snoc, ← Option.or_assoc]
    cases c with
    | write key' value =>
      simp only [mem_waiting_after, Call.written]
      by_cases hk : key' = key
      · cases hc : current db pre key <;> cases hf : firstWritten post key <;> simp [hk]
      · simp [hk]
    | read key' => simp [Call.written]
    | notifyRead key' => simp [Call.written]

theorem repliesTo_read :
    repliesTo db (pre ++ .read key :: post) pre.length = [.read (current db pre key)] := by
  induction post using List.reverseRecOn with
  | nil =>
    rw [repliesTo_snoc, repliesTo_ge (Nat.le_refl _), List.nil_append, replies_eq, expected]
    simp
  | append_singleton post c ih =>
    have hlt : pre.length < (pre ++ .read key :: post).length := by simp
    rw [← List.cons_append, ← List.append_assoc, repliesTo_snoc, ih, replies_eq, later_reply hlt]
    have hnot : ∀ key', pre.length ∉ waiting db (pre ++ .read key :: post) key' := by
      intro key' h
      have hget := (mem_waiting.mp h).1
      rw [List.getElem?_append_right (Nat.le_refl _), Nat.sub_self] at hget
      cases hget
    cases c with
    | write key' value => simp [hnot]
    | read key' => simp
    | notifyRead key' => simp

/-- A command leaves the obligations on the other keys as they are. -/
theorem other_obligations {t : StoreTask K V} {n : ℕ} (hk : key ≠ c.key) :
    (t.process (c.command n)).2.obligations.get key = t.obligations.get key := by
  cases c with
  | write key' value =>
    simp only [Call.command, process]
    split
    · exact if_neg hk
    · rfl
  | read key' => rfl
  | notifyRead key' =>
    simp only [Call.command, process]
    split
    · exact if_neg hk
    · rfl

/-- What the store promises in every state that it reaches: no one waits for a key that is
there, every call makes it send what is expected and nothing else, the obligations on other
keys stay, and a `notify_read` gets one answer at most, the value that is there or the first
one that comes. -/
theorem store_contract (db : Map K V) (past : List (Call K V)) :
    (∀ key, (run db past).2.db.get key = current db past key) ∧
    (∀ key, (run db past).2.db.contains key = true → (run db past).2.obligations.get key = none) ∧
    (∀ c, ((run db past).2.process (Call.command past.length c)).1 = expected db past c ∧
      ∀ key, key ≠ c.key → ((run db past).2.process
        (Call.command past.length c)).2.obligations.get key = (run db past).2.obligations.get key) ∧
    (∀ pre key post, past = pre ++ .read key :: post →
      repliesTo db past pre.length = [.read (current db pre key)]) ∧
    ∀ pre key post, past = pre ++ .notifyRead key :: post →
      repliesTo db past pre.length =
        ((current db pre key).or (firstWritten post key)).toList.map .notified := by
  have h : Consistent db past (run db past).2 := consistent_run
  refine ⟨h.stored, fun key hc => ?_, fun c =>
    ⟨replies_eq, fun key hk => other_obligations hk⟩, ?_, ?_⟩
  · obtain ⟨value, hv⟩ := Map.contains_iff.mp hc
    rw [h.stored] at hv
    have hw : waiting db past key = [] := if_neg (by rw [hv]; exact nofun)
    rw [h.obligations, if_pos hw]
  · rintro pre key post rfl
    exact repliesTo_read
  · rintro pre key post rfl
    exact repliesTo_notifyRead

end StoreTask

/-! ### The store among the tasks of a node -/

section Tasks

variable [Crypto]

/-- The command as the store's task gets it; `n` stands for the channel of a read. -/
def StoreCommand.generic (n : ℕ) : StoreCommand → StoreTask.StoreCommand Digest Stored
  | .Write key value => .Write key value
  | .Read key _ => .Read key n
  | .NotifyRead key waiter => .NotifyRead key waiter

/-- A node's tasks execute a command as the store's task does. -/
theorem Tasks.execute_eq_process (t : Tasks) (x : StoreCommand) (n : ℕ) :
    (StoreTask.process ⟨t.db, t.obligations⟩ (x.generic n)).2 =
      (⟨(t.execute x).db, (t.execute x).obligations⟩ : StoreTask Digest Stored) := by
  cases x with
  | Write key value =>
    simp only [StoreCommand.generic, StoreTask.process, Tasks.execute]
    split
    · rfl
    · rename_i hnone
      rw [Map.erase_of_get hnone]
  | Read key reader => rfl
  | NotifyRead key waiter =>
    simp only [StoreCommand.generic, StoreTask.process, Tasks.execute]
    split <;> simp_all

end Tasks

end Ipotane
