import Ipotane.Crypto
import Mathlib.Data.List.Infix
import Mathlib.Logic.Relation

/-! The connections between the nodes (`network/src/lib.rs`). -/
namespace Ipotane

/-- A task of `NetSender::spawn_worker` with the task of `NetReceiver::spawn_worker` that reads from
the other end of its connection: the channel of the first one, what is on its way, and what the
second one has delivered. `given` is what the channel has accepted so far. -/
structure Connection (B M : Type) where
  queue : List B
  connected : Bool
  running : Bool
  wire : List B
  reading : Bool
  delivered : List M
  given : List B

namespace Connection

variable {B M : Type}

/-- The channel is made, and the first message is put into it. -/
def spawn (bytes : B) : Connection B M := ⟨[bytes], false, true, [], true, [], [bytes]⟩

/-- `tx.send(bytes)` while the task runs. -/
def send (bytes : B) (c : Connection B M) : Connection B M :=
  { c with queue := c.queue ++ [bytes], given := c.given ++ [bytes] }

/-- The task returns, and with it the receiving end of its channel. -/
def stop (c : Connection B M) : Connection B M := { c with queue := [], running := false }

/-- `TcpStream::connect`. -/
def connect (ok : Bool) (c : Connection B M) : Option (Connection B M) :=
  if c.running = true ∧ c.connected = false then
    some (if ok then { c with connected := true } else c.stop)
  else none

/-- `transport.send(message)`. What is written after the reader has gone is lost. -/
def write (ok : Bool) (c : Connection B M) : Option (Connection B M) :=
  match c.queue with
  | [] => none
  | bytes :: rest =>
    if c.running = true ∧ c.connected = true then
      some (if ok then
          { c with queue := rest, wire := if c.reading then c.wire ++ [bytes] else c.wire }
        else c.stop)
    else none

/-- `transport.next()` at the other end: a frame that is no message ends the connection. -/
def read (deserialize : B → Option M) (c : Connection B M) : Option (Connection B M) :=
  match c.wire with
  | [] => none
  | bytes :: rest =>
    match deserialize bytes with
    | some message => some { c with wire := rest, delivered := c.delivered ++ [message] }
    | none => some { c with wire := [], reading := false }

/-- The connection breaks. -/
def cut (c : Connection B M) : Connection B M := { c with wire := [], reading := false }

end Connection

/-- The loop of `NetSender::run`: its channel, the message it is at with the addresses that are
left, and the connections to each address. The newest one comes first: `senders` has its channel.
`posted` is what the loop has dealt with, and `arrived` what has been delivered at each address,
in the order of time, with the number of the connection it came by. -/
structure NetSender (A B M : Type) where
  transmit : List (B × List A)
  current : Option (B × List A)
  connections : A → List (Connection B M)
  posted : List (A × B)
  arrived : List (A × ℕ × M)

namespace NetSender

variable {A B M : Type} [DecidableEq A]

def new : NetSender A B M := ⟨[], none, fun _ => [], [], []⟩

/-- The capacity of the channel of a worker. -/
def capacity : ℕ := 10000

/-- A message is handed to the sender; the loop takes it, and deals with its next address, where
`up` tells whether a worker that has to be spawned still runs when it is given the message; and
what the two ends of the `n`-th connection to an address do. -/
inductive Act (A B : Type)
  | submit (bytes : B) (addresses : List A)
  | recv
  | dispatch (up : Bool)
  | connect (a : A) (n : ℕ) (ok : Bool)
  | write (a : A) (n : ℕ) (ok : Bool)
  | read (a : A) (n : ℕ)
  | cut (a : A) (n : ℕ)

def setConnections (s : NetSender A B M) (a : A) (l : List (Connection B M)) : NetSender A B M :=
  { s with connections := Function.update s.connections a l }

/-- What becomes of the connections to an address when a message is sent to it. -/
def post (up : Bool) (bytes : B) : List (Connection B M) → Option (List (Connection B M))
  | [] => some (if up then [.spawn bytes] else [])
  | c :: l =>
    if c.running then
      if c.queue.length < capacity then some (c.send bytes :: l) else none
    else some (if up then .spawn bytes :: c :: l else c :: l)

/-- The message is dealt with at one address. -/
def posting (s : NetSender A B M) (a : A) (bytes : B) (addresses : List A)
    (l : List (Connection B M)) : NetSender A B M :=
  { s.setConnections a l with
    current := some (bytes, addresses)
    posted := s.posted ++ [(a, bytes)] }

/-- One end of a connection does something. -/
def onConnection (s : NetSender A B M) (a : A) (n : ℕ)
    (f : Connection B M → Option (Connection B M)) : Option (NetSender A B M) :=
  ((s.connections a)[n]?.bind f).map fun c => s.setConnections a ((s.connections a).set n c)

/-- The message that comes out of the `n`-th connection to an address. -/
def arriving (deserialize : B → Option M) (s : NetSender A B M) : Act A B → Option (A × M)
  | .read a n =>
    (((s.connections a)[n]?.bind fun c => c.wire.head?).bind deserialize).map fun m => (a, m)
  | _ => none

/-- `deliver.send(message)` of the task that has read it. The first connection has
the number `0`. -/
def arrive (deserialize : B → Option M) (s : NetSender A B M) (a : A) (n : ℕ)
    (t : NetSender A B M) : NetSender A B M :=
  match s.arriving deserialize (.read a n) with
  | none => t
  | some (_, m) => { t with arrived := t.arrived ++ [(a, (s.connections a).length - 1 - n, m)] }

def act (deserialize : B → Option M) (s : NetSender A B M) : Act A B → Option (NetSender A B M)
  | .submit bytes addresses => some { s with transmit := s.transmit ++ [(bytes, addresses)] }
  | .recv =>
    match s.current, s.transmit with
    | none, x :: rest => some { s with transmit := rest, current := some x }
    | _, _ => none
  | .dispatch up =>
    match s.current with
    | none => none
    | some (_, []) => some { s with current := none }
    | some (bytes, a :: addresses) =>
      (post up bytes (s.connections a)).map (s.posting a bytes addresses)
  | .connect a n ok => s.onConnection a n (Connection.connect ok)
  | .write a n ok => s.onConnection a n (Connection.write ok)
  | .read a n => (s.onConnection a n (Connection.read deserialize)).map (s.arrive deserialize a n)
  | .cut a n => s.onConnection a n fun c => some c.cut

/-- The states after some acts. -/
inductive Reached (deserialize : B → Option M) (allowed : Act A B → Prop) : NetSender A B M → Prop
  | new : Reached deserialize allowed new
  | act {s t : NetSender A B M} {a : Act A B} (h : Reached deserialize allowed s) (ha : allowed a)
      (ht : s.act deserialize a = some t) : Reached deserialize allowed t

/-- What was sent to an address, the first message first. -/
def postedTo (s : NetSender A B M) (a : A) : List B :=
  s.posted.filterMap fun x => if x.1 = a then some x.2 else none

/-- What was delivered at an address, in the order of time. -/
def deliveredTo (s : NetSender A B M) (a : A) : List M :=
  (s.arrived.filter fun x => x.1 = a).map fun x => x.2.2

/-- What the `k`-th connection to an address has delivered there. -/
def deliveredBy (s : NetSender A B M) (a : A) (k : ℕ) : List M :=
  (s.arrived.filter fun x => x.1 = a ∧ x.2.1 = k).map fun x => x.2.2

end NetSender

/-! ### One connection -/

section Connections

variable {B M : Type} {deserialize : B → Option M} {c d : Connection B M}

namespace Connection

/-- What has been delivered and what is on its way is the first part of what the channel has
accepted, and all of it with what still waits, as long as both ends are there. -/
structure Fifo (deserialize : B → Option M) (c : Connection B M) : Prop where
  first : c.delivered.map some ++ c.wire.map deserialize <+: c.given.map deserialize
  whole : c.running = true → c.reading = true →
    c.given.map deserialize = c.delivered.map some ++ (c.wire ++ c.queue).map deserialize
  gone : c.reading = false → c.wire = []

theorem fifo_spawn (bytes : B) : Fifo deserialize (spawn bytes : Connection B M) :=
  ⟨List.nil_prefix, fun _ _ => rfl, nofun⟩

theorem Fifo.send (h : c.Fifo deserialize) (bytes : B) : (c.send bytes).Fifo deserialize := by
  refine ⟨?_, fun hr hd => ?_, h.gone⟩
  · change _ <+: (c.given ++ [bytes]).map deserialize
    rw [List.map_append]
    exact h.first.trans (List.prefix_append _ _)
  · change (c.given ++ [bytes]).map deserialize =
      c.delivered.map some ++ (c.wire ++ (c.queue ++ [bytes])).map deserialize
    rw [List.map_append, h.whole hr hd, ← List.append_assoc c.wire, List.append_assoc,
      ← List.map_append]

theorem Fifo.stop (h : c.Fifo deserialize) : c.stop.Fifo deserialize :=
  ⟨h.first, nofun, h.gone⟩

theorem Fifo.connect {ok : Bool} (h : c.Fifo deserialize) (hd : c.connect ok = some d) :
    d.Fifo deserialize := by
  obtain ⟨-, ⟨⟩⟩ := Option.ite_none_right_eq_some.mp hd
  split
  · exact ⟨h.first, h.whole, h.gone⟩
  · exact h.stop

theorem Fifo.write {ok : Bool} (h : c.Fifo deserialize) (hd : c.write ok = some d) :
    d.Fifo deserialize := by
  unfold Connection.write at hd
  split at hd
  · cases hd
  · rename_i bytes rest hq
    obtain ⟨⟨hr, -⟩, ⟨⟩⟩ := Option.ite_none_right_eq_some.mp hd
    split
    · by_cases hreading : c.reading = true
      · have hwhole := h.whole hr hreading
        rw [hq, List.append_cons] at hwhole
        rw [if_pos hreading]
        refine ⟨?_, fun _ _ => hwhole, fun hf => ?_⟩
        · have hsplit : (c.wire ++ [bytes] ++ rest).map deserialize =
              (c.wire ++ [bytes]).map deserialize ++ rest.map deserialize := List.map_append
          rw [hwhole, hsplit, ← List.append_assoc]
          exact List.prefix_append _ _
        · rw [hreading] at hf
          cases hf
      · rw [if_neg hreading]
        exact ⟨h.first, fun _ hf => absurd hf hreading, h.gone⟩
    · exact h.stop

theorem Fifo.cut (h : c.Fifo deserialize) : c.cut.Fifo deserialize := by
  refine ⟨?_, nofun, fun _ => rfl⟩
  change c.delivered.map some ++ [] <+: _
  rw [List.append_nil]
  exact (List.prefix_append _ _).trans h.first

theorem Fifo.read (h : c.Fifo deserialize) (hd : c.read deserialize = some d) :
    d.Fifo deserialize := by
  unfold Connection.read at hd
  split at hd
  · cases hd
  · rename_i bytes rest hw
    split at hd
    · rename_i message hm
      cases hd
      have hmove : ∀ l, (c.delivered ++ [message]).map some ++ (rest ++ l).map deserialize =
          c.delivered.map some ++ (c.wire ++ l).map deserialize := by
        intro l
        rw [hw, List.cons_append, List.map_cons, hm, List.map_append, List.append_assoc]
        rfl
      refine ⟨?_, fun hr hf => ?_, fun hf => ?_⟩
      · have hfirst := h.first
        rw [← List.append_nil c.wire, ← hmove, List.append_nil] at hfirst
        exact hfirst
      · exact (h.whole hr hf).trans (hmove c.queue).symm
      · have hnil := h.gone hf
        rw [hw] at hnil
        cases hnil
    · cases hd
      exact h.cut

/-- Only the channel's own sender adds to what it has accepted. -/
theorem connect_given {ok : Bool} (hd : c.connect ok = some d) : d.given = c.given := by
  obtain ⟨-, ⟨⟩⟩ := Option.ite_none_right_eq_some.mp hd
  split <;> rfl

theorem write_given {ok : Bool} (hd : c.write ok = some d) : d.given = c.given := by
  unfold Connection.write at hd
  split at hd
  · cases hd
  · obtain ⟨-, ⟨⟩⟩ := Option.ite_none_right_eq_some.mp hd
    split <;> rfl

theorem read_given (hd : c.read deserialize = some d) : d.given = c.given := by
  unfold Connection.read at hd
  split at hd
  · cases hd
  · split at hd <;> cases hd <;> rfl

theorem connect_delivered {ok : Bool} (hd : c.connect ok = some d) : d.delivered = c.delivered := by
  obtain ⟨-, ⟨⟩⟩ := Option.ite_none_right_eq_some.mp hd
  split <;> rfl

theorem write_delivered {ok : Bool} (hd : c.write ok = some d) : d.delivered = c.delivered := by
  unfold Connection.write at hd
  split at hd
  · cases hd
  · obtain ⟨-, ⟨⟩⟩ := Option.ite_none_right_eq_some.mp hd
    split <;> rfl

/-- What is read is the first frame on the wire, if it is a message. -/
theorem read_delivered (hd : c.read deserialize = some d) :
    d.delivered = c.delivered ++ (c.wire.head?.bind deserialize).toList := by
  unfold Connection.read at hd
  split at hd
  · cases hd
  · rename_i bytes rest hw
    rw [hw]
    split at hd
    · rename_i message hm
      cases hd
      simp [hm]
    · rename_i hm
      cases hd
      simp [hm]

theorem Fifo.delivered (h : c.Fifo deserialize) :
    c.delivered.map some <+: c.given.map deserialize :=
  (List.prefix_append _ _).trans h.first

end Connection

theorem delivered_sublist {l : List (Connection B M)} (h : ∀ c ∈ l, c.Fifo deserialize) :
    ((l.flatMap Connection.delivered).map some).Sublist
    ((l.flatMap Connection.given).map deserialize) := by
  induction l with
  | nil => exact .slnil
  | cons c l ih =>
    rw [List.flatMap_cons, List.flatMap_cons, List.map_append, List.map_append]
    refine List.Sublist.append (h c List.mem_cons_self).delivered.sublist (ih ?_)
    exact fun d hd => h d (List.mem_cons_of_mem _ hd)

end Connections

/-- A list is put together again from the parts on which `f` is constant. -/
theorem perm_flatMap_filter {α : Type} {f : α → ℕ} {n : ℕ} {l : List α} (h : ∀ x ∈ l, f x < n) :
    l.Perm ((List.range n).flatMap fun k => l.filter fun x => f x = k) := by
  induction n generalizing l with
  | zero =>
    cases l with
    | nil => exact .nil
    | cons x l => exact absurd (h x List.mem_cons_self) (Nat.not_lt_zero _)
  | succ n ih =>
    rw [List.range_succ, List.flatMap_append, List.flatMap_singleton]
    have hsplit := (List.filter_append_perm (fun x => decide (f x < n)) l).symm
    refine hsplit.trans (.append ?_ (.of_eq ?_))
    · refine (ih fun x hx => of_decide_eq_true (List.mem_filter.mp hx).2).trans (.of_eq ?_)
      refine List.flatMap_congr fun k hk => ?_
      rw [List.filter_filter]
      refine List.filter_congr fun x _ => ?_
      have hlt := List.mem_range.mp hk
      simp only [← Bool.decide_and, decide_eq_decide]
      omega
    · refine List.filter_congr fun x hx => ?_
      have hlt := h x hx
      simp only [← decide_not, decide_eq_decide]
      omega

/-! ### All connections -/

namespace NetSender

variable {A B M : Type} [DecidableEq A] {deserialize : B → Option M} {allowed : Act A B → Prop}
  {s t : NetSender A B M} {a : A}

theorem mem_postedTo {bytes : B} : bytes ∈ s.postedTo a ↔ (a, bytes) ∈ s.posted := by
  simp [postedTo]

/-- The connections to an address have been given, one after the other, what was sent to it. -/
structure Ordered (deserialize : B → Option M) (s : NetSender A B M) (a : A) : Prop where
  fifo : ∀ c ∈ s.connections a, c.Fifo deserialize
  given : ((s.connections a).reverse.flatMap Connection.given).Sublist (s.postedTo a)

theorem setConnections_same (l : List (Connection B M)) :
    (s.setConnections a l).connections a = l :=
  Function.update_self ..

theorem setConnections_other {a' : A} (l : List (Connection B M)) (h : a' ≠ a) :
    (s.setConnections a l).connections a' = s.connections a' :=
  Function.update_of_ne h ..

theorem posting_same {bytes : B} {addresses : List A} {l : List (Connection B M)} :
    (s.posting a bytes addresses l).connections a = l :=
  setConnections_same l

theorem posting_other {a' : A} {bytes : B} {addresses : List A} {l : List (Connection B M)}
    (h : a ≠ a') : (s.posting a' bytes addresses l).connections a = s.connections a :=
  setConnections_other l h

theorem postedTo_same {bytes : B} {addresses : List A} {l : List (Connection B M)} :
    (s.posting a bytes addresses l).postedTo a = s.postedTo a ++ [bytes] := by
  simp [postedTo, posting, List.filterMap_append]

theorem postedTo_other {a' : A} {bytes : B} {addresses : List A} {l : List (Connection B M)}
    (h : a ≠ a') : (s.posting a' bytes addresses l).postedTo a = s.postedTo a := by
  simp [postedTo, posting, List.filterMap_append, h.symm]

theorem map_given_set {l : List (Connection B M)} {n : ℕ} {c d : Connection B M}
    (hc : l[n]? = some c)
    (hd : d.given = c.given) : (l.set n d).map Connection.given = l.map Connection.given := by
  obtain ⟨hlt, rfl⟩ := List.getElem?_eq_some_iff.mp hc
  rw [List.map_set, hd, ← List.getElem_map Connection.given (h := by rwa [List.length_map]),
    List.set_getElem_self]

/-- Nothing else changes when a message is delivered. -/
theorem read_cases {a' : A} {n : ℕ} (ht : s.act deserialize (.read a' n) = some t) :
    ∃ u new, s.onConnection a' n (Connection.read deserialize) = some u ∧
      new = ((s.arriving deserialize (.read a' n)).toList.map fun x =>
        (a', (s.connections a').length - 1 - n, x.2)) ∧
      t = { u with arrived := u.arrived ++ new } := by
  obtain ⟨u, hu, rfl⟩ := Option.map_eq_some_iff.mp ht
  refine ⟨u, _, hu, rfl, ?_⟩
  unfold arrive
  cases s.arriving deserialize (.read a' n) with
  | none => simp
  | some x => rfl

/-- What one end of a connection does adds nothing to what the connections have been given. -/
theorem Ordered.onConnection {a' : A} {n : ℕ} {f : Connection B M → Option (Connection B M)}
    (h : s.Ordered deserialize a) (ht : s.onConnection a' n f = some t)
    (hf : ∀ c d, c.Fifo deserialize → f c = some d → d.Fifo deserialize ∧ d.given = c.given) :
    t.Ordered deserialize a := by
  obtain ⟨d, hbind, rfl⟩ := Option.map_eq_some_iff.mp ht
  obtain ⟨c, hc, hd⟩ := Option.bind_eq_some_iff.mp hbind
  by_cases ha : a = a'
  · subst ha
    obtain ⟨hfifo, hgiven⟩ := hf c d (h.fifo c (List.mem_of_getElem? hc)) hd
    constructor
    · intro c' hc'
      rw [setConnections_same] at hc'
      rcases List.mem_or_eq_of_mem_set hc' with hc' | rfl
      · exact h.fifo c' hc'
      · exact hfifo
    · rw [setConnections_same, List.flatMap, List.map_reverse, map_given_set hc hgiven,
        ← List.map_reverse]
      exact h.given
  · refine ⟨?_, ?_⟩
    · rw [setConnections_other _ ha]
      exact h.fifo
    · rw [setConnections_other _ ha]
      exact h.given

/-- The message is lost, a new connection starts with it, or the newest connection takes it. -/
theorem post_cases {up : Bool} {bytes : B} {l m : List (Connection B M)}
    (h : post up bytes l = some m) : (up = false ∧ m = l) ∨ (up = true ∧ m = .spawn bytes :: l) ∨
      ∃ c k, l = c :: k ∧ c.running = true ∧ m = c.send bytes :: k := by
  cases l with
  | nil =>
    cases up with
    | false => exact .inl ⟨rfl, (Option.some.inj h).symm⟩
    | true => exact .inr (.inl ⟨rfl, (Option.some.inj h).symm⟩)
  | cons c k =>
    by_cases hr : c.running = true
    · obtain ⟨-, hm⟩ := Option.ite_none_right_eq_some.mp ((if_pos hr).symm.trans h)
      exact .inr (.inr ⟨c, k, rfl, hr, (Option.some.inj hm).symm⟩)
    · have hm := (if_neg hr).symm.trans h
      cases up with
      | false => exact .inl ⟨rfl, (Option.some.inj hm).symm⟩
      | true => exact .inr (.inl ⟨rfl, (Option.some.inj hm).symm⟩)

/-- The newest connection is given the message, or it is lost. -/
theorem Ordered.post {a' : A} {up : Bool} {bytes : B} {addresses : List A}
    {l : List (Connection B M)}
    (h : s.Ordered deserialize a) (hl : post up bytes (s.connections a') = some l) :
    (s.posting a' bytes addresses l).Ordered deserialize a := by
  by_cases ha : a = a'
  · subst ha
    refine ⟨?_, ?_⟩
    · intro c hc
      rw [posting_same] at hc
      rcases post_cases hl with ⟨-, rfl⟩ | ⟨-, rfl⟩ | ⟨d, m, hm, -, rfl⟩
      · exact h.fifo c hc
      · rcases List.mem_cons.mp hc with rfl | hc
        · exact Connection.fifo_spawn bytes
        · exact h.fifo c hc
      · have hfifo := h.fifo
        rw [hm] at hfifo
        rcases List.mem_cons.mp hc with rfl | hc
        · exact (hfifo d List.mem_cons_self).send bytes
        · exact hfifo c (List.mem_cons_of_mem _ hc)
    · rw [posting_same, postedTo_same]
      rcases post_cases hl with ⟨-, rfl⟩ | ⟨-, rfl⟩ | ⟨d, m, hm, -, rfl⟩
      · exact h.given.trans (List.sublist_append_left _ _)
      · rw [List.reverse_cons, List.flatMap_append, List.flatMap_singleton]
        exact h.given.append (List.Sublist.refl _)
      · have hgiven := h.given.append (List.Sublist.refl [bytes])
        rw [hm, List.reverse_cons, List.flatMap_append, List.flatMap_singleton,
          List.append_assoc] at hgiven
        rw [List.reverse_cons, List.flatMap_append, List.flatMap_singleton]
        exact hgiven
  · refine ⟨?_, ?_⟩
    · rw [posting_other ha]
      exact h.fifo
    · rw [posting_other ha, postedTo_other ha]
      exact h.given

theorem Ordered.act {x : Act A B} (h : s.Ordered deserialize a)
    (ht : s.act deserialize x = some t) : t.Ordered deserialize a := by
  cases x with
  | submit bytes addresses =>
    cases ht
    exact ⟨h.fifo, h.given⟩
  | recv =>
    unfold NetSender.act at ht
    dsimp only at ht
    split at ht
    · cases ht
      exact ⟨h.fifo, h.given⟩
    · cases ht
  | dispatch up =>
    unfold NetSender.act at ht
    dsimp only at ht
    split at ht
    · cases ht
    · cases ht
      exact ⟨h.fifo, h.given⟩
    · obtain ⟨l, hl, rfl⟩ := Option.map_eq_some_iff.mp ht
      exact h.post hl
  | connect a' n ok =>
    exact h.onConnection ht fun c d hc hd => ⟨hc.connect hd, Connection.connect_given hd⟩
  | write a' n ok =>
    exact h.onConnection ht fun c d hc hd => ⟨hc.write hd, Connection.write_given hd⟩
  | read a' n =>
    obtain ⟨u, new, hu, -, rfl⟩ := read_cases ht
    have hread := h.onConnection hu fun c d hc hd => ⟨hc.read hd, Connection.read_given hd⟩
    exact ⟨hread.fifo, hread.given⟩
  | cut a' n =>
    refine h.onConnection ht ?_
    rintro c d hc ⟨⟩
    exact ⟨hc.cut, rfl⟩

theorem Reached.ordered (h : Reached deserialize allowed s) (a : A) : s.Ordered deserialize a := by
  induction h with
  | new => exact ⟨fun c hc => (nomatch hc), .slnil⟩
  | act _ _ ht ih => exact ih.act ht

/-! ### What has been delivered, by the connection it came by -/

/-- Every delivery is on record with a connection that there is, in the order in which the
connection has made them. -/
structure Stamped (s : NetSender A B M) (a : A) : Prop where
  known : ∀ x ∈ s.arrived, x.1 = a → x.2.1 < (s.connections a).length
  delivered : ∀ n c, (s.connections a)[n]? = some c →
    s.deliveredBy a ((s.connections a).length - 1 - n) = c.delivered

theorem length_set_connections {a' : A} {n : ℕ} {d : Connection B M} :
    ((s.setConnections a' ((s.connections a').set n d)).connections a).length =
      (s.connections a).length := by
  by_cases ha : a = a'
  · rw [← ha, setConnections_same, List.length_set]
  · rw [setConnections_other _ ha]

theorem getElem?_set_connections {a' : A} {n k : ℕ} {d : Connection B M}
    (h : ¬ (a = a' ∧ n = k)) :
    ((s.setConnections a' ((s.connections a').set n d)).connections a)[k]? =
      (s.connections a)[k]? := by
  by_cases ha : a = a'
  · subst ha
    rw [setConnections_same, List.getElem?_set_ne fun hk => h ⟨rfl, hk⟩]
  · rw [setConnections_other _ ha]

theorem Stamped.onConnection {a' : A} {n : ℕ} {f : Connection B M → Option (Connection B M)}
    (h : s.Stamped a) (ht : s.onConnection a' n f = some t)
    (hf : ∀ c d, f c = some d → d.delivered = c.delivered) : t.Stamped a := by
  obtain ⟨d, hbind, rfl⟩ := Option.map_eq_some_iff.mp ht
  obtain ⟨c, hc, hd⟩ := Option.bind_eq_some_iff.mp hbind
  constructor
  · rw [length_set_connections]
    exact h.known
  · intro k e he
    rw [length_set_connections]
    by_cases hown : a = a' ∧ n = k
    · obtain ⟨rfl, rfl⟩ := hown
      rw [setConnections_same, List.getElem?_set_self (List.getElem?_eq_some_iff.mp hc).1] at he
      cases he
      rw [hf c d hd]
      exact h.delivered n c hc
    · rw [getElem?_set_connections hown] at he
      exact h.delivered k e he

theorem deliveredBy_eq_nil {k : ℕ} (h : s.Stamped a) (hk : (s.connections a).length ≤ k) :
    s.deliveredBy a k = [] := by
  unfold deliveredBy
  rw [List.map_eq_nil_iff, List.filter_eq_nil_iff]
  intro x hx hmem
  obtain ⟨ha, hn⟩ := of_decide_eq_true hmem
  have hlt := h.known x hx ha
  omega

/-- A new connection has delivered nothing. -/
theorem Stamped.post {a' : A} {up : Bool} {bytes : B} {addresses : List A}
    {l : List (Connection B M)} (h : s.Stamped a) (hl : post up bytes (s.connections a') = some l) :
    (s.posting a' bytes addresses l).Stamped a := by
  by_cases ha : a = a'
  · subst ha
    rcases post_cases hl with ⟨-, rfl⟩ | ⟨-, rfl⟩ | ⟨d, m, hm, -, rfl⟩
    · constructor
      · rw [posting_same]
        exact h.known
      · rw [posting_same]
        exact h.delivered
    · constructor
      · rw [posting_same]
        exact fun x hx hxa => Nat.lt_succ_of_lt (h.known x hx hxa)
      · intro n c hc
        rw [posting_same] at hc ⊢
        cases n with
        | zero =>
          cases hc
          change s.deliveredBy a (s.connections a).length = []
          exact deliveredBy_eq_nil h le_rfl
        | succ n =>
          have hback := h.delivered n c hc
          rwa [List.length_cons, Nat.add_sub_cancel, Nat.add_comm n 1, ← Nat.sub_sub]
    · have hknown := h.known
      have hdelivered := h.delivered
      rw [hm] at hknown hdelivered
      constructor
      · rw [posting_same]
        exact hknown
      · intro n c hc
        rw [posting_same] at hc ⊢
        cases n with
        | zero =>
          cases hc
          exact hdelivered 0 d rfl
        | succ n => exact hdelivered (n + 1) c hc
  · constructor
    · rw [posting_other ha]
      exact h.known
    · rw [posting_other ha]
      exact h.delivered

theorem deliveredBy_append {new : List (A × ℕ × M)} (k : ℕ) :
    { s with arrived := s.arrived ++ new }.deliveredBy a k =
      s.deliveredBy a k ++ (new.filter fun x => x.1 = a ∧ x.2.1 = k).map fun x => x.2.2 := by
  unfold deliveredBy
  rw [List.filter_append, List.map_append]

theorem deliveredBy_append_other {new : List (A × ℕ × M)} {k : ℕ}
    (hnew : ∀ x ∈ new, ¬ (x.1 = a ∧ x.2.1 = k)) :
    { s with arrived := s.arrived ++ new }.deliveredBy a k = s.deliveredBy a k := by
  have hnone : (new.filter fun x => x.1 = a ∧ x.2.1 = k) = [] :=
    List.filter_eq_nil_iff.mpr fun x hx hmem => hnew x hx (of_decide_eq_true hmem)
  rw [deliveredBy_append, hnone, List.map_nil, List.append_nil]

/-- What a connection delivers is put on record with its number. -/
theorem Stamped.read {a' : A} {n : ℕ} (h : s.Stamped a)
    (ht : s.act deserialize (.read a' n) = some t) : t.Stamped a := by
  obtain ⟨u, new, hu, hnew, rfl⟩ := read_cases ht
  obtain ⟨d, hbind, rfl⟩ := Option.map_eq_some_iff.mp hu
  obtain ⟨c, hc, hd⟩ := Option.bind_eq_some_iff.mp hbind
  obtain ⟨hn, -⟩ := List.getElem?_eq_some_iff.mp hc
  have harriving : new = (c.wire.head?.bind deserialize).toList.map fun m =>
      (a', (s.connections a').length - 1 - n, m) := by
    rw [hnew]
    dsimp only [arriving]
    rw [hc, Option.bind_some]
    cases c.wire.head?.bind deserialize <;> rfl
  have hnumber : ∀ x ∈ new, x.1 = a' ∧ x.2.1 = (s.connections a').length - 1 - n := by
    intro x hx
    rw [harriving] at hx
    obtain ⟨m, -, rfl⟩ := List.mem_map.mp hx
    exact ⟨rfl, rfl⟩
  constructor
  · intro x hx hxa
    change x.2.1 < ((s.setConnections a' _).connections a).length
    rw [length_set_connections]
    rcases List.mem_append.mp hx with hx | hx
    · exact h.known x hx hxa
    · obtain ⟨ha, hk⟩ := hnumber x hx
      obtain rfl : a = a' := hxa.symm.trans ha
      omega
  · intro k e he
    change ((s.setConnections a' _).connections a)[k]? = some e at he
    change NetSender.deliveredBy _ a (((s.setConnections a' _).connections a).length - 1 - k) = _
    rw [length_set_connections]
    by_cases hown : a = a' ∧ n = k
    · obtain ⟨rfl, rfl⟩ := hown
      rw [setConnections_same, List.getElem?_set_self hn] at he
      cases he
      rw [deliveredBy_append, harriving, Connection.read_delivered hd]
      refine congrArg₂ (· ++ ·) (h.delivered n c hc) ?_
      cases c.wire.head?.bind deserialize <;> simp
    · rw [getElem?_set_connections hown] at he
      obtain ⟨hlt, -⟩ := List.getElem?_eq_some_iff.mp he
      refine (deliveredBy_append_other fun x hx hmem => ?_).trans (h.delivered k e he)
      obtain ⟨ha, hk⟩ := hnumber x hx
      obtain rfl : a = a' := hmem.1.symm.trans ha
      have hne : n ≠ k := fun hk => hown ⟨rfl, hk⟩
      have hnumbers := hk.symm.trans hmem.2
      omega

theorem Stamped.act {x : Act A B} (h : s.Stamped a) (ht : s.act deserialize x = some t) :
    t.Stamped a := by
  cases x with
  | submit bytes addresses =>
    cases ht
    exact ⟨h.known, h.delivered⟩
  | recv =>
    unfold NetSender.act at ht
    dsimp only at ht
    split at ht
    · cases ht
      exact ⟨h.known, h.delivered⟩
    · cases ht
  | dispatch up =>
    unfold NetSender.act at ht
    dsimp only at ht
    split at ht
    · cases ht
    · cases ht
      exact ⟨h.known, h.delivered⟩
    · obtain ⟨l, hl, rfl⟩ := Option.map_eq_some_iff.mp ht
      exact h.post hl
  | connect a' n ok => exact h.onConnection ht fun c d hd => Connection.connect_delivered hd
  | write a' n ok => exact h.onConnection ht fun c d hd => Connection.write_delivered hd
  | read a' n => exact h.read ht
  | cut a' n =>
    refine h.onConnection ht ?_
    rintro c d ⟨⟩
    rfl

theorem Reached.stamped (h : Reached deserialize allowed s) (a : A) : s.Stamped a := by
  induction h with
  | new => exact ⟨fun x hx => (nomatch hx), fun n c hc => (nomatch hc)⟩
  | act _ _ ht ih => exact ih.act ht

theorem flatMap_range_reverse {l : List (Connection B M)} {g : ℕ → List M}
    (h : ∀ n c, l[n]? = some c → g (l.length - 1 - n) = c.delivered) :
    (List.range l.length).flatMap g = l.reverse.flatMap Connection.delivered := by
  induction l with
  | nil => rfl
  | cons c l ih =>
    rw [List.length_cons, List.range_succ, List.reverse_cons, List.flatMap_append,
      List.flatMap_append, List.flatMap_singleton, List.flatMap_singleton]
    refine congrArg₂ (· ++ ·) (ih fun n d hd => ?_) (h 0 c rfl)
    have hback := h (n + 1) d hd
    rwa [List.length_cons, Nat.add_sub_cancel, Nat.add_comm n 1, ← Nat.sub_sub] at hback

/-- The deliveries, sorted by connection. -/
theorem Stamped.sorted (h : s.Stamped a) :
    (List.range (s.connections a).length).flatMap (s.deliveredBy a) =
      (s.connections a).reverse.flatMap Connection.delivered :=
  flatMap_range_reverse h.delivered

theorem Stamped.perm (h : s.Stamped a) : (s.deliveredTo a).Perm
    ((List.range (s.connections a).length).flatMap (s.deliveredBy a)) := by
  have hparts := perm_flatMap_filter (f := fun x : A × ℕ × M => x.2.1)
    (l := s.arrived.filter fun x => x.1 = a) fun x hx =>
      h.known x (List.mem_of_mem_filter hx) (of_decide_eq_true (List.mem_filter.mp hx).2)
  refine (hparts.map fun x => x.2.2).trans (.of_eq ?_)
  rw [List.map_flatMap]
  refine List.flatMap_congr fun k _ => ?_
  unfold deliveredBy
  rw [List.filter_filter]
  refine congrArg _ (List.filter_congr fun x _ => ?_)
  rw [← Bool.decide_and, decide_eq_decide]
  exact and_comm

/-- By a single connection everything is delivered in order. -/
theorem Stamped.single (h : s.Stamped a) (hone : (s.connections a).length ≤ 1) :
    s.deliveredTo a = (List.range (s.connections a).length).flatMap (s.deliveredBy a) := by
  have hall : s.deliveredTo a = s.deliveredBy a 0 := by
    refine congrArg _ (List.filter_congr fun x hx =>
      decide_eq_decide.mpr ⟨fun ha => ⟨ha, ?_⟩, And.left⟩)
    have hlt := h.known x hx ha
    omega
  cases hlen : (s.connections a).length with
  | zero =>
    rw [hall]
    exact deliveredBy_eq_nil h hlen.le
  | succ n =>
    have hzero : n = 0 := by omega
    rw [hzero, hall]
    simp

/-- What `t` still has to deal with is part of what `s` has, and so is what it has
dealt with since. -/
structure Handles (s t : NetSender A B M) : Prop where
  waiting : ∀ y ∈ t.transmit ++ t.current.toList, ∃ l, (y.1, l) ∈ s.transmit ++
    s.current.toList ∧ y.2 ⊆ l
  posted : ∀ y ∈ t.posted, y ∈ s.posted ∨ ∃ l, (y.2, l) ∈ s.transmit ++ s.current.toList ∧ y.1 ∈ l

theorem act_handles {x : Act A B} (hx : ∀ bytes l, x ≠ .submit bytes l)
    (ht : s.act deserialize x = some t) : s.Handles t := by
  have hend : ∀ {a : A} {n : ℕ} {f : Connection B M → Option (Connection B M)},
      s.onConnection a n f = some t → s.Handles t := by
    intro a n f ht
    obtain ⟨d, -, rfl⟩ := Option.map_eq_some_iff.mp ht
    exact ⟨fun y hy => ⟨y.2, hy, List.Subset.refl _⟩, fun y hy => .inl hy⟩
  cases x with
  | submit bytes l => exact absurd rfl (hx bytes l)
  | recv =>
    unfold NetSender.act at ht
    dsimp only at ht
    split at ht
    · rename_i y rest _ htransmit
      cases ht
      refine ⟨fun z hz => ⟨z.2, ?_, List.Subset.refl _⟩, fun z hz => .inl hz⟩
      rw [htransmit]
      rcases List.mem_append.mp hz with hz | hz
      · exact List.mem_append_left _ (List.mem_cons_of_mem _ hz)
      · rw [List.mem_singleton.mp hz]
        exact List.mem_append_left _ List.mem_cons_self
    · cases ht
  | dispatch up =>
    unfold NetSender.act at ht
    dsimp only at ht
    split at ht
    · cases ht
    · cases ht
      refine ⟨fun z hz => ⟨z.2, ?_, List.Subset.refl _⟩, fun z hz => .inl hz⟩
      exact List.mem_append_left _ (by simpa using hz)
    · rename_i bytes a l hcurrent
      obtain ⟨k, -, rfl⟩ := Option.map_eq_some_iff.mp ht
      have hmem : (bytes, a :: l) ∈ s.transmit ++ s.current.toList :=
        List.mem_append_right _ (by rw [hcurrent]; exact List.mem_singleton.mpr rfl)
      constructor
      · intro z hz
        rcases List.mem_append.mp hz with hz | hz
        · exact ⟨z.2, List.mem_append_left _ hz, List.Subset.refl _⟩
        · rw [List.mem_singleton.mp hz]
          exact ⟨a :: l, hmem, List.subset_cons_self _ _⟩
      · intro z hz
        rcases List.mem_append.mp hz with hz | hz
        · exact .inl hz
        · rw [List.mem_singleton.mp hz]
          exact .inr ⟨a :: l, hmem, List.mem_cons_self⟩
  | connect a n ok => exact hend ht
  | write a n ok => exact hend ht
  | read a n =>
    obtain ⟨u, new, hu, -, rfl⟩ := read_cases ht
    obtain ⟨d, -, rfl⟩ := Option.map_eq_some_iff.mp hu
    exact ⟨fun y hy => ⟨y.2, hy, List.Subset.refl _⟩, fun y hy => .inl hy⟩
  | cut a n => exact hend ht

/-- Nothing goes wrong: no worker stops, no connection breaks, and what is handed in can be read. -/
def Act.Smooth (deserialize : B → Option M) : Act A B → Prop
  | .submit bytes _ => (deserialize bytes).isSome = true
  | .recv => True
  | .dispatch up => up = true
  | .connect _ _ ok => ok = true
  | .write _ _ ok => ok = true
  | .read _ _ => True
  | .cut _ _ => False

/-- What waits at the sender or is on its way to an address. -/
def pendingTo (s : NetSender A B M) (a : A) : List B :=
  (s.connections a).reverse.flatMap fun c => c.wire ++ c.queue

/-- There is at most one connection to an address. It has both ends, it has been given what was sent
there, and all of it can be read. -/
structure Steady (deserialize : B → Option M) (s : NetSender A B M) (a : A) : Prop where
  given : ((s.connections a).reverse.flatMap Connection.given) = s.postedTo a
  one : (s.connections a).length ≤ 1
  ends : ∀ c ∈ s.connections a, c.running = true ∧ c.reading = true
  readable : ∀ c ∈ s.connections a, ∀ bytes ∈ c.wire ++ c.queue, (deserialize bytes).isSome = true
  waiting : ∀ x ∈ s.transmit ++ s.current.toList, (deserialize x.1).isSome = true

/-- What one end of a connection does keeps both ends. -/
theorem Steady.onConnection {a' : A} {n : ℕ} {f : Connection B M → Option (Connection B M)}
    (h : s.Steady deserialize a) (ht : s.onConnection a' n f = some t)
    (hf : ∀ c d, c.running = true ∧ c.reading = true →
      (∀ bytes ∈ c.wire ++ c.queue, (deserialize bytes).isSome = true) → f c = some d →
      d.given = c.given ∧ (d.running = true ∧ d.reading = true) ∧
      d.wire ++ d.queue ⊆ c.wire ++ c.queue) :
    t.Steady deserialize a := by
  obtain ⟨d, hbind, rfl⟩ := Option.map_eq_some_iff.mp ht
  obtain ⟨c, hc, hd⟩ := Option.bind_eq_some_iff.mp hbind
  by_cases ha : a = a'
  · subst ha
    have hmem := List.mem_of_getElem? hc
    obtain ⟨hgiven, hends, hsub⟩ := hf c d (h.ends c hmem) (h.readable c hmem) hd
    refine ⟨?_, ?_, ?_, ?_, h.waiting⟩
    · rw [setConnections_same, List.flatMap, List.map_reverse, map_given_set hc hgiven,
        ← List.map_reverse]
      exact h.given
    · rw [setConnections_same, List.length_set]
      exact h.one
    · intro c' hc'
      rw [setConnections_same] at hc'
      rcases List.mem_or_eq_of_mem_set hc' with hc' | rfl
      · exact h.ends c' hc'
      · exact hends
    · intro c' hc'
      rw [setConnections_same] at hc'
      rcases List.mem_or_eq_of_mem_set hc' with hc' | rfl
      · exact h.readable c' hc'
      · exact fun bytes hb => h.readable c hmem bytes (hsub hb)
  · have hsame := setConnections_other (s := s) ((s.connections a').set n d) ha
    refine ⟨?_, ?_, ?_, ?_, h.waiting⟩
    · rw [hsame]
      exact h.given
    · rw [hsame]
      exact h.one
    · rw [hsame]
      exact h.ends
    · rw [hsame]
      exact h.readable

theorem Steady.post {a' : A} {bytes : B} {addresses : List A} {l : List (Connection B M)}
    (h : s.Steady deserialize a) (hs : s.current = some (bytes, a' :: addresses))
    (hl : NetSender.post true bytes (s.connections a') = some l) :
    (s.posting a' bytes addresses l).Steady deserialize a := by
  have hbytes : (deserialize bytes).isSome = true :=
    h.waiting (bytes, a' :: addresses)
      (List.mem_append_right _ (by rw [hs]; exact List.mem_singleton.mpr rfl))
  have hwaiting : ∀ x ∈ (s.posting a' bytes addresses l).transmit ++
      (s.posting a' bytes addresses l).current.toList, (deserialize x.1).isSome = true := by
    intro x hx
    rcases List.mem_append.mp hx with hx | hx
    · exact h.waiting x (List.mem_append_left _ hx)
    · rw [List.mem_singleton.mp hx]
      exact hbytes
  by_cases ha : a = a'
  · subst ha
    have hgiven := h.given
    rcases post_cases hl with ⟨hup, -⟩ | ⟨-, rfl⟩ | ⟨c, m, hm, -, rfl⟩
    · cases hup
    · -- a new connection is made only where there was none
      have hnil : s.connections a = [] := by
        cases hk : s.connections a with
        | nil => rfl
        | cons c k =>
          have hr := (h.ends c (by rw [hk]; exact List.mem_cons_self)).1
          rw [hk] at hl
          obtain ⟨-, hm⟩ := Option.ite_none_right_eq_some.mp ((if_pos hr).symm.trans hl)
          exact absurd (congrArg List.length (Option.some.inj hm)) (by simp)
      rw [hnil] at hgiven ⊢
      refine ⟨?_, ?_, ?_, ?_, hwaiting⟩
      · rw [posting_same, postedTo_same, ← hgiven]
        rfl
      · rw [posting_same]
        rfl
      · intro c hc
        rw [posting_same] at hc
        rw [List.mem_singleton.mp hc]
        exact ⟨rfl, rfl⟩
      · intro c hc
        rw [posting_same] at hc
        rw [List.mem_singleton.mp hc]
        intro x hx
        rw [List.mem_singleton.mp hx]
        exact hbytes
    · have hlength := h.one
      have hends := h.ends
      have hreadable := h.readable
      rw [hm] at hgiven hlength hends hreadable
      have hm' : m = [] := List.length_eq_zero_iff.mp (by simpa using hlength)
      subst hm'
      refine ⟨?_, ?_, ?_, ?_, hwaiting⟩
      · rw [posting_same, postedTo_same, ← hgiven]
        simp [Connection.send]
      · rw [posting_same]
        rfl
      · intro d hd
        rw [posting_same] at hd
        rw [List.mem_singleton.mp hd]
        exact hends c List.mem_cons_self
      · intro d hd
        rw [posting_same] at hd
        rw [List.mem_singleton.mp hd]
        intro x hx
        rcases List.mem_append.mp
          ((List.append_assoc c.wire c.queue [bytes]).symm ▸ hx) with hx | hx
        · exact hreadable c List.mem_cons_self x hx
        · rw [List.mem_singleton.mp hx]
          exact hbytes
  · refine ⟨?_, ?_, ?_, ?_, hwaiting⟩
    · rw [posting_other ha, postedTo_other ha]
      exact h.given
    · rw [posting_other ha]
      exact h.one
    · rw [posting_other ha]
      exact h.ends
    · rw [posting_other ha]
      exact h.readable

theorem Steady.act {x : Act A B} (h : s.Steady deserialize a) (hx : x.Smooth deserialize)
    (ht : s.act deserialize x = some t) : t.Steady deserialize a := by
  cases x with
  | submit bytes addresses =>
    cases ht
    refine ⟨h.given, h.one, h.ends, h.readable, fun y hy => ?_⟩
    rcases List.mem_append.mp hy with hy | hy
    · rcases List.mem_append.mp hy with hy | hy
      · exact h.waiting y (List.mem_append_left _ hy)
      · rw [List.mem_singleton.mp hy]
        exact hx
    · exact h.waiting y (List.mem_append_right _ hy)
  | recv =>
    unfold NetSender.act at ht
    dsimp only at ht
    split at ht
    · rename_i y rest hcurrent htransmit
      cases ht
      refine ⟨h.given, h.one, h.ends, h.readable, fun z hz => h.waiting z ?_⟩
      rw [htransmit]
      rcases List.mem_append.mp hz with hz | hz
      · exact List.mem_append_left _ (List.mem_cons_of_mem _ hz)
      · rw [List.mem_singleton.mp hz]
        exact List.mem_append_left _ List.mem_cons_self
    · cases ht
  | dispatch up =>
    cases hx
    unfold NetSender.act at ht
    dsimp only at ht
    split at ht
    · cases ht
    · cases ht
      exact ⟨h.given, h.one, h.ends, h.readable, fun y hy =>
        h.waiting y (List.mem_append_left _ (by simpa using hy))⟩
    · rename_i hcurrent
      obtain ⟨l, hl, rfl⟩ := Option.map_eq_some_iff.mp ht
      exact h.post hcurrent hl
  | connect a' n ok =>
    cases hx
    refine h.onConnection ht fun c d hends _ hd => ⟨Connection.connect_given hd, ?_⟩
    obtain ⟨-, ⟨⟩⟩ := Option.ite_none_right_eq_some.mp hd
    exact ⟨hends, List.Subset.refl _⟩
  | write a' n ok =>
    cases hx
    refine h.onConnection ht fun c d hends _ hd => ⟨Connection.write_given hd, ?_⟩
    unfold Connection.write at hd
    split at hd
    · cases hd
    · rename_i bytes rest hq
      obtain ⟨-, ⟨⟩⟩ := Option.ite_none_right_eq_some.mp hd
      refine ⟨hends, ?_⟩
      rw [if_pos rfl, if_pos hends.2, hq, List.append_cons c.wire bytes rest]
      exact List.Subset.refl _
  | read a' n =>
    obtain ⟨u, new, hu, -, rfl⟩ := read_cases ht
    suffices hread : u.Steady deserialize a from
      ⟨hread.given, hread.one, hread.ends, hread.readable, hread.waiting⟩
    refine h.onConnection hu fun c d hends hreadable hd => ⟨Connection.read_given hd, ?_⟩
    unfold Connection.read at hd
    split at hd
    · cases hd
    · rename_i bytes rest hw
      have hbytes := hreadable bytes (by rw [hw]; exact List.mem_cons_self)
      split at hd
      · cases hd
        rw [hw]
        exact ⟨hends, List.subset_cons_self _ _⟩
      · rename_i hnone
        rw [hnone] at hbytes
        cases hbytes
  | cut a' n => cases hx

theorem Reached.steady (h : Reached deserialize allowed s)
    (hx : ∀ x, allowed x → x.Smooth deserialize) (a : A) : s.Steady deserialize a := by
  induction h with
  | new =>
    exact ⟨rfl, Nat.zero_le _, fun c hc => (nomatch hc), fun c hc => (nomatch hc),
      fun x hx => (nomatch hx)⟩
  | act _ ha ht ih => exact ih.act (hx _ ha) ht

/-- What is delivered at an address is, connection by connection, a part of what was sent
there, in the order of sending and without repetition; only messages of different connections
can overtake one another. A connection that still has both ends holds or has delivered all it
was given. As long as nothing goes wrong, what was delivered and what is under way together are
what was sent. -/
theorem Reached.conveys (h : Reached deserialize allowed s) (a : A) :
    (((List.range (s.connections a).length).flatMap (s.deliveredBy a)).map some).Sublist
        ((s.postedTo a).map deserialize) ∧
      (s.deliveredTo a).Perm ((List.range (s.connections a).length).flatMap (s.deliveredBy a)) ∧
      (∀ c ∈ s.connections a, c.running = true → c.reading = true →
        c.given.map deserialize = c.delivered.map some ++ (c.wire ++ c.queue).map deserialize) ∧
      ((∀ x, allowed x → x.Smooth deserialize) →
        (s.postedTo a).map deserialize =
          (s.deliveredTo a).map some ++ (s.pendingTo a).map deserialize) := by
  have hordered := h.ordered a
  have hstamped := h.stamped a
  refine ⟨?_, hstamped.perm, fun c hc => (hordered.fifo c hc).whole, fun hx => ?_⟩
  · rw [hstamped.sorted]
    refine (delivered_sublist ?_).trans (hordered.given.map deserialize)
    exact fun c hc => hordered.fifo c (List.mem_reverse.mp hc)
  · have hsteady := h.steady hx a
    rw [hstamped.single hsteady.one, hstamped.sorted]
    unfold pendingTo
    rw [← hsteady.given]
    have hfifo := hordered.fifo
    have hends := hsteady.ends
    have hone := hsteady.one
    generalize s.connections a = l at hfifo hends hone
    cases l with
    | nil => rfl
    | cons c l =>
      obtain rfl : l = [] := List.length_eq_zero_iff.mp (by simpa using hone)
      obtain ⟨hr, hd⟩ := hends c List.mem_cons_self
      simpa using (hfifo c List.mem_cons_self).whole hr hd

theorem Reached.acts {acts : List (Act A B)} (h : Reached deserialize allowed s)
    (ha : ∀ x ∈ acts, allowed x) (ht : acts.foldlM (NetSender.act deserialize) s = some t) :
    Reached deserialize allowed t := by
  induction acts generalizing s with
  | nil =>
    cases ht
    exact h
  | cons x acts ih =>
    obtain ⟨r, hr, ht⟩ := Option.bind_eq_some_iff.mp ht
    exact ih (h.act (ha x List.mem_cons_self) hr) (fun y hy => ha y (List.mem_cons_of_mem _ hy)) ht

end NetSender

section Reconnecting

open NetSender

/-- The task that writes to the first address fails with a message in its channel, and the
next message is sent on a new connection. It overtakes the one that is still on the wire of
the old connection. -/
private def reconnecting : List (Act ℕ ℕ) :=
  [.submit 7 [0, 1], .recv, .dispatch true, .dispatch true, .dispatch true, .connect 0 0 true,
    .write 0 0 true, .submit 8 [0], .recv, .dispatch true, .dispatch true, .write 0 0 false,
    .submit 9 [0], .recv, .dispatch true, .connect 0 0 true, .write 0 0 true, .read 0 0, .read 0 1]

theorem conveys_toNewConnection :
    ∃ s : NetSender ℕ ℕ ℕ, Reached some (fun _ => True) s ∧
      s.postedTo 0 = [7, 8, 9] ∧ s.deliveredTo 0 = [9, 7] ∧
      ((s.deliveredBy 0 0 ++ s.deliveredBy 0 1).map some).Sublist ((s.postedTo 0).map some) := by
  have hrun : ∃ s, reconnecting.foldlM (NetSender.act some) new = some s ∧
      (s.postedTo 0 = [7, 8, 9] ∧ s.deliveredTo 0 = [9, 7]) ∧ (s.connections 0).length = 2 :=
    ⟨_, rfl, ⟨rfl, rfl⟩, rfl⟩
  obtain ⟨s, hs, ⟨hposted, hdelivered⟩, hlength⟩ := hrun
  have h : Reached some (fun _ => True) s := Reached.new.acts (fun _ _ => trivial) hs
  refine ⟨s, h, hposted, hdelivered, ?_⟩
  simpa [hlength, List.range_succ] using (h.conveys 0).1

end Reconnecting

end Ipotane
