import Ipotane.Draws

/-! The two queues of a mempool, and the digests that its node puts into blocks. -/
namespace Ipotane

open Lib Handler

section Queues

variable [Crypto]

namespace Mempool

/-- The queue that a request with the tag is answered from. -/
def queue (m : Mempool) (tag : ℕ) : List Digest := if tag = OPT then m.optQueue else m.pesQueue

/-- The payload that a message brings. -/
def brought : MempoolMessage → Option Payload
  | .OwnPayload p | .Payload p => some p
  | .PayloadRequest _ _ => none

variable {cfg : MempoolConfig} {codec : Codec} {m t u : Mempool} {full : Bool}
  {d : Digest} {p : Payload} {tag : ℕ}

/-! ### Tasks that leave the queues alone -/

def SameQueues (m t : Mempool) : Prop := ∀ tag, t.queue tag = m.queue tag

theorem sameQueues_refl : SameQueues m m := fun _ => rfl

theorem SameQueues.trans (h : SameQueues m t) (h' : SameQueues t u) : SameQueues m u :=
  fun tag => (h' tag).trans (h tag)

theorem sameQueues_of (ho : t.optQueue = m.optQueue) (hp : t.pesQueue = m.pesQueue) :
    SameQueues m t := by
  intro tag
  unfold queue
  rw [ho, hp]

theorem sameQueues_of_moves {α : Type} {x : Task α} (h : Moves SameQueues m x) :
    SameQueues m (x m).2 := by
  unfold Moves at h
  generalize (x m).2 = t at h ⊢
  induction h with
  | refl => exact sameQueues_refl
  | tail _ hlast ih => exact ih.trans hlast

theorem stays_transmit (x : MempoolMessage) (dest : Option PublicKey) :
    Moves SameQueues m (transmit cfg x dest) :=
  moves_reads_bind (reads_ensure _ _) fun _ _ => moves_update (sameQueues_of rfl rfl)

theorem stays_processOwnPayload (d : Digest) (p : Payload) :
    Moves SameQueues m (processOwnPayload cfg full d p) := by
  refine moves_reads_bind (reads_ensure _ _) fun _ _ => ?_
  exact moves_update_bind (sameQueues_of rfl rfl) (stays_transmit _ _)

theorem stays_handleRequest (requestor : PublicKey) (digests : List Digest) :
    ∀ m, Moves SameQueues m (handleRequest cfg codec requestor digests) := by
  induction digests with
  | nil => exact fun m => moves_pure ()
  | cons digest digests ih =>
    intro m
    refine moves_self_bind ?_
    dsimp only
    split
    · exact ih m
    · split
      · exact moves_bind (moves_fail _) fun _ t _ => ih t
      · exact moves_bind (stays_transmit _ _) fun _ t _ => ih t

theorem sameQueues_verifyPayload {b : Block} : SameQueues m (verifyPayload b tag m).2 := by
  refine sameQueues_of_moves (moves_self_bind (moves_ite (fun _ => moves_pure _) fun _ => ?_))
  exact moves_update_bind (sameQueues_of rfl rfl) (moves_pure _)

theorem sameQueues_takeInner {x : SynchronizerMessage} : SameQueues m (takeInner cfg x m).2 := by
  refine sameQueues_of_moves ?_
  cases x with
  | Sync missing b tag =>
    refine moves_self_bind (moves_ite (fun _ => moves_pure ()) fun _ => ?_)
    refine moves_update_bind (sameQueues_of rfl rfl)
      (moves_ite (fun _ => ?_) fun _ => moves_pure ())
    exact moves_update_bind (sameQueues_of rfl rfl) (moves_expect (stays_transmit _ _))
  | Clean round => exact moves_update (sameQueues_of rfl rfl)

/-! ### A payload that comes -/

/-- The task ends well and puts the digest into both queues, or it fails and leaves them alone. -/
def Enqueues (d : Digest) (m : Mempool) (x : Task Unit) : Prop :=
  (x m).1 = .ok () ∧ (∀ tag, (x m).2.queue tag = (m.queue tag).insert d) ∨
    (x m).1 ≠ .ok () ∧ SameQueues m (x m).2

theorem enqueues_enqueue : Enqueues d m (enqueue d) := by
  refine .inl ⟨rfl, fun tag => ?_⟩
  unfold queue
  split <;> rfl

theorem enqueues_bind {α : Type} {x : Task α} {f : α → Task Unit} (hx : Moves SameQueues m x)
    (hf : ∀ a t, x m = (.ok a, t) → Enqueues d t (f a)) : Enqueues d m (x >>= f) := by
  have hsame := sameQueues_of_moves hx
  cases hrun : x m with
  | mk o t =>
    rw [hrun] at hsame
    cases o with
    | ok a =>
      have hbind : (x >>= f) m = f a t := bind_run hrun
      rcases hf a t hrun with ⟨hok, hq⟩ | ⟨hne, hq⟩
      · refine .inl ⟨by rw [hbind, hok], fun tag => ?_⟩
        rw [hbind, hq tag, hsame tag]
      · refine .inr ⟨by rwa [hbind], ?_⟩
        rw [hbind]
        exact SameQueues.trans hsame hq
    | _ =>
      refine .inr ?_
      rw [bind_eq, andThen, hrun]
      refine ⟨?_, hsame⟩
      intro h
      cases h

theorem enqueues_ensure_bind {c : Prop} [Decidable c] {e : MempoolError} {f : Unit → Task Unit}
    (hf : Enqueues d m (f ())) : Enqueues d m (ensureM c e >>= f) := by
  refine enqueues_bind (moves_ite (fun _ => moves_pure ()) fun _ => moves_fail e) fun _ t hrun => ?_
  cases (reads_ensure c e).eq hrun
  exact hf

/-- A message with a payload is taken with success, and the payload is queued, or not at all. -/
theorem enqueues_handle {x : MempoolMessage} (hx : brought x = some p) :
    Enqueues p.digest m (handle cfg codec full x) := by
  cases x with
  | OwnPayload p' =>
    cases hx
    refine enqueues_bind (x := self) (moves_pure m) fun s t hrun => ?_
    cases hrun
    refine enqueues_ensure_bind ?_
    exact enqueues_bind (stays_processOwnPayload _ _) fun _ _ _ => enqueues_enqueue
  | Payload p' =>
    cases hx
    refine enqueues_ensure_bind (enqueues_ensure_bind (enqueues_ensure_bind ?_))
    exact enqueues_bind (moves_update (sameQueues_of rfl rfl)) fun _ _ _ => enqueues_enqueue
  | PayloadRequest digests requestor => cases hx

theorem sameQueues_request {x : MempoolMessage} (hx : brought x = none) :
    SameQueues m (handle cfg codec full x m).2 := by
  cases x with
  | OwnPayload p => cases hx
  | Payload p => cases hx
  | PayloadRequest digests requestor => exact sameQueues_of_moves (stays_handleRequest _ _ m)

/-! ### Payloads that go -/

theorem mem_queue_insert {d' : Digest} (h : t.queue tag = (m.queue tag).insert d) :
    d' ∈ t.queue tag ↔ d = d' ∨ d' ∈ m.queue tag := by
  rw [h, List.mem_insert_iff, eq_comm]

theorem queue_cleanup {digests : List Digest} {round : ℕ} :
    (cleanup digests round m).2.queue tag = (m.queue tag).filter (· ∉ digests) := by
  unfold queue
  split <;> rfl


end Mempool

namespace Node

variable {cfg : Config} {mempool : MempoolConfig} {codec : Codec} {n n' : Node}
  {m t : Mempool} {full : Bool}
  {made : Option Payload} {order digests : List Digest} {tag : ℕ} {d : Digest} {b : Block}

/-! ### An answer -/

/-- How many digests a request asks for. -/
def share (cfg : Config) : ℕ := cfg.parameters.maxPayloadSize / Mempool.digestSize

/-- What the core is given is cut off from the queue, or it is a payload that is made
on the spot. -/
structure Answers (cfg : Config) (made : Option Payload) (tag : ℕ) (m t : Mempool)
    (digests : List Digest) : Prop where
  rest : ∀ k, t.queue k =
    if tag = OPT ↔ k = OPT then (m.queue k).filter (· ∉ digests) else m.queue k
  source : (digests.Nodup ∧ digests.length ≤ share cfg ∧ digests ⊆ m.queue tag) ∨
    (m.queue tag = [] ∧ ∃ p, made = some p ∧ digests = [p.digest])

theorem answers_empty (hq : m.queue tag = []) (h : m.SameQueues t)
    (hs : digests = [] ∨ ∃ p, made = some p ∧ digests = [p.digest]) :
    Answers cfg made tag m t digests where
  rest k := by
    rw [h k]
    split
    · rename_i hk
      have hk : m.queue k = m.queue tag := by
        unfold Mempool.queue
        simp only [hk]
      rw [hk, hq]
      rfl
    · rfl
  source := by
    rcases hs with rfl | hs
    · exact .inl ⟨List.nodup_nil, Nat.zero_le _, List.nil_subset _⟩
    · exact .inr ⟨hq, hs⟩

theorem answerGet_answers (hp : order.Perm (m.queue tag)) (hn : (m.queue tag).Nodup)
    (h : answerGet cfg mempool full made order tag m = (digests, t)) :
    Answers cfg made tag m t digests := by
  by_cases hask : (tag = OPT ∧ m.optQueue = []) ∨ (tag = PES ∧ m.pesQueue = [])
  · have hq : m.queue tag = [] := by
      unfold Mempool.queue
      rcases hask with ⟨rfl, hq⟩ | ⟨rfl, hq⟩
      · exact hq
      · exact hq
    have hsame : Moves Mempool.SameQueues m
        (Mempool.getPayload mempool full made order cfg.parameters.maxPayloadSize tag) := by
      refine moves_self_bind (moves_ite (fun _ => ?_) fun hn => absurd hask hn)
      cases made with
      | none => exact moves_pure []
      | some p => exact moves_bind (Mempool.stays_processOwnPayload _ _) fun _ _ _ => moves_pure _
    have hsame := Mempool.sameQueues_of_moves hsame
    unfold answerGet at h
    split at h
    · rename_i ds u hget
      cases h
      rw [hget] at hsame
      refine answers_empty hq hsame ?_
      obtain ⟨s, s', h₁, hget⟩ := bind_ok hget
      cases h₁
      rw [if_pos hask] at hget
      cases made with
      | none =>
        cases hget
        exact .inl rfl
      | some p =>
        obtain ⟨_, v, _, h₃⟩ := bind_ok hget
        cases h₃
        exact .inr ⟨p, rfl, rfl⟩
    · rename_i hget
      cases h
      rw [hget] at hsame
      exact answers_empty hq hsame (.inl rfl)
  · have hget : Mempool.getPayload mempool full made order cfg.parameters.maxPayloadSize tag m =
        (.ok (order.take (share cfg)), if tag = OPT then
          { m with optQueue := m.optQueue.filter (· ∉ order.take (share cfg)) }
          else { m with pesQueue := m.pesQueue.filter (· ∉ order.take (share cfg)) }) := by
      unfold Mempool.getPayload
      rw [bind_run (x := self) rfl, if_neg hask]
      by_cases ho : tag = OPT
      · simp only [if_pos ho]
        rfl
      · simp only [if_neg ho]
        rfl
    unfold answerGet at h
    rw [hget] at h
    cases h
    refine ⟨fun k => ?_, .inl ⟨?_, List.length_take_le _ _, ?_⟩⟩
    · by_cases ho : tag = OPT <;> by_cases hk : k = OPT <;> simp [Mempool.queue, ho, hk]
    · exact (hp.nodup_iff.mpr hn).sublist (List.take_sublist _ _)
    · exact fun d hd => hp.subset (List.mem_of_mem_take hd)

/-! ### What has happened to the queues -/

/-- A payload is queued, or an entry of the record is carried out. -/
inductive Mark
  | came (p : Payload)
  | served (x : Event)

def Mark.entry : Mark → Option Event
  | .came _ => none
  | .served x => some x

/-- The digests that an entry takes out of the queue for the tag. -/
def takes (tag : ℕ) : Event → List Digest
  | .sign (.block b) => if b.tag = OPT ↔ tag = OPT then b.payload else []
  | .cleanup b => b.payload
  | _ => []

/-- The payload of the digest has come since the digest was last taken out. -/
def Waits (tag : ℕ) (d : Digest) : List Mark → Prop
  | [] => False
  | .came p :: past => p.digest = d ∨ Waits tag d past
  | .served x :: past => Waits tag d past ∧ d ∉ takes tag x

/-- A block is made of digests that wait, each of them once and not too many of them, or, where none
waits, of a single payload. -/
def Draws (cfg : Config) (x : Mark) (past : List Mark) : Prop :=
  ∀ b, x = .served (.sign (.block b)) →
    (b.payload.Nodup ∧ b.payload.length ≤ share cfg ∧ ∀ d ∈ b.payload, Waits b.tag d past) ∨
      ((∀ d, ¬ Waits b.tag d past) ∧ ∃ p : Payload, b.payload = [p.digest])

/-- A node and what has happened to its queues, the last first. -/
inductive Lives (cfg : Config) (mempool : MempoolConfig) (codec : Codec) : List Mark → Node → Prop
  | new : Lives cfg mempool codec [] .new
  | take {l : List Mark} {n : Node} {full : Bool} {x : MempoolMessage} {p : Payload} {t : Mempool}
      (h : Lives cfg mempool codec l n) (hx : Mempool.brought x = some p)
      (ht : Mempool.handle mempool codec full x n.mempool = (.ok (), t)) :
      Lives cfg mempool codec (.came p :: l) { n with mempool := t }
  | serve {l : List Mark} {n n' : Node} {e : ℕ} {x : Event} {rest : List (ℕ × Event)}
      (h : Lives cfg mempool codec l n) (hd : n.due = (e, x) :: rest)
      (hs : Serves cfg mempool x n n') :
      Lives cfg mempool codec (.served x :: l) { n' with due := rest }
  | other {l : List Mark} {n n' : Node} (h : Lives cfg mempool codec l n)
      (hs : Step cfg mempool codec n n')
      (hd : n.due = [] ∨ n'.due = n.due) (hq : n.mempool.SameQueues n'.mempool) :
      Lives cfg mempool codec l n'

variable {l : List Mark}

/-- Every step of the node is accounted for. -/
theorem Lives.step (h : Lives cfg mempool codec l n) (hs : Step cfg mempool codec n n') :
    ∃ new, Lives cfg mempool codec (new ++ l) n' := by
  have hs' := hs
  cases hs with
  | turn ha hd _ _ _ _ => exact ⟨[], h.other hs' (.inl hd) Mempool.sameQueues_refl⟩
  | serve hd hx => exact ⟨[_], h.serve hd hx⟩
  | message full x =>
    cases hx : Mempool.brought x with
    | none => exact ⟨[], h.other hs' (.inr rfl) (Mempool.sameQueues_request hx)⟩
    | some p =>
      by_cases hok : (Mempool.handle mempool codec full x n.mempool).1 = .ok ()
      · exact ⟨[.came p], h.take hx (Prod.ext hok rfl)⟩
      · refine ⟨[], h.other hs' (.inr rfl) ?_⟩
        rcases Mempool.enqueues_handle hx with ⟨hok', _⟩ | ⟨_, hq⟩
        · exact absurd hok' hok
        · exact hq
  | @takeInner x rest t hi ht =>
    refine ⟨[], h.other hs' (.inr rfl) ?_⟩
    have hq := @Mempool.sameQueues_takeInner _ mempool { n.mempool with inner := rest } x
    rw [ht] at hq
    exact hq
  | finishWaiter hw hk ht =>
    cases ht
    exact ⟨[], h.other hs' (.inr rfl) (Mempool.sameQueues_of rfl rfl)⟩
  | dropWaiter hw hc => exact ⟨[], h.other hs' (.inr rfl) (Mempool.sameQueues_of rfl rfl)⟩
  | takeBlock hb =>
    refine ⟨[], h.other hs' (.inr ?_) ?_⟩
    · split <;> rfl
    · split <;> exact Mempool.sameQueues_refl
  | finishBlock hb hp => exact ⟨[], h.other hs' (.inr rfl) Mempool.sameQueues_refl⟩

theorem exists_lives (h : Relation.ReflTransGen (Step cfg mempool codec) .new n) :
    ∃ l, Lives cfg mempool codec l n := by
  induction h with
  | refl => exact ⟨[], .new⟩
  | tail _ hs ih =>
    obtain ⟨l, hl⟩ := ih
    obtain ⟨new, hn⟩ := hl.step hs
    exact ⟨new ++ l, hn⟩

/-- The history has every entry of the record that has been carried out. -/
theorem Lives.recorded (h : Lives cfg mempool codec l n) :
    ∃ past, n.core.trace = n.due.reverse ++ past ∧
    past.map Prod.snd = l.filterMap Mark.entry ++ Core.new.trace.map Prod.snd := by
  induction h with
  | new => exact ⟨Core.new.trace, rfl, rfl⟩
  | take _ _ _ ih => exact ih
  | @serve l n n' e x rest _ hd hs ih =>
    obtain ⟨past, htrace, hpast⟩ := ih
    refine ⟨(e, x) :: past, ?_, ?_⟩
    · have hcore : n'.core = n.core := by cases hs <;> rfl
      change n'.core.trace = rest.reverse ++ (e, x) :: past
      rw [hcore, htrace, hd, List.reverse_cons, List.append_assoc]
      rfl
    · change x :: past.map Prod.snd = x :: (l.filterMap Mark.entry ++ _)
      rw [hpast]
  | @other l n n' _ hs hd _ ih =>
    obtain ⟨past, htrace, hpast⟩ := ih
    cases hs with
    | @turn fuel i o t new ha hdue hi hr ho ht =>
      refine ⟨past, ?_, hpast⟩
      change t.trace = new.reverse.reverse ++ past
      rw [ht, htrace, hdue, List.reverse_reverse]
      rfl
    | @serve n₁ e x rest hdue hx =>
      rw [hdue] at hd
      rcases hd with hd | hd
      · cases hd
      · exact absurd (congrArg List.length hd) (Nat.succ_ne_self _).symm
    | takeBlock hb =>
      refine ⟨past, ?_, hpast⟩
      split <;> exact htrace
    | _ => exact ⟨past, htrace, hpast⟩

/-! ### The queues as their history says -/

/-- The queues hold what waits, each digest once. -/
structure Queued (l : List Mark) (m : Mempool) : Prop where
  mem : ∀ tag d, d ∈ m.queue tag ↔ Waits tag d l
  nodup : ∀ tag, (m.queue tag).Nodup

theorem queued_new : Queued [] .new where
  mem tag d := by
    unfold Mempool.queue
    split <;> exact ⟨nofun, nofun⟩
  nodup tag := by
    unfold Mempool.queue
    split <;> exact List.nodup_nil

theorem Queued.same (h : Queued l m) (hs : m.SameQueues t) : Queued l t where
  mem tag d := by rw [hs tag, h.mem]
  nodup tag := by
    rw [hs tag]
    exact h.nodup tag

theorem Queued.take (h : Queued l m) {p : Payload}
    (hq : ∀ tag, t.queue tag = (m.queue tag).insert p.digest) : Queued (.came p :: l) t where
  mem tag d := by
    rw [Mempool.mem_queue_insert (hq tag), h.mem]
    rfl
  nodup tag := by
    rw [hq tag]
    exact (h.nodup tag).insert

/-- An entry is carried out that takes some digests out of the queues. -/
theorem Queued.cut (h : Queued l m) {x : Event}
    (hq : ∀ tag, t.queue tag = (m.queue tag).filter (· ∉ takes tag x)) :
    Queued (.served x :: l) t where
  mem tag d := by
    rw [hq tag, List.mem_filter, h.mem, decide_eq_true_iff]
    rfl
  nodup tag := by
    rw [hq tag]
    exact (h.nodup tag).filter _

theorem Queued.untaken (h : Queued l m) {x : Event} (hx : ∀ tag, takes tag x = [])
    (hs : m.SameQueues t) : Queued (.served x :: l) t := by
  refine h.cut fun tag => ?_
  rw [hs tag, hx tag]
  exact (List.filter_eq_self.mpr fun d _ => decide_eq_true List.not_mem_nil).symm

theorem Queued.drawn (h : Queued l m) (ha : Answers cfg made b.tag m t b.payload) :
    Queued (.served (.sign (.block b)) :: l) t := by
  refine h.cut fun tag => ?_
  rw [ha.rest tag]
  dsimp only [takes]
  split
  · rfl
  · exact (List.filter_eq_self.mpr fun d _ => decide_eq_true List.not_mem_nil).symm

theorem Queued.draws (h : Queued l m) (ha : Answers cfg made b.tag m t b.payload) :
    Draws cfg (.served (.sign (.block b))) l := by
  intro c hc
  cases hc
  rcases ha.source with ⟨hn, hlen, hsub⟩ | ⟨hq, p, _, hp⟩
  · exact .inl ⟨hn, hlen, fun d hd => (h.mem _ d).mp (hsub hd)⟩
  · refine .inr ⟨fun d hd => ?_, p, hp⟩
    have hd := (h.mem _ d).mpr hd
    rw [hq] at hd
    cases hd

theorem Queued.serve (h : Queued l n.mempool) {x : Event} (hs : Serves cfg mempool x n n') :
    Queued (.served x :: l) n'.mempool ∧ Draws cfg (.served x) l := by
  cases hs with
  | draw hp hget =>
    have ha := answerGet_answers hp (h.nodup _) hget
    exact ⟨h.drawn ha, h.draws ha⟩
  | accept _ => exact ⟨h.untaken (fun _ => rfl) Mempool.sameQueues_refl, nofun⟩
  | @suspend _ b tag m hv =>
    have hq := @Mempool.sameQueues_verifyPayload _ n.mempool tag b
    rw [hv] at hq
    exact ⟨h.untaken (fun _ => rfl) hq, nofun⟩
  | write => exact ⟨h.untaken (fun _ => rfl) (Mempool.sameQueues_of rfl rfl), nofun⟩
  | sync => exact ⟨h.untaken (fun _ => rfl) Mempool.sameQueues_refl, nofun⟩
  | cleanup => exact ⟨h.cut fun tag => Mempool.queue_cleanup, nofun⟩
  | other hx =>
    refine ⟨h.untaken (fun tag => ?_) Mempool.sameQueues_refl, fun b hb => ?_⟩
    · unfold takes
      split
      · exact absurd rfl (hx _ 0).1
      · exact absurd rfl (hx _ 0).2.2.2.2.2
      · rfl
    · cases hb
      exact absurd rfl (hx b 0).1

/-- A queue holds the digests whose payload has come since they were last taken out of it, and the
blocks of the node are made of these. -/
theorem Lives.draws_waiting (h : Lives cfg mempool codec l n) :
    (∀ tag d, d ∈ n.mempool.queue tag ↔ Waits tag d l) ∧ Along (Draws cfg) l ∧
      ∃ past, n.core.trace = n.due.reverse ++ past ∧
        past.map Prod.snd = l.filterMap Mark.entry ++ Core.new.trace.map Prod.snd := by
  suffices hboth : Queued l n.mempool ∧ Along (Draws cfg) l from ⟨hboth.1.mem, hboth.2, h.recorded⟩
  induction h with
  | new => exact ⟨queued_new, trivial⟩
  | @take l n full x p t _ hx ht ih =>
    refine ⟨ih.1.take ?_, nofun, ih.2⟩
    rcases @Mempool.enqueues_handle _ mempool codec n.mempool full p x hx with ⟨_, hq⟩ | ⟨hne, _⟩
    · rwa [ht] at hq
    · exact absurd (congrArg Prod.fst ht) hne
  | serve _ hd hs ih =>
    obtain ⟨hq, hdraws⟩ := ih.1.serve hs
    exact ⟨hq, hdraws, ih.2⟩
  | other _ hs hd hq ih => exact ⟨ih.1.same hq, ih.2⟩

end Node

end Queues

/-! ### A payload that is drawn from both queues -/

/-- Node `1`, which takes the payload into its first block on either path. -/
def drawingConfig : Config :=
  { sampleConfig 1 with payload := fun k => if k < 2 then [samplePayload.digest] else [] }

theorem draws_waiting_ownProposals : ∃ l n,
    Node.Lives drawingConfig memberMempool ⟨fun _ => none, fun _ => none⟩ l n ∧ n.due = [] ∧
      n.core.signedBlocks.map (fun b => (b.tag, b.payload)) =
        [(PES, [samplePayload.digest]), (OPT, [samplePayload.digest])] ∧
      ∀ tag, ¬ Node.Waits tag samplePayload.digest l := by
  have hend : ∃ n, Relation.ReflTransGen (Node.Step drawingConfig memberMempool
      ⟨fun _ => none, fun _ => none⟩) .new n ∧ n.due = [] ∧
        n.core.signedBlocks.map (fun b => (b.tag, b.payload)) =
          [(PES, [samplePayload.digest]), (OPT, [samplePayload.digest])] ∧
        n.mempool.optQueue = [] ∧ n.mempool.pesQueue = [] :=
    Node.exists_run [.message (.Payload samplePayload), .feed .boot, .carry 15] _
      (by decide +kernel)
  obtain ⟨n, hrun, hdue, hblocks, hopt, hpes⟩ := hend
  obtain ⟨l, hl⟩ := Node.exists_lives hrun
  refine ⟨l, n, hl, hdue, hblocks, fun tag hw => ?_⟩
  have hmem := (hl.draws_waiting.1 tag samplePayload.digest).mpr hw
  unfold Mempool.queue at hmem
  rw [hopt, hpes, ite_self] at hmem
  cases hmem

end Ipotane
