import Ipotane.Availability
import Ipotane.Retry

/-! What the tasks of a node hold goes back to what its core has put on record. -/
namespace Ipotane

open Lib Handler

variable [Crypto]

/-! ### What the record says of the store -/

namespace Core

variable {cfg : Config} {s t : Core} {l new : List (ℕ × Event)}

/-- The blocks that have been stored, under their digests; the newest one counts. -/
def filed : List (ℕ × Event) → Map Digest Block
  | [] => .empty
  | (_, .store b) :: l => (filed l).insert b.digest b
  | _ :: l => filed l

theorem filed_cons {e : ℕ} {y : Event} (h : ∀ b, y ≠ .store b) : filed ((e, y) :: l) = filed l := by
  cases y with
  | store b => exact absurd rfl (h b)
  | _ => rfl

theorem filed_append (h : ∀ x ∈ new, ∀ b, x.2 ≠ .store b) : filed (new ++ l) = filed l := by
  induction new with
  | nil => rfl
  | cons x new ih =>
    rw [List.cons_append, filed_cons (h x List.mem_cons_self)]
    exact ih fun y hy => h y (List.mem_cons_of_mem _ hy)

/-- The store and the blocks on record stay as they are. -/
structure KeepsFiles (s t : Core) : Prop where
  store : t.store = s.store
  record : filed t.trace = filed s.trace

theorem keepsFiles_same (hs : t.store = s.store) (ht : t.trace = s.trace) : KeepsFiles s t :=
  ⟨hs, by rw [ht]⟩

theorem keepsFiles_cons {e : ℕ} {y : Event} (hs : t.store = s.store)
    (ht : t.trace = (e, y) :: s.trace) (hy : ∀ b, y ≠ .store b) : KeepsFiles s t :=
  ⟨hs, by rw [ht, filed_cons hy]⟩

theorem KeepsFiles.trans {u : Core} (h : KeepsFiles s t) (h' : KeepsFiles t u) : KeepsFiles s u :=
  ⟨h'.store.trans h.store, h'.record.trans h.record⟩

theorem keepsFiles_adopt (s : Core) (qc : QC) : KeepsFiles s (s.adopt qc) := by
  rcases adopt_trace s qc with ht | ⟨-, ht⟩
  · exact keepsFiles_same (adopt_store qc) ht
  · exact keepsFiles_cons (adopt_store qc) ht nofun

theorem keepsFiles_cleanFor (s : Core) (cfg : Config) (b : Block) :
    KeepsFiles s (s.cleanFor cfg b) := by
  unfold cleanFor
  split
  · exact keepsFiles_cons rfl rfl nofun
  · exact keepsFiles_same rfl rfl

theorem keepsFiles_collect {α : Type} (add : Aggregator → Appended α Aggregator) {mark : α → Event}
    (hm : ∀ a b, mark a ≠ .store b) : KeepsFiles s (collect add mark s).2 := by
  refine ⟨collect_store add mark, ?_⟩
  unfold collect
  split
  · rfl
  · rfl
  · exact filed_cons (hm _)

theorem keepsFiles_settle {b b1 b0 : Block} {marks : List (ℕ × Event)}
    (hm : ∀ x ∈ marks, x.1 = s.epoch ∧ (s.insertBlock b).Tidy x.2) :
    KeepsFiles (s.insertBlock b) (s.settle b b1 b0 marks) := by
  refine ⟨settle_store, ?_⟩
  unfold settle
  split
  · have hmarks : ∀ x ∈ (s.epoch, .commit b0 (.twoChain b1 b)) :: marks, ∀ c, x.2 ≠ .store c :=
      List.forall_mem_cons.mpr ⟨nofun, fun x hx => (hm x hx).2.not_store⟩
    change filed (((s.epoch, .commit b0 (.twoChain b1 b)) :: marks) ++ (s.insertBlock b).trace) = _
    exact filed_append hmarks
  · rfl

theorem OptLog.not_store {y : Event} (h : s.OptLog cfg y) (b : Block) : y ≠ .store b := by
  rintro rfl
  exact h

theorem PesLog.not_store {y : Event} (h : s.PesLog cfg y) (b : Block) : y ≠ .store b := by
  rintro rfl
  exact h

/-- A step stores a block, or nothing. -/
theorem Step.files (h : Step cfg s t) : KeepsFiles s t ∨ ∃ b, KeepsFiles (s.insertBlock b) t := by
  cases h with
  | opt h =>
    cases h with
    | quiet h => exact .inl (keepsFiles_same h.store h.trace)
    | log h => exact .inl (keepsFiles_cons rfl rfl h.not_store)
    | @vote b _ _ _ _ _ =>
      have hmid : KeepsFiles s (s.log (.endorse b)) := keepsFiles_cons rfl rfl nofun
      exact .inl (hmid.trans (keepsFiles_cons rfl rfl nofun))
    | @proposal b _ _ _ => exact .inl ((keepsFiles_cleanFor s cfg b).trans (keepsFiles_adopt _ _))
    | @overflow b _ _ => exact .inl (keepsFiles_cleanFor s cfg b)
    | adopt _ _ _ _ _ => exact .inl (keepsFiles_adopt _ _)
    | arm _ => exact .inl (keepsFiles_cons rfl rfl nofun)
    | buffer _ _ => exact .inl (keepsFiles_same rfl rfl)
    | countVote _ _ _ _ _ => exact .inl (keepsFiles_collect _ nofun)
    | store _ _ _ _ => exact .inr ⟨_, keepsFiles_same rfl rfl⟩
    | settle _ _ _ _ _ ht => exact .inr ⟨_, keepsFiles_settle ht⟩
    | commit _ _ _ _ _ _ => exact .inl (keepsFiles_cons rfl rfl nofun)
  | pes _ h =>
    cases h with
    | log h => exact .inl (keepsFiles_cons rfl rfl h.not_store)
    | store _ _ => exact .inr ⟨_, keepsFiles_same rfl rfl⟩
    | countFallback _ => exact .inl (keepsFiles_collect _ nofun)
    | countSpb _ => exact .inl (keepsFiles_collect _ nofun)
    | countPre _ _ => exact .inl (keepsFiles_collect _ nofun)
    | @enterRound m _ _ =>
      have hmid : KeepsFiles s (s.log (.enterRound m.height (m.round + 1))) :=
        keepsFiles_cons rfl rfl nofun
      exact .inl (hmid.trans (keepsFiles_cons rfl rfl nofun))
    | voteYes _ _ _ =>
      refine .inl ⟨rfl, filed_append ?_⟩
      exact List.forall_mem_cons.mpr ⟨nofun, List.forall_mem_singleton.mpr nofun⟩
    | extend _ | buffer _ _ _ | countShare _ _ _ _ | putOpt _ _ _ | putPes _ _ _ | countDone _
    | countNo _ _ | yes _ _ _ =>
      exact .inl (keepsFiles_same rfl rfl)
    | _ => exact .inl (keepsFiles_cons rfl rfl nofun)

/-- The store of a core is what its record says. -/
def Filed (s : Core) : Prop := s.store = filed s.trace

theorem KeepsFiles.filed (h : KeepsFiles s t) (hs : s.Filed) : t.Filed := by
  unfold Filed
  rw [h.store, h.record]
  exact hs

theorem renewed_store (s : Core) : s.renewed.store = s.store := by
  obtain ⟨marks, rest, heq, -, -⟩ := renewed_eq s
  rw [heq]
  rfl

theorem Filed.turn (hs : s.Filed) (h : Turn cfg s t) : t.Filed := by
  cases h with
  | step h =>
    rcases h.files with h | ⟨b, h⟩
    · exact h.filed hs
    · refine h.filed ?_
      change s.store.insert b.digest b = (filed s.trace).insert b.digest b
      rw [hs]
  | epoch _ ht =>
    subst ht
    obtain ⟨new, heq, hnew⟩ := renewed_grown s
    unfold Filed
    rw [renewed_store, heq, filed_append]
    · exact hs
    · rintro x hx b hb
      refine absurd ?_ (hnew x hx).2
      rw [hb]
      trivial

/-- What is filed has been stored. -/
theorem ever_of_filed {d : Digest} {b : Block} (h : (filed l).get d = some b) :
    b.digest = d ∧ ∃ e, (e, .store b) ∈ l := by
  induction l with
  | nil => cases h
  | cons x l ih =>
    obtain ⟨e, y⟩ := x
    by_cases hy : ∃ c, y = .store c
    · obtain ⟨c, rfl⟩ := hy
      change ((filed l).insert c.digest c).get d = some b at h
      rw [Map.get_insert] at h
      split at h
      · rename_i hd
        cases h
        exact ⟨hd.symm, e, List.mem_cons_self⟩
      · obtain ⟨hd, e', hb⟩ := ih h
        exact ⟨hd, e', List.mem_cons_of_mem _ hb⟩
    · rw [filed_cons fun c hc => hy ⟨c, hc⟩] at h
      obtain ⟨hd, e', hb⟩ := ih h
      exact ⟨hd, e', List.mem_cons_of_mem _ hb⟩

theorem Filed.storeOk (hs : s.Filed) : s.StoreOk := by
  intro d b hb
  rw [hs] at hb
  exact ever_of_filed hb

theorem Filed.react {fuel : ℕ} {i : Input} (hs : s.Filed) (hst : s.StoreOk)
    (hne : (Core.react cfg fuel i s).1 ≠ .exhausted) : (Core.react cfg fuel i s).2.Filed := by
  have harr : (arrival s i).Filed := by
    have htake : ∀ m, (s.log (.receive m)).Filed := fun m =>
      (keepsFiles_cons rfl rfl nofun : KeepsFiles s (s.log (.receive m))).filed hs
    cases i with
    | boot => exact hs
    | timer => exact hs
    | core m => exact htake m
    | smvba m => exact htake m
  exact turns_invariant (P := Filed) (C := fun _ => True) (fun _ _ _ h => h)
    (fun _ _ _ hs _ ht => hs.turn ht) (hst.arrival i) (fun _ => harr) (react_turns hst hne) trivial

end Core

/-! ### What a mempool waits for -/

namespace Mempool

variable {cfg : MempoolConfig} {codec : Codec} {m t : Mempool} {b : Block} {full : Bool} {tag : ℕ}

/-- The payload of the block is asked for, with the tag that says how it comes back. -/
def Fetches (m : Mempool) (b : Block) (tag : ℕ) : Prop :=
  (∃ missing, .Sync missing b tag ∈ m.inner) ∨ ∃ w ∈ m.waiting, w.block = b ∧ w.tag = tag

/-- No block is asked for that was not asked for before. -/
def FetchesOnly (m t : Mempool) : Prop := ∀ b tag, t.Fetches b tag → m.Fetches b tag

theorem fetchesOnly_same (hi : t.inner = m.inner) (hw : t.waiting = m.waiting) :
    m.FetchesOnly t := by
  intro b tag h
  unfold Fetches at *
  rwa [hi, hw] at h

theorem fetchesOnly_of_moves {α : Type} {x : Task α} (h : Moves FetchesOnly m x) :
    m.FetchesOnly (x m).2 := by
  unfold Moves at h
  generalize (x m).2 = t at h ⊢
  induction h with
  | refl => exact fetchesOnly_same rfl rfl
  | tail _ hlast ih => exact fun b tag h => ih b tag (hlast b tag h)

theorem quiet_transmit (x : MempoolMessage) (dest : Option PublicKey) :
    Moves FetchesOnly m (transmit cfg x dest) :=
  moves_reads_bind (reads_ensure _ _) fun _ _ => moves_update (fetchesOnly_same rfl rfl)

theorem quiet_processOwnPayload (d : Digest) (p : Payload) :
    Moves FetchesOnly m (processOwnPayload cfg full d p) := by
  refine moves_reads_bind (reads_ensure _ _) fun _ _ => ?_
  exact moves_update_bind (fetchesOnly_same rfl rfl) (quiet_transmit _ _)

theorem quiet_handleRequest (requestor : PublicKey) (digests : List Digest) :
    ∀ m, Moves FetchesOnly m (handleRequest cfg codec requestor digests) := by
  induction digests with
  | nil => exact fun m => moves_pure ()
  | cons digest digests ih =>
    intro m
    refine moves_self_bind ?_
    dsimp only
    split
    · exact ih m
    · split
      · exact moves_bind (moves_fail _) fun _ t _ => ih t
      · exact moves_bind (quiet_transmit _ _) fun _ t _ => ih t

theorem fetchesOnly_handle (x : MempoolMessage) : m.FetchesOnly (handle cfg codec full x m).2 := by
  refine fetchesOnly_of_moves ?_
  cases x with
  | OwnPayload p =>
    refine moves_self_bind (moves_reads_bind (reads_ensure _ _) fun _ _ => ?_)
    exact moves_bind (quiet_processOwnPayload _ _) fun _ _ _ =>
      moves_update (fetchesOnly_same rfl rfl)
  | Payload p =>
    refine moves_reads_bind (reads_ensure _ _) fun _ _ => ?_
    refine moves_reads_bind (reads_ensure _ _) fun _ _ => ?_
    refine moves_reads_bind (reads_ensure _ _) fun _ _ => ?_
    exact moves_update_bind (fetchesOnly_same rfl rfl) (moves_update (fetchesOnly_same rfl rfl))
  | PayloadRequest digests requestor => exact quiet_handleRequest _ _ m

theorem fetchesOnly_getPayload {made : Option Payload} {order : List Digest} {max : ℕ} :
    m.FetchesOnly (getPayload cfg full made order max tag m).2 := by
  refine fetchesOnly_of_moves (moves_self_bind (moves_ite (fun _ => ?_) fun _ => ?_))
  · cases made with
    | none => exact moves_pure []
    | some p => exact moves_bind (quiet_processOwnPayload _ _) fun _ _ _ => moves_pure _
  · exact moves_ite (fun _ => moves_update_bind (fetchesOnly_same rfl rfl) (moves_pure _))
      fun _ => moves_update_bind (fetchesOnly_same rfl rfl) (moves_pure _)

/-- Only the block that is verified may be asked for. -/
theorem fetches_verifyPayload {c : Block} {n : ℕ} (h : (verifyPayload b tag m).2.Fetches c n) :
    m.Fetches c n ∨ (c = b ∧ n = tag) := by
  unfold verifyPayload at h
  rw [bind_run (x := self) rfl] at h
  split at h
  · exact .inl h
  · rcases h with ⟨missing, hm⟩ | hw
    · rcases List.mem_append.mp hm with hm | hm
      · exact .inl (.inl ⟨missing, hm⟩)
      · cases List.mem_singleton.mp hm
        exact .inr ⟨rfl, rfl⟩
    · exact .inl (.inr hw)

theorem fetchesOnly_cleanup {digests : List Digest} {round : ℕ} :
    m.FetchesOnly (cleanup digests round m).2 := by
  rintro c n (⟨missing, hm⟩ | hw)
  · rcases List.mem_append.mp hm with hm | hm
    · exact .inl ⟨missing, hm⟩
    · cases List.mem_singleton.mp hm
  · exact .inr hw

theorem fetchesOnly_takeInner {x : SynchronizerMessage} {rest : List SynchronizerMessage}
    (hi : m.inner = x :: rest) : m.FetchesOnly (takeInner cfg x { m with inner := rest }).2 := by
  have hrest : m.FetchesOnly { m with inner := rest } := by
    rintro c n (⟨missing, hm⟩ | hw)
    · exact .inl ⟨missing, hi ▸ List.mem_cons_of_mem _ hm⟩
    · exact .inr hw
  cases x with
  | Sync missing b tag =>
    rintro c n h
    by_cases hk : hasKey b.digest m.pending = true
    · change (sync cfg missing b tag { m with inner := rest }).2.Fetches c n at h
      rw [sync_skip (m := { m with inner := rest }) hk] at h
      exact hrest c n h
    · obtain ⟨sent, heq⟩ := sync_eq (m := { m with inner := rest }) cfg missing tag
        (by simpa using hk)
      change (sync cfg missing b tag { m with inner := rest }).2.Fetches c n at h
      rw [heq] at h
      rcases h with hm | ⟨w, hw, hb⟩
      · exact hrest c n (.inl hm)
      · rcases List.mem_append.mp hw with hw | hw
        · exact hrest c n (.inr ⟨w, hw, hb⟩)
        · cases List.mem_singleton.mp hw
          obtain ⟨rfl, rfl⟩ := hb
          exact .inl ⟨missing, hi ▸ List.mem_cons_self⟩
  | Clean round =>
    rintro c n (hm | ⟨w, hw, hb⟩)
    · exact hrest c n (.inl hm)
    · obtain ⟨v, hv, rfl⟩ := List.mem_map.mp hw
      refine hrest c n (.inr ⟨v, hv, ?_⟩)
      split at hb <;> exact hb

theorem fetchesOnly_finishWaiter {w : Waiter} {x : ConsensusMessage}
    (h : finishWaiter w m = (.ok x, t)) : m.FetchesOnly t := by
  cases h
  rintro c n (hm | ⟨v, hv, hb⟩)
  · exact .inl hm
  · obtain ⟨u, hu, rfl⟩ := List.mem_map.mp hv
    refine .inr ⟨u, List.mem_of_mem_erase hu, ?_⟩
    split at hb <;> exact hb

theorem fetchesOnly_erase {w : Waiter} : m.FetchesOnly { m with waiting := m.waiting.erase w } := by
  rintro c n (hm | ⟨v, hv, hb⟩)
  · exact .inl hm
  · exact .inr ⟨v, List.mem_of_mem_erase hv, hb⟩

end Mempool

/-! ### One node -/

namespace Core

variable {s t : Core} {l new : List (ℕ × Event)} {d : Digest}

theorem filed_contains (h : (filed l).contains d = true) :
    (filed (new ++ l)).contains d = true := by
  induction new with
  | nil => exact h
  | cons x new ih =>
    obtain ⟨e, y⟩ := x
    cases y with
    | store b =>
      change ((filed (new ++ l)).insert b.digest b).contains d = true
      unfold Map.contains
      rw [Map.get_insert]
      split
      · rfl
      · exact ih
    | _ => exact ih

theorem contains_filed {e : ℕ} {b : Block} (h : (e, .store b) ∈ l) :
    (filed l).contains b.digest = true := by
  obtain ⟨new, past, rfl⟩ := List.append_of_mem h
  refine filed_contains ?_
  change ((filed past).insert b.digest b).contains b.digest = true
  rw [Map.contains, Map.get_insert_self]
  rfl

/-- There may have been a look for a block of this digest, in vain: it is the parent of a block that
waits, or it is certified in a prepare of the fast path. -/
def Seeks (s : Core) (d : Digest) : Prop :=
  (∃ b, s.Ever (.sync b) ∧ b.parent = d) ∨
    ∃ p, (s.Ever (.receive (.ParPrePare p)) ∨ s.Ever (.sign (.prepare p))) ∧ p.val = OPT ∧
      p.qc.hash = d

/-- The block is owed to the core: its payload has been asked for, or its parent, which has come. -/
def Owed (s : Core) : Input → Prop
  | .core (.HsLoopBack b) =>
    s.Ever (.suspend b OPT) ∨ (s.Ever (.sync b) ∧ s.store.contains b.parent = true)
  | .smvba (.FBLoopBack b) => ∃ tag, tag ≠ OPT ∧ tag ≠ PES ∧ s.Ever (.suspend b tag)
  | .smvba (.ParLoopBack b) => s.Ever (.suspend b PES)
  | _ => False

theorem Owed.mono {i : Input} (h : s.Owed i) (ht : s.trace ⊆ t.trace)
    (hs : ∀ d, s.store.contains d = true → t.store.contains d = true) : t.Owed i := by
  have hever : ∀ {x}, s.Ever x → t.Ever x := fun ⟨e, hx⟩ => ⟨e, ht hx⟩
  unfold Owed at *
  split at h
  · exact h.imp hever fun ⟨hb, hp⟩ => ⟨hever hb, hs _ hp⟩
  · obtain ⟨tag, ho, hp, hb⟩ := h
    exact ⟨tag, ho, hp, hever hb⟩
  · exact hever h
  · exact h.elim

end Core

namespace Node

variable {cfg : Config} {mempool : MempoolConfig} {codec : Codec} {n n' : Node} {b : Block}
  {past : List (ℕ × Event)}

/-- The node after a turn of its core. -/
def turned (n : Node) (i : Input) (o : Outcome ConsensusError Panic Unit) (t : Core)
    (new : List (ℕ × Event)) : Node :=
  { n with
    core := t
    alive := decide (o = .ok ())
    coming := n.coming.erase i
    due := new.reverse }

/-- No payload in the store can be read as a block, or lies under a digest where the core has
stored a block or may have looked for one. -/
def Unmixed (codec : Codec) (n : Node) : Prop :=
  ∀ d p, n.mempool.store.get d = some (.payload p) →
    codec.readBlock p = none ∧ n.core.store.get d = none ∧ ¬ n.core.Seeks d

/-- The entries that the other tasks have carried out. -/
def carriedOut (n : Node) : List (ℕ × Event) := n.core.trace.drop n.due.length

theorem Unmixed.clean (h : n.Unmixed codec) : n.Clean codec := fun d p hp => (h d p hp).1

/-- The entries that are not due any more, `past`, have been carried out. -/
structure Logged (n : Node) (past : List (ℕ × Event)) : Prop where
  trace : n.core.trace = n.due.reverse ++ past
  sound : n.mempool.Sound

theorem Logged.carriedOut (h : n.Logged past) : n.carriedOut = past := by
  unfold Node.carriedOut
  rw [h.trace, ← List.length_reverse, List.drop_left]

theorem logged_new : (new).Logged Core.new.trace := ⟨rfl, stocked_new.sound⟩

theorem Logged.advance {m : Mempool} (h : n.Logged past) (hm : n.mempool.Advances m) :
    ({ n with mempool := m } : Node).Logged past := ⟨h.trace, hm.sound h.sound⟩

theorem Logged.serve {rest : List (ℕ × Event)} {e : ℕ} {y : Event} (h : n.Logged past)
    (hd : n.due = (e, y) :: rest) (hy : Serves cfg mempool y n n') :
    ({ n' with due := rest } : Node).Logged ((e, y) :: past) := by
  have htrace : n.core.trace = rest.reverse ++ (e, y) :: past := by
    rw [h.trace, hd, List.reverse_cons, List.append_assoc]
    rfl
  cases hy with
  | draw hp hget => exact ⟨htrace, (answerGet_spec h.sound hp hget).1.sound h.sound⟩
  | @suspend _ b tag m hv =>
    have hadv : n.mempool.Advances (Mempool.verifyPayload b tag n.mempool).2 :=
      Mempool.verifyPayload_advances
    rw [hv] at hadv
    exact ⟨htrace, hadv.sound h.sound⟩
  | write => exact ⟨htrace, h.sound.write _ _⟩
  | cleanup => exact ⟨htrace, Mempool.cleanup_advances.sound h.sound⟩
  | accept _ | sync | other _ => exact ⟨htrace, h.sound⟩

theorem Logged.step (h : n.Logged past) (hs : Step cfg mempool codec n n') :
    ∃ past', n'.Logged past' := by
  cases hs with
  | turn ha hd hi hr ho ht =>
    have hpast := h.trace
    rw [hd] at hpast
    refine ⟨past, ?_, h.sound⟩
    rw [List.reverse_reverse, ht, hpast]
    rfl
  | serve hd hy => exact ⟨_, h.serve hd hy⟩
  | message full m => exact ⟨past, h.advance (Mempool.handle_advances full m)⟩
  | takeInner hi ht =>
    have hm := @Mempool.takeInner_advances _ mempool _ _ _ hi h.sound
    rw [ht] at hm
    exact ⟨past, h.advance hm⟩
  | finishWaiter hw hk ht =>
    obtain ⟨rfl, hm⟩ := Mempool.finishWaiter_eq ht
    exact ⟨past, h.trace, hm.sound h.sound⟩
  | dropWaiter hw _ => exact ⟨past, h.advance (Mempool.advances_waiting List.erase_subset)⟩
  | takeBlock hb =>
    split
    · exact ⟨past, h.trace, h.sound⟩
    · exact ⟨past, h.trace, h.sound⟩
  | finishBlock hb hp => exact ⟨past, h.trace, h.sound⟩

/-- The store has the blocks of the core, a block that waits has been set aside by it, and what
comes back is owed to it. -/
structure Linked (n : Node) : Prop where
  filed : n.core.Filed
  blocks : ∀ d b, n.mempool.store.get d = some (.block b) ↔ (Core.filed n.carriedOut).get d = some b
  fetches : ∀ b tag, n.mempool.Fetches b tag → n.core.Ever (.suspend b tag)
  asks : ∀ b, b ∈ n.blockInner ∨ b ∈ n.blockWaiting → n.core.Ever (.sync b)
  owed : ∀ i ∈ n.coming, n.core.Owed i

theorem linked_new : Linked new := by
  refine ⟨rfl, fun d b => ⟨nofun, nofun⟩, ?_, ?_, nofun⟩
  · rintro b tag (⟨missing, h⟩ | ⟨w, h, -⟩) <;> cases h
  · rintro b (h | h) <;> cases h

/-- What is filed in the record of the entries that are carried out is in the store of the core. -/
theorem Linked.contains (h : n.Linked) (hs : n.Logged past) {d : Digest}
    (hd : (Core.filed past).contains d = true) : n.core.store.contains d = true := by
  rw [h.filed, hs.trace]
  exact Core.filed_contains hd

/-- Between two turns the core finds its own blocks in the store. -/
theorem Linked.found (h : n.Linked) (hs : n.Logged past) (hu : n.Unmixed codec) (hd : n.due = []) :
    n.found codec = n.core := by
  have hpast : n.core.trace = n.carriedOut := by
    rw [hs.carriedOut, hs.trace, hd]
    rfl
  have hstore : codec.blocks n.mempool.store = n.core.store := by
    rw [h.filed, hpast]
    funext d
    change (n.mempool.store.get d).bind codec.block = (Core.filed n.carriedOut).get d
    cases hget : n.mempool.store.get d with
    | none =>
      cases hf : (Core.filed n.carriedOut).get d with
      | none => rfl
      | some b =>
        rw [(h.blocks d b).mpr hf] at hget
        cases hget
    | some x =>
      cases x with
      | block b => exact ((h.blocks d b).mp hget).symm
      | payload p =>
        cases hf : (Core.filed n.carriedOut).get d with
        | none => exact (hu d p hget).1
        | some b =>
          rw [(h.blocks d b).mpr hf] at hget
          cases hget
  unfold Node.found
  rw [hstore]

/-- The mempool moves on. -/
theorem Linked.advance {m : Mempool} (h : n.Linked) (hs : n.Logged past) (hm : n.mempool.Advances m)
    (hf : ∀ b tag, m.Fetches b tag → n.core.Ever (.suspend b tag))
    (hu : ({ n with mempool := m } : Node).Unmixed codec) :
    ({ n with mempool := m } : Node).Linked where
  filed := h.filed
  blocks d b := by
    constructor
    · exact fun hb => (h.blocks d b).mp (hm.blocks d b hb)
    · intro hb
      have hold : n.mempool.store.get d = some (.block b) := (h.blocks d b).mpr hb
      obtain ⟨x, hx⟩ := Map.contains_iff.mp (hm.keys d (Map.contains_iff.mpr ⟨_, hold⟩))
      cases x with
      | block c =>
        have hsame := hm.blocks d c hx
        rw [hold] at hsame
        cases hsame
        exact hx
      | payload p =>
        -- a payload would have taken the place of a block that is stored
        have hnone := (hu d p hx).2.1
        have hin := h.contains hs (hs.carriedOut ▸ Map.contains_iff.mpr ⟨b, hb⟩)
        obtain ⟨c, hc⟩ := Map.contains_iff.mp hin
        rw [hnone] at hc
        cases hc
  fetches := hf
  asks := h.asks
  owed := h.owed

/-- A turn of the core. -/
theorem Linked.turn {fuel : ℕ} {i : Input} {o : Outcome ConsensusError Panic Unit} {t : Core}
    {new : List (ℕ × Event)} (h : n.Linked) (hd : n.due = [])
    (hr : Core.react cfg fuel i n.core = (o, t)) (ho : o ≠ .exhausted)
    (ht : t.trace = new ++ n.core.trace) (alive : Bool) :
    ({ n with
        core := t
        alive := alive
        coming := n.coming.erase i
        due := new.reverse } : Node).Linked := by
  have hfiled : t.Filed := by
    have hne : (Core.react cfg fuel i n.core).1 ≠ .exhausted := by rwa [hr]
    have hreact := h.filed.react h.filed.storeOk hne
    rwa [hr] at hreact
  have hsub : n.core.trace ⊆ t.trace := by
    rw [ht]
    exact List.subset_append_right _ _
  have hcarried : ({ n with
        core := t
        alive := alive
        coming := n.coming.erase i
        due := new.reverse } : Node).carriedOut = n.carriedOut := by
    change t.trace.drop new.reverse.length = n.core.trace.drop n.due.length
    rw [hd, ht, List.length_reverse, List.drop_left]
    rfl
  have hever : ∀ {x}, n.core.Ever x → t.Ever x := fun ⟨e, hx⟩ => ⟨e, hsub hx⟩
  refine ⟨hfiled, ?_, fun b tag hb => hever (h.fetches b tag hb), fun b hb =>
    hever (h.asks b hb), ?_⟩
  · rw [hcarried]
    exact h.blocks
  · intro j hj
    refine (h.owed j (List.mem_of_mem_erase hj)).mono hsub ?_
    intro d hd'
    rw [hfiled, ht]
    rw [h.filed] at hd'
    exact Core.filed_contains hd'

/-- An entry is carried out that stores no block. -/
theorem Linked.skip {rest : List (ℕ × Event)} {e : ℕ} {y : Event} (h : n.Linked)
    (hs : n.Logged past)
    (hd : n.due = (e, y) :: rest) (hy : ∀ b, y ≠ .store b) :
    ({ n with due := rest } : Node).Linked := by
  have hcarried : ({ n with due := rest } : Node).carriedOut = (e, y) :: n.carriedOut := by
    rw [hs.carriedOut]
    change n.core.trace.drop rest.length = _
    rw [hs.trace, hd, List.reverse_cons, List.append_assoc, ← List.length_reverse, List.drop_left]
    rfl
  refine ⟨h.filed, ?_, h.fetches, h.asks, h.owed⟩
  rw [hcarried, Core.filed_cons hy]
  exact h.blocks

/-- A block is written to the store. -/
theorem Linked.write {rest : List (ℕ × Event)} {e : ℕ} (h : n.Linked) (hs : n.Logged past)
    (hd : n.due = (e, .store b) :: rest) :
    ({ n with
        mempool := (Mempool.write b.digest (.block b) n.mempool).2
        due := rest } : Node).Linked := by
  have hcarried : ({ n with
        mempool := (Mempool.write b.digest (.block b) n.mempool).2
        due := rest } : Node).carriedOut = (e, .store b) :: n.carriedOut := by
    rw [hs.carriedOut]
    change n.core.trace.drop rest.length = _
    rw [hs.trace, hd, List.reverse_cons, List.append_assoc, ← List.length_reverse, List.drop_left]
    rfl
  refine ⟨h.filed, ?_, ?_, h.asks, h.owed⟩
  · intro d c
    rw [hcarried]
    change (n.mempool.store.insert b.digest (.block b)).get d = some (.block c) ↔
      ((Core.filed n.carriedOut).insert b.digest b).get d = some c
    rw [Map.get_insert, Map.get_insert]
    split
    · rw [Option.some_inj, Option.some_inj, Stored.block.injEq]
    · exact h.blocks d c
  · rintro c tag hc
    exact h.fetches c tag hc

theorem fetchesOnly_answerGet {m t : Mempool} {full : Bool} {made : Option Payload}
    {order digests : List Digest} {tag : ℕ}
    (h : answerGet cfg mempool full made order tag m = (digests, t)) : m.FetchesOnly t := by
  have hget := @Mempool.fetchesOnly_getPayload _ mempool m full tag made order
    cfg.parameters.maxPayloadSize
  unfold answerGet at h
  split at h
  · rename_i hds
    cases h
    rwa [hds] at hget
  · rename_i hds
    cases h
    rwa [hds] at hget

theorem Linked.serve {rest : List (ℕ × Event)} {e : ℕ} {y : Event} (h : n.Linked)
    (hs : n.Logged past) (hd : n.due = (e, y) :: rest) (hy : Serves cfg mempool y n n')
    (hu : ({ n' with due := rest } : Node).Unmixed codec) :
    ({ n' with due := rest } : Node).Linked := by
  have hmem : n.core.Ever y := by
    refine ⟨e, ?_⟩
    rw [hs.trace, hd]
    simp
  cases hy with
  | @draw _ b full made order m hp hget =>
    have hadv := (answerGet_spec hs.sound hp hget).1
    have hn := h.advance hs hadv
      (fun c tag hc => h.fetches c tag (fetchesOnly_answerGet hget c tag hc)) hu
    exact hn.skip (hs.advance hadv) hd nofun
  | accept _ => exact h.skip hs hd nofun
  | @suspend _ b tag m hv =>
    have hadv : n.mempool.Advances m := by
      have hadv := @Mempool.verifyPayload_advances _ n.mempool b tag
      rwa [hv] at hadv
    have hfetches : ∀ c k, m.Fetches c k → n.core.Ever (.suspend c k) := by
      intro c k hc
      have hcases := @Mempool.fetches_verifyPayload _ n.mempool b tag c k
      rw [hv] at hcases
      rcases hcases hc with hc | ⟨rfl, rfl⟩
      · exact h.fetches c k hc
      · exact hmem
    exact (h.advance hs hadv hfetches hu).skip (hs.advance hadv) hd nofun
  | write => exact h.write hs hd
  | @sync _ b =>
    have hn := h.skip hs hd nofun
    refine ⟨hn.filed, hn.blocks, hn.fetches, ?_, hn.owed⟩
    rintro c (hc | hc)
    · rcases List.mem_append.mp hc with hc | hc
      · exact h.asks c (.inl hc)
      · cases List.mem_singleton.mp hc
        exact hmem
    · exact h.asks c (.inr hc)
  | cleanup =>
    have hn := h.advance hs Mempool.cleanup_advances (fun c tag hc =>
      h.fetches c tag (Mempool.fetchesOnly_cleanup c tag hc)) hu
    exact hn.skip (hs.advance Mempool.cleanup_advances) hd nofun
  | other hx =>
    refine h.skip hs hd ?_
    rintro b rfl
    exact (hx b 0).2.2.2.1 rfl

theorem owed_returns {s : Core} {tag : ℕ} (h : s.Ever (.suspend b tag)) :
    s.Owed (returns (Mempool.loopbackOf b tag)) := by
  unfold Mempool.loopbackOf
  by_cases ho : tag = OPT
  · subst ho
    exact .inl h
  · rw [if_neg ho]
    by_cases hp : tag = PES
    · subst hp
      exact h
    · rw [if_neg hp]
      exact ⟨tag, ho, hp, h⟩

theorem Linked.step (h : n.Linked) (hs : n.Logged past) (hu : n.Unmixed codec)
    (hu' : n'.Unmixed codec) (ht : Step cfg mempool codec n n') : n'.Linked := by
  cases ht with
  | turn ha hd hi hr ho ht =>
    rw [h.found hs hu hd] at hr
    exact h.turn hd hr ho ht _
  | serve hd hy => exact h.serve hs hd hy hu'
  | message full x =>
    exact h.advance hs (Mempool.handle_advances full x)
      (fun b tag hb => h.fetches b tag (Mempool.fetchesOnly_handle x b tag hb)) hu'
  | takeInner hi ht =>
    have hadv := @Mempool.takeInner_advances _ mempool _ _ _ hi hs.sound
    have hf := @Mempool.fetchesOnly_takeInner _ mempool _ _ _ hi
    rw [ht] at hadv hf
    exact h.advance hs hadv (fun b tag hb => h.fetches b tag (hf b tag hb)) hu'
  | @finishWaiter w m t hw _ ht =>
    obtain ⟨rfl, hadv⟩ := Mempool.finishWaiter_eq ht
    have hn := h.advance hs hadv
      (fun b tag hb => h.fetches b tag (Mempool.fetchesOnly_finishWaiter ht b tag hb)) hu'
    refine ⟨hn.filed, hn.blocks, hn.fetches, hn.asks, ?_⟩
    intro i hi
    rcases List.mem_append.mp hi with hi | hi
    · exact h.owed i hi
    · rw [List.mem_singleton.mp hi]
      exact owed_returns (h.fetches w.block w.tag (.inr ⟨w, hw, rfl, rfl⟩))
  | dropWaiter hw _ =>
    refine h.advance hs (Mempool.advances_waiting List.erase_subset) ?_ hu'
    exact fun b tag hb => h.fetches b tag (Mempool.fetchesOnly_erase b tag hb)
  | @takeBlock b rest hb =>
    have hasks : ∀ c, c ∈ rest ∨ c ∈ n.blockWaiting → n.core.Ever (.sync c) := by
      rintro c (hc | hc)
      · exact h.asks c (.inl (hb ▸ List.mem_cons_of_mem _ hc))
      · exact h.asks c (.inr hc)
    split
    · exact ⟨h.filed, h.blocks, h.fetches, hasks, h.owed⟩
    · refine ⟨h.filed, h.blocks, h.fetches, ?_, h.owed⟩
      rintro c (hc | hc)
      · exact hasks c (.inl hc)
      · rcases List.mem_append.mp hc with hc | hc
        · exact hasks c (.inr hc)
        · rw [List.mem_singleton.mp hc]
          exact h.asks b (.inl (hb ▸ List.mem_cons_self))
  | @finishBlock b hb hp =>
    have hsync := h.asks b (.inr hb)
    refine ⟨h.filed, h.blocks, h.fetches, ?_, ?_⟩
    · rintro c (hc | hc)
      · exact h.asks c (.inl hc)
      · exact h.asks c (.inr (List.mem_of_mem_erase hc))
    · intro i hi
      rcases List.mem_append.mp hi with hi | hi
      · exact h.owed i hi
      · rw [List.mem_singleton.mp hi]
        refine .inr ⟨hsync, ?_⟩
        -- what is under the parent's digest is no payload
        obtain ⟨x, hx⟩ := Map.contains_iff.mp hp
        cases x with
        | payload p => exact absurd (.inl ⟨b, hsync, rfl⟩) (hu _ p hx).2.2
        | block p =>
          refine h.contains hs (Map.contains_iff.mpr ⟨p, ?_⟩)
          rw [← hs.carriedOut]
          exact (h.blocks _ p).mp hx

/-- A node is in order: its tasks hold what its core has put on record, and its store mixes no
payload up with a block. -/
structure Tended (codec : Codec) (n : Node) : Prop where
  unmixed : n.Unmixed codec
  linked : n.Linked
  logged : n.Logged n.carriedOut

theorem Tended.found (h : n.Tended codec) (hd : n.due = []) : n.found codec = n.core :=
  h.linked.found h.logged h.unmixed hd

/-- The states of one node with all its tasks, whatever reaches its channels, as long as its store
mixes no payload up with a block. -/
inductive Reached (cfg : Config) (mempool : MempoolConfig) (codec : Codec) : Node → Prop
  | new : Reached cfg mempool codec .new
  | turn {n : Node} {fuel : ℕ} {i : Input} {o : Outcome ConsensusError Panic Unit} {t : Core}
      {new : List (ℕ × Event)} (h : Reached cfg mempool codec n) (ha : n.alive = true)
      (hd : n.due = []) (hr : Core.react cfg fuel i (n.found codec) = (o, t)) (ho : o ≠ .exhausted)
      (ht : t.trace = new ++ n.core.trace) (hu : (n.turned i o t new).Unmixed codec) :
      Reached cfg mempool codec (n.turned i o t new)
  | task {n n' : Node} (h : Reached cfg mempool codec n) (hs : Step cfg mempool codec n n')
      (hc : n'.core = n.core) (ha : n'.alive = n.alive) (hu : n'.Unmixed codec) :
      Reached cfg mempool codec n'

theorem Reached.tended (h : Reached cfg mempool codec n) : n.Tended codec := by
  induction h with
  | new =>
    refine ⟨fun d p h => (nomatch h), linked_new, ?_⟩
    rw [logged_new.carriedOut]
    exact logged_new
  | @turn n fuel i o t new _ _ hd hr ho ht hu ih =>
    rw [ih.found hd] at hr
    have hlogged : (n.turned i o t new).Logged n.carriedOut := by
      have hpast := ih.logged.trace
      rw [hd] at hpast
      refine ⟨?_, ih.logged.sound⟩
      change t.trace = new.reverse.reverse ++ n.carriedOut
      rw [List.reverse_reverse, ht, hpast]
      rfl
    refine ⟨hu, ih.linked.turn hd hr ho ht _, ?_⟩
    rw [hlogged.carriedOut]
    exact hlogged
  | task _ hs _ _ hu ih =>
    obtain ⟨past, hlogged⟩ := ih.logged.step hs
    refine ⟨hu, ih.linked.step ih.logged ih.unmixed hu hs, ?_⟩
    rw [hlogged.carriedOut]
    exact hlogged

/-- The core of such a node is in a state that a core reaches by itself. -/
theorem Reached.reachable (h : Reached cfg mempool codec n) :
    Core.Reachable cfg n.core n.alive := by
  induction h with
  | new => exact .new
  | @turn n fuel i o t new h ha hd hr ho _ _ ih =>
    rw [h.tended.found hd] at hr
    rw [ha] at ih
    have hnext := ih.react fuel i (by rwa [hr])
    rw [hr] at hnext
    exact hnext
  | task _ _ hc ha _ ih => rwa [hc, ha]

/-- Between two turns a block is found under the digest of each one that has been stored. -/
theorem Reached.files (h : Reached cfg mempool codec n) (hd : n.due = [])
    (hb : n.core.Ever (.store b)) :
    ∃ c, n.mempool.store.get b.digest = some (.block c) ∧ c.digest = b.digest := by
  have htrace : n.core.trace = n.carriedOut := by
    rw [h.tended.logged.trace, hd]
    exact (List.nil_append _).symm
  obtain ⟨e, hb⟩ := hb
  obtain ⟨c, hc⟩ := Map.contains_iff.mp (Core.contains_filed hb)
  rw [htrace] at hc
  exact ⟨c, (h.tended.linked.blocks _ c).mpr hc, (Core.ever_of_filed hc).1⟩

end Node

end Ipotane
