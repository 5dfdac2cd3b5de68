import Ipotane.Draws
import Ipotane.Lib.Election
import Ipotane.Signers
import Ipotane.Upkeep

/-! A committee of complete nodes, each of them with its core, its mempool, both synchronizers and
the store, is a committee of cores; its certificates vouch for payloads that can be had. -/
namespace Ipotane

open Lib Handler

section Cluster

variable [Crypto]

namespace Node

variable {cfg : Config} {mempool : MempoolConfig} {codec : Codec} {n n' : Node} {i : Input}

/-- A turn of the core of a node, on an input that the node may be given. -/
inductive Turns (cfg : Config) (codec : Codec) (i : Input) (n : Node) : Node → Prop
  | turn {fuel : ℕ} {o : Outcome ConsensusError Panic Unit} {t : Core} {new : List (ℕ × Event)}
      (ha : n.alive = true) (hd : n.due = []) (hi : n.Offers i)
      (hr : Core.react cfg fuel i (n.found codec) = (o, t)) (ho : o ≠ .exhausted)
      (ht : t.trace = new ++ n.core.trace) : Turns cfg codec i n (n.turned i o t new)

theorem Turns.step (h : n.Turns cfg codec i n') : Step cfg mempool codec n n' := by
  obtain ⟨ha, hd, hi, hr, ho, ht⟩ := h
  exact .turn ha hd hi hr ho ht

/-- A step of a node is a turn of its core, or another task's, which leaves the core alone. -/
theorem Step.turns (h : Step cfg mempool codec n n') :
    (∃ i, n.Turns cfg codec i n') ∨ (n'.core = n.core ∧ n'.alive = n.alive) := by
  cases h with
  | turn ha hd hi hr ho ht => exact .inl ⟨_, .turn ha hd hi hr ho ht⟩
  | serve hd hy => cases hy <;> exact .inr ⟨rfl, rfl⟩
  | takeBlock hb =>
    split
    · exact .inr ⟨rfl, rfl⟩
    · exact .inr ⟨rfl, rfl⟩
  | _ => exact .inr ⟨rfl, rfl⟩

/-- A turn of a node is a turn of its core. -/
theorem Turns.core (h : n.Turns cfg codec i n') (hn : n.Tended codec) :
    ∃ fuel, (Core.react cfg fuel i n.core).1 ≠ .exhausted ∧
      n'.core = (Core.react cfg fuel i n.core).2 ∧
      (n'.alive = true ↔ (Core.react cfg fuel i n.core).1 = .ok ()) := by
  obtain ⟨ha, hd, hi, hr, ho, ht⟩ := h
  rename_i fuel o t new
  rw [hn.found hd] at hr
  refine ⟨fuel, ?_, ?_, ?_⟩
  · rwa [hr]
  · rw [hr]
    rfl
  · rw [hr]
    exact decide_eq_true_iff

theorem Reached.step (h : Reached cfg mempool codec n) (hs : Step cfg mempool codec n n')
    (hu : n'.Unmixed codec) : Reached cfg mempool codec n' := by
  rcases hs.turns with ⟨i, ha, hd, hi, hr, ho, ht⟩ | ⟨hc, ha⟩
  · exact h.turn ha hd hr ho ht hu
  · exact h.task hs hc ha hu

/-- What the tasks have is carried on as long as the store mixes no payload up with a block. -/
theorem Stocked.carry (h : n.Stocked n.carriedOut) (hu : n.Unmixed codec)
    (hs : Step cfg mempool codec n n') : n'.Stocked n'.carriedOut := by
  obtain ⟨past, hp⟩ := h.step hu.clean hs
  rw [Logged.carriedOut ⟨hp.trace, hp.sound⟩]
  exact hp

end Node

structure Cluster where
  node : PublicKey → Node
  phase : PublicKey → Phase

namespace Cluster

def start : Cluster := ⟨fun _ => .new, fun _ => .idle⟩

def set (c : Cluster) (i : PublicKey) (n : Node) (p : Phase) : Cluster :=
  ⟨Function.update c.node i n, Function.update c.phase i p⟩

/-- The cores. -/
def world (c : Cluster) : World := ⟨fun k => (c.node k).core, c.phase⟩

/-- What can come out of the channels of the core of node `i`: a message that another node has given
to its network, the request of its synchronizer, a block that the own tasks hand back, a message of
the new epoch, the timer. -/
inductive Arrives (foreign : ConsensusMessage → Prop) (c : Cluster) (i : PublicKey) : Input → Prop
  | core {j : PublicKey} {e : ℕ} {m : ConsensusMessage} {dest : Option PublicKey} (hj : j ≠ i)
      (h : (e, .send m dest OPT) ∈ (c.node j).carriedOut) (hd : dest = none ∨ dest = some i) :
      Arrives foreign c i (.core m)
  | smvba {j : PublicKey} {e tag : ℕ} {m : ConsensusMessage} {dest : Option PublicKey} (hj : j ≠ i)
      (h : (e, .send m dest tag) ∈ (c.node j).carriedOut) (ht : tag ≠ OPT)
      (hd : dest = none ∨ dest = some i) : Arrives foreign c i (.smvba m)
  | request {j : PublicKey} {e : ℕ} {b : Block} (hj : j ≠ i)
      (h : (e, .sync b) ∈ (c.node j).carriedOut) : Arrives foreign c i
      (.core (.SyncRequest b.parent j))
  | foreignCore {m : ConsensusMessage} (h : foreign m) : Arrives foreign c i (.core m)
  | foreignSmvba {m : ConsensusMessage} (h : foreign m) : Arrives foreign c i (.smvba m)
  | own {input : Input} (h : input ∈ (c.node i).coming) : Arrives foreign c i input
  | requeued {e : ℕ} {b : Block} (h : (e, .requeue (.HsPropose b)) ∈ (c.node i).carriedOut) :
      Arrives foreign c i (.core (.HsPropose b))
  | requeuedSmvba {e : ℕ} {m : ConsensusMessage} (h : (e, .requeue m) ∈ (c.node i).carriedOut)
      (hm : ∀ b, m ≠ .HsPropose b) : Arrives foreign c i (.smvba m)
  | timer (h : (c.node i).core.timer ≠ none) : Arrives foreign c i .timer

/-- The runs of a committee in which the nodes of `honest` run the program. Any step of a task
of such a node that leaves its core alone may come at any time. No store mixes a payload up
with a block. -/
inductive Runs (S : Setup) (mempools : PublicKey → MempoolConfig) (codec : Codec)
    (honest : PublicKey → Prop) (foreign : Cores → ConsensusMessage → Prop) : Cluster → Prop
  | start : Runs S mempools codec honest foreign .start
  | boot {c : Cluster} {i : PublicKey} {n : Node} (h : Runs S mempools codec honest foreign c)
      (hi : honest i) (hp : c.phase i = .idle) (hn : (c.node i).Turns (S.config i) codec .boot n)
      (hu : n.Unmixed codec) :
      Runs S mempools codec honest foreign
        (c.set i n (if n.alive = true then .running else .stopped))
  | react {c : Cluster} {i : PublicKey} {n : Node} {input : Input}
      (h : Runs S mempools codec honest foreign c) (hi : honest i) (hp : c.phase i = .running)
      (ha : Arrives (foreign c.world.core) c i input)
      (hn : (c.node i).Turns (S.config i) codec input n) (hu : n.Unmixed codec) :
      Runs S mempools codec honest foreign
        (c.set i n (if n.alive = true then .running else .stopped))
  | task {c : Cluster} {i : PublicKey} {n : Node} (h : Runs S mempools codec honest foreign c)
      (hi : honest i) (hn : Node.Step (S.config i) (mempools i) codec (c.node i) n)
      (hc : n.core = (c.node i).core) (hu : n.Unmixed codec) :
      Runs S mempools codec honest foreign (c.set i n (c.phase i))

/-! ### The cores of a run are a run of the cores -/

variable {S : Setup} {mempools : PublicKey → MempoolConfig} {codec : Codec}
  {honest : PublicKey → Prop}
  {foreign : Cores → ConsensusMessage → Prop} {c : Cluster} {i : PublicKey} {n : Node}
  {input : Input}

theorem world_set (p : Phase) : (c.set i n p).world = c.world.set i n.core p := by
  unfold set world World.set
  congr 1
  funext k
  exact Function.apply_update (fun _ => Node.core) c.node i n k

end Cluster

variable {S : Setup} {mempools : PublicKey → MempoolConfig} {codec : Codec}
  {honest : PublicKey → Prop}
  {foreign : Cores → ConsensusMessage → Prop} {c : Cluster} {i : PublicKey} {n : Node}
  {input : Input}

/-- A block is suspended with one of three tags. -/
theorem Core.Reachable.suspend_tag {cfg : Config} {s : Core} {alive : Bool}
    (h : Core.Reachable cfg s alive)
    {b : Block} {tag : ℕ} (hb : s.Ever (.suspend b tag)) : tag = OPT ∨ tag = FALLBACK ∨
    tag = PES := by
  obtain ⟨e, hb⟩ := hb
  refine h.recorded (P := fun x => ∀ b tag, x.2 = .suspend b tag → tag = OPT ∨
    tag = FALLBACK ∨ tag = PES)
    ?_ ?_ _ hb b tag rfl
  · rintro u t y hr b tag rfl
    cases hr with
    | opt h => exact .inl h.2
    | pes _ h => exact .inr (h.imp And.left And.left)
  · rintro e y ho b tag rfl
    exact absurd trivial ho

namespace Cluster

theorem carriedOut_subset (n : Node) : n.carriedOut ⊆ n.core.trace := List.drop_subset _ _

/-- What arrives at a node arrives at its core. -/
theorem Arrives.core_arrives {f : ConsensusMessage → Prop} (h : Arrives f c i input)
    (hn : (c.node i).Linked) {alive : Bool}
    (hr : Core.Reachable (S.config i) (c.node i).core alive) :
    Ipotane.Arrives f c.world.core i input := by
  cases h with
  | core hj h hd => exact .core hj (carriedOut_subset _ h) hd
  | smvba hj h ht hd => exact .smvba hj (carriedOut_subset _ h) ht hd
  | request hj h => exact .request hj (carriedOut_subset _ h)
  | foreignCore h => exact .foreignCore h
  | foreignSmvba h => exact .foreignSmvba h
  | own h =>
    have howed := hn.owed _ h
    unfold Core.Owed at howed
    split at howed
    · rcases howed with ⟨e, hb⟩ | ⟨⟨e, hb⟩, hp⟩
      · exact .payload hb
      · obtain ⟨p, hp⟩ := Map.contains_iff.mp hp
        exact .parent hb hp
    · obtain ⟨tag, ho, hp, hb⟩ := howed
      rcases hr.suspend_tag hb with rfl | rfl | rfl
      · exact absurd rfl ho
      · obtain ⟨e, hb⟩ := hb
        exact .fallbackPayload hb
      · exact absurd rfl hp
    · obtain ⟨e, hb⟩ := howed
      exact .outputPayload hb
    · exact howed.elim
  | requeued h => exact .requeued (carriedOut_subset _ h)
  | requeuedSmvba h hm => exact .requeuedSmvba (carriedOut_subset _ h) hm
  | timer h => exact .timer h

theorem reached_set {p : Phase}
    (hc : ∀ k, Node.Reached (S.config k) (mempools k) codec (c.node k))
    (hn : Node.Reached (S.config i) (mempools i) codec n) (k : PublicKey) :
    Node.Reached (S.config k) (mempools k) codec ((c.set i n p).node k) := by
  change Node.Reached (S.config k) (mempools k) codec (Function.update c.node i n k)
  by_cases hk : k = i
  · subst hk
    rw [Function.update_self]
    exact hn
  · rw [Function.update_of_ne hk]
    exact hc k

theorem Runs.reached (h : Runs S mempools codec honest foreign c) (k : PublicKey) :
    Node.Reached (S.config k) (mempools k) codec (c.node k) := by
  induction h generalizing k with
  | start => exact .new
  | boot _ _ _ hn hu ih => exact reached_set ih ((ih _).step hn.step hu) k
  | react _ _ _ _ hn hu ih => exact reached_set ih ((ih _).step hn.step hu) k
  | task _ _ hn _ hu ih => exact reached_set ih ((ih _).step hn hu) k

theorem Runs.tended (h : Runs S mempools codec honest foreign c) (k : PublicKey) :
    (c.node k).Tended codec := (h.reached k).tended

theorem stocked_set {p : Phase} (hc : ∀ k, (c.node k).Stocked (c.node k).carriedOut)
    (hn : n.Stocked n.carriedOut) (k : PublicKey) :
    ((c.set i n p).node k).Stocked ((c.set i n p).node k).carriedOut := by
  change (Function.update c.node i n k).Stocked (Function.update c.node i n k).carriedOut
  by_cases hk : k = i
  · subst hk
    rw [Function.update_self]
    exact hn
  · rw [Function.update_of_ne hk]
    exact hc k

theorem Runs.stocked (h : Runs S mempools codec honest foreign c) (k : PublicKey) :
    (c.node k).Stocked (c.node k).carriedOut := by
  induction h generalizing k with
  | start => exact Node.stocked_new
  | @boot c i n h _ _ hn _ ih =>
    have hs : Node.Step (S.config i) (mempools i) codec (c.node i) n := hn.step
    exact stocked_set ih ((ih i).carry (h.tended i).unmixed hs) k
  | @react c i n _ h _ _ _ hn _ ih =>
    have hs : Node.Step (S.config i) (mempools i) codec (c.node i) n := hn.step
    exact stocked_set ih ((ih i).carry (h.tended i).unmixed hs) k
  | task h _ hn _ _ ih => exact stocked_set ih ((ih _).carry (h.tended _).unmixed hn) k

theorem Runs.run (h : Runs S mempools codec honest foreign c) : Run S honest foreign c.world := by
  induction h with
  | start => exact .start
  | @boot c i n h hi hp hn _ hrun =>
    obtain ⟨fuel, hne, hcore, halive⟩ := hn.core (h.tended i)
    have hnext := hrun.boot fuel hi hp hne
    rw [world_set, hcore]
    simp only [halive]
    exact hnext
  | @react c i n input h hi hp ha hn _ hrun =>
    obtain ⟨fuel, hne, hcore, halive⟩ := hn.core (h.tended i)
    have harr := ha.core_arrives (h.tended i).linked (hrun.reachable i)
    have hnext := hrun.react fuel hi hp harr hne
    rw [world_set, hcore]
    simp only [halive]
    exact hnext
  | @task c i n _ _ _ hc _ hrun =>
    have hsame : c.world.set i n.core (c.phase i) = c.world := by
      rw [hc]
      unfold World.set world
      congr 1
      · exact Function.update_eq_self i fun k => (c.node k).core
      · exact Function.update_eq_self i c.phase
    rw [world_set, hsame]
    exact hrun

/-- The cores of a committee of complete nodes run as a committee of cores: what the own tasks
hand back is what a core has asked for, and between two turns a core finds in the store what
it has stored. -/
theorem Runs.refines (h : Runs S mempools codec honest foreign c) :
    Run S honest foreign c.world ∧
      ∀ k, (c.node k).due = [] → (c.node k).found codec = (c.node k).core :=
  ⟨h.run, fun k hd => (h.tended k).found hd⟩

end Cluster

/-! ### What a certificate vouches for -/

/-- A vote is made for a block that is stored. -/
theorem Core.Reachable.vote_stored {cfg : Config} {s : Core} {alive : Bool}
    (h : Core.Reachable cfg s alive) {v : HVote} (hv : s.Ever (.sign (.vote v))) :
    ∃ b, b.digest = v.hash ∧ s.Ever (.store b) := by
  obtain ⟨e, hv⟩ := hv
  refine h.caused (Q := fun u x => ∀ v, x.2 = .sign (.vote v) → ∃ b, b.digest = v.hash ∧
    u.Ever (.store b))
    ?_ ?_ ?_ _ hv v rfl
  · intro u t y hsub hq v hy
    obtain ⟨b, hd, e, hb⟩ := hq v hy
    exact ⟨b, hd, e, hsub hb⟩
  · rintro u t y - hr v rfl
    cases hr with
    | opt h => exact h.elim
    | pes _ h =>
      obtain ⟨b, rfl, hb, -, -⟩ := h
      exact ⟨b, rfl, hb.ever⟩
    | vote _ hs _ _ _ _ => exact ⟨_, rfl, hs.ever⟩
  · rintro u e y ho v rfl
    exact absurd trivial ho

/-- The node has a block of the digest in its store, and all of its payload. -/
def Node.Holds (n : Node) (d : Digest) : Prop :=
  ∃ b, n.mempool.store.get d = some (.block b) ∧ b.digest = d ∧ n.Has b

/-- Between two turns a node holds what it has stored. -/
theorem Node.Reached.holds {cfg : Config} {mempool : MempoolConfig} {codec : Codec} {n : Node}
    (h : Node.Reached cfg mempool codec n) (hs : n.Stocked n.carriedOut)
    (hd : n.due = []) {b : Block} (hb : n.core.Ever (.store b)) : n.Holds b.digest := by
  obtain ⟨c, hget, hdigest⟩ := h.files hd hb
  obtain ⟨-, e, hst⟩ := hs.blocks _ _ hget
  refine ⟨c, hget, hdigest, hs.has ?_⟩
  have htrace : n.core.trace = n.carriedOut := by
    rw [hs.trace, hd]
    exact (List.nil_append _).symm
  rw [← htrace]
  exact hs.inOrder.provided hst rfl

namespace Cluster

/-- The block that a valid certificate is for is held, with its payload, by honest nodes that make a
quorum together with the faulty ones. -/
theorem Runs.certificate_available (h : Runs S mempools codec honest foreign c)
    (hf : FaultBound S.committee honest) (hdue : ∀ k, honest k → (c.node k).due = []) {q : QC}
    (hv : q.verify S.committee = .ok ()) (hg : q.Genuine honest c.world.core) :
    ∃ A ⊆ S.committee.names, (∀ k ∈ A, honest k ∧ (c.node k).Holds q.hash) ∧
      S.committee.quorumThreshold ≤ S.committee.stakeOf A + S.committee.maxFaulty := by
  classical
  have hb := QC.verify_iff.mp hv
  let V := (q.votes.map Prod.fst).toFinset
  refine ⟨V.filter honest, (Finset.filter_subset _ _).trans hb.subset_names, ?_, ?_⟩
  · intro k hk
    obtain ⟨hk, hh⟩ := Finset.mem_filter.mp hk
    obtain ⟨v, hsv, hash, -⟩ := hg.voted hb hh (List.mem_toFinset.mp hk)
    obtain ⟨b, hd, hst⟩ := (h.run.reachable k).vote_stored hsv
    rw [← hash, ← hd]
    exact ⟨hh, (h.reached k).holds (h.stocked k) (hdue k hh) hst⟩
  · have hsplit : S.committee.stakeOf V = S.committee.stakeOf (V.filter honest) +
        S.committee.stakeOf (V.filter fun k => ¬ honest k) :=
      (Finset.sum_filter_add_sum_filter_not V honest S.committee.stake).symm
    have hfaulty := hf (V.filter fun k => ¬ honest k)
      ((Finset.filter_subset _ _).trans hb.subset_names) fun k hk => (Finset.mem_filter.mp hk).2
    have hquorum : S.committee.quorumThreshold ≤ S.committee.stakeOf V := hb.quorum
    omega

end Cluster

/-! ### Clusters that are evaluated -/

section Evaluation

variable {cfg : Config} {mempool : MempoolConfig} {paid : List Digest} {n' : Node}

/-- The payloads in the store are among those that the node has been given. -/
def Node.Files (paid : List Digest) (n : Node) : Prop :=
  ∀ d p, n.mempool.store.get d = some (.payload p) → d ∈ paid

/-- What is to be evaluated. -/
def Node.apart (paid : List Digest) (n : Node) : Bool :=
  paid.all fun d => n.core.store.get d = none ∧ n.core.trace.all fun x =>
    match x.2 with
    | .sync b => b.parent ≠ d
    | .receive (.ParPrePare p) | .sign (.prepare p) => p.val = OPT → p.qc.hash ≠ d
    | _ => true

theorem Node.Files.unmixed (h : n.Files paid) (hr : ∀ p, codec.readBlock p = none)
    (ha : n.apart paid = true) : n.Unmixed codec := by
  intro d p hp
  obtain ⟨hnone, hall⟩ := of_decide_eq_true (List.all_eq_true.mp ha d (h d p hp))
  refine ⟨hr p, hnone, ?_⟩
  rintro (⟨b, ⟨e, hb⟩, hd⟩ | ⟨q, ⟨e, hq⟩ | ⟨e, hq⟩, hv, hd⟩)
  · exact of_decide_eq_true (List.all_eq_true.mp hall _ hb) hd
  · exact of_decide_eq_true (List.all_eq_true.mp hall _ hq) hv hd
  · exact of_decide_eq_true (List.all_eq_true.mp hall _ hq) hv hd

theorem Node.Files.same (h : n.Files paid) (hs : n'.mempool.store = n.mempool.store) :
    n'.Files paid := by
  intro d p hp
  rw [hs] at hp
  exact h d p hp

theorem Node.Files.carry {y : Event} (h : n.Files paid)
    (hy : Node.carry cfg mempool y n = some n') : n'.Files paid := by
  unfold Node.carry at hy
  split at hy
  · obtain ⟨-, heq⟩ := Option.ite_none_right_eq_some.mp hy
    cases heq
    refine h.same ?_
    change (Node.answerGet cfg mempool false none _ _ n.mempool).2.store = _
    unfold Node.answerGet Mempool.getPayload
    rw [bind_run (x := self) rfl]
    split <;> rename_i hds <;> split at hds <;> (try split at hds) <;> cases hds <;> rfl
  · obtain ⟨-, heq⟩ := Option.ite_none_right_eq_some.mp hy
    cases heq
    exact h
  · obtain ⟨-, heq⟩ := Option.ite_none_right_eq_some.mp hy
    cases heq
    refine h.same ?_
    obtain ⟨inner, heq⟩ := Mempool.onlyQueues_verifyPayload n.mempool _ _
    change (Mempool.verifyPayload _ _ n.mempool).2.store = n.mempool.store
    rw [heq]
  · rename_i b
    cases hy
    intro d p hp
    change (n.mempool.store.insert b.digest (.block b)).get d = _ at hp
    rw [Map.get_insert] at hp
    split at hp
    · cases hp
    · exact h d p hp
  · cases hy
    exact h
  · cases hy
    exact h.same rfl
  · cases hy
    exact h

/-- A message of the mempools that brings one of the listed payloads at most. -/
def brings (paid : List Digest) : MempoolMessage → Bool
  | .OwnPayload p | .Payload p => p.digest ∈ paid
  | .PayloadRequest _ _ => true

/-- No other payload gets into the store. -/
def Mempool.FilesOnly (paid : List Digest) (m t : Mempool) : Prop :=
  ∀ d p, t.store.get d = some (.payload p) → m.store.get d = some (.payload p) ∨ d ∈ paid

theorem Mempool.filesOnly_insert {m : Mempool} {d : Digest} {p : Payload} (hd : d ∈ paid) :
    m.FilesOnly paid { m with store := m.store.insert d (.payload p) } := by
  intro d' q hq
  change (m.store.insert d (.payload p)).get d' = _ at hq
  rw [Map.get_insert] at hq
  split at hq
  · rename_i heq
    exact .inr (heq ▸ hd)
  · exact .inl hq

theorem Mempool.filesOnly_transmit {m : Mempool} (x : MempoolMessage) (dest : Option PublicKey) :
    Moves (FilesOnly paid) m (transmit mempool x dest) :=
  moves_reads_bind (reads_ensure _ _) fun _ _ => moves_update fun _ _ h => .inl h

theorem Mempool.filesOnly_handleRequest (requestor : PublicKey) (digests : List Digest) :
    ∀ m, Moves (FilesOnly paid) m (handleRequest mempool codec requestor digests) := by
  induction digests with
  | nil => exact fun m => moves_pure ()
  | cons digest digests ih =>
    intro m
    refine moves_self_bind ?_
    dsimp only
    split
    · exact ih m
    · split
      · exact moves_bind (moves_fail _) fun _ t _ => ih t
      · exact moves_bind (filesOnly_transmit _ _) fun _ t _ => ih t

theorem Mempool.filesOnly_handle {m : Mempool} {full : Bool} {x : MempoolMessage}
    (hx : brings paid x = true) : m.FilesOnly paid (handle mempool codec full x m).2 := by
  have hmoves : Moves (FilesOnly paid) m (handle mempool codec full x) := by
    cases x with
    | OwnPayload p =>
      refine moves_self_bind (moves_reads_bind (reads_ensure _ _) fun _ _ => ?_)
      refine moves_bind (moves_reads_bind (reads_ensure _ _) fun _ _ => ?_) fun _ _ _ =>
        moves_update fun _ _ h => .inl h
      exact moves_update_bind (filesOnly_insert (of_decide_eq_true hx)) (filesOnly_transmit _ _)
    | Payload p =>
      refine moves_reads_bind (reads_ensure _ _) fun _ _ => ?_
      refine moves_reads_bind (reads_ensure _ _) fun _ _ => ?_
      refine moves_reads_bind (reads_ensure _ _) fun _ _ => ?_
      exact moves_update_bind (filesOnly_insert (of_decide_eq_true hx))
        (moves_update fun _ _ h => .inl h)
    | PayloadRequest digests requestor => exact filesOnly_handleRequest _ _ m
  unfold Moves at hmoves
  generalize (handle mempool codec full x m).2 = t at hmoves ⊢
  induction hmoves with
  | refl => exact fun _ _ h => .inl h
  | tail _ hlast ih => exact fun d p h => (hlast d p h).elim (ih d p) .inr

variable (paid)

/-- The entries that are due are served, `count` at most. -/
def Node.settle (cfg : Config) (mempool : MempoolConfig) : ℕ → Node → Option Node
  | 0, n => some n
  | count + 1, n =>
    match n.due with
    | [] => some n
    | (_, x) :: rest =>
      (Node.carry cfg mempool x n).bind fun n' =>
        if ({ n' with due := rest } : Node).apart paid = true then
          Node.settle cfg mempool count { n' with due := rest }
        else none

namespace Cluster

variable (S mempools codec)

/-- The core of a node takes an input, and the other tasks carry out what it has put on record. -/
def perform (c : Cluster) (i : PublicKey) (input : Input) : Option Cluster :=
  (Node.feed (S.config i) codec input (c.node i)).bind fun n =>
    if n.apart paid = true then
      (Node.settle paid (S.config i) (mempools i) 200 n).map fun n' => c.set i n' .running
    else none

/-- The mempool of a node is told something. -/
def tell (c : Cluster) (i : PublicKey) (x : MempoolMessage) : Option Cluster :=
  (Node.move (S.config i) (mempools i) codec (.message x) (c.node i)).bind fun n =>
    if brings paid x = true ∧ n.apart paid = true then some (c.set i n (c.phase i)) else none

end Cluster

end Evaluation

end Cluster

/-- A node starts, takes the `k`-th message that another one has sent, its timer fires, or its
mempool is told something. -/
inductive Cluster.Act
  | boot (i : PublicKey)
  | deliver (i j : PublicKey) (k : ℕ)
  | timer (i : PublicKey)
  | message (i : PublicKey) (x : MempoolMessage)

def Cluster.Act.node : Cluster.Act → PublicKey
  | .boot i | .deliver i _ _ | .timer i | .message i _ => i

def Cluster.act (S : Setup) (mempools : PublicKey → MempoolConfig) (codec : Codec)
    (paid : List Digest) (c : Cluster) : Cluster.Act → Option Cluster
  | .boot i => if c.phase i = .idle then c.perform S mempools codec paid i .boot else none
  | .deliver i j k =>
    match (c.node j).core.sends[k]? with
    | some (m, dest, tag) =>
      if c.phase i = .running ∧ j ≠ i ∧ (dest = none ∨ dest = some i) ∧ (c.node j).due = [] then
        c.perform S mempools codec paid i (if tag = OPT then .core m else .smvba m)
      else none
    | none => none
  | .timer i =>
    if c.phase i = .running ∧ (c.node i).core.timer ≠ none then
      c.perform S mempools codec paid i .timer
    else none
  | .message i x => c.tell S mempools codec paid i x

def Cluster.play (S : Setup) (mempools : PublicKey → MempoolConfig) (codec : Codec)
    (paid : List Digest) : List Cluster.Act → Cluster → Option Cluster
  | [], c => some c
  | a :: acts, c => (c.act S mempools codec paid a).bind (play S mempools codec paid acts)

section Play

variable {S : Setup} {mempools : PublicKey → MempoolConfig} {codec : Codec}
  {honest : PublicKey → Prop}
  {foreign : Cores → ConsensusMessage → Prop} {paid : List Digest} {c d : Cluster} {i : PublicKey}

namespace Cluster

/-- A run in which the stores hold no other payloads than the listed ones. -/
def Played (S : Setup) (mempools : PublicKey → MempoolConfig) (codec : Codec)
    (honest : PublicKey → Prop)
    (foreign : Cores → ConsensusMessage → Prop) (paid : List Digest) (c : Cluster) : Prop :=
  Runs S mempools codec honest foreign c ∧ ∀ k, (c.node k).Files paid

theorem files_set {n : Node} {p : Phase} (hc : ∀ k, (c.node k).Files paid) (hn : n.Files paid)
    (k : PublicKey) : ((c.set i n p).node k).Files paid := by
  change (Function.update c.node i n k).Files paid
  by_cases hk : k = i
  · subst hk
    rw [Function.update_self]
    exact hn
  · rw [Function.update_of_ne hk]
    exact hc k

theorem set_set {n m : Node} {p q : Phase} : (c.set i n p).set i m q = c.set i m q := by
  unfold set
  rw [Function.update_idem, Function.update_idem]

theorem node_set {n : Node} {p : Phase} : (c.set i n p).node i = n := Function.update_self ..

theorem phase_set {n : Node} {p : Phase} : (c.set i n p).phase i = p := Function.update_self ..

/-- A task of node `i` makes a step. -/
theorem Played.task {n m : Node} {p : Phase}
    (h : Played S mempools codec honest foreign paid (c.set i n p))
    (hi : honest i) (hs : Node.Step (S.config i) (mempools i) codec n m) (hc : m.core = n.core)
    (hm : m.Files paid) (hu : m.Unmixed codec) :
    Played S mempools codec honest foreign paid (c.set i m p) := by
  have hnext := h.1.task hi (n := m) (by rwa [node_set]) (by rwa [node_set]) hu
  rw [set_set, phase_set] at hnext
  refine ⟨hnext, fun k => ?_⟩
  have hset := files_set (i := i) (p := p) h.2 hm k
  rwa [set_set] at hset

theorem Played.settle (hr : ∀ p, codec.readBlock p = none) (hi : honest i) {count : ℕ}
    {n m : Node} {p : Phase} (h : Played S mempools codec honest foreign paid (c.set i n p))
    (hm : Node.settle paid (S.config i) (mempools i) count n = some m) :
    Played S mempools codec honest foreign paid (c.set i m p) := by
  induction count generalizing n with
  | zero =>
    cases hm
    exact h
  | succ count ih =>
    unfold Node.settle at hm
    split at hm
    · cases hm
      exact h
    · rename_i e x rest hd
      obtain ⟨n', hn', hm⟩ := Option.bind_eq_some_iff.mp hm
      obtain ⟨ha, hm⟩ := Option.ite_none_right_eq_some.mp hm
      have hn : n.Files paid := by
        have hn := h.2 i
        rwa [node_set] at hn
      have hfiles : ({ n' with due := rest } : Node).Files paid := (hn.carry hn').same rfl
      have hserves := Node.serves_carry hn'
      refine ih (h.task hi (.serve hd hserves) ?_ hfiles (hfiles.unmixed hr ha)) hm
      cases hserves <;> rfl

theorem Played.perform (hr : ∀ p, codec.readBlock p = none) (hi : honest i) {input : Input}
    (h : Played S mempools codec honest foreign paid c)
    (ha : (c.phase i = .idle ∧ input = .boot) ∨
      (c.phase i = .running ∧ Arrives (foreign c.world.core) c i input))
    (hd : c.perform S mempools codec paid i input = some d) :
    Played S mempools codec honest foreign paid d := by
  obtain ⟨n, hn, hd⟩ := Option.bind_eq_some_iff.mp hd
  obtain ⟨hapart, hd⟩ := Option.ite_none_right_eq_some.mp hd
  obtain ⟨m, hm, rfl⟩ := Option.map_eq_some_iff.mp hd
  unfold Node.feed at hn
  dsimp only at hn
  obtain ⟨⟨halive, hdue, hoffers, hok, htrace⟩, hn⟩ := Option.ite_none_right_eq_some.mp hn
  have hturn : (c.node i).Turns (S.config i) codec input n := by
    cases hn
    exact .turn halive hdue hoffers rfl (by rw [hok]; exact nofun) htrace
  have hn' : n.alive = true ∧ n.Files paid := by
    cases hn
    exact ⟨decide_eq_true hok, (h.2 i).same rfl⟩
  have hu := hn'.2.unmixed hr hapart
  have hrun : Runs S mempools codec honest foreign (c.set i n .running) := by
    rcases ha with ⟨hp, rfl⟩ | ⟨hp, harr⟩
    · have hnext := h.1.boot hi hp hturn hu
      rwa [if_pos hn'.1] at hnext
    · have hnext := h.1.react hi hp harr hturn hu
      rwa [if_pos hn'.1] at hnext
  exact Played.settle hr hi ⟨hrun, files_set h.2 hn'.2⟩ hm

theorem Played.tell (hr : ∀ p, codec.readBlock p = none) (hi : honest i) {x : MempoolMessage}
    (h : Played S mempools codec honest foreign paid c)
    (hd : c.tell S mempools codec paid i x = some d) :
    Played S mempools codec honest foreign paid d := by
  obtain ⟨n, hm, hd⟩ := Option.bind_eq_some_iff.mp hd
  cases hm
  obtain ⟨⟨hx, hapart⟩, heq⟩ := Option.ite_none_right_eq_some.mp hd
  cases heq
  have hfiles : ({ c.node i with
      mempool := (Mempool.handle (mempools i) codec false x
        (c.node i).mempool).2 } : Node).Files paid := by
    intro d p hp
    rcases Mempool.filesOnly_handle hx d p hp with hp | hp
    · exact h.2 i d p hp
    · exact hp
  exact ⟨h.1.task hi (.message false x) rfl (hfiles.unmixed hr hapart), files_set h.2 hfiles⟩

theorem Played.act (hr : ∀ p, codec.readBlock p = none)
    (ha : ∀ i, i ∈ S.committee.sortedNames → honest i)
    {a : Act} (hn : a.node ∈ S.committee.sortedNames)
    (h : Played S mempools codec honest foreign paid c)
    (hd : c.act S mempools codec paid a = some d) :
    Played S mempools codec honest foreign paid d := by
  have hi := ha _ hn
  cases a with
  | boot i =>
    obtain ⟨hp, hd⟩ := Option.ite_none_right_eq_some.mp hd
    exact h.perform hr hi (.inl ⟨hp, rfl⟩) hd
  | deliver i j k =>
    unfold Cluster.act at hd
    dsimp only at hd
    split at hd
    · rename_i m dest tag hsend
      obtain ⟨⟨hp, hj, hdest, hdue⟩, hd⟩ := Option.ite_none_right_eq_some.mp hd
      obtain ⟨e, he⟩ := mem_of_sends hsend
      have hcarried : (e, .send m dest tag) ∈ (c.node j).carriedOut := by
        unfold Node.carriedOut
        rw [hdue]
        exact he
      refine h.perform hr hi (.inr ⟨hp, ?_⟩) hd
      split
      · rename_i ht
        subst ht
        exact .core hj hcarried hdest
      · exact .smvba hj hcarried (by assumption) hdest
    · cases hd
  | timer i =>
    obtain ⟨⟨hp, ht⟩, hd⟩ := Option.ite_none_right_eq_some.mp hd
    exact h.perform hr hi (.inr ⟨hp, .timer ht⟩) hd
  | message i x => exact h.tell hr hi hd

theorem Played.play (hr : ∀ p, codec.readBlock p = none)
    (ha : ∀ i, i ∈ S.committee.sortedNames → honest i)
    {acts : List Act} (hn : ∀ a ∈ acts, a.node ∈ S.committee.sortedNames)
    (h : Played S mempools codec honest foreign paid c)
    (hd : Cluster.play S mempools codec paid acts c = some d) :
    Played S mempools codec honest foreign paid d := by
  induction acts generalizing c with
  | nil =>
    cases hd
    exact h
  | cons a acts ih =>
    obtain ⟨e, he, hd⟩ := Option.bind_eq_some_iff.mp hd
    exact ih (fun b hb => hn b (List.mem_cons_of_mem _ hb))
      (h.act hr ha (hn a List.mem_cons_self) he) hd

/-- A fact about the end of a run that is decided by evaluation. -/
theorem exists_played (S : Setup) (mempools : PublicKey → MempoolConfig) (codec : Codec)
    (paid : List Digest) (hr : ∀ p, codec.readBlock p = none) (acts : List Act) (p : Cluster → Prop)
    [DecidablePred p] (hn : ∀ a ∈ acts, a.node ∈ S.committee.sortedNames)
    (h : (Cluster.play S mempools codec paid acts .start).any (p ·) = true) :
    ∃ c, Runs S mempools codec (· ∈ S.committee.sortedNames) (fun _ _ => False) c ∧ p c := by
  cases hplay : Cluster.play S mempools codec paid acts .start with
  | none =>
    rw [hplay] at h
    cases h
  | some c =>
    rw [hplay] at h
    have hstart : Played S mempools codec (· ∈ S.committee.sortedNames) (fun _ _ => False)
      paid .start :=
      ⟨.start, fun k d p hp => (nomatch hp)⟩
    exact ⟨c, (hstart.play hr (fun _ => id) hn hplay).1, of_decide_eq_true h⟩

end Cluster

end Play

/-! ### A certificate for a payload that its maker has not seen -/

/-- Nodes `0`, `1` and `2` have the payload and vote for the block; node `3`, which has neither,
counts their votes. -/
def toCertified : List Cluster.Act :=
  [.message 1 (.OwnPayload samplePayload), .message 0 (.Payload samplePayload),
    .message 2 (.Payload samplePayload), .boot 0, .boot 1, .boot 2, .boot 3, .deliver 0 1 0,
    .deliver 2 1 0, .deliver 3 0 1, .deliver 3 1 2, .deliver 3 2 0]

theorem refines_toCertified : ∃ c,
    Cluster.Runs paidSetup poolConfig sampleCodec (· ∈ fourNodes.sortedNames) (fun _ _ => False) c ∧
      Run paidSetup (· ∈ fourNodes.sortedNames) (fun _ _ => False) c.world ∧
      (c.node 2).found sampleCodec = (c.node 2).core ∧ (c.node 2).core.lastVotedHeight = 1 := by
  obtain ⟨c, hr, hdue, hvoted⟩ := Cluster.exists_played paidSetup poolConfig sampleCodec
    [samplePayload.digest] (fun _ => rfl) toCertified
    (fun c => (c.node 2).due = [] ∧ (c.node 2).core.lastVotedHeight = 1)
    (by decide) (by decide +kernel)
  obtain ⟨hrun, hfound⟩ := hr.refines
  exact ⟨c, hr, hrun, hfound 2 hdue, hvoted⟩

theorem certificate_available_toCertified : ∃ c q,
    Cluster.Runs paidSetup poolConfig sampleCodec (· ∈ fourNodes.sortedNames) (fun _ _ => False) c ∧
      (c.node 3).core.Ever (.assembled q) ∧
      (c.node 3).mempool.store.contains samplePayload.digest = false ∧
      ∃ A ⊆ fourNodes.names, (∀ k ∈ A, k ∈ fourNodes.sortedNames ∧ (c.node k).Holds q.hash) ∧
        fourNodes.quorumThreshold ≤ fourNodes.stakeOf A + fourNodes.maxFaulty := by
  obtain ⟨c, hr, hdue, hq, hlacks⟩ := Cluster.exists_played paidSetup poolConfig sampleCodec
    [samplePayload.digest] (fun _ => rfl) toCertified
    (fun c => (fourNodes.sortedNames.all fun k => (c.node k).due = []) = true ∧
      ((c.node 3).core.trace.any fun x =>
        match x.2 with
        | .assembled q => q.verify fourNodes = .ok () ∧
            q.GenuineAmong fourNodes.sortedNames c.world.core
        | _ => false) = true ∧
      (c.node 3).mempool.store.contains samplePayload.digest = false)
    (by decide) (by decide +kernel)
  obtain ⟨⟨e, y⟩, hx, hy⟩ := List.any_eq_true.mp hq
  obtain ⟨q, rfl, hv, hg⟩ : ∃ q, y = .assembled q ∧ q.verify fourNodes = .ok () ∧
      q.GenuineAmong fourNodes.sortedNames c.world.core := by
    revert hy
    split
    · rename_i heq
      exact fun hy => ⟨_, heq, of_decide_eq_true hy⟩
    · exact nofun
  refine ⟨c, q, hr, ⟨e, hx⟩, hlacks, ?_⟩
  refine hr.certificate_available (faultBound_of_filter (by decide +kernel)) ?_ hv hg.genuine
  exact fun k hk => of_decide_eq_true (List.all_eq_true.mp hdue k hk)

end Ipotane
