import Ipotane.Authenticity
import Ipotane.Intake

/-! What the digest of a payload says about its transactions, and that the payload maker puts every
transaction into one payload. -/
namespace Ipotane

section Payloads

variable [Crypto]

/-! ### Digests -/

namespace Payload

theorem digest_eq (p : Payload) : p.digest = sha512 p.hashed := rfl

variable {p q : Payload}

/-- The hash covers the author and the concatenation of the transactions. -/
theorem hashed_eq_iff : p.hashed = q.hashed ↔
    p.author = q.author ∧ p.transactions.flatten = q.transactions.flatten :=
  key_append_inj

/-- The digest of `p` is that of `q` only if they are the same but for the signature. -/
def Determines (p q : Payload) : Prop :=
  p.digest = q.digest → p.author = q.author ∧ p.transactions = q.transactions

/-- The transactions are cut at the same places wherever their concatenation is the same. -/
def SameCuts (p q : Payload) : Prop :=
  p.author = q.author → p.transactions.flatten = q.transactions.flatten →
    p.transactions.map List.length = q.transactions.map List.length

/-- A digest determines the transactions of a payload up to the places at which they are cut. -/
theorem determines_iff_sameCuts (hinj : sha512 p.hashed = sha512 q.hashed → p.hashed = q.hashed) :
    Determines p q ↔ SameCuts p q := by
  constructor
  · intro h ha ht
    rw [(h (congrArg sha512 (hashed_eq_iff.mpr ⟨ha, ht⟩))).2]
  · intro h hd
    obtain ⟨ha, ht⟩ := hashed_eq_iff.mp (hinj hd)
    exact ⟨ha, List.eq_iff_flatten_eq.mpr ⟨ht, h ha ht⟩⟩

/-- No digest determines its transactions: an empty one can always be added. -/
theorem exists_same_digest (p : Payload) :
    ∃ q : Payload, q.digest = p.digest ∧ q.author = p.author ∧ q.transactions ≠ p.transactions := by
  refine ⟨{ p with transactions := p.transactions ++ [[]] }, ?_, rfl, ?_⟩
  · rw [digest_eq, digest_eq]
    exact congrArg sha512 (hashed_eq_iff.mpr ⟨rfl, by simp⟩)
  · intro h
    have hlen := congrArg List.length h
    simp at hlen

/-- Transactions of one length are cut at the same places. -/
theorem sameCuts_of_length {n : ℕ} (hn : 0 < n) (hp : ∀ tx ∈ p.transactions, tx.length = n)
    (hq : ∀ tx ∈ q.transactions, tx.length = n) : SameCuts p q := by
  intro _ ht
  have hp : p.transactions.map List.length = List.replicate p.transactions.length n :=
    List.map_eq_replicate_iff.mpr hp
  have hq : q.transactions.map List.length = List.replicate q.transactions.length n :=
    List.map_eq_replicate_iff.mpr hq
  have hlen := congrArg List.length ht
  rw [List.length_flatten, List.length_flatten, hp, hq, List.sum_replicate,
    List.sum_replicate] at hlen
  rw [hp, hq, Nat.eq_of_mul_eq_mul_right hn hlen]

end Payload

/-! ### Batches -/

namespace Runner

/-- The arms of the loop of `Runner::run`. -/
inductive Event
  | transaction (tx : Transaction)
  | request

def Event.received : Event → List Transaction
  | transaction tx => [tx]
  | request => []

variable (cfg : MempoolConfig)

/-- What the arm hands to the mempool: an `OwnPayload`, or what `PayloadMaker::make` returns. -/
def handle (r : Runner) : Event → Option Payload × Runner
  | .transaction tx => r.add cfg tx
  | .request => r.answer cfg

/-- The payloads that have been handed over, in the order in which they were made,
and the runner. -/
def run (events : List Event) : List Payload × Runner :=
  events.foldl (fun x e => (x.1 ++ (x.2.handle cfg e).1.toList, (x.2.handle cfg e).2)) ([], new)

/-- The transactions that a payload of any length must not lose. -/
def nonEmpty (l : List Transaction) : List Transaction := l.filter (· ≠ [])

variable {cfg} {r : Runner} {e : Event} {events : List Event}

omit [Crypto] in
theorem nonEmpty_append (l l' : List Transaction) :
    nonEmpty (l ++ l') = nonEmpty l ++ nonEmpty l' :=
  List.filter_append ..

/-- A payload that `PayloadMaker::make` drops has only transactions without a byte. -/
theorem nonEmpty_of_size {p : Payload} (h : p.size = 0) : nonEmpty p.transactions = [] := by
  refine List.filter_eq_nil_iff.mpr fun tx htx => ?_
  have hlen : tx.length = 0 := List.sum_eq_zero_iff.mp h _ (List.mem_map_of_mem htx)
  simp [List.eq_nil_of_length_eq_zero hlen]

theorem run_snoc : run cfg (events ++ [e]) =
    ((run cfg events).1 ++ ((run cfg events).2.handle cfg e).1.toList,
      ((run cfg events).2.handle cfg e).2) := by
  simp [run, List.foldl_append]

/-- The buffer goes into the payload that is handed over, up to transactions without a byte. -/
theorem handle_conserves (r : Runner) (e : Event) :
    nonEmpty ((r.handle cfg e).1.toList.flatMap Payload.transactions ++
      (r.handle cfg e).2.transactions) = nonEmpty (r.transactions ++ e.received) := by
  cases e with
  | transaction tx =>
    unfold handle add
    by_cases hfull : r.size + tx.length > cfg.maxPayloadSize
    · simp only [if_pos hfull]
      simp [make, new, Payload.new, Event.received]
    · simp only [if_neg hfull]
      rfl
  | request =>
    unfold handle answer
    by_cases hsize : (r.make cfg).1.size = 0
    · simp only [if_pos hsize]
      have hnone : nonEmpty r.transactions = [] := nonEmpty_of_size hsize
      rw [Event.received, List.append_nil, hnone]
      rfl
    · simp only [if_neg hsize]
      simp [make, new, Payload.new, Event.received]

theorem handle_size (h : r.size = (r.transactions.map List.length).sum) (e : Event) :
    (r.handle cfg e).2.size = ((r.handle cfg e).2.transactions.map List.length).sum := by
  cases e with
  | transaction tx =>
    unfold handle add
    by_cases hfull : r.size + tx.length > cfg.maxPayloadSize
    · simp only [if_pos hfull]
      simp [make, new]
    · simp only [if_neg hfull]
      simp [h]
  | request => rfl

/-- In every state the payloads that were handed over and the buffer have the transactions that were
received, and the size is that of the buffer. -/
theorem batching_conserves (cfg : MempoolConfig) (events : List Event) :
    nonEmpty ((run cfg events).1.flatMap Payload.transactions ++ (run cfg events).2.transactions) =
        nonEmpty (events.flatMap Event.received) ∧
      (run cfg events).2.size = ((run cfg events).2.transactions.map List.length).sum := by
  induction events using List.reverseRecOn with
  | nil => exact ⟨rfl, rfl⟩
  | append_singleton events e ih =>
    rw [run_snoc]
    refine ⟨?_, handle_size ih.2 e⟩
    rw [List.flatMap_append, List.append_assoc, nonEmpty_append, handle_conserves,
      ← nonEmpty_append,
      ← List.append_assoc, nonEmpty_append, ih.1, ← nonEmpty_append, List.flatMap_append,
      List.flatMap_singleton]

end Runner

namespace Intake

variable {cfg : MempoolConfig} {codec : Codec} {n n' : Intake} {a : Act}
  {guard : Intake → Act → Prop}

omit [Crypto] in
theorem reverse_toList_append {α : Type} (o : Option α) (l : List α) :
    (o.toList ++ l).reverse = l.reverse ++ o.toList := by
  cases o <;> simp

/-- The payload maker of a node moves by its own events only. -/
theorem act_runner (h : n.act cfg codec a = some n') : (n'.built = n.built ∧ n'.runner = n.runner) ∨
    ∃ e, n'.built = (n.runner.handle cfg e).1.toList ++ n.built ∧
    n'.runner = (n.runner.handle cfg e).2 := by
  by_cases htx : ∃ tx, a = .transaction tx
  · obtain ⟨tx, rfl⟩ := htx
    cases h
    exact .inr ⟨.transaction tx, rfl, rfl⟩
  · by_cases hget : ∃ full order max tag, a = .get full order max tag
    · obtain ⟨full, order, max, tag, rfl⟩ := hget
      obtain ⟨_, h⟩ := Option.ite_none_right_eq_some.mp h
      cases h
      by_cases hask : n.Asks tag
      · have hreply : n.reply cfg tag = n.runner.handle cfg .request := if_pos hask
        exact .inr ⟨.request, by rw [← hreply]; rfl, by rw [← hreply]; rfl⟩
      · have hreply : n.reply cfg tag = (none, n.runner) := if_neg hask
        refine .inl ⟨?_, ?_⟩
        · change (n.reply cfg tag).1.toList ++ n.built = n.built
          rw [hreply]
          rfl
        · change (n.reply cfg tag).2 = n.runner
          rw [hreply]
    · obtain ⟨⟨_, hb, hr⟩, _⟩ := act_keeps h
        (fun full order max tag he => hget ⟨full, order, max, tag, he⟩) fun tx he => htx ⟨tx, he⟩
      exact .inl ⟨hb, hr⟩

/-- What a node has built is what its payload maker has handed over in some order of events. -/
theorem Runs.batches (h : Runs cfg codec guard n) :
    ∃ events, Runner.run cfg events = (n.built.reverse, n.runner) := by
  induction h with
  | new => exact ⟨[], rfl⟩
  | act _ _ ha ih =>
    obtain ⟨events, hrun⟩ := ih
    rcases act_runner ha with ⟨hb, hr⟩ | ⟨e, hb, hr⟩
    · exact ⟨events, by rw [hrun, hb, hr]⟩
    · exact ⟨events ++ [e], by rw [Runner.run_snoc, hrun, hb, hr, reverse_toList_append]⟩

end Intake

end Payloads

/-! ### One digest, two lists of transactions -/

def wholePayload : Payload := Payload.new [[1, 2]] 0

def cutPayload : Payload := Payload.new [[1], [2]] 0

def swappedPayload : Payload := Payload.new [[2], [1]] 0

theorem cutPayload_determines : Payload.Determines cutPayload swappedPayload :=
  (Payload.determines_iff_sameCuts (by decide +kernel)).mpr fun _ _ => rfl

theorem wholePayload_not_determines :
    ¬ ∀ p q : Payload, (sha512 p.hashed = sha512 q.hashed → p.hashed = q.hashed) →
      Payload.Determines p q := by
  intro h
  have heq := h wholePayload cutPayload (by decide +kernel) (by decide +kernel)
  revert heq
  decide +kernel

end Ipotane
