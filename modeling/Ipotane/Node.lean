import Ipotane.Core.Record
import Ipotane.Mempool

/-! The tasks of one node: its core, its mempool, both synchronizers and the store. -/
namespace Ipotane

open Lib Handler

variable [Crypto]

/-- The core takes a turn at once; the entries that the turn adds to the record wait in `due`,
the first one first, for the other tasks, which answer and carry out what they stand for. -/
structure Node where
  core : Core
  alive : Bool
  mempool : Mempool
  blockInner : List Block
  blockPending : List Digest
  blockWaiting : List Block
  coming : List Input
  due : List (ℕ × Event)

namespace Node

def new : Node := ⟨.new, true, .new, [], [], [], [], []⟩

/-- The core with the blocks that it finds in the store of the node. -/
def found (codec : Codec) (n : Node) : Core := { n.core with store := codec.blocks n.mempool.store }

/-- An input that the node's own tasks do not send, or that is on its way from them. -/
def Offers (n : Node) (i : Input) : Prop :=
  i ∈ n.coming ∨ match i with
    | .core m | .smvba m => Core.loopback m = none
    | .boot | .timer => True

instance (n : Node) (i : Input) : Decidable (n.Offers i) := by
  unfold Offers
  cases i <;> infer_instance

/-! ### The answers to the core -/

variable (cfg : Config) (mempool : MempoolConfig)

/-- `ConsensusMempoolMessage::Get`: an error is answered with no payload. -/
def answerGet (full : Bool) (made : Option Payload) (order : List Digest) (tag : ℕ) (m : Mempool) :
    List Digest × Mempool :=
  match Mempool.getPayload mempool full made order cfg.parameters.maxPayloadSize tag m with
  | (.ok digests, m') => (digests, m')
  | (_, m') => ([], m')

/-- What an entry of the record stands for, outside the core. -/
inductive Serves : Event → Node → Node → Prop
  | draw {n : Node} {b : Block} {full : Bool} {made : Option Payload}
      {order : List Digest} {m : Mempool}
      (hp : order.Perm (if b.tag = OPT then n.mempool.optQueue else n.mempool.pesQueue))
      (h : answerGet cfg mempool full made order b.tag n.mempool = (b.payload, m)) :
      Serves (.sign (.block b)) n { n with mempool := m }
  | accept {n : Node} {b : Block} {tag : ℕ}
      (h : (Mempool.verifyPayload b tag n.mempool).1 = .ok true) : Serves (.accept b) n n
  | suspend {n : Node} {b : Block} {tag : ℕ} {m : Mempool}
      (h : Mempool.verifyPayload b tag n.mempool = (.ok false, m)) :
      Serves (.suspend b tag) n { n with mempool := m }
  | write {n : Node} {b : Block} :
      Serves (.store b) n { n with mempool := (Mempool.write b.digest (.block b) n.mempool).2 }
  | sync {n : Node} {b : Block} : Serves (.sync b) n { n with blockInner := n.blockInner ++ [b] }
  | cleanup {n : Node} {b : Block} :
      Serves (.cleanup b) n { n with mempool := (Mempool.cleanup b.payload b.height n.mempool).2 }
  | other {n : Node} {x : Event}
      (h : ∀ b tag, x ≠ .sign (.block b) ∧ x ≠ .accept b ∧ x ≠ .suspend b tag ∧ x ≠ .store b ∧
        x ≠ .sync b ∧ x ≠ .cleanup b) : Serves x n n

/-- The channel that a block comes back on. -/
def returns (m : ConsensusMessage) : Input :=
  match m with
  | .HsLoopBack _ => .core m
  | _ => .smvba m

/-- A step of one task of the node; a message for the mempool may come from anyone. -/
inductive Step (codec : Codec) : Node → Node → Prop
  | turn {n : Node} {fuel : ℕ} {i : Input} {o : Outcome ConsensusError Panic Unit} {t : Core}
      {new : List (ℕ × Event)} (ha : n.alive = true) (hd : n.due = []) (hi : n.Offers i)
      (hr : Core.react cfg fuel i (n.found codec) = (o, t)) (ho : o ≠ .exhausted)
      (ht : t.trace = new ++ n.core.trace) :
      Step codec n { n with
        core := t
        alive := decide (o = .ok ())
        coming := n.coming.erase i
        due := new.reverse }
  | serve {n n' : Node} {e : ℕ} {x : Event} {rest : List (ℕ × Event)} (hd : n.due = (e, x) :: rest)
      (h : Serves cfg mempool x n n') : Step codec n { n' with due := rest }
  | message {n : Node} (full : Bool) (m : MempoolMessage) :
      Step codec n { n with mempool := (Mempool.handle mempool codec full m n.mempool).2 }
  | takeInner {n : Node} {m : SynchronizerMessage} {rest : List SynchronizerMessage} {t : Mempool}
      (hi : n.mempool.inner = m :: rest)
      (h : Mempool.takeInner mempool m { n.mempool with inner := rest } = (.ok (), t)) :
      Step codec n { n with mempool := t }
  | finishWaiter {n : Node} {w : Waiter} {m : ConsensusMessage} {t : Mempool}
      (hw : w ∈ n.mempool.waiting) (hk : ∀ d ∈ w.missing, n.mempool.store.contains d = true)
      (h : Mempool.finishWaiter w n.mempool = (.ok m, t)) :
      Step codec n { n with mempool := t, coming := n.coming ++ [returns m] }
  | dropWaiter {n : Node} {w : Waiter} (hw : w ∈ n.mempool.waiting) (hc : w.cancelled = true) :
      Step codec n { n with mempool := { n.mempool with waiting := n.mempool.waiting.erase w } }
  | takeBlock {n : Node} {b : Block} {rest : List Block} (hb : n.blockInner = b :: rest) :
      Step codec n (if b.digest ∈ n.blockPending then { n with blockInner := rest }
        else { n with
          blockInner := rest
          blockPending := b.digest :: n.blockPending
          blockWaiting := n.blockWaiting ++ [b] })
  | finishBlock {n : Node} {b : Block} (hb : b ∈ n.blockWaiting)
      (hp : n.mempool.store.contains b.parent = true) :
      Step codec n { n with
        blockPending := n.blockPending.erase b.digest
        blockWaiting := n.blockWaiting.erase b
        coming := n.coming ++ [.core (.HsLoopBack b)] }

end Node

end Ipotane
