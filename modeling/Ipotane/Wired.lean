import Ipotane.Network
import Ipotane.Replay

/-! The committee with its network: what the nodes hand to their filters comes out of the channels
of the others by way of the connections between them. -/
namespace Ipotane

open Lib

/-- A node listens at one address for the messages of the optimistic path, and at another one for
those of the pessimistic path; each of the two feeds a channel of its core. -/
inductive Channel
  | core
  | smvba
deriving DecidableEq

abbrev Address := PublicKey × Channel

namespace Channel

def of (tag : ℕ) : Channel := if tag = OPT then core else smvba

variable [Crypto]

def input (m : ConsensusMessage) : Channel → Input
  | core => .core m
  | smvba => .smvba m

end Channel

section Wired

variable [Crypto]

/-- `pending` has the messages that the filter of a node delays; `handed` counts the entries of a
node's record that have been dealt with. -/
structure Wired (B : Type) where
  world : World
  handed : PublicKey → ℕ
  pending : Address → List (ConsensusMessage × List Address)
  sender : Address → NetSender Address B ConsensusMessage
  inbox : Address → List ConsensusMessage

namespace Wired

variable {B : Type}

def start : Wired B := ⟨.start, fun _ => 0, fun _ => [], fun _ => .new, fun _ => []⟩

/-- The addresses that `Synchronizer::transmit` looks up. -/
def addresses (c : Committee) (myself : PublicKey) (dest : Option PublicKey) (ch : Channel) :
    List Address :=
  match dest with
  | some k => [(k, ch)]
  | none => (c.sortedNames.filter (· ≠ myself)).map fun k => (k, ch)

/-- `network_filter.send((message, addresses))`. -/
def filter (w : Wired B) (i : PublicKey) (ch : Channel) (m : ConsensusMessage)
    (l : List Address) : Wired B :=
  { w with pending := Function.update w.pending (i, ch) (w.pending (i, ch) ++ [(m, l)]) }

/-- `deliver.send(message)`. -/
def deliver (w : Wired B) (a : Address) (m : ConsensusMessage) : Wired B :=
  { w with inbox := Function.update w.inbox a (w.inbox a ++ [m]) }

def react (S : Setup) (w : Wired B) (i : PublicKey) (fuel : ℕ) (input : Input) : Wired B :=
  let r := Core.react (S.config i) fuel input (w.world.core i)
  { w with world := w.world.set i r.2 (if r.1 = .ok () then .running else .stopped) }

/-- The next entry of a node's record is dealt with, its synchronizer asks for the parent of a
block, the delay of the `k`-th message in a filter is over, and what the network does. -/
inductive Act (B : Type)
  | hand (i : PublicKey)
  | request (i : PublicKey) (b : Block)
  | pass (a : Address) (k : ℕ)
  | net (a : Address) (x : NetSender.Act Address B)

variable (c : Committee) (encode : ConsensusMessage → B) (decode : B → Option ConsensusMessage)

def act (w : Wired B) : Act B → Option (Wired B)
  | .hand i =>
    match (w.world.core i).trace.reverse[w.handed i]? with
    | none => none
    | some (_, x) =>
      let w := { w with handed := Function.update w.handed i (w.handed i + 1) }
      match x with
      | .send m dest tag => some (w.filter i (.of tag) m (addresses c i dest (.of tag)))
      | _ => some w
  | .request i b =>
    if ((w.world.core i).trace.any fun x => x.2 = .sync b) = true then
      some (w.filter i .core (.SyncRequest b.parent i) (addresses c i none .core))
    else none
  | .pass a k =>
    match (w.pending a)[k]? with
    | none => none
    | some (m, l) =>
      ((w.sender a).act decode (.submit (encode m) l)).map fun s =>
        { w with
          pending := Function.update w.pending a ((w.pending a).eraseIdx k)
          sender := Function.update w.sender a s }
  | .net _ (.submit _ _) => none
  | .net a x =>
    ((w.sender a).act decode x).map fun s =>
      let w' := { w with sender := Function.update w.sender a s }
      match (w.sender a).arriving decode x with
      | none => w'
      | some (a', m) => w'.deliver a' m

/-- The states of a committee in which the nodes of `honest` run the program and the others
put what they like into the channels. A node takes what its own tasks hand back as it would if
it were alone. -/
inductive Reached (S : Setup) (encode : ConsensusMessage → B) (decode : B → Option ConsensusMessage)
    (honest : PublicKey → Prop) (foreign : Cores → ConsensusMessage → Prop) : Wired B → Prop
  | start : Reached S encode decode honest foreign .start
  | boot {w : Wired B} {i : PublicKey} (fuel : ℕ) (h : Reached S encode decode honest foreign w)
      (hi : honest i) (hp : w.world.phase i = .idle)
      (hf : (Core.react (S.config i) fuel .boot (w.world.core i)).1 ≠ .exhausted) :
      Reached S encode decode honest foreign (w.react S i fuel .boot)
  | own {w : Wired B} {i : PublicKey} {input : Input} (fuel : ℕ)
      (h : Reached S encode decode honest foreign w) (hi : honest i)
      (hp : w.world.phase i = .running)
      (ha : Arrives (fun _ => False) (Function.update World.start.core i (w.world.core i)) i input)
      (hf : (Core.react (S.config i) fuel input (w.world.core i)).1 ≠ .exhausted) :
      Reached S encode decode honest foreign (w.react S i fuel input)
  | take {w : Wired B} {i : PublicKey} {ch : Channel} {m : ConsensusMessage}
      {rest : List ConsensusMessage}
      (fuel : ℕ) (h : Reached S encode decode honest foreign w) (hi : honest i)
      (hp : w.world.phase i = .running) (hm : w.inbox (i, ch) = m :: rest)
      (hf : (Core.react (S.config i) fuel (ch.input m) (w.world.core i)).1 ≠ .exhausted) :
      Reached S encode decode honest foreign
        { w.react S i fuel (ch.input m) with inbox := Function.update w.inbox (i, ch) rest }
  | act {w w' : Wired B} (a : Act B) (h : Reached S encode decode honest foreign w)
      (ht : w.act S.committee encode decode a = some w') : Reached S encode decode honest foreign w'
  | forge {w : Wired B} {i : PublicKey} {m : ConsensusMessage} (ch : Channel) (fuel : ℕ)
      (h : Reached S encode decode honest foreign w) (hi : honest i)
      (hp : w.world.phase i = .running)
      (hm : foreign w.world.core m)
      (hf : (Core.react (S.config i) fuel (ch.input m) (w.world.core i)).1 ≠ .exhausted) :
      Reached S encode decode honest foreign (w.react S i fuel (ch.input m))

/-! ### What is on its way -/

variable {S : Setup} {c} {encode} {decode} {honest : PublicKey → Prop}
  {foreign : Cores → ConsensusMessage → Prop} {w w' : Wired B} {σ τ : Cores} {x a : Address}
  {m : ConsensusMessage} {l : List Address}

/-- The message has been put into the filter of a node on one of the paths. -/
def Sent (c : Committee) (σ : Cores) (x : Address) (m : ConsensusMessage)
    (l : List Address) : Prop :=
  (∃ e dest tag, (e, .send m dest tag) ∈ (σ x.1).trace ∧ .of tag = x.2 ∧
    l = addresses c x.1 dest x.2) ∨
    (x.2 = .core ∧ ∃ e b, (e, .sync b) ∈ (σ x.1).trace ∧ m = .SyncRequest b.parent x.1 ∧
      l = addresses c x.1 none .core)

theorem Sent.later (h : Sent c σ x m l) (hl : Later σ τ) : Sent c τ x m l := by
  rcases h with ⟨e, dest, tag, h, ht, hl'⟩ | ⟨hx, e, b, h, hm, hl'⟩
  · exact .inl ⟨e, dest, tag, (hl x.1).subset h, ht, hl'⟩
  · exact .inr ⟨hx, e, b, (hl x.1).subset h, hm, hl'⟩

/-- Whatever a sender holds or has dealt with has been put into its filter. -/
structure Carries (c : Committee) (encode : ConsensusMessage → B)
    (decode : B → Option ConsensusMessage)
    (σ : Cores) (x : Address) (s : NetSender Address B ConsensusMessage) : Prop where
  reached : NetSender.Reached decode (fun _ => True) s
  waiting : ∀ y, y ∈ s.transmit ++ s.current.toList → ∃ m l, Sent c σ x m l ∧
    y.1 = encode m ∧ y.2 ⊆ l
  posted : ∀ a bytes, (a, bytes) ∈ s.posted → ∃ m l, Sent c σ x m l ∧ bytes = encode m ∧ a ∈ l

/-- Whatever the filters, the senders and the channels hold has been sent. -/
structure Sound (c : Committee) (encode : ConsensusMessage → B)
    (decode : B → Option ConsensusMessage) (σ : Cores) (w : Wired B) : Prop where
  pending : ∀ x m l, (m, l) ∈ w.pending x → Sent c σ x m l
  sender : ∀ x, Carries c encode decode σ x (w.sender x)
  inbox : ∀ a m, m ∈ w.inbox a → ∃ x l, Sent c σ x m l ∧ a ∈ l

theorem sound_start : Sound c encode decode World.start.core start :=
  ⟨fun _ _ _ h => (nomatch h), fun _ => ⟨.new, fun _ h => (nomatch h), fun _ _ h => (nomatch h)⟩,
    fun _ _ h => (nomatch h)⟩

theorem Carries.later {s : NetSender Address B ConsensusMessage} (h : Carries c encode decode σ x s)
    (hl : Later σ τ) : Carries c encode decode τ x s where
  reached := h.reached
  waiting y hy := by
    obtain ⟨m, l, hs, hm, hsub⟩ := h.waiting y hy
    exact ⟨m, l, hs.later hl, hm, hsub⟩
  posted a bytes hy := by
    obtain ⟨m, l, hs, hm, hmem⟩ := h.posted a bytes hy
    exact ⟨m, l, hs.later hl, hm, hmem⟩

theorem Sound.later (h : Sound c encode decode σ w) (hl : Later σ τ) :
    Sound c encode decode τ w where
  pending x m l hm := (h.pending x m l hm).later hl
  sender x := (h.sender x).later hl
  inbox a m hm := by
    obtain ⟨x, l, hs, hmem⟩ := h.inbox a m hm
    exact ⟨x, l, hs.later hl, hmem⟩

/-- What comes out of a connection has been sent to its address. -/
theorem Carries.arriving {s : NetSender Address B ConsensusMessage}
    (h : Carries c encode decode σ x s)
    (hcodec : ∀ m, decode (encode m) = some m) {y : NetSender.Act Address B}
    (hy : s.arriving decode y = some (a, m)) : ∃ l, Sent c σ x m l ∧ a ∈ l := by
  unfold NetSender.arriving at hy
  split at hy
  · rename_i a' n
    obtain ⟨m', hm', heq⟩ := Option.map_eq_some_iff.mp hy
    cases heq
    obtain ⟨bytes, hbytes, hdecode⟩ := Option.bind_eq_some_iff.mp hm'
    obtain ⟨d, hd, hhead⟩ := Option.bind_eq_some_iff.mp hbytes
    have hordered := h.reached.ordered a
    have hmem := List.mem_of_getElem? hd
    -- what is on the wire was given to the connection
    have hgiven : decode bytes ∈ d.given.map decode := by
      refine (hordered.fifo d hmem).first.subset (List.mem_append_right _ ?_)
      exact List.mem_map_of_mem (List.mem_of_mem_head? hhead)
    obtain ⟨bytes', hb', heq⟩ := List.mem_map.mp hgiven
    have hposted : bytes' ∈ s.postedTo a :=
      hordered.given.subset (List.mem_flatMap.mpr ⟨d, List.mem_reverse.mpr hmem, hb'⟩)
    obtain ⟨m', l, hs, henc, hl⟩ := h.posted a _ (NetSender.mem_postedTo.mp hposted)
    rw [henc, hcodec, hdecode] at heq
    cases heq
    exact ⟨l, hs, hl⟩
  · cases hy

theorem Sound.filter {i : PublicKey} {ch : Channel} (h : Sound c encode decode σ w)
    (hs : Sent c σ (i, ch) m l) : Sound c encode decode σ (w.filter i ch m l) := by
  refine ⟨?_, h.sender, h.inbox⟩
  intro x m' l' hm
  change (m', l') ∈ Function.update w.pending (i, ch) _ x at hm
  by_cases hx : x = (i, ch)
  · subst hx
    rw [Function.update_self] at hm
    rcases List.mem_append.mp hm with hm | hm
    · exact h.pending _ m' l' hm
    · cases List.mem_singleton.mp hm
      exact hs
  · rw [Function.update_of_ne hx] at hm
    exact h.pending x m' l' hm

theorem Sound.deliver (h : Sound c encode decode σ w) (hs : ∃ x l, Sent c σ x m l ∧ a ∈ l) :
    Sound c encode decode σ (w.deliver a m) := by
  refine ⟨h.pending, h.sender, ?_⟩
  intro a' m' hm
  change m' ∈ Function.update w.inbox a _ a' at hm
  by_cases ha : a' = a
  · subst ha
    rw [Function.update_self] at hm
    rcases List.mem_append.mp hm with hm | hm
    · exact h.inbox _ m' hm
    · cases List.mem_singleton.mp hm
      exact hs
  · rw [Function.update_of_ne ha] at hm
    exact h.inbox a' m' hm

theorem Sound.net {s : NetSender Address B ConsensusMessage} (h : Sound c encode decode σ w)
    (hs : Carries c encode decode σ x s) :
    Sound c encode decode σ { w with sender := Function.update w.sender x s } := by
  refine ⟨h.pending, fun x' => ?_, h.inbox⟩
  change Carries c encode decode σ x' (Function.update w.sender x s x')
  by_cases hx : x' = x
  · subst hx
    rw [Function.update_self]
    exact hs
  · rw [Function.update_of_ne hx]
    exact h.sender x'

theorem Carries.submit {s : NetSender Address B ConsensusMessage}
    (h : Carries c encode decode σ x s) (hm : Sent c σ x m l) :
    Carries c encode decode σ x { s with transmit := s.transmit ++ [(encode m, l)] } := by
  refine ⟨h.reached.act (a := .submit (encode m) l) trivial rfl, ?_, h.posted⟩
  intro z hz
  rcases List.mem_append.mp hz with hz | hz
  · rcases List.mem_append.mp hz with hz | hz
    · exact h.waiting z (List.mem_append_left _ hz)
    · rw [List.mem_singleton.mp hz]
      exact ⟨m, l, hm, rfl, List.Subset.refl _⟩
  · exact h.waiting z (List.mem_append_right _ hz)

theorem Carries.act {s t : NetSender Address B ConsensusMessage} (h : Carries c encode decode σ x s)
    {y : NetSender.Act Address B} (hy : ∀ bytes l, y ≠ .submit bytes l)
    (ht : s.act decode y = some t) : Carries c encode decode σ x t := by
  have hhandles := NetSender.act_handles hy ht
  refine ⟨h.reached.act trivial ht, ?_, ?_⟩
  · intro z hz
    obtain ⟨l, hl, hsub⟩ := hhandles.waiting z hz
    obtain ⟨m, l', hsent, henc, hl'⟩ := h.waiting _ hl
    exact ⟨m, l', hsent, henc, fun k hk => hl' (hsub hk)⟩
  · intro a bytes hz
    rcases hhandles.posted _ hz with hz | ⟨l, hl, hmem⟩
    · exact h.posted a bytes hz
    · obtain ⟨m, l', hsent, henc, hl'⟩ := h.waiting _ hl
      exact ⟨m, l', hsent, henc, hl' hmem⟩

theorem Sound.act {y : Act B} (hcodec : ∀ m, decode (encode m) = some m)
    (h : Sound c encode decode w.world.core w) (hy : w.act c encode decode y = some w') :
    w'.world = w.world ∧ Sound c encode decode w.world.core w' := by
  cases y with
  | hand i =>
    unfold Wired.act at hy
    dsimp only at hy
    split at hy
    · cases hy
    · rename_i e x hx
      have hmem : (e, x) ∈ (w.world.core i).trace := List.mem_reverse.mp (List.mem_of_getElem? hx)
      have hcount : Sound c encode decode w.world.core
          { w with handed := Function.update w.handed i (w.handed i + 1) } :=
        ⟨h.pending, h.sender, h.inbox⟩
      split at hy
      · rename_i m dest tag
        cases hy
        exact ⟨rfl, hcount.filter (.inl ⟨e, dest, tag, hmem, rfl, rfl⟩)⟩
      · cases hy
        exact ⟨rfl, hcount⟩
  | request i b =>
    obtain ⟨hsync, hy⟩ := Option.ite_none_right_eq_some.mp hy
    cases hy
    obtain ⟨⟨e, x⟩, hx, heq⟩ := List.any_eq_true.mp hsync
    have heq : x = .sync b := of_decide_eq_true heq
    subst heq
    exact ⟨rfl, h.filter (.inr ⟨rfl, e, b, hx, rfl, rfl⟩)⟩
  | pass a k =>
    unfold Wired.act at hy
    dsimp only at hy
    split at hy
    · cases hy
    · rename_i m l hget
      obtain ⟨s, hs, rfl⟩ := Option.map_eq_some_iff.mp hy
      cases hs
      have hsent : Sent c w.world.core a m l := h.pending a m l (List.mem_of_getElem? hget)
      have hnet := h.net ((h.sender a).submit hsent)
      refine ⟨rfl, ?_, hnet.sender, hnet.inbox⟩
      intro x m' l' hm
      change (m', l') ∈ Function.update w.pending a _ x at hm
      by_cases hx : x = a
      · subst hx
        rw [Function.update_self] at hm
        exact h.pending _ m' l' (List.mem_of_mem_eraseIdx hm)
      · rw [Function.update_of_ne hx] at hm
        exact h.pending x m' l' hm
  | net a x =>
    have hx : ∀ bytes l, x ≠ .submit bytes l := by
      rintro bytes l rfl
      cases hy
    have hy' : ((w.sender a).act decode x).map (fun s =>
        let w' := { w with sender := Function.update w.sender a s }
        match (w.sender a).arriving decode x with
        | none => w'
        | some (a', m) => w'.deliver a' m) = some w' := by
      cases x with
      | submit bytes l => exact absurd rfl (hx bytes l)
      | _ => exact hy
    obtain ⟨s, hs, rfl⟩ := Option.map_eq_some_iff.mp hy'
    have hnet := h.net ((h.sender a).act hx hs)
    cases harr : (w.sender a).arriving decode x with
    | none => exact ⟨rfl, hnet⟩
    | some p =>
      obtain ⟨a', m⟩ := p
      obtain ⟨l, hsent, hmem⟩ := (h.sender a).arriving hcodec harr
      exact ⟨rfl, hnet.deliver ⟨a, l, hsent, hmem⟩⟩

/-! ### A run of the committee -/

/-- The node has addressed the message to itself, which only its answer to a request in its
own name is. -/
def Looped (σ : Cores) (i : PublicKey) (m : ConsensusMessage) : Prop :=
  ∃ e tag, (e, .send m (some i) tag) ∈ (σ i).trace

theorem arrives_mono {f g : ConsensusMessage → Prop} {i : PublicKey} {input : Input}
    (hf : ∀ m, f m → g m) (h : Arrives f σ i input) : Arrives g σ i input := by
  cases h with
  | core hj h hd => exact .core hj h hd
  | smvba hj h ht hd => exact .smvba hj h ht hd
  | request hj h => exact .request hj h
  | foreignCore h => exact .foreignCore (hf _ h)
  | foreignSmvba h => exact .foreignSmvba (hf _ h)
  | payload h => exact .payload h
  | parent h hp => exact .parent h hp
  | fallbackPayload h => exact .fallbackPayload h
  | outputPayload h => exact .outputPayload h
  | requeued h => exact .requeued h
  | requeuedSmvba h hm => exact .requeuedSmvba h hm
  | timer h => exact .timer h

/-- What comes out of a channel arrives. -/
theorem Sound.arrives {f : ConsensusMessage → Prop} {i : PublicKey} {ch : Channel}
    (h : Sound c encode decode σ w) (hm : m ∈ w.inbox (i, ch)) :
    Arrives (fun m => f m ∨ Looped σ i m) σ i (ch.input m) := by
  obtain ⟨⟨j, ch'⟩, l, hsent, hmem⟩ := h.inbox _ m hm
  -- a broadcast leaves out the node that makes it
  have hother : ∀ {k : PublicKey} {ch' : Channel}, (i, ch) ∈ addresses c k none ch' → k ≠ i ∧
    ch = ch' := by
    intro k ch' hin
    obtain ⟨k', hk', heq⟩ := List.mem_map.mp hin
    cases heq
    exact ⟨fun hk => of_decide_eq_true (List.mem_filter.mp hk').2 hk.symm, rfl⟩
  have hsends : ∀ {e tag : ℕ} {dest : Option PublicKey}, j ≠ i →
      (e, .send m dest tag) ∈ (σ j).trace → dest = none ∨ dest = some i →
      Arrives (fun m => f m ∨ Looped σ i m) σ i ((Channel.of tag).input m) := by
    intro e tag dest hj hsend hd
    unfold Channel.of
    split
    · rename_i ht
      subst ht
      exact .core hj hsend hd
    · exact .smvba hj hsend (by assumption) hd
  rcases hsent with ⟨e, dest, tag, hsend, hch, rfl⟩ | ⟨hch, e, b, hsync, rfl, rfl⟩
  · simp only at hsend hch hmem
    cases dest with
    | none =>
      obtain ⟨hj, rfl⟩ := hother hmem
      rw [← hch]
      exact hsends hj hsend (.inl rfl)
    | some k =>
      cases List.mem_singleton.mp hmem
      by_cases hj : j = i
      · subst hj
        have hloop : f m ∨ Looped σ j m := .inr ⟨e, tag, hsend⟩
        cases ch with
        | core => exact .foreignCore hloop
        | smvba => exact .foreignSmvba hloop
      · rw [← hch]
        exact hsends hj hsend (.inr rfl)
  · obtain ⟨hj, rfl⟩ := hother hmem
    exact .request hj hsync

/-- What the tasks of a node hand back to it arrives. -/
theorem arrives_alone {f : ConsensusMessage → Prop} {i : PublicKey} {input : Input}
    (h : Arrives (fun _ => False) (Function.update World.start.core i (σ i)) i input) :
    Arrives f σ i input := by
  have hself : ∀ {y}, y ∈ (Function.update World.start.core i (σ i) i).trace → y ∈ (σ i).trace := by
    intro y hy
    rwa [Function.update_self] at hy
  have hothers : ∀ {j y}, j ≠ i → y ∈ (Function.update World.start.core i (σ i) j).trace →
      ¬ y.2.Own := by
    intro j y hj hy
    rw [Function.update_of_ne hj] at hy
    exact Core.not_own_of_new hy
  cases h with
  | core hj h _ => exact absurd trivial (hothers hj h)
  | smvba hj h _ _ => exact absurd trivial (hothers hj h)
  | request hj h => exact absurd trivial (hothers hj h)
  | foreignCore h => exact h.elim
  | foreignSmvba h => exact h.elim
  | payload h => exact .payload (hself h)
  | parent h hp =>
    rw [Function.update_self] at hp
    exact .parent (hself h) hp
  | fallbackPayload h => exact .fallbackPayload (hself h)
  | outputPayload h => exact .outputPayload (hself h)
  | requeued h => exact .requeued (hself h)
  | requeuedSmvba h hm => exact .requeuedSmvba (hself h) hm
  | timer h =>
    rw [Function.update_self] at h
    exact .timer h

/-- A reaction of a node leaves its record as it is, but for what it adds. -/
theorem later_react {cfg : Config} {i : PublicKey} {fuel : ℕ} {input : Input} (hs : (σ i).StoreOk)
    (hf : (Core.react cfg fuel input (σ i)).1 ≠ .exhausted) :
    Later σ (Function.update σ i (Core.react cfg fuel input (σ i)).2) := by
  have harrival : (σ i).trace <:+ (Core.arrival (σ i) input).trace := by
    cases input with
    | boot => exact List.suffix_refl _
    | timer => exact List.suffix_refl _
    | core m => exact List.suffix_cons _ _
    | smvba m => exact List.suffix_cons _ _
  have hturns := Core.react_turns hs hf
  generalize (Core.react cfg fuel input (σ i)).2 = t at hturns
  refine later_update (harrival.trans ?_)
  induction hturns with
  | refl => exact List.suffix_refl _
  | tail _ hlast ih => exact ih.trans hlast.trace

theorem Sound.react {i : PublicKey} {fuel : ℕ} {input : Input}
    (h : Sound S.committee encode decode w.world.core w) (hs : (w.world.core i).StoreOk)
    (hf : (Core.react (S.config i) fuel input (w.world.core i)).1 ≠ .exhausted) :
    Sound S.committee encode decode (w.react S i fuel input).world.core
    (w.react S i fuel input) := by
  have hlater := h.later (later_react hs hf)
  exact ⟨hlater.pending, hlater.sender, hlater.inbox⟩

/-- What the others may put into a channel, and what a node may send to itself. -/
def Outside (foreign : Cores → ConsensusMessage → Prop) (σ : Cores) (m : ConsensusMessage) : Prop :=
  foreign σ m ∨ ∃ i, Looped σ i m

/-- A node takes what it has addressed to itself, and nothing that another node has so addressed. -/
def Due (foreign : Cores → ConsensusMessage → Prop) (σ : Cores) (i : PublicKey) : Input → Prop :=
  Arrives (fun m => foreign σ m ∨ Looped σ i m) σ i

theorem Due.arrives {i : PublicKey} {input : Input} (h : Due foreign σ i input) :
    Arrives (Outside foreign σ) σ i input :=
  arrives_mono (fun _ hm => hm.imp_right fun hm => ⟨i, hm⟩) h

theorem Reached.sound (hcodec : ∀ m, decode (encode m) = some m)
    (h : Reached S encode decode honest foreign w) :
    GuardedRun S honest (Outside foreign) (Due foreign) w.world ∧
      Sound S.committee encode decode w.world.core w := by
  have hreact : ∀ {w : Wired B} {i : PublicKey} {input : Input} {fuel : ℕ}, honest i →
      w.world.phase i = .running → Due foreign w.world.core i input →
      (Core.react (S.config i) fuel input (w.world.core i)).1 ≠ .exhausted →
      GuardedRun S honest (Outside foreign) (Due foreign) w.world →
      GuardedRun S honest (Outside foreign) (Due foreign) (w.react S i fuel input).world :=
    fun hi hp hd hf hrun => hrun.react _ hi hp hd.arrives hd hf
  induction h with
  | start => exact ⟨.start, sound_start⟩
  | @boot w i fuel _ hi hp hf ih =>
    obtain ⟨hrun, hsound⟩ := ih
    exact ⟨hrun.boot fuel hi hp hf, hsound.react (hrun.run.reachable i).storeOk hf⟩
  | @own w i input fuel _ hi hp ha hf ih =>
    obtain ⟨hrun, hsound⟩ := ih
    exact ⟨hreact hi hp (arrives_alone ha) hf hrun, hsound.react (hrun.run.reachable i).storeOk hf⟩
  | @take w i ch m rest fuel _ hi hp hm hf ih =>
    obtain ⟨hrun, hsound⟩ := ih
    have hmem : m ∈ w.inbox (i, ch) := by
      rw [hm]
      exact List.mem_cons_self
    refine ⟨hreact hi hp (hsound.arrives hmem) hf hrun, ?_⟩
    have hnext := hsound.react (hrun.run.reachable i).storeOk hf
    refine ⟨hnext.pending, hnext.sender, ?_⟩
    intro a m' hm'
    refine hnext.inbox a m' ?_
    change m' ∈ Function.update w.inbox (i, ch) rest a at hm'
    change m' ∈ w.inbox a
    by_cases ha : a = (i, ch)
    · subst ha
      rw [Function.update_self] at hm'
      rw [hm]
      exact List.mem_cons_of_mem _ hm'
    · rwa [Function.update_of_ne ha] at hm'
  | @act w w' a _ ht ih =>
    obtain ⟨hrun, hsound⟩ := ih
    obtain ⟨hworld, hsound'⟩ := hsound.act hcodec ht
    rw [hworld]
    exact ⟨hrun, hsound'⟩
  | @forge w i m ch fuel _ hi hp hm hf ih =>
    obtain ⟨hrun, hsound⟩ := ih
    have hdue : Due foreign w.world.core i (ch.input m) := by
      cases ch with
      | core => exact .foreignCore (.inl hm)
      | smvba => exact .foreignSmvba (.inl hm)
    exact ⟨hreact hi hp hdue hf hrun, hsound.react (hrun.run.reachable i).storeOk hf⟩

/-- The committee with its network runs as a committee of cores: whatever comes out of a channel
has been sent to the node that it belongs to. -/
theorem Reached.runs (hcodec : ∀ m, decode (encode m) = some m)
    (h : Reached S encode decode honest foreign w) :
    GuardedRun S honest (Outside foreign) (Due foreign) w.world ∧
      ∀ i ch m, m ∈ w.inbox (i, ch) → Due foreign w.world.core i (ch.input m) := by
  obtain ⟨hrun, hsound⟩ := h.sound hcodec
  exact ⟨hrun, fun i ch m hm => hsound.arrives hm⟩

end Wired

end Wired

/-! ### A proposal on its way -/

section Evaluation

open NetSender

/-- A node starts, takes the next message out of one of its channels, or something else happens. -/
inductive Wired.Move
  | boot (i : PublicKey)
  | take (i : PublicKey) (ch : Channel)
  | act (a : Wired.Act ConsensusMessage)

def Wired.move (S : Setup) (w : Wired ConsensusMessage) : Wired.Move →
    Option (Wired ConsensusMessage)
  | .boot i =>
    if w.world.phase i = .idle ∧ (Core.react (S.config i) 40 .boot (w.world.core i)).1 = .ok () then
      some (w.react S i 40 .boot)
    else none
  | .take i ch =>
    match w.inbox (i, ch) with
    | [] => none
    | m :: rest =>
      if w.world.phase i = .running ∧
          (Core.react (S.config i) 40 (ch.input m) (w.world.core i)).1 = .ok () then
        some { w.react S i 40 (ch.input m) with inbox := Function.update w.inbox (i, ch) rest }
      else none
  | .act a => w.act S.committee id some a

theorem Wired.Reached.moves {S : Setup} {honest : PublicKey → Prop} (hi : ∀ i, honest i)
    {foreign : Cores → ConsensusMessage → Prop} {w w' : Wired ConsensusMessage}
    {l : List Wired.Move}
    (h : Wired.Reached S id some honest foreign w) (hl : l.foldlM (Wired.move S) w = some w') :
    Wired.Reached S id some honest foreign w' := by
  induction l generalizing w with
  | nil =>
    cases hl
    exact h
  | cons x l ih =>
    obtain ⟨v, hv, hl⟩ := Option.bind_eq_some_iff.mp hl
    refine ih ?_ hl
    have hne : ∀ {r : Outcome ConsensusError Panic Unit}, r = .ok () → r ≠ .exhausted := by
      rintro r rfl hr
      cases hr
    cases x with
    | boot i =>
      obtain ⟨⟨hp, hok⟩, heq⟩ := Option.ite_none_right_eq_some.mp hv
      cases heq
      exact h.boot 40 (hi i) hp (hne hok)
    | take i ch =>
      unfold Wired.move at hv
      dsimp only at hv
      split at hv
      · cases hv
      · rename_i m rest hm
        obtain ⟨⟨hp, hok⟩, heq⟩ := Option.ite_none_right_eq_some.mp hv
        cases heq
        exact h.take 40 (hi i) hp hm (hne hok)
    | act a => exact h.act a hv

/-- What the loop and the connection to node `0` do until a message of node `1` is delivered. -/
def carrying : List Wired.Move :=
  [.recv, .dispatch true, .dispatch true, .dispatch true, .dispatch true,
    .connect (0, .core) 0 true,
    .write (0, .core) 0 true, .read (0, .core) 0].map fun x => .act (.net (1, .core) x)

/-- Node `1` proposes, and its proposal comes to node `0`. -/
def toDelivered : List Wired.Move :=
  [.boot 0, .boot 1] ++ List.replicate 3 (.act (.hand 1)) ++ [.act (.pass (1, .core) 0)] ++
    carrying ++ [.take 0 .core]

theorem runs_toDelivered : ∃ w : Wired ConsensusMessage,
    Wired.Reached sampleSetup id some (fun _ => True) (fun _ _ => False) w ∧
      GuardedRun sampleSetup (fun _ => True) (Wired.Outside fun _ _ => False)
        (Wired.Due fun _ _ => False) w.world ∧
      (w.world.core 0).lastVotedHeight = 1 ∧ (w.sender (1, .core)).deliveredTo (0, .core) ≠ [] := by
  have hany : (toDelivered.foldlM (Wired.move sampleSetup) Wired.start).any (fun w =>
      (w.world.core 0).lastVotedHeight = 1 ∧ (w.sender (1, .core)).deliveredTo (0, .core) ≠
        []) = true := by
    decide +kernel
  obtain ⟨w, hw, hend⟩ := (Option.any_eq_true _ _).mp hany
  obtain ⟨hvoted, hdelivered⟩ := of_decide_eq_true hend
  have hstart : Wired.Reached sampleSetup id some (fun _ => True)
    (fun _ _ => False) .start := .start
  have h := hstart.moves (fun _ => trivial) hw
  exact ⟨w, h, (h.runs fun _ => rfl).1, hvoted, hdelivered⟩

end Evaluation

end Ipotane
