import Ipotane.Core.Append
import Ipotane.Symbolic

/-! Proposals of later epochs: what becomes of those that `run_epoch` keeps in its buffer. -/
namespace Ipotane

open Lib Handler

section Deferrals

variable [Crypto]

/-- The epoch that a node was in when it put a message into the buffer, the epoch of the
message, and the message. -/
abbrev Deferral := ℕ × ℕ × ConsensusMessage

namespace Core

/-- What a turn puts into the buffer. -/
def deferrals (cfg : Config) (fuel : ℕ) (i : Input) (s : Core) : List Deferral :=
  ((handle cfg fuel i (s.arrival i)).2.unhandleMessage.drop s.unhandleMessage.length).map
    fun x => (s.epoch, x)

/-- The runs of `run_epoch`, with everything that has been put into the buffer. -/
inductive Epochs (cfg : Config) : List Deferral → Core → Bool → Prop
  | new : Epochs cfg [] Core.new true
  | react {l : List Deferral} {s : Core} (fuel : ℕ) (i : Input) (h : Epochs cfg l s true)
      (hf : (react cfg fuel i s).1 ≠ .exhausted) :
      Epochs cfg (l ++ s.deferrals cfg fuel i) (react cfg fuel i s).2
        (decide ((react cfg fuel i s).1 = .ok ()))

/-- How often a message has been sent back to its channel in an epoch. -/
def requeues (s : Core) (epoch : ℕ) (m : ConsensusMessage) : ℕ := s.trace.count (epoch, .requeue m)

/-- Every message of an epoch that the node has reached has been sent back in that epoch, as often
as it was put into the buffer; the others are still there. -/
def LosesNone (s : Core) (l : List Deferral) : Prop :=
  ∀ (epoch : ℕ) (m : ConsensusMessage),
    (epoch ≤ s.epoch → s.requeues epoch m = (l.map Prod.snd).count (epoch, m)) ∧
    (s.epoch < epoch → s.requeues epoch m = 0 ∧
      s.unhandleMessage.count (epoch, m) = (l.map Prod.snd).count (epoch, m))

/-- The messages that were put into the buffer in earlier epochs: those for the epoch right
after have been sent back. -/
structure Recalled (s : Core) (l : List Deferral) : Prop where
  earlier : ∀ x ∈ l, x.1 < s.epoch ∧ x.1 < x.2.1
  requeued : ∀ epoch m, s.requeues epoch m = l.count (epoch - 1, epoch, m)

variable {cfg : Config} {s t : Core} {l : List Deferral}

theorem requeues_log {x : Event} (h : ∀ m, x ≠ .requeue m) (epoch : ℕ) (m : ConsensusMessage) :
    (s.log x).requeues epoch m = s.requeues epoch m := by
  unfold requeues log
  exact List.count_cons_of_ne fun he => h m (Prod.mk.inj he).2

theorem Adds.requeues (h : Adds s t) (epoch : ℕ) (m : ConsensusMessage) :
    t.requeues epoch m = s.requeues epoch m := by
  obtain ⟨new, hn, hx⟩ := h.record
  unfold Core.requeues
  rw [hn, List.count_append, List.count_eq_zero_of_not_mem, Nat.zero_add]
  intro hm
  exact hx _ hm trivial

theorem Recalled.adds (h : Recalled s l) (ha : Adds s t) : Recalled t l :=
  ⟨fun x hx => ha.epoch ▸ h.earlier x hx, fun epoch m => (ha.requeues epoch m).trans
    (h.requeued epoch m)⟩

theorem arrival_epoch (i : Input) : (s.arrival i).epoch = s.epoch := by
  cases i <;> rfl

theorem arrival_unhandleMessage (i : Input) :
    (s.arrival i).unhandleMessage = s.unhandleMessage := by
  cases i <;> rfl

theorem Recalled.arrival (h : Recalled s l) (i : Input) : Recalled (s.arrival i) l := by
  refine ⟨fun x hx => (arrival_epoch i).symm ▸ h.earlier x hx, fun epoch m => ?_⟩
  refine Eq.trans ?_ (h.requeued epoch m)
  cases i with
  | core m' => exact requeues_log (fun _ h => by cases h) _ _
  | smvba m' => exact requeues_log (fun _ h => by cases h) _ _
  | boot => rfl
  | timer => rfl

/-- The state in which the next epoch starts. -/
def enterEpoch (s : Core) : Core := (s.epochInit (s.epoch + 1)).drain s.unhandleMessage

theorem requeues_epochInit (n epoch : ℕ) (m : ConsensusMessage) :
    (s.epochInit n).requeues epoch m = s.requeues epoch m := by
  change ((s.cleared n).log (.reset 1 1)).requeues epoch m = s.requeues epoch m
  rw [requeues_log fun _ h => by cases h]
  rfl

theorem Recalled.enter (h : Recalled s l) (hb : s.unhandleMessage = []) :
    Recalled s.enterEpoch l ∧ s.enterEpoch.unhandleMessage = [] := by
  unfold enterEpoch
  rw [hb]
  refine ⟨⟨fun x hx => ?_, fun epoch m => ?_⟩, rfl⟩
  · have hx := h.earlier x hx
    exact ⟨Nat.lt_succ_of_lt hx.1, hx.2⟩
  · exact (requeues_epochInit _ _ _).trans (h.requeued epoch m)

theorem drain_single {k : ℕ} {m : ConsensusMessage} (hm : Deferrable m) :
    s.drain [(k, m)] =
      { (if k = s.epoch then s.log (.requeue m) else s) with unhandleMessage := [] } := by
  unfold drain
  split
  · cases m with
    | HsPropose b => rfl
    | FBPropose b => rfl
    | SPBPropose v p => rfl
    | _ => exact hm.elim
  · rfl

theorem requeues_log_requeue (epoch : ℕ) (m m' : ConsensusMessage) :
    (s.log (.requeue m)).requeues epoch m' =
      s.requeues epoch m' + if s.epoch = epoch ∧ m = m' then 1 else 0 := by
  unfold requeues log
  rw [List.count_cons]
  simp only [beq_iff_eq, Prod.mk.injEq, Event.requeue.injEq]

/-- The message that ended the epoch is sent back if it is of the next one. -/
theorem Recalled.recall {k : ℕ} {m : ConsensusMessage} (h : Recalled s l)
    (hb : s.unhandleMessage = [(k, m)]) (hk : s.epoch < k) (hm : Deferrable m) :
    Recalled s.enterEpoch (l ++ [(s.epoch, k, m)]) ∧ s.enterEpoch.unhandleMessage = [] := by
  unfold enterEpoch
  rw [hb, drain_single hm]
  have hearlier : ∀ x ∈ l ++ [(s.epoch, k, m)], x.1 < s.epoch + 1 ∧ x.1 < x.2.1 := by
    intro x hx
    rcases List.mem_append.mp hx with hx | hx
    · have hx := h.earlier x hx
      exact ⟨Nat.lt_succ_of_lt hx.1, hx.2⟩
    · cases List.mem_singleton.mp hx
      exact ⟨Nat.lt_succ_self _, hk⟩
  have hcount : ∀ epoch m', (l ++ [(s.epoch, k, m)]).count (epoch - 1, epoch, m') =
      s.requeues epoch m' + if (s.epoch + 1 = epoch ∧ m = m') ∧ k = s.epoch + 1 then 1 else 0 := by
    intro epoch m'
    rw [List.count_append, ← h.requeued, List.count_singleton]
    congr 1
    refine if_congr ?_ rfl rfl
    simp only [beq_iff_eq, Prod.mk.injEq]
    constructor
    · rintro ⟨h₁, h₂, h₃⟩
      exact ⟨⟨by omega, h₃⟩, by omega⟩
    · rintro ⟨⟨h₁, h₃⟩, h₂⟩
      exact ⟨by omega, by omega, h₃⟩
  by_cases he : k = (s.epochInit (s.epoch + 1)).epoch
  · rw [if_pos he]
    refine ⟨⟨hearlier, fun epoch m' => ?_⟩, rfl⟩
    rw [hcount]
    refine (requeues_log_requeue epoch m m').trans ?_
    rw [requeues_epochInit]
    have he : k = s.epoch + 1 := he
    simp only [he, and_true]
    rfl
  · rw [if_neg he]
    refine ⟨⟨hearlier, fun epoch m' => ?_⟩, rfl⟩
    rw [hcount, if_neg fun hc => he hc.2]
    exact requeues_epochInit _ _ _

theorem nextEpoch_run (cfg : Config) (fuel : ℕ) (s : Core) :
    nextEpoch cfg fuel s = (.panic .overflow, s) ∨ Adds s.enterEpoch (nextEpoch cfg fuel s).2 := by
  by_cases hn : s.epoch + 1 < 2 ^ 64
  · refine .inr ?_
    have hrun : nextEpoch cfg fuel s = boot cfg (exec cfg fuel) s.enterEpoch := by
      change (add s.epoch 1 >>= _) s = _
      rw [bind_run (add_run hn)]
      rfl
    rw [hrun]
    exact (appends_boot fuel).adds _
  · refine .inl ?_
    change (add s.epoch 1 >>= _) s = _
    unfold add
    rw [if_neg hn]
    rfl

/-- What is known of the buffer after a turn: it is empty unless the turn ended in a panic. -/
def Accounted (r : Outcome ConsensusError Panic Unit × Core) (l : List Deferral) : Prop :=
  (Recalled r.2 l ∧ r.2.unhandleMessage = []) ∨
    (r.1 ≠ .ok () ∧ ∃ l' k m, l = l' ++ [(r.2.epoch, k, m)] ∧ Recalled r.2 l' ∧
      r.2.unhandleMessage = [(k, m)] ∧ r.2.epoch < k)

theorem Recalled.next {fuel : ℕ} (h : Recalled t l) (hb : t.unhandleMessage = []) :
    Accounted (nextEpoch cfg fuel t) l := by
  rcases nextEpoch_run cfg fuel t with hn | hn
  · rw [hn]
    exact .inl ⟨h, hb⟩
  · obtain ⟨hr, hbr⟩ := h.enter hb
    exact .inl ⟨hr.adds hn, hn.buffer.trans hbr⟩

theorem Recalled.nextDeferred {fuel k : ℕ} {m : ConsensusMessage} (h : Recalled t l)
    (hb : t.unhandleMessage = []) (hk : t.epoch < k) (hm : Deferrable m) :
    Accounted (nextEpoch cfg fuel (t.defer k m)) (l ++ [(t.epoch, k, m)]) := by
  have hbt : (t.defer k m).unhandleMessage = [(k, m)] := by
    change t.unhandleMessage ++ [(k, m)] = _
    rw [hb]
    rfl
  have ht : Recalled (t.defer k m) l := ⟨h.earlier, h.requeued⟩
  rcases nextEpoch_run cfg fuel (t.defer k m) with hn | hn
  · rw [hn]
    exact .inr ⟨nofun, l, k, m, rfl, ht, hbt, hk⟩
  · obtain ⟨hr, hbr⟩ := ht.recall hbt hk hm
    exact .inl ⟨hr.adds hn, hn.buffer.trans hbr⟩

/-- A turn that starts with an empty buffer. -/
theorem Recalled.turn {fuel : ℕ} {i : Input} (h : Recalled s l) (hb : s.unhandleMessage = []) :
    Accounted (react cfg fuel i s) (l ++ s.deferrals cfg fuel i) := by
  have hl : Leaves (s.arrival i) (handle cfg fuel i (s.arrival i)).1
    (handle cfg fuel i (s.arrival i)).2 :=
    turns_handle fuel i _
  have ha := h.arrival i
  have hba : (s.arrival i).unhandleMessage = [] := (arrival_unhandleMessage i).trans hb
  have hea : (s.arrival i).epoch = s.epoch := arrival_epoch i
  unfold deferrals react
  rw [hb]
  generalize s.arrival i = u at *
  generalize handle cfg fuel i u = r at *
  obtain ⟨o, t⟩ := r
  cases hl with
  | adds hadds =>
    have hbt : t.unhandleMessage = [] := hadds.buffer.trans hba
    have ht : Recalled t l := ha.adds hadds
    rw [hbt, List.drop_nil, List.map_nil, List.append_nil]
    split
    · rename_i hr
      cases hr
      exact ht.next hbt
    · rename_i hr
      cases hr
      exact .inl ⟨ht, hbt⟩
    · exact .inl ⟨ht, hbt⟩
  | @defers v k m hadds hk hm =>
    have hbv : v.unhandleMessage = [] := hadds.buffer.trans hba
    have hmap : ((v.defer k m).unhandleMessage.drop 0).map (fun x => (s.epoch, x)) =
      [(v.epoch, k, m)] := by
      change List.map _ (v.unhandleMessage ++ [(k, m)]) = _
      rw [hbv, hadds.epoch, hea]
      rfl
    change Accounted (nextEpoch cfg fuel (v.defer k m))
      (l ++ ((v.defer k m).unhandleMessage.drop 0).map fun x => (s.epoch, x))
    rw [hmap]
    exact (ha.adds hadds).nextDeferred hbv hk hm

theorem Epochs.accounted {alive : Bool} (h : Epochs cfg l s alive) :
    (Recalled s l ∧ s.unhandleMessage = []) ∨
      (alive = false ∧ ∃ l' k m, l = l' ++ [(s.epoch, k, m)] ∧ Recalled s l' ∧
        s.unhandleMessage = [(k, m)] ∧ s.epoch < k) := by
  induction h with
  | new =>
    refine .inl ⟨⟨fun _ h => (nomatch h), fun epoch m => ?_⟩, rfl⟩
    change List.count (epoch, Event.requeue m) [(0, Event.reset 1 1)] = 0
    exact List.count_cons_of_ne fun he => by cases he
  | react fuel i _ hf ih =>
    rcases ih with ⟨hr, hb⟩ | ⟨ha, _⟩
    · exact (hr.turn hb).imp_right fun ⟨hn, hx⟩ => ⟨decide_eq_false hn, hx⟩
    · cases ha

/-- A message of the epoch right after the node's. -/
def OfNext (x : Deferral) : Prop := x.2.1 = x.1 + 1

theorem count_of_next (h : ∀ x ∈ l, OfNext x) (epoch : ℕ) (m : ConsensusMessage) :
    (l.map Prod.snd).count (epoch, m) = l.count (epoch - 1, epoch, m) := by
  induction l with
  | nil => rfl
  | cons x l ih =>
    have hx : x.2.1 = x.1 + 1 := h x List.mem_cons_self
    rw [List.map_cons, List.count_cons, List.count_cons, ih fun y hy =>
      h y (List.mem_cons_of_mem _ hy)]
    congr 1
    refine if_congr ?_ rfl rfl
    obtain ⟨e, k, m'⟩ := x
    simp only [beq_iff_eq, Prod.mk.injEq]
    constructor
    · rintro ⟨hk, hm⟩
      have hx : k = e + 1 := hx
      exact ⟨by omega, hk, hm⟩
    · exact And.right

omit [Crypto] in
/-- When as many pairs end in `y` as are `(j, y)`, those that end in `y` start with `j`. -/
theorem fst_eq_of_count {α : Type} [BEq α] [LawfulBEq α] {j : ℕ} {y : α} {l : List (ℕ × α)}
    (h : l.count (j, y) = (l.map Prod.snd).count y) : ∀ x ∈ l, x.2 = y → x.1 = j := by
  induction l with
  | nil => exact fun _ hx => nomatch hx
  | cons z l ih =>
    have hle : l.count (j, y) ≤ (l.map Prod.snd).count y :=
      List.count_le_count_map (f := Prod.snd) (x := (j, y))
    obtain ⟨i, w⟩ := z
    rw [List.map_cons] at h
    by_cases hw : w = y
    · subst hw
      rw [List.count_cons_self] at h
      have hi : i = j := by
        by_contra hi
        rw [List.count_cons_of_ne fun he => hi (Prod.mk.inj he).1] at h
        omega
      subst hi
      rw [List.count_cons_self] at h
      intro x hx hxy
      rcases List.mem_cons.mp hx with rfl | hx
      · rfl
      · exact ih (Nat.succ.inj h) x hx hxy
    · rw [List.count_cons_of_ne fun he => hw (Prod.mk.inj he).2, List.count_cons_of_ne hw] at h
      intro x hx hxy
      rcases List.mem_cons.mp hx with rfl | hx
      · exact absurd hxy hw
      · exact ih h x hx hxy

theorem Recalled.none_later {epoch : ℕ} {m : ConsensusMessage} (h : Recalled s l)
    (hlt : s.epoch < epoch) : l.count (epoch - 1, epoch, m) = 0 := by
  refine List.count_eq_zero_of_not_mem fun hm => ?_
  have he : epoch - 1 < s.epoch := (h.earlier _ hm).1
  omega

/-- Nothing is lost while every message that goes into the buffer is of the next epoch. -/
theorem Epochs.losesNone {alive : Bool} (h : Epochs cfg l s alive) (hn : ∀ x ∈ l, OfNext x) :
    LosesNone s l := by
  intro epoch m
  rcases h.accounted with ⟨hr, hb⟩ | ⟨_, l', k, m', rfl, hr, hb, hk⟩
  · rw [hr.requeued, count_of_next hn, hb]
    exact ⟨fun _ => rfl, fun hlt => ⟨hr.none_later hlt, (hr.none_later hlt).symm⟩⟩
  · have hn' : ∀ x ∈ l', OfNext x := fun x hx => hn x (List.mem_append_left _ hx)
    have hmap : ((l' ++ [(s.epoch, k, m')]).map Prod.snd).count (epoch, m) =
        l'.count (epoch - 1, epoch, m) + [(k, m')].count (epoch, m) := by
      rw [List.map_append, List.count_append, count_of_next hn']
      rfl
    rw [hr.requeued, hmap, hb]
    refine ⟨fun hle => ?_, fun hlt => ?_⟩
    · rw [List.count_cons_of_ne, List.count_nil, Nat.add_zero]
      rintro ⟨⟩
      exact absurd hle (Nat.not_le.mpr hk)
    · rw [hr.none_later hlt, Nat.zero_add]
      exact ⟨rfl, rfl⟩

/-- A message of an epoch after the next one is lost. -/
theorem Epochs.ofNext (h : Epochs cfg l s true) (hl : LosesNone s l) : ∀ x ∈ l, OfNext x := by
  rintro ⟨e, k, m⟩ hx
  rcases h.accounted with ⟨hr, hb⟩ | ⟨ha, _⟩
  · have hlt : e < k := (hr.earlier _ hx).2
    have hpos : 0 < (l.map Prod.snd).count (k, m) :=
      List.count_pos_iff.mpr (List.mem_map_of_mem (f := Prod.snd) hx)
    have hreached : k ≤ s.epoch := by
      by_contra hk
      have hcount := ((hl k m).2 (by omega)).2
      rw [hb] at hcount
      exact absurd hcount (Nat.ne_of_lt hpos)
    have hcount := (hl k m).1 hreached
    rw [hr.requeued] at hcount
    have he : e = k - 1 := fst_eq_of_count (y := (k, m)) hcount (e, k, m) hx rfl
    change k = e + 1
    omega
  · cases ha

/-- No proposal is lost in a run just when each one that goes into the buffer is of the epoch
right after the node's. -/
theorem losesNone_iff_ofNext {alive : Bool} (h : Epochs cfg l s alive) :
    ((∀ x ∈ l, OfNext x) → LosesNone s l) ∧
      (alive = true → LosesNone s l → ∀ x ∈ l, OfNext x) := by
  refine ⟨h.losesNone, ?_⟩
  rintro rfl
  exact h.ofNext

instance (x : Deferral) : Decidable (OfNext x) := inferInstanceAs (Decidable (_ = _))

end Core

end Deferrals

/-! ### A proposal of the next epoch and one of the epoch after it -/

/-- The first proposal of an epoch. -/
def firstProposal (epoch : ℕ) : Block := Block.new .genesis 1 1 epoch 0 [] OPT

/-- Node `0`, after its start, takes that proposal. -/
def takeFirst (epoch : ℕ) : Outcome ConsensusError Panic Unit × Core :=
  Core.react (sampleConfig 0) 40 (.core (.HsPropose (firstProposal epoch)))
    (booted (sampleConfig 0))

theorem epochs_takeFirst (epoch : ℕ) (h : (takeFirst epoch).1 = .ok ())
    (hd : (booted (sampleConfig 0)).deferrals (sampleConfig 0) 40
      (.core (.HsPropose (firstProposal epoch))) = [(0, epoch, .HsPropose (firstProposal epoch))]) :
    Core.Epochs (sampleConfig 0) [(0, epoch, .HsPropose (firstProposal epoch))]
    (takeFirst epoch).2 true := by
  have hboot : Core.Epochs (sampleConfig 0) ([] ++ Core.new.deferrals (sampleConfig 0) 40 .boot)
      (Core.react (sampleConfig 0) 40 .boot .new).2 _ := Core.Epochs.new.react 40 .boot
        (by decide +kernel)
  have hnone : Core.new.deferrals (sampleConfig 0) 40 .boot = [] := by decide +kernel
  have halive : decide ((Core.react (sampleConfig 0) 40 .boot .new).1 = .ok ()) = true := by
    decide +kernel
  rw [hnone, halive] at hboot
  have hnext := hboot.react 40 (.core (.HsPropose (firstProposal epoch))) (by
    change (takeFirst epoch).1 ≠ _
    rw [h]
    exact nofun)
  change Core.Epochs _ ([] ++ (booted (sampleConfig 0)).deferrals _ 40 _) (takeFirst epoch).2
    (decide ((takeFirst epoch).1 = _)) at hnext
  rwa [hd, decide_eq_true h] at hnext

theorem losesNone_of_firstProposal : ∃ l s, Core.Epochs (sampleConfig 0) l s true ∧ l ≠ [] ∧
    Core.LosesNone s l := by
  have h := epochs_takeFirst 1 (by decide +kernel) (by decide +kernel)
  exact ⟨_, _, h, List.cons_ne_nil _ _, (Core.losesNone_iff_ofNext h).1 (by decide)⟩

/-- A proposal that is two epochs ahead is dropped when the node enters the epoch before its. -/
theorem not_losesNone_two_epochs_ahead :
    ¬ ∀ (cfg : Config) (l : List Deferral) (s : Core) (alive : Bool),
      Core.Epochs cfg l s alive → Core.LosesNone s l := by
  intro h
  have hrun := epochs_takeFirst 2 (by decide +kernel) (by decide +kernel)
  have hl := ((h _ _ _ _ hrun) 2 (.HsPropose (firstProposal 2))).2
  revert hl
  decide +kernel

end Ipotane
