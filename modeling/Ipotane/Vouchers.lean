import Ipotane.Acceptance
import Ipotane.Outputs

/-! Where the values of an agreement come from: the nodes that have prepared them, and the fallback
chain that they stand on. -/
namespace Ipotane

open Lib Handler

section Vouchers

variable [Crypto]

namespace Core

variable {cfg : Config} {s t : Core} {e height : ℕ} {l : List (PublicKey × Signature)}
  {alive : Bool}

/-! ### The prepares of a height -/

/-- The list has a `PES` prepare of each of its nodes for the height, which the node has heard
in the epoch. -/
structure Lists (s : Core) (e height : ℕ) (l : List (PublicKey × Signature)) : Prop where
  nodup : (l.map Prod.fst).Nodup
  heard : ∀ x ∈ l, ∃ p, s.Heard e (.ParPrePare p) ∧ p.author = x.1 ∧
    p.signature = x.2 ∧ p.val = PES ∧
    p.epoch = e ∧ p.height = height

/-- An epoch starts with an empty list for the first height. -/
theorem getD_first : ((Map.empty : Map ℕ (List (PublicKey × Signature))).insert 1 []).getD
    height [] = [] := by
  rw [Map.getD_insert]
  split <;> rfl

theorem lists_nil : s.Lists e height [] := ⟨.nil, fun _ h => (nomatch h)⟩

theorem Lists.mono (h : s.Lists e height l) (ht : s.trace ⊆ t.trace) : t.Lists e height l := by
  refine ⟨h.nodup, fun x hx => ?_⟩
  obtain ⟨p, hp, hrest⟩ := h.heard x hx
  exact ⟨p, hp.mono ht, hrest⟩

theorem Lists.put {p : PrePare} (h : s.Lists s.epoch p.height l) (hp : s.Countable cfg p)
    (hv : p.val = PES) : s.Lists s.epoch p.height (put p.author p.signature l) := by
  refine ⟨nodup_put h.nodup, fun x hx => ?_⟩
  rcases mem_put.mp hx with rfl | ⟨hx, -⟩
  · exact ⟨p, hp.hears, rfl, rfl, hv, hp.epoch, rfl⟩
  · exact h.heard x hx

/-- A step leaves the `PES` prepares of a height alone, drops them, or adds one that
has been taken. -/
inductive Tallies (cfg : Config) (s t : Core) (height : ℕ) : Prop
  | keep (h : t.parPreparePess.getD height [] = s.parPreparePess.getD height [])
  | drop (h : t.parPreparePess.getD height [] = [])
  | put {p : PrePare} (hp : s.Countable cfg p) (hv : p.val = PES) (hh : p.height = height)
      (h : t.parPreparePess.getD height [] =
        Lib.put p.author p.signature (s.parPreparePess.getD height []))

theorem tallies_of_eq (h : t.parPreparePess = s.parPreparePess) : Tallies cfg s t height :=
  .keep (by rw [h])

theorem tallies_clean (reached k : ℕ) (site : Termination) :
    Tallies cfg s (s.cleanSmvbaState k reached site) height := by
  have hget : (s.cleanSmvbaState k reached site).parPreparePess.getD height [] =
      if decide (height > k) = true then s.parPreparePess.getD height [] else [] :=
        Map.getD_retain _
  by_cases hk : decide (height > k) = true
  · exact .keep (by rw [hget, if_pos hk])
  · exact .drop (by rw [hget, if_neg hk])

theorem adopt_pess (qc : QC) (height : ℕ) :
    (s.adopt qc).parPreparePess.getD height [] = s.parPreparePess.getD height [] ∨
      (s.adopt qc).parPreparePess.getD height [] = [] := by
  unfold adopt updateHighQc
  by_cases hlt : qc.height < s.height
  · rw [if_pos hlt]
    split <;> exact .inl rfl
  · rw [if_neg hlt]
    have hget : (s.enterHeight (qc.height + 1)).parPreparePess.getD height [] =
        if height = qc.height + 1 then [] else s.parPreparePess.getD height [] := Map.getD_insert
    split at hget
    · split <;> exact .inr hget
    · split <;> exact .inl hget

theorem OptStep.tallies (h : OptStep cfg s t) (height : ℕ) : Tallies cfg s t height := by
  have hadopt : ∀ {u : Core} (qc : QC), Tallies cfg s u height →
    Tallies cfg s (u.adopt qc) height := by
    intro u qc hu
    rcases adopt_pess (s := u) qc height with heq | heq
    · cases hu with
      | keep h => exact .keep (heq.trans h)
      | drop h => exact .drop (heq.trans h)
      | put hp hv hh h => exact .put hp hv hh (heq.trans h)
    · exact .drop heq
  have hclean : ∀ b, Tallies cfg s (s.cleanFor cfg b) height := by
    intro b
    unfold Core.cleanFor
    split
    · exact tallies_clean _ _ _
    · exact tallies_of_eq rfl
  cases h with
  | quiet h => exact .keep (h.parPreparePess height)
  | proposal _ _ => exact hadopt _ (hclean _)
  | overflow _ _ => exact hclean _
  | adopt _ _ _ _ _ => exact hadopt _ (tallies_of_eq rfl)
  | countVote _ _ _ _ _ => exact tallies_of_eq (collect_prepares _ _)
  | settle _ _ _ _ _ _ =>
    unfold Core.settle
    split <;> exact tallies_of_eq rfl
  | _ => exact tallies_of_eq rfl

theorem PesStep.tallies (h : PesStep cfg s t) (height : ℕ) : Tallies cfg s t height := by
  cases h with
  | terminate _ => exact tallies_clean _ _ _
  | countFallback _ => exact tallies_of_eq (collect_prepares _ _)
  | countSpb _ => exact tallies_of_eq (collect_prepares _ _)
  | countPre _ _ => exact tallies_of_eq (collect_prepares _ _)
  | @putPes p hp hv _ =>
    have hget : (s.putPes p).parPreparePess.getD height [] =
        if height = p.height then Lib.put p.author p.signature (s.parPreparePess.getD p.height [])
        else s.parPreparePess.getD height [] := Map.getD_insert
    by_cases hh : height = p.height
    · subst hh
      exact .put hp hv rfl (by rw [hget, if_pos rfl])
    · exact .keep (by rw [hget, if_neg hh])
  | _ => exact tallies_of_eq rfl

theorem Step.tallies (h : Step cfg s t) (height : ℕ) : Tallies cfg s t height := by
  cases h with
  | opt h => exact h.tallies height
  | pes _ h => exact h.tallies height

/-! ### What a node has on record -/

/-- A value that is not for `OPT` has the prepares that its maker has heard of. -/
def Grounds (cfg : Config) (s : Core) (e : ℕ) (v : SPBValue) : Prop :=
  v.val ≠ OPT → v.val = PES ∧ cfg.committee.quorumThreshold ≤ v.signatures.length ∧
    s.Lists e v.block.height v.signatures

/-- The entries about prepares, and the values that are made of these. -/
def Vows (cfg : Config) (s : Core) : ℕ × Event → Prop
  | (_, .sign (.prepare p)) => p.author = cfg.name
  | (_, .send (.ParPrePare p) _ _) | (_, .keep (.ParPrePare p)) =>
    p.author = cfg.name ∧ s.Ever (.sign (.prepare p))
  | (e, .propose v) => s.Grounds cfg e v
  | _ => True

theorem Grounds.mono {v : SPBValue} (h : s.Grounds cfg e v) (ht : s.trace ⊆ t.trace) :
    t.Grounds cfg e v :=
  fun hv => ⟨(h hv).1, (h hv).2.1, (h hv).2.2.mono ht⟩

theorem Vows.mono {x : ℕ × Event} (h : s.Vows cfg x) (ht : s.trace ⊆ t.trace) : t.Vows cfg x := by
  have hever : ∀ {y}, s.Ever y → t.Ever y := fun ⟨e, hy⟩ => ⟨e, ht hy⟩
  unfold Vows at *
  split at h
  · exact h
  · exact ⟨h.1, hever h.2⟩
  · exact ⟨h.1, hever h.2⟩
  · exact h.mono ht
  · trivial

/-- The lists of a node are of the epoch that it is in, and its record is in order. -/
structure Canvassed (cfg : Config) (s : Core) : Prop where
  kept : s.Kept
  lists : ∀ height, s.Lists s.epoch height (s.parPreparePess.getD height [])
  record : ∀ x ∈ s.trace, s.Vows cfg x

theorem Initial.grounds {v : SPBValue} (hs : s.Canvassed cfg) (h : s.Initial cfg v) :
    s.Grounds cfg s.epoch v := by
  intro hv
  cases h with
  | first _ hb _ _ _ =>
    obtain ⟨hpes, hsignatures, hlength⟩ := hb.resolve_left hv
    refine ⟨hpes, hlength, ?_⟩
    rw [hsignatures]
    exact hs.lists _
  | @next last _ _ hl hval hsignatures _ _ _ =>
    obtain ⟨hmade, hkey⟩ := hs.kept.proposes _ _ hl
    have hheight : v.block.height = last.block.height := congrArg Prod.fst hkey
    have hlast : s.Grounds cfg s.epoch last := hs.record _ hmade
    rw [hval] at hv ⊢
    rw [hsignatures, hheight]
    exact hlast hv

theorem Issues.vows {m : ConsensusMessage} (hs : s.Canvassed cfg) (h : s.Issues cfg m)
    (dest : Option PublicKey) (tag : ℕ) : s.Vows cfg (s.epoch, .send m dest tag) ∧
    s.Vows cfg (s.epoch, .keep m) := by
  cases m with
  | ParPrePare p =>
    have hsigned : s.Did (.sign (.prepare p)) := h
    have hname : p.author = cfg.name := hs.record _ hsigned
    exact ⟨⟨hname, hsigned.ever⟩, hname, hsigned.ever⟩
  | _ => exact ⟨trivial, trivial⟩

theorem PesLog.vows {y : Event} (hs : s.Canvassed cfg) (h : s.PesLog cfg y) :
    s.Vows cfg (s.epoch, y) := by
  unfold PesLog at h
  split at h
  case h_8 => exact (h.1.vows hs _ _).1
  case h_9 => exact (h.1.vows hs none 0).2
  all_goals trivial

theorem OptLog.vows {y : Event} (h : s.OptLog cfg y) : s.Vows cfg (s.epoch, y) := by
  unfold OptLog at h
  split at h
  all_goals trivial

theorem Records.vows {y : Event} (hs : s.Canvassed cfg) (h : Records cfg s t y) :
    s.Vows cfg (s.epoch, y) := by
  cases h with
  | opt h => exact h.vows
  | pes _ h => exact h.vows hs
  | prepare _ _ _ _ => rfl
  | propose _ hi _ _ _ _ => exact hi.grounds hs
  | _ => trivial

theorem Canvassed.step (hs : s.Canvassed cfg) (h : Step cfg s t) : t.Canvassed cfg := by
  have hsub := h.extends.trace.subset
  refine ⟨hs.kept.step h, fun height => ?_, ?_⟩
  · rw [h.extends.epoch]
    rcases h.tallies height with heq | heq | ⟨hp, hv, rfl, heq⟩
    · rw [heq]
      exact (hs.lists height).mono hsub
    · rw [heq]
      exact lists_nil
    · rw [heq]
      exact ((hs.lists _).put hp hv).mono hsub
  · rintro ⟨e, y⟩ hx
    rcases h.recorded hx with hx | ⟨he, hr⟩
    · exact (hs.record _ hx).mono hsub
    · simp only at he
      subst he
      exact (hr.vows hs).mono hsub

theorem Canvassed.new : Canvassed cfg .new := by
  refine ⟨.new, fun height => ?_, ?_⟩
  · have hempty : Core.new.parPreparePess.getD height [] = [] := getD_first
    rw [hempty]
    exact lists_nil
  · intro x hx
    cases List.mem_singleton.mp hx
    trivial

theorem Canvassed.take (hs : s.Canvassed cfg) (m : ConsensusMessage) :
    (s.log (.receive m)).Canvassed cfg := by
  have hsub : s.trace ⊆ (s.log (.receive m)).trace := List.subset_cons_self _ _
  refine ⟨hs.kept.take m, fun height => (hs.lists height).mono hsub, ?_⟩
  intro x hx
  rcases List.mem_cons.mp hx with rfl | hx
  · trivial
  · exact (hs.record x hx).mono hsub

theorem Canvassed.renewed (hs : s.Canvassed cfg) : s.renewed.Canvassed cfg := by
  obtain ⟨new, heq, hnew⟩ := renewed_grown s
  refine ⟨hs.kept.renewed, fun height => ?_, ?_⟩
  · have hempty : s.renewed.parPreparePess.getD height [] = [] := by
      obtain ⟨marks, rest, heq, -, -⟩ := renewed_eq s
      rw [heq]
      exact getD_first
    rw [hempty]
    exact lists_nil
  · intro x hx
    have hsub := (renewed_trace s).subset
    rw [heq] at hx
    rcases List.mem_append.mp hx with hx | hx
    · have hown := (hnew x hx).2
      obtain ⟨e, y⟩ := x
      cases y <;> first | trivial | exact absurd trivial hown
    · exact (hs.record x hx).mono hsub

theorem Reachable.canvassed (h : Reachable cfg s alive) : s.Canvassed cfg := by
  refine (h.invariant (C := fun _ => True) (fun _ _ _ h => h) Canvassed.new ?_ ?_).2 trivial
  · exact fun s m hs _ => hs.take m
  · intro s t _ hs _ ht
    cases ht with
    | step ht => exact hs.step ht
    | epoch _ ht => exact ht ▸ hs.renewed

end Core

/-! ### All nodes -/

variable {S : Setup} {w : World} {i k : PublicKey} {e : ℕ} {σ : Cores} {v : SPBValue} {p : PrePare}

/-- A value that is not for `OPT` has the signatures of a quorum of nodes that have prepared
`PES` for its height, and its block stands on the last certificate of a fallback chain that
its maker has. -/
def Vouched (S : Setup) (σ : Cores) (v : SPBValue) : Prop :=
  v.val ≠ OPT → v.val = PES ∧
    (S.committee.quorumThreshold ≤ v.signatures.length ∧ (v.signatures.map Prod.fst).Nodup ∧
      ∀ x ∈ v.signatures, ∃ p, (σ x.1).Ever (.sign (.prepare p)) ∧ p.signature = x.2 ∧ p.val = PES ∧
        p.epoch = v.block.epoch ∧ p.height = v.block.height) ∧
    (σ v.block.author).Ever (.assembledFallback v.block.qc) ∧ v.block.qc.height = v.block.height ∧
      v.block.qc.round = S.parameters.fallbackLength

namespace Setup.Runs

/-- A prepare that a node hears has been signed by its author. -/
theorem heard_prepare (h : S.Runs w) (hp : (w.core i).Heard e (.ParPrePare p)) :
    (w.core p.author).Ever (.sign (.prepare p)) := by
  have hsent : ∀ {j : PublicKey} {x : ℕ × Event}, x ∈ (w.core j).trace →
      (w.core j).Vows (S.config j) x := fun {j} {x} hx => (h.reachable j).canvassed.record x hx
  rcases hp with hp | ⟨tag, hp⟩ | hp
  · rcases ((h.invariant (inductive_delivered S)).2 trivial i).2 _ hp
      with hint | ⟨j, e', dest, tag, hsend, -⟩
    · exact hint.elim
    · obtain ⟨hname, hsigned⟩ : p.author = j ∧ (w.core j).Ever (.sign (.prepare p)) := hsent hsend
      rwa [hname]
  · obtain ⟨hname, hsigned⟩ : p.author = i ∧ (w.core i).Ever (.sign (.prepare p)) := hsent hp
    rwa [hname]
  · obtain ⟨hname, hsigned⟩ : p.author = i ∧ (w.core i).Ever (.sign (.prepare p)) := hsent hp
    rwa [hname]

theorem proposed_vouched (h : S.Runs w) (hv : (e, .propose v) ∈ (w.core k).trace) :
    Vouched S w.core v := by
  intro hval
  obtain ⟨hauthor, hepoch, hstands⟩ := (h.reachable k).harvest.inputs e v hv
  obtain ⟨hmade, hheight, hround⟩ := hstands hval
  have hgrounds : (w.core k).Grounds (S.config k) e v := (h.reachable k).canvassed.record _ hv
  obtain ⟨hpes, hlength, hlists⟩ := hgrounds hval
  have hname : v.block.author = k := hauthor
  refine ⟨hpes, ⟨hlength, hlists.nodup, fun x hx => ?_⟩, ?_, hheight, hround⟩
  · obtain ⟨p, hp, hpauthor, hsignature, hpval, hpepoch, hpheight⟩ := hlists.heard x hx
    refine ⟨p, ?_, hsignature, hpval, hpepoch.trans hepoch.symm, hpheight⟩
    rw [← hpauthor]
    exact h.heard_prepare hp
  · rw [hname]
    exact ⟨e, hmade⟩

theorem promoted_vouched (h : S.Runs w) {n : ℕ} {q : SPBProof}
    (hp : (w.core k).Promotes (S.config k) e n v q) : Vouched S w.core v := by
  obtain ⟨u, hu, rfl, -, -⟩ := hp.proposed
  -- the value differs from the proposed one in its phase only
  have hvouched := h.proposed_vouched hu
  exact hvouched

theorem secured_vouched (h : S.Runs w) (hv : Secured w.core v) : Vouched S w.core v := by
  obtain ⟨k, e, q, hl | hf⟩ := hv
  · obtain ⟨hphase, -, hheard⟩ := (h.reachable k).staged.record _ hl
    obtain ⟨j, e', htold⟩ := h.heard_told (.SPBPropose v q) id hheard
    rcases htold with ⟨hinit, -⟩ | hp
    · rw [hphase] at hinit
      cases hinit
    · exact h.promoted_vouched hp
  · have hheard : (w.core k).Heard e (.SPBFinsh v q) := (h.reachable k).staged.record _ hf
    obtain ⟨j, e', htold⟩ := h.heard_told (.SPBFinsh v q) id hheard
    exact h.promoted_vouched htold

/-- Whatever value is proposed, locked or finished in an agreement, or halted on, is for `OPT` or
a quorum has prepared it and a fallback chain is below it. -/
theorem values_vouched (h : S.Runs w) :
    (∀ k v, (w.core k).Ever (.propose v) → Vouched S w.core v) ∧
      (∀ k v q, (w.core k).Ever (.lock v q) ∨ (w.core k).Ever (.finish v q) → Vouched S w.core v) ∧
        ∀ k m, (w.core k).Ever (.halted m) → Vouched S w.core m.value := by
  refine ⟨fun k v ⟨e, hv⟩ => h.proposed_vouched hv, ?_, ?_⟩
  · rintro k v q (⟨e, hl⟩ | ⟨e, hf⟩)
    · exact h.secured_vouched ⟨k, e, q, .inl hl⟩
    · exact h.secured_vouched ⟨k, e, q, .inr hf⟩
  · rintro k m ⟨e, hm⟩
    have hseals : (w.core k).Seals (Secured w.core) :=
      ((h.invariant (inductive_seals S (Secured w.core))).2 (fun j e v q hv => ⟨j, e, q, hv⟩) k).2
    exact h.secured_vouched (hseals _ hm m.value (List.mem_singleton.mpr rfl))

end Setup.Runs

end Vouchers

/-- A node makes a value of the prepares of three nodes. -/
theorem values_vouched_toChains : ∃ w v, chainSetup.Runs w ∧
    (w.core 0).Ever (.propose v) ∧ v.val = PES ∧
    3 ≤ v.signatures.length ∧ ∀ x ∈ v.signatures, ∃ p, (w.core x.1).Ever (.sign (.prepare p)) ∧
      p.val = PES := by
  obtain ⟨w, hr, hp⟩ := exists_play chainSetup toChains
    (fun w => ((w.core 0).trace.any fun x => x.2.values.any fun v => v.val = PES ∧
      x.2 = .propose v) = true)
    (by decide +kernel) (by decide +kernel)
  obtain ⟨⟨e, y⟩, hx, hy⟩ := List.any_eq_true.mp hp
  obtain ⟨v, -, hv⟩ := List.any_eq_true.mp hy
  obtain ⟨hval, heq⟩ := of_decide_eq_true hv
  cases heq
  have hne : v.val ≠ OPT := by
    rw [hval]
    decide
  obtain ⟨-, ⟨hlength, -, hsigned⟩, -⟩ := hr.values_vouched.1 0 v ⟨e, hx⟩ hne
  refine ⟨w, v, hr, ⟨e, hx⟩, hval, hlength, fun x hx => ?_⟩
  obtain ⟨p, hp, -, hval, -⟩ := hsigned x hx
  exact ⟨p, hp, hval⟩

end Ipotane
