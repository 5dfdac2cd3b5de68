import Ipotane.Lib.History
import Ipotane.Provenance
import Ipotane.Tallies

/-! The fallback chain of a node: one block for each round of a height, and what a value of the
agreement stands on. -/
namespace Ipotane

open Lib Handler

section Branches

variable [Crypto]

def SameBranch (b c : Block) : Prop := b.epoch = c.epoch ∧ b.height = c.height ∧ b.round = c.round

instance (b c : Block) : Decidable (SameBranch b c) :=
  inferInstanceAs (Decidable (b.epoch = c.epoch ∧ b.height = c.height ∧ b.round = c.round))

namespace Core

variable {cfg : Config} {s t : Core} {b : Block}

def sentBranch : ℕ × Event → Option Block
  | (_, .send (.FBPropose b) _ _) => some b
  | _ => none

/-- The blocks that a node has broadcast for its fallback chains, the newest first. -/
def branches (s : Core) : List Block := s.trace.filterMap sentBranch

/-- No two of them are of one epoch, height and round. -/
def BranchesOnce (s : Core) : Prop := s.branches.Pairwise fun b c => ¬ SameBranch b c

def shoot (e height : ℕ) : ℕ × Event → Option Block
  | (e', .sign (.block b)) => if e' = e ∧ b.tag = PES ∧ b.height = height then some b else none
  | _ => none

/-- The blocks that a node has signed for the pessimistic path of a height. -/
def shoots (s : Core) (height : ℕ) : List Block := s.trace.filterMap (shoot s.epoch height)

/-- A block of a chain is broadcast right after it is signed. -/
def Announced (x : ℕ × Event) (past : List (ℕ × Event)) : Prop :=
  ∀ b, sentBranch x = some b → b.tag = PES ∧ ∃ e, past.head? = some (e, .sign (.block b))

/-- The block goes on from a certificate that was completed before. -/
def Sprung (e : ℕ) (b : Block) (past : List (ℕ × Event)) : Prop :=
  (e, .assembledFallback b.qc) ∈ past ∧ b.height = b.qc.height ∧ b.round = b.qc.round + 1

/-- A step takes no flag back, and puts only what is on record among the certificates. -/
structure Steadies (s t : Core) : Prop where
  smvbaIsInvoke : ∀ k, s.smvbaIsInvoke.getD k false = true → t.smvbaIsInvoke.getD k false = true
  fallbackIsInvoke : ∀ k, s.fallbackIsInvoke.contains k = true →
    t.fallbackIsInvoke.contains k = true
  fallbackHighQc : ∀ key q, t.fallbackHighQc.getD key none = some q →
    s.fallbackHighQc.getD key none = some q ∨
      (s.Did (.assembledFallback q) ∧ key = (q.height, q.round))

theorem Steadies.refl (s : Core) : Steadies s s :=
  ⟨fun _ h => h, fun _ h => h, fun _ _ h => .inl h⟩

theorem steadies_of_eq (hi : t.smvbaIsInvoke = s.smvbaIsInvoke)
    (hf : t.fallbackIsInvoke = s.fallbackIsInvoke) (hq : t.fallbackHighQc = s.fallbackHighQc) :
    Steadies s t := by
  constructor
  · exact fun k h => hi ▸ h
  · exact fun k h => hf ▸ h
  · exact fun key q h => .inl (hq ▸ h)

theorem steadies_clean (height reached : ℕ) (site : Termination) :
    Steadies s (s.cleanSmvbaState height reached site) := by
  refine ⟨fun _ h => h, fun _ h => h, ?_⟩
  intro key q h
  unfold cleanSmvbaState at h
  rw [Map.getD_retain] at h
  split at h
  · exact .inl h
  · cases h

theorem steadies_cleanFor (b : Block) : Steadies s (s.cleanFor cfg b) := by
  unfold cleanFor
  split
  · exact steadies_clean _ _ _
  · exact .refl s

theorem steadies_adopt (hs : Steadies s t) (qc : QC) : Steadies s (t.adopt qc) := by
  unfold adopt updateHighQc
  split <;> split <;> exact ⟨hs.smvbaIsInvoke, hs.fallbackIsInvoke, hs.fallbackHighQc⟩

theorem steadies_collect {α : Type} (add : Aggregator → Appended α Aggregator) (mark : α → Event) :
    Steadies s (collect add mark s).2 := by
  unfold collect
  split <;> exact steadies_of_eq rfl rfl rfl

theorem OptStep.steadies (h : OptStep cfg s t) : Steadies s t := by
  cases h with
  | quiet h =>
    refine ⟨h.smvbaIsInvoke, fun k hk => h.fallbackIsInvoke ▸ hk, fun key q hq => .inl ?_⟩
    rwa [h.fallbackHighQc] at hq
  | proposal _ _ => exact steadies_adopt (steadies_cleanFor _) _
  | overflow _ _ => exact steadies_cleanFor _
  | adopt _ _ _ _ _ => exact steadies_adopt (.refl s) _
  | countVote _ _ _ _ _ => exact steadies_collect _ _
  | settle _ _ _ _ _ _ =>
    unfold Core.settle
    split <;> exact steadies_of_eq rfl rfl rfl
  | _ => exact steadies_of_eq rfl rfl rfl

theorem PesStep.steadies (h : PesStep cfg s t) : Steadies s t := by
  cases h with
  | terminate _ => exact steadies_clean _ _ _
  | countFallback _ => exact steadies_collect _ _
  | countSpb _ => exact steadies_collect _ _
  | countPre _ _ => exact steadies_collect _ _
  | fork _ _ _ _ =>
    refine ⟨fun _ h => h, fun k hk => ?_, fun _ _ h => .inl h⟩
    unfold Core.fork Map.contains
    rw [Map.get_insert]
    split
    · rfl
    · exact hk
  | @extend qc h =>
    refine ⟨fun _ h => h, fun _ h => h, fun key q hq => ?_⟩
    unfold Core.extend at hq
    rw [Map.getD_insert] at hq
    split at hq
    · rename_i hkey
      cases hq
      exact .inr ⟨h, hkey⟩
    · exact .inl hq
  | _ => exact steadies_of_eq rfl rfl rfl

theorem Step.steadies (h : Step cfg s t) : Steadies s t := by
  cases h with
  | opt h => exact h.steadies
  | pes _ h => exact h.steadies

/-- What is not invoked after a step was not invoked before. -/
theorem Step.uninvoked (h : Step cfg s t) {height : ℕ}
    (ht : t.smvbaIsInvoke.getD height false = false) :
    s.smvbaIsInvoke.getD height false = false := by
  by_contra hne
  rw [h.steadies.smvbaIsInvoke height (Bool.eq_true_of_not_eq_false hne)] at ht
  cases ht

/-! ### The blocks of one height -/

theorem shoot_eq {e height : ℕ} {x : ℕ × Event} (h : shoot e height x = some b) :
    x = (e, .sign (.block b)) ∧ b.tag = PES ∧ b.height = height := by
  unfold shoot at h
  split at h
  · split at h
    · rename_i hkey
      cases h
      exact ⟨by rw [← hkey.1], hkey.2⟩
    · cases h
  · cases h

theorem mem_shoots {height : ℕ} :
    b ∈ s.shoots height ↔ s.Did (.sign (.block b)) ∧ b.tag = PES ∧ b.height = height := by
  constructor
  · intro h
    obtain ⟨x, hx, hb⟩ := List.mem_filterMap.mp h
    obtain ⟨rfl, hkey⟩ := shoot_eq hb
    exact ⟨hx, hkey⟩
  · rintro ⟨hx, htag, hh⟩
    refine List.mem_filterMap.mpr ⟨_, hx, ?_⟩
    exact if_pos ⟨rfl, htag, hh⟩

theorem sentBranch_eq {x : ℕ × Event} (h : sentBranch x = some b) :
    ∃ dest tag, x.2 = .send (.FBPropose b) dest tag := by
  unfold sentBranch at h
  split at h
  · cases h
    exact ⟨_, _, rfl⟩
  · cases h

theorem mem_branches : b ∈ s.branches ↔
    ∃ e dest tag, (e, .send (.FBPropose b) dest tag) ∈ s.trace := by
  constructor
  · intro h
    obtain ⟨⟨e, y⟩, hx, hb⟩ := List.mem_filterMap.mp h
    obtain ⟨dest, tag, rfl⟩ := sentBranch_eq hb
    exact ⟨e, dest, tag, hx⟩
  · rintro ⟨e, dest, tag, hx⟩
    exact List.mem_filterMap.mpr ⟨_, hx, rfl⟩

/-- The certificates that chains go on from are of rounds that there are. -/
def Ranked (x : ℕ × Event) : Prop := ∀ q, x.2 = .assembledFallback q → 0 < q.round

/-- A value has been proposed only where the agreement has been invoked. -/
def Invoked (s : Core) : Prop :=
  ∀ key v, s.spbProposes.get key = some v → s.smvbaIsInvoke.getD v.block.height false = true

structure Branching (s : Core) : Prop where
  invoked : s.Invoked
  announced : Along Announced s.trace
  own : ∀ e b, (e, .sign (.block b)) ∈ s.trace → b.tag = PES → b.epoch = e
  rooted : ∀ b, b ∈ s.shoots b.height → s.smvbaIsInvoke.getD b.height false = false →
    (b.round = 1 ∧ s.fallbackIsInvoke.contains b.height = true) ∨
      ∃ past, (s.epoch, .sign (.block b)) :: past <:+ s.trace ∧ Sprung s.epoch b past
  distinct : ∀ height, s.smvbaIsInvoke.getD height false = false →
    (s.shoots height).Pairwise fun b c => b.round ≠ c.round
  once : s.BranchesOnce
  grown : ∀ e b dest tag, (e, .send (.FBPropose b) dest tag) ∈ s.trace →
    b.epoch = e ∧ (b.round = 1 ∨ Sprung e b s.trace)

theorem Sprung.mono {e : ℕ} {l l' : List (ℕ × Event)} (h : Sprung e b l) (hl : l ⊆ l') :
    Sprung e b l' :=
  ⟨hl h.1, h.2⟩

/-- Where the blocks of the pessimistic path come from. -/
theorem Records.shoot_inv (h : Records cfg s t (.sign (.block b))) (htag : b.tag = PES) :
    b.epoch = s.epoch ∧ ((t = s.log (.sign (.block b)) ∧ s.Continues cfg b) ∨
      (t = s.fork b ∧ b.round = 1 ∧ s.fallbackIsInvoke.contains b.height = false)) := by
  cases h with
  | opt h =>
    obtain ⟨payload, rfl⟩ := h
    exact absurd htag (show OPT ≠ PES by decide)
  | pes _ h ht => exact ⟨h.1.epoch, .inl ⟨ht, h.2⟩⟩
  | fork _ h _ hr hn ht => exact ⟨h.epoch, .inr ⟨ht, hr, hn⟩⟩

theorem Records.branch_inv {dest : Option PublicKey} {tag : ℕ}
    (h : Records cfg s t (.send (.FBPropose b) dest tag)) :
    b.tag = PES ∧ s.smvbaIsInvoke.getD b.height false = false ∧
      s.trace.head? = some (s.epoch, .sign (.block b)) ∧
      t = s.log (.send (.FBPropose b) dest tag) := by
  cases h with
  | opt h => exact h.elim
  | pes _ h ht =>
    obtain ⟨⟨-, htag, -, hn, hhead⟩, -⟩ := h
    exact ⟨htag, hn, hhead, ht⟩

theorem Records.branch_form {dest : Option PublicKey} {tag : ℕ}
    (h : Records cfg s t (.send (.FBPropose b) dest tag)) : 0 < b.round ∧ dest = none ∧
    tag = PES := by
  cases h with
  | opt h => exact h.elim
  | pes _ h => exact ⟨h.1.2.2.1, h.2.2, h.2.1⟩

/-- A value is proposed where the agreement has been invoked. -/
theorem Invoked.initial (hs : s.Invoked) (hk : s.Kept) {v : SPBValue} (h : s.Initial cfg v) :
    s.smvbaIsInvoke.getD v.block.height false = true := by
  cases h with
  | first hi _ _ _ _ => exact hi
  | @next last _ _ hl _ _ _ _ _ =>
    have hh := congrArg Prod.fst (hk.proposes _ _ hl).2
    have hinvoked := hs _ _ hl
    simp only at hh
    rwa [← hh] at hinvoked

theorem Invoked.step (hs : s.Invoked) (hk : s.Kept) (h : Step cfg s t) : t.Invoked := by
  intro key v hv
  refine h.steadies.smvbaIsInvoke _ ?_
  rcases h.fills with hf | hf
  · exact hs key v (hf.proposes key v hv)
  · cases hf with
    | @propose w hi _ _ _ =>
      have hget : (if key = (w.block.height, w.round) then some w
        else s.spbProposes.get key) = some v := hv
      split at hget
      · cases hget
        exact hs.initial hk hi
      · exact hs key v hget
    | _ => exact hs key v hv

theorem Invoked.new : Invoked .new := fun _ _ h => nomatch h

theorem Invoked.renewed : s.renewed.Invoked := by
  obtain ⟨marks, rest, heq, -, -⟩ := renewed_eq s
  rw [heq]
  exact fun key v hv => (nomatch hv)

/-- While the agreement has not been invoked, a new block starts a chain, or goes on from the
certificate that has just been completed. -/
theorem Invoked.springs (hs : s.Invoked) (hk : s.Kept)
    (hn : s.smvbaIsInvoke.getD b.height false = false) (h : s.Continues cfg b) :
    s.trace.head? = some (s.epoch, .assembledFallback b.qc) ∧ b.height = b.qc.height ∧
      b.round = b.qc.round + 1 ∧ b.qc.proposer = cfg.name := by
  cases h with
  | next h hh hr _ hp => exact ⟨h, hh, hr, hp⟩
  | input hi _ _ =>
    rw [hi] at hn
    cases hn
  | @again last hl _ _ _ =>
    have hh := congrArg Prod.fst (hk.proposes _ _ hl).2
    have hinvoked := hs _ _ hl
    simp only at hh
    rw [← hh, hn] at hinvoked
    cases hinvoked

theorem Branching.rooted_step (hs : s.Branching) (hk : s.Kept) (h : Step cfg s t)
    (hb : b ∈ t.shoots b.height) (hn : t.smvbaIsInvoke.getD b.height false = false) :
    (b.round = 1 ∧ t.fallbackIsInvoke.contains b.height = true) ∨
      ∃ past, (t.epoch, .sign (.block b)) :: past <:+ t.trace ∧ Sprung t.epoch b past := by
  have hext := h.extends
  have hn' := h.uninvoked hn
  obtain ⟨hdid, htag, -⟩ := mem_shoots.mp hb
  rw [hext.epoch]
  unfold Did at hdid
  rw [hext.epoch] at hdid
  rcases h.recorded hdid with hold | ⟨-, hr⟩
  · rcases hs.rooted b (mem_shoots.mpr ⟨hold, htag, rfl⟩) hn' with ⟨hr, hf⟩ | ⟨past, hpast, hsprung⟩
    · exact .inl ⟨hr, h.steadies.fallbackIsInvoke _ hf⟩
    · exact .inr ⟨past, hpast.trans hext.trace, hsprung⟩
  · obtain ⟨-, ⟨rfl, hc⟩ | ⟨rfl, hr, -⟩⟩ := hr.shoot_inv htag
    · obtain ⟨hhead, hh, hr, -⟩ := hs.invoked.springs hk hn' hc
      exact .inr ⟨s.trace, List.suffix_rfl, List.mem_of_mem_head? hhead, hh, hr⟩
    · refine .inl ⟨hr, ?_⟩
      unfold fork Map.contains
      rw [Map.get_insert, if_pos rfl]
      rfl

/-- A new block is of a round that has no block yet. -/
theorem Branching.fresh (hs : s.Branching) (hk : s.Kept) {c : Committee} (hp : s.Polled c)
    (hc : ∀ x ∈ s.trace, Ranked x) (hn : s.smvbaIsInvoke.getD b.height false = false)
    (h : s.Continues cfg b ∨ (b.round = 1 ∧
      s.fallbackIsInvoke.contains b.height = false)) {d : Block}
    (hd : d ∈ s.shoots b.height) : b.round ≠ d.round := by
  intro heq
  have hdh := (mem_shoots.mp hd).2.2
  rw [← hdh] at hd hn
  have hroot := hs.rooted d hd hn
  have hpos : ∀ {q : QC}, (s.epoch, .assembledFallback q) ∈ s.trace → 0 < q.round :=
    fun hq => hc _ hq _ rfl
  rcases h with h | ⟨hr, hf⟩
  · rw [hdh] at hn
    obtain ⟨hhead, hh, hr, -⟩ := hs.invoked.springs hk hn h
    have hq := hpos (List.mem_of_mem_head? hhead)
    rcases hroot with ⟨hr', -⟩ | ⟨past, hpast, hq', hh', hr'⟩
    · omega
    · -- the certificate of `d` is there a second time
      obtain ⟨rest, htr⟩ := List.head?_eq_some_iff.mp hhead
      rw [htr] at hpast
      have hpast' : (s.epoch, .sign (.block d)) :: past <:+ rest := by
        rcases List.suffix_cons_iff.mp hpast with hpast | hpast
        · cases hpast
        · exact hpast
      have honce := hp.once s.epoch b.height b.qc.round
      have hcount : s.certified s.epoch b.height b.qc.round =
          b.qc :: rest.filterMap (completed s.epoch b.height b.qc.round) := by
        unfold certified
        rw [htr]
        exact List.filterMap_cons_some (if_pos ⟨rfl, hh.symm, rfl⟩)
      have hmem : d.qc ∈ rest.filterMap (completed s.epoch b.height b.qc.round) := by
        refine List.mem_filterMap.mpr ⟨_, hpast'.subset (List.mem_cons_of_mem _ hq'), ?_⟩
        exact if_pos ⟨rfl, by omega, by omega⟩
      rw [hcount, List.length_cons] at honce
      have := List.length_pos_of_mem hmem
      omega
  · rcases hroot with ⟨-, hf'⟩ | ⟨past, hpast, hq', -, hr'⟩
    · rw [hdh, hf] at hf'
      cases hf'
    · have := hpos (hpast.subset (List.mem_cons_of_mem _ hq'))
      omega

theorem shoots_append {new : List (ℕ × Event)} (h : t.trace = new ++ s.trace)
    (he : t.epoch = s.epoch)
    (height : ℕ) : t.shoots height = new.filterMap (shoot s.epoch height) ++ s.shoots height := by
  unfold shoots
  rw [h, he, List.filterMap_append]

theorem Branching.distinct_step (hs : s.Branching) (hk : s.Kept) {c : Committee} (hp : s.Polled c)
    (hc : ∀ x ∈ s.trace, Ranked x) (h : Step cfg s t) {height : ℕ}
    (hn : t.smvbaIsInvoke.getD height false = false) :
    (t.shoots height).Pairwise fun b c => b.round ≠ c.round := by
  obtain ⟨new, heq, hnew⟩ := h.grown
  have hn' := h.uninvoked hn
  by_cases hsign : ∃ x ∈ new, ∃ b, shoot s.epoch height x = some b
  · obtain ⟨x, hx, b, hb⟩ := hsign
    obtain ⟨rfl, htag, rfl⟩ := shoot_eq hb
    have hcons : t.shoots b.height =
      b :: s.shoots b.height → (t.shoots b.height).Pairwise fun b c =>
        b.round ≠ c.round := by
      intro hlist
      rw [hlist]
      refine List.pairwise_cons.mpr ⟨fun d hd => ?_, hs.distinct _ hn'⟩
      have hsource : s.Continues cfg b ∨
          (b.round = 1 ∧ s.fallbackIsInvoke.contains b.height = false) := by
        rcases ((hnew _ hx).2.shoot_inv htag).2 with ⟨-, h⟩ | ⟨-, h⟩
        · exact .inl h
        · exact .inr h
      exact hs.fresh hk hp hc hn' hsource hd
    have hkey : shoot s.epoch b.height (s.epoch, .sign (.block b)) = some b :=
      if_pos ⟨rfl, htag, rfl⟩
    refine hcons ?_
    rcases ((hnew _ hx).2.shoot_inv htag).2 with ⟨rfl, -⟩ | ⟨rfl, -⟩
    · exact List.filterMap_cons_some hkey
    · exact List.filterMap_cons_some hkey
  · rw [shoots_append heq h.extends.epoch, List.filterMap_eq_nil_iff.mpr, List.nil_append]
    · exact hs.distinct height hn'
    · intro x hx
      by_contra hne
      obtain ⟨b, hb⟩ := Option.ne_none_iff_exists'.mp hne
      exact hsign ⟨x, hx, b, hb⟩

/-! ### Broadcasts -/

/-- A step broadcasts no block for a chain, or one that it finds just signed. -/
theorem Step.branch_cases (h : Step cfg s t) :
    (∃ new, t.trace = new ++ s.trace ∧ ∀ x ∈ new, sentBranch x = none) ∨
    ∃ b dest tag, b.tag = PES ∧ s.smvbaIsInvoke.getD b.height false = false ∧
      s.trace.head? = some (s.epoch, .sign (.block b)) ∧
      t = s.log (.send (.FBPropose b) dest tag) := by
  obtain ⟨new, heq, hnew⟩ := h.grown
  by_cases hsent : ∃ x ∈ new, ∃ b, sentBranch x = some b
  · obtain ⟨⟨e, y⟩, hx, b, hb⟩ := hsent
    obtain ⟨dest, tag, hy⟩ := sentBranch_eq hb
    cases hy
    exact .inr ⟨b, dest, tag, (hnew _ hx).2.branch_inv⟩
  · refine .inl ⟨new, heq, fun x hx => ?_⟩
    by_contra hne
    obtain ⟨b, hb⟩ := Option.ne_none_iff_exists'.mp hne
    exact hsent ⟨x, hx, b, hb⟩

/-- What was broadcast before the newest entry, a signature, had been signed before it. -/
theorem Branching.signed_before (hs : s.Branching) {d : Block} {rest : List (ℕ × Event)}
    (htr : s.trace = (s.epoch, .sign (.block b)) :: rest) (hd : d ∈ s.branches) :
    d.tag = PES ∧ (d.epoch, .sign (.block d)) ∈ rest := by
  obtain ⟨e, dest, tag, hx⟩ := mem_branches.mp hd
  rw [htr] at hx
  have hann := hs.announced
  rw [htr] at hann
  rcases List.mem_cons.mp hx with hx | hx
  · cases hx
  obtain ⟨past, hpast, hfollow⟩ := Along.of_mem hann.2 hx
  obtain ⟨htag, e', hhead⟩ := hfollow d rfl
  have hmem : (e', .sign (.block d)) ∈ rest :=
    hpast.subset (List.mem_cons_of_mem _ (List.mem_of_mem_head? hhead))
  refine ⟨htag, ?_⟩
  rwa [hs.own e' d (htr ▸ List.mem_cons_of_mem _ hmem) htag]

theorem Branching.once_step (hs : s.Branching) (h : Step cfg s t) : t.BranchesOnce := by
  rcases h.branch_cases with ⟨new, heq, hnone⟩ | ⟨b, dest, tag, htag, hn, hhead, rfl⟩
  · unfold BranchesOnce branches
    rw [heq, List.filterMap_append, List.filterMap_eq_nil_iff.mpr hnone, List.nil_append]
    exact hs.once
  · refine List.pairwise_cons.mpr ⟨?_, hs.once⟩
    rintro d hd ⟨he, hh, hr⟩
    obtain ⟨rest, htr⟩ := List.head?_eq_some_iff.mp hhead
    obtain ⟨hdtag, hsigned⟩ := hs.signed_before htr hd
    have hepoch := hs.own s.epoch b (htr ▸ List.mem_cons_self) htag
    have hlist : s.shoots b.height = b :: rest.filterMap (shoot s.epoch b.height) := by
      unfold shoots
      rw [htr]
      exact List.filterMap_cons_some (if_pos ⟨rfl, htag, rfl⟩)
    have hdistinct := hs.distinct b.height hn
    rw [hlist, List.pairwise_cons] at hdistinct
    refine hdistinct.1 d (List.mem_filterMap.mpr ⟨_, hsigned, ?_⟩) hr
    exact if_pos ⟨he.symm.trans hepoch, hdtag, hh.symm⟩

theorem Branching.grown_step (hs : s.Branching) (h : Step cfg s t) {e : ℕ} {dest : Option PublicKey}
    {tag : ℕ} (hb : (e, .send (.FBPropose b) dest tag) ∈ t.trace) :
    b.epoch = e ∧ (b.round = 1 ∨ Sprung e b t.trace) := by
  rcases h.recorded hb with hold | ⟨he, hr⟩
  · obtain ⟨he, hb⟩ := hs.grown e b dest tag hold
    exact ⟨he, hb.imp_right fun h' => h'.mono h.extends.trace.subset⟩
  · simp only at he
    subst he
    obtain ⟨htag, hn, hhead, -⟩ := hr.branch_inv
    have hmem := List.mem_of_mem_head? hhead
    refine ⟨hs.own _ b hmem htag, ?_⟩
    rcases hs.rooted b (mem_shoots.mpr ⟨hmem, htag, rfl⟩) hn with ⟨hr, -⟩ | ⟨past, hpast, hsprung⟩
    · exact .inl hr
    · refine .inr (hsprung.mono fun x hx => h.extends.trace.subset (hpast.subset ?_))
      exact List.mem_cons_of_mem _ hx

theorem Branching.step (hs : s.Branching) (hk : s.Kept) {c : Committee} (hp : s.Polled c)
    (hc : ∀ x ∈ s.trace, Ranked x) (h : Step cfg s t) : t.Branching where
  invoked := hs.invoked.step hk h
  announced := by
    rcases h.branch_cases with ⟨new, heq, hnone⟩ | ⟨b, dest, tag, htag, -, hhead, rfl⟩
    · rw [heq]
      refine hs.announced.append fun x hx past _ b hb => ?_
      rw [hnone x hx] at hb
      cases hb
    · refine ⟨?_, hs.announced⟩
      intro d hd
      cases hd
      exact ⟨htag, _, hhead⟩
  own := by
    intro e b hb htag
    rcases h.recorded hb with hb | ⟨he, hr⟩
    · exact hs.own e b hb htag
    · exact (hr.shoot_inv htag).1.trans he.symm
  rooted := fun _ hb hn => hs.rooted_step hk h hb hn
  distinct := fun _ hn => hs.distinct_step hk hp hc h hn
  once := hs.once_step h
  grown := fun _ _ _ _ hb => hs.grown_step h hb

theorem Branching.new : Branching .new := by
  constructor
  · exact .new
  · exact ⟨fun b hb => (nomatch hb), trivial⟩
  · exact fun e b hb => (not_own_of_new hb trivial).elim
  · exact fun b hb => (not_own_of_new (mem_shoots.mp hb).1 trivial).elim
  · exact fun height _ => List.Pairwise.nil
  · exact List.Pairwise.nil
  · exact fun e b dest tag hb => (not_own_of_new hb trivial).elim

theorem Branching.take (hs : s.Branching) (m : ConsensusMessage) :
    (s.log (.receive m)).Branching where
  invoked := hs.invoked
  announced := ⟨fun b hb => (nomatch hb), hs.announced⟩
  own := fun e b hb => hs.own e b (mem_take hb trivial)
  rooted := by
    intro b hb hn
    rcases hs.rooted b hb hn with h | ⟨past, hpast, hsprung⟩
    · exact .inl h
    · exact .inr ⟨past, hpast.trans (List.suffix_cons _ _), hsprung⟩
  distinct := hs.distinct
  once := hs.once
  grown := by
    intro e b dest tag hb
    obtain ⟨he, hb⟩ := hs.grown e b dest tag (mem_take hb trivial)
    exact ⟨he, hb.imp_right fun h => h.mono (List.subset_cons_self _ _)⟩

/-- A new epoch begins with no chain. -/
theorem Branching.renewed (hs : s.Branching) (ht : s.Timely) : s.renewed.Branching := by
  obtain ⟨new, htr, hnew⟩ := renewed_grown s
  have hshoots : ∀ height, s.renewed.shoots height = [] := by
    intro height
    refine List.eq_nil_iff_forall_not_mem.mpr fun b hb => ?_
    exact ht.not_renewed_did (mem_shoots.mp hb).1 trivial
  have hnone : ∀ x ∈ new, sentBranch x = none := by
    rintro ⟨e, y⟩ hx
    by_contra hne
    obtain ⟨b, hb⟩ := Option.ne_none_iff_exists'.mp hne
    obtain ⟨dest, tag, hy⟩ := sentBranch_eq hb
    cases hy
    exact (hnew _ hx).2 trivial
  constructor
  · exact .renewed
  · rw [htr]
    refine hs.announced.append fun x hx past _ b hb => ?_
    rw [hnone x hx] at hb
    cases hb
  · exact fun e b hb => hs.own e b (mem_renewed hb trivial)
  · intro b hb
    rw [hshoots] at hb
    cases hb
  · intro height _
    rw [hshoots]
    exact List.Pairwise.nil
  · unfold BranchesOnce branches
    rw [htr, List.filterMap_append, List.filterMap_eq_nil_iff.mpr hnone, List.nil_append]
    exact hs.once
  · intro e b dest tag hb
    obtain ⟨he, hb⟩ := hs.grown e b dest tag (mem_renewed hb trivial)
    exact ⟨he, hb.imp_right fun h => h.mono (renewed_trace s).subset⟩

theorem Reachable.branching {alive : Bool} (h : Reachable cfg s alive)
    (hn : cfg.committee.total % 3 = 1) (hc : ∀ x ∈ s.trace, Ranked x) : s.Branching := by
  refine ((h.invariant (P := fun s => s.Kept ∧ s.Polled cfg.committee ∧ s.Branching)
    (C := fun l => ∀ x ∈ l, Ranked x) ?_ ⟨.new, .new, .new⟩ ?_ ?_).2 hc).2.2
  · exact fun l l' hl hc x hx => hc x (hl.subset hx)
  · exact fun s m hs _ => ⟨hs.1.take m, hs.2.1.take m, hs.2.2.take m⟩
  · rintro s t _ ⟨hk, hp, hs⟩ hc ht
    have hcs : ∀ x ∈ s.trace, Ranked x := fun x hx => hc x (ht.trace.subset hx)
    cases ht with
    | step ht => exact ⟨hk.step ht, hp.step hn ht, hs.step hk hp hcs ht⟩
    | epoch _ ht => exact ht ▸ ⟨hk.renewed, hp.renewed, hs.renewed hp.timely⟩

/-! ### The input of the agreement -/

/-- A value that is not for `OPT` stands on the last certificate of a fallback chain. -/
def Stands (cfg : Config) (e : ℕ) (v : SPBValue) (l : List (ℕ × Event)) : Prop :=
  v.val ≠ OPT → (e, .assembledFallback v.block.qc) ∈ l ∧ v.block.qc.height = v.block.height ∧
    v.block.qc.round = cfg.parameters.fallbackLength

structure Harvest (cfg : Config) (s : Core) : Prop where
  highs : ∀ key q, s.fallbackHighQc.getD key none = some q →
    s.Did (.assembledFallback q) ∧ key = (q.height, q.round)
  inputs : ∀ e v, (e, .propose v) ∈ s.trace →
    v.block.author = cfg.name ∧ v.block.epoch = e ∧ Stands cfg e v s.trace
  sent : ∀ e v p dest tag, (e, .send (.SPBPropose v p) dest tag) ∈ s.trace →
    v.block.author = cfg.name ∧ v.block.epoch = e

theorem Stands.mono {e : ℕ} {v : SPBValue} {l l' : List (ℕ × Event)} (h : Stands cfg e v l)
    (hl : l ⊆ l') : Stands cfg e v l' := fun hv => ⟨hl (h hv).1, (h hv).2⟩

theorem Harvest.initial (hs : Harvest cfg s) (hk : s.Kept) {v : SPBValue} (h : s.Initial cfg v) :
    Stands cfg s.epoch v s.trace := by
  intro hv
  cases h with
  | first _ _ _ hq _ =>
    obtain ⟨hdid, hkey⟩ := hs.highs _ _ (hq hv).2
    have hh := congrArg Prod.fst hkey
    have hr := congrArg Prod.snd hkey
    exact ⟨hdid, hh.symm, hr.symm⟩
  | @next last _ _ hl hval _ hq _ _ =>
    obtain ⟨hdid, hkey⟩ := hk.proposes _ _ hl
    have hh := congrArg Prod.fst hkey
    rw [hval] at hv
    obtain ⟨hmade, hh', hr⟩ := (hs.inputs _ _ hdid).2.2 hv
    rw [hq]
    exact ⟨hmade, hh'.trans hh.symm, hr⟩

theorem Harvest.issued (hs : Harvest cfg s) (hk : s.Kept) {v : SPBValue} {p : SPBProof}
    (h : s.Issues cfg (.SPBPropose v p)) : v.block.author = cfg.name ∧ v.block.epoch = s.epoch := by
  rcases h with ⟨-, hdid⟩ | ⟨-, h⟩
  · obtain ⟨ha, he, -⟩ := hs.inputs _ _ hdid
    exact ⟨ha, he⟩
  · cases h with
    | init _ _ _ ha he => exact ⟨ha, he⟩
    | lock _ _ hw hv =>
      obtain ⟨ha, he, -⟩ := hs.inputs _ _ (hk.proposes _ _ hw).1
      rw [hv]
      exact ⟨ha, he⟩

theorem Harvest.step (hs : Harvest cfg s) (hk : s.Kept) (h : Step cfg s t) : Harvest cfg t := by
  have hext := h.extends
  constructor
  · intro key q hq
    rcases h.steadies.fallbackHighQc key q hq with hq | ⟨hdid, hkey⟩
    · obtain ⟨hdid, hkey⟩ := hs.highs key q hq
      exact ⟨hext.did hdid, hkey⟩
    · exact ⟨hext.did hdid, hkey⟩
  · intro e v hv
    rcases h.recorded hv with hv | ⟨he, hr⟩
    · obtain ⟨ha, he, hstands⟩ := hs.inputs e v hv
      exact ⟨ha, he, hstands.mono hext.trace.subset⟩
    · simp only at he
      subst he
      cases hr with
      | opt h => exact h.elim
      | pes _ h => exact h.elim
      | propose _ hi _ ha he _ => exact ⟨ha, he, (hs.initial hk hi).mono hext.trace.subset⟩
  · intro e v p dest tag hv
    rcases h.recorded hv with hv | ⟨he, hr⟩
    · exact hs.sent e v p dest tag hv
    · simp only at he
      subst he
      cases hr with
      | opt h => exact h.elim
      | pes _ h => exact hs.issued hk h.1

theorem Reachable.harvest {alive : Bool} (h : Reachable cfg s alive) : Harvest cfg s := by
  refine ((h.invariant (P := fun s => s.Kept ∧ Harvest cfg s) (C := fun _ => True)
    (fun _ _ _ h => h) ⟨.new, ?_⟩ ?_ ?_).2 trivial).2
  · exact ⟨fun key q h => (nomatch h), fun e v hv => (not_own_of_new hv trivial).elim,
      fun e v p dest tag hv => (not_own_of_new hv trivial).elim⟩
  · rintro s m ⟨hk, hs⟩ -
    refine ⟨hk.take m, fun key q hq => ?_, fun e v hv => ?_,
      fun e v p dest tag hv => hs.sent e v p dest tag (mem_take hv trivial)⟩
    · obtain ⟨hdid, hkey⟩ := hs.highs key q hq
      exact ⟨List.mem_cons_of_mem _ hdid, hkey⟩
    · obtain ⟨ha, he, hstands⟩ := hs.inputs e v (mem_take hv trivial)
      exact ⟨ha, he, hstands.mono (List.subset_cons_self _ _)⟩
  · rintro s t _ ⟨hk, hs⟩ - ht
    cases ht with
    | step ht => exact ⟨hk.step ht, hs.step hk ht⟩
    | epoch _ ht =>
      subst ht
      refine ⟨hk.renewed, fun key q hq => ?_, fun e v hv => ?_,
        fun e v p dest tag hv => hs.sent e v p dest tag (mem_renewed hv trivial)⟩
      · obtain ⟨marks, rest, heq, -, -⟩ := renewed_eq s
        rw [heq] at hq
        cases hq
      · obtain ⟨ha, he, hstands⟩ := hs.inputs e v (mem_renewed hv trivial)
        exact ⟨ha, he, hstands.mono (renewed_trace s).subset⟩

end Core

end Branches

end Ipotane
