import Ipotane.Core.Chain

/-! The handlers of the optimistic path as sequences of steps. -/
namespace Ipotane.Core

open Lib Handler

variable [Crypto] {cfg : Config} {call : Call → M Unit} {s t : Core} {b b1 b0 : Block}

/-! ### Ancestors -/

theorem genesis_isGenesis : Block.genesis.qc.isGenesis := ⟨rfl, rfl, rfl, rfl⟩

theorem getParentBlock_cases (hs : s.StoreOk) :
    (∃ p, getParentBlock b s = (.ok (some p), s) ∧ s.Parent b p ∧
        (p = .genesis ∨ s.store.get p.digest = some p)) ∨
      (getParentBlock b s = (.ok none, s.log (.sync b)) ∧ ¬ b.qc.isGenesis ∧
        s.store.get b.parent = none) := by
  unfold getParentBlock
  by_cases hg : b.qc.isGenesis
  · rw [if_pos hg]
    exact .inl ⟨.genesis, rfl, .inl ⟨hg, rfl⟩, .inl rfl⟩
  · rw [if_neg hg]
    cases hp : s.store.get b.parent with
    | none =>
      refine .inr ⟨?_, hg, rfl⟩
      simp only [bind_eq, andThen, self, hp]
      rfl
    | some p =>
      obtain ⟨hd, he⟩ := hs _ _ hp
      refine .inl ⟨p, ?_, .inr ⟨hg, hd, he⟩, .inr (hd.symm ▸ hp)⟩
      simp only [bind_eq, andThen, self, hp]
      rfl

theorem Parent.stored {p : Block} (h : s.Parent b p) : s.Ever (.store p) ∨ p = .genesis := by
  rcases h with ⟨_, h⟩ | ⟨_, _, h⟩
  · exact .inr h
  · exact .inl h

theorem stored_of_not_genesis (h : s.Ever (.store b) ∨ b = .genesis) (hg : ¬ b.qc.isGenesis) :
    s.Ever (.store b) := by
  rcases h with h | rfl
  · exact h
  · exact absurd genesis_isGenesis hg

/-! ### The commit loop -/

/-- Marks of a commit loop are not stores. -/
theorem ever_store_of_marks {marks : List (ℕ × Event)} (hm : ∀ x ∈ marks, ∀ p, x.2 ≠ .store p)
    (h : (s.marked marks).Ever (.store b)) : s.Ever (.store b) := by
  obtain ⟨e, he⟩ := h
  rcases List.mem_append.mp he with he | he
  · exact absurd rfl (hm _ he b)
  · exact ⟨e, he⟩

theorem Tidy.not_store {x : Event} (h : s.Tidy x) (p : Block) : x ≠ .store p := by
  rcases h with ⟨b, rfl, _⟩ | ⟨b, rfl, _⟩ <;> simp

/-- One turn of the loop: at most a cleanup, then the parent or a request for it. -/
theorem commit_turn (call : Call → M Unit) (hs : s.StoreOk)
    (hb : s.Ever (.store b) ∨ b = .genesis) :
    ∃ marks : List (ℕ × Event), (∀ x ∈ marks, x.1 = s.epoch ∧ s.Tidy x.2) ∧
      (commit call b s = (.ok (), s.marked marks) ∨
        ∃ p, (s.Ever (.store p) ∨ p = .genesis) ∧
          commit call b s = call (.commit p) (s.marked marks)) := by
  by_cases hh : b.height > s.lastCommittedHeight
  · obtain ⟨m₀, hm₀, hwhen⟩ : ∃ m₀ : List (ℕ × Event), (∀ x ∈ m₀, x.1 = s.epoch ∧ s.Tidy x.2) ∧
        when (b.payload ≠ []) (emit (.cleanup b)) s = (.ok (), s.marked m₀) := by
      by_cases hp : b.payload ≠ []
      · refine ⟨[(s.epoch, .cleanup b)], ?_, by rw [when, if_pos hp]; rfl⟩
        intro x hx
        cases List.mem_singleton.mp hx
        exact ⟨rfl, .inl ⟨b, rfl, hb⟩⟩
      · exact ⟨[], by simp, by rw [when, if_neg hp]; rfl⟩
    have hs₁ : (s.marked m₀).StoreOk := hs.of_store (extends_marked m₀) rfl
    have hback : ∀ {p : Block}, (s.marked m₀).Ever (.store p) → s.Ever (.store p) :=
      ever_store_of_marks fun x hx p => (hm₀ x hx).2.not_store p
    obtain ⟨next, heval, hsome, hnone⟩ : ∃ next : Option Block → M Unit,
        commit call b s = (getParentBlock b >>= next) (s.marked m₀) ∧
          (∀ p, next (some p) = call (.commit p)) ∧ next none = pure () := by
      unfold commit
      rw [bind_run (x := self) rfl, when, if_pos hh]
      exact ⟨_, bind_run hwhen, fun _ => rfl, rfl⟩
    rcases getParentBlock_cases (b := b) hs₁ with ⟨p, hp, hpar, -⟩ | ⟨hp, hg, -⟩
    · refine ⟨m₀, hm₀, .inr ⟨p, hpar.stored.imp hback id, ?_⟩⟩
      rw [heval, bind_run hp, hsome]
    · refine ⟨(s.epoch, .sync b) :: m₀, ?_, .inl ?_⟩
      · intro x hx
        rcases List.mem_cons.mp hx with rfl | hx
        · exact ⟨rfl, .inr ⟨b, rfl, stored_of_not_genesis hb hg⟩⟩
        · exact hm₀ x hx
      · rw [heval, bind_run hp, hnone]
        rfl
  · refine ⟨[], by simp, .inl ?_⟩
    unfold commit
    rw [bind_run (x := self) rfl, when, if_neg hh]
    rfl

theorem commit_tidy (hcall : CommitsTidily call) (hs : s.StoreOk)
    (hb : s.Ever (.store b) ∨ b = .genesis) :
    (commit call b s).1 = .exhausted ∨
      ∃ marks, commit call b s = (.ok (), s.marked marks) ∧
        ∀ x ∈ marks, x.1 = s.epoch ∧ s.Tidy x.2 := by
  obtain ⟨m₀, hm₀, h | ⟨p, hp, h⟩⟩ := commit_turn call hs hb
  · exact .inr ⟨m₀, h, hm₀⟩
  · have hext := extends_marked (s := s) m₀
    rw [h]
    rcases hcall p _ (hs.of_store hext rfl) (hp.imp hext.ever id) with hc | ⟨m₁, hc, hm₁⟩
    · exact .inl hc
    · refine .inr ⟨m₁ ++ m₀, by rw [hc]; simp [marked], ?_⟩
      intro x hx
      rcases List.mem_append.mp hx with hx | hx
      · obtain ⟨he, ht⟩ := hm₁ x hx
        have hback : ∀ {c : Block}, (s.marked m₀).Ever (.store c) → s.Ever (.store c) :=
          ever_store_of_marks fun y hy q => (hm₀ y hy).2.not_store q
        exact ⟨he, ht.imp (fun ⟨c, hc, hst⟩ => ⟨c, hc, hst.imp hback id⟩)
          fun ⟨c, hc, hst⟩ => ⟨c, hc, hback hst⟩⟩
      · exact hm₀ x hx

/-- The loop as the body of its own call. -/
theorem commitsTidily_exec : ∀ fuel, CommitsTidily (exec cfg fuel)
  | 0 => fun _ _ _ _ => .inl rfl
  | fuel + 1 => fun _ _ hs hb => commit_tidy (commitsTidily_exec fuel) hs hb

theorem marks_chain {marks : List (ℕ × Event)} (h : ∀ x ∈ marks, x.1 = s.epoch ∧ s.Tidy x.2) :
    Relation.ReflTransGen (Step cfg) s (s.marked marks) := by
  induction marks with
  | nil => exact .refl
  | cons x marks ih =>
    refine (ih fun y hy => h y (List.mem_cons_of_mem _ hy)).tail ?_
    obtain ⟨he, ht⟩ := h x List.mem_cons_self
    have hx : x = (s.epoch, x.2) := by rw [← he]
    have hext := extends_marked (s := s) marks
    rw [hx]
    refine step_log (s := s.marked marks) ?_
    rcases ht with ⟨b, hb, hst⟩ | ⟨b, hb, hst⟩
    · rw [hb]
      exact .inr (hst.imp hext.ever id)
    · rw [hb]
      exact .inr (hext.ever hst)

/-! ### Proposing -/

theorem chain_optPropose (hc : Sound cfg call) (hs : s.StoreOk) (hl : s.Leads cfg) :
    Chain cfg s (optPropose cfg call) := by
  refine steps_self_bind (chain_ownIndex_bind ?_)
  cases hidx : cfg.committee.indexAsLeader cfg.parameters.leaderWindow cfg.name s.height with
  | none =>
    unfold Leads at hl
    rw [hidx] at hl
    cases hl
  | some i =>
    refine steps_bind (chain_generateProposal ?_) fun b t hb hst => ?_
    · intro payload t ht
      refine .opt (.log ⟨payload, ?_⟩)
      rw [ht.highQc, ht.height]
      rfl
    · obtain ⟨⟨payload, hnew⟩, hsign, -⟩ := generateProposal_ok hb
      have htag : b.tag = OPT := by rw [hnew]; rfl
      have hst' := steps_storeOk hst hs
      refine steps_bind (chain_transmit (step_log ⟨List.mem_of_mem_head? hsign, htag, rfl, rfl⟩))
        fun _ u hu htu => ?_
      refine hc.steps _ _ (steps_storeOk htu hst') (.own ?_)
      rw [transmit_ok hu]
      exact List.mem_cons_self

/-! ### Proposals -/

theorem advanceHeight_run {height : ℕ} (h : height < s.height ∨ height + 1 < 2 ^ 64) :
    advanceHeight height s =
      (.ok (), if height < s.height then s else s.enterHeight (height + 1)) := by
  unfold advanceHeight
  rw [bind_run (x := self) rfl]
  by_cases hlt : height < s.height
  · rw [if_pos hlt, if_pos hlt]
    rfl
  · have hb : height + 1 < 2 ^ 64 := h.resolve_left hlt
    rw [if_neg hlt, if_neg hlt]
    unfold add
    rw [if_pos hb]
    rfl

theorem processQc_run {qc : QC} (h : qc.height < s.height ∨ qc.height + 1 < 2 ^ 64) :
    processQc qc s = (.ok (), s.adopt qc) := by
  unfold processQc
  rw [bind_run (advanceHeight_run h)]
  rfl

theorem processQc_overflow {qc : QC} (hn : ¬ qc.height < s.height) (hb : 2 ^ 64 ≤ qc.height + 1) :
    processQc qc s = (.panic .overflow, s) := by
  unfold processQc advanceHeight add
  simp only [bind_eq, andThen, self]
  rw [if_neg hn, if_neg (by omega)]
  rfl

theorem cleanFor_height : (s.cleanFor cfg b).height = s.height := by
  unfold cleanFor
  split <;> rfl

theorem cleanFor_run :
    when (cfg.pesPath = true ∧ b.height > 2) (do
      let s ← self
      terminateSmvba (b.height - 2) (s.heightAfter b.qc) (.proposal b)) s =
        (.ok (), s.cleanFor cfg b) := by
  unfold when cleanFor
  split <;> rfl

theorem chain_mempoolVerify {tag : ℕ} (ha : ∀ t, Alike s t → Step cfg t (t.log (.accept b)))
    (h : ∀ t, Alike s t → Step cfg t (t.log (.suspend b tag))) :
    Chain cfg s (mempoolVerify cfg b tag) := by
  have hq := alike_requests (s := s) (s.requests + 1)
  refine steps_self_bind (steps_update_bind (.opt (.quiet hq)) ?_)
  cases cfg.status s.requests with
  | Accept => exact steps_bind (steps_update (ha _ hq)) fun _ _ _ _ => steps_pure _
  | Reject => exact steps_fail _
  | Wait => exact steps_bind (steps_update (h _ hq)) fun _ _ _ _ => steps_pure _

/-- A block goes on when its payload has been found. -/
theorem mempoolVerify_ok {tag : ℕ} (h : mempoolVerify cfg b tag s = (.ok true, t)) :
    t.Did (.accept b) := by
  obtain ⟨s₁, _, h₁, h⟩ := bind_ok h
  cases h₁
  obtain ⟨_, s₂, h₂, h⟩ := bind_ok h
  cases h₂
  cases hst : cfg.status s.requests with
  | Accept =>
    rw [hst] at h
    cases h
    exact List.mem_cons_self
  | Reject =>
    rw [hst] at h
    cases h
  | Wait =>
    rw [hst] at h
    cases h

theorem stops_proposed (hp : s.Proposed cfg b) (hb : 2 ^ 64 ≤ b.qc.height + 1) :
    s.Stops cfg .overflow := by
  have hn : b.qc.height + 1 ∈ if b.epoch = s.epoch
    then [b.height + 1, b.qc.height + 1] else [] := by
    simp [hp.epoch]
  rcases hp.received with h | h
  · exact .message (.inl h) hn hb
  · exact .message (.inl h) hn hb

/-- The termination and the certificate of a proposal are one step. -/
theorem chain_admitted (hc : Sound cfg call) (hs : s.StoreOk) (hp : s.Proposed cfg b)
    (ha : s.trace.head? = some (s.epoch, .approve b)) : Chain cfg s (do
      when (cfg.pesPath = true ∧ b.height > 2) do
        let s ← self
        terminateSmvba (b.height - 2) (s.heightAfter b.qc) (.proposal b)
      processQc b.qc
      if ← mempoolVerify cfg b OPT then call (.processOptBlock b) else pure ()) := by
  by_cases hb : b.qc.height < s.height ∨ b.qc.height + 1 < 2 ^ 64
  · have hstep : Step cfg s ((s.cleanFor cfg b).adopt b.qc) := .opt (.proposal hp hb ha)
    have hrun : processQc b.qc (s.cleanFor cfg b) = (.ok (), (s.cleanFor cfg b).adopt b.qc) :=
      processQc_run (by rwa [cleanFor_height])
    refine steps_of_run ((bind_run cleanFor_run).trans (bind_run hrun)) (.single hstep) ?_
    have hkept : ∀ t, Alike ((s.cleanFor cfg b).adopt b.qc) t → t.Proposed cfg b := by
      intro t ht
      have hext : Extends ((s.cleanFor cfg b).adopt b.qc) t :=
        ⟨ht.epoch, ht.trace ▸ List.suffix_rfl⟩
      exact (hstep.extends.trans hext).proposed hp
    refine steps_bind (chain_mempoolVerify (fun t ht => step_log (hkept t ht))
      fun t ht => step_log ⟨hkept t ht, rfl⟩) fun ok t hok ht => ?_
    have hst := (Relation.ReflTransGen.single hstep).trans ht
    refine steps_ite (fun htrue => ?_) fun _ => steps_pure _
    subst htrue
    exact hc.steps _ _ (steps_storeOk hst hs)
      (.proposal ((steps_extends hst).proposed hp) (mempoolVerify_ok hok))
  · have hrun : processQc b.qc (s.cleanFor cfg b) = (.panic .overflow, s.cleanFor cfg b) :=
      processQc_overflow (by rw [cleanFor_height]; omega) (by omega)
    have hstep : Step cfg s (s.cleanFor cfg b) := .opt (.overflow hp (by omega))
    refine steps_of_panic (p := .overflow) (t := s.cleanFor cfg b) ?_ (.single hstep) ?_
    · rw [bind_run cleanFor_run, bind_eq, andThen, hrun]
    · exact stops_proposed (hstep.extends.proposed hp) (by omega)

theorem chain_admitOptProposal (hc : Sound cfg call) (hs : s.StoreOk)
    (hr : s.Did (.receive (.HsPropose b)) ∨ s.Did (.receive (.SyncReply b)))
    (he : b.epoch = s.epoch) : Chain cfg s (admitOptProposal cfg call b) := by
  refine steps_reads_bind (reads_indexAsLeader _ _) (fun p h => ?_) fun idx hidx => ?_
  · obtain ⟨rfl, hn⟩ := indexAsLeader_panic h
    exact .proposer hr he hn
  refine steps_looks_bind (looks_ensureM _ _) fun _ hsome => ?_
  refine steps_looks_bind (looks_ofExcept _) fun _ hver => ?_
  obtain ⟨_, rfl⟩ := indexAsLeader_ok hidx
  have hp : s.Proposed cfg b := ⟨hr, he, ensureM_ok hsome, ofExcept_ok hver⟩
  have hlog : Step cfg s (s.log (.approve b)) := step_log hp
  exact steps_update_bind hlog
    (chain_admitted hc (steps_storeOk (.single hlog) hs) (hlog.extends.proposed hp) rfl)

theorem chain_handleOptProposal (hc : Sound cfg call) (hs : s.StoreOk)
    (hr : s.Did (.receive (.HsPropose b)) ∨ s.Did (.receive (.SyncReply b))) :
    Chain cfg s (handleOptProposal cfg call b) := by
  refine steps_self_bind (steps_ite (fun _ => steps_pure _) fun hlt => ?_)
  refine steps_ite (fun hgt => ?_) fun hgt => ?_
  · refine steps_update_bind (.opt (.buffer hr hgt)) (steps_fail _)
  · exact chain_admitOptProposal hc hs hr (by omega)

/-! ### Processing a block -/

theorem getAncestors_cases (cfg : Config) (hs : s.StoreOk) :
    getAncestors b s = (.ok none, s.log (.sync b)) ∨
      (∃ b1, getAncestors b s = (.panic .missingAncestor, s.log (.sync b1)) ∧ s.Ever (.store b1) ∧
        (s.log (.sync b1)).Stops cfg .missingAncestor) ∨
      ∃ b0 b1, getAncestors b s = (.ok (some (b0, b1)), s) ∧ s.Parent b b1 ∧ s.Parent b1 b0 := by
  unfold getAncestors
  rcases getParentBlock_cases (b := b) hs with ⟨b1, h1, hp1, hget⟩ | ⟨h1, _⟩
  · rw [bind_run h1]
    refine .inr ?_
    rcases getParentBlock_cases (b := b1) hs with ⟨b0, h0, hp0, -⟩ | ⟨h0, hg, hnone⟩
    · refine .inr ⟨b0, b1, ?_, hp1, hp0⟩
      simp only [bind_run h0]
      rfl
    · refine .inl ⟨b1, ?_, stored_of_not_genesis hp1.stored hg, ?_⟩
      · simp only [bind_run h0]
        rfl
      · rcases hget with rfl | hget
        · exact absurd genesis_isGenesis hg
        · exact .parent hget hg hnone
  · rw [bind_run h1]
    exact .inl rfl

theorem chain_optPrepareSection (hc : Sound cfg call) (hs : s.StoreOk)
    (hp : s.Did (.process b s.height)) : Chain cfg s (optPrepareSection cfg call b) := by
  have hpes : ∀ {t : Core}, cfg.pesPath = true → t.PesActive cfg := fun h => .inl h
  refine steps_bind (steps_when fun h => ?_) fun _ t ht hst => ?_
  · refine steps_self_bind (steps_reads_bind (reads_sub _ _) (fun p hk => ?_) fun k hk => ?_)
    · obtain ⟨rfl, hlt⟩ := sub_panic hk
      exact .low hp h.1 h.2 hlt
    obtain ⟨rfl, hle⟩ := sub_ok hk
    exact steps_update (.pes (hpes h.1) (.terminate (.inl ⟨by omega, b, rfl, hp⟩)))
  · have hp' : t.Did (.process b t.height) := by
      have hh : t.height = s.height := by
        unfold when at ht
        split at ht
        · obtain ⟨s₁, _, h₁, ht⟩ := bind_ok ht
          cases h₁
          obtain ⟨k, _, hk, ht⟩ := bind_ok ht
          cases (reads_sub _ _).eq hk
          cases ht
          rfl
        · cases ht
          rfl
      rw [hh]
      exact (steps_extends hst).did hp
    have hs' := steps_storeOk hst hs
    refine steps_bind (steps_when fun h => ?_) fun _ u _ hu => ?_
    · exact hc.steps _ _ hs' ⟨hpes h.1, .opt hp' (by omega) rfl⟩
    · exact steps_when fun h => hc.steps _ _ (steps_storeOk hu hs')
        ⟨hpes h, .block ((steps_extends hu).did hp') rfl⟩

/-- The commit section without what it calls. -/
theorem optCommitSection_cases (call : Call → M Unit) (s : Core) (b b1 b0 : Block) :
    (¬ Consecutive b0 b1 b ∧ ((∃ e, optCommitSection call b b0 b1 s = (.err e, s)) ∨
        (optCommitSection call b b0 b1 s = (.panic .overflow, s) ∧
          (2 ^ 64 ≤ b0.height + 1 ∨ 2 ^ 64 ≤ b1.height + 1)))) ∨
      (Consecutive b0 b1 b ∧ ¬ b0.height > s.lastCommittedHeight ∧
        optCommitSection call b b0 b1 s = (.ok (), s)) ∨
      (Consecutive b0 b1 b ∧ b0.height > s.lastCommittedHeight ∧
        optCommitSection call b b0 b1 s = commitAndSend call b0 (.twoChain b1 b) s) := by
  unfold optCommitSection
  by_cases hb0 : b0.height + 1 < 2 ^ 64
  · rw [bind_run (add_run hb0)]
    by_cases hb1 : b1.height + 1 < 2 ^ 64
    · rw [bind_run (add_run hb1)]
      by_cases hh : (b0.height + 1 = b1.height ∧ b1.height + 1 = b.height) ∨ b.qc.isGenesis
      · have he : ensureM ((b0.height + 1 = b1.height ∧ b1.height + 1 = b.height) ∨ b.qc.isGenesis)
            (.NonConsecutiveRounds b0.height b1.height b.height) s = (.ok (), s) := by
          unfold ensureM
          rw [if_pos hh]
          rfl
        rw [bind_run he, bind_run (x := self) rfl]
        by_cases hl : b0.height > s.lastCommittedHeight
        · exact .inr (.inr ⟨⟨hb0, hb1, hh⟩, hl, by rw [when, if_pos hl]⟩)
        · exact .inr (.inl ⟨⟨hb0, hb1, hh⟩, hl, by rw [when, if_neg hl]; rfl⟩)
      · refine .inl ⟨fun hc => hh hc.2.2,
          .inl ⟨.NonConsecutiveRounds b0.height b1.height b.height, ?_⟩⟩
        unfold ensureM
        rw [if_neg hh]
        rfl
    · refine .inl ⟨fun hc => hb1 hc.2.1, .inr ⟨?_, .inr (by omega)⟩⟩
      unfold add
      rw [if_neg hb1]
      rfl
  · refine .inl ⟨fun hc => hb0 hc.1, .inr ⟨?_, .inl (by omega)⟩⟩
    unfold add
    rw [if_neg hb0]
    rfl

/-- The ancestors of a block are stored, but for the genesis block. -/
theorem stops_ancestors (h1 : s.Parent b b1) (h0 : s.Parent b1 b0)
    (hb : 2 ^ 64 ≤ b0.height + 1 ∨ 2 ^ 64 ≤ b1.height + 1) : s.Stops cfg .overflow := by
  have hone : ∀ {p : Block}, s.Ever (.store p) ∨ p = .genesis → 2 ^ 64 ≤ p.height + 1 →
      s.Stops cfg .overflow := by
    rintro p (h | rfl) hp
    · exact .ancestor h hp
    · have hp : 2 ^ 64 ≤ 0 + 1 := hp
      omega
  rcases hb with hb | hb
  · exact hone h0.stored hb
  · exact hone h1.stored hb

theorem commitAndSend_cases (hc : Sound cfg call) (hs : s.StoreOk) (rule : CommitRule)
    (hb : s.Ever (.store b0) ∨ b0 = .genesis) :
    (commitAndSend call b0 rule s).1 = .exhausted ∨
      ∃ marks : List (ℕ × Event), (∀ x ∈ marks, x.1 = s.epoch ∧ s.Tidy x.2) ∧
        commitAndSend call b0 rule s = (.ok (), (s.marked marks).markCommit b0 rule) := by
  unfold commitAndSend
  rcases hc.commit b0 s hs hb with h | ⟨marks, h, hm⟩
  · refine .inl ?_
    rw [bind_eq, andThen]
    cases hx : call (.commit b0) s with
    | mk o t =>
      rw [hx] at h
      cases h
      rfl
  · refine .inr ⟨marks, hm, ?_⟩
    rw [bind_run h]
    rfl

theorem chain_commitAndSend (hc : Sound cfg call) (hs : s.StoreOk) {rule : CommitRule}
    (hb : s.Ever (.store b0) ∨ b0 = .genesis)
    (hstep : ∀ marks : List (ℕ × Event), Step cfg (s.marked marks)
      ((s.marked marks).markCommit b0 rule)) :
    Chain cfg s (commitAndSend call b0 rule) := by
  rcases commitAndSend_cases hc hs rule hb with h | ⟨marks, hm, h⟩
  · exact fun hne => absurd h hne
  · exact steps_of_ok h ((marks_chain hm).tail (hstep marks))

theorem chain_optCommitSection (hc : Sound cfg call) (hs : s.StoreOk)
    (hp : ∃ height, s.Did (.process b height)) (hst : s.Did (.store b)) (h1 : s.Parent b b1)
    (h0 : s.Parent b1 b0) : Chain cfg s (optCommitSection call b b0 b1) := by
  rcases optCommitSection_cases call s b b1 b0 with
    ⟨_, ⟨e, h⟩ | ⟨h, hb⟩⟩ | ⟨_, _, h⟩ | ⟨hcons, hl, h⟩
  · exact steps_of_err h .refl
  · exact steps_of_panic h .refl (stops_ancestors h1 h0 hb)
  · exact steps_of_ok h .refl
  · refine steps_of_run h .refl (chain_commitAndSend hc hs h0.stored fun marks => ?_)
    have hext := extends_marked (s := s) marks
    obtain ⟨height, hp⟩ := hp
    exact .opt (.commit ⟨height, hext.did hp⟩ (hext.did hst) (hext.parent h1) (hext.parent h0)
      hcons hl)

theorem chain_sendVote {v : HVote} {leaders : List PublicKey} (hv : s.Did (.sign (.vote v)))
    (ht : v.tag = OPT) : Chain cfg s (sendVote cfg v leaders) := by
  induction leaders generalizing s with
  | nil => exact steps_pure _
  | cons leader leaders ih =>
    refine steps_bind (steps_when fun _ => ?_) fun _ t _ hst => ?_
    · exact chain_transmit (step_log ⟨hv, ht, rfl, rfl⟩)
    · exact ih ((steps_extends hst).did hv)

theorem chain_makeOptVote (hp : ∃ height, s.Did (.process b height)) (hst : s.Did (.store b))
    (hh : b.height = s.height) : Chain cfg s (makeOptVote cfg b) := by
  refine chain_add_bind (.block hp) fun _ => ?_
  refine steps_self_bind (steps_ite (fun h => ?_) fun _ => steps_pure _)
  exact steps_update_bind (.opt (.vote hp hst h.1 h.2 hh)) (steps_pure _)

theorem makeOptVote_some {v : HVote} (h : makeOptVote cfg b s = (.ok (some v), t)) :
    v.tag = OPT ∧ t.Did (.sign (.vote v)) := by
  obtain ⟨next, s₁, h₁, h⟩ := bind_ok h
  cases (reads_add _ _).eq h₁
  obtain ⟨s₂, s₃, h₂, h⟩ := bind_ok h
  cases h₂
  split at h
  · cases h
    exact ⟨rfl, List.mem_cons_self⟩
  · cases h

theorem chain_optVoteSection (hc : Sound cfg call) (hs : s.StoreOk)
    (hp : ∃ height, s.Did (.process b height)) (hst : s.Did (.store b)) :
    Chain cfg s (optVoteSection cfg call b) := by
  refine steps_self_bind (steps_when fun hh => ?_)
  refine steps_bind (chain_makeOptVote hp hst hh) fun vote t hvote ht => ?_
  cases vote with
  | none => exact steps_pure _
  | some v =>
    obtain ⟨htag, hsign⟩ := makeOptVote_some hvote
    refine chain_add_bind (fun hb => ?_) fun _ => ?_
    · exact .ancestor ((steps_extends ht).ever hst.ever) (by omega)
    refine steps_bind (chain_sendVote hsign htag) fun _ u _ hu => ?_
    have hsign' := (steps_extends hu).did hsign
    refine chain_ownIndex_bind (steps_when fun _ => ?_)
    have hkeep : Step cfg u (u.log (.keep (.HSVote v))) := step_log ⟨hsign', htag⟩
    refine steps_update_bind hkeep ?_
    refine hc.steps _ _ ?_ (.inr (.inr List.mem_cons_self))
    exact steps_storeOk (.single hkeep) (steps_storeOk hu (steps_storeOk ht hs))

/-- From the store to the vote, when the prepare section does nothing. -/
theorem chain_settle (hc : Sound cfg call) (hs : s.StoreOk) (hm : cfg.pesPath = false)
    (hp : s.Did (.process b s.height)) (h1 : s.Parent b b1) (h0 : s.Parent b1 b0) :
    Chain cfg s (do
      storeBlock b
      optPrepareSection cfg call b
      optCommitSection call b b0 b1
      optVoteSection cfg call b) := by
  have hprep : optPrepareSection cfg call b (s.insertBlock b) = (.ok (), s.insertBlock b) := by
    unfold optPrepareSection
    simp only [hm, Bool.false_eq_true, false_and, when, if_false]
    rfl
  have hstore : storeBlock b s = (.ok (), s.insertBlock b) := rfl
  have hext : Extends s (s.insertBlock b) := extends_cons rfl rfl
  have hs' := hs.insertBlock b
  have hvote : ∀ {t : Core}, t.StoreOk → Extends (s.insertBlock b) t →
      Chain cfg t (optVoteSection cfg call b) := fun ht he =>
    chain_optVoteSection hc ht ⟨s.height, he.did (hext.did hp)⟩ (he.did List.mem_cons_self)
  have hstart : (do
      storeBlock b
      optPrepareSection cfg call b
      optCommitSection call b b0 b1
      optVoteSection cfg call b) s = (do
      optCommitSection call b b0 b1
      optVoteSection cfg call b) (s.insertBlock b) := (bind_run hstore).trans (bind_run hprep)
  rcases optCommitSection_cases call (s.insertBlock b) b b1 b0 with
    ⟨hn, hend⟩ | ⟨hcons, hl, h⟩ | ⟨hcons, hl, h⟩
  · have hstep : Step cfg s (s.insertBlock b) := .opt (.store hp h1 h0 (.inr hn))
    refine steps_of_run hstart (.single hstep) ?_
    rcases hend with ⟨e, h⟩ | ⟨h, hb⟩
    · refine steps_of_err (e := e) (t := s.insertBlock b) ?_ .refl
      rw [bind_eq, andThen, h]
    · refine steps_of_panic (p := .overflow) (t := s.insertBlock b) ?_ .refl ?_
      · rw [bind_eq, andThen, h]
      · exact stops_ancestors (hext.parent h1) (hext.parent h0) hb
  · have hstep : Step cfg s (s.insertBlock b) := by
      have hset : s.settle b b1 b0 [] = s.insertBlock b := if_neg hl
      rw [← hset]
      exact .opt (.settle hp h1 h0 hm hcons (by simp))
    exact steps_of_run (hstart.trans (bind_run h)) (.single hstep) (hvote hs' (Extends.refl _))
  · have hst0 : (s.insertBlock b).Ever (.store b0) ∨ b0 = .genesis := h0.stored.imp hext.ever id
    rcases commitAndSend_cases hc hs' (.twoChain b1 b) hst0 with hx | ⟨marks, hmarks, hx⟩
    · refine fun hne => absurd ?_ hne
      rw [hstart, bind_eq, andThen, h]
      cases hy : commitAndSend call b0 (.twoChain b1 b) (s.insertBlock b) with
      | mk o t =>
        rw [hy] at hx
        cases hx
        rfl
    · have hstep : Step cfg s (((s.insertBlock b).marked marks).markCommit b0
        (.twoChain b1 b)) := by
        have hset : s.settle b b1 b0 marks =
            ((s.insertBlock b).marked marks).markCommit b0 (.twoChain b1 b) := if_pos hl
        rw [← hset]
        exact .opt (.settle hp h1 h0 hm hcons hmarks)
      refine steps_of_run (hstart.trans (bind_run (h.trans hx))) (.single hstep) (hvote ?_ ?_)
      · exact hs'.of_store ⟨rfl, (List.suffix_append _ _).trans (List.suffix_cons _ _)⟩ rfl
      · exact ⟨rfl, (List.suffix_append _ _).trans (List.suffix_cons _ _)⟩

theorem chain_processed (hc : Sound cfg call) (hs : s.StoreOk)
    (hp : s.Did (.process b s.height)) (h1 : s.Parent b b1) (h0 : s.Parent b1 b0) :
    Chain cfg s (do
      storeBlock b
      optPrepareSection cfg call b
      optCommitSection call b b0 b1
      optVoteSection cfg call b) := by
  cases hm : cfg.pesPath with
  | false => exact chain_settle hc hs hm hp h1 h0
  | true =>
    have hstep : Step cfg s (s.insertBlock b) := .opt (.store hp h1 h0 (.inl hm))
    refine steps_update_bind hstep ?_
    have hs₁ := hs.insertBlock b
    have hp₁ : (s.insertBlock b).Did (.process b s.height) := hstep.extends.did hp
    have hst₁ : (s.insertBlock b).Did (.store b) := List.mem_cons_self
    have h1₁ := hstep.extends.parent h1
    have h0₁ := hstep.extends.parent h0
    refine steps_bind (chain_optPrepareSection hc hs₁ hp₁) fun _ t _ ht => ?_
    have he := steps_extends ht
    have hs₂ := steps_storeOk ht hs₁
    refine steps_bind (chain_optCommitSection hc hs₂ ⟨s.height, he.did hp₁⟩ (he.did hst₁)
      (he.parent h1₁) (he.parent h0₁)) fun _ u _ hu => ?_
    have he' := he.trans (steps_extends hu)
    exact chain_optVoteSection hc (steps_storeOk hu hs₂) ⟨s.height, he'.did hp₁⟩ (he'.did hst₁)

theorem chain_processOptBlock (hc : Sound cfg call) (hs : s.StoreOk) (ha : s.Admits cfg b) :
    Chain cfg s (processOptBlock cfg call b) := by
  have hlog : Step cfg s (s.log (.process b s.height)) := step_log ⟨ha, rfl⟩
  refine steps_self_bind (steps_update_bind hlog ?_)
  refine chain_ownIndex_bind ?_
  refine steps_bind (steps_when fun _ => chain_resetTimer nofun) fun _ t htimer ht => ?_
  have hs' := steps_storeOk ht (steps_storeOk (.single hlog) hs)
  have hp : t.Did (.process b t.height) := by
    have hh : t.height = s.height := by
      unfold when at htimer
      split at htimer <;> cases htimer <;> rfl
    rw [hh]
    exact (steps_extends ht).did List.mem_cons_self
  rcases getAncestors_cases (b := b) cfg hs' with
    h | ⟨b1, h, hst, hstop⟩ | ⟨b0, b1, h, h1, h0⟩
  · refine steps_seq h (.single (step_log (.inl ⟨_, hp⟩))) (steps_pure _)
  · refine steps_of_panic (p := .missingAncestor) (t := t.log (.sync b1)) ?_
      (.single (step_log (.inr hst))) hstop
    rw [bind_eq, andThen, h]
  · exact steps_seq h .refl (chain_processed hc hs' hp h1 h0)

/-! ### Votes and requests -/

theorem chain_handleOptVote {v : HVote} (hc : Sound cfg call) (hs : s.StoreOk)
    (hv : s.Hears (.HSVote v)) : Chain cfg s (handleOptVote cfg call v) := by
  refine steps_self_bind (steps_ite (fun _ => steps_pure _) fun hold => ?_)
  have hsum : v.height + 1 ∈ (ConsensusMessage.HSVote v).sums s.epoch := by
    rw [ConsensusMessage.sums, if_pos (by omega)]
    exact List.mem_cons_self
  refine chain_add_bind (.message hv hsum) fun hb => ?_
  refine chain_ownIndex_bind (steps_looks_bind (looks_ensureM _ _) fun _ hidx => ?_)
  refine steps_looks_bind (looks_ofExcept _) fun _ hver => ?_
  have hstep : Step cfg s (collect (fun a => a.addHsVote v cfg.committee) .assembled s).2 :=
    .opt (.countVote hv (ofExcept_ok hver) (by omega) (by omega) hb)
  refine steps_bind (chain_collect hstep) fun result t hres ht => ?_
  cases result with
  | none => exact steps_pure _
  | some qc =>
    obtain ⟨hadd, hhead⟩ := collect_some hres
    have hdid : t.Did (.assembled qc) := List.mem_of_mem_head? hhead
    have hqc : qc.height = v.height := by rw [(QCMaker.append_some hadd).2.1]; rfl
    have hrun : processQc qc t = (.ok (), t.adopt qc) := processQc_run (.inr (by omega))
    have hnext : (t.adopt qc).height = v.height + 1 := by
      have hh := collect_height (s := s) (fun a => a.addHsVote v cfg.committee) .assembled
      rw [hres] at hh
      rw [adopt_height, hh, hqc]
      omega
    have hlead : (t.adopt qc).Leads cfg := by
      unfold Leads
      rw [hnext]
      exact ensureM_ok hidx
    have hadopt : Step cfg t (t.adopt qc) :=
      .opt (.adopt hdid (by omega) ((steps_extends ht).hears hv) hqc hlead)
    refine steps_seq hrun (.single hadopt) ?_
    have hs' := steps_storeOk (ht.tail hadopt) hs
    split
    · exact hc.steps _ _ hs' hlead
    · exact chain_resetTimer fun _ => hlead
    · exact steps_pure _

theorem chain_handleSyncRequest {d : Digest} {k : PublicKey} (hs : s.StoreOk) :
    Chain cfg s (handleSyncRequest cfg d k) := by
  refine steps_self_bind ?_
  cases hget : s.store.get d with
  | none => exact steps_pure _
  | some b =>
    exact chain_transmit (step_log ⟨(hs _ _ hget).2, rfl, rfl⟩)

end Ipotane.Core
