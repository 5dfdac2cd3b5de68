import Ipotane.Core.ChainPes

/-! The handlers of the multi-valued agreement as sequences of steps. -/
namespace Ipotane.Core

open Lib Handler

variable [Crypto] {cfg : Config} {call : Call → M Unit} {s t : Core} {v : SPBValue} {p : SPBProof}

theorem Extends.spbSource (h : Extends s t) (hv : s.SpbSource cfg v p) : t.SpbSource cfg v p := by
  cases hv with
  | own hd => exact .own (h.did hd)
  | peer hd he hver => exact .peer (h.did hd) (he.trans h.epoch.symm) hver

theorem Extends.doneCause {height round : ℕ} (h : Extends s t) (hd : s.DoneCause height round) :
    t.DoneCause height round := by
  rcases hd with ⟨v, p, hd, hk⟩ | ⟨m, hm, hk⟩
  · exact .inl ⟨v, p, h.did hd, hk⟩
  · exact .inr ⟨m, h.hears hm, hk⟩

theorem Extends.output {b : Block} (h : Extends s t) (hb : s.Output b) : t.Output b := by
  rcases hb with ⟨m, hm, hv⟩ | hb
  · exact .inl ⟨m, h.did hm, hv⟩
  · exact .inr (h.did hb)

/-! ### Proposals -/

theorem generateProposal_backing {height round tag : ℕ} {qc : Option QC} {b : Block}
    (h : generateProposal cfg height round qc tag s = (.ok b, t)) :
    t.parPreparePess = s.parPreparePess ∧ t.spbProposes = s.spbProposes ∧
      t.fallbackHighQc = s.fallbackHighQc ∧ t.epoch = s.epoch := by
  cases h
  exact ⟨rfl, rfl, rfl, rfl⟩

theorem chain_smvbaBlock (ha : s.PesActive cfg) {height val : ℕ} {qc : Option QC}
    (hi : s.smvbaIsInvoke.getD height false = true) (hq : s.Inputs cfg height val qc) :
    Chain cfg s (smvbaBlock cfg height val qc) := by
  refine steps_ite (fun _ => steps_self_bind (steps_pure _)) fun hval => ?_
  obtain ⟨q, rfl, hget⟩ := hq hval
  refine chain_add_bind .length fun _ => chain_generatePes ha fun payload t ht => ?_
  exact .input (ht.smvbaIsInvoke _ hi) ((ht.fallbackHighQc _).trans hget) rfl

theorem smvbaBlock_ok {height val : ℕ} {qc : Option QC} {b : Block}
    (h : smvbaBlock cfg height val qc s = (.ok b, t)) :
    (b.author = cfg.name ∧ b.epoch = s.epoch ∧ b.height = height ∧
      ((val = OPT → b.tag = OPT) ∧ (val ≠ OPT → b.tag = PES))) ∧
      (val ≠ OPT → t.Did (.sign (.block b)) ∧ b.qc = qc.getD .genesis) ∧
      t.parPreparePess = s.parPreparePess ∧ t.fallbackHighQc = s.fallbackHighQc ∧
      t.epoch = s.epoch ∧ t.height = s.height ∧ t.smvbaIsInvoke = s.smvbaIsInvoke := by
  unfold smvbaBlock at h
  split at h
  · rename_i hval
    cases h
    exact ⟨⟨rfl, rfl, rfl, fun _ => rfl, fun hne => absurd hval hne⟩, fun hne => absurd hval hne,
      rfl, rfl, rfl, rfl, rfl⟩
  · rename_i hval
    obtain ⟨n, _, h₁, h⟩ := bind_ok h
    cases (reads_add _ _).eq h₁
    obtain ⟨⟨payload, rfl⟩, hsign, ha⟩ := generateProposal_ok h
    obtain ⟨hp, -, hq, he⟩ := generateProposal_backing h
    refine ⟨⟨rfl, rfl, rfl, fun ho => absurd ho hval, fun _ => rfl⟩,
      fun _ => ⟨List.mem_of_mem_head? hsign, rfl⟩, hp, hq, he, ha.height, ?_⟩
    cases h
    rfl

theorem Alike.storeOk (h : Alike s t) (hs : s.StoreOk) : t.StoreOk := hs.of_store h.extends h.store

theorem Alike.trans {u : Core} (h : Alike s t) (h' : Alike t u) : Alike s u := by
  constructor
  case smvbaDFlag => exact fun k hk => h'.smvbaDFlag k (h.smvbaDFlag k hk)
  case smvbaIsInvoke => exact fun k hk => h'.smvbaIsInvoke k (h.smvbaIsInvoke k hk)
  all_goals simp [h.store, h.height, h.epoch, h.lastVotedHeight, h.lastCommittedHeight,
    h.unhandleMessage, h.highQc, h.timer, h.aggregator, h.randomCoins, h.smvbaYFlag, h.smvbaNFlag,
    h.spbProposes, h.spbFinishs, h.spbLocks, h.smvbaHaltFalg, h.smvbaDones, h.smvbaCurrentRound,
    h.smvbaVotes, h.smvbaNoPrevotes, h.prepareTag, h.parPrepareOpts, h.parPreparePess,
    h.fallbackIsInvoke, h.fallbackHighQc, h.trace, h'.store, h'.height, h'.epoch,
    h'.lastVotedHeight, h'.lastCommittedHeight, h'.unhandleMessage, h'.highQc, h'.timer,
    h'.aggregator, h'.randomCoins, h'.smvbaYFlag, h'.smvbaNFlag, h'.spbProposes, h'.spbFinishs,
    h'.spbLocks, h'.smvbaHaltFalg, h'.smvbaDones, h'.smvbaCurrentRound, h'.smvbaVotes,
    h'.smvbaNoPrevotes, h'.prepareTag, h'.parPrepareOpts, h'.parPreparePess, h'.fallbackIsInvoke,
    h'.fallbackHighQc, h'.trace]

theorem chain_invokeSmvba (hc : Sound cfg call) (hs : s.StoreOk) (ha : s.PesActive cfg)
    {height val : ℕ} {signatures : List (PublicKey × Signature)} {qc : Option QC}
    (hf : s.height < height + 2) (hb : s.Backing cfg height val signatures)
    (hq : s.Inputs cfg height val qc) :
    Chain cfg s (invokeSmvba cfg call height val signatures qc) := by
  refine chain_quiet_then (alike_seen height) fun s₁ h₁ => ?_
  refine steps_self_bind (steps_ite (fun _ => steps_pure _) fun _ => ?_)
  refine chain_quiet_with (alike_invoked height)
    (P := fun t => t.smvbaIsInvoke.getD height false = true)
    (by simp [Map.getD_insert]) fun s₂ h₂ hi => ?_
  have h := h₁.trans h₂
  have hq' : s₂.Inputs cfg height val qc := fun hne => by
    obtain ⟨q, hqc, hget⟩ := hq hne
    exact ⟨q, hqc, (h.fallbackHighQc _).trans hget⟩
  refine steps_bind (chain_smvbaBlock (h.extends.pesActive ha) hi hq') fun b t hblock ht => ?_
  obtain ⟨⟨hauthor, hepoch, hheight, htag⟩, hsign, hpess, hfq, het, hht, hit⟩ :=
    smvbaBlock_ok hblock
  have hround : Alike t { t with
      smvbaCurrentRound := t.smvbaCurrentRound.orInsert height 1 } := by
    constructor <;> simp
  refine chain_quiet_then hround fun u hu => steps_self_bind ?_
  have hext := (steps_extends ht).trans hu.extends
  refine hc.steps _ _ (hu.storeOk (steps_storeOk ht (h.storeOk hs)))
    ⟨hext.pesActive (h.extends.pesActive ha), ?_, .init (.first ?_ ?_ htag ?_ ?_) ?_ rfl hauthor ?_⟩
  · rw [hu.height, hht, h.height]
    exact hf
  · refine hu.smvbaIsInvoke _ ?_
    change t.smvbaIsInvoke.getD b.height false = true
    rw [hheight, hit]
    exact hi
  · rcases hb with hb | ⟨hb, hsig, hlen⟩
    · exact .inl hb
    · refine .inr ⟨hb, ?_, hlen⟩
      change signatures = u.parPreparePess.getD b.height []
      rw [hu.parPreparePess, hpess, h.parPreparePess, hheight]
      exact hsig
  · intro hne
    obtain ⟨hdid, hbq⟩ := hsign hne
    obtain ⟨q, rfl, hget⟩ := hq' hne
    refine ⟨hu.extends.did hdid, ?_⟩
    change u.fallbackHighQc.getD (b.height, _) none = some b.qc
    rw [hu.fallbackHighQc, hfq, hheight, hget, hbq]
    rfl
  · change _ = u.smvbaCurrentRound.getD b.height 1
    rw [hheight]
  · simp only [initProof, hheight]
  · exact hepoch.trans hext.epoch.symm

theorem chain_smvbaRoundAdvance (hc : Sound cfg call) (hs : s.StoreOk) (ha : s.PesActive cfg)
    {m : MVote} (hf : s.height < m.height + 2) (hm : s.Did (.count m))
    (hq : (s.smvbaVotes.getD (m.height, m.round) []).length = cfg.committee.quorumThreshold) :
    Chain cfg s (smvbaRoundAdvance cfg call m.height (m.round + 1)) := by
  have hstep := Step.pes ha (.enterRound hm hq)
  have hext := hstep.extends
  refine steps_update_bind hstep (steps_self_bind ?_)
  split
  · exact steps_pure _
  · rename_i last hlast
    have hcarry : Step cfg _ _ := step_pesLog (hext.pesActive ha) (x := .carry last)
      ⟨m.height, hlast⟩
    have hext := hext.trans hcarry.extends
    refine steps_update_bind hcarry (chain_add_bind .length fun _ => ?_)
    refine steps_bind (chain_generatePes (hext.pesActive ha) fun payload t ht => ?_)
      fun b t hb ht => ?_
    · exact .again (ht.spbProposes ▸ hlast) (ht.extends.did List.mem_cons_self) rfl rfl
    obtain ⟨⟨payload, rfl⟩, hsign, halike⟩ := generateProposal_ok hb
    obtain ⟨-, hprop, -, het⟩ := generateProposal_backing hb
    refine steps_expect (hc.steps _ _ (steps_storeOk ht (hs.of_store hext rfl)) ?_)
      fun _ => .proposing
    have hlast' : t.spbProposes.get (m.height, 1) = some last := by
      rw [hprop]
      exact hlast
    have hdid : t.Did (.enterRound m.height (m.round + 1)) :=
      (steps_extends ht).did (List.mem_cons_of_mem _ (List.mem_cons_of_mem _ List.mem_cons_self))
    have hcarried : t.Did (.carry last) := (steps_extends ht).did List.mem_cons_self
    refine ⟨steps_pesActive ht (hext.pesActive ha), ?_,
      .init (.next hdid hcarried hlast' rfl rfl rfl rfl (List.mem_of_mem_head? hsign)) rfl
      rfl rfl het.symm⟩
    have hh : t.height = s.height := halike.height
    rw [hh]
    exact hf

theorem chain_broadcastPesPropose (hc : Sound cfg call) (hs : s.StoreOk) (ha : s.PesActive cfg)
    (hf : s.height < p.height + 2) (hv : s.Proposable cfg v p) :
    Chain cfg s (broadcastPesPropose cfg call v p) := by
  have hrest : ∀ {t : Core}, t.StoreOk → t.PesActive cfg → t.height < p.height + 2 →
      t.Issues cfg (.SPBPropose v p) → Chain cfg t (do
        transmit cfg (.SPBPropose v p) none PES
        call (.processSpbPropose v p)) := by
    intro t hst hat hft hi
    refine steps_bind (chain_transmit (step_pesLog hat ⟨hi, rfl, rfl⟩)) fun _ u hsend hu => ?_
    have hlog := transmit_ok hsend
    subst hlog
    exact hc.steps _ _ (steps_storeOk hu hst) ⟨steps_pesActive hu hat, hft, .own List.mem_cons_self⟩
  refine steps_when_update_bind (fun hp => ?_) fun hp => hrest hs ha hf (.inr ⟨hp, hv⟩)
  cases hv with
  | init hi hproof hphase hauthor hepoch =>
    have hstep : Step cfg s (s.propose v) := .pes ha (.propose hi hphase hauthor hepoch)
    refine ⟨hstep, hrest (hs.of_store hstep.extends rfl) (hstep.extends.pesActive ha) hf ?_⟩
    exact .inl ⟨hp, List.mem_cons_self⟩
  | lock hl hd hw hval =>
    rw [hl] at hp
    exact absurd hp (by decide)

theorem chain_handleSpbProposal (hc : Sound cfg call) (hs : s.StoreOk) (ha : s.PesActive cfg)
    (hr : s.Did (.receive (.SPBPropose v p))) : Chain cfg s (handleSpbProposal cfg call v p) := by
  refine chain_smvbaFilter (fun he => .message (.inl hr)
    (by simp [ConsensusMessage.sums, he])) fun hf =>
    chain_check fun hver => steps_self_bind ?_
  refine steps_ite (fun hgt => ?_) fun hgt => ?_
  · exact steps_update_bind (.pes ha (.buffer hr hgt (.inr ⟨v, p, rfl, rfl⟩))) (steps_fail _)
  · have he : v.block.epoch = s.epoch := by
      have := hf.1
      omega
    exact hc.steps _ _ hs ⟨ha, hf.2, .peer hr he hver⟩

theorem chain_makeSpbVote (ha : s.PesActive cfg) (hf : s.height < p.height + 2)
    (hv : s.SpbSource cfg v p) : Chain cfg s (makeSpbVote cfg v) := by
  refine steps_ite (fun _ => steps_pure _) fun _ => ?_
  exact steps_update_bind (step_pesLog ha ⟨v, p, rfl, hv, hf⟩) (steps_pure _)

theorem makeSpbVote_some {x : SPBVote} (h : makeSpbVote cfg v s = (.ok (some x), t)) :
    x = SPBVote.new v cfg.name ∧ t = s.log (.sign (.spbVote x)) := by
  unfold makeSpbVote at h
  split at h
  · cases h
  · cases h
    exact ⟨rfl, rfl⟩

theorem chain_voteSpb (hc : Sound cfg call) (hs : s.StoreOk) (ha : s.PesActive cfg)
    (hf : s.height < p.height + 2) (hv : s.SpbSource cfg v p)
    (hl : v.phase = LOCK_PHASE → s.Did (.lock v p)) : Chain cfg s (do
      match ← makeSpbVote cfg v with
      | none => pure ()
      | some vote =>
        if cfg.name = v.block.author then do
          emit (.keep (.SPBVote vote))
          call (.handleSpbVote vote)
        else transmit cfg (.SPBVote vote) (some v.block.author) PES) := by
  refine steps_bind (chain_makeSpbVote ha hf hv) fun vote t hvote ht => ?_
  cases vote with
  | none => exact steps_pure _
  | some x =>
    obtain ⟨hx, rfl⟩ := makeSpbVote_some hvote
    have hext := extends_log (s := s) (.sign (.spbVote x))
    have ha' := hext.pesActive ha
    have hi : (s.log (.sign (.spbVote x))).Issues cfg (.SPBVote x) :=
      ⟨List.mem_cons_self, v, p, hext.spbSource hv, hx, fun h => hext.did (hl h)⟩
    have haddr : addressee (.SPBVote x) = some v.block.author := by
      rw [hx]
      rfl
    refine steps_ite (fun hown => ?_) fun _ =>
      chain_transmit (step_pesLog ha' ⟨hi, rfl, haddr.symm⟩)
    have hkeep := step_pesLog (x := .keep (.SPBVote x)) ha'
      ⟨hi, haddr.trans (congrArg some hown.symm)⟩
    refine steps_update_bind hkeep ?_
    refine hc.steps _ _ ((hs.of_store hext rfl).of_store hkeep.extends rfl) ?_
    exact ⟨hkeep.extends.pesActive ha', .inr (.inr List.mem_cons_self)⟩

theorem chain_processSpbPropose (hc : Sound cfg call) (hs : s.StoreOk) (ha : s.PesActive cfg)
    (hf : s.height < p.height + 2) (hv : s.SpbSource cfg v p) :
    Chain cfg s (processSpbPropose cfg call v p) := by
  refine steps_when_update_bind (fun hl => ?_) fun hl => ?_
  · have hstep : Step cfg s (s.lock v p) := .pes ha (.lock hv hl)
    refine ⟨hstep, chain_voteSpb hc (hs.of_store hstep.extends rfl) (hstep.extends.pesActive ha)
      hf (hstep.extends.spbSource hv) fun _ => List.mem_cons_self⟩
  · exact chain_voteSpb hc hs ha hf hv fun h => absurd h hl

theorem chain_advanceSpb (hc : Sound cfg call) (hs : s.StoreOk) (ha : s.PesActive cfg)
    (hf : s.height < p.height + 2) (hp : s.Did (.proved p)) :
    Chain cfg s (advanceSpb cfg call p) := by
  refine steps_self_bind ?_
  cases hget : s.spbProposes.get (p.height, p.round) with
  | none => exact steps_crash (.proposal hp hf hget)
  | some w =>
    refine steps_ite (fun hl => ?_) fun _ => steps_ite (fun hfin => ?_) fun _ => steps_pure _
    · exact hc.steps _ _ hs ⟨ha, hf, .lock hl hp hget rfl⟩
    · refine steps_bind (chain_transmit (step_pesLog ha ⟨⟨hfin, hp, w, hget, rfl⟩, rfl, rfl⟩))
        fun _ t hsend ht => ?_
      refine hc.steps _ _ (steps_storeOk ht hs) ⟨steps_pesActive ht ha, .inr (.inl ⟨PES, ?_⟩)⟩
      rw [transmit_ok hsend]
      exact List.mem_cons_self

theorem chain_handleSpbVote (hc : Sound cfg call) (hs : s.StoreOk) (ha : s.PesActive cfg)
    {x : SPBVote} (hx : s.Hears (.SPBVote x)) : Chain cfg s (handleSpbVote cfg call x) := by
  refine chain_smvbaFilter (fun he => .message hx (by simp [ConsensusMessage.sums, he])) fun hf =>
    chain_check fun hver => ?_
  have hstep := Step.pes ha (.countSpb ⟨hx, hf, hver⟩)
  refine steps_bind (chain_collect hstep) fun result t hres ht => ?_
  cases result with
  | none => exact steps_pure _
  | some p =>
    obtain ⟨hadd, hproved⟩ := collect_some hres
    refine chain_advanceSpb hc (steps_storeOk ht hs) (steps_pesActive ht ha) ?_
      (List.mem_of_mem_head? hproved)
    have hh := collect_height (s := s) (fun a => a.addSpbVote x cfg.committee) .proved
    rw [hres] at hh
    have hp : p.height = x.height := by rw [(ProofMaker.append_some hadd).2.1]
    rw [hh, hp]
    exact hf.2

/-! ### Finishes, dones and the coin -/

theorem alike_smvbaDFlag (key : ℕ × ℕ) :
    Alike s { s with smvbaDFlag := s.smvbaDFlag.insert key true } := by
  constructor
  case smvbaDFlag =>
    intro k hk
    rw [Map.getD_insert]
    split
    · rfl
    · exact hk
  all_goals simp

theorem chain_handleSpbFinish (hc : Sound cfg call) (hs : s.StoreOk) (ha : s.PesActive cfg)
    (hm : s.Hears (.SPBFinsh v p)) : Chain cfg s (handleSpbFinish cfg call v p) := by
  refine chain_smvbaFilter (fun he => .message hm (by simp [ConsensusMessage.sums, he])) fun hf =>
    chain_check fun hver => ?_
  have hstep : Step cfg s (s.finish v p) := .pes ha (.finish ⟨hm, hf, hver⟩)
  refine steps_update_bind hstep (steps_self_bind ?_)
  refine steps_ite (fun _ => steps_pure _) fun _ => steps_ite (fun _ => ?_) fun _ => steps_pure _
  refine chain_quiet_then (alike_smvbaDFlag _) fun t ht => ?_
  have hext := hstep.extends.trans ht.extends
  refine hc.steps _ _ (ht.storeOk (hs.of_store hstep.extends rfl)) ⟨hext.pesActive ha, ?_, .inl ?_⟩
  · rw [ht.height]
    exact hf.2
  · exact ⟨v, p, ht.extends.did List.mem_cons_self, rfl, rfl⟩

theorem chain_invokeDoneAndShare (hc : Sound cfg call) (hs : s.StoreOk) (ha : s.PesActive cfg)
    {height round : ℕ} (hf : s.height < height + 2) (hd : s.DoneCause height round) :
    Chain cfg s (invokeDoneAndShare cfg call height round) := by
  refine steps_self_bind ?_
  have hshare := step_pesLog
    (x := .sign (.share (RandomnessShare.new height s.epoch round cfg.name)))
    ha ⟨hd, hf, rfl⟩
  refine steps_update_bind hshare ?_
  have ha₁ := hshare.extends.pesActive ha
  have hd₁ := hshare.extends.doneCause hd
  have hdone := step_pesLog (s := s.log _)
    (x := .sign (.done (MDoneAndShare.new cfg.name s.epoch height
    round (RandomnessShare.new height s.epoch round cfg.name)))) ha₁
    ⟨hd₁, hf, List.mem_cons_self, rfl, rfl, rfl⟩
  refine steps_update_bind hdone ?_
  have ha₂ := hdone.extends.pesActive ha₁
  refine steps_bind (chain_transmit (step_pesLog ha₂ ⟨List.mem_cons_self, rfl, rfl⟩))
    fun _ t hsend ht => ?_
  refine hc.steps _ _ (steps_storeOk ht ?_) ⟨steps_pesActive ht ha₂, .inr (.inl ⟨PES, ?_⟩)⟩
  · exact (hs.of_store hshare.extends rfl).of_store hdone.extends rfl
  · rw [transmit_ok hsend]
    exact List.mem_cons_self

theorem chain_handleSmvbaDoneWithShare (hc : Sound cfg call) (hs : s.StoreOk)
    (ha : s.PesActive cfg) {m : MDoneAndShare} (hm : s.Hears (.SPBDoneAndShare m)) :
    Chain cfg s (handleSmvbaDoneWithShare call m) := by
  refine steps_bind (hc.steps _ _ hs ⟨ha, hm⟩) fun _ t _ ht => ?_
  exact hc.steps _ _ (steps_storeOk ht hs)
    ⟨steps_pesActive ht ha, m, (steps_extends ht).hears hm, rfl⟩

theorem chain_handleSmvbaDone (hc : Sound cfg call) (hs : s.StoreOk) (ha : s.PesActive cfg)
    {m : MDoneAndShare} (hm : s.Hears (.SPBDoneAndShare m)) :
    Chain cfg s (handleSmvbaDone cfg call m) := by
  refine chain_smvbaFilter (fun he => .message hm (by simp [ConsensusMessage.sums, he])) fun hf =>
    chain_check fun hver => steps_self_bind ?_
  have hstep : Step cfg s (s.countDone m) := .pes ha (.countDone ⟨hm, hf, hver⟩)
  refine steps_update_bind hstep (steps_self_bind ?_)
  refine steps_ite (fun _ => ?_) fun _ => steps_ite (fun _ => ?_) fun _ => steps_pure _
  · refine chain_quiet_then (alike_smvbaDFlag _) fun u hu => ?_
    have hext := hstep.extends.trans hu.extends
    refine hc.steps _ _ (hu.storeOk (hs.of_store hstep.extends rfl))
      ⟨hext.pesActive ha, ?_, .inr ⟨m, hext.hears hm, rfl, rfl⟩⟩
    rw [hu.height]
    exact hf.2
  · refine chain_quiet ?_
    constructor <;> simp

theorem chain_sendHalt (hc : Sound cfg call) (hs : s.StoreOk) (ha : s.PesActive cfg)
    {leader : PublicKey} (hh : s.HaltCause leader v p) :
    Chain cfg s (sendHalt cfg call leader v p) := by
  have hsign := step_pesLog (x := .sign (.halt (MHalt.new cfg.name leader v p))) ha
    ⟨leader, v, p, rfl, hh⟩
  have ha' := hsign.extends.pesActive ha
  refine steps_update_bind hsign ?_
  refine steps_bind (chain_transmit (step_pesLog ha' ⟨List.mem_cons_self, rfl, rfl⟩))
    fun _ t hsend ht => ?_
  refine hc.steps _ _ (steps_storeOk ht (hs.of_store hsign.extends rfl))
    ⟨steps_pesActive ht ha', .inr (.inl ⟨PES, ?_⟩)⟩
  rw [transmit_ok hsend]
  exact List.mem_cons_self

theorem chain_sendPrevote (hc : Sound cfg call) (hs : s.StoreOk) (ha : s.PesActive cfg)
    {m : MPreVote} (hd : s.Did (.sign (.prevote m))) (hm : s.PrevoteCause cfg m) :
    Chain cfg s (do
      transmit cfg (.SMVBAPreVote m) none PES
      call (.handleSmvbaPrevote m)) := by
  refine steps_bind (chain_transmit (step_pesLog ha ⟨⟨hd, hm⟩, rfl, rfl⟩)) fun _ t hsend ht => ?_
  refine hc.steps _ _ (steps_storeOk ht hs) ⟨steps_pesActive ht ha, .inr (.inl ⟨PES, ?_⟩)⟩
  rw [transmit_ok hsend]
  exact List.mem_cons_self

theorem chain_actOnCoin (hc : Sound cfg call) (hs : s.StoreOk) (ha : s.PesActive cfg)
    {c : RandomCoin} (hcoin : s.Did (.coin c)) (hf : s.height < c.height + 2) :
    Chain cfg s (actOnCoin cfg call c c.height c.round) := by
  have hk : Alike s { s with spbFinishs := s.spbFinishs.orInsert (c.height, c.round) [] } := by
    constructor <;> simp
  refine chain_quiet_then hk fun s₁ h₁ => steps_self_bind ?_
  have ha₁ := h₁.extends.pesActive ha
  have hs₁ := h₁.storeOk hs
  have hcoin₁ := h₁.extends.did hcoin
  cases hfin : (s₁.spbFinishs.getD (c.height, c.round) []).lookup c.leader with
  | some x =>
    exact chain_sendHalt hc hs₁ ha₁ (.finish hcoin₁ rfl hfin)
  | none =>
    have hno := step_pesLog (x := .sign (.prevote (MPreVote.new cfg.name c.leader c.round c.height
      c.epoch .No))) ha₁ ⟨rfl, by rw [h₁.height]; exact hf⟩
    refine steps_update_bind hno ?_
    have ha₂ := hno.extends.pesActive ha₁
    have hl : ∀ {t : Core}, Alike t
      { t with spbLocks := t.spbLocks.orInsert (c.height, c.round) [] } := by
      intro t
      constructor <;> simp
    refine chain_quiet_then hl fun s₃ h₃ => steps_self_bind ?_
    have ha₃ := h₃.extends.pesActive ha₂
    have hs₃ := h₃.storeOk (hs₁.of_store hno.extends rfl)
    have hext := hno.extends.trans h₃.extends
    have hh : s₃.height < c.height + 2 := by
      have h31 : s₃.height = s₁.height := h₃.height
      rw [h31, h₁.height]
      exact hf
    cases hlock : (s₃.spbLocks.getD (c.height, c.round) []).lookup c.leader with
    | some x =>
      have hyes := step_pesLog (x :=
        .sign (.prevote (MPreVote.new cfg.name c.leader c.round c.height
        c.epoch (.Yes x.1 x.2)))) ha₃ ⟨rfl, hh⟩
      refine steps_update_bind hyes ?_
      refine chain_sendPrevote hc (hs₃.of_store hyes.extends rfl) (hyes.extends.pesActive ha₃)
        List.mem_cons_self ⟨c, hyes.extends.did (hext.did hcoin₁), hh, rfl, ?_⟩
      exact hlock
    | none =>
      refine chain_sendPrevote hc hs₃ ha₃ (h₃.extends.did List.mem_cons_self)
        ⟨c, hext.did hcoin₁, hh, rfl, ?_⟩
      exact hlock

theorem addSmvbaRandom_some {a a' : Aggregator} {x : RandomnessShare} {c : Committee}
    {coin : RandomCoin} (h : a.addSmvbaRandom x c = (.ok (some coin), a')) :
    (coin.height = x.height ∧ coin.epoch = x.epoch ∧ coin.round = x.round) ∧
      (a'.smvbaRandomcoin.getD (x.height, x.round) .new).shares = coin.shares ∧
      SMVBARandomCoinMaker.electedLeader c coin.shares = some coin.leader := by
  have hfst := congrArg Prod.fst h
  have hsnd : (a.addSmvbaRandom x c).2 = a' := congrArg Prod.snd h
  obtain ⟨hkey, hshares, hleader⟩ := SMVBARandomCoinMaker.append_some (c := c)
    (m := a.smvbaRandomcoin.getD (x.height, x.round) .new) hfst
  refine ⟨hkey, ?_, hleader⟩
  rw [← hsnd]
  simpa [Aggregator.addSmvbaRandom, Map.getD_insert] using hshares

theorem chain_handleSmvbaRs (hc : Sound cfg call) (hs : s.StoreOk) (ha : s.PesActive cfg)
    {x : RandomnessShare} (hx : ∃ m, s.Hears (.SPBDoneAndShare m) ∧ m.share = x) :
    Chain cfg s (handleSmvbaRs cfg call x) := by
  refine chain_smvbaFilter (fun he => ?_) fun hf => chain_check fun hver => steps_self_bind ?_
  · obtain ⟨m, hm, rfl⟩ := hx
    exact .message hm (by simp [ConsensusMessage.sums, he])
  refine steps_ite (fun _ => steps_pure _) fun hnone => ?_
  have hn : s.getCoinLeader x.height x.round = none := by simpa using hnone
  refine steps_ite (fun hmiss => steps_crash (.share hx hf hn hver hmiss)) fun _ => ?_
  have hcount := Step.pes ha (.countShare hx hf hn hver)
  cases hadd : s.aggregator.addSmvbaRandom x cfg.committee with
  | mk result agg =>
    rw [hadd] at hcount
    refine steps_update_bind hcount ?_
    have hext := hcount.extends
    refine steps_looks_bind (looks_ofExcept _) fun coin hcoin => ?_
    cases coin with
    | none => exact steps_pure _
    | some coin =>
      have hres : result = .ok (some coin) := by
        cases result with
        | error e => cases hcoin
        | ok c =>
          cases hcoin
          rfl
      subst hres
      obtain ⟨⟨hh, he, hr⟩, hshares, hleader⟩ := addSmvbaRandom_some hadd
      obtain ⟨m, hm, rfl⟩ := hx
      have hlearn := Step.pes (hext.pesActive ha) (.coin (c := coin)
        ⟨m, hext.hears hm, hh.symm, hr.symm, he.symm⟩ (by rw [he, hh]; exact hf)
          (by rw [hh, hr]; exact hn)
        (by rw [hh, hr]; exact hshares) hleader)
      refine steps_update_bind hlearn ?_
      have hext' := hext.trans hlearn.extends
      rw [← hh, ← hr]
      refine chain_actOnCoin hc (hs.of_store hext' rfl) (hext'.pesActive ha) List.mem_cons_self ?_
      rw [hh]
      exact hf.2

/-! ### Prevotes, votes and halts -/

theorem chain_voteOnPrevote (ha : s.PesActive cfg) {m : MPreVote}
    (hm : s.Taken cfg (.SMVBAPreVote m) m.epoch m.height
      (m.verify cfg.committee cfg.parameters.fallbackLength)) :
    Chain cfg s (voteOnPrevote cfg m) := by
  refine steps_self_bind (steps_ite (fun _ => steps_pure _) fun hflags => ?_)
  have hopen : s.Open cfg m := ⟨hm, by simp_all, by simp_all⟩
  cases htag : m.tag with
  | Yes v p =>
    dsimp only
    by_cases hv : v.phase > LOCK_PHASE
    · rw [show makeSpbVote cfg v = pure none from if_pos hv]
      exact steps_of_ok rfl (.single (.pes ha (.yes hopen htag hv)))
    · rw [show makeSpbVote cfg v = _ from if_neg hv]
      exact steps_of_ok rfl (.single (.pes ha (.voteYes hopen htag (Nat.le_of_not_lt hv))))
  | No =>
    have hcount := Step.pes ha (.countNo hopen htag)
    refine steps_update_bind hcount (steps_ite (fun hq => ?_) fun _ => steps_pure _)
    have hopen' : (s.countNo m).Open cfg m :=
      ⟨⟨hcount.extends.hears hm.hears, hm.fresh, hm.checked⟩, hopen.yes, hopen.no⟩
    have hq' : ((s.countNo m).smvbaNoPrevotes.getD (m.height, m.round) []).length =
        cfg.committee.quorumThreshold := by
      simpa [countNo, Map.getD_insert] using hq
    exact steps_update_bind (.pes (hcount.extends.pesActive ha) (.voteNo hopen' htag hq'))
      (steps_pure _)

theorem voteOnPrevote_some {m : MPreVote} {x : MVote}
    (h : voteOnPrevote cfg m s = (.ok (some x), t)) :
    t.trace.head? = some (t.epoch, .sign (.mvote x)) := by
  obtain ⟨s₁, t₁, h₁, h⟩ := bind_ok h
  cases h₁
  split at h
  · cases h
  · cases htag : m.tag with
    | Yes v p =>
      rw [htag] at h
      obtain ⟨_, _, h₂, h⟩ := bind_ok h
      cases h₂
      obtain ⟨vote, _, h₃, h⟩ := bind_ok h
      cases vote with
      | none => cases h
      | some vote =>
        cases h
        rfl
    | No =>
      rw [htag] at h
      obtain ⟨_, _, h₂, h⟩ := bind_ok h
      cases h₂
      split at h
      · cases h
        rfl
      · cases h

theorem chain_handleSmvbaPrevote (hc : Sound cfg call) (hs : s.StoreOk) (ha : s.PesActive cfg)
    {m : MPreVote} (hm : s.Hears (.SMVBAPreVote m)) :
    Chain cfg s (handleSmvbaPrevote cfg call m) := by
  refine chain_smvbaFilter (fun he => .message hm (by simp [ConsensusMessage.sums, he])) fun hf =>
    chain_check fun hver => ?_
  have hk : ∀ k, Alike s { s with
      smvbaYFlag := s.smvbaYFlag.orInsert k false
      smvbaNFlag := s.smvbaNFlag.orInsert k false } := by
    intro k
    constructor <;> simp
  refine chain_quiet_then (hk _) fun t ht => ?_
  have ha' := ht.extends.pesActive ha
  have htaken : t.Taken cfg (.SMVBAPreVote m) m.epoch m.height
      (m.verify cfg.committee cfg.parameters.fallbackLength) :=
    ⟨ht.extends.hears hm, by rwa [Fresh, ht.epoch, ht.height], hver⟩
  refine steps_bind (chain_voteOnPrevote ha' htaken) fun vote u hvote hu => ?_
  cases vote with
  | none => exact steps_pure _
  | some x =>
    have hau := steps_pesActive hu ha'
    have hsign : u.Issues cfg (.SMVBAVote x) := voteOnPrevote_some hvote
    refine steps_bind (chain_transmit (step_pesLog hau ⟨hsign, rfl, rfl⟩)) fun _ w hsend hw => ?_
    refine hc.steps _ _ (steps_storeOk hw (steps_storeOk hu (ht.storeOk hs)))
      ⟨steps_pesActive hw hau, .inr (.inl ⟨PES, ?_⟩)⟩
    rw [transmit_ok hsend]
    exact List.mem_cons_self

theorem chain_advanceOnQuorum (hc : Sound cfg call) (hs : s.StoreOk) (ha : s.PesActive cfg)
    {m : MVote} (hf : s.Fresh m.epoch m.height) (hh : s.Hears (.SMVBAVote m))
    (hm : s.Did (.count m)) {weight : ℕ}
    (hw : weight = (s.smvbaVotes.getD (m.height, m.round) []).length) :
    Chain cfg s (advanceOnQuorum cfg call m weight) := by
  refine steps_when fun hq => chain_add_bind (fun hb => ?_) fun _ => ?_
  · exact .message hh (by simp [ConsensusMessage.sums, hf.1]) hb
  exact hc.steps _ _ hs ⟨ha, hf.2, m, hm, rfl, rfl, hw.symm.trans hq⟩

theorem addPreVote_some {a : Aggregator} {x : SPBVote} {c : Committee} {p : SPBProof}
    (h : (a.addPreVote x c).1 = .ok (some p)) : p.height = x.height ∧ p.round = x.round := by
  obtain ⟨-, hp, -⟩ := ProofMaker.append_some (c := c) (v := x)
    (m := a.preVotes.getD (x.height, x.round) .new) h
  rw [hp]
  exact ⟨rfl, rfl⟩

theorem collect_smvbaVotes {α : Type} (add : Aggregator → Appended α Aggregator)
    (mark : α → Event) : (collect add mark s).2.smvbaVotes = s.smvbaVotes := by
  unfold collect
  split <;> rfl

theorem chain_handleSmvbaMvote (hc : Sound cfg call) (hs : s.StoreOk) (ha : s.PesActive cfg)
    {m : MVote} (hm : s.Hears (.SMVBAVote m)) : Chain cfg s (handleSmvbaMvote cfg call m) := by
  refine chain_smvbaFilter (fun he => .message hm (by simp [ConsensusMessage.sums, he])) fun hf =>
    chain_check fun hver => steps_self_bind ?_
  have hstep : Step cfg s (s.countMvote m) := .pes ha (.countMvote ⟨hm, hf, hver⟩)
  refine steps_update_bind hstep ?_
  have ha' := hstep.extends.pesActive ha
  have hs' := hs.of_store hstep.extends rfl
  have hcount : (s.countMvote m).Did (.count m) := List.mem_cons_self
  have hlen : ((s.smvbaVotes.getD (m.height, m.round) []).insert m.author).length =
      ((s.countMvote m).smvbaVotes.getD (m.height, m.round) []).length := by
    simp [countMvote, Map.getD_insert]
  cases htag : m.tag with
  | No => exact chain_advanceOnQuorum hc hs' ha' hf (hstep.extends.hears hm) hcount hlen
  | Yes v q x =>
    have hpre := Step.pes ha' (.countPre hcount htag)
    refine steps_bind (chain_collect hpre) fun result t hres ht => ?_
    cases result with
    | some p =>
      obtain ⟨hadd, hhead⟩ := collect_some hres
      have hproved : t.Did (.finProved p) := List.mem_of_mem_head? hhead
      obtain ⟨hh, hr⟩ := addPreVote_some hadd
      exact chain_sendHalt hc (steps_storeOk ht hs') (steps_pesActive ht ha')
        (.votes ((steps_extends ht).did hcount) htag rfl hproved hh hr)
    | none =>
      have hext := steps_extends ht
      have hf' : t.Fresh m.epoch m.height := by
        have h := collect_height (s := s.countMvote m)
          (fun a => a.addPreVote x cfg.committee) .finProved
        have hh : t.height = s.height := (congrArg (fun r => r.2.height) hres).symm.trans h
        have he : t.epoch = s.epoch := hext.epoch
        unfold Fresh
        rw [he, hh]
        exact hf
      refine chain_advanceOnQuorum hc (steps_storeOk ht hs') (steps_pesActive ht ha') hf'
        ((hstep.extends.trans hext).hears hm) (hext.did hcount) ?_
      have hvotes : t.smvbaVotes = (s.countMvote m).smvbaVotes := by
        have h := collect_smvbaVotes (s := s.countMvote m) (fun a => a.addPreVote x cfg.committee)
          .finProved
        exact (congrArg (fun r => r.2.smvbaVotes) hres).symm.trans h
      rw [hvotes]
      exact hlen

theorem chain_handleSmvbaHalt (hc : Sound cfg call) (hs : s.StoreOk) (ha : s.PesActive cfg)
    {m : MHalt} (hm : s.Hears (.SMVBAHalt m)) : Chain cfg s (handleSmvbaHalt cfg call m) := by
  refine chain_smvbaFilter (fun he => .message hm (by simp [ConsensusMessage.sums, he])) fun hf =>
    chain_check fun hver => steps_self_bind ?_
  refine steps_ite (fun _ => steps_pure _) fun hl => ?_
  have hk : Alike s { s with smvbaHaltFalg := s.smvbaHaltFalg.orInsert m.height false } := by
    constructor <;> simp
  refine chain_quiet_then hk fun t ht => steps_self_bind ?_
  refine steps_ite (fun _ => steps_pure _) fun hflag => ?_
  have ha' := ht.extends.pesActive ha
  have htaken : t.Taken cfg (.SMVBAHalt m) m.epoch m.height
      (m.verify cfg.committee cfg.parameters.fallbackLength) :=
    ⟨ht.extends.hears hm, by rwa [Fresh, ht.epoch, ht.height], hver⟩
  have hleader : t.getCoinLeader m.height m.round = some m.value.block.author := by
    rw [getCoinLeader, ht.randomCoins]
    exact not_not.mp hl
  have hstep : Step cfg t (t.halt m) := .pes ha' (.halt htaken hleader (by simpa using hflag))
  refine steps_update_bind hstep ?_
  have hout : (t.halt m).Output m.value.block := .inl ⟨m, List.mem_cons_self, rfl⟩
  have ha₂ := hstep.extends.pesActive ha'
  refine steps_bind (chain_mempoolVerify (fun u hu => ?_) fun u hu => ?_) fun ok u hok hu => ?_
  · exact step_pesLog (hu.extends.pesActive ha₂) (.inr (hu.extends.output hout))
  · exact step_pesLog (hu.extends.pesActive ha₂)
      (.inr ⟨rfl, m, hu.extends.did List.mem_cons_self, rfl⟩)
  · refine steps_ite (fun htrue => ?_) fun _ => steps_pure _
    subst htrue
    exact hc.steps _ _ (steps_storeOk hu ((ht.storeOk hs).of_store hstep.extends rfl))
      ⟨steps_pesActive hu ha₂, (steps_extends hu).output hout, .accepted (mempoolVerify_ok hok)⟩

/-! ### The output -/

theorem chain_commitParOut (hc : Sound cfg call) (hs : s.StoreOk) (ha : s.PesActive cfg)
    {b : Block} (hb : s.Output b) (hsup : s.Supplied b) (hf : s.Fresh b.epoch b.height)
    (ht : b.tag ≠ OPT) : Chain cfg s (commitParOut call b) := by
  have hmark : Step cfg s (s.log (.graft b)) := step_pesLog ha ⟨.output hb ht, hf, hsup⟩
  have hb' := hmark.extends.output hb
  generalize hm : s.log (.graft b) = m at hmark hb'
  have hfm : m.Fresh b.epoch b.height := by rw [← hm]; exact hf
  have hstep : Step cfg m (m.insertBlock b) :=
    .pes (hmark.extends.pesActive ha) (.store ⟨.output hb' ht, hfm⟩ (by rw [← hm]; rfl))
  have hstored : (m.insertBlock b).Did (.store b) := List.mem_cons_self
  have ha' := (hmark.extends.trans hstep.extends).pesActive ha
  have hs' : (m.insertBlock b).StoreOk :=
    (hs.of_store hmark.extends (by rw [← hm]; rfl)).insertBlock b
  refine steps_update_bind (by rw [hm]; exact hmark) ?_
  rw [hm]
  refine steps_update_bind hstep (steps_self_bind (steps_ite (fun hl => ?_) fun _ => ?_))
  · refine steps_bind (chain_commitAndSend hc hs' (.inl hstored.ever) fun marks => ?_)
      fun _ u _ hu => ?_
    · have hext := extends_marked (s := m.insertBlock b) marks
      exact .pes (hext.pesActive ha') (.outputCommit (hext.did hstored)
        (hext.output (hstep.extends.output hb')) ht hfm hl)
    · refine steps_ite (fun _ => steps_fail _) fun _ => ?_
      exact steps_update (step_pesLog (steps_pesActive hu ha')
        ((steps_extends hu).ever hstored.ever))
  · exact steps_update (step_pesLog ha' hstored.ever)

theorem chain_processParOut (hc : Sound cfg call) (hs : s.StoreOk) (ha : s.PesActive cfg)
    {b : Block} (hb : s.Output b) (hsup : s.Supplied b) : Chain cfg s (processParOut call b) := by
  refine steps_self_bind (steps_ite (fun _ => steps_pure _) fun he => ?_)
  refine chain_add_bind (.output hb (by omega)) fun hbound => ?_
  refine steps_ite (fun _ => steps_pure _) fun hh => steps_ite (fun _ => ?_) fun ht => ?_
  · exact chain_add_bind (fun hb => absurd hb (by omega)) fun _ => hc.steps _ _ hs
      ⟨ha, .genesis rfl⟩
  · exact chain_commitParOut hc hs ha hb hsup ⟨by omega, by omega⟩ ht

end Ipotane.Core
