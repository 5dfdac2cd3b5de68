import Ipotane.Core.ChainOpt

/-! The handlers of the pessimistic path as sequences of steps. -/
namespace Ipotane.Core

open Lib Handler

variable [Crypto] {cfg : Config} {call : Call → M Unit} {s t : Core} {b : Block}

theorem step_pesLog {x : Event} (ha : s.PesActive cfg) (h : s.PesLog cfg x) :
    Step cfg s (s.log x) := .pes ha (.log h)

theorem steps_pesActive (h : Relation.ReflTransGen (Step cfg) s t) (ha : s.PesActive cfg) :
    t.PesActive cfg := (steps_extends h).pesActive ha

theorem Alike.extends (h : Alike s t) : Extends s t := ⟨h.epoch, h.trace ▸ List.suffix_rfl⟩

/-- A quiet update in front of the rest of a handler. -/
theorem chain_quiet_bind {α : Type} {f : Core → Core} {k : Unit → M α} (h : Alike s (f s))
    (hk : Chain cfg (f s) (k ())) : Chain cfg s (update f >>= k) :=
  steps_update_bind (.opt (.quiet h)) hk

/-- The same, for a rest that only needs to know that the update was quiet, and what it has done. -/
theorem chain_quiet_with {α : Type} {f : Core → Core} {k : Unit → M α} {P : Core → Prop}
    (h : Alike s (f s)) (hp : P (f s)) (hk : ∀ t, Alike s t → P t → Chain cfg t (k ())) :
    Chain cfg s (update f >>= k) :=
  chain_quiet_bind h (hk _ h hp)

theorem chain_quiet_then {α : Type} {f : Core → Core} {k : Unit → M α} (h : Alike s (f s))
    (hk : ∀ t, Alike s t → Chain cfg t (k ())) : Chain cfg s (update f >>= k) :=
  chain_quiet_bind h (hk _ h)

/-- The filter, the check and what they establish. -/
theorem chain_fallbackFilter {epoch height : ℕ} {e : ConsensusError} {k : Unit → M Unit}
    (hp : 2 ^ 64 ≤ height + 2 → s.Stops cfg .overflow)
    (hk : s.Fresh epoch height → Chain cfg s (k ())) : Chain cfg s (do
      let fresh ← fallbackMessageFilter epoch height
      let u ← ensureM (fresh = true) e
      k u) := by
  refine steps_reads_bind reads_fallbackMessageFilter (fun p h => ?_) fun fresh hfresh => ?_
  · obtain ⟨rfl, hb⟩ := fallbackMessageFilter_panic h
    exact hp hb
  refine steps_looks_bind (looks_ensureM _ _) fun _ he => ?_
  exact hk ((fallbackMessageFilter_ok hfresh).mp (ensureM_ok he))

theorem chain_smvbaFilter {epoch height : ℕ} {e : ConsensusError} {k : Unit → M Unit}
    (hp : s.epoch ≤ epoch → 2 ^ 64 ≤ height + 2 → s.Stops cfg .overflow)
    (hk : s.Fresh epoch height → Chain cfg s (k ())) :
    Chain cfg s (do
      let fresh ← smvbaMsgFilter epoch height
      let u ← ensureM (fresh = true) e
      k u) := by
  refine steps_reads_bind reads_smvbaMsgFilter (fun p h => ?_) fun fresh hfresh => ?_
  · obtain ⟨rfl, he, hb⟩ := smvbaMsgFilter_panic h
    exact hp he hb
  refine steps_looks_bind (looks_ensureM _ _) fun _ he => ?_
  exact hk ((smvbaMsgFilter_ok hfresh).mp (ensureM_ok he))

theorem chain_check {c : Prop} [Decidable c] {x : Check} {k : Unit → M Unit}
    (hk : (c → x = .ok ()) → Chain cfg s (k ())) :
    Chain cfg s (do
      let u ← when c (ofExcept x)
      k u) :=
  steps_looks_bind (looks_when (looks_ofExcept _)) fun _ hx => hk (when_ofExcept_ok hx)

/-! ### Fallback chains -/

theorem chain_generatePes (ha : s.PesActive cfg) {height round : ℕ} {qc : Option QC}
    (hb : ∀ payload t, Alike s t → t.Continues cfg
      (Block.new (qc.getD .genesis) cfg.name height t.epoch round payload PES)) :
    Chain cfg s (generateProposal cfg height round qc PES) :=
  chain_generateProposal fun payload _ ht =>
    step_pesLog (ht.extends.pesActive ha) ⟨⟨rfl, rfl, rfl, rfl⟩, hb payload _ ht⟩

theorem chain_invokeFallback (hc : Sound cfg call) (hs : s.StoreOk) (ha : s.PesActive cfg)
    {height : ℕ} {qc : Option QC} (hq : s.Starts (qc.getD .genesis)) :
    Chain cfg s (invokeFallback cfg call height qc) := by
  refine steps_self_bind (steps_ite (fun _ => steps_pure _) fun hn => ?_)
  have hr := alike_requests (s := s) (s.requests + 1)
  let b := Block.new (qc.getD .genesis) cfg.name height s.epoch 1 (cfg.payload s.requests) PES
  let u : Core := { s with requests := s.requests + 1 }
  have hstart : u.Starts b.qc := by
    cases hq with
    | genesis h => exact .genesis h
    | high h => exact .high h
    | block h hq => exact .block h hq
  have hfork : Step cfg u (u.fork b) :=
    .pes (hr.extends.pesActive ha)
      (.fork ⟨rfl, rfl, rfl, rfl⟩ hstart rfl (Bool.eq_false_of_not_eq_true hn))
  have hext : Extends s (u.fork b) := hr.extends.trans hfork.extends
  refine steps_of_run (t := u.fork b) (y := call (.broadcastFallbackPropose b)) rfl
    (.tail (.single (.opt (.quiet hr))) hfork) ?_
  exact hc.steps _ _ (hs.of_store hext rfl) ⟨hext.pesActive ha, rfl, Nat.one_pos, rfl⟩

theorem alike_smvbaIsInvoke {m : Map ℕ Bool}
    (h : ∀ k, s.smvbaIsInvoke.getD k false = true → m.getD k false = true) :
    Alike s { s with smvbaIsInvoke := m } := by
  constructor
  case smvbaIsInvoke => exact h
  all_goals simp

theorem alike_seen (height : ℕ) :
    Alike s { s with smvbaIsInvoke := s.smvbaIsInvoke.orInsert height false } := by
  refine alike_smvbaIsInvoke fun k hk => ?_
  rwa [Map.getD_orInsert]

theorem alike_invoked (height : ℕ) :
    Alike s { s with smvbaIsInvoke := s.smvbaIsInvoke.insert height true } := by
  refine alike_smvbaIsInvoke fun k hk => ?_
  rw [Map.getD_insert]
  split
  · rfl
  · exact hk

theorem chain_broadcastFallbackPropose (hc : Sound cfg call) (hs : s.StoreOk)
    (ha : s.PesActive cfg) (ht : b.tag = PES) (hr : 0 < b.round)
    (hb : s.trace.head? = some (s.epoch, .sign (.block b))) :
    Chain cfg s (broadcastFallbackPropose cfg call b) := by
  have hq := alike_seen (s := s) b.height
  have ha' := hq.extends.pesActive ha
  have hdid : s.Did (.sign (.block b)) := List.mem_of_mem_head? hb
  refine chain_quiet_bind hq (steps_self_bind (steps_ite (fun _ => steps_pure _) fun hn => ?_))
  have hn' := Bool.eq_false_of_not_eq_true hn
  refine steps_bind (chain_transmit
    (step_pesLog ha' ⟨⟨hq.extends.did hdid, ht, hr, hn', hb⟩, rfl, rfl⟩))
    fun _ u hu htu => ?_
  refine hc.steps _ _ (steps_storeOk htu (hs.of_store hq.extends rfl)) ?_
  refine ⟨steps_pesActive htu ha', .own ?_,
    .own ((hq.extends.trans (steps_extends htu)).did hdid)⟩
  rw [transmit_ok hu]
  exact List.mem_cons_self

theorem chain_extendFallback (hc : Sound cfg call) (hs : s.StoreOk) (ha : s.PesActive cfg)
    {qc : QC} (hq : s.trace.head? = some (s.epoch, .assembledFallback qc))
    (hf : s.height < qc.height + 2) : Chain cfg s (extendFallback cfg call qc) := by
  have hdid : s.Did (.assembledFallback qc) := List.mem_of_mem_head? hq
  have hk : Step cfg s (s.extend qc) := .pes ha (.extend hdid)
  have ha' := hk.extends.pesActive ha
  have hs' : (s.extend qc).StoreOk := hs.of_store hk.extends rfl
  refine steps_update_bind hk (steps_ite (fun hp => ?_) fun _ => steps_pure _)
  refine steps_ite (fun hl => ?_) fun _ => steps_ite (fun hr => ?_) fun _ => steps_pure _
  · refine chain_add_bind (fun hb => .length (by omega)) fun _ => ?_
    refine steps_bind (chain_generatePes ha' fun payload t ht => ?_) fun b t hb ht => ?_
    · refine .next ?_ rfl rfl hl hp
      rw [ht.trace, ht.epoch]
      exact hq
    · obtain ⟨⟨payload, hnew⟩, hsign, -⟩ := generateProposal_ok hb
      refine hc.steps _ _ (steps_storeOk ht hs') ⟨steps_pesActive ht ha', ?_, ?_, hsign⟩
      · rw [hnew]
        rfl
      · rw [hnew]
        exact Nat.succ_pos _
  · exact hc.steps _ _ hs' ⟨ha', .pes (hk.extends.did hdid) rfl hr hf⟩

theorem chain_handleFallbackVote {v : HVote} (hc : Sound cfg call) (hs : s.StoreOk)
    (ha : s.PesActive cfg) (hv : s.Hears (.FBVote v)) :
    Chain cfg s (handleFallbackVote cfg call v) := by
  refine chain_fallbackFilter (.message hv List.mem_cons_self) fun hf => chain_check fun hver => ?_
  have hstep : Step cfg s
      (collect (fun a => a.addFallbackVote v cfg.committee) .assembledFallback s).2 :=
    .pes ha (.countFallback ⟨hv, hf, hver⟩)
  refine steps_bind (chain_collect hstep) fun result t hres ht => ?_
  cases result with
  | none => exact steps_pure _
  | some qc =>
    obtain ⟨hadd, hdid⟩ := collect_some hres
    have hqc : qc.height = v.height := by rw [(QCMaker.append_some hadd).2.1]; rfl
    have hh : t.height = s.height := by
      have := collect_height (s := s)
        (fun a => a.addFallbackVote v cfg.committee) .assembledFallback
      rwa [hres] at this
    refine chain_extendFallback hc (steps_storeOk ht hs) (steps_pesActive ht ha) hdid ?_
    rw [hh, hqc]
    exact hf.2

theorem chain_handleFallbackPropose (hc : Sound cfg call) (hs : s.StoreOk)
    (ha : s.PesActive cfg) (hb : s.Did (.receive (.FBPropose b))) :
    Chain cfg s (handleFallbackPropose cfg call b) := by
  refine chain_fallbackFilter (.message (.inl hb) List.mem_cons_self) fun hf =>
    chain_check fun hver => steps_self_bind ?_
  refine steps_ite (fun hgt => ?_) fun hle => ?_
  · exact steps_update_bind (.pes ha (.buffer hb hgt (.inl ⟨b, rfl, rfl⟩))) (steps_fail _)
  · refine steps_bind (chain_mempoolVerify (fun t ht => ?_) fun t ht => ?_) fun ok t hok ht => ?_
    · exact step_pesLog (ht.extends.pesActive ha) (.inl (.inl (ht.extends.did hb)))
    · exact step_pesLog (ht.extends.pesActive ha) (.inl ⟨rfl, .inl (ht.extends.did hb), hver⟩)
    · refine steps_ite (fun htrue => ?_) fun _ => steps_pure _
      subst htrue
      have hext := steps_extends ht
      refine hc.steps _ _ (steps_storeOk ht hs) ⟨steps_pesActive ht ha,
        .peer (hext.did hb) ?_, .accepted (mempoolVerify_ok hok)⟩
      rw [hext.epoch]
      omega

theorem chain_makeFallbackVote (ha : s.PesActive cfg) (hb : s.Did (.store b)) (hf : s.Fallen b)
    (hp : 2 ^ 64 ≤ b.height + 2 → s.Stops cfg .overflow) :
    Chain cfg s (makeFallbackVote cfg b) := by
  refine steps_self_bind (chain_add_bind hp fun _ => ?_)
  refine steps_ite (fun _ => steps_pure _) fun hlt => ?_
  exact steps_update_bind (step_pesLog ha ⟨b, rfl, hb, hf, by omega⟩) (steps_pure _)

theorem makeFallbackVote_some {v : HVote} (h : makeFallbackVote cfg b s = (.ok (some v), t)) :
    v.tag = PES ∧ v.proposer = b.author ∧ t.Did (.sign (.vote v)) := by
  obtain ⟨s₁, _, h₁, h⟩ := bind_ok h
  cases h₁
  obtain ⟨n, _, h₂, h⟩ := bind_ok h
  cases (reads_add _ _).eq h₂
  split at h
  · cases h
  · cases h
    exact ⟨rfl, rfl, List.mem_cons_self⟩

theorem Fallen.hears (h : s.Fallen b) : s.Hears (.FBPropose b) ∨ s.Hears (.FBLoopBack b) := by
  cases h with
  | own h => exact .inl (.inr (.inl ⟨_, h⟩))
  | peer h _ => exact .inl (.inl h)
  | loopback h => exact .inr (.inl h)

theorem Extends.fallen (h : Extends s t) (hb : s.Fallen b) : t.Fallen b := by
  cases hb with
  | own hb => exact .own (h.did hb)
  | peer hb he => exact .peer (h.did hb) (h.epoch ▸ he)
  | loopback hb => exact .loopback (h.did hb)

theorem stops_fallen (h : s.Fallen b) (hb : 2 ^ 64 ≤ b.height + 2) : s.Stops cfg .overflow := by
  rcases h.hears with h | h
  · exact .message h List.mem_cons_self hb
  · exact .message h List.mem_cons_self hb

theorem chain_processFallbackPropose (hc : Sound cfg call) (hs : s.StoreOk)
    (ha : s.PesActive cfg) (hb : s.Fallen b) (hsup : s.Supplied b) :
    Chain cfg s (processFallbackPropose cfg call b) := by
  refine chain_fallbackFilter (stops_fallen hb) fun hf => ?_
  have hmark : Step cfg s (s.log (.graft b)) := step_pesLog ha ⟨.fallen hb, hf, hsup⟩
  have hb' := hmark.extends.fallen hb
  have hstep : Step cfg (s.log (.graft b)) ((s.log (.graft b)).insertBlock b) :=
    .pes (hmark.extends.pesActive ha) (.store ⟨.fallen hb', hf⟩ rfl)
  have ha' := (hmark.extends.trans hstep.extends).pesActive ha
  have hs' : ((s.log (.graft b)).insertBlock b).StoreOk :=
    (hs.of_store hmark.extends rfl).insertBlock b
  refine steps_update_bind hmark (steps_update_bind hstep ?_)
  refine steps_bind (chain_makeFallbackVote ha' List.mem_cons_self (hstep.extends.fallen hb')
    (stops_fallen (hstep.extends.fallen hb'))) fun vote t hvote ht => ?_
  cases vote with
  | none => exact steps_pure _
  | some v =>
    obtain ⟨htag, hproposer, hsign⟩ := makeFallbackVote_some hvote
    have haddr : addressee (.FBVote v) = some b.author := congrArg some hproposer
    have ha₂ := steps_pesActive ht ha'
    refine steps_ite (fun hown => ?_) fun _ => ?_
    · have hkeep : Step cfg t (t.log (.keep (.FBVote v))) :=
        step_pesLog ha₂ ⟨⟨hsign, htag⟩, haddr.trans (congrArg some hown)⟩
      refine steps_update_bind hkeep ?_
      refine hc.steps _ _ (steps_storeOk (ht.tail hkeep) hs') ?_
      exact ⟨hkeep.extends.pesActive ha₂, .inr (.inr List.mem_cons_self)⟩
    · exact chain_transmit (step_pesLog ha₂ ⟨⟨hsign, htag⟩, rfl, haddr.symm⟩)

/-! ### Prepares -/

theorem chain_activePreparePhase (hc : Sound cfg call) (hs : s.StoreOk) (ha : s.PesActive cfg)
    {height val : ℕ} {qc : QC} (hp : s.PrepareCause cfg height qc val) :
    Chain cfg s (activePreparePhase cfg call height qc val) := by
  refine steps_self_bind (steps_ite (fun _ => steps_pure _) fun hn => ?_)
  have hstep : Step cfg s (s.signPrepare (PrePare.new cfg.name s.epoch height qc val)) :=
    .pes ha (.prepare hp (by simpa using hn))
  have ha' := hstep.extends.pesActive ha
  refine steps_update_bind hstep ?_
  refine steps_bind (chain_transmit (step_pesLog ha' ⟨List.mem_cons_self, rfl, rfl⟩))
    fun _ t hsend ht => ?_
  refine hc.steps _ _ (steps_storeOk ht (hs.of_store hstep.extends rfl)) ?_
  refine ⟨steps_pesActive ht ha', .inr (.inl ⟨PES, ?_⟩)⟩
  rw [transmit_ok hsend]
  exact List.mem_cons_self

theorem Extends.countable {p : PrePare} (h : Extends s t) (hh : t.height = s.height)
    (hp : s.Countable cfg p) : t.Countable cfg p :=
  ⟨h.hears hp.hears, hp.epoch.trans h.epoch.symm, hh ▸ hp.fresh, hp.checked⟩

theorem chain_fastCommit (hc : Sound cfg call) (hs : s.StoreOk) (ha : s.PesActive cfg)
    {p : PrePare} (hp : s.Countable cfg p) (hv : p.val = OPT)
    (hq : (s.parPrepareOpts.getD p.height []).length = cfg.committee.quorumThreshold) :
    Chain cfg s (fastCommit call p) := by
  refine steps_self_bind ?_
  cases hget : s.store.get p.qc.hash with
  | none => exact steps_pure _
  | some b =>
    obtain ⟨hd, hst⟩ := hs _ _ hget
    refine steps_when fun hl => chain_commitAndSend hc hs (.inl hst) fun marks => ?_
    have hext := extends_marked (s := s) marks
    exact .pes (hext.pesActive ha) (.fastCommit (hext.ever hst) hd (hext.countable rfl hp) hv hq hl)

theorem fastCommit_height (hc : Sound cfg call) (hs : s.StoreOk) {p : PrePare} {u : Unit}
    (h : fastCommit call p s = (.ok u, t)) : t.height = s.height := by
  obtain ⟨s₁, _, h₁, h⟩ := bind_ok h
  cases h₁
  cases hget : s.store.get p.qc.hash with
  | none =>
    rw [hget] at h
    cases h
    rfl
  | some b =>
    rw [hget] at h
    obtain ⟨-, hst⟩ := hs _ _ hget
    dsimp only at h
    unfold when at h
    split at h
    · rcases commitAndSend_cases hc hs (.fastPath p) (.inl hst) with hx | ⟨marks, -, hx⟩
      · rw [h] at hx
        cases hx
      · rw [h] at hx
        cases hx
        rfl
    · cases h
      rfl

theorem chain_countOptPrepare (hc : Sound cfg call) (hs : s.StoreOk) (ha : s.PesActive cfg)
    {p : PrePare} (hp : s.Countable cfg p) (hv : p.val = OPT) :
    Chain cfg s (countOptPrepare cfg call p) := by
  refine steps_self_bind (steps_looks_bind (looks_ensureM _ _) fun _ hkey => ?_)
  have hstep : Step cfg s (s.putOpt p) := .pes ha (.putOpt hp hv (ensureM_ok hkey))
  have hext := hstep.extends
  have hs' : (s.putOpt p).StoreOk := hs.of_store hext rfl
  have hp' : (s.putOpt p).Countable cfg p := hext.countable rfl hp
  refine steps_update_bind hstep ?_
  refine steps_bind (steps_when fun hq => ?_) fun _ t hdone ht => ?_
  · refine steps_bind (chain_fastCommit hc hs' (hext.pesActive ha) hp' hv ?_) fun _ t hfast ht => ?_
    · simpa [putOpt, Map.getD_insert] using hq
    · refine steps_when fun hh => steps_self_bind (steps_update ?_)
      have hext' := hext.trans (steps_extends ht)
      exact .pes (hext'.pesActive ha)
        (.terminate (.inr ⟨p, rfl,
          hext'.countable (fastCommit_height (s := s.putOpt p) hc hs' hfast) hp, by omega⟩))
  · refine hc.steps _ _ (steps_storeOk ht hs')
      ⟨steps_pesActive ht (hext.pesActive ha), ?_, .inl rfl, fun hne => absurd rfl hne⟩
    have hh : t.height = s.height := by
      unfold when at hdone
      split at hdone
      · obtain ⟨_, u, hfast, hdone⟩ := bind_ok hdone
        have hu : u.height = s.height := fastCommit_height (s := s.putOpt p) hc hs' hfast
        split at hdone
        · cases hdone
          exact hu
        · cases hdone
          exact hu
      · cases hdone
        rfl
    rw [hh]
    exact hp.fresh

theorem alike_fallbackHighQc (key : ℕ × ℕ) :
    Alike s { s with fallbackHighQc := s.fallbackHighQc.orInsert key none } := by
  constructor <;> simp

theorem chain_countPesPrepare (hc : Sound cfg call) (hs : s.StoreOk) (ha : s.PesActive cfg)
    {p : PrePare} (hp : s.Countable cfg p) (hv : p.val = PES) :
    Chain cfg s (countPesPrepare cfg call p) := by
  refine steps_self_bind (steps_looks_bind (looks_ensureM _ _) fun _ hkey => ?_)
  have hstep : Step cfg s (s.putPes p) := .pes ha (.putPes hp hv (ensureM_ok hkey))
  refine steps_update_bind hstep (steps_when fun hq => ?_)
  have hk := alike_fallbackHighQc (s := s.putPes p) (p.height, cfg.parameters.fallbackLength)
  have hext := hstep.extends.trans hk.extends
  refine chain_quiet_bind hk (steps_self_bind ?_)
  split
  · rename_i q hget
    refine hc.steps _ _ (hs.of_store hext rfl)
      ⟨hext.pesActive ha, hp.fresh, .inr ⟨rfl, ?_, hq⟩, fun _ => ⟨q, rfl, hget⟩⟩
    simp [Map.getD_insert]
  · exact steps_pure _

theorem chain_handleParPrepare (hc : Sound cfg call) (hs : s.StoreOk) (ha : s.PesActive cfg)
    {p : PrePare} (hp : s.Hears (.ParPrePare p)) : Chain cfg s (handleParPrepare cfg call p) := by
  refine steps_self_bind (steps_looks_bind (looks_ensureM _ _) fun _ hep => ?_)
  have hsum : p.height + 2 ∈ (ConsensusMessage.ParPrePare p).sums s.epoch := by
    rw [ConsensusMessage.sums, if_pos (ensureM_ok hep)]
    exact List.mem_cons_self
  refine chain_add_bind (.message hp hsum) fun _ => ?_
  refine steps_looks_bind (looks_ensureM _ _) fun _ hfresh => chain_check fun hver => ?_
  have hcount : s.Countable cfg p := ⟨hp, ensureM_ok hep, ensureM_ok hfresh, hver⟩
  have hk : Alike s { s with
      parPrepareOpts := s.parPrepareOpts.orInsert p.height []
      parPreparePess := s.parPreparePess.orInsert p.height [] } := by
    constructor <;> simp
  refine chain_quiet_bind hk ?_
  have ha' := hk.extends.pesActive ha
  have hs' := hs.of_store hk.extends rfl
  have hp' := hk.extends.countable hk.height hcount
  refine steps_ite (fun hv => ?_) fun _ => steps_ite (fun hv => ?_) fun _ => steps_fail _
  · exact chain_countOptPrepare hc hs' ha' hp' hv
  · exact chain_countPesPrepare hc hs' ha' hp' hv

end Ipotane.Core
