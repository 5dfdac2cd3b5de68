import Ipotane.FastPath
import Ipotane.Lib.Election
import Ipotane.Votes

/-! The blocks that the optimistic rules commit in the combined protocol, with up to `f` of the
stake faulty. -/
namespace Ipotane

open Lib Handler

section Agreement

variable [Crypto] {S : Setup} {c : Committee} {honest : PublicKey → Prop}
  {foreign : Cores → ConsensusMessage → Prop} {w : World} {σ : Cores} {b : Block}
  {q : QC} {d : Digest} {e h : ℕ}

/-! ### Elections -/

/-- Node `k` has signed an optimistic vote for the digest, of an epoch and a height. -/
def Voted (σ : Cores) (k : PublicKey) (position : ℕ × ℕ) (d : Digest) : Prop :=
  ∃ v, (σ k).Ever (.sign (.vote v)) ∧ v.tag = OPT ∧ (v.epoch, v.height) = position ∧ v.hash = d

/-- The honest members of a quorum have voted for the digest. -/
abbrev Chosen (c : Committee) (honest : PublicKey → Prop) (σ : Cores) : ℕ × ℕ → Digest → Prop :=
  Elected c.names c.stake c.quorumThreshold honest (Voted σ)

/-- An honest node has voted for the block `d'`, which is on top of `d`. -/
def Links (honest : PublicKey → Prop) (σ : Cores) (d d' : Digest) : Prop :=
  ∃ k b, honest k ∧ (σ k).Ever (.endorse b) ∧ b.digest = d' ∧ b.parent = d

/-- What a node takes for granted: a block that is handed back is of its epoch, the block that it
processes is on the genesis block or on a certificate of optimistic votes of the same epoch, and so
is the certificate in the prepare that completes a quorum. -/
def Orthodox (c : Committee) : ℕ × Event → Prop
  | (_, .process b _) =>
    b.qc = .genesis ∨ (b.qc.verify c = .ok () ∧ b.qc.tag = OPT ∧ b.qc.epoch = b.epoch)
  | (_, .commit _ (.fastPath p)) => p.qc.tag = OPT ∧ (p.qc.isGenesis → p.qc.verify c = .ok ())
  | x => Core.Prompt x

instance (c : Committee) (x : ℕ × Event) : Decidable (Orthodox c x) := by
  obtain ⟨_, x⟩ := x
  unfold Orthodox
  rcases x
  case commit b rule => rcases rule <;> infer_instance
  all_goals infer_instance

/-- The primitives do what they are there for on the certificates and on the blocks of
honest nodes. -/
structure Secure (honest : PublicKey → Prop) (σ : Cores) : Prop where
  processed : ∀ k b height, honest k → (σ k).Ever (.process b height) → b.qc.Genuine honest σ
  completed : ∀ k b p, honest k → (σ k).Ever (.commit b (.fastPath p)) → p.qc.Genuine honest σ
  stored : ∀ k b, honest k → (σ k).Ever (.store b) → b.Distinct honest σ

/-- What is to be evaluated when the honest nodes are listed. -/
def secureAmong (l : List PublicKey) (σ : Cores) : Bool :=
  l.all fun k => (σ k).trace.all fun x =>
    match x.2 with
    | .process b _ => b.qc.GenuineAmong l σ
    | .commit _ (.fastPath p) => p.qc.GenuineAmong l σ
    | .store b => b.distinctAmong l σ
    | _ => true

theorem secure_of_among {l : List PublicKey} (h : secureAmong l σ = true) : Secure (· ∈ l) σ := by
  have hx : ∀ {k e y}, k ∈ l → (e, y) ∈ (σ k).trace → _ := fun hk hy =>
    List.all_eq_true.mp (List.all_eq_true.mp h _ hk) _ hy
  refine ⟨?_, ?_, ?_⟩
  · rintro k b height hk ⟨e, hb⟩
    exact (of_decide_eq_true (hx hk hb)).genuine
  · rintro k b p hk ⟨e, hb⟩
    exact (of_decide_eq_true (hx hk hb)).genuine
  · rintro k b hk ⟨e, hb⟩
    exact Block.distinct_of_among (hx hk hb)

namespace Core

variable {cfg : Config} {s : Core} {alive : Bool}

/-- What comes before a vote. -/
theorem Reachable.endorsed (h : Reachable cfg s alive) (hb : s.Ever (.endorse b)) :
    (∃ height, s.Ever (.process b height)) ∧ b.qc.height + 1 = b.height := by
  obtain ⟨e, hb⟩ := hb
  refine h.caused (Q := fun u x => ∀ b, x.2 = .endorse b →
    (∃ height, u.Ever (.process b height)) ∧ b.qc.height + 1 = b.height) ?_ ?_ ?_ _ hb b rfl
  · intro u v y hsub hq b hy
    obtain ⟨⟨height, e, hp⟩, hh⟩ := hq b hy
    exact ⟨⟨height, e, hsub hp⟩, hh⟩
  · rintro u v y - hr b rfl
    cases hr with
    | opt h => exact h.elim
    | pes _ h => exact h.elim
    | endorse hp hq =>
      obtain ⟨height, hp⟩ := hp
      exact ⟨⟨height, _, hp⟩, hq⟩
  · rintro u e y ho b rfl
    exact absurd trivial ho

/-- What comes before a commit by the two-chain rule. -/
structure Precedes (s : Core) (b0 b1 b : Block) : Prop where
  processed : ∃ height, s.Ever (.process b height)
  parent : s.Parent b b1
  grandparent : s.Parent b1 b0
  consecutive : Consecutive b0 b1 b
  pos : 0 < b0.height

theorem Reachable.precedes (h : Reachable cfg s alive) {b0 b1 : Block}
    (hx : s.Ever (.commit b0 (.twoChain b1 b))) : s.Precedes b0 b1 b := by
  have hparent : ∀ {u v : Core} {x y : Block}, u.trace ⊆ v.trace → u.Parent x y → v.Parent x y := by
    rintro u v x y hsub (hg | ⟨hg, hd, e, hst⟩)
    · exact .inl hg
    · exact .inr ⟨hg, hd, e, hsub hst⟩
  obtain ⟨e, hx⟩ := hx
  refine h.caused (Q := fun u x => x.2 = .commit b0 (.twoChain b1 b) → u.Precedes b0 b1 b) ?_
    ?_ ?_ _ hx rfl
  · intro u v y hsub hq hy
    obtain ⟨⟨height, e, hp⟩, h1, h0, hc, hpos⟩ := hq hy
    exact ⟨⟨height, e, hsub hp⟩, hparent hsub h1, hparent hsub h0, hc, hpos⟩
  · rintro u v y - hr rfl
    cases hr with
    | opt h => exact h.elim
    | pes _ h => exact h.elim
    | commit hp h1 h0 hc hl =>
      obtain ⟨height, hp⟩ := hp
      exact ⟨⟨height, _, hp⟩, h1, h0, hc, by omega⟩
  · rintro u e y ho rfl
    exact absurd trivial ho

/-- The parent of a block is stored, unless it is the genesis block. -/
theorem Parent.not_genesis {p : Block} (h : s.Parent b p) (hpos : 0 < p.height) :
    ¬ b.qc.isGenesis ∧ p.digest = b.qc.hash ∧ s.Ever (.store p) := by
  rcases h with ⟨-, rfl⟩ | h
  · exact absurd hpos (Nat.lt_irrefl 0)
  · exact h

/-- A block that is committed on a prepare has been stored. -/
theorem Reachable.fast_stored (h : Reachable cfg s alive) {p : PrePare}
    (hx : s.Ever (.commit b (.fastPath p))) : s.Ever (.store b) ∧ 0 < b.height := by
  obtain ⟨e, hx⟩ := hx
  refine h.caused (Q := fun u x => x.2 = .commit b (.fastPath p) → u.Ever (.store b) ∧ 0 < b.height)
    ?_ ?_ ?_ _ hx rfl
  · intro u v y hsub hq hy
    obtain ⟨⟨e, hst⟩, hpos⟩ := hq hy
    exact ⟨⟨e, hsub hst⟩, hpos⟩
  · rintro u v y - hr rfl
    cases hr with
    | opt h => exact h.elim
    | pes _ h => exact h.elim
    | fastCommit _ hb _ _ _ _ hl _ => exact ⟨hb, by omega⟩
  · rintro u e y ho rfl
    exact absurd trivial ho

end Core

omit [Crypto] in
theorem FaultBound.weigh (hf : FaultBound c honest) :
    FaultyWeigh c.names c.stake c.maxFaulty honest :=
  fun A hA hn => hf A hA hn

omit [Crypto] in
theorem Committee.electorate (hn : c.total % 3 = 1) :
    c.names.sum c.stake + c.maxFaulty < c.quorumThreshold + c.quorumThreshold := by
  have htotal : c.names.sum c.stake = c.total := c.stakeOf_names
  rw [htotal]
  exact Committee.total_lt_two_quorums hn

/-- A valid certificate of optimistic votes elects its block. -/
theorem QC.Backed.chosen (hb : q.Backed c) (hg : q.Genuine honest σ) (ht : q.tag = OPT) :
    Chosen c honest σ (q.epoch, q.height) q.hash := by
  refine ⟨(q.votes.map Prod.fst).toFinset, hb.subset_names, hb.quorum, ?_⟩
  intro k hk hh
  obtain ⟨v, hv, hash, height, _, tag, epoch, _⟩ := hg.voted hb hh (List.mem_toFinset.mp hk)
  exact ⟨v, hv, tag.trans ht, by rw [epoch, height], hash⟩

/-! ### Runs -/

section Runs

variable (hn : S.committee.total % 3 = 1) (hf : FaultBound S.committee honest)
  (ho : ∀ k, honest k → ∀ x ∈ (w.core k).trace, Orthodox S.committee x) (hs : Secure honest w.core)

include ho in
theorem Run.votesForOne (h : Run S honest foreign w) : VotesForOne honest (Voted w.core) := by
  have hprompt : ∀ k, honest k → ∀ x ∈ (w.core k).trace, Core.Prompt x := by
    rintro k hk ⟨e, y⟩ hx
    have hy := ho k hk _ hx
    unfold Orthodox at hy
    split at hy
    · rename_i heq
      cases heq
      trivial
    · rename_i heq
      cases heq
      trivial
    · exact hy
  rintro k position d d' hk ⟨v, hv, ht, hp, rfl⟩ ⟨v', hv', ht', hp', rfl⟩
  obtain ⟨he, hh⟩ := Prod.mk.inj (hp.trans hp'.symm)
  exact ((h.reachable k).voteInv (hprompt k hk)).once v v' hv hv' ht ht' he hh

include hn hf in
/-- An honest node has voted for what is elected. -/
theorem Run.endorsed (hr : Run S honest foreign w)
    (hc : Chosen S.committee honest w.core (e, h) d) :
    ∃ k b, honest k ∧ (w.core k).Ever (.endorse b) ∧ b.digest = d ∧ b.height = h ∧ b.epoch = e := by
  obtain ⟨k, hk, ⟨v, hv, ht, hp, rfl⟩, -⟩ := hc.common hf.weigh (Committee.electorate hn) hc
  obtain ⟨he, hh⟩ := Prod.mk.inj hp
  obtain ⟨b, hb, rfl⟩ := (hr.reachable k).votesEndorse v hv ht
  exact ⟨k, b, hk, hb, rfl, hh, he⟩

include hn hf ho hs in
/-- What is elected stands on what is elected one height below. -/
theorem Run.chosen_below (hr : Run S honest foreign w) (hpos : 0 < h)
    (hc : Chosen S.committee honest w.core (e, h + 1) d) :
    ∃ d', Chosen S.committee honest w.core (e, h) d' ∧ Links honest w.core d' d := by
  obtain ⟨k, b, hk, hb, rfl, hheight, rfl⟩ := hr.endorsed hn hf hc
  obtain ⟨⟨n, e', hp⟩, hq⟩ := (hr.reachable k).endorsed hb
  rcases ho k hk _ hp with hg | ⟨hv, ht, he⟩
  · -- the genesis block is at height `0`
    have hzero : b.qc.height = 0 := by rw [hg]; rfl
    omega
  · have hbelow := (QC.verify_iff.mp hv).chosen (hs.processed k b n hk ⟨e', hp⟩) ht
    have hh : b.qc.height = h := by omega
    rw [he, hh] at hbelow
    exact ⟨b.qc.hash, hbelow, k, b, hk, hb, rfl, rfl⟩

include hn hf ho hs in
/-- Two blocks on top of each other, the upper one certified: the lower one has been elected. -/
theorem Run.chosen_grandparent (hr : Run S honest foreign w) {k : PublicKey} (hk : honest k)
    {b0 b1 : Block} (hx : (w.core k).Ever (.commit b0 (.twoChain b1 b))) :
    Chosen S.committee honest w.core (b0.epoch, b0.height) b0.digest := by
  obtain ⟨⟨n, e, hp⟩, h1, h0, hc, hpos⟩ := (hr.reachable k).precedes hx
  obtain ⟨hg0, hd0, hst0⟩ := h0.not_genesis hpos
  have hpos1 : 0 < b1.height := by
    by_contra hzero
    rcases h1 with ⟨-, rfl⟩ | ⟨hg1, -, -⟩
    · exact hg0 ⟨rfl, rfl, rfl, rfl⟩
    · have := hc.2.2.resolve_right hg1
      omega
  obtain ⟨hg1, hd1, hst1⟩ := h1.not_genesis hpos1
  obtain ⟨hh0, hh1⟩ := hc.2.2.resolve_right hg1
  -- the certificate of `b` is for `b1`
  have hroot : b.qc.verify S.committee = .ok () ∧ b.qc.tag = OPT ∧ b.qc.epoch = b.epoch := by
    rcases ho k hk _ hp with hg | hroot
    · exact absurd (by rw [hg]; exact ⟨rfl, rfl, rfl, rfl⟩) hg1
    · exact hroot
  have hchosen := (QC.verify_iff.mp hroot.1).chosen (hs.processed k b n hk ⟨e, hp⟩) hroot.2.1
  obtain ⟨j, v, hj, hv, hdv, hhv, -⟩ := hr.endorsed hn hf hchosen
  have hsame : SignedMessage.SameCovered (.block v) (.block b1) := by
    obtain ⟨hhash, hrv, hr1⟩ := hs.stored k b1 hk hst1 j v hj hv (hdv.trans hd1.symm)
    exact SignedMessage.sameCovered_of_hashed hrv hr1 hhash
  -- the node that has voted for `b1` has seen its certificate, which is for `b0`
  obtain ⟨⟨m, e', hpv⟩, hqv⟩ := (hr.reachable j).endorsed hv
  have hheight : v.height = b1.height := hsame.2.1
  have hparent : v.qc.hash = b0.digest := hsame.2.2.2.2.1.trans hd0.symm
  rcases ho j hj _ hpv with hg | ⟨hver, htag, -⟩
  · have hzero : v.qc.height = 0 := by rw [hg]; rfl
    omega
  · have hbelow := (QC.verify_iff.mp hver).chosen (hs.processed j v m hj ⟨e', hpv⟩) htag
    obtain ⟨i, u, hi, hu, hdu, hhu, heu⟩ := hr.endorsed hn hf hbelow
    obtain ⟨hhash, hru, hr0⟩ := hs.stored k b0 hk hst0 i u hi hu (hdu.trans hparent)
    have hsame0 := SignedMessage.sameCovered_of_hashed hru hr0 hhash
    have hepoch : v.qc.epoch = b0.epoch := heu.symm.trans hsame0.2.2.1
    have hh : v.qc.height = b0.height := hhu.symm.trans hsame0.2.1
    rwa [hepoch, hh, hparent] at hbelow

include hn hf ho hs in
theorem Run.chosen_prepared (hexp : S.parameters.exp = 1) (hr : Run S honest foreign w)
    {k : PublicKey} (hk : honest k) {p : PrePare} (hx : (w.core k).Ever (.commit b (.fastPath p))) :
    Chosen S.committee honest w.core (b.epoch, b.height) b.digest := by
  obtain ⟨hst, -⟩ := (hr.reachable k).fast_stored hx
  have hgenuine := hs.completed k b p hk hx
  obtain ⟨e, hx⟩ := hx
  have hdone := (hr.reachable k).completes hx
  obtain ⟨htag, hgen⟩ := ho k hk _ hx
  have hver : p.qc.verify S.committee = .ok () := by
    by_cases hg : p.qc.isGenesis
    · exact hgen hg
    · exact PrePare.verified_qc (hdone.checked hexp) hg
  have hchosen := (QC.verify_iff.mp hver).chosen hgenuine htag
  obtain ⟨j, v, hj, hv, hdv, hhv, hev⟩ := hr.endorsed hn hf hchosen
  obtain ⟨hhash, hrv, hrb⟩ := hs.stored k b hk hst j v hj hv (hdv.trans hdone.hash.symm)
  have hsame := SignedMessage.sameCovered_of_hashed hrv hrb hhash
  rwa [← hev, ← hhv, ← hdone.hash, hsame.2.2.1, hsame.2.1] at hchosen

include hn hf ho hs in
/-- A block that an optimistic rule commits has been elected. -/
theorem Run.chosen (hexp : S.parameters.exp = 1) (hr : Run S honest foreign w) {i : PublicKey}
    {rule : CommitRule} (hrule : rule ≠ .smvbaOutput) (hx : (w.core i).Ever (.commit b rule)) :
    0 < b.height ∧ Chosen S.committee honest w.core (b.epoch, b.height) b.digest := by
  have hi : honest i := by
    by_contra hi
    obtain ⟨e, hx⟩ := hx
    rw [hr.core_new hi] at hx
    exact Core.not_own_of_new hx trivial
  cases rule with
  | twoChain b1 b' =>
    exact ⟨((hr.reachable i).precedes hx).pos, hr.chosen_grandparent hn hf ho hs hi hx⟩
  | fastPath p =>
    exact ⟨((hr.reachable i).fast_stored hx).2, hr.chosen_prepared hn hf ho hs hexp hi hx⟩
  | smvbaOutput => exact absurd rfl hrule

/-- What the two optimistic rules commit in an epoch is on one chain: blocks of one height are the
same, and the lower one of two is below the other one. -/
theorem Run.commits_chained (hexp : S.parameters.exp = 1) (hn : S.committee.total % 3 = 1)
    (hf : FaultBound S.committee honest) (hr : Run S honest foreign w)
    (ho : ∀ k, honest k → ∀ x ∈ (w.core k).trace, Orthodox S.committee x)
    (hs : Secure honest w.core)
    {i j : PublicKey} {b b' : Block} {rule rule' : CommitRule}
    (hb : (w.core i).Ever (.commit b rule))
    (hb' : (w.core j).Ever (.commit b' rule')) (hrule : rule ≠ .smvbaOutput)
    (hrule' : rule' ≠ .smvbaOutput) (he : b.epoch = b'.epoch) :
    (b.height = b'.height → b.digest = b'.digest) ∧
      (b.height ≤ b'.height → Relation.ReflTransGen (Links honest w.core) b.digest b'.digest) := by
  obtain ⟨hpos, hchosen⟩ := hr.chosen hn hf ho hs hexp hrule hb
  obtain ⟨-, hchosen'⟩ := hr.chosen hn hf ho hs hexp hrule' hb'
  have hunique : ∀ {position d d'}, Chosen S.committee honest w.core position d →
      Chosen S.committee honest w.core position d' → d = d' := fun h h' =>
    h.unique hf.weigh (Committee.electorate hn) (hr.votesForOne ho) h'
  refine ⟨fun hh => ?_, fun hle => ?_⟩
  · rw [← he, ← hh] at hchosen'
    exact hunique hchosen hchosen'
  · obtain ⟨n, hn'⟩ := Nat.exists_eq_add_of_le hle
    rw [← he, hn'] at hchosen'
    obtain ⟨d, hd, hchain⟩ := chain_below (P := fun h d => Chosen S.committee honest w.core
      (b.epoch, h) d)
      (fun h d hpos hc => hr.chosen_below hn hf ho hs hpos hc) hpos n _ hchosen'
    rwa [hunique hchosen hd]

end Runs

end Agreement

/-! ### The two rules at two nodes -/

/-- Node `2` is faulty. Node `1` takes the block of height `3`, and node `0` the prepares
of height `2`. -/
def toBothRules : List Act :=
  toFallbackVotes ++ [.deliver 0 1 0, .forge 0 (.HsPropose proposalOnVotes) OPT,
    .forge 1 (.HsPropose proposalOnVotes) OPT, .deliver 3 1 0, .forge 3
    (.HsPropose proposalOnVotes) OPT,
    .deliver 3 0 7, .deliver 3 1 8, .deliver 1 3 6, .deliver 0 3 6, .deliver 0 1 10, .deliver 0 3 7]

/-- The certificate that node `3` makes of the votes for height `2`, the block and the
prepare it sends. -/
def lastQc : QC :=
  { certify proposalOnVotes OPT with
    votes := [3, 0, 1].map fun k => (k, (HVote.new proposalOnVotes k OPT).signature) }

def lastProposal : Block := Block.new lastQc 3 3 0 0 [] OPT

def lastPrepare : PrePare := PrePare.new 3 0 2 lastQc OPT

theorem commits_chained_toBothRules : ∃ w,
    Run sampleSetup (· ∈ honestNodes) (fun _ m => ∃ a ∈ toBothRules, a.forged = some m) w ∧
      (w.core 1).Ever (.commit leaderProposal (.twoChain proposalOnVotes lastProposal)) ∧
      (w.core 0).Ever (.commit proposalOnVotes (.fastPath lastPrepare)) ∧
      Relation.ReflTransGen (Links (· ∈ honestNodes) w.core) leaderProposal.digest
        proposalOnVotes.digest := by
  obtain ⟨w, hr, ho, hs, hfirst, hnext⟩ := exists_attack sampleSetup (· ∈ honestNodes) toBothRules
    (fun w => (honestNodes.all fun k => (w.core k).trace.all fun x => Orthodox fourNodes x) = true ∧
      secureAmong honestNodes w.core = true ∧
      (0, .commit leaderProposal (.twoChain proposalOnVotes lastProposal)) ∈ (w.core 1).trace ∧
      (0, .commit proposalOnVotes (.fastPath lastPrepare)) ∈ (w.core 0).trace)
    (by decide) (by decide +kernel)
  have horthodox : ∀ k, k ∈ honestNodes → ∀ x ∈ (w.core k).trace, Orthodox fourNodes x := by
    intro k hk x hx
    exact of_decide_eq_true (List.all_eq_true.mp (List.all_eq_true.mp ho k hk) x hx)
  have hfault : FaultBound fourNodes (· ∈ honestNodes) := faultBound_of_filter (by decide +kernel)
  have hchain := hr.commits_chained rfl (by decide) hfault horthodox
    (secure_of_among hs) ⟨0, hfirst⟩
    ⟨0, hnext⟩ (by simp) (by simp) (by decide)
  exact ⟨w, hr, ⟨0, hfirst⟩, ⟨0, hnext⟩, hchain.2 (by decide)⟩

end Ipotane
