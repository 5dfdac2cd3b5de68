import Ipotane.Authenticity
import Ipotane.Chains
import Ipotane.Hotstuff
import Ipotane.Polls
import Ipotane.Strangers
import Ipotane.Terminations

/-! The messages of nodes that run the program, and the checks of the nodes that receive them. -/
namespace Ipotane

open Lib Handler

section Acceptance

variable [Crypto]

/-- The check that a node makes of a message of another node. -/
def ConsensusMessage.check (c : Committee) (fallbackLength : ℕ) : ConsensusMessage → Check
  | HsPropose b | SyncReply b | FBPropose b => b.verify c
  | HSVote v | FBVote v => v.verify c
  | ParPrePare p => p.verify c fallbackLength
  | SPBPropose v p | SPBFinsh v p => v.verify c p fallbackLength
  | SPBVote x => x.verify c
  | SPBDoneAndShare m => m.verify c
  | SMVBAPreVote m => m.verify c fallbackLength
  | SMVBAVote m => m.verify c fallbackLength
  | SMVBAHalt m => m.verify c fallbackLength
  | HsLoopBack _ | FBLoopBack _ | ParLoopBack _ | SyncRequest _ _ => .ok ()

/-- What is signed with the keys of the committee is valid. -/
structure SignsValidly (c : Committee) : Prop where
  sign : ∀ k d, Crypto.verify (Crypto.sign k d) d k = true
  share : ∀ k ∈ c.sortedNames, ∀ d, Crypto.verifyShare (c.id k) (Crypto.signShare k d) d = true

/-- A block that is worked on as an optimistic one stands on no inner block of a fallback chain. -/
def OnChainEnd (fallbackLength : ℕ) : ℕ × Event → Prop
  | (_, .process b _) => ¬ (b.qc.tag = PES ∧ b.qc.round ≠ fallbackLength)
  | _ => True

instance (n : ℕ) (x : ℕ × Event) : Decidable (OnChainEnd n x) := by
  obtain ⟨_, x⟩ := x
  unfold OnChainEnd
  rcases x <;> infer_instance

/-! ### What is made is accepted -/

variable {c : Committee} {n : ℕ} {k : PublicKey}

theorem QC.check_of_verify {q : QC} (h : q.verify c = .ok ()) : q.check c = .ok () := by
  unfold QC.check
  split
  · rfl
  · exact h

theorem QC.check_genesis : QC.genesis.check c = .ok () := if_pos ⟨rfl, rfl, rfl, rfl⟩

theorem Block.qc_check {b : Block} (h : b.verify c = .ok ()) : b.qc.check c = .ok () := by
  unfold Block.verify at h
  rw [check_seq, check_seq] at h
  exact h.2.2

namespace SignsValidly

/-- A message that a member has signed is accepted if its content is. -/
theorem made (hc : SignsValidly c) {m : SignedMessage} (hm : m.Made)
    (h : m.verifyContent c n = .ok ()) : m.verify c n = .ok () := by
  refine SignedMessage.verify_iff.mpr ⟨?_, h⟩
  rw [hm]
  exact hc.sign _ _

theorem block (hc : SignsValidly c) {b : Block} (hk : 0 < c.stake b.author)
    (hs : b.signature = Crypto.sign b.author b.digest) (hq : b.qc.check c = .ok ()) :
    b.verify c = .ok () := by
  refine hc.made (n := 0) (m := .block b) hs ?_
  rw [SignedMessage.verifyContent, check_seq, ensure_ok]
  exact ⟨hk, hq⟩

theorem vote (hc : SignsValidly c) (hk : 0 < c.stake k) (b : Block) (tag : ℕ) :
    (HVote.new b k tag).verify c = .ok () := by
  refine hc.made (n := 0) (m := .vote (HVote.new b k tag)) rfl ?_
  rw [SignedMessage.verifyContent, ensure_ok]
  exact hk

theorem prepare (hc : SignsValidly c) {e height val : ℕ} {q : QC} (hv : val = OPT ∨ val = PES)
    (hq : q.check c = .ok ()) (hn : ¬ (q.tag = PES ∧ q.round ≠ n)) :
    (PrePare.new k e height q val).verify c n = .ok () := by
  refine hc.made (m := .prepare (PrePare.new k e height q val)) rfl ?_
  rw [SignedMessage.verifyContent, check_seq, check_seq, ensure_ok, ensure_ok]
  exact ⟨hv, hq, hn⟩

theorem spbVote (hc : SignsValidly c) (hk : 0 < c.stake k) (v : SPBValue) :
    (SPBVote.new v k).verify c = .ok () := by
  refine hc.made (n := 0) (m := .spbVote (SPBVote.new v k)) rfl ?_
  rw [SignedMessage.verifyContent, ensure_ok]
  exact hk

theorem randomnessShare (hc : SignsValidly c) (hk : 0 < c.stake k) (height e round : ℕ) :
    (RandomnessShare.new height e round k).verify c = .ok () := by
  rw [RandomnessShare.verify, check_seq, ensure_ok, ensure_ok]
  exact ⟨hk, hc.share k (Committee.mem_sortedNames_of_stake_pos hk) _⟩

theorem done (hc : SignsValidly c) {e height round : ℕ} {x : RandomnessShare}
    (hx : x.verify c = .ok ()) : (MDoneAndShare.new k e height round x).verify c = .ok () :=
  hc.made (n := 0) (m := .done (MDoneAndShare.new k e height round x)) rfl hx

theorem prevote (hc : SignsValidly c) (hk : 0 < c.stake k) {leader : PublicKey} {round height e : ℕ}
    {tag : PreVoteTag} (h : tag.verify c n = .ok ()) :
    (MPreVote.new k leader round height e tag).verify c n = .ok () := by
  refine hc.made (m := .prevote (MPreVote.new k leader round height e tag)) rfl ?_
  rw [SignedMessage.verifyContent, check_seq, ensure_ok]
  exact ⟨hk, h⟩

theorem mvote (hc : SignsValidly c) (hk : 0 < c.stake k) {leader : PublicKey} {round height e : ℕ}
    {tag : MVoteTag} (h : tag.verify c n = .ok ()) :
    (MVote.new k leader round height e tag).verify c n = .ok () := by
  refine hc.made (m := .mvote (MVote.new k leader round height e tag)) rfl ?_
  rw [SignedMessage.verifyContent, check_seq, ensure_ok]
  exact ⟨hk, h⟩

theorem halt (hc : SignsValidly c) (hk : 0 < c.stake k) {leader : PublicKey} {v : SPBValue}
    {p : SPBProof} (hp : p.phase = FIN_PHASE) (h : v.verify c p n = .ok ()) :
    (MHalt.new k leader v p).verify c n = .ok () := by
  refine hc.made (m := .halt (MHalt.new k leader v p)) rfl ?_
  rw [SignedMessage.verifyContent, check_seq, check_seq, ensure_ok, ensure_ok]
  exact ⟨hk, hp, h⟩

end SignsValidly

/-- What makes a value acceptable, whatever its phase and its proof are. -/
structure SPBValue.Filled (v : SPBValue) (c : Committee) (fallbackLength : ℕ) : Prop where
  signatures : v.verifySignatures c = .ok ()
  round : v.block.qc.round = fallbackLength
  block : v.block.verify c = .ok ()

theorem SPBValue.verify_iff_filled {v : SPBValue} {p : SPBProof} :
    v.verify c p n = .ok () ↔ v.Filled c n ∧ p.verify c = .ok () := by
  rw [SPBValue.verify, check_seq, check_seq, check_seq, ensure_ok]
  constructor
  · rintro ⟨hs, hr, hb, hp⟩
    exact ⟨⟨hs, hr, hb⟩, hp⟩
  · rintro ⟨⟨hs, hr, hb⟩, hp⟩
    exact ⟨hs, hr, hb, hp⟩

theorem SPBValue.Filled.withPhase {v : SPBValue} (h : v.Filled c n) (phase : ℕ) :
    SPBValue.Filled { v with phase := phase } c n := ⟨h.signatures, h.round, h.block⟩

theorem SPBValue.verifySignatures_pes {v : SPBValue} (hv : v.val = PES)
    (hl : c.quorumThreshold ≤ v.signatures.length)
    (hs : ∀ x ∈ v.signatures, Crypto.verify x.2 (abaValDigest PES) x.1 = true) :
    v.verifySignatures c = .ok () := by
  unfold SPBValue.verifySignatures
  split
  · rw [checkBatch, ensure_ok, verifyBatch, List.all_eq_true, hv]
    exact hs
  · rename_i h
    have henough : v.enoughSignatures c = true := by
      unfold SPBValue.enoughSignatures
      rw [hv, if_neg (fun h => absurd h.1 (by decide)),
        if_neg (fun h => absurd h.2 (Nat.not_lt.mpr hl))]
    rw [ensure_ok]
    by_contra hne
    exact h ⟨henough, hne⟩

/-! ### The record of a node -/

/-- A message that passes its check, in the phase in which it is sent. A block that is handed back
has passed its check before. -/
def ConsensusMessage.Accepted (c : Committee) (fallbackLength : ℕ) : ConsensusMessage → Prop
  | HsLoopBack b | FBLoopBack b | ParLoopBack b => b.verify c = .ok ()
  | SPBFinsh v p => v.verify c p fallbackLength = .ok () ∧ p.phase = FIN_PHASE
  | SMVBAPreVote m => m.verify c fallbackLength = .ok () ∧ ∀ v p, m.tag = .Yes v p →
      v.phase = LOCK_PHASE
  | SMVBAVote m => m.verify c fallbackLength = .ok () ∧ ∀ v p x, m.tag = .Yes v p x →
      x.phase = LOCK_PHASE
  | m => m.check c fallbackLength = .ok ()

/-- An entry about messages, blocks and values that pass their checks. The block of a cleaning may
be the genesis block, which would not. -/
def Event.Accepted (c : Committee) (fallbackLength : ℕ) : Event → Prop
  | send m _ _ | receive m | keep m | requeue m => m.Accepted c fallbackLength
  | sign (.block b) | commit b _ | sync b | graft b | store b | approve b | process b _ | endorse b
  | accept b | suspend b _ => b.verify c = .ok ()
  | sign (.vote v) => v.verify c = .ok ()
  | sign (.prepare p) => p.verify c fallbackLength = .ok ()
  | sign (.spbVote x) => x.verify c = .ok ()
  | sign (.share x) => x.verify c = .ok ()
  | sign (.done m) => m.verify c = .ok ()
  | sign (.mvote m) | count m => (ConsensusMessage.SMVBAVote m).Accepted c fallbackLength
  | sign (.halt m) | halted m => m.verify c fallbackLength = .ok ()
  | propose v => v.Filled c fallbackLength
  | lock v p => v.verify c p fallbackLength = .ok () ∧ v.phase = LOCK_PHASE
  | finish v p => v.verify c p fallbackLength = .ok () ∧ p.phase = FIN_PHASE
  | finProved p => p.phase = FIN_PHASE
  | _ => True

/-- What the run is known for: its certificates and proofs are valid, a value that is proposed is a
pessimistic one on the end of a fallback chain. -/
def Certified (c : Committee) (fallbackLength : ℕ) : ℕ × Event → Prop
  | (_, .assembled q) | (_, .assembledFallback q) => q.verify c = .ok ()
  | (_, .proved p) | (_, .finProved p) => p.verify c = .ok ()
  | (_, .propose v) => v.val ≠ OPT ∧ v.block.qc.verify c = .ok () ∧
      v.block.qc.round = fallbackLength
  | (_, .process b _) => ¬ (b.qc.tag = PES ∧ b.qc.round ≠ fallbackLength)
  | _ => True

theorem ConsensusMessage.Accepted.checked {m : ConsensusMessage} (h : m.Accepted c n) :
    m.check c n = .ok () := by
  cases m with
  | SPBFinsh v p => exact h.1
  | SMVBAPreVote m => exact h.1
  | SMVBAVote m => exact h.1
  | HsLoopBack _ => rfl
  | FBLoopBack _ => rfl
  | ParLoopBack _ => rfl
  | _ => exact h

namespace Core

variable {cfg : Config} {s t : Core}

/-- What a node has on record, and what it keeps for later, passes the checks. -/
structure Accepting (c : Committee) (fallbackLength : ℕ) (s : Core) : Prop where
  kept : s.Kept
  record : ∀ x ∈ s.trace, x.2.Accepted c fallbackLength
  waiting : ∀ q ∈ s.unhandleMessage, q.2.Accepted c fallbackLength
  high : s.highQc.check c = .ok ()
  highs : ∀ key q, s.fallbackHighQc.getD key none = some q → q.verify c = .ok ()
  prepares : s.parPreparePess.Each
    (fun l => ∀ x ∈ l, Crypto.verify x.2 (SPBValue.abaValDigest PES) x.1 = true) []

namespace Accepting

variable {b : Block} {v : SPBValue} {p : SPBProof}

theorem did (hs : Accepting c n s) {y : Event} (h : s.Did y) : y.Accepted c n := hs.record _ h

theorem ever (hs : Accepting c n s) {y : Event} (h : s.Ever y) : y.Accepted c n := by
  obtain ⟨e, h⟩ := h
  exact hs.record _ h

theorem signed (hs : Accepting c n s) (h : s.Did (.sign (.block b))) :
    b.verify c = .ok () := hs.did h

theorem voted (hs : Accepting c n s) {v : HVote} (h : s.Did (.sign (.vote v))) :
    v.verify c = .ok () :=
  hs.did h

theorem stored (hs : Accepting c n s) (h : s.Ever (.store b)) : b.verify c = .ok () := hs.ever h

theorem processed (hs : Accepting c n s) {height : ℕ} (h : s.Did (.process b height)) :
    b.verify c = .ok () := hs.did h

theorem heard (hs : Accepting c n s) {m : ConsensusMessage} (h : s.Hears m) : m.Accepted c n := by
  rcases h with h | ⟨tag, h⟩ | h
  · exact hs.did h
  · exact hs.did h
  · exact hs.did h

theorem fallen (hs : Accepting c n s) (h : s.Fallen b) : b.verify c = .ok () := by
  rcases h.hears with h | h
  · exact hs.heard h
  · exact hs.heard h

theorem output (hs : Accepting c n s) (h : s.Output b) : b.verify c = .ok () := by
  rcases h with ⟨m, hm, rfl⟩ | h
  · have hhalt : m.verify c n = .ok () := hs.did hm
    unfold MHalt.verify at hhalt
    rw [check_seq, check_seq, check_seq] at hhalt
    exact (SPBValue.verify_ok hhalt.2.2.2).2.1
  · exact hs.did h

theorem parent (hs : Accepting c n s) {b1 : Block} (h : s.Parent b b1) (hp : 0 < b1.height) :
    b1.verify c = .ok () := by
  rcases h with ⟨-, rfl⟩ | ⟨-, -, h⟩
  · exact absurd hp (Nat.not_lt_zero _)
  · exact hs.ever h

theorem proposed (hs : Accepting c n s) {key : ℕ × ℕ} (h : s.spbProposes.get key = some v) :
    v.Filled c n := hs.did (hs.kept.proposes key v h).1

theorem source (hs : Accepting cfg.committee cfg.parameters.fallbackLength s)
    (hexp : cfg.parameters.exp = 1) (h : s.SpbSource cfg v p) :
    v.verify cfg.committee p cfg.parameters.fallbackLength = .ok () := by
  cases h with
  | own h => exact hs.did h
  | peer _ _ hv => exact hv hexp

end Accepting

/-! ### What comes on record -/

theorem OptLog.accepted {y : Event} (h : s.OptLog cfg y) (hs : Accepting cfg.committee n s)
    (hc : SignsValidly cfg.committee) (hk : 0 < cfg.committee.stake cfg.name) :
    y.Accepted cfg.committee n := by
  unfold OptLog at h
  split at h
  case h_1 =>
    obtain ⟨payload, rfl⟩ := h
    exact hc.block hk rfl hs.high
  case h_2 => exact hs.signed h.1
  case h_3 => exact hs.voted h.1
  case h_4 => exact hs.stored h.1
  case h_5 => exact hs.voted h.1
  case h_6 => exact h.vetted.verified
  case h_7 =>
    rcases h.1 with h | ⟨h, -⟩ | h
    · have hsent := hs.did h
      exact hsent
    · exact h.vetted.verified
    · have hback := hs.did h
      exact hback
  case h_8 => exact h.1.vetted.verified
  case h_9 =>
    rcases h with ⟨height, h⟩ | h
    · exact hs.processed h
    · exact hs.stored h
  case h_10 => trivial
  case h_11 => exact h.vetted.verified
  case h_12 => exact h.elim

/-- The value of a proof goes on with a valid proof in each phase. -/
theorem Accepting.advanced (hs : Accepting c n s) {w : SPBValue} {p : SPBProof} {phase : ℕ}
    (hw : s.spbProposes.get (p.height, p.round) = some w) (hp : p.verify c = .ok ()) :
    SPBValue.verify { w with phase := phase } c p n = .ok () :=
  SPBValue.verify_iff_filled.mpr ⟨(hs.proposed hw).withPhase phase, hp⟩

theorem Issues.accepted {m : ConsensusMessage} (h : s.Issues cfg m)
    (hs : Accepting cfg.committee n s)
    (hr : ∀ x ∈ s.trace, Certified cfg.committee n x) (hc : SignsValidly cfg.committee)
    (hk : 0 < cfg.committee.stake cfg.name) : m.Accepted cfg.committee n := by
  have hproved : ∀ {p : SPBProof}, s.Did (.proved p) → p.verify cfg.committee = .ok () :=
    fun h => hr _ h
  cases m with
  | FBPropose b => exact hs.signed h.1
  | FBVote v => exact hs.voted h.1
  | ParPrePare p => exact hs.did h
  | SPBPropose v p =>
    rcases h with ⟨hphase, h⟩ | ⟨hphase, h⟩
    · have hp : p.verify cfg.committee = .ok () := by
        unfold SPBProof.verify
        rw [if_pos hphase.le]
      exact SPBValue.verify_iff_filled.mpr ⟨hs.did h, hp⟩
    · cases h with
      | init _ hp _ _ _ =>
        rw [hp] at hphase
        exact absurd rfl hphase
      | lock _ hd hw hv =>
        rw [hv]
        exact hs.advanced hw (hproved hd)
  | SPBVote x => exact hs.did h.1
  | SPBFinsh v p =>
    obtain ⟨hphase, hd, w, hw, rfl⟩ := h
    exact ⟨hs.advanced hw (hproved hd), hphase⟩
  | SPBDoneAndShare m => exact hs.did h
  | SMVBAPreVote m =>
    obtain ⟨-, coin, -, -, hm, hlock⟩ := h
    -- a vote for a value is for one that the node has locked
    have hlocked : ∀ v p, m.tag = .Yes v p →
        v.verify cfg.committee p n = .ok () ∧ v.phase = LOCK_PHASE := by
      intro v p htag
      rw [htag] at hlock
      exact hs.did (hs.kept.locks _ _ (mem_of_lookup hlock)).1
    refine ⟨?_, fun v p htag => (hlocked v p htag).2⟩
    rw [hm]
    refine hc.prevote hk ?_
    cases htag : m.tag with
    | No => rfl
    | Yes v p => exact (hlocked v p htag).1
  | SMVBAVote m => exact hs.record _ (List.mem_of_mem_head? h)
  | SMVBAHalt m => exact hs.did h
  | _ => exact h.elim

theorem HaltCause.accepted {leader : PublicKey} {v : SPBValue} {p : SPBProof}
    (h : s.HaltCause leader v p) (hs : Accepting c n s) (hr : ∀ x ∈ s.trace, Certified c n x) :
    v.verify c p n = .ok () ∧ p.phase = FIN_PHASE := by
  cases h with
  | finish _ _ hf => exact hs.did (hs.kept.finishs _ _ (mem_of_lookup hf)).1
  | votes hm ht _ hp _ _ =>
    obtain ⟨hver, -⟩ := hs.did hm
    unfold MVote.verify at hver
    rw [check_seq, check_seq, ht, MVoteTag.verify, check_seq] at hver
    have hphase := hs.did hp
    have hproof := hr _ hp
    exact ⟨SPBValue.verify_iff_filled.mpr ⟨(SPBValue.verify_iff_filled.mp hver.2.2.1).1,
      hproof⟩, hphase⟩

/-- The certificate of a block that the node makes for the pessimistic path. -/
theorem Continues.check {b : Block} (h : s.Continues cfg b) (hs : Accepting c n s)
    (hr : ∀ x ∈ s.trace, Certified c n x) : b.qc.check c = .ok () := by
  cases h with
  | next h _ _ _ =>
    have hmade := hr _ (List.mem_of_mem_head? h)
    exact QC.check_of_verify hmade
  | input _ hq _ => exact QC.check_of_verify (hs.highs _ _ hq)
  | again hl _ hq _ =>
    rw [hq]
    exact Block.qc_check (hs.proposed hl).block

theorem Starts.check {q : QC} (h : s.Starts q) (hs : Accepting c n s) : q.check c = .ok () := by
  cases h with
  | genesis h => exact h ▸ QC.check_genesis
  | high h => exact h ▸ hs.high
  | block h hq => exact hq ▸ Block.qc_check (hs.processed h)

theorem Makes.verify {b : Block} (h : s.Makes cfg b) (hc : SignsValidly cfg.committee)
    (hk : 0 < cfg.committee.stake cfg.name) (hq : b.qc.check cfg.committee = .ok ()) :
    b.verify cfg.committee = .ok () := by
  refine hc.block ?_ ?_ hq
  · rw [h.author]
    exact hk
  · rw [h.signature, h.author]

theorem PesLog.accepted {y : Event} (h : s.PesLog cfg y) (hs : Accepting cfg.committee n s)
    (hr : ∀ x ∈ s.trace, Certified cfg.committee n x) (hc : SignsValidly cfg.committee)
    (hk : 0 < cfg.committee.stake cfg.name) (hexp : cfg.parameters.exp = 1) :
    y.Accepted cfg.committee n := by
  unfold PesLog at h
  split at h
  case h_1 => exact h.1.verify hc hk (h.2.check hs hr)
  case h_2 =>
    obtain ⟨b, rfl, -⟩ := h
    exact hc.vote hk b PES
  case h_3 =>
    obtain ⟨v, p, rfl, -⟩ := h
    exact hc.spbVote hk v
  case h_4 =>
    obtain ⟨-, -, hx⟩ := h
    rw [hx]
    exact hc.randomnessShare hk _ _ _
  case h_5 =>
    obtain ⟨-, -, hshare, hm, -⟩ := h
    rw [hm]
    have hvalid := hs.did hshare
    exact hc.done hvalid
  case h_6 => trivial
  case h_7 =>
    obtain ⟨leader, v, p, rfl, hcause⟩ := h
    obtain ⟨hver, hphase⟩ := hcause.accepted hs hr
    exact hc.halt hk hphase hver
  case h_8 => exact h.1.accepted hs hr hc hk
  case h_9 => exact h.1.accepted hs hr hc hk
  case h_10 =>
    rcases h with ⟨-, -, hv⟩ | ⟨-, hhalted⟩
    · exact hv hexp
    · exact hs.output (.inl hhalted)
  case h_11 =>
    rcases h.1 with h | ⟨h, -⟩
    · exact hs.fallen h
    · exact hs.output h
  case h_12 => trivial
  case h_13 => trivial
  case h_14 =>
    rcases h with h | h
    · exact hs.heard h
    · exact hs.output h
  case h_15 => exact h.elim

theorem Initial.filled {v : SPBValue} (h : s.Initial cfg v) (hs : Accepting cfg.committee n s)
    (hv : v.val ≠ OPT) (hround : v.block.qc.round = n) : v.Filled cfg.committee n := by
  cases h with
  | first _ hb _ hq _ =>
    obtain ⟨hpes, hsignatures, hlength⟩ := hb.resolve_left hv
    refine ⟨SPBValue.verifySignatures_pes hpes hlength ?_, hround, hs.signed (hq hv).1⟩
    rw [hsignatures]
    exact hs.prepares _
  | @next last _ _ hl hval hsig _ _ hb =>
    have hheight : v.block.height = last.block.height := congrArg Prod.fst
      (hs.kept.proposes _ _ hl).2
    refine ⟨?_, hround, hs.signed hb⟩
    have hlast := (hs.proposed hl).signatures
    unfold SPBValue.verifySignatures SPBValue.enoughSignatures at hlast ⊢
    rw [hval, hsig, hheight]
    exact hlast

/-- A vote for a value that the node has been shown in a prevote. -/
theorem Open.accepted {m : MPreVote} {v : SPBValue} {p : SPBProof}
    (h : s.Open cfg m) (ht : m.tag = .Yes v p)
    (hs : Accepting cfg.committee cfg.parameters.fallbackLength s) :
    v.verify cfg.committee p cfg.parameters.fallbackLength = .ok () ∧ v.phase = LOCK_PHASE := by
  obtain ⟨hver, hphase⟩ := hs.heard h.taken.hears
  unfold MPreVote.verify at hver
  rw [check_seq, check_seq, ht, PreVoteTag.verify] at hver
  exact ⟨hver.2.2, hphase v p ht⟩

theorem Records.accepted {y : Event} (h : Records cfg s t y)
    (hs : Accepting cfg.committee cfg.parameters.fallbackLength s)
    (hr : ∀ x ∈ s.trace, Certified cfg.committee cfg.parameters.fallbackLength x)
    (hy : Certified cfg.committee cfg.parameters.fallbackLength (s.epoch, y))
    (hc : SignsValidly cfg.committee) (hk : 0 < cfg.committee.stake cfg.name)
    (hexp : cfg.parameters.exp = 1) : y.Accepted cfg.committee cfg.parameters.fallbackLength := by
  cases h with
  | opt h => exact h.accepted hs hc hk
  | pes _ h => exact h.accepted hs hr hc hk hexp
  | vote _ _ _ _ _ _ => exact hc.vote hk _ OPT
  | endorse h _ =>
    obtain ⟨height, h⟩ := h
    exact hs.processed h
  | store h _ _ _ => exact hs.processed h
  | commit _ _ h _ hl => exact hs.parent h (Nat.zero_lt_of_lt hl)
  | pesStore _ h _ _ _ =>
    rcases h with h | ⟨h, -⟩
    · exact hs.fallen h
    · exact hs.output h
  | fork _ hb hq _ _ _ => exact hb.verify hc hk (hq.check hs)
  | fastCommit _ h _ _ _ _ _ _ => exact hs.stored h
  | outputCommit _ h _ _ _ _ _ => exact hs.stored h.ever
  | finProved _ h ht hadd _ =>
    have hphase := (hs.did h).2 _ _ _ ht
    rw [(ProofMaker.append_some hadd).2.1]
    change (_ + 1) % 256 = FIN_PHASE
    rw [hphase]
    rfl
  | prepare _ hcause _ _ =>
    cases hcause with
    | opt h _ hq =>
      rw [hq]
      have hend := hr _ h
      exact hc.prepare (.inl rfl) (Block.qc_check (hs.processed h)) hend
    | pes h _ hround _ =>
      have hmade := hr _ h
      exact hc.prepare (.inr rfl) (QC.check_of_verify hmade) fun hn => hn.2 hround
  | propose _ hi _ _ _ _ => exact hi.filled hs hy.1 hy.2.2
  | lock _ h hv _ => exact ⟨hs.source hexp h, hv⟩
  | finish _ h _ =>
    obtain ⟨-, hphase⟩ := hs.heard h.hears
    exact ⟨h.checked hexp, hphase⟩
  | count _ h _ => exact hs.heard h.hears
  | mvoteYes _ h ht _ _ =>
    obtain ⟨hver, hphase⟩ := h.accepted ht hs
    refine ⟨hc.mvote hk ?_, ?_⟩
    · rw [MVoteTag.verify, check_seq]
      exact ⟨hver, hc.spbVote hk _⟩
    · intro w q x htag
      cases htag
      exact hphase
  | spbVote _ _ _ _ => exact hc.spbVote hk _
  | mvoteNo _ _ _ _ _ =>
    refine ⟨hc.mvote hk rfl, ?_⟩
    intro w q x htag
    cases htag
  | halted _ h _ _ _ => exact h.checked hexp
  | _ => trivial

/-! ### What the node keeps -/

theorem PesStep.highQc (h : PesStep cfg s t) : t.highQc = s.highQc := by
  cases h with
  | countFallback _ => exact collect_highQc _ _
  | countSpb _ => exact collect_highQc _ _
  | countPre _ _ => exact collect_highQc _ _
  | _ => rfl

theorem Accepting.high_step (hs : Accepting cfg.committee n s)
    (hr : ∀ x ∈ s.trace, Certified cfg.committee n x) (h : Step cfg s t) :
    t.highQc.check cfg.committee = .ok () := by
  cases h with
  | opt h =>
    rcases h.highQc with ⟨-, hq⟩ | ⟨q, hq⟩
    · rw [hq]
      exact hs.high
    · rw [hq.high]
      split
      · rcases hq.source with hmade | ⟨b, hb, rfl⟩
        · have hvalid := hr _ hmade
          exact QC.check_of_verify hvalid
        · exact Block.qc_check hb.vetted.verified
      · exact hs.high
  | pes _ h =>
    rw [h.highQc]
    exact hs.high

theorem collect_prepares {α : Type} (add : Aggregator → Appended α Aggregator) (mark : α → Event) :
    (collect add mark s).2.parPreparePess = s.parPreparePess := by
  unfold collect
  split <;> rfl

section Prepares

variable {P : List (PublicKey × Signature) → Prop} (hP : P [])

include hP

theorem OptStep.prepares (h : OptStep cfg s t) (hs : s.parPreparePess.Each P []) :
    t.parPreparePess.Each P [] := by
  have hclean : ∀ b, (s.cleanFor cfg b).parPreparePess.Each P [] := by
    intro b
    unfold Core.cleanFor
    split
    · exact hs.retain hP _
    · exact hs
  have hadopt : ∀ {u : Core} (qc : QC), u.parPreparePess.Each P [] →
      (u.adopt qc).parPreparePess.Each P [] := by
    intro u qc hu
    unfold Core.adopt updateHighQc
    by_cases hlt : qc.height < u.height
    · rw [if_pos hlt]
      split <;> exact hu
    · rw [if_neg hlt]
      split <;> exact hu.insert hP
  cases h with
  | quiet h => exact hs.congr h.parPreparePess
  | proposal _ _ => exact hadopt _ (hclean _)
  | overflow _ _ => exact hclean _
  | adopt _ _ _ _ _ => exact hadopt _ hs
  | countVote _ _ _ _ _ =>
    rw [collect_prepares]
    exact hs
  | settle _ _ _ _ _ _ =>
    unfold Core.settle
    split <;> exact hs
  | _ => exact hs

/-- Only a `PES` prepare that the node counts comes to the prepares of a height. -/
theorem PesStep.prepares (h : PesStep cfg s t) (hs : s.parPreparePess.Each P [])
    (hput : ∀ p l, s.Countable cfg p → p.val = PES → P l → P (put p.author p.signature l)) :
    t.parPreparePess.Each P [] := by
  cases h with
  | terminate _ => exact hs.retain hP _
  | countFallback _ =>
    rw [collect_prepares]
    exact hs
  | countSpb _ =>
    rw [collect_prepares]
    exact hs
  | countPre _ _ =>
    rw [collect_prepares]
    exact hs
  | putPes hp hv _ => exact hs.insert (hput _ _ hp hv (hs _))
  | _ => exact hs

end Prepares

theorem Accepting.step (hs : Accepting cfg.committee cfg.parameters.fallbackLength s)
    (hr : ∀ x ∈ t.trace, Certified cfg.committee cfg.parameters.fallbackLength x)
    (hc : SignsValidly cfg.committee) (hk : 0 < cfg.committee.stake cfg.name)
    (hexp : cfg.parameters.exp = 1) (h : Step cfg s t) :
    Accepting cfg.committee cfg.parameters.fallbackLength t := by
  have hold : ∀ x ∈ s.trace, Certified cfg.committee cfg.parameters.fallbackLength x :=
    fun x hx => hr x (h.extends.trace.subset hx)
  refine ⟨hs.kept.step h, ?_, ?_, hs.high_step hold h, ?_, ?_⟩
  · rintro ⟨e, y⟩ hx
    rcases h.recorded hx with hx' | ⟨he, hrec⟩
    · exact hs.record _ hx'
    · simp only at he
      subst he
      exact hrec.accepted hs hold (hr _ hx) hc hk hexp
  · intro q hq
    rcases h.waited hq with hq | hd | ⟨b, hb, hd⟩
    · exact hs.waiting q hq
    · exact hs.did hd
    · rw [hb]
      have hreply := hs.did hd
      exact hreply
  · intro key q hq
    rcases h.steadies.fallbackHighQc key q hq with hq | ⟨hd, -⟩
    · exact hs.highs key q hq
    · have hmade := hold _ hd
      exact hmade
  · cases h with
    | opt h => exact h.prepares (fun x hx => nomatch hx) hs.prepares
    | pes _ h =>
      refine h.prepares (fun x hx => nomatch hx) hs.prepares ?_
      intro p l hp hv hl x hx
      rcases mem_put.mp hx with rfl | ⟨hx, -⟩
      · have hver := hp.checked hexp
        unfold PrePare.verify at hver
        rw [check_seq, check_seq, checkSignature, ensure_ok, ensure_ok] at hver
        have hsigned := hver.2.1
        rw [PrePare.digest, hv] at hsigned
        exact hsigned
      · exact hl x hx

theorem Accepting.new : Accepting c n .new := by
  refine ⟨.new, ?_, fun q hq => (nomatch hq), QC.check_genesis, fun key q hq => (nomatch hq), ?_⟩
  · intro x hx
    cases List.mem_singleton.mp hx
    trivial
  · exact (Map.each_empty fun x hx => nomatch hx).insert fun x hx => nomatch hx

theorem Accepting.take {m : ConsensusMessage} (hs : Accepting c n s) (hm : m.Accepted c n) :
    Accepting c n (s.log (.receive m)) :=
  { hs with
    kept := hs.kept.take m
    record := List.forall_mem_cons.mpr ⟨hm, hs.record⟩ }

theorem Accepting.renewed (hs : Accepting c n s) : Accepting c n s.renewed := by
  have hkept := hs.kept.renewed
  have hrecord : ∀ x ∈ s.renewed.trace, x.2.Accepted c n := by
    intro x hx
    rcases mem_renewed_trace hx with hx | rfl | ⟨m, rfl, hm, -⟩
    · exact hs.record x hx
    · trivial
    · exact hs.waiting _ hm
  obtain ⟨marks, rest, heq, -, hrest⟩ := renewed_eq s
  rw [heq] at hkept hrecord ⊢
  refine ⟨hkept, hrecord, fun q hq => hs.waiting q (hrest hq), QC.check_genesis,
    fun key q hq => (nomatch hq), ?_⟩
  exact (Map.each_empty fun x hx => nomatch hx).insert fun x hx => nomatch hx

end Core

/-! ### All nodes -/

variable {S : Setup} {w : World}

/-- A message that comes has been sent, or it hands back a block that the node has had. -/
theorem Arrives.accepted {σ : Cores} {i : PublicKey} {m : ConsensusMessage} {input : Input}
    (hs : ∀ k, Core.Accepting c n (σ k)) (hm : input = .core m ∨ input = .smvba m)
    (ha : Arrives (fun _ => False) σ i input) : m.Accepted c n := by
  have hmsg : ∀ m', (input = .core m' ∨ input = .smvba m') → m' = m := by
    rintro m' (rfl | rfl) <;> rcases hm with hm | hm <;> cases hm <;> rfl
  have hown : ∀ {e : ℕ} {y : Event}, (e, y) ∈ (σ i).trace → y.Accepted c n := fun h =>
    (hs i).record _ h
  cases ha with
  | core _ h _ =>
    obtain rfl := hmsg _ (.inl rfl)
    exact (hs _).record _ h
  | smvba _ h _ _ =>
    obtain rfl := hmsg _ (.inr rfl)
    exact (hs _).record _ h
  | requeued h =>
    obtain rfl := hmsg _ (.inl rfl)
    have hwaited := hown h
    exact hwaited
  | requeuedSmvba h _ =>
    obtain rfl := hmsg _ (.inr rfl)
    have hwaited := hown h
    exact hwaited
  | foreignCore h => exact h.elim
  | foreignSmvba h => exact h.elim
  | timer _ => rcases hm with hm | hm <;> cases hm
  | request _ _ =>
    obtain rfl := hmsg _ (.inl rfl)
    rfl
  | payload h =>
    obtain rfl := hmsg _ (.inl rfl)
    have hblock := hown h
    exact hblock
  | parent h _ =>
    obtain rfl := hmsg _ (.inl rfl)
    have hblock := hown h
    exact hblock
  | fallbackPayload h =>
    obtain rfl := hmsg _ (.inr rfl)
    have hblock := hown h
    exact hblock
  | outputPayload h =>
    obtain rfl := hmsg _ (.inr rfl)
    have hblock := hown h
    exact hblock

theorem pointwise_accepting (hexp : S.parameters.exp = 1) (hc : SignsValidly S.committee)
    (hk : ∀ k ∈ S.committee.sortedNames, 0 < S.committee.stake k) :
    Pointwise S (fun k => k ∈ S.committee.sortedNames) (fun _ _ => False) (fun _ _ _ => True)
      (fun σ => ∀ k, ∀ x ∈ (σ k).trace, Certified S.committee S.parameters.fallbackLength x)
      (fun _ _ s => Core.Accepting S.committee S.parameters.fallbackLength s) where
  earlier := fun hl h k x hx => h k x ((hl k).subset hx)
  later := fun _ hs => hs
  start := fun _ => .new
  take := by
    rintro σ i m _ hs - ⟨input, hm, ha, -⟩
    exact (hs i).take (ha.accepted hs hm)
  turn := by
    intro σ i t hi hs hr ht
    have hri := hr i
    rw [Function.update_self] at hri
    cases ht with
    | step ht => exact (hs i).step hri hc (hk i hi) hexp ht
    | epoch _ ht => exact ht ▸ (hs i).renewed

/-- What the nodes of a run have on record for certain. -/
theorem Setup.Runs.certified_record (h : S.Runs w) (hexp : S.parameters.exp = 1)
    (hpes : ∀ k, ∀ x ∈ (w.core k).trace, ProposesPes x)
    (hend : ∀ k, ∀ x ∈ (w.core k).trace, OnChainEnd S.parameters.fallbackLength x)
    (hagree : ∀ k, (w.core k).Concordant) (k : PublicKey) :
    ∀ x ∈ (w.core k).trace, Certified S.committee S.parameters.fallbackLength x := by
  have hreach := h.reachable k
  rintro ⟨e, y⟩ hx
  have htally := hreach.tallied hexp _ hx
  cases y with
  | assembled q => exact hreach.certificates_verify hexp (hagree k) (.inl hx)
  | assembledFallback q => exact hreach.certificates_verify hexp (hagree k) (.inr hx)
  | proved p => exact htally
  | finProved p => exact htally
  | propose v =>
    have hval : v.val ≠ OPT := hpes k _ hx
    obtain ⟨hmade, -, hround⟩ := (hreach.harvest.inputs e v hx).2.2 hval
    exact ⟨hval, hreach.certificates_verify hexp (hagree k) (.inr hmade), hround⟩
  | process b height => exact hend k _ hx
  | _ => trivial

/-- With `3f + 1` stake the fallback votes of one key agree in every run: they are for one block. -/
theorem Setup.Runs.fallback_concordant {f : ℕ} (hn : S.committee.total = 3 * f + 1) (h : S.Runs w)
    {k : PublicKey} {e : ℕ} {u v : HVote} (hu : (w.core k).Heard e (.FBVote u))
    (hv : (w.core k).Heard e (.FBVote v)) (hue : e ≤ u.epoch) (hve : e ≤ v.epoch)
    (hkey : (u.height, u.round) = (v.height, v.round)) : u.digest = v.digest := by
  obtain ⟨b, ⟨hub, hb, -⟩, hba, hbe⟩ := h.backed hu hue
  obtain ⟨d, ⟨hvd, hd, -⟩, hda, hde⟩ := h.backed hv hve
  rw [hub, hvd] at hkey
  have hsame : SameBranch b d :=
    ⟨hbe.trans hde.symm, congrArg Prod.fst hkey, congrArg Prod.snd hkey⟩
  have heq := h.planted_unique hn hb hd (hba.trans hda.symm) hsame
  rw [hub, hvd, heq]
  rfl

/-- Every message that a node sends passes the check of the nodes that receive it, in a run in which
no node proposes an `OPT` value and none works on a block that stands on an inner block of a
fallback chain, and in which the votes of one key agree. -/
theorem Setup.Runs.sent_accepted (h : S.Runs w) (hexp : S.parameters.exp = 1)
    (hc : SignsValidly S.committee) (hk : ∀ k ∈ S.committee.sortedNames, 0 < S.committee.stake k)
    (hpes : ∀ k, ∀ x ∈ (w.core k).trace, ProposesPes x)
    (hend : ∀ k, ∀ x ∈ (w.core k).trace, OnChainEnd S.parameters.fallbackLength x)
    (hagree : ∀ k, (w.core k).Concordant) {k : PublicKey} {e tag : ℕ} {m : ConsensusMessage}
    {dest : Option PublicKey} (hm : (e, .send m dest tag) ∈ (w.core k).trace) :
    m.check S.committee S.parameters.fallbackLength = .ok () := by
  have hrecord := ((h.invariant (pointwise_accepting hexp hc hk).everywhere).2
    (h.certified_record hexp hpes hend hagree) k).record _ hm
  exact ConsensusMessage.Accepted.checked hrecord

end Acceptance

/-! ### A fallback chain that is accepted, and an `OPT` value that is not -/

theorem signsValidly_symbolic : SignsValidly fourNodes where
  sign _ _ := decide_eq_true rfl
  share k hk d := thresholdScheme_symbolic.correct k hk d

theorem fourNodes_stake_pos {k : PublicKey} (hk : k ∈ fourNodes.sortedNames) :
    0 < fourNodes.stake k := by
  have hall : (fourNodes.sortedNames.all fun k => 0 < fourNodes.stake k) = true := by decide +kernel
  exact of_decide_eq_true (List.all_eq_true.mp hall k hk)

/-- The optimistic votes of the messages of an entry. -/
def Event.optPoll : Event → List HVote
  | send m _ _ | receive m | keep m => m.optVotes
  | _ => []

theorem Core.Heard.optPoll {s : Core} {e : ℕ} {v : HVote} (h : s.Heard e (.HSVote v)) :
    ∃ x ∈ s.trace, x.2.optPoll ≠ [] := by
  rcases h with h | ⟨tag, h⟩ | h
  all_goals exact ⟨_, h, List.cons_ne_nil _ _⟩

theorem sent_accepted_toChains : ∃ w, chainSetup.Runs w ∧ ∃ e m dest tag,
    (e, .send m dest tag) ∈ (w.core 0).trace ∧ (∃ v ∈ m.values, v.val = PES) ∧
      m.check fourNodes 2 = .ok () := by
  obtain ⟨w, hr, hx, hm⟩ := exists_play chainSetup toChains
    (fun w => (fourNodes.sortedNames.all fun k => (w.core k).trace.all fun x =>
      ProposesPes x ∧ OnChainEnd 2 x ∧ x.2.optPoll = []) = true ∧
      (w.core 0).sends.any (fun x => x.1.values.any fun v => v.val = PES) = true)
    (by decide +kernel) (by decide +kernel)
  have hnode : ∀ k, ∀ x ∈ (w.core k).trace, ProposesPes x ∧ OnChainEnd 2 x ∧ x.2.optPoll = [] := by
    intro k x h
    by_cases hk : k ∈ fourNodes.sortedNames
    · exact of_decide_eq_true (List.all_eq_true.mp (List.all_eq_true.mp hx k hk) x h)
    · rw [hr.core_new hk] at h
      cases List.mem_singleton.mp h
      exact ⟨trivial, trivial, rfl⟩
  have htotal : chainSetup.committee.total = 3 * 1 + 1 := by decide
  have hagree : ∀ k, (w.core k).Concordant := by
    intro k
    refine ⟨?_, fun e u v hu hv hue hve => hr.fallback_concordant htotal hu hv hue hve⟩
    intro e u v hu
    obtain ⟨x, h, hvote⟩ := hu.optPoll
    exact absurd (hnode k x h).2.2 hvote
  obtain ⟨⟨m, dest, tag⟩, hsent, hv⟩ := List.any_eq_true.mp hm
  obtain ⟨v, hv, hpes⟩ := List.any_eq_true.mp hv
  obtain ⟨n, hn⟩ := List.getElem?_of_mem hsent
  obtain ⟨e, he⟩ := mem_of_sends hn
  exact ⟨w, hr, e, m, dest, tag, he, ⟨v, hv, of_decide_eq_true hpes⟩,
    Setup.Runs.sent_accepted hr rfl signsValidly_symbolic (fun _ => fourNodes_stake_pos)
      (fun k x h => (hnode k x h).1) (fun k x h => (hnode k x h).2.1) hagree he⟩

/-- A node that takes up the prepare of an optimistic block proposes a value without a signature and
with a block without a certificate. -/
theorem not_sent_accepted_toThirdBlock : ¬ ∀ (S : Setup) (w : World), S.Runs w →
    S.parameters.exp = 1 → SignsValidly S.committee →
    (∀ k ∈ S.committee.sortedNames, 0 < S.committee.stake k) → ∀ (k : PublicKey) (e tag : ℕ)
      (m : ConsensusMessage) (dest : Option PublicKey), (e, .send m dest tag) ∈ (w.core k).trace →
      m.check S.committee S.parameters.fallbackLength = .ok () := by
  intro h
  obtain ⟨w, hr, hm⟩ := exists_play sampleSetup toThirdBlock
    (fun w => (w.core 0).sends.any (fun x => x.1.check fourNodes 1 ≠ .ok ()) = true)
    (by decide +kernel) (by decide +kernel)
  obtain ⟨⟨m, dest, tag⟩, hsent, hne⟩ := List.any_eq_true.mp hm
  obtain ⟨n, hn⟩ := List.getElem?_of_mem hsent
  obtain ⟨e, he⟩ := mem_of_sends hn
  exact of_decide_eq_true hne
    (h sampleSetup w hr rfl signsValidly_symbolic (fun _ => fourNodes_stake_pos) 0 e tag m dest he)

end Ipotane
