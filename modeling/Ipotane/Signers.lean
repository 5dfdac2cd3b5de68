import Ipotane.System
import Ipotane.Authenticity

/-! Who stands behind a certificate when at most `f` of the stake does not run the program. -/
namespace Ipotane

open Lib

section Signers

variable [Crypto] {c : Committee} {honest : PublicKey → Prop} {core : Cores} {q : QC}

/-- The message that is signed with the key of the node; a share is signed with another one. -/
def SignedItem.message : SignedItem → Option SignedMessage
  | block b => some (.block b)
  | vote v => some (.vote v)
  | prepare p => some (.prepare p)
  | spbVote x => some (.spbVote x)
  | share _ => none
  | done m => some (.done m)
  | prevote m => some (.prevote m)
  | mvote m => some (.mvote m)
  | halt m => some (.halt m)

/-- The node has had the message signed. -/
def Core.Signed (s : Core) (m : SignedMessage) : Prop :=
  ∃ item : SignedItem, s.Ever (.sign item) ∧ item.message = some m

def Core.signedMessages (s : Core) : List SignedMessage :=
  s.trace.filterMap fun x =>
    match x.2 with
    | .sign item => item.message
    | _ => none

theorem Core.signed_iff {s : Core} {m : SignedMessage} : s.Signed m ↔ m ∈ s.signedMessages := by
  constructor
  · rintro ⟨item, ⟨e, hx⟩, hm⟩
    exact List.mem_filterMap.mpr ⟨_, hx, hm⟩
  · intro h
    obtain ⟨⟨e, y⟩, hx, hm⟩ := List.mem_filterMap.mp h
    cases y with
    | sign item => exact ⟨item, ⟨e, hx⟩, hm⟩
    | _ => cases hm

/-- At most `f` of the stake belongs to nodes that do not run the program. -/
def FaultBound (c : Committee) (honest : PublicKey → Prop) : Prop :=
  ∀ A : Finset PublicKey, A ⊆ c.names → (∀ k ∈ A, ¬ honest k) → c.stakeOf A ≤ c.maxFaulty

omit [Crypto] in
theorem faultBound_of_filter [DecidablePred honest]
    (h : c.stakeOf (c.names.filter (¬ honest ·)) ≤ c.maxFaulty) : FaultBound c honest := by
  intro A hA hn
  refine le_trans (Committee.stakeOf_mono ?_) h
  intro k hk
  exact Finset.mem_filter.mpr ⟨hA hk, hn k hk⟩

omit [Crypto] in
theorem FaultBound.exists_honest (hf : FaultBound c honest) {A : Finset PublicKey}
    (hA : A ⊆ c.names) (hq : c.maxFaulty < c.stakeOf A) : ∃ k ∈ A, honest k := by
  by_contra hn
  have hle : c.stakeOf A ≤ c.maxFaulty := by
    refine hf A hA ?_
    intro k hk hh
    exact hn ⟨k, hk, hh⟩
  omega

namespace QC

/-- The vote that the votes of a certificate sign. -/
def vote (q : QC) : HVote :=
  ⟨q.hash, q.height, q.round, q.epoch, q.proposer, q.tag, q.acceptor, default⟩

/-- The primitives do for `q` what they are there for: no signature of an honest node is forged,
what such a node has signed hashes to the digest of `q` only if it is the same bytes, and the
numbers are those of the source's types. -/
structure Genuine (q : QC) (honest : PublicKey → Prop) (core : Cores) : Prop where
  ranged : (SignedMessage.vote q.vote).Ranged
  signed : ∀ v ∈ q.votes, honest v.1 → Crypto.verify v.2 q.digest v.1 = true →
    ∃ m, (core v.1).Signed m ∧ m.digest = q.digest
  covered : ∀ k m, honest k → (core k).Signed m → m.digest = q.digest →
    m.Ranged ∧ m.hashed = (SignedMessage.vote q.vote).hashed

/-- What is to be evaluated when the honest nodes are listed. -/
def GenuineAmong (q : QC) (l : List PublicKey) (core : Cores) : Prop :=
  (SignedMessage.vote q.vote).Ranged ∧
  (∀ v ∈ q.votes, v.1 ∈ l → Crypto.verify v.2 q.digest v.1 = true →
    ∃ m ∈ (core v.1).signedMessages, m.digest = q.digest) ∧
  (l.all fun k => (core k).signedMessages.all fun m => decide (m.digest = q.digest →
    m.Ranged ∧ SignedMessage.SameCovered m (.vote q.vote))) = true

instance (q : QC) (l : List PublicKey) (core : Cores) : Decidable (q.GenuineAmong l core) :=
  inferInstanceAs (Decidable (_ ∧ _ ∧ _))

theorem GenuineAmong.genuine {l : List PublicKey} (h : q.GenuineAmong l core) :
    q.Genuine (· ∈ l) core := by
  obtain ⟨hranged, hsigned, hcovered⟩ := h
  refine ⟨hranged, ?_, ?_⟩
  · intro v hv hl hver
    obtain ⟨m, hm, hd⟩ := hsigned v hv hl hver
    exact ⟨m, Core.signed_iff.mpr hm, hd⟩
  · intro k m hl hm hd
    have hm' := List.all_eq_true.mp (List.all_eq_true.mp hcovered k hl) m (Core.signed_iff.mp hm)
    obtain ⟨hr, hsame⟩ := of_decide_eq_true hm' hd
    exact ⟨hr, hsame.hashed⟩

/-- The vote is one that the certificate counts. -/
def Counts (q : QC) (v : HVote) : Prop :=
  v.hash = q.hash ∧ v.height = q.height ∧ v.round = q.round ∧ v.tag = q.tag ∧ v.epoch = q.epoch ∧
    v.proposer = q.proposer

/-- An honest name in a certificate stands for a vote that it counts. -/
theorem Genuine.voted (hg : q.Genuine honest core) (hb : q.Backed c) {k : PublicKey} (hk : honest k)
    (hm : k ∈ q.votes.map Prod.fst) : ∃ v, (core k).Ever (.sign (.vote v)) ∧ q.Counts v := by
  obtain ⟨⟨k, sig⟩, hmem, rfl⟩ := List.mem_map.mp hm
  obtain ⟨m, hsigned, hd⟩ := hg.signed _ hmem hk (hb.valid _ hmem)
  obtain ⟨hranged, hhash⟩ := hg.covered k m hk hsigned hd
  obtain ⟨item, hever, hitem⟩ := hsigned
  have hsame := SignedMessage.sameCovered_of_hashed hranged hg.ranged hhash
  cases m with
  | vote v =>
    refine ⟨v, ?_, hsame⟩
    cases item <;> cases hitem
    exact hever
  | _ => exact hsame.elim

theorem Backed.subset_names (hb : q.Backed c) : (q.votes.map Prod.fst).toFinset ⊆ c.names := by
  intro k hk
  obtain ⟨v, hv, rfl⟩ := List.mem_map.mp (List.mem_toFinset.mp hk)
  exact Committee.mem_names_of_stake_pos (hb.member v hv)

/-- Behind a certificate there is a vote of an honest node. -/
theorem Backed.exists_vote (hb : q.Backed c) (hg : q.Genuine honest core)
    (hf : FaultBound c honest) :
    ∃ k v, honest k ∧ (core k).Ever (.sign (.vote v)) ∧ q.Counts v := by
  obtain ⟨k, hk, hh⟩ := hf.exists_honest hb.subset_names
    (Committee.maxFaulty_lt_quorumThreshold.trans_le hb.quorum)
  obtain ⟨v, hv, hc⟩ := hg.voted hb hh (List.mem_toFinset.mp hk)
  exact ⟨k, v, hh, hv, hc⟩

end QC

/-! ### Votes are made for blocks -/

theorem Core.Records.vote_made {cfg : Config} {s t : Core} {v : HVote}
    (h : Core.Records cfg s t (.sign (.vote v))) : ∃ b, v = HVote.new b cfg.name v.tag := by
  cases h with
  | opt h => exact h.elim
  | pes _ h =>
    obtain ⟨b, rfl, -⟩ := h
    exact ⟨b, rfl⟩
  | vote _ _ _ _ _ _ => exact ⟨_, rfl⟩

theorem Core.Reachable.vote_made {cfg : Config} {s : Core} {alive : Bool}
    (h : Core.Reachable cfg s alive) {v : HVote} (hv : s.Ever (.sign (.vote v))) :
    ∃ b, v = HVote.new b cfg.name v.tag := by
  obtain ⟨e, hv⟩ := hv
  refine h.recorded (P := fun x => ∀ v, x.2 = .sign (.vote v) → ∃ b, v = HVote.new b cfg.name v.tag)
    ?_ ?_ _ hv v rfl
  · rintro u t y hr v rfl
    exact hr.vote_made
  · rintro e y ho v rfl
    exact absurd trivial ho

/-- An optimistic vote is on record with the block it is for. -/
def Core.VotesEndorse (cfg : Config) (s : Core) : Prop :=
  ∀ v, s.Ever (.sign (.vote v)) → v.tag = OPT → ∃ b, s.Ever (.endorse b) ∧
    v = HVote.new b cfg.name OPT

theorem Core.VotesEndorse.mono {cfg : Config} {s t : Core} (hs : s.VotesEndorse cfg)
    (ht : s.trace <:+ t.trace) (hv : ∀ v, t.Ever (.sign (.vote v)) → v.tag = OPT →
      s.Ever (.sign (.vote v)) ∨ ∃ b, t.Ever (.endorse b) ∧ v = HVote.new b cfg.name OPT) :
    t.VotesEndorse cfg := by
  intro v h htag
  rcases hv v h htag with h | h
  · obtain ⟨b, ⟨e, he⟩, hb⟩ := hs v h htag
    exact ⟨b, ⟨e, ht.subset he⟩, hb⟩
  · exact h

theorem Core.Step.vote_endorsed {cfg : Config} {s t : Core} {v : HVote} (h : Core.Step cfg s t)
    (hv : t.Ever (.sign (.vote v))) (htag : v.tag = OPT) :
    s.Ever (.sign (.vote v)) ∨ ∃ b, t.Ever (.endorse b) ∧ v = HVote.new b cfg.name OPT := by
  obtain ⟨e, hv⟩ := hv
  rcases h.recorded hv with hv | ⟨_, hr⟩
  · exact .inl ⟨e, hv⟩
  · refine .inr ?_
    cases hr with
    | opt h => exact h.elim
    | pes _ h =>
      obtain ⟨b, rfl, -⟩ := h
      cases htag
    | @vote b _ _ _ _ _ ht =>
      refine ⟨b, ⟨s.epoch, ?_⟩, rfl⟩
      rw [ht]
      exact List.mem_cons_of_mem _ List.mem_cons_self

theorem Core.Reachable.votesEndorse {cfg : Config} {s : Core} {alive : Bool}
    (h : Core.Reachable cfg s alive) : s.VotesEndorse cfg := by
  refine (h.invariant (C := fun _ => True) (fun _ _ _ h => h) ?_ ?_ ?_).2 trivial
  · rintro v ⟨e, hv⟩
    cases List.mem_singleton.mp hv
  · intro s m hs _
    refine hs.mono (List.suffix_cons _ _) ?_
    rintro v ⟨e, hv⟩ _
    rcases List.mem_cons.mp hv with hv | hv
    · cases hv
    · exact .inl ⟨e, hv⟩
  · intro s t _ hs _ ht
    refine hs.mono ht.trace fun v hv htag => ?_
    cases ht with
    | step ht => exact ht.vote_endorsed hv htag
    | epoch _ ht =>
      subst ht
      obtain ⟨e, hv⟩ := hv
      exact .inl ⟨e, Core.mem_renewed hv trivial⟩

/-- An optimistic certificate is for a block that an honest node has voted for. -/
theorem QC.Backed.exists_endorsed {S : Setup}
    {foreign : Cores → ConsensusMessage → Prop} {w : World}
    (h : Run S honest foreign w) (hb : q.Backed S.committee) (hg : q.Genuine honest w.core)
    (hf : FaultBound S.committee honest) (ht : q.tag = OPT) :
    ∃ k b, honest k ∧ (w.core k).Ever (.endorse b) ∧ b.digest = q.hash ∧ b.height = q.height ∧
      b.epoch = q.epoch := by
  obtain ⟨k, v, hk, hv, hash, height, _, tag, epoch, _⟩ := hb.exists_vote hg hf
  obtain ⟨b, hb, rfl⟩ := (h.reachable k).votesEndorse v hv (tag.trans ht)
  exact ⟨k, b, hk, hb, hash, height, epoch⟩

/-- A certificate is for a block that an honest node has voted for. -/
theorem QC.Backed.exists_block {S : Setup} {foreign : Cores → ConsensusMessage → Prop} {w : World}
    (h : Run S honest foreign w) (hb : q.Backed S.committee) (hg : q.Genuine honest w.core)
    (hf : FaultBound S.committee honest) :
    ∃ k b, honest k ∧ (w.core k).Ever (.sign (.vote (HVote.new b k q.tag))) ∧
      b.digest = q.hash ∧ b.height = q.height ∧ b.epoch = q.epoch := by
  obtain ⟨k, v, hk, hv, hash, height, _, tag, epoch, _⟩ := hb.exists_vote hg hf
  obtain ⟨b, hvb⟩ := (h.reachable k).vote_made hv
  rw [tag] at hvb
  subst hvb
  exact ⟨k, b, hk, hv, hash, height, epoch⟩

end Signers

end Ipotane
