import Ipotane.Certificates
import Ipotane.Mempool

/-! What a signature binds: the fields of a message that its digest covers. -/
namespace Ipotane

/-! ### Encodings -/

@[simp] theorem leBytes_length (width n : ℕ) : (leBytes width n).length = width := by
  induction width generalizing n with
  | zero => rfl
  | succ width ih => simp [leBytes, ih]

@[simp] theorem beBytes_length (width n : ℕ) : (beBytes width n).length = width := by
  simp [beBytes]

theorem leBytes_inj {width a b : ℕ} (ha : a < 256 ^ width) (hb : b < 256 ^ width)
    (h : leBytes width a = leBytes width b) : a = b := by
  induction width generalizing a b with
  | zero =>
    simp only [pow_zero] at ha hb
    omega
  | succ width ih =>
    rw [pow_succ] at ha hb
    obtain ⟨hhead, htail⟩ := List.cons.inj h
    have hlow : a % 256 = b % 256 := by
      have hnat := congrArg UInt8.toNat hhead
      simpa using hnat
    have hhigh : a / 256 = b / 256 := by
      refine ih ?_ ?_ htail
      · exact Nat.div_lt_of_lt_mul (by omega)
      · exact Nat.div_lt_of_lt_mul (by omega)
    omega

theorem beBytes_inj {width a b : ℕ} (ha : a < 256 ^ width) (hb : b < 256 ^ width)
    (h : beBytes width a = beBytes width b) : a = b :=
  leBytes_inj ha hb (List.reverse_injective h)

/-- Keys and digests are written with all their bytes. -/
theorem beBytes_fin_inj {a b : Fin (2 ^ 256)}
    (h : beBytes 32 a.val = beBytes 32 b.val) : a = b := by
  have hpow : (256 : ℕ) ^ 32 = 2 ^ 256 := by norm_num
  refine Fin.ext (beBytes_inj ?_ ?_ h)
  · rw [hpow]
    exact a.isLt
  · rw [hpow]
    exact b.isLt

/-- A first field of 32 bytes, and the rest. -/
theorem key_append_inj {k k' : Fin (2 ^ 256)} {l l' : List UInt8} :
    beBytes 32 k.val ++ l = beBytes 32 k'.val ++ l' ↔ k = k' ∧ l = l' := by
  constructor
  · intro h
    obtain ⟨hk, hl⟩ := List.append_inj h (by simp)
    exact ⟨beBytes_fin_inj hk, hl⟩
  · rintro ⟨rfl, rfl⟩
    rfl

@[simp] theorem keyBytes_length (k : PublicKey) : (PublicKey.bytes k).length = 32 :=
  beBytes_length _ _

@[simp] theorem digestBytes_length (d : Digest) : (Digest.bytes d).length = 32 := beBytes_length _ _

theorem payload_length (l : List Digest) : (l.flatMap Digest.bytes).length = 32 * l.length := by
  induction l with
  | nil => rfl
  | cons d l ih =>
    simp only [List.flatMap_cons, List.length_append, digestBytes_length, List.length_cons, ih]
    omega

theorem payload_inj {l l' : List Digest}
    (h : l.flatMap Digest.bytes = l'.flatMap Digest.bytes) : l = l' := by
  induction l generalizing l' with
  | nil =>
    have hlen := congrArg List.length h
    rw [payload_length, payload_length] at hlen
    cases l' with
    | nil => rfl
    | cons d l' => simp at hlen
  | cons d l ih =>
    cases l' with
    | nil =>
      have hlen := congrArg List.length h
      rw [payload_length, payload_length] at hlen
      simp at hlen
    | cons d' l' =>
      obtain ⟨hd, hl⟩ := List.append_inj h (by simp)
      rw [beBytes_fin_inj hd, ih hl]

theorem u64_inj {a b : ℕ} (ha : a < 2 ^ 64) (hb : b < 2 ^ 64)
    (h : leBytes 8 a = leBytes 8 b) : a = b :=
  leBytes_inj (by norm_num; exact ha) (by norm_num; exact hb) h

theorem be64_inj {a b : ℕ} (ha : a < 2 ^ 64) (hb : b < 2 ^ 64)
    (h : beBytes 8 a = beBytes 8 b) : a = b :=
  beBytes_inj (by norm_num; exact ha) (by norm_num; exact hb) h

theorem u8_inj {a b : ℕ} (ha : a < 2 ^ 8) (hb : b < 2 ^ 8)
    (h : leBytes 1 a = leBytes 1 b) : a = b :=
  leBytes_inj (by norm_num; exact ha) (by norm_num; exact hb) h

/-- The layout that dones, votes and halts share: author, round, height and epoch. -/
theorem stamp_inj {k k' : PublicKey} {r r' : List UInt8} {h h' e e' : ℕ} (hr : r.length = r'.length)
    (hh : h < 2 ^ 64) (hh' : h' < 2 ^ 64) (he : e < 2 ^ 64) (he' : e' < 2 ^ 64)
    (heq : k.bytes ++ r ++ leBytes 8 h ++ leBytes 8 e = k'.bytes ++ r' ++ leBytes 8 h' ++
      leBytes 8 e') :
    k = k' ∧ r = r' ∧ h = h' ∧ e = e' := by
  obtain ⟨heq, h4⟩ := List.append_inj' heq (by simp)
  obtain ⟨heq, h3⟩ := List.append_inj' heq (by simp)
  obtain ⟨h1, h2⟩ := List.append_inj' heq hr
  exact ⟨beBytes_fin_inj h1, h2, u64_inj hh hh' h3, u64_inj he he' h4⟩

section Signed

variable [Crypto]

/-- The messages that a node signs with its key. -/
inductive SignedMessage
  | block (b : Block)
  | vote (v : HVote)
  | prepare (p : PrePare)
  | spbVote (x : SPBVote)
  | done (m : MDoneAndShare)
  | prevote (m : MPreVote)
  | mvote (m : MVote)
  | halt (m : MHalt)
deriving DecidableEq

namespace SignedMessage

def author : SignedMessage → PublicKey
  | block b => b.author
  | vote v => v.author
  | prepare p => p.author
  | spbVote x => x.author
  | done m => m.author
  | prevote m => m.author
  | mvote m => m.author
  | halt m => m.author

def signature : SignedMessage → Signature
  | block b => b.signature
  | vote v => v.signature
  | prepare p => p.signature
  | spbVote x => x.signature
  | done m => m.signature
  | prevote m => m.signature
  | mvote m => m.signature
  | halt m => m.signature

def digest : SignedMessage → Digest
  | block b => b.digest
  | vote v => v.digest
  | prepare p => p.digest
  | spbVote x => x.digest
  | done m => m.digest
  | prevote m => m.digest
  | mvote m => m.digest
  | halt m => m.digest

def verify (c : Committee) (fallbackLength : ℕ) : SignedMessage → Check
  | block b => b.verify c
  | vote v => v.verify c
  | prepare p => p.verify c fallbackLength
  | spbVote x => x.verify c
  | done m => m.verify c
  | prevote m => m.verify c fallbackLength
  | mvote m => m.verify c fallbackLength
  | halt m => m.verify c fallbackLength

/-- The part of `verify` that does not look at the signature. -/
def verifyContent (c : Committee) (fallbackLength : ℕ) : SignedMessage → Check
  | block b => do
    ensure (0 < c.stake b.author) (.UnknownAuthority b.author)
    b.qc.check c
  | vote v => ensure (0 < c.stake v.author) (.UnknownAuthority v.author)
  | prepare p => do
    ensure (p.val = OPT ∨ p.val = PES) (.InvalidPrePareTag p.val)
    p.qc.check c
    ensure (¬ (p.qc.tag = PES ∧ p.qc.round ≠ fallbackLength)) (.InvalidPreParePESQC p.qc.round)
  | spbVote x => ensure (0 < c.stake x.author) (.UnknownAuthority x.author)
  | done m => m.share.verify c
  | prevote m => do
    ensure (0 < c.stake m.author) (.UnknownAuthority m.author)
    m.tag.verify c fallbackLength
  | mvote m => do
    ensure (0 < c.stake m.author) (.UnknownAuthority m.author)
    m.tag.verify c fallbackLength
  | halt m => do
    ensure (0 < c.stake m.author) (.UnknownAuthority m.author)
    ensure (m.proof.phase = FIN_PHASE) .InvalidFinProof
    m.value.verify c m.proof fallbackLength

/-- The bytes that the digest hashes. -/
def hashed : SignedMessage → List UInt8
  | block b => b.author.bytes ++ leBytes 8 b.height ++ leBytes 8 b.epoch ++
      b.payload.flatMap Digest.bytes ++ b.qc.hash.bytes ++ leBytes 1 b.tag
  | vote v => v.hash.bytes ++ leBytes 8 v.height ++ leBytes 8 v.round ++ leBytes 1 v.tag ++
      leBytes 8 v.epoch ++ v.proposer.bytes
  | prepare p => leBytes 1 p.val
  | spbVote x => x.hash.bytes ++ beBytes 1 x.phase
  | done m => m.author.bytes ++ beBytes 8 m.round ++ leBytes 8 m.height ++ leBytes 8 m.epoch
  | prevote m => m.author.bytes ++ m.leader.bytes ++ beBytes 8 m.round ++ leBytes 8 m.height ++
      leBytes 8 m.epoch ++ m.tag.bytes
  | mvote m => m.author.bytes ++ beBytes 8 m.round ++ leBytes 8 m.height ++ leBytes 8 m.epoch ++
      m.tag.bytes
  | halt m => m.author.bytes ++ leBytes 8 m.round ++ leBytes 8 m.height ++ leBytes 8 m.epoch

theorem digest_eq (m : SignedMessage) : m.digest = sha512 m.hashed := by
  cases m <;> rfl

/-- The numbers of a message fit the types of the source. -/
def Ranged : SignedMessage → Prop
  | block b => b.height < 2 ^ 64 ∧ b.epoch < 2 ^ 64 ∧ b.tag < 2 ^ 8
  | vote v => v.height < 2 ^ 64 ∧ v.round < 2 ^ 64 ∧ v.tag < 2 ^ 8 ∧ v.epoch < 2 ^ 64
  | prepare p => p.val < 2 ^ 8
  | spbVote x => x.phase < 2 ^ 8
  | done m => m.round < 2 ^ 64 ∧ m.height < 2 ^ 64 ∧ m.epoch < 2 ^ 64
  | prevote m => m.round < 2 ^ 64 ∧ m.height < 2 ^ 64 ∧ m.epoch < 2 ^ 64
  | mvote m => m.round < 2 ^ 64 ∧ m.height < 2 ^ 64 ∧ m.epoch < 2 ^ 64
  | halt m => m.round < 2 ^ 64 ∧ m.height < 2 ^ 64 ∧ m.epoch < 2 ^ 64

instance (m : SignedMessage) : Decidable m.Ranged := by
  unfold Ranged
  split <;> infer_instance

/-- Two messages that agree in every field that is hashed. A done and a halt are hashed alike,
up to the order of the bytes of the round. -/
def SameCovered : SignedMessage → SignedMessage → Prop
  | block a, block b => a.author = b.author ∧ a.height = b.height ∧ a.epoch = b.epoch ∧
      a.payload = b.payload ∧ a.qc.hash = b.qc.hash ∧ a.tag = b.tag
  | vote a, vote b => a.hash = b.hash ∧ a.height = b.height ∧ a.round = b.round ∧ a.tag = b.tag ∧
      a.epoch = b.epoch ∧ a.proposer = b.proposer
  | prepare a, prepare b => a.val = b.val
  | spbVote a, spbVote b => a.hash = b.hash ∧ a.phase = b.phase
  | done a, done b => a.author = b.author ∧ a.round = b.round ∧ a.height = b.height ∧
      a.epoch = b.epoch
  | prevote a, prevote b => a.author = b.author ∧ a.leader = b.leader ∧ a.round = b.round ∧
      a.height = b.height ∧ a.epoch = b.epoch ∧ (a.tag = .No ↔ b.tag = .No)
  | mvote a, mvote b => a.author = b.author ∧ a.round = b.round ∧ a.height = b.height ∧
      a.epoch = b.epoch ∧ (a.tag = .No ↔ b.tag = .No)
  | halt a, halt b => a.author = b.author ∧ a.round = b.round ∧ a.height = b.height ∧
      a.epoch = b.epoch
  | done a, halt b => a.author = b.author ∧ beBytes 8 a.round = leBytes 8 b.round ∧
      a.height = b.height ∧ a.epoch = b.epoch
  | halt a, done b => a.author = b.author ∧ leBytes 8 a.round = beBytes 8 b.round ∧
      a.height = b.height ∧ a.epoch = b.epoch
  | _, _ => False

instance (x m : SignedMessage) : Decidable (SameCovered x m) := by
  unfold SameCovered
  split <;> infer_instance

/-- The message as its author makes it. -/
def Made (x : SignedMessage) : Prop := x.signature = Crypto.sign x.author x.digest

instance (x : SignedMessage) : Decidable x.Made :=
  inferInstanceAs (Decidable (x.signature = Crypto.sign x.author x.digest))

variable {c : Committee} {fallbackLength : ℕ} {m x : SignedMessage}

theorem verify_iff : m.verify c fallbackLength = .ok () ↔
    Crypto.verify m.signature m.digest m.author = true ∧
    m.verifyContent c fallbackLength = .ok () := by
  cases m with
  | block b =>
    simp only [verify, Block.verify, verifyContent, check_seq, checkSignature, ensure_ok, signature,
      digest, author]
    tauto
  | vote v =>
    simp only [verify, HVote.verify, verifyContent, check_seq, checkSignature, ensure_ok, signature,
      digest, author]
    tauto
  | prepare p =>
    simp only [verify, PrePare.verify, verifyContent, check_seq, checkSignature,
      ensure_ok, signature, digest, author]
    tauto
  | spbVote x =>
    simp only [verify, SPBVote.verify, verifyContent, check_seq, checkSignature,
      ensure_ok, signature, digest, author]
    tauto
  | done m =>
    simp only [verify, MDoneAndShare.verify, verifyContent, check_seq, checkSignature, ensure_ok,
      signature, digest, author]
  | prevote m =>
    simp only [verify, MPreVote.verify, verifyContent, check_seq, checkSignature,
      ensure_ok, signature, digest, author]
    tauto
  | mvote m =>
    simp only [verify, MVote.verify, verifyContent, check_seq, checkSignature, ensure_ok, signature,
      digest, author]
    tauto
  | halt m =>
    simp only [verify, MHalt.verify, verifyContent, check_seq, checkSignature, ensure_ok, signature,
      digest, author]
    tauto

/-! ### The hashed bytes determine the fields they are made of -/

theorem preVoteTag_bytes_iff {a b : PreVoteTag} : a.bytes = b.bytes ↔ (a = .No ↔ b = .No) := by
  cases a <;> cases b <;> simp [PreVoteTag.bytes]

theorem mvoteTag_bytes_iff {a b : MVoteTag} : a.bytes = b.bytes ↔ (a = .No ↔ b = .No) := by
  cases a <;> cases b <;> simp [MVoteTag.bytes]

/-- The number of hashed bytes tells the kinds apart, except for dones and halts. -/
theorem hashed_length (m : SignedMessage) : m.hashed.length =
    match m with
    | block b => 81 + 32 * b.payload.length
    | vote _ => 89
    | prepare _ => 1
    | spbVote _ => 33
    | done _ | halt _ => 56
    | prevote m => 88 + m.tag.bytes.length
    | mvote m => 56 + m.tag.bytes.length := by
  cases m <;> simp only [hashed, List.length_append, keyBytes_length, digestBytes_length,
    leBytes_length, beBytes_length, payload_length]
  omega

theorem preVoteTag_length (t : PreVoteTag) : t.bytes.length = 10 ∨ t.bytes.length = 11 := by
  cases t
  · exact .inr rfl
  · exact .inl rfl

theorem mvoteTag_length (t : MVoteTag) : t.bytes.length = 7 ∨ t.bytes.length = 8 := by
  cases t
  · exact .inr rfl
  · exact .inl rfl

/-- A number for each kind of message; a done and a halt have the same one. -/
def kind : SignedMessage → ℕ
  | block _ => 0
  | vote _ => 1
  | prepare _ => 2
  | spbVote _ => 3
  | done _ | halt _ => 4
  | prevote _ => 5
  | mvote _ => 6

/-- The kind of the messages with so many hashed bytes. -/
def kindOf (length : ℕ) : ℕ :=
  if length = 89 then 1
  else if length = 1 then 2
  else if length = 33 then 3
  else if length = 56 then 4
  else if length = 98 ∨ length = 99 then 5
  else if length = 63 ∨ length = 64 then 6
  else 0

theorem kind_eq (m : SignedMessage) : m.kind = kindOf m.hashed.length := by
  rw [hashed_length]
  unfold kindOf
  cases m with
  | block b =>
    dsimp only [kind]
    split_ifs <;> omega
  | prevote m =>
    have hlen := preVoteTag_length m.tag
    dsimp only [kind]
    split_ifs <;> omega
  | mvote m =>
    have hlen := mvoteTag_length m.tag
    dsimp only [kind]
    split_ifs <;> omega
  | _ => rfl

theorem sameCovered_of_hashed (hx : x.Ranged) (hm : m.Ranged) (h : x.hashed = m.hashed) :
    SameCovered x m := by
  have hkind : x.kind = m.kind := by rw [kind_eq, kind_eq, h]
  have hlen := congrArg List.length h
  cases x with
  | block a =>
    cases m with
    | block b =>
      obtain ⟨h, htag⟩ := List.append_inj' h (by simp)
      obtain ⟨h, hqc⟩ := List.append_inj' h (by simp)
      obtain ⟨h, hpay⟩ := List.append_inj h (by simp)
      obtain ⟨h, hepoch⟩ := List.append_inj' h (by simp)
      obtain ⟨hauthor, hheight⟩ := List.append_inj' h (by simp)
      exact ⟨beBytes_fin_inj hauthor, u64_inj hx.1 hm.1 hheight, u64_inj hx.2.1 hm.2.1 hepoch,
        payload_inj hpay, beBytes_fin_inj hqc, u8_inj hx.2.2 hm.2.2 htag⟩
    | _ => cases hkind
  | vote a =>
    cases m with
    | vote b =>
      obtain ⟨h, hproposer⟩ := List.append_inj' h (by simp)
      obtain ⟨h, hepoch⟩ := List.append_inj' h (by simp)
      obtain ⟨h, htag⟩ := List.append_inj' h (by simp)
      obtain ⟨h, hround⟩ := List.append_inj' h (by simp)
      obtain ⟨hhash, hheight⟩ := List.append_inj' h (by simp)
      exact ⟨beBytes_fin_inj hhash, u64_inj hx.1 hm.1 hheight, u64_inj hx.2.1 hm.2.1 hround,
        u8_inj hx.2.2.1 hm.2.2.1 htag, u64_inj hx.2.2.2 hm.2.2.2 hepoch, beBytes_fin_inj hproposer⟩
    | _ => cases hkind
  | prepare a =>
    cases m with
    | prepare b => exact u8_inj hx hm h
    | _ => cases hkind
  | spbVote a =>
    cases m with
    | spbVote b =>
      obtain ⟨hhash, hphase⟩ := List.append_inj' h (by simp)
      exact ⟨beBytes_fin_inj hhash, u8_inj hx hm (List.reverse_injective hphase)⟩
    | _ => cases hkind
  | done a =>
    cases m with
    | done b =>
      obtain ⟨hauthor, hround, hheight, hepoch⟩ :=
        stamp_inj (by simp) hx.2.1 hm.2.1 hx.2.2 hm.2.2 h
      exact ⟨hauthor, be64_inj hx.1 hm.1 hround, hheight, hepoch⟩
    | halt b => exact stamp_inj (by simp) hx.2.1 hm.2.1 hx.2.2 hm.2.2 h
    | _ => cases hkind
  | prevote a =>
    cases m with
    | prevote b =>
      have htags : a.tag.bytes.length = b.tag.bytes.length := by
        simp only [hashed_length] at hlen
        omega
      obtain ⟨h, htag⟩ := List.append_inj' h htags
      obtain ⟨h, hepoch⟩ := List.append_inj' h (by simp)
      obtain ⟨h, hheight⟩ := List.append_inj' h (by simp)
      obtain ⟨h, hround⟩ := List.append_inj' h (by simp)
      obtain ⟨hauthor, hleader⟩ := List.append_inj' h (by simp)
      exact ⟨beBytes_fin_inj hauthor, beBytes_fin_inj hleader, be64_inj hx.1 hm.1 hround,
        u64_inj hx.2.1 hm.2.1 hheight, u64_inj hx.2.2 hm.2.2 hepoch, preVoteTag_bytes_iff.mp htag⟩
    | _ => cases hkind
  | mvote a =>
    cases m with
    | mvote b =>
      have htags : a.tag.bytes.length = b.tag.bytes.length := by
        simp only [hashed_length] at hlen
        omega
      obtain ⟨h, htag⟩ := List.append_inj' h htags
      obtain ⟨hauthor, hround, hheight, hepoch⟩ :=
        stamp_inj (by simp) hx.2.1 hm.2.1 hx.2.2 hm.2.2 h
      exact ⟨hauthor, be64_inj hx.1 hm.1 hround, hheight, hepoch, mvoteTag_bytes_iff.mp htag⟩
    | _ => cases hkind
  | halt a =>
    cases m with
    | halt b =>
      obtain ⟨hauthor, hround, hheight, hepoch⟩ :=
        stamp_inj (by simp) hx.2.1 hm.2.1 hx.2.2 hm.2.2 h
      exact ⟨hauthor, u64_inj hx.1 hm.1 hround, hheight, hepoch⟩
    | done b => exact stamp_inj (by simp) hx.2.1 hm.2.1 hx.2.2 hm.2.2 h
    | _ => cases hkind

theorem SameCovered.hashed (h : SameCovered x m) : x.hashed = m.hashed := by
  unfold SameCovered at h
  split at h
  · obtain ⟨h1, h2, h3, h4, h5, h6⟩ := h
    simp only [SignedMessage.hashed, h1, h2, h3, h4, h5, h6]
  · obtain ⟨h1, h2, h3, h4, h5, h6⟩ := h
    simp only [SignedMessage.hashed, h1, h2, h3, h4, h5, h6]
  · simp only [SignedMessage.hashed, h]
  · simp only [SignedMessage.hashed, h.1, h.2]
  · simp only [SignedMessage.hashed, h.1, h.2.1, h.2.2.1, h.2.2.2]
  · obtain ⟨h1, h2, h3, h4, h5, h6⟩ := h
    simp only [SignedMessage.hashed, h1, h2, h3, h4, h5, preVoteTag_bytes_iff.mpr h6]
  · obtain ⟨h1, h2, h3, h4, h5⟩ := h
    simp only [SignedMessage.hashed, h1, h2, h3, h4, mvoteTag_bytes_iff.mpr h5]
  · simp only [SignedMessage.hashed, h.1, h.2.1, h.2.2.1, h.2.2.2]
  · simp only [SignedMessage.hashed, h.1, h.2.1, h.2.2.1, h.2.2.2]
  · simp only [SignedMessage.hashed, h.1, h.2.1, h.2.2.1, h.2.2.2]
  · exact h.elim

theorem hashed_eq_iff (hx : x.Ranged) (hm : m.Ranged) : x.hashed = m.hashed ↔ SameCovered x m :=
  ⟨sameCovered_of_hashed hx hm, SameCovered.hashed⟩

/-- A signature verifies for the digest that was signed and for no other. -/
def Binding : Prop := ∀ (k : PublicKey) (d d' : Digest),
    Crypto.verify (Crypto.sign k d) d' k = true ↔ d' = d

end SignedMessage

/-! ### All that a key signs -/

/-- The bytes that the digest of a payload hashes: the mempool signs them with the same key, and the
transactions are those of the clients. -/
def Payload.hashed (p : Payload) : List UInt8 := p.author.bytes ++ p.transactions.flatten

/-- The hashed bytes of the payload are those of the message: its author takes the place of the
first field, its transactions that of the others. -/
def Payload.Spells (p : Payload) : SignedMessage → Prop
  | .block b => p.author = b.author ∧ p.transactions.flatten = leBytes 8 b.height ++
      leBytes 8 b.epoch ++ b.payload.flatMap Digest.bytes ++ b.qc.hash.bytes ++ leBytes 1 b.tag
  | .vote v => p.author.val = v.hash.val ∧ p.transactions.flatten = leBytes 8 v.height ++
      leBytes 8 v.round ++ leBytes 1 v.tag ++ leBytes 8 v.epoch ++ v.proposer.bytes
  | .prepare _ => False
  | .spbVote x => p.author.val = x.hash.val ∧ p.transactions.flatten = beBytes 1 x.phase
  | .done m => p.author = m.author ∧ p.transactions.flatten = beBytes 8 m.round ++
      leBytes 8 m.height ++ leBytes 8 m.epoch
  | .prevote m => p.author = m.author ∧ p.transactions.flatten = m.leader.bytes ++
      beBytes 8 m.round ++ leBytes 8 m.height ++ leBytes 8 m.epoch ++ m.tag.bytes
  | .mvote m => p.author = m.author ∧ p.transactions.flatten = beBytes 8 m.round ++
      leBytes 8 m.height ++ leBytes 8 m.epoch ++ m.tag.bytes
  | .halt m => p.author = m.author ∧ p.transactions.flatten = leBytes 8 m.round ++
      leBytes 8 m.height ++ leBytes 8 m.epoch

theorem Payload.hashed_eq_message_iff {p : Payload} {m : SignedMessage} :
    p.hashed = m.hashed ↔ p.Spells m := by
  cases m with
  | prepare q =>
    refine iff_of_false ?_ id
    intro h
    have hlen := congrArg List.length h
    simp only [Payload.hashed, SignedMessage.hashed, List.length_append, keyBytes_length,
      leBytes_length] at hlen
    omega
  | vote v =>
    simp only [Payload.hashed, SignedMessage.hashed, PublicKey.bytes, Digest.bytes, Spells,
      List.append_assoc, key_append_inj, Fin.ext_iff]
  | spbVote x =>
    simp only [Payload.hashed, SignedMessage.hashed, PublicKey.bytes, Digest.bytes, Spells,
      key_append_inj, Fin.ext_iff]
  | _ =>
    simp only [Payload.hashed, SignedMessage.hashed, PublicKey.bytes, Spells, List.append_assoc,
      key_append_inj]

/-- What the signature service of a node is asked to sign with its key. -/
inductive Signable
  | message (x : SignedMessage)
  | payload (p : Payload)
deriving DecidableEq

namespace Signable

def author : Signable → PublicKey
  | message x => x.author
  | payload p => p.author

def signature : Signable → Signature
  | message x => x.signature
  | payload p => p.signature

def hashed : Signable → List UInt8
  | message x => x.hashed
  | payload p => p.hashed

/-- The numbers fit the types of the source; the bytes of a payload are any. -/
def Ranged : Signable → Prop
  | message x => x.Ranged
  | payload _ => True

instance (x : Signable) : Decidable x.Ranged := by
  unfold Ranged
  split <;> infer_instance

/-- `x` as its author makes it. -/
def Made (x : Signable) : Prop := x.signature = Crypto.sign x.author (sha512 x.hashed)

/-- The message agrees with `x` in every field that is hashed. -/
def Covers : Signable → SignedMessage → Prop
  | message x, m => SignedMessage.SameCovered m x
  | payload p, m => p.Spells m

/-- The claim that `verify` makes about a message that carries the signature of `x`. -/
def Authentic (c : Committee) (fallbackLength : ℕ) (x : Signable) (m : SignedMessage) : Prop :=
  m.verify c fallbackLength = .ok () → message m = x

variable {c : Committee} {fallbackLength : ℕ} {m : SignedMessage} {x : Signable}

theorem hashed_eq_iff (hm : m.Ranged) (hx : x.Ranged) : m.hashed = x.hashed ↔ x.Covers m := by
  cases x with
  | message x => exact SignedMessage.hashed_eq_iff hm hx
  | payload p => exact eq_comm.trans Payload.hashed_eq_message_iff

theorem verify_made (hb : SignedMessage.Binding) (hx : x.Made) (hs : m.signature = x.signature)
    (ha : m.author = x.author) :
    Crypto.verify m.signature m.digest m.author = true ↔ sha512 m.hashed = sha512 x.hashed := by
  rw [hs, ha, hx, SignedMessage.digest_eq]
  exact hb _ _ _

/-- A message with the signature of `x` is `x`, whenever it is accepted, if and only if no other
message agrees with it in the covered fields and passes the checks of its content. -/
theorem authentic_iff_covered (hb : SignedMessage.Binding)
    (hc : sha512 m.hashed = sha512 x.hashed → m.hashed = x.hashed) (hx : x.Made) (hxr : x.Ranged)
    (hmr : m.Ranged) (hs : m.signature = x.signature) (ha : m.author = x.author) :
    Authentic c fallbackLength x m ↔
      (x.Covers m → m.verifyContent c fallbackLength = .ok () → message m = x) := by
  have hdigest : sha512 m.hashed = sha512 x.hashed ↔ x.Covers m := by
    rw [← hashed_eq_iff hmr hxr]
    exact ⟨hc, congrArg sha512⟩
  unfold Authentic
  rw [SignedMessage.verify_iff, verify_made hb hx hs ha, hdigest]
  exact and_imp

end Signable

end Signed

/-! ### A vote that binds its height and a prepare that does not -/

theorem symbolic_binding : SignedMessage.Binding := by
  intro k d d'
  change decide ((k, d) = (k, d')) = true ↔ d' = d
  simp [eq_comm]

def sampleVote : HVote := HVote.new leaderProposal 0 OPT

/-- The vote with another height. -/
def movedVote : HVote := { sampleVote with height := 2 }

theorem movedVote_authentic :
    Signable.Authentic fourNodes 1 (.message (.vote sampleVote)) (.vote movedVote) := by
  have hiff : Signable.Authentic fourNodes 1 (.message (.vote sampleVote)) (.vote movedVote) ↔ _ :=
    Signable.authentic_iff_covered symbolic_binding (by decide +kernel) rfl (by decide) (by decide)
      rfl rfl
  refine hiff.mpr ?_
  intro h
  exact absurd h.2.1 (by decide)

def signedPrepare : PrePare := PrePare.new 0 0 1 .genesis OPT

/-- The prepare with another epoch and another height. -/
def movedPrepare : PrePare := { signedPrepare with epoch := 3, height := 7 }

/-- The digest of a prepare covers its value alone. -/
theorem movedPrepare_not_authentic : SignedMessage.Binding ∧
    (Signable.message (.prepare signedPrepare)).Made ∧
    (SignedMessage.prepare movedPrepare).hashed = (SignedMessage.prepare signedPrepare).hashed ∧
    ¬ Signable.Authentic fourNodes 1 (.message (.prepare signedPrepare))
    (.prepare movedPrepare) := by
  refine ⟨symbolic_binding, rfl, rfl, ?_⟩
  intro h
  have heq := h (by decide +kernel)
  revert heq
  decide

end Ipotane
