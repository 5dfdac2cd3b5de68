import Ipotane.Authenticity
import Ipotane.Lib.Base64
import Ipotane.Lib.Handler

/-! The text form of keys (`crypto/src/lib.rs`), in which every message carries them. -/
namespace Ipotane

open Lib

/-! ### Arrays of bytes -/

/-- `[u8; n]`. -/
abbrev Bytes (n : ℕ) := {bytes : List UInt8 // bytes.length = n}

/-- The number that the bytes write, the lowest one first. -/
def leNat : List UInt8 → ℕ
  | [] => 0
  | b :: bytes => b.toNat + 256 * leNat bytes

theorem leNat_lt (bytes : List UInt8) : leNat bytes < 256 ^ bytes.length := by
  induction bytes with
  | nil => exact Nat.one_pos
  | cons b bytes ih =>
    have hb := b.toNat_lt
    rw [leNat, List.length_cons, pow_succ]
    omega

theorem leBytes_leNat (bytes : List UInt8) : leBytes bytes.length (leNat bytes) = bytes := by
  induction bytes with
  | nil => rfl
  | cons b bytes ih =>
    have hb := b.toNat_lt
    have hlow : leNat (b :: bytes) % 256 = b.toNat := by
      rw [leNat]
      omega
    have hhigh : leNat (b :: bytes) / 256 = leNat bytes := by
      rw [leNat]
      omega
    rw [List.length_cons, leBytes, hlow, hhigh, ih, UInt8.ofNat_toNat]

namespace PublicKey

/-- The key that has these bytes. -/
def ofBytes (b : Bytes 32) : PublicKey := ⟨leNat b.1.reverse, by
  have hlt := leNat_lt b.1.reverse
  rw [List.length_reverse, b.2] at hlt
  exact hlt.trans_eq (by norm_num)⟩

theorem bytes_ofBytes (b : Bytes 32) : (ofBytes b).bytes = b.1 := by
  have hlen : b.1.reverse.length = 32 := by rw [List.length_reverse, b.2]
  have hle := leBytes_leNat b.1.reverse
  rw [hlen] at hle
  change (leBytes 32 (leNat b.1.reverse)).reverse = b.1
  rw [hle, List.reverse_reverse]

theorem bytes_injective {k k' : PublicKey} (h : k.bytes = k'.bytes) : k = k' := beBytes_fin_inj h

end PublicKey

/-- `SecretKey([u8; 64])`. -/
abbrev SecretKey := Bytes 64

/-! ### Base64 -/

/-- `base64::DecodeError`. -/
inductive DecodeError
  | InvalidByte (offset : ℕ) (byte : UInt8)
  | InvalidLength
  | InvalidLastSymbol (offset : ℕ) (byte : UInt8)
deriving DecidableEq

/-- What the node calls in the `base64` crate. -/
structure Base64Crate where
  encode : List UInt8 → String
  decode : String → Except DecodeError (List UInt8)

/-- What is encoded is decoded to the same bytes. -/
def Base64Crate.Correct (b : Base64Crate) : Prop := ∀ bytes, b.decode (b.encode bytes) = .ok bytes

/-- `range end index out of range for slice`. -/
inductive SlicePanic
  | outOfRange
deriving DecidableEq

section Codec

variable (b : Base64Crate)

/-- The body that the two functions `from_base64` share: the slice `bytes[..n]`, which panics when
there are less bytes, is turned into an array. -/
def arrayFromBase64 (n : ℕ) (s : String) : Outcome DecodeError SlicePanic (Bytes n) :=
  match b.decode s with
  | .error e => .err e
  | .ok bytes =>
    if bytes.length < n then .panic .outOfRange
    else if h : (bytes.take n).length = n then .ok ⟨bytes.take n, h⟩
    else .err .InvalidLength

def PublicKey.toBase64 (k : PublicKey) : String := b.encode k.bytes

def PublicKey.fromBase64 (s : String) : Outcome DecodeError SlicePanic PublicKey :=
  (arrayFromBase64 b 32 s).bind fun array => .ok (PublicKey.ofBytes array)

def SecretKey.toBase64 (k : SecretKey) : String := b.encode k.1

def SecretKey.fromBase64 (s : String) : Outcome DecodeError SlicePanic SecretKey :=
  (arrayFromBase64 b 64 s).bind fun array => .ok array

/-- Reads the keys of a message one after the other, as `Deserialize` does. -/
def deserializeKeys : List String → Outcome DecodeError SlicePanic (List PublicKey)
  | [] => .ok []
  | s :: texts =>
    (PublicKey.fromBase64 b s).bind fun key => (deserializeKeys texts).bind fun keys =>
      .ok (key :: keys)

/-- The text is base64 of exactly `n` bytes. -/
def WellFormed (n : ℕ) (s : String) : Prop := ∃ bytes, b.decode s = .ok bytes ∧ bytes.length = n

/-- The codec of a key of `n` bytes accepts the text if it is well formed, and fails with an error
otherwise. -/
structure ExactAt {K : Type} (n : ℕ) (toBase64 : K → String)
    (fromBase64 : String → Outcome DecodeError SlicePanic K) (s : String) : Prop where
  accepts : (∃ k, fromBase64 s = .ok k) ↔ WellFormed b n s
  rejects : ¬ WellFormed b n s → ∃ e, fromBase64 s = .err e
  reencodes : ∀ k, fromBase64 s = .ok k → b.decode (toBase64 k) = b.decode s

/-- A message fails with an error at a malformed key. -/
def FailsMessages (s : String) : Prop := ¬ WellFormed b 32 s →
  ∀ pre post, (∀ x ∈ pre, WellFormed b 32 x) → ∃ e, deserializeKeys b (pre ++ s :: post) = .err e

/-- What is not base64 at all is no key, and what is has as many bytes as the key. -/
def Sized (n : ℕ) (s : String) : Prop := ∀ bytes, b.decode s = .ok bytes → bytes.length = n

variable {b} {n : ℕ} {s : String}

theorem arrayFromBase64_error {e : DecodeError} (h : b.decode s = .error e) :
    arrayFromBase64 b n s = .err e := by
  rw [arrayFromBase64, h]

/-- Too few bytes are a panic, and too many bytes are cut off. -/
theorem arrayFromBase64_short {bytes : List UInt8} (h : b.decode s = .ok bytes)
    (hn : bytes.length < n) : arrayFromBase64 b n s = .panic .outOfRange := by
  simp only [arrayFromBase64, h, if_pos hn]

theorem arrayFromBase64_long {bytes : List UInt8} (h : b.decode s = .ok bytes)
    (hn : n ≤ bytes.length) :
    ∃ array : Bytes n, arrayFromBase64 b n s = .ok array ∧ array.1 = bytes.take n := by
  have hlen : (bytes.take n).length = n := List.length_take_of_le hn
  refine ⟨⟨bytes.take n, hlen⟩, ?_, rfl⟩
  simp only [arrayFromBase64, h, if_neg (Nat.not_lt.mpr hn), dif_pos hlen]

theorem sized_or {s : String} (h : Sized b n s) : (∃ e, b.decode s = .error e) ∨
    WellFormed b n s := by
  cases hd : b.decode s with
  | error e => exact .inl ⟨e, rfl⟩
  | ok bytes => exact .inr ⟨bytes, hd, h bytes hd⟩

section Family

variable {K : Type} {ofArray : Bytes n → K} {bytesOf : K → List UInt8}

theorem fromBase64_wellFormed (ofArray : Bytes n → K) (h : WellFormed b n s) :
    ∃ array : Bytes n, b.decode s = .ok array.1 ∧
      ((arrayFromBase64 b n s).bind fun a => .ok (ofArray a)) = .ok (ofArray array) := by
  obtain ⟨bytes, hd, hlen⟩ := h
  obtain ⟨array, ha, htake⟩ := arrayFromBase64_long hd hlen.ge
  refine ⟨array, ?_, by rw [ha]; rfl⟩
  rw [htake, List.take_of_length_le hlen.le, hd]

/-- The codec of a key is exact at the texts that do not decode to more or less bytes. -/
theorem exactAt_iff (hb : b.Correct) (hof : ∀ array, bytesOf (ofArray array) = array.1) :
    ExactAt b n (fun k => b.encode (bytesOf k))
        (fun s => (arrayFromBase64 b n s).bind fun a => .ok (ofArray a)) s ↔ Sized b n s := by
  constructor
  · intro h bytes hd
    by_contra hne
    have hnot : ¬ WellFormed b n s := by
      rintro ⟨bytes', hd', hlen⟩
      rw [hd] at hd'
      cases hd'
      exact hne hlen
    rcases Nat.lt_or_ge bytes.length n with hlt | hge
    · obtain ⟨e, he⟩ := h.rejects hnot
      rw [arrayFromBase64_short hd hlt] at he
      cases he
    · obtain ⟨array, ha, -⟩ := arrayFromBase64_long hd hge
      exact hnot (h.accepts.mp ⟨ofArray array, by rw [ha]; rfl⟩)
  · intro h
    rcases sized_or h with ⟨e, he⟩ | hw
    · have herr : ((arrayFromBase64 b n s).bind fun a => Outcome.ok (ofArray a)) = .err e := by
        rw [arrayFromBase64_error he]
        rfl
      refine ⟨⟨?_, ?_⟩, fun _ => ⟨e, herr⟩, ?_⟩
      · rintro ⟨k, hk⟩
        rw [herr] at hk
        cases hk
      · rintro ⟨bytes, hd, -⟩
        rw [he] at hd
        cases hd
      · intro k hk
        rw [herr] at hk
        cases hk
    · obtain ⟨array, hd, hok⟩ := fromBase64_wellFormed ofArray hw
      refine ⟨⟨fun _ => hw, fun _ => ⟨_, hok⟩⟩, fun hn => absurd hw hn, fun k hk => ?_⟩
      rw [hok] at hk
      cases hk
      rw [hof, hd, hb]

/-- A key is read from its text. -/
theorem fromBase64_encode (hb : b.Correct) (array : Bytes n) :
    ((arrayFromBase64 b n (b.encode array.1)).bind fun a => .ok (ofArray a)) =
    .ok (ofArray array) := by
  obtain ⟨array', hd, hok⟩ := fromBase64_wellFormed ofArray ⟨array.1, hb array.1, array.2⟩
  rw [hb] at hd
  rw [hok, Subtype.ext (Except.ok.inj hd)]

end Family

theorem deserializeKeys_error {e : DecodeError} (h : b.decode s = .error e) {pre post : List String}
    (hpre : ∀ x ∈ pre, WellFormed b 32 x) : deserializeKeys b (pre ++ s :: post) = .err e := by
  induction pre with
  | nil =>
    change ((arrayFromBase64 b 32 s).bind _).bind _ = _
    rw [arrayFromBase64_error h]
    rfl
  | cons x pre ih =>
    obtain ⟨array, -, hok⟩ := fromBase64_wellFormed PublicKey.ofBytes (hpre x List.mem_cons_self)
    have hrest := ih fun y hy => hpre y (List.mem_cons_of_mem _ hy)
    change ((arrayFromBase64 b 32 x).bind _).bind _ = _
    rw [hok]
    change (deserializeKeys b (pre ++ s :: post)).bind _ = _
    rw [hrest]
    rfl

/-- The texts of keys are read back, and a codec accepts its format and fails on everything else
if and only if the text does not decode to another number of bytes. -/
theorem keys_exact_iff (hb : b.Correct) :
    (∀ k : PublicKey, PublicKey.fromBase64 b (k.toBase64 b) = .ok k) ∧
    (∀ k : SecretKey, SecretKey.fromBase64 b (k.toBase64 b) = .ok k) ∧
    (∀ s, ExactAt b 32 (PublicKey.toBase64 b) (PublicKey.fromBase64 b) s ∧ FailsMessages b s ↔
      Sized b 32 s) ∧
    ∀ s, ExactAt b 64 (SecretKey.toBase64 b) (SecretKey.fromBase64 b) s ↔ Sized b 64 s := by
  have hpublic : ∀ s, ExactAt b 32 (PublicKey.toBase64 b) (PublicKey.fromBase64 b) s ↔
    Sized b 32 s :=
    fun s => exactAt_iff hb PublicKey.bytes_ofBytes
  refine ⟨fun k => ?_, fun k => fromBase64_encode hb k, fun s => ?_, fun s =>
    exactAt_iff hb fun _ => rfl⟩
  · have hk : PublicKey.ofBytes ⟨k.bytes, keyBytes_length k⟩ = k :=
      PublicKey.bytes_injective (PublicKey.bytes_ofBytes _)
    exact (fromBase64_encode hb ⟨k.bytes, keyBytes_length k⟩).trans (congrArg Outcome.ok hk)
  · refine ⟨fun h => (hpublic s).mp h.1, fun h => ⟨(hpublic s).mpr h, fun hnot pre post hpre => ?_⟩⟩
    rcases sized_or h with ⟨e, he⟩ | hw
    · exact ⟨e, deserializeKeys_error he hpre⟩
    · exact absurd hw hnot

end Codec

/-! ### A short text and a long one -/

/-- The codec of RFC 4648. -/
def standardBase64 : Base64Crate where
  encode bytes := String.ofList (Lib.Base64.encode bytes)
  decode s := (Lib.Base64.decode s.toList).elim (.error .InvalidLength) .ok

theorem standardBase64_correct : standardBase64.Correct := by
  intro bytes
  change (Lib.Base64.decode (String.ofList (Lib.Base64.encode bytes)).toList).elim _ _ = _
  rw [String.toList_ofList, Lib.Base64.decode_encode]
  rfl

/-- The text of the key whose bytes are zero. -/
def zeroText : String := (0 : PublicKey).toBase64 standardBase64

theorem zeroText_sized : Sized standardBase64 32 zeroText := by
  intro bytes hd
  have hz : standardBase64.decode zeroText = .ok (PublicKey.bytes 0) := standardBase64_correct _
  rw [hz] at hd
  cases hd
  exact keyBytes_length 0

theorem keys_exact_zeroText : PublicKey.fromBase64 standardBase64 zeroText = .ok 0 ∧
    ExactAt standardBase64 32 (PublicKey.toBase64 standardBase64)
      (PublicKey.fromBase64 standardBase64) zeroText :=
  ⟨(keys_exact_iff standardBase64_correct).1 0,
    (((keys_exact_iff standardBase64_correct).2.2.1 zeroText).mpr zeroText_sized).1⟩

/-- A text of three bytes makes `from_base64` panic. -/
theorem not_exactAt_shortText :
    ¬ ∀ b : Base64Crate, b.Correct → ∀ s,
      ExactAt b 32 (PublicKey.toBase64 b) (PublicKey.fromBase64 b) s ∧ FailsMessages b s ∧
      ExactAt b 64 (SecretKey.toBase64 b) (SecretKey.fromBase64 b) s := by
  intro h
  obtain ⟨hexact, -, -⟩ := h standardBase64 standardBase64_correct (standardBase64.encode [1, 2, 3])
  have hd := standardBase64_correct [1, 2, 3]
  obtain ⟨e, he⟩ := hexact.rejects (by
    rintro ⟨bytes, hbytes, hlen⟩
    rw [hd] at hbytes
    cases hbytes
    exact absurd hlen (by decide))
  rw [PublicKey.fromBase64, arrayFromBase64_short hd (by decide)] at he
  cases he

end Ipotane
