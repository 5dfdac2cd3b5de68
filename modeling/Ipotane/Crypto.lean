import Mathlib.Algebra.GroupWithZero.Nat
import Mathlib.Data.Fin.Basic
import Mathlib.Order.Fin.Basic

/-! Keys, byte encodings and the primitives of the external crates (`sha512`, `ed25519`,
`threshold_crypto`), which the model takes as parameters. -/
namespace Ipotane

/-- `PublicKey([u8; 32])`. The derived order compares the bytes from the first one on,
which is the order of the big-endian number. -/
abbrev PublicKey := Fin (2 ^ 256)

instance PublicKey.neZero : NeZero (2 ^ 256) := ⟨by decide⟩

instance : LawfulBEq PublicKey := inferInstance

/-- `to_le_bytes` of a `width`-byte integer. -/
def leBytes : ℕ → ℕ → List UInt8
  | 0, _ => []
  | width + 1, n => UInt8.ofNat (n % 256) :: leBytes width (n / 256)

/-- `to_be_bytes` of a `width`-byte integer. -/
def beBytes (width n : ℕ) : List UInt8 := (leBytes width n).reverse

def PublicKey.bytes (k : PublicKey) : List UInt8 := beBytes 32 k.val

/-- `Digest([u8; 32])`. -/
abbrev Digest := Fin (2 ^ 256)

def Digest.bytes (d : Digest) : List UInt8 := beBytes 32 d.val

/-- What the node calls in the crates it links: hashing (already truncated to a `Digest`),
signing with the secret key of `k`, verification, and the threshold signature scheme with
the key set that all nodes share. `combine` yields the first eight bytes of the combined
signature, read as a big-endian number. -/
class Crypto where
  Signature : Type
  SignatureShare : Type
  decEqSignature : DecidableEq Signature
  decEqSignatureShare : DecidableEq SignatureShare
  sha512 : List UInt8 → Digest
  signatureDefault : Signature
  sign : PublicKey → Digest → Signature
  verify : Signature → Digest → PublicKey → Bool
  signShare : PublicKey → Digest → SignatureShare
  verifyShare : ℕ → SignatureShare → Digest → Bool
  combine : List (ℕ × SignatureShare) → Option ℕ

export Crypto (Signature SignatureShare sha512)

instance [Crypto] : DecidableEq Signature := Crypto.decEqSignature
instance [Crypto] : DecidableEq SignatureShare := Crypto.decEqSignatureShare
instance [Crypto] : Inhabited Signature := ⟨Crypto.signatureDefault⟩

/-- `Signature::verify_batch`: every signature is valid for the one digest. -/
def verifyBatch [Crypto] (digest : Digest) (votes : List (PublicKey × Signature)) : Bool :=
  votes.all fun v => Crypto.verify v.2 digest v.1

end Ipotane
