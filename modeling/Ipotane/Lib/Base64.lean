import Mathlib.Tactic.Common
import Mathlib.Data.List.Induction

/-! Base64 with the standard alphabet and padding: three bytes become four characters. -/
namespace Lib.Base64

def alphabet : List Char :=
  "ABCDEFGHIJKLMNOPQRSTUVWXYZabcdefghijklmnopqrstuvwxyz0123456789+/".toList

/-- The character of a number below 64. -/
def digit (n : ℕ) : Char := alphabet.getD n '='

def value (c : Char) : Option ℕ := alphabet.findIdx? (· = c)

def encode : List UInt8 → List Char
  | a :: b :: c :: rest =>
    let n := a.toNat * 65536 + b.toNat * 256 + c.toNat
    digit (n / 262144) :: digit (n / 4096 % 64) :: digit (n / 64 % 64) :: digit
      (n % 64) :: encode rest
  | [a, b] =>
    let n := a.toNat * 1024 + b.toNat * 4
    [digit (n / 4096), digit (n / 64 % 64), digit (n % 64), '=']
  | [a] =>
    let n := a.toNat * 16
    [digit (n / 64), digit (n % 64), '=', '=']
  | [] => []

/-- The number that the characters write, the first one first. -/
def number (l : List Char) : Option ℕ :=
  l.foldl (fun n c => n.bind fun n => (value c).map (n * 64 + ·)) (some 0)

/-- The last group may be padded, with zeros in the bits that no byte needs. -/
def decode : List Char → Option (List UInt8)
  | [] => some []
  | w :: x :: y :: z :: rest =>
    if z = '=' ∧ rest = [] then
      if y = '=' then
        (number [w, x]).bind fun n => if n % 16 = 0 then some [.ofNat (n / 16)] else none
      else
        (number [w, x, y]).bind fun n =>
          if n % 4 = 0 then some [.ofNat (n / 1024), .ofNat (n / 4 % 256)] else none
    else
      (number [w, x, y, z]).bind fun n =>
        (decode rest).map fun bytes => .ofNat (n / 65536) :: .ofNat (n / 256 % 256) :: .ofNat
          (n % 256) :: bytes
  | _ => none

theorem value_digit_fin : ∀ n : Fin 64, value (digit n.val) = some n.val := by decide +kernel

theorem value_digit {n : ℕ} (h : n < 64) : value (digit n) = some n := value_digit_fin ⟨n, h⟩

theorem digit_ne_pad {n : ℕ} (h : n < 64) : digit n ≠ '=' := by
  have hpad : value '=' = none := by decide +kernel
  intro he
  have hv := value_digit h
  rw [he, hpad] at hv
  cases hv

theorem number_digits {l : List ℕ} (h : ∀ n ∈ l, n < 64) :
    number (l.map digit) = some (l.foldl (fun n v => n * 64 + v) 0) := by
  induction l using List.reverseRecOn with
  | nil => rfl
  | append_singleton l v ih =>
    have hl := ih fun n hn => h n (List.mem_append_left _ hn)
    have hv : value (digit v) = some v :=
      value_digit (h v (List.mem_append_right _ (List.mem_singleton_self v)))
    unfold number at hl ⊢
    rw [List.map_append, List.foldl_append, List.foldl_append, hl]
    simp [hv]

/-- Every list of bytes is decoded from what it is encoded as. -/
theorem decode_encode (bytes : List UInt8) : decode (encode bytes) = some bytes := by
  have hmod : ∀ n, n % 64 < 64 := fun n => Nat.mod_lt n (by decide)
  fun_induction encode bytes with
  | case1 a b c rest n ih =>
    have ha := a.toNat_lt
    have hb := b.toNat_lt
    have hc := c.toNat_lt
    have hnum : number [digit (n / 262144), digit (n / 4096 % 64), digit (n / 64 % 64),
      digit (n % 64)] =
        some n := by
      refine (number_digits (l := [n / 262144, n / 4096 % 64, n / 64 % 64, n % 64]) ?_).trans ?_
      · simp only [List.forall_mem_cons, hmod]
        exact ⟨by omega, trivial, trivial, trivial, nofun⟩
      · simp only [List.foldl_cons, List.foldl_nil, Option.some.injEq]
        omega
    have hfirst : n / 65536 = a.toNat := by omega
    have hsecond : n / 256 % 256 = b.toNat := by omega
    have hthird : n % 256 = c.toNat := by omega
    rw [decode, if_neg (fun h => digit_ne_pad (hmod n) h.1), hnum, ih, Option.bind_some,
      Option.map_some, hfirst, hsecond, hthird]
    simp only [UInt8.ofNat_toNat]
  | case2 a b n =>
    have ha := a.toNat_lt
    have hb := b.toNat_lt
    have hnum : number [digit (n / 4096), digit (n / 64 % 64), digit (n % 64)] = some n := by
      refine (number_digits (l := [n / 4096, n / 64 % 64, n % 64]) ?_).trans ?_
      · simp only [List.forall_mem_cons, hmod]
        exact ⟨by omega, trivial, trivial, nofun⟩
      · simp only [List.foldl_cons, List.foldl_nil, Option.some.injEq]
        omega
    have hfirst : n / 1024 = a.toNat := by omega
    have hsecond : n / 4 % 256 = b.toNat := by omega
    rw [decode, if_pos ⟨rfl, rfl⟩, if_neg (digit_ne_pad (hmod n)), hnum, Option.bind_some,
      if_pos (by omega), hfirst, hsecond]
    simp only [UInt8.ofNat_toNat]
  | case3 a n =>
    have ha := a.toNat_lt
    have hnum : number [digit (n / 64), digit (n % 64)] = some n := by
      refine (number_digits (l := [n / 64, n % 64]) ?_).trans ?_
      · simp only [List.forall_mem_cons, hmod]
        exact ⟨by omega, trivial, nofun⟩
      · simp only [List.foldl_cons, List.foldl_nil, Option.some.injEq]
        omega
    have hfirst : n / 16 = a.toNat := by omega
    rw [decode, if_pos ⟨rfl, rfl⟩, if_pos rfl, hnum, Option.bind_some, if_pos (by omega), hfirst]
    simp only [UInt8.ofNat_toNat]
  | case4 => rfl

end Lib.Base64
