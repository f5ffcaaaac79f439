/-!
# Exact arithmetic on 64-bit integers

Integers have 64 bits and a sign. An operation is carried out on the mathematical integers, and its
result is refused when it does not fit.

- `checked_eq_some_iff`: an integer is accepted exactly when it fits
- `checkedPow`: powers by repeated squaring
-/

namespace Rpal

namespace Integer

/-- `n` fits into 64 bits. -/
def Fits (n : Int) : Prop :=
  -0x8000000000000000 ≤ n ∧ n < 0x8000000000000000

instance (n : Int) : Decidable (Fits n) :=
  inferInstanceAs (Decidable (_ ∧ _))

/-- `n` as a 64-bit integer, if it fits. -/
def checked (n : Int) : Option Int64 :=
  if Fits n then some (Int64.ofInt n) else none

/-- An integer is accepted exactly when it fits, and then it keeps its value. -/
theorem checked_eq_some_iff {n : Int} {w : Int64} :
    checked n = some w ↔ w.toInt = n := by
  unfold checked
  constructor
  · intro h
    split at h
    · next hfits =>
      cases h
      exact Int64.toInt_ofInt_of_le hfits.1 hfits.2
    · cases h
  · rintro rfl
    rw [if_pos ⟨w.le_toInt, w.toInt_lt⟩, Int64.ofInt_toInt]

/-- The product of two integers, if it fits. -/
def checkedMul (m n : Int64) : Option Int64 :=
  checked (m.toInt * n.toInt)

/-- `acc` times the powers of `base` that the binary digits of `exponent` stand for, the last digit
    apart. Each power is the square of the one before it, and every product must fit. -/
def powOnto (acc base : Int64) (exponent : Nat) : Option Int64 :=
  if exponent ≤ 1 then some acc
  else do
    let square ← checkedMul base base
    let acc ← if exponent / 2 % 2 = 1 then checkedMul acc square else some acc
    powOnto acc square (exponent / 2)

/-- The power of `base`, by repeated squaring. Every product on the way must fit. -/
def checkedPow (base : Int64) (exponent : Nat) : Option Int64 :=
  if exponent = 0 then some 1
  else if exponent % 2 = 0 then do
    let square ← checkedMul base base
    checkedPow square (exponent / 2)
  else powOnto base base exponent

/-- The integer that decimal digits stand for; `none` if there are none or one is no digit. -/
def ofDigits? (digits : List Char) : Option Nat :=
  if !digits.isEmpty && digits.all Char.isDigit then
    some (digits.foldl (fun n d => 10 * n + (d.toNat - '0'.toNat)) 0)
  else
    none

/-- The integer that `text` spells: digits, with or without a sign. -/
def ofText? (text : String) : Option Int64 :=
  match text.toList with
  | '-' :: digits => (ofDigits? digits).bind fun n => checked (-n)
  | '+' :: digits => (ofDigits? digits).bind fun n => checked n
  | digits => (ofDigits? digits).bind fun n => checked n

end Integer

end Rpal
