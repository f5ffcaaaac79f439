import Mathlib
import Rpal.Machine.Basic
import Rpal.Proofs.Value.Power

/-!
# Exact reductions

The reductions that compute with integers have a mathematical result, a rational number rounded toward
zero. If the result fits into 64 bits, the reduction leaves it; if not, it is refused as an overflow,
and only where there is no result, as a division by zero.

## Key results

- `Integer.truncate_div`: quotients are rounded toward zero
- `IntegerOp.apply_power`: powers, those with a negative exponent being reciprocals
- `Machine.reduces_exactly`: the reductions of operators, of the opposite and of literals
-/

namespace Rpal

variable {φ : Type}

namespace Integer

/-! ### Rounding -/

/-- A rational number rounded toward zero. -/
def truncate (q : ℚ) : ℤ :=
  if 0 ≤ q then ⌊q⌋ else ⌈q⌉

/-- An integer is its own truncation. -/
theorem truncate_intCast (n : ℤ) : truncate n = n := by
  rw [truncate, Int.floor_intCast, Int.ceil_intCast, ite_self]

/-- Truncation is toward zero, so it commutes with the sign. -/
theorem truncate_neg (q : ℚ) : truncate (-q) = -truncate q := by
  unfold truncate
  rcases lt_trichotomy q 0 with hq | rfl | hq
  · rw [if_pos (by linarith), if_neg (by linarith), Int.floor_neg]
  · simp
  · rw [if_neg (by linarith), if_pos hq.le, Int.ceil_neg]

/-- The division of the machine is the division of rational numbers, rounded toward zero. -/
theorem truncate_div (l r : ℤ) : truncate (l / r) = l.tdiv r := by
  -- the signs of the operands decide the sign of the quotient only
  have hnatCast (m n : ℕ) : truncate ((m : ℤ) / (n : ℤ)) = (m : ℤ).tdiv n := by
    have hpos : (0 : ℚ) ≤ ((m : ℤ) : ℚ) / ((n : ℤ) : ℚ) := by positivity
    rw [truncate, if_pos hpos, Int.tdiv_eq_ediv_of_nonneg (by positivity), Int.cast_natCast (n : ℕ)]
    exact Rat.floor_intCast_div_natCast m n
  obtain ⟨m, rfl | rfl⟩ := l.eq_nat_or_neg <;> obtain ⟨n, rfl | rfl⟩ := r.eq_nat_or_neg
  · exact hnatCast m n
  · rw [Int.cast_neg, div_neg, truncate_neg, hnatCast, Int.tdiv_neg]
  · rw [Int.cast_neg, neg_div, truncate_neg, hnatCast, Int.neg_tdiv]
  · rw [Int.cast_neg, Int.cast_neg, neg_div_neg_eq, hnatCast, Int.neg_tdiv, Int.tdiv_neg, neg_neg]

/-- What a reduction with the mathematical result `q?` comes to: the result rounded toward zero, if
    it fits, and an overflow otherwise. There is no result where one would divide by zero. -/
def exactly (q? : Option ℚ) : Except (FaultOf φ) (ValueOf φ) :=
  match q? with
  | none => .error .divisionByZero
  | some q =>
    if Fits (truncate q) then .ok (.integer (Int64.ofInt (truncate q))) else .error .overflow

/-- An integer is passed on if it fits. -/
theorem orOverflow_checked {q : ℚ} {n : ℤ} (h : truncate q = n) :
    (FaultOf.orOverflow (checked n) : Except (FaultOf φ) (ValueOf φ)) = exactly (some q) := by
  subst h
  simp only [exactly, checked]
  split <;> rfl

/-! ### Literals -/

/-- The number that is written with decimal digits. -/
def decimal (digits : List Char) : ℕ :=
  Nat.ofDigits 10 (digits.reverse.map fun d => d.toNat - '0'.toNat)

/-- Digits spell the number that is written with them. -/
theorem ofDigits?_eq_decimal {digits : List Char} (hne : digits ≠ [])
    (hall : ∀ d ∈ digits, d.isDigit = true) : ofDigits? digits = some (decimal digits) := by
  have hempty : digits.isEmpty = false := List.isEmpty_eq_false_iff.2 hne
  rw [ofDigits?, hempty, List.all_eq_true.2 hall, if_pos (by decide), decimal,
    Nat.ofDigits_eq_foldr, List.foldr_map, List.foldr_reverse]
  simp only [Nat.cast_id, Nat.add_comm]

/-- An integer literal is the number that is written there, if it fits. -/
theorem ofText?_digits {digits : List Char} (hne : digits ≠ [])
    (hall : ∀ d ∈ digits, d.isDigit = true) :
    ofText? (String.ofList digits) = checked (decimal digits) := by
  rw [ofText?, String.toList_ofList]
  -- a digit is no sign
  split
  · cases hall '-' (.head _)
  · cases hall '+' (.head _)
  · rw [ofDigits?_eq_decimal hne hall, Option.bind_some]

end Integer

open Integer

/-! ### Operations -/

namespace IntegerOp

/-- `+` is exact or overflows. -/
theorem apply_plus (l r : Int64) : (plus.apply l r : Except (FaultOf φ) (ValueOf φ)) =
    exactly (some (l.toInt + r.toInt)) :=
  orOverflow_checked (by exact_mod_cast truncate_intCast (l.toInt + r.toInt))

/-- `-` is exact or overflows. -/
theorem apply_minus (l r : Int64) : (minus.apply l r : Except (FaultOf φ) (ValueOf φ)) =
    exactly (some (l.toInt - r.toInt)) :=
  orOverflow_checked (by exact_mod_cast truncate_intCast (l.toInt - r.toInt))

/-- `*` is exact or overflows. -/
theorem apply_times (l r : Int64) : (times.apply l r : Except (FaultOf φ) (ValueOf φ)) =
    exactly (some (l.toInt * r.toInt)) :=
  orOverflow_checked (by exact_mod_cast truncate_intCast (l.toInt * r.toInt))

/-- `/` rounds toward zero, and fails on zero as it does on an overflow. -/
theorem apply_divide (l r : Int64) : (divide.apply l r : Except (FaultOf φ) (ValueOf φ)) =
    exactly (if r.toInt = 0 then none else some (l.toInt / r.toInt)) := by
  simp only [apply]
  split
  · rfl
  · exact orOverflow_checked (truncate_div ..)

/-- The reciprocal of a number that is neither zero nor one, with either sign, is zero when it is
    rounded. -/
theorem tdiv_one_of_lt {n : ℤ} (h : 1 < n.natAbs) : Int.tdiv 1 n = 0 := by
  rw [← Int.natAbs_eq_zero, Int.natAbs_tdiv, Int.natAbs_one]
  exact Nat.div_eq_of_lt h

/-- The reciprocal of a power, rounded. -/
theorem reciprocalPower_eq {base : Int64} (h : base.toInt ≠ 0) {exponent : ℕ} (hexp : exponent ≠ 0) :
    (reciprocalPower base exponent : Except (FaultOf φ) (ValueOf φ)) =
      exactly (some ((base.toInt : ℚ) ^ exponent)⁻¹) := by
  -- the reciprocal is a quotient of integers, and so rounded by their division
  have hreciprocal : ((base.toInt : ℚ) ^ exponent)⁻¹ =
      ((1 : ℤ) : ℚ) / ((base.toInt ^ exponent : ℤ) : ℚ) := by
    rw [Int.cast_one, Int.cast_pow, one_div]
  have htruncate := truncate_div 1 (base.toInt ^ exponent)
  rw [← hreciprocal] at htruncate
  simp only [reciprocalPower, exactly, htruncate]
  have hzero : base ≠ 0 := fun heq => h (heq ▸ rfl)
  rw [if_neg hzero]
  split
  · next hone =>
    rw [hone, show Int64.toInt 1 = 1 from rfl, one_pow]
    rfl
  split
  · next hminus =>
    rw [hminus, show Int64.toInt (-1) = -1 from rfl]
    rcases Nat.even_or_odd exponent with heven | hodd
    · rw [heven.neg_one_pow, if_pos (Nat.even_iff.1 heven)]
      rfl
    · rw [hodd.neg_one_pow, if_neg (by rw [Nat.odd_iff.1 hodd]; decide)]
      rfl
  · next hone hminus =>
    have hone' : base.toInt ≠ 1 := fun heq => hone (Int64.toInt_inj.1 heq)
    have hminus' : base.toInt ≠ -1 := fun heq => hminus (Int64.toInt_inj.1 heq)
    -- any other base has a power of more than one, which leaves nothing of the quotient
    have hlt : 1 < (base.toInt ^ exponent).natAbs := by
      rw [Int.natAbs_pow]
      exact Nat.one_lt_pow hexp (by omega)
    rw [tdiv_one_of_lt hlt]
    rfl

/-- `**` is the power over the rationals, truncated. A negative power of zero has no value. -/
theorem apply_power (l r : Int64) : (power.apply l r : Except (FaultOf φ) (ValueOf φ)) =
    exactly (if l.toInt = 0 ∧ r.toInt < 0 then none else some ((l.toInt : ℚ) ^ r.toInt)) := by
  simp only [apply]
  split
  · next hr =>
    rw [if_neg (by omega), checkedPow_eq]
    refine orOverflow_checked ?_
    have hpow : (l.toInt : ℚ) ^ r.toInt = ((l.toInt ^ r.toInt.toNat : ℤ) : ℚ) := by
      rw [Int.cast_pow, ← zpow_natCast, Int.toNat_of_nonneg hr]
    rw [hpow, truncate_intCast]
  · next hr =>
    by_cases hl : l.toInt = 0
    · have hzero : l = 0 := Int64.toInt_inj.1 hl
      rw [if_pos (by omega), reciprocalPower, if_pos hzero]
      rfl
    · have hneg : r.toInt = -(r.toInt.natAbs : ℤ) := by omega
      rw [if_neg (by omega), reciprocalPower_eq hl (by omega), ← zpow_natCast, ← zpow_neg, ← hneg]

end IntegerOp

/-- The opposite of an integer. -/
theorem ValueOf.negated_integer (n : Int64) :
    ((ValueOf.integer n).negated : Except (FaultOf φ) (ValueOf φ)) = exactly (some (-n.toInt)) :=
  orOverflow_checked (by exact_mod_cast truncate_intCast (-n.toInt))

/-! ### Reductions -/

namespace Machine

/-- The node at place `id` is reduced, with `operands` on the stack, to the mathematical result
    `result?`, rounded toward zero, or is refused because it does not fit or does not exist. -/
def ComesTo (m : Machine) (id : Nat) (operands : List Value) (result? : Option ℚ) : Prop :=
  ∀ values, { m with values := operands ++ values }.reduce (.node id) =
    { m with values, line := m.program.arena.line id }.settle (exactly result?)

/-- A node with a binary operator takes its left operand, and then the right one. -/
theorem comesTo_of_apply {m : Machine} {id : Nat} {op : IntegerOp} {l r : Int64}
    {result? : Option ℚ} (hkind : m.program.arena.kind id = .binary (.integer op))
    (happly : op.apply l r = (exactly result? : Except Fault Value)) :
    m.ComesTo id [.integer l, .integer r] result? := by
  intro values
  have hlabel : (m.program.arena.label id).kind = .binary (.integer op) := hkind
  simp only [reduce, reduceNode, hlabel]
  exact congrArg (settle { m with values, line := m.program.arena.line id }) happly

/-- The reductions of the machine that compute with integers have the mathematical results: sums,
    differences and products, quotients and powers rounded toward zero, opposites by the operator and
    by the function, and integers of any number of digits. They are refused when there is no such
    result, and when it does not fit. -/
theorem reduces_exactly (m : Machine) (id : Nat) :
    (∀ l r : Int64, m.program.arena.kind id = .binary (.integer .plus) →
      m.ComesTo id [.integer l, .integer r] (some (l.toInt + r.toInt))) ∧
    (∀ l r : Int64, m.program.arena.kind id = .binary (.integer .minus) →
      m.ComesTo id [.integer l, .integer r] (some (l.toInt - r.toInt))) ∧
    (∀ l r : Int64, m.program.arena.kind id = .binary (.integer .times) →
      m.ComesTo id [.integer l, .integer r] (some (l.toInt * r.toInt))) ∧
    (∀ l r : Int64, m.program.arena.kind id = .binary (.integer .divide) →
      m.ComesTo id [.integer l, .integer r]
        (if r.toInt = 0 then none else some (l.toInt / r.toInt))) ∧
    (∀ l r : Int64, m.program.arena.kind id = .binary (.integer .power) →
      m.ComesTo id [.integer l, .integer r]
        (if l.toInt = 0 ∧ r.toInt < 0 then none else some ((l.toInt : ℚ) ^ r.toInt))) ∧
    (∀ n : Int64, m.program.arena.kind id = .neg →
      m.ComesTo id [.integer n] (some (-n.toInt))) ∧
    (∀ n : Int64, m.program.arena.kind id = .gamma →
      m.ComesTo id [.builtin .neg, .integer n] (some (-n.toInt))) ∧
    (∀ digits : List Char, digits ≠ [] → (∀ d ∈ digits, d.isDigit = true) →
      m.program.arena.kind id = .integer →
      (m.program.arena.label id).text = some (String.ofList digits) →
      m.ComesTo id [] (some (decimal digits))) := by
  refine ⟨fun l r hkind => comesTo_of_apply hkind (IntegerOp.apply_plus l r),
    fun l r hkind => comesTo_of_apply hkind (IntegerOp.apply_minus l r),
    fun l r hkind => comesTo_of_apply hkind (IntegerOp.apply_times l r),
    fun l r hkind => comesTo_of_apply hkind (IntegerOp.apply_divide l r),
    fun l r hkind => comesTo_of_apply hkind (IntegerOp.apply_power l r), ?_, ?_, ?_⟩
  · intro n hkind values
    have hlabel : (m.program.arena.label id).kind = .neg := hkind
    simp only [reduce, reduceNode, hlabel]
    exact congrArg (settle { m with values, line := m.program.arena.line id })
      (ValueOf.negated_integer n)
  · intro n hkind values
    have hlabel : (m.program.arena.label id).kind = .gamma := hkind
    simp only [reduce, reduceNode, hlabel]
    exact congrArg (settle { m with values, line := m.program.arena.line id })
      (ValueOf.negated_integer n)
  · intro digits hne hall hkind htext values
    have hlabel : (m.program.arena.label id).kind = .integer := hkind
    -- the digits are the content of the node
    have hcontent : (m.program.arena.label id).content = String.ofList digits := by
      rw [Label.content, htext]
      rfl
    simp only [reduce, reduceNode, hlabel, hcontent, ofText?_digits hne hall]
    exact congrArg (settle { m with values, line := m.program.arena.line id })
      (orOverflow_checked (by exact_mod_cast truncate_intCast (decimal digits)))

/-- The power `(-2) ** 63` is the smallest integer, there is no power `0 ** -1`, and `2 ^ 63` is the
    smallest number that cannot be written. -/
theorem reduces_exactly_smallest :
    let power : Label := { kind := .binary (.integer .power), text := none, line := 1 }
    let literal : Label := { kind := .integer, text := some "9223372036854775808", line := 2 }
    let p : Program :=
      { arena := (Arena.empty.alloc power).alloc literal, control := { deltas := #[], betas := #[] } }
    let m := start p (Sink.withRoom none)
    { m with values := [.integer (-2), .integer 63] }.reduce (.node 0) =
        { m with line := 1 }.push (.integer Int64.minValue) ∧
      { m with values := [.integer 0, .integer (-1)] }.reduce (.node 0) =
        { m with line := 1 }.fail .divisionByZero ∧
      m.reduce (.node 1) = { m with line := 2 }.fail .overflow := by
  intro power literal p m
  have hpower := (reduces_exactly m 0).2.2.2.2.1
  have hliteral := (reduces_exactly m 1).2.2.2.2.2.2.2 "9223372036854775808".toList
  refine ⟨(hpower (-2) 63 rfl []).trans ?_, (hpower 0 (-1) rfl []).trans ?_,
    (hliteral (by decide +kernel) ?_ rfl (by rw [String.ofList_toList]; rfl) []).trans ?_⟩
  · have hvalue : ((Int64.toInt (-2) : ℤ) : ℚ) ^ Int64.toInt 63 =
        ((-9223372036854775808 : ℤ) : ℚ) := by
      rw [show Int64.toInt (-2) = -2 from rfl, show Int64.toInt 63 = (63 : ℕ) from rfl,
        zpow_natCast]
      norm_num
    rw [if_neg (by decide), hvalue, exactly, truncate_intCast]
    rfl
  · rfl
  · intro d hd
    have hall : "9223372036854775808".toList.all Char.isDigit = true := by decide +kernel
    exact List.all_eq_true.1 hall d hd
  · have hvalue : decimal "9223372036854775808".toList = 9223372036854775808 := by decide +kernel
    rw [hvalue, exactly, show ((9223372036854775808 : ℕ) : ℚ) = (9223372036854775808 : ℤ) by norm_num,
      truncate_intCast]
    rfl

end Machine

end Rpal
