import Rpal.Proofs.Token.Spelling
import Rpal.Value.Integer
import Rpal.Value.Printer

/-!
# Values that can be written down

Integers, truth values, `dummy`, and tuples of such values are shown as a program would write them,
with two exceptions: the smallest integer is the opposite of a number that does not fit, and a tuple
of one element looks like the element between parentheses.

What is shown of the other values is read as the lexemes that write them down, whatever comes behind
it, unless this continues the last of the lexemes.

## Key results

- `Integer.ofText?_toString`: digits stand for the number that they are the digits of
- `Value.reads_render`: the lexemes of what is shown of a value
-/

namespace Rpal

/-! ### Digits -/

namespace Integer

/-- Numbers are written with digits. -/
theorem isDigit_of_mem_toString {n : Nat} {c : Char} (h : c ∈ (toString n).toList) :
    c.isDigit = true := by
  rw [Nat.toString_eq_ofList_toDigits, String.toList_ofList] at h
  exact Nat.isDigit_of_mem_toDigits (by decide) (by decide) h

/-- Every number is written with at least one digit. -/
theorem toList_toString_ne_nil (n : Nat) : (toString n).toList ≠ [] := by
  rw [Nat.toString_eq_ofList_toDigits, String.toList_ofList]
  exact Nat.toDigits_ne_nil

/-- A number is read back from its digits. -/
theorem ofDigits?_toString (n : Nat) : ofDigits? (toString n).toList = some n := by
  have hall : (toString n).toList.all Char.isDigit = true :=
    List.all_eq_true.2 fun _ => isDigit_of_mem_toString
  have hne : (toString n).toList.isEmpty = false :=
    List.isEmpty_eq_false_iff.2 (toList_toString_ne_nil n)
  rw [ofDigits?, hall, hne, if_pos (by decide), ← Nat.ofDigitChars_eq_foldl,
    Nat.toString_eq_ofList_toDigits, String.toList_ofList, Nat.ofDigitChars_ten_toDigits]

/-- Digits stand for the number that they are the digits of, if it fits. -/
theorem ofText?_toString (n : Nat) : ofText? (toString n) = checked n := by
  have hdigit {c : Char} {cs : List Char} (h : (toString n).toList = c :: cs) : c.isDigit = true :=
    isDigit_of_mem_toString (h ▸ List.mem_cons_self ..)
  rw [ofText?]
  -- a digit is no sign
  split
  · next h => cases hdigit h
  · next h => cases hdigit h
  · rw [ofDigits?_toString, Option.bind_some]

/-- An integer is shown as its digits, and if it is negative, behind a minus. -/
theorem toString_eq (n : Int) :
    toString n = if n < 0 then "-" ++ toString n.natAbs else toString n.natAbs := by
  have hrepr : toString n = n.repr := rfl
  rw [hrepr, Int.repr_eq_if]
  by_cases hn : n < 0
  · rw [if_neg (by omega), if_pos hn, show (-n).toNat = n.natAbs by omega]
    rfl
  · rw [if_pos (by omega), if_neg hn, show n.toNat = n.natAbs by omega]
    rfl

end Integer

namespace Value

open ValueOf (render renderMore)

/-! ### Values and their lexemes -/

/-- The value can be written down: it is an integer other than the smallest, a truth value, `dummy`,
    or a tuple of such values that has not exactly one element. -/
inductive IsWritable : Value → Prop where
  | integer {n : Int64} : n ≠ Int64.minValue → IsWritable (.integer n)
  | truth (b : Bool) : IsWritable (.truth b)
  | dummy : IsWritable .dummy
  | tuple {vs : List Value} : vs.length ≠ 1 → (∀ v ∈ vs, IsWritable v) → IsWritable (.tuple vs)

mutual

/-- The lexemes that write a value down. -/
def lexemes : Value → List Lexeme
  | .integer n =>
    if n.toInt < 0 then [.symbol .minus, .integer (toString n.toInt.natAbs)]
    else [.integer (toString n.toInt.natAbs)]
  | .truth b => [.symbol (if b then .trueKw else .falseKw)]
  | .dummy => [.symbol .dummyKw]
  | .tuple [] => [.symbol .nilKw]
  | .tuple (v :: vs) => .symbol .lparen :: (lexemes v ++ lexemesMore vs ++ [.symbol .rparen])
  | _ => []

/-- The lexemes of the elements after the first, each behind a comma. -/
def lexemesMore : List Value → List Lexeme
  | [] => []
  | v :: vs => .symbol .comma :: (lexemes v ++ lexemesMore vs)

end

/-! ### Reading -/

variable {text : List Char} {ls : List Lexeme}

/-- What does not go on with a word is no digit. -/
theorem isDigit_of_isWordRest {c : Char} (h : isWordRest c = false) : c.isDigit = false := by
  simp only [isWordRest, Char.isAlphanum, Bool.or_eq_false_iff] at h
  exact h.1.2

/-- Digits in front of a text that does not continue them. -/
theorem reads_digits (n : Nat) (htext : EndsRun isWordRest text) (h : Reads text ls) :
    Reads ((toString n).toList ++ text) (.integer (toString n) :: ls) :=
  h.lexeme (l := .integer (toString n))
    ⟨Integer.toList_toString_ne_nil n, fun _ => Integer.isDigit_of_mem_toString⟩
    fun c hc => isDigit_of_isWordRest (htext c hc)

/-- A reserved word in front of a text that does not continue it. -/
theorem reads_keyword {s : Symbol} (hs : s ∈ Symbol.keywords) (htext : EndsRun isWordRest text)
    (h : Reads text ls) : Reads (s.spelling.toList ++ text) (.symbol s :: ls) := by
  have hclasses : ∀ s ∈ Symbol.keywords, s ≠ .endOfInput ∧ s ∉ Symbol.operators := by decide
  obtain ⟨hend, hoperator⟩ := hclasses s hs
  exact h.lexeme (l := .symbol s) hend ⟨fun _ => htext, fun h => absurd h hoperator⟩

/-- Punctuation in front of any text. -/
theorem reads_punctuation {s : Symbol} (hs : s ∈ Symbol.punctuation) (h : Reads text ls) :
    Reads (s.spelling.toList ++ text) (.symbol s :: ls) := by
  have hclasses : ∀ s ∈ Symbol.punctuation,
      s ≠ .endOfInput ∧ s ∉ Symbol.keywords ∧ s ∉ Symbol.operators := by decide
  obtain ⟨hend, hkeyword, hoperator⟩ := hclasses s hs
  exact h.lexeme (l := .symbol s) hend ⟨fun h => absurd h hkeyword, fun h => absurd h hoperator⟩

/-- A minus in front of digits. -/
theorem reads_minus (n : Nat) (h : Reads ((toString n).toList ++ text) ls) :
    Reads ('-' :: ((toString n).toList ++ text)) (.symbol .minus :: ls) := by
  refine h.lexeme (l := .symbol .minus) nofun ⟨fun h => absurd h (by decide), fun _ c hc => ?_⟩
  obtain ⟨d, ds, hdigits⟩ := List.exists_cons_of_ne_nil (Integer.toList_toString_ne_nil n)
  rw [hdigits] at hc
  cases hc
  rw [← Bool.not_eq_true]
  intro hoperator
  have hdigit : c.isDigit = true := Integer.isDigit_of_mem_toString (hdigits ▸ List.mem_cons_self ..)
  cases hdigit.symm.trans (classes_of_isOperatorChar hoperator).2.2.2

/-- What is shown of an integer. -/
theorem reads_integer (n : Int64) (htext : EndsRun isWordRest text) (h : Reads text ls) :
    Reads ((render (.integer n : Value)).toList ++ text) (lexemes (.integer n) ++ ls) := by
  have hdigits := reads_digits n.toInt.natAbs htext h
  have hrender : render (.integer n : Value) = toString n.toInt := rfl
  rw [hrender, Integer.toString_eq, lexemes]
  split
  · rw [String.toList_append]
    exact reads_minus _ hdigits
  · exact hdigits

/-- What is shown of the elements behind the first is read as their lexemes, if this holds of each
    element. -/
theorem reads_renderMore {vs : List Value}
    (hvs : ∀ v ∈ vs, ∀ {text ls}, EndsRun isWordRest text → Reads text ls →
      Reads (v.render.toList ++ text) (v.lexemes ++ ls))
    (htext : EndsRun isWordRest text) (h : Reads text ls) :
    EndsRun isWordRest ((renderMore vs).toList ++ text) ∧
      Reads ((renderMore vs).toList ++ text) (lexemesMore vs ++ ls) := by
  induction vs with
  | nil => exact ⟨htext, h⟩
  | cons v vs ih =>
    obtain ⟨hv, hvs⟩ := List.forall_mem_cons.1 hvs
    obtain ⟨hends, hmore⟩ := ih hvs
    have hblank : ∀ c ∈ [' '], Text.isBlank c = true := List.forall_mem_singleton.2 (by decide)
    have hreads := reads_punctuation (s := .comma) (by decide) ((hv hends hmore).blanks hblank)
    have hchars : (renderMore (v :: vs)).toList ++ text =
        ',' :: ' ' :: (v.render.toList ++ ((renderMore vs).toList ++ text)) := by
      simp [renderMore, String.toList_append]
    rw [hchars, lexemesMore, List.cons_append, List.append_assoc]
    exact ⟨endsRun_cons (by decide) _, hreads⟩

/-- What is shown of a value is read as its lexemes, in front of a text that continues no word and no
    number. -/
theorem reads_render {v : Value} (hv : v.IsWritable) (htext : EndsRun isWordRest text)
    (h : Reads text ls) : Reads (v.render.toList ++ text) (v.lexemes ++ ls) := by
  induction hv generalizing text ls with
  | integer => exact reads_integer _ htext h
  | truth b =>
    cases b with
    | true => exact reads_keyword (s := .trueKw) (by decide) htext h
    | false => exact reads_keyword (s := .falseKw) (by decide) htext h
  | dummy => exact reads_keyword (s := .dummyKw) (by decide) htext h
  | @tuple vs _ _ ih =>
    cases vs with
    | nil => exact reads_keyword (s := .nilKw) (by decide) htext h
    | cons v vs =>
      have hclose := reads_punctuation (s := .rparen) (by decide) h
      obtain ⟨hv, hvs⟩ := List.forall_mem_cons.1 ih
      -- read from the end: what stands behind each element ends it
      obtain ⟨hends, hmore⟩ := reads_renderMore hvs (endsRun_cons (by decide) _) hclose
      have hopen := reads_punctuation (s := .lparen) (by decide) (hv hends hmore)
      have hchars : (render (.tuple (v :: vs) : Value)).toList ++ text =
          '(' :: (v.render.toList ++ ((renderMore vs).toList ++ ')' :: text)) := by
        simp [render, String.toList_append]
      rw [hchars, lexemes]
      simp only [List.cons_append, List.append_assoc, List.nil_append]
      exact hopen

end Value

end Rpal
