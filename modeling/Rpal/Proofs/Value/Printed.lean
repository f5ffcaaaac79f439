import Rpal.Proofs.Machine.Limit
import Rpal.Proofs.Tree.Listing
import Rpal.Proofs.Value.Writable

/-!
# Printed strings

`Print` renders a value first and then replaces the escape sequences of the whole text, first those
of tabs and then those of newlines. Neither notices the other, and neither notices what stands around
a string: the outcome is that every string of the value has its escape sequences replaced on its
own, in one pass from left to right.

Two facts carry this. The first replacement never produces an `n` that was not there. And what
stands behind a string in a printed value is a comma or a parenthesis, so that a backslash at the end
of a string stays a backslash.

## Key results

- `Text.replaceEscape_replaceEscape`: the two replacements are one pass
- `ValueOf.unescape_render`: a pass over what is shown of a value is a pass over each of its strings
- `Machine.apply_print`: what `Print` writes, and what it leaves
-/

namespace Rpal

namespace Text

/-! ### Escape sequences -/

/-- Turns every backslash before a `t` into a tab and every backslash before an `n` into a newline,
    in one pass from left to right. -/
def unescape : List Char → List Char
  | '\\' :: 't' :: cs => '\t' :: unescape cs
  | '\\' :: 'n' :: cs => '\n' :: unescape cs
  | c :: cs => c :: unescape cs
  | [] => []

/-- `s` with its escape sequences replaced in one pass. -/
def unescaped (s : String) : String :=
  String.ofList (unescape s.toList)

/-- No escape sequence ends in the first character of the text. -/
def EndsNoEscape (text : List Char) : Prop :=
  text.head? ≠ some 't' ∧ text.head? ≠ some 'n'

/-- A character that starts no escape sequence stays. -/
theorem unescape_cons {c : Char} {cs : List Char} (h : c = '\\' → EndsNoEscape cs) :
    unescape (c :: cs) = c :: unescape cs := by
  rw [unescape.eq_def]
  split
  · next ds heq =>
    obtain ⟨rfl, rfl⟩ := List.cons.inj heq
    exact absurd rfl (h rfl).1
  · next ds heq =>
    obtain ⟨rfl, rfl⟩ := List.cons.inj heq
    exact absurd rfl (h rfl).2
  · next heq =>
    obtain ⟨rfl, rfl⟩ := List.cons.inj heq
    rfl
  · next heq => cases heq

/-- A character stays where it does not start the escape. -/
theorem replaceEscape_cons {letter c d : Char} {ds : List Char}
    (h : d = '\\' → ds.head? ≠ some letter) :
    replaceEscape letter c (d :: ds) = d :: replaceEscape letter c ds := by
  rw [replaceEscape.eq_def]
  split
  · next e es heq =>
    obtain ⟨rfl, rfl⟩ := List.cons.inj heq
    -- the letter behind the backslash is another one
    exact if_neg fun he => h rfl (congrArg some he)
  · next heq =>
    obtain ⟨rfl, rfl⟩ := List.cons.inj heq
    rfl
  · next heq => cases heq

/-- A replacement starts with what it inserts or with what the text starts with. -/
theorem head?_replaceEscape (letter c : Char) (cs : List Char) :
    (replaceEscape letter c cs).head? = some c ∨ (replaceEscape letter c cs).head? = cs.head? := by
  rw [replaceEscape.eq_def]
  split
  · split
    · exact .inl rfl
    · exact .inr rfl
  · exact .inr rfl
  · exact .inr rfl

/-- What stands behind a character ends no escape sequence if the two together are none. -/
theorem endsNoEscape_of_forall_ne {cs : List Char} (htab : ∀ ds, cs ≠ 't' :: ds)
    (hnewline : ∀ ds, cs ≠ 'n' :: ds) : EndsNoEscape cs := by
  cases cs with
  | nil => exact ⟨nofun, nofun⟩
  | cons c cs =>
    constructor <;> intro h <;> cases h
    · exact htab cs rfl
    · exact hnewline cs rfl

/-- Replacing the escape sequences of tabs and then those of newlines is one pass. -/
theorem replaceEscape_replaceEscape (cs : List Char) :
    replaceEscape 'n' '\n' (replaceEscape 't' '\t' cs) = unescape cs := by
  fun_induction unescape cs with
  | case1 cs ih =>
    have htab : replaceEscape 't' '\t' ('\\' :: 't' :: cs) = '\t' :: replaceEscape 't' '\t' cs := rfl
    rw [htab, replaceEscape_cons fun hc => absurd hc (by decide), ih]
  | case2 cs ih =>
    -- the first replacement leaves the escape sequence as it is
    have hkept : replaceEscape 't' '\t' ('\\' :: 'n' :: cs) =
        '\\' :: 'n' :: replaceEscape 't' '\t' cs := by
      rw [replaceEscape_cons (by simp), replaceEscape_cons fun hc => absurd hc (by decide)]
    rw [hkept, ← ih]
    rfl
  | case3 c cs htab hnewline ih =>
    have hcs (hc : c = '\\') : EndsNoEscape cs :=
      endsNoEscape_of_forall_ne (fun ds => htab ds hc) fun ds => hnewline ds hc
    rw [replaceEscape_cons fun hc => (hcs hc).1, replaceEscape_cons, ih]
    -- the first replacement puts no `n` behind a backslash
    intro hc hn
    obtain hnew | hold := head?_replaceEscape 't' '\t' cs
    · rw [hnew] at hn
      exact absurd hn (by decide)
    · exact (hcs hc).2 (hold ▸ hn)
  | case4 => rfl

/-- Expanding escapes is unescaping in one pass. -/
theorem expandEscapes_eq (text : String) : expandEscapes text = unescaped text := by
  rw [expandEscapes, unescaped, replaceEscape_replaceEscape]

/-- What a text starts with does not depend on what is behind it, unless it is empty. -/
theorem EndsNoEscape.append {cs ds : List Char} (hcs : EndsNoEscape cs) (hds : EndsNoEscape ds) :
    EndsNoEscape (cs ++ ds) := by
  cases cs with
  | nil => exact hds
  | cons c cs => exact hcs

/-- A text is gone through on its own if what is behind it does not end an escape sequence. -/
theorem unescape_append {cs ds : List Char} (hds : EndsNoEscape ds) :
    unescape (cs ++ ds) = unescape cs ++ unescape ds := by
  fun_induction unescape cs with
  | case1 cs ih => simp only [List.cons_append, unescape, ih]
  | case2 cs ih => simp only [List.cons_append, unescape, ih]
  | case3 c cs htab hnewline ih =>
    have hcs (hc : c = '\\') : EndsNoEscape cs :=
      endsNoEscape_of_forall_ne (fun ds => htab ds hc) fun ds => hnewline ds hc
    rw [List.cons_append, unescape_cons fun hc => (hcs hc).append hds, ih, List.cons_append]
  | case4 => rfl

/-- Without a backslash, nothing is unescaped. -/
theorem unescape_of_notMem {cs : List Char} (h : '\\' ∉ cs) : unescape cs = cs := by
  induction cs with
  | nil => rfl
  | cons c cs ih =>
    rw [List.mem_cons, not_or] at h
    rw [unescape_cons fun hc => absurd hc.symm h.1, ih h.2]

end Text

/-! ### Values -/

namespace ValueOf

open Text (unescape unescaped EndsNoEscape)

variable {φ : Type}

mutual

/-- The value with `f` applied to every string in it. -/
def mapStrings (f : String → String) : ValueOf φ → ValueOf φ
  | string s => string (f s)
  | tuple vs => tuple (mapStringsAll f vs)
  | v => v

/-- `mapStrings` on a list of values. -/
def mapStringsAll (f : String → String) : List (ValueOf φ) → List (ValueOf φ)
  | [] => []
  | v :: vs => v.mapStrings f :: mapStringsAll f vs

end

variable [FunctionCode φ]

mutual

/-- The parameters of the functions in a value have names that the scanner reads. -/
def HasWordNames : ValueOf φ → Prop
  | tuple vs => AllHaveWordNames vs
  | closure code _ | eta code _ => ∀ name ∈ FunctionCode.vars code, IsWord name.toList
  | _ => True

/-- `HasWordNames` for all values of a list. -/
def AllHaveWordNames : List (ValueOf φ) → Prop
  | [] => True
  | v :: vs => v.HasWordNames ∧ AllHaveWordNames vs

end

/-- There is no backslash in a number. -/
theorem backslash_notMem_toString (n : Nat) : '\\' ∉ (toString n).toList :=
  fun h => absurd (Integer.isDigit_of_mem_toString h) (by decide)

/-- There is no backslash in an integer. -/
theorem backslash_notMem_toString_int (n : Int) : '\\' ∉ (toString n).toList := by
  rw [Integer.toString_eq]
  split
  · simpa using backslash_notMem_toString n.natAbs
  · exact backslash_notMem_toString n.natAbs

/-- There is no backslash in the name of a built-in. -/
theorem backslash_notMem_name (b : Builtin) : '\\' ∉ b.name.toList := by
  cases b <;> decide

/-- There is no escape sequence in what is shown of a function. -/
theorem backslash_notMem_renderFunction {tag : String} {code : φ} (htag : '\\' ∉ tag.toList)
    (h : ∀ name ∈ FunctionCode.vars code, IsWord name.toList) :
    '\\' ∉ (renderFunction tag code).toList := by
  have hparameter : '\\' ∉ ((FunctionCode.vars code).head?.getD "()").toList := by
    cases hvars : FunctionCode.vars code with
    | nil => decide
    | cons name names =>
      intro hmem
      exact absurd ((h name (hvars ▸ List.mem_cons_self ..)).isWordRest _ hmem) (by decide)
  have hnumber := backslash_notMem_toString (FunctionCode.number code)
  simp only [renderFunction, String.toList_append, List.mem_append, htag, hparameter, hnumber,
    or_false]
  decide

/-- What is shown of further elements starts with a comma. -/
theorem endsNoEscape_renderMore (vs : List (ValueOf φ)) :
    EndsNoEscape (renderMore vs).toList := by
  cases vs with
  | nil => exact ⟨nofun, nofun⟩
  | cons v vs => simp [renderMore, EndsNoEscape]

mutual

/-- Going through what is shown of a value is going through each of its strings. -/
theorem unescape_render : ∀ {v : ValueOf φ}, v.HasWordNames →
    unescape v.render.toList = (v.mapStrings unescaped).render.toList
  | integer n, _ => Text.unescape_of_notMem (backslash_notMem_toString_int n.toInt)
  | string s, _ => by rw [render, mapStrings, render, unescaped, String.toList_ofList]
  | truth true, _ => Text.unescape_of_notMem (show '\\' ∉ "true".toList by decide)
  | truth false, _ => Text.unescape_of_notMem (show '\\' ∉ "false".toList by decide)
  | dummy, _ => Text.unescape_of_notMem (show '\\' ∉ "dummy".toList by decide)
  | ystar, _ => Text.unescape_of_notMem (show '\\' ∉ "<Y*>".toList by decide)
  | tuple [], _ => Text.unescape_of_notMem (show '\\' ∉ "nil".toList by decide)
  | builtin b, _ => Text.unescape_of_notMem (backslash_notMem_name b)
  | closure code env, h =>
    Text.unescape_of_notMem (backslash_notMem_renderFunction (by decide) h)
  | eta code env, h =>
    Text.unescape_of_notMem (backslash_notMem_renderFunction (by decide) h)
  | tuple (v :: vs), h => by
    -- what stands behind the opening parenthesis is cut where no escape sequence can be cut
    have hclosing : EndsNoEscape ")".toList := ⟨by decide, by decide⟩
    have hmore := (endsNoEscape_renderMore vs).append hclosing
    have hopening : "(".toList = ['('] := rfl
    simp only [render, mapStrings, mapStringsAll, String.toList_append, List.append_assoc, hopening]
    rw [List.singleton_append, Text.unescape_cons fun hc => absurd hc (by decide),
      Text.unescape_append hmore, Text.unescape_append hclosing, unescape_render h.1,
      unescape_renderMore h.2]
    rfl

/-- `unescape_render` for the elements after the first. -/
theorem unescape_renderMore : ∀ {vs : List (ValueOf φ)}, AllHaveWordNames vs →
    unescape (renderMore vs).toList = (renderMore (mapStringsAll unescaped vs)).toList
  | [], _ => rfl
  | v :: vs, h => by
    have hcomma : ", ".toList = [',', ' '] := rfl
    simp only [renderMore, mapStringsAll, String.toList_append, List.append_assoc, hcomma]
    rw [List.cons_append, List.singleton_append, Text.unescape_cons fun hc => absurd hc (by decide),
      Text.unescape_cons fun hc => absurd hc (by decide),
      Text.unescape_append (endsNoEscape_renderMore vs), unescape_render h.1,
      unescape_renderMore h.2]
    rfl

end

/-- Expanding the escapes of what is shown is showing the value with unescaped strings. -/
theorem expandEscapes_render {v : ValueOf φ} (h : v.HasWordNames) :
    Text.expandEscapes v.render = (v.mapStrings unescaped).render := by
  rw [Text.expandEscapes_eq, unescaped, unescape_render h, String.ofList_toList]

end ValueOf

/-! ### `Print` -/

namespace Machine

open Text (unescaped)

/-- `Print` writes the value with the escape sequences of every string in it replaced, each string on
    its own, and leaves `dummy`. If not all of the text fits, the evaluation ends; an unlimited sink
    takes all of its bytes. -/
theorem apply_print (m : Machine) (id : Nat) {v : Value} (h : v.HasWordNames) :
    let text := (v.mapStrings unescaped).render
    let sink := (m.sink.write text).2
    (m.apply id (.builtin .print) v =
      if (m.sink.write text).1 then .running { m with values := .dummy :: m.values, sink }
      else .halted (.error .outputFull) { m with sink }) ∧
    (m.sink.room = none → m.apply id (.builtin .print) v =
      .running
        { m with
          values := .dummy :: m.values
          sink := { written := m.sink.written ++ text.toUTF8, room := none } }) := by
  intro text sink
  have happly : m.apply id (.builtin .print) v =
      if (m.sink.write text).1 then .running { m with values := .dummy :: m.values, sink }
      else .halted (.error .outputFull) { m with sink } := by
    show m.applyPrint v = _
    rw [applyPrint, ValueOf.expandEscapes_render h]
    rfl
  constructor
  · exact happly
  · intro hroom
    have hwrite : m.sink.write text =
        (true, { written := m.sink.written ++ text.toUTF8, room := none }) :=
      Sink.write_of_room_eq_none hroom text
    rw [happly, if_pos (congrArg Prod.fst hwrite), show sink = _ from congrArg Prod.snd hwrite]

/-- A backslash at the end of a string is not joined with what follows the string, and of two
    backslashes before a letter only the second makes an escape sequence with it. -/
theorem apply_print_nested :
    let delta : Delta := { index := 3, vars := ["t", "n_"], line := 1, body := [] }
    let v : Value := .tuple [.string "a\\", .tuple [.string "t\\\\tn", .string "\\n\\"],
      .closure delta .outermost, .string "n\\tn"]
    let m : Machine := { (default : Machine) with sink := .withRoom none }
    let text := "(a\\, (t\\\tn, \n\\), [lambda closure: t: 3], n\tn)"
    v.HasWordNames ∧ m.sink.room = none ∧
      m.apply 0 (.builtin .print) v =
        .running
          { m with
            values := [.dummy]
            sink := { written := text.toUTF8, room := none } } := by
  intro delta v m text
  have hnames : v.HasWordNames := by
    have hword : ∀ name ∈ delta.vars, IsWord name.toList := by
      rintro name hname
      obtain rfl | rfl : name = "t" ∨ name = "n_" := by simpa [delta] using hname
      · exact ⟨'t', [], rfl, by decide, nofun⟩
      · exact ⟨'n', ['_'], rfl, by decide, by simp [isWordRest]⟩
    exact ⟨trivial, ⟨trivial, trivial, trivial⟩, hword, trivial, trivial⟩
  -- the text is computed, and the general statement carries it to the sink
  have htext : (v.mapStrings unescaped).render = text := by decide +kernel
  exact ⟨hnames, rfl, htext ▸ (apply_print m 0 hnames).2 rfl⟩

end Machine

end Rpal
