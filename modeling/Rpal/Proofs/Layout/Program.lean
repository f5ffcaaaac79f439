import Rpal.Program
import Rpal.Proofs.Grammar.Similarity
import Rpal.Proofs.Layout.Machine
import Rpal.Proofs.Layout.Standardize
import Rpal.Proofs.Token.Order

/-!
# The layout of a program

Blanks, newlines and comments decide where the tokens of a file stand, and nothing else. Two files
with the same lexemes are parsed to trees that are the same without lines, or with errors at the same
token. Everything that is made of the trees then is the same without lines, because each stage does
the same with a tree or without its lines.

## Key results

- `Arena.program_unplaced`: a program is built in the same way without lines
- `Progress.looksLike_of_unplaced`: runs that are the same without lines look the same
- `Tree.looksLike_of_unplaced`: so do trees
- `SourceFile.looksLike_of_lexemes`: files with the same lexemes
-/

namespace Rpal

/-! ### Programs without lines -/

/-- The error without its line. What it says of a text is not changed. -/
def ProgramError.unplaced : ProgramError → ProgramError
  | diagnostic d => diagnostic d
  | standardize e => standardize e.unplaced
  | build e => build e.unplaced

/-- An arena without lines is the same program, or fails in the same way. -/
theorem Arena.program_unplaced (a : Arena) : a.unplaced.program =
    (a.program.map Program.unplaced).mapError ProgramError.unplaced := by
  simp only [program, standardForm_unplaced]
  cases a.standardForm with
  | error e => rfl
  | ok a' =>
    simp only [Except.map, Except.mapError, bind, Except.bind, control_unplaced]
    cases a'.control <;> rfl

/-! ### What is seen of a run -/

/-- The errors are of one kind, with the same message apart from the line. -/
inductive EvalError.LooksLike : EvalError → EvalError → Prop where
  | fault {line line' : Nat} {f f' : Fault} : f.map Delta.unplaced = f'.map Delta.unplaced →
      f.message = f'.message → LooksLike (.fault line f) (.fault line' f')
  | stackUnderflow : LooksLike .stackUnderflow .stackUnderflow
  | leftoverValues (count : Nat) : LooksLike (.leftoverValues count) (.leftoverValues count)
  | outputFull : LooksLike .outputFull .outputFull

/-- The runs have printed the same bytes. Both go on, or both have ended with values that are printed
    alike or with errors that look alike. -/
inductive Progress.LooksLike : Progress → Progress → Prop where
  | running {m m' : Machine} : m.sink = m'.sink → LooksLike (.running m) (.running m')
  | returned {v v' : Option Value} {m m' : Machine} : m.sink = m'.sink →
      v.map ValueOf.render = v'.map ValueOf.render →
      LooksLike (.halted (.ok v) m) (.halted (.ok v') m')
  | failed {e e' : EvalError} {m m' : Machine} : m.sink = m'.sink → e.LooksLike e' →
      LooksLike (.halted (.error e) m) (.halted (.error e') m')

/-- A fault has the same message without the lines of functions. -/
theorem message_map_unplaced (f : Fault) : (f.map Delta.unplaced).message = f.message :=
  have hcode (d : Delta) : FunctionCode.number d.unplaced = FunctionCode.number d ∧
      FunctionCode.vars d.unplaced = FunctionCode.vars d := ⟨rfl, rfl⟩
  f.message_map hcode

/-- Errors that are the same without lines look alike. -/
theorem EvalError.looksLike_of_unplaced {e e' : EvalError} (h : e.unplaced = e'.unplaced) :
    e.LooksLike e' := by
  cases e with
  | fault line f =>
    cases e' with
    | fault line' f' =>
      have hf : f.map Delta.unplaced = f'.map Delta.unplaced := (EvalErrorOf.fault.inj h).2
      -- no message shows the line of the error
      refine .fault hf ?_
      rw [← message_map_unplaced f, hf, message_map_unplaced]
    | _ => cases h
  | stackUnderflow =>
    cases e' with
    | stackUnderflow => exact .stackUnderflow
    | _ => cases h
  | leftoverValues count =>
    cases e' with
    | leftoverValues count' =>
      obtain rfl : count = count' := EvalErrorOf.leftoverValues.inj h
      exact .leftoverValues count
    | _ => cases h
  | outputFull =>
    cases e' with
    | outputFull => exact .outputFull
    | _ => cases h

/-- The output of a machine has nothing to do with lines. -/
theorem Machine.sink_eq_of_unplaced {m m' : Machine} (h : m.unplaced = m'.unplaced) :
    m.sink = m'.sink :=
  have hsink : m.unplaced.sink = m'.unplaced.sink := congrArg Machine.sink h
  hsink

/-- Machines that have come equally far without lines look alike. -/
theorem Progress.looksLike_of_unplaced {r r' : Progress} (h : r.unplaced = r'.unplaced) :
    r.LooksLike r' := by
  -- no line is shown of a value
  have hrender (v : Option Value) :
      (v.map Value.unplaced).map ValueOf.render = v.map ValueOf.render := by
    rw [Option.map_map]
    exact congrArg (Option.map · v) (funext Value.render_unplaced)
  unfold Progress.unplaced at h
  cases r with
  | running m =>
    cases r' with
    | running m' => exact .running (Machine.sink_eq_of_unplaced (Progress.running.inj h))
    | halted => cases h
  | halted result m =>
    cases r' with
    | running => cases h
    | halted result' m' =>
      obtain ⟨hresult, hm⟩ := Progress.halted.inj h
      have hsink := Machine.sink_eq_of_unplaced hm
      cases result with
      | ok v =>
        cases result' with
        | ok v' =>
          have hv : v.map Value.unplaced = v'.map Value.unplaced := Except.ok.inj hresult
          refine .returned hsink ?_
          rw [← hrender v, hv, hrender]
        | error => cases hresult
      | error e =>
        cases result' with
        | ok => cases hresult
        | error e' => exact .failed hsink (EvalError.looksLike_of_unplaced (Except.error.inj hresult))

/-! ### What is seen of a tree -/

/-- The trees are printed alike, and so are their canonical forms and control structures, if they
    have any; if not, the errors are the same apart from the line. The programs that they are run
    alike, with any sink and for any number of steps. -/
structure Tree.LooksLike (t t' : Tree Label) : Prop where
  render_eq : t.render = t'.render
  outline_eq : t.outline = t'.outline
  standardForm_eq :
    ((Arena.ofTree t).standardForm.map fun a => a.rootTree?.map Tree.outline).mapError
        StandardizeError.unplaced =
      ((Arena.ofTree t').standardForm.map fun a => a.rootTree?.map Tree.outline).mapError
        StandardizeError.unplaced
  program_eq :
    ((Arena.ofTree t).program.map fun p => p.control.render p.arena).mapError
        ProgramError.unplaced =
      ((Arena.ofTree t').program.map fun p => p.control.render p.arena).mapError
        ProgramError.unplaced
  runs : ∀ p p', (Arena.ofTree t).program = .ok p → (Arena.ofTree t').program = .ok p' →
    ∀ (sink : Sink) (n : Nat),
      ((Machine.start p sink).runFor n).LooksLike ((Machine.start p' sink).runFor n)

namespace Tree

/-- The canonical form is printed alike without lines. -/
theorem outline_standardForm_unplaced (t : Tree Label) :
    ((Arena.ofTree t.unplaced).standardForm.map fun a => a.rootTree?.map outline).mapError
        StandardizeError.unplaced =
      ((Arena.ofTree t).standardForm.map fun a => a.rootTree?.map outline).mapError
        StandardizeError.unplaced := by
  rw [Arena.ofTree_unplaced, Arena.standardForm_unplaced]
  cases (Arena.ofTree t).standardForm with
  | error e => cases e <;> rfl
  | ok a =>
    simp only [Except.map, Except.mapError, Arena.rootTree?_unplaced, Option.map_map]
    exact congrArg (fun f => Except.ok (a.rootTree?.map f)) (funext outline_unplaced)

/-- The control structures are printed alike without lines. -/
theorem render_program_unplaced (t : Tree Label) :
    ((Arena.ofTree t.unplaced).program.map fun p => p.control.render p.arena).mapError
        ProgramError.unplaced =
      ((Arena.ofTree t).program.map fun p => p.control.render p.arena).mapError
        ProgramError.unplaced := by
  rw [Arena.ofTree_unplaced, Arena.program_unplaced]
  cases (Arena.ofTree t).program with
  | error e =>
    cases e with
    | diagnostic d => rfl
    | standardize e => cases e <;> rfl
    | build e => cases e <;> rfl
  | ok p => exact congrArg Except.ok (p.control.render_unplaced p.arena)

/-- Trees that are the same without lines look alike. -/
theorem looksLike_of_unplaced {t t' : Tree Label} (h : t.unplaced = t'.unplaced) :
    t.LooksLike t' where
  render_eq := by rw [← t.render_unplaced, h, t'.render_unplaced]
  outline_eq := by rw [← t.outline_unplaced, h, t'.outline_unplaced]
  standardForm_eq := by
    rw [← t.outline_standardForm_unplaced, h, t'.outline_standardForm_unplaced]
  program_eq := by rw [← t.render_program_unplaced, h, t'.render_program_unplaced]
  runs := by
    intro p p' hp hp' sink n
    have hprogram {t : Tree Label} {p : Program} (hp : (Arena.ofTree t).program = .ok p) :
        (Arena.ofTree t.unplaced).program = .ok p.unplaced := by
      rw [Arena.ofTree_unplaced, Arena.program_unplaced, hp]
      rfl
    have hsame : p.unplaced = p'.unplaced :=
      Except.ok.inj ((hprogram hp).symm.trans (h ▸ hprogram hp'))
    apply Progress.looksLike_of_unplaced
    rw [← Machine.runFor_unplaced, ← Machine.runFor_unplaced, ← Machine.start_unplaced, hsame,
      Machine.start_unplaced]

end Tree

/-! ### Files with the same lexemes -/

/-- Tokens correspond to each other if they have the same lexeme and the same place in two lists of
    tokens; trees, if they are the same without lines. The token that stands for the end of an input
    without one has to have the same place, too. -/
def Grammar.Similarity.ofLayout (tokens tokens' : List Token)
    (hmissing : tokens.idxOf .missing = tokens'.idxOf .missing) : Grammar.Similarity where
  token k k' := k.lexeme = k'.lexeme ∧ tokens.idxOf k = tokens'.idxOf k'
  tree t t' := t.unplaced = t'.unplaced
  lexeme_eq h := h.1
  missing := ⟨rfl, hmissing⟩
  leaf _ _ _ := rfl
  branch {ts ts'} h kind := by
    have hchildren : ts.map Tree.unplaced = ts'.map Tree.unplaced :=
      List.forall₂_eq_eq_eq ▸ List.forall₂_map_left_iff.2 (List.forall₂_map_right_iff.2 h)
    rw [Tree.branch_unplaced, Tree.branch_unplaced, hchildren]

/-- A lexeme is known by its type and its text. -/
theorem Lexeme.eq_of_type_of_text {l l' : Lexeme} (htype : l.type = l'.type)
    (htext : l.text? = l'.text?) : l = l' := by
  cases l <;> cases l' <;> simp_all [type, text?]

namespace SourceFile

variable {f f' : SourceFile} {tokens tokens' : List Token}

/-- The tokens of two files that have the same lexemes stand in the same places. -/
theorem forall₂_ofLayout (hf : f.tokens = .ok tokens) (hf' : f'.tokens = .ok tokens')
    (hsame : tokens.map Token.lexeme = tokens'.map Token.lexeme)
    (hmissing : tokens.idxOf .missing = tokens'.idxOf .missing) :
    List.Forall₂ (Grammar.Similarity.ofLayout tokens tokens' hmissing).token tokens tokens' := by
  have hlen : tokens.length = tokens'.length := by
    simpa only [List.length_map] using congrArg List.length hsame
  refine List.forall₂_iff_get.2 ⟨hlen, fun i h h' => ⟨?_, ?_⟩⟩
  · have hlexeme : (tokens.map Token.lexeme)[i]? = (tokens'.map Token.lexeme)[i]? := by rw [hsame]
    simpa [h, h'] using hlexeme
  · have hi : tokens.idxOf (tokens.get ⟨i, h⟩) = i := (nodup_tokens hf).idxOf_getElem i h
    have hi' : tokens'.idxOf (tokens'.get ⟨i, h'⟩) = i := (nodup_tokens hf').idxOf_getElem i h'
    rw [hi, hi']

/-- Files whose tokens have the same types and texts cannot be told apart, but for lines. Parsing both
    fails at the same token, with the same types expected, or both have trees that look alike. -/
theorem looksLike_of_lexemes (hf : f.tokens = .ok tokens) (hf' : f'.tokens = .ok tokens')
    (hsame : tokens.map (fun k => (k.type, k.lexeme.text?)) =
      tokens'.map fun k => (k.type, k.lexeme.text?)) :
    (∃ e e', Tree.ofTokens tokens = .error e ∧ Tree.ofTokens tokens' = .error e' ∧
      tokens.idxOf e.actual = tokens'.idxOf e'.actual ∧ e.expected = e'.expected) ∨
    ∃ t t', Tree.ofTokens tokens = .ok t ∧ Tree.ofTokens tokens' = .ok t' ∧ t.LooksLike t' := by
  have hlexemes : tokens.map Token.lexeme = tokens'.map Token.lexeme := by
    have hinj : Function.Injective fun l : Lexeme => (l.type, l.text?) := fun l l' h =>
      Lexeme.eq_of_type_of_text (Prod.mk.inj h).1 (Prod.mk.inj h).2
    refine hinj.list_map ?_
    rw [List.map_map, List.map_map]
    exact hsame
  have hlen : tokens.length = tokens'.length := by
    simpa only [List.length_map] using congrArg List.length hlexemes
  -- neither file has this token, which is then found behind the last one
  have hmissing : tokens.idxOf .missing = tokens'.idxOf .missing := by
    rw [List.idxOf_eq_length (missing_notMem_tokens hf),
      List.idxOf_eq_length (missing_notMem_tokens hf'), hlen]
  rcases Grammar.Similarity.ofTokens (forall₂_ofLayout hf hf' hlexemes hmissing) with
    ⟨t, t', ht, ht', htree⟩ | ⟨e, e', he, he', herrors⟩
  · exact .inr ⟨t, t', ht, ht', Tree.looksLike_of_unplaced htree⟩
  · exact .inl ⟨e, e', he, he', herrors.actual.2, herrors.expected⟩

/-- A program on one line, and with newlines and a comment. -/
theorem looksLike_of_lexemes_comment : ∃ tokens tokens',
    SourceFile.tokens ⟨"", 0, "let f x = Print x in f 'a' / 0"⟩ = .ok tokens ∧
    SourceFile.tokens ⟨"", 0, "// f\nlet f x =\n  Print x\nin\n f 'a'/ 0\n"⟩ = .ok tokens' ∧
    tokens.map (fun k => (k.type, k.lexeme.text?)) =
      tokens'.map (fun k => (k.type, k.lexeme.text?)) ∧ tokens ≠ tokens' ∧
    ((∃ e e', Tree.ofTokens tokens = .error e ∧ Tree.ofTokens tokens' = .error e' ∧
      tokens.idxOf e.actual = tokens'.idxOf e'.actual ∧ e.expected = e'.expected) ∨
    ∃ t t', Tree.ofTokens tokens = .ok t ∧ Tree.ofTokens tokens' = .ok t' ∧ t.LooksLike t') := by
  generalize hf : SourceFile.mk _ _ "let f x = Print x in f 'a' / 0" = f
  generalize hf' : SourceFile.mk _ _ _ = f'
  have hok : (f.tokens.toOption.any fun tokens => f'.tokens.toOption.any fun tokens' =>
      decide (tokens.map (fun k => (k.type, k.lexeme.text?)) =
        tokens'.map (fun k => (k.type, k.lexeme.text?)) ∧ tokens ≠ tokens')) = true := by
    subst hf hf'
    decide +kernel
  cases h : f.tokens with
  | error e =>
    rw [h] at hok
    cases hok
  | ok tokens =>
    cases h' : f'.tokens with
    | error e =>
      rw [h, h'] at hok
      cases hok
    | ok tokens' =>
      rw [h, h'] at hok
      obtain ⟨hsame, hne⟩ := of_decide_eq_true hok
      exact ⟨tokens, tokens', rfl, rfl, hsame, hne, looksLike_of_lexemes h h' hsame⟩

end SourceFile

end Rpal
