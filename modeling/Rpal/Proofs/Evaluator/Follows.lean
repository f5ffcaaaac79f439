import Rpal.Proofs.Control.Codes
import Rpal.Proofs.Evaluator.Basic

/-!
# Runs of the machine and evaluations

What it means that the machine does what an evaluation says, and how this is shown: for reductions
that come to a value, for evaluations one after the other, and for the steps before an evaluation.

## Key results

- `Follows.andThen`: the machine does one thing after the other
- `Follows.settle`: the machine reduces an item
- `reduceNode_eq_settle`, `step_gamma`: how the machine reduces a node whose operands are there
-/

namespace Rpal

/-- The next of the items, if there is one, is no application. -/
def Arena.NoApplication (a : Arena) : List ControlItem → Prop
  | .node id :: _ => a.kind id ≠ .gamma
  | _ => True

/-! ### Runs -/

namespace Machine

variable {m m' : Machine} {n k : Nat} {result : Except EvalError (Option Value)}

/-- A run that has not halted had not halted earlier. -/
theorem exists_running_of_le (hle : k ≤ n) (h : m.runFor n = .running m') :
    ∃ m'', m.runFor k = .running m'' := by
  obtain ⟨d, rfl⟩ := Nat.exists_eq_add_of_le hle
  cases hk : m.runFor k with
  | running m'' => exact ⟨m'', rfl⟩
  | halted result m'' => exact nomatch (runFor_add_of_halted d hk).symm.trans h

/-- A machine halts in one way. -/
theorem halted_unique {result' : Except EvalError (Option Value)} {m₁ m₂ : Machine}
    (h : m.runFor n = .halted result m₁) (h' : m.runFor k = .halted result' m₂) :
    result = result' ∧ m₁ = m₂ := by
  have h₁ := runFor_add_of_halted k h
  have h₂ := runFor_add_of_halted n h'
  rw [Nat.add_comm, h₁] at h₂
  exact Progress.halted.inj h₂

/-! ### Reductions -/

/-- The machine reduces the next item of the frame at work. -/
theorem step_cons {item : ControlItem} {control : List ControlItem} {env : Env} {fs : List Frame}
    (hframes : m.frames = { control := item :: control, env } :: fs) :
    m.step = Machine.reduce { m with frames := { control, env } :: fs } item := by
  rw [step.eq_def, hframes]

/-- Looking up a name gives what it stands for in the environment. -/
theorem identifier_eq (m : Machine) (name : String) :
    m.identifier name = m.settle (m.env.value name) := by
  rw [identifier, EnvOf.value]
  cases m.env.lookup? name with
  | some v => rfl
  | none => cases Builtin.ofName? name <;> rfl

/-- Unless it is an application, a node is reduced by an operation on its operands. -/
theorem reduceNode_eq_settle {id : Nat} {l : Label} {ws vs : List Value}
    (hl : m.program.arena.label id = l)
    (hchildren : (m.program.arena.children id).length = ws.length)
    (hadmits : l.kind.admits ws.length = true) (hcond : l.kind ≠ .conditional)
    (hgamma : l.kind ≠ .gamma) (hvalues : m.values = ws ++ vs) :
    m.reduceNode id =
      Machine.settle { m with line := l.line, values := vs } (l.operate m.env ws) := by
  -- without operands, no value is taken
  have hnone (hnil : ws = []) :
      { m with line := l.line } = { m with line := l.line, values := vs } := by
    rw [show m.values = vs by rw [hvalues, hnil, List.nil_append]]
  rw [reduceNode, Label.operate.eq_def]
  simp only [hl]
  cases hk : l.kind <;> rw [hk] at hadmits <;>
    simp only [Kind.admits, Kind.takes, decide_eq_true_eq, Bool.false_eq_true,
      List.length_eq_zero_iff] at hadmits
  case identifier =>
    rw [hnone hadmits, identifier_eq]
    subst hadmits
    rfl
  case integer | string | truth | nil | dummy | ystar =>
    rw [hnone hadmits]
    subst hadmits
    rfl
  case not | neg =>
    obtain ⟨v, rfl⟩ := List.length_eq_one_iff.1 hadmits
    simp only [unary, hvalues, List.cons_append, List.nil_append]
  case binary op =>
    obtain ⟨v, w, rfl⟩ := List.length_eq_two.1 hadmits
    simp only [binary, hvalues, List.cons_append, List.nil_append]
  case tau =>
    simp only [gather, hchildren, hvalues, List.length_append, Nat.le_add_right, if_true,
      List.drop_left, List.take_left]
    rfl
  case gamma => exact absurd hk hgamma
  case conditional => exact absurd hk hcond

/-- An application takes a function and an argument. -/
theorem step_gamma {id : Nat} {l : Label} {rest : List ControlItem} {env : Env} {fs : List Frame}
    {f v : Value} {vs : List Value} (hl : m.program.arena.label id = l) (hgamma : l.kind = .gamma)
    (hframes : m.frames = { control := .node id :: rest, env } :: fs)
    (hvalues : m.values = f :: v :: vs) :
    m.step = Machine.apply
      { m with frames := { control := rest, env } :: fs, values := vs, line := l.line } id f v := by
  rw [step_cons hframes, reduce, reduceNode]
  simp only [hl, hgamma, binary, hvalues]

/-- `Conc` is applied to two strings if an application of the result comes next. -/
theorem applyConc_of_application {id : Nat} {rest : List ControlItem} {env : Env} {fs : List Frame}
    {v w : Value} {vs : List Value} (hid : m.program.arena.kind id = .gamma)
    (hframes : m.frames = { control := .node id :: rest, env } :: fs) (hvalues : m.values = w :: vs) :
    m.applyConc v = Machine.settle { m with frames := { control := rest, env } :: fs, values := vs }
      (v.joined w) := by
  simp only [applyConc, takeItem, hframes, Option.any_some, isApplication, hid, decide_true, if_true,
    hvalues]

/-- `Conc` alone fails, having looked at the item that comes next. -/
theorem applyConc_of_noApplication {rest : List ControlItem} {env : Env} {fs : List Frame} {v : Value}
    (hframes : m.frames = { control := rest, env } :: fs) (hrest : m.program.arena.NoApplication rest) :
    ∃ m', m.applyConc v = .halted (.error (.fault m.line (.type (.concAlone v)))) m' ∧
      m'.sink = m.sink := by
  cases rest with
  | nil => exact ⟨m, by simp only [applyConc, takeItem, hframes]; rfl, rfl⟩
  | cons item rest =>
    have hitem : m.isApplication item = false := by
      cases item with
      | node id => exact decide_eq_false hrest
      | _ => rfl
    refine ⟨{ m with frames := { control := rest, env } :: fs }, ?_, rfl⟩
    simp only [applyConc, takeItem, hframes, Option.any_some]
    rw [if_neg]
    · rfl
    · rw [show Machine.isApplication _ item = m.isApplication item from by cases item <;> rfl, hitem]
      exact Bool.false_ne_true

/-- What is printed is written if the sink has room for everything. -/
theorem applyPrint_of_room (hroom : m.sink.room = none) (v : Value) :
    m.applyPrint v = Machine.settle { m with sink :=
      { m.sink with written := m.sink.written ++ (Text.expandEscapes v.render).toUTF8 } }
      (.ok .dummy) := by
  simp only [applyPrint, Sink.outputWriter_write, Sink.write, hroom, if_true]
  rfl

end Machine

/-! ### Following an evaluation -/

/-- The delta of the code of a function. -/
def Program.deltaOf (p : Program) (code : Abstraction Numbered) : Delta :=
  p.control.delta code.label.number

/-- The machine does what the evaluation says: it prints the same values and comes to a state for
    the result, or halts with the same error, or has not halted after `limit` steps. -/
inductive Follows {β : Type} (p : Program) (limit : Nat) (m : Machine) (Q : β → Machine → Prop) :
    Evaluation (Abstraction Numbered) β → Prop where
  | runs {m'} : m.runFor limit = .running m' → Follows p limit m Q .unfinished
  | returns {printed b n m'} : m.runFor n = .running m' →
      m'.sink.written = m.sink.written ++ output printed → Q b m' →
      Follows p limit m Q (.ended printed (.ok b))
  | fails {printed e n m'} : m.runFor n = .halted (.error (e.map p.deltaOf)) m' →
      m'.sink.written = m.sink.written ++ output printed →
      Follows p limit m Q (.ended printed (.error e))

namespace Follows

variable {β γ : Type} {p : Program} {limit : Nat} {m m₁ : Machine} {Q : β → Machine → Prop}
  {Q' : γ → Machine → Prop} {x : Evaluation (Abstraction Numbered) β}
  {f : β → Evaluation (Abstraction Numbered) γ}

/-- A machine that is where it should be follows a result. -/
theorem pure {b : β} (h : Q b m) : Follows p limit m Q (pure b) :=
  .returns (n := 0) rfl (by rw [output, ByteArray.append_empty]) h

/-- The machine may take steps, and print, before an evaluation. -/
theorem after {printed : List (TreeValue Numbered)} {n : Nat} (hrun : m.runFor n = .running m₁)
    (hsink : m₁.sink.written = m.sink.written ++ output printed) (h : Follows p limit m₁ Q x) :
    Follows p limit m Q (x.after printed) := by
  cases h with
  | @runs m' hrun' =>
    have hmore := (Machine.runFor_add limit hrun).trans hrun'
    obtain ⟨m'', hlimit⟩ := Machine.exists_running_of_le (Nat.le_add_left limit n) hmore
    exact .runs hlimit
  | returns hrun' hsink' hQ =>
    refine .returns ((Machine.runFor_add _ hrun).trans hrun') ?_ hQ
    rw [hsink', hsink, output_append, ByteArray.append_assoc]
  | fails hrun' hsink' =>
    refine .fails ((Machine.runFor_add _ hrun).trans hrun') ?_
    rw [hsink', hsink, output_append, ByteArray.append_assoc]

/-- The machine may take steps that print nothing before an evaluation. -/
theorem after_silent {n : Nat} (hrun : m.runFor n = .running m₁) (hsink : m₁.sink = m.sink)
    (h : Follows p limit m₁ Q x) : Follows p limit m Q x := by
  rw [← x.after_nil]
  exact h.after hrun (by rw [hsink, output, ByteArray.append_empty])

/-- A step before an evaluation allows one more step. -/
theorem step (hstep : m.step = .running m₁) (hsink : m₁.sink = m.sink)
    (h : Follows p limit m₁ Q x) : Follows p (limit + 1) m Q x := by
  have hrun : m.runFor 1 = .running m₁ := by rw [Machine.runFor_one, hstep]
  cases h with
  | runs hrun' =>
    rw [Nat.add_comm]
    exact .runs ((Machine.runFor_add _ hrun).trans hrun')
  | returns hrun' hsink' hQ =>
    exact .returns ((Machine.runFor_add _ hrun).trans hrun') (hsink ▸ hsink') hQ
  | fails hrun' hsink' =>
    exact .fails ((Machine.runFor_add _ hrun).trans hrun') (hsink ▸ hsink')

/-- What is followed up to a limit is followed up to a lower one. -/
theorem of_succ (h : Follows p (limit + 1) m Q x) : Follows p limit m Q x := by
  cases h with
  | runs hrun =>
    obtain ⟨m'', hlimit⟩ := Machine.exists_running_of_le (Nat.le_succ limit) hrun
    exact .runs hlimit
  | returns hrun hsink hQ => exact .returns hrun hsink hQ
  | fails hrun hsink => exact .fails hrun hsink

/-- The machine does one thing after the other. -/
theorem andThen (h : Follows p limit m Q x)
    (hf : ∀ b m', Q b m' → Follows p limit m' Q' (f b)) : Follows p limit m Q' (x >>= f) := by
  cases h with
  | runs hrun => exact .runs hrun
  | fails hrun hsink => exact .fails hrun hsink
  | returns hrun hsink hQ => exact (hf _ _ hQ).after hrun hsink

/-- The machine fails on the line of the item that it reduces. -/
theorem fail {line : Nat} {fault : FaultOf (Abstraction Numbered)}
    (hstep : m.step = .halted (.error (.fault line (fault.map p.deltaOf))) m₁)
    (hsink : m₁.sink = m.sink) : Follows p limit m Q (.fail line fault) :=
  .fails (n := 1) ((m.runFor_one).trans hstep)
    (by rw [hsink, output, ByteArray.append_empty])

/-- The machine leaves the value that an operation comes to, or fails. -/
theorem settle {Q : TreeValue Numbered → Machine → Prop}
    {result : Except (FaultOf (Abstraction Numbered)) (TreeValue Numbered)}
    (hstep : m.step = m₁.settle (mapResult p.deltaOf result)) (hsink : m₁.sink = m.sink)
    (hQ : ∀ v, result = .ok v → Q v { m₁ with values := v.map p.deltaOf :: m₁.values }) :
    Follows p limit m Q (.settle m₁.line result) := by
  cases result with
  | error f => exact .fail hstep hsink
  | ok v =>
    have hrun : m.runFor 1 = .running { m₁ with values := v.map p.deltaOf :: m₁.values } := by
      rw [Machine.runFor_one, hstep]
      rfl
    exact after_silent hrun hsink (.pure (hQ v rfl))

end Follows

end Rpal
