import Rpal.Machine.Basic
import Rpal.Proofs.Layout.Flatten
import Rpal.Proofs.Value.Map

/-!
# Runs without lines

The machine remembers the line of the item that it reduces, for the errors that it may come to, and
the functions that it makes have the lines of their lambdas. Neither decides what it does next. So a
machine without lines takes the same steps.

## Key results

- `Machine.step_unplaced`: one step, from the lemmas about the ends of a reduction
- `Machine.runFor_unplaced`: a run
-/

namespace Rpal

/-- The program without lines. -/
def Program.unplaced (p : Program) : Program :=
  { arena := p.arena.unplaced, control := p.control.unplaced }

/-- The value, with functions that have no lines. -/
def Value.unplaced (v : Value) : Value :=
  v.map Delta.unplaced

/-- The environment, with functions that have no lines. -/
def Env.unplaced (env : Env) : Env :=
  env.map Delta.unplaced

/-- The frame, with functions that have no lines. -/
def Frame.unplaced (f : Frame) : Frame :=
  { f with env := f.env.unplaced }

/-- The machine without lines. -/
def Machine.unplaced (m : Machine) : Machine :=
  { m with
    program := m.program.unplaced
    frames := m.frames.map Frame.unplaced
    values := m.values.map Value.unplaced
    line := 0 }

/-- The error without lines. -/
def EvalError.unplaced : EvalError → EvalError
  | .fault _ f => .fault 0 (f.map Delta.unplaced)
  | e => e

/-- The result of a run, without lines. -/
def Progress.unplacedResult (result : Except EvalError (Option Value)) :
    Except EvalError (Option Value) :=
  (result.map (Option.map Value.unplaced)).mapError EvalError.unplaced

/-- The state of a run, without lines. -/
def Progress.unplaced : Progress → Progress
  | .running m => .running m.unplaced
  | .halted result m => .halted (Progress.unplacedResult result) m.unplaced

/-- A value is printed without the lines of its functions. -/
theorem Value.render_unplaced (v : Value) : ValueOf.render (Value.unplaced v) = ValueOf.render v :=
  have hcode (d : Delta) : FunctionCode.number d.unplaced = FunctionCode.number d ∧
      FunctionCode.vars d.unplaced = FunctionCode.vars d := ⟨rfl, rfl⟩
  ValueOf.render_map_of_forall hcode v

namespace Machine

variable (m : Machine)

/-- A program without lines starts like the program. -/
theorem start_unplaced (p : Program) (sink : Sink) :
    start p.unplaced sink = (start p sink).unplaced := by
  have hroot : p.unplaced.control.root = p.control.root.unplaced := p.control.delta_unplaced 0
  simp only [start, hroot]
  rfl

/-- The environment at work is the same up to lines. -/
theorem env_unplaced : m.unplaced.env = m.env.unplaced := by
  obtain ⟨program, frames, values, line, environments, sink⟩ := m
  cases frames <;> rfl

/-! ### Ends of a reduction -/

/-- Pushing a value commutes with forgetting lines. -/
theorem push_unplaced (v : Value) : m.unplaced.push v.unplaced = (m.push v).unplaced :=
  rfl

/-- A failure is the same up to lines. -/
theorem fail_unplaced (f : Fault) : m.unplaced.fail (f.map Delta.unplaced) = (m.fail f).unplaced :=
  rfl

/-- An operation that comes to the same without lines ends the reduction in the same way. -/
theorem settle_unplaced {result result' : Except Fault Value}
    (h : result' = mapResult Delta.unplaced result) :
    m.unplaced.settle result' = (m.settle result).unplaced := by
  subst h
  cases result with
  | ok v => exact m.push_unplaced v
  | error f => exact m.fail_unplaced f

/-- A missing operand is the same without lines. -/
theorem underflow_unplaced : m.unplaced.underflow = m.underflow.unplaced :=
  rfl

/-- Scheduling items commutes with forgetting lines. -/
theorem schedule_unplaced (items : List ControlItem) :
    m.unplaced.schedule items = (m.schedule items).unplaced := by
  obtain ⟨program, frames, values, line, environments, sink⟩ := m
  cases frames <;> rfl

/-! ### Application -/

/-- The frames that stay under a new one are the same up to lines. -/
theorem callers_unplaced : m.unplaced.callers = m.callers.map Frame.unplaced := by
  obtain ⟨program, frames, values, line, environments, sink⟩ := m
  match frames with
  | [] | { control := [], env := _ } :: _ | { control := _ :: _, env := _ } :: _ => rfl

/-- Entering a function commutes with forgetting lines. -/
theorem enter_unplaced (delta : Delta) (env : Env) :
    m.unplaced.enter delta.unplaced env.unplaced = (m.enter delta env).unplaced := by
  rw [enter, callers_unplaced]
  rfl

/-- The next item is the same, and what is left is the same up to lines. -/
theorem takeItem_unplaced : m.unplaced.takeItem = (m.takeItem.1, m.takeItem.2.unplaced) := by
  obtain ⟨program, frames, values, line, environments, sink⟩ := m
  match frames with
  | [] | { control := [], env := _ } :: _ | { control := _ :: _, env := _ } :: _ => rfl

/-- Whether an item is an application does not depend on lines. -/
theorem isApplication_unplaced (item : ControlItem) :
    m.unplaced.isApplication item = m.isApplication item := by
  cases item with
  | node id =>
    have hkind : m.unplaced.program.arena.kind id = m.program.arena.kind id :=
      m.program.arena.kind_unplaced id
    rw [isApplication, isApplication, hkind]
  | _ => rfl

/-- `Conc` takes the same operand without lines. -/
theorem applyConc_unplaced (v : Value) :
    m.unplaced.applyConc v.unplaced = (m.applyConc v).unplaced := by
  simp only [applyConc, takeItem_unplaced, funext (isApplication_unplaced m.takeItem.2)]
  split
  · have hvalues : m.takeItem.2.unplaced.values = m.takeItem.2.values.map Value.unplaced := rfl
    rw [hvalues]
    cases m.takeItem.2.values with
    | nil => rfl
    | cons w values =>
      exact settle_unplaced { m.takeItem.2 with values } (ValueOf.joined_map Delta.unplaced v w)
  · exact settle_unplaced m.takeItem.2 (Builtin.apply_map Delta.unplaced .conc v)

/-- `Print` writes the same without lines. -/
theorem applyPrint_unplaced (v : Value) :
    m.unplaced.applyPrint v.unplaced = (m.applyPrint v).unplaced := by
  have hsink : m.unplaced.sink = m.sink := rfl
  simp only [applyPrint, Value.render_unplaced, hsink]
  cases (m.sink.write (Text.expandEscapes v.render)).1 <;> rfl

/-- The functions that are built in do the same without lines. -/
theorem applyBuiltin_unplaced (b : Builtin) (v : Value) :
    m.unplaced.applyBuiltin b v.unplaced = (m.applyBuiltin b v).unplaced := by
  have hsettle := m.settle_unplaced (b.apply_map Delta.unplaced v)
  cases b with
  | conc => exact m.applyConc_unplaced v
  | print => exact m.applyPrint_unplaced v
  | _ => exact hsettle

/-- An application does the same without lines. -/
theorem apply_unplaced (id : Nat) (f v : Value) :
    m.unplaced.apply id f.unplaced v.unplaced = (m.apply id f v).unplaced := by
  cases f with
  | closure delta env =>
    -- whether the argument fits depends on the parameters, which have no line
    have henter : (env.map Delta.unplaced).enter? delta.unplaced.vars (v.map Delta.unplaced) =
        (env.enter? delta.vars v).map (EnvOf.map Delta.unplaced) :=
      EnvOf.enter?_map Delta.unplaced env delta.vars v
    unfold Value.unplaced
    rw [ValueOf.map]
    simp only [apply, henter]
    cases env.enter? delta.vars v with
    | none => exact m.fail_unplaced (.type (.notTupleOf delta.vars.length v))
    | some inner => exact m.enter_unplaced delta inner
  | eta delta env =>
    exact schedule_unplaced
      { m with values := .closure delta env :: .eta delta env :: v :: m.values } [.node id, .node id]
  | ystar => cases v <;> rfl
  | tuple elements =>
    have helement := ValueOf.element_map Delta.unplaced elements v
    rw [← ValueOf.mapAll_eq_map] at helement
    exact m.settle_unplaced helement
  | builtin b => exact m.applyBuiltin_unplaced b v
  | _ => rfl

/-! ### Reductions -/

/-- A name stands for the same value up to lines. -/
theorem identifier_unplaced (name : String) :
    m.unplaced.identifier name = (m.identifier name).unplaced := by
  have hlookup : m.unplaced.env.lookup? name = (m.env.lookup? name).map Value.unplaced := by
    rw [env_unplaced]
    exact EnvOf.lookup?_map Delta.unplaced name m.env
  rw [identifier, identifier, hlookup]
  cases m.env.lookup? name with
  | some v => exact m.push_unplaced v
  | none =>
    cases Builtin.ofName? name with
    | some b => exact m.push_unplaced (.builtin b)
    | none => exact m.fail_unplaced (.undeclared name)

/-- An operation on one operand does the same without lines if it does so on every value. -/
theorem unary_unplaced {operation : Machine → Value → Progress}
    (h : ∀ (m : Machine) v, operation m.unplaced v.unplaced = (operation m v).unplaced) :
    m.unplaced.unary operation = (m.unary operation).unplaced := by
  obtain ⟨program, frames, values, line, environments, sink⟩ := m
  cases values with
  | nil => rfl
  | cons v values => exact h { program, frames, values, line, environments, sink } v

/-- An operation on two operands does the same without lines if it does so on all values. -/
theorem binary_unplaced {operation : Machine → Value → Value → Progress}
    (h : ∀ (m : Machine) v w, operation m.unplaced v.unplaced w.unplaced =
      (operation m v w).unplaced) :
    m.unplaced.binary operation = (m.binary operation).unplaced := by
  obtain ⟨program, frames, values, line, environments, sink⟩ := m
  match values with
  | [] | [_] => rfl
  | v :: w :: values => exact h { program, frames, values, line, environments, sink } v w

/-- Values are gathered to the same tuple without lines. -/
theorem gather_unplaced (count : Nat) : m.unplaced.gather count = (m.gather count).unplaced := by
  have hvalues : m.unplaced.values = m.values.map Value.unplaced := rfl
  simp only [gather, hvalues, List.length_map]
  split
  · have htuple : Value.unplaced (.tuple (m.values.take count)) =
        .tuple ((m.values.map Value.unplaced).take count) := by
      rw [← List.map_take]
      exact congrArg ValueOf.tuple (ValueOf.mapAll_eq_map Delta.unplaced _)
    rw [← htuple, ← List.map_drop]
    rfl
  · exact m.underflow_unplaced

/-- A node is reduced alike without lines. -/
theorem reduceNode_unplaced (id : Nat) :
    m.unplaced.reduceNode id = (m.reduceNode id).unplaced := by
  have hlabel : m.unplaced.program.arena.label id = (m.program.arena.label id).unplaced :=
    m.program.arena.label_unplaced id
  have hchildren : m.unplaced.program.arena.children id = m.program.arena.children id :=
    m.program.arena.children_unplaced id
  generalize hl : m.program.arena.label id = l at hlabel
  -- from here on, the machine is the one that remembers the line of the node
  have hline : { m.unplaced with line := l.unplaced.line } =
      Machine.unplaced { m with line := l.line } := rfl
  simp only [reduceNode, hlabel, hl, hchildren, hline]
  generalize { m with line := l.line } = m
  have hkind : l.unplaced.kind = l.kind := rfl
  rw [hkind]
  cases l.kind with
  | identifier => exact m.identifier_unplaced l.content
  | integer => exact m.settle_unplaced (mapResult_orOverflow Delta.unplaced _).symm
  | tau => exact m.gather_unplaced _
  | gamma => exact m.binary_unplaced fun m f v => m.apply_unplaced id f v
  | binary op =>
    exact m.binary_unplaced fun m v w => m.settle_unplaced (op.apply_map Delta.unplaced v w)
  | not => exact m.unary_unplaced fun m v => m.settle_unplaced (v.inverted_map Delta.unplaced)
  | neg => exact m.unary_unplaced fun m v => m.settle_unplaced (v.negated_map Delta.unplaced)
  | _ => rfl

/-- The same branch is chosen without lines. -/
theorem choose_unplaced (b : Beta) : m.unplaced.choose b.unplaced = (m.choose b).unplaced := by
  refine unary_unplaced { m with line := b.line } fun m v => ?_
  cases v with
  | truth b' =>
    cases b' with
    | true => exact m.schedule_unplaced b.whenTrue.reverse
    | false => exact m.schedule_unplaced b.whenFalse.reverse
  | _ => rfl

/-- An item is reduced alike without lines. -/
theorem reduce_unplaced (item : ControlItem) :
    m.unplaced.reduce item = (m.reduce item).unplaced := by
  cases item with
  | node id => exact m.reduceNode_unplaced id
  | delta index =>
    have hdelta : m.unplaced.program.control.delta index =
      (m.program.control.delta index).unplaced := m.program.control.delta_unplaced index
    simp only [reduce, hdelta, env_unplaced]
    rfl
  | beta index =>
    have hbeta : m.unplaced.program.control.beta index =
      (m.program.control.beta index).unplaced := m.program.control.beta_unplaced index
    rw [reduce, hbeta, choose_unplaced]
    rfl

/-! ### Running -/

/-- The machine ends alike without lines. -/
theorem finish_unplaced : m.unplaced.finish = m.finish.unplaced := by
  obtain ⟨program, frames, values, line, environments, sink⟩ := m
  match values with
  | [] | [_] => rfl
  | v :: w :: values =>
    simp only [finish, unplaced, List.map_cons, List.length_cons, List.length_map]
    rfl

/-- A machine without lines takes the same step. -/
theorem step_unplaced : m.unplaced.step = m.step.unplaced := by
  obtain ⟨program, frames, values, line, environments, sink⟩ := m
  match frames with
  | [] => exact finish_unplaced _
  | { control := [], env } :: fs => rfl
  | { control := item :: control, env } :: fs =>
    exact reduce_unplaced
      { program, frames := { control, env } :: fs, values, line, environments, sink } item

/-- A machine without lines runs in the same way. -/
theorem runFor_unplaced (n : Nat) : m.unplaced.runFor n = (m.runFor n).unplaced := by
  induction n generalizing m with
  | zero => rfl
  | succ n ih =>
    rw [runFor, runFor, step_unplaced]
    cases m.step with
    | running m' => exact ih m'
    | halted result m' => rfl

end Machine

end Rpal
