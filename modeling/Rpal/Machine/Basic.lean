import Rpal.Machine.Operation
import Rpal.Machine.Sink
import Rpal.Text.Escape

/-!
# The machine

A program is evaluated by a machine with a stack of frames, one for each function at work, and one
stack of values for all of them. A frame has the items that it still has to reduce and the
environment to reduce them in. The items of a sequence are reduced from the last to the first, so
that operands come before their operator, the right one before the left.

- `Machine.step`: one reduction, or the removal of a frame that has nothing left to do
- `Machine.runFor`: a limited number of steps
- `Machine.runFor_add`, `Machine.runFor_add_of_halted`: the number of steps allowed does not matter,
  as long as it is enough
-/

namespace Rpal

/-- A program with its tree and its control structures. -/
structure Program where
  arena : Arena
  control : Control
deriving Inhabited

/-- A function at work: the items still to be reduced, the next one first, and their environment. -/
structure Frame where
  control : List ControlItem
  env : Env
deriving Inhabited

/-- The state of an evaluation, with the writer of its output. The frame at work and the last value
    come first. -/
structure Machine (ω : Type := Sink) where
  program : Program
  frames : List Frame
  values : List Value
  /-- The line of the last item. -/
  line : Nat
  /-- The number of environments made so far. -/
  environments : Nat
  sink : ω
deriving Inhabited

/-- How far a machine has come. A machine that has halted, even with an error, can go on. -/
inductive Progress (ω : Type := Sink) where
  | running (m : Machine ω)
  | halted (result : Except EvalError (Option Value)) (m : Machine ω)

namespace Machine

variable {ω : Type}

/-- The machine about to evaluate `program`. -/
def start (program : Program) (sink : ω) : Machine ω :=
  let root := program.control.root
  { program
    frames := [{ control := root.body.reverse, env := .outermost }]
    values := []
    line := root.line
    environments := 1
    sink }

/-- The environment of the frame at work. -/
def env (m : Machine ω) : Env :=
  match m.frames with
  | [] => .outermost
  | f :: _ => f.env

/-! ### Ends of a reduction -/

/-- The reduction leaves `v`. -/
def push (m : Machine ω) (v : Value) : Progress ω :=
  .running { m with values := v :: m.values }

/-- The reduction fails. -/
def fail (m : Machine ω) (f : Fault) : Progress ω :=
  .halted (.error (.fault m.line f)) m

/-- The reduction leaves a value or fails. -/
def settle (m : Machine ω) (result : Except Fault Value) : Progress ω :=
  match result with
  | .ok v => m.push v
  | .error f => m.fail f

/-- The reduction lacks a value. It has taken those that there were. -/
def underflow (m : Machine ω) : Progress ω :=
  .halted (.error .stackUnderflow) { m with values := [] }

/-- The reduction leaves items to be reduced next. -/
def schedule (m : Machine ω) (items : List ControlItem) : Progress ω :=
  match m.frames with
  | [] => .running m
  | f :: fs => .running { m with frames := { f with control := items ++ f.control } :: fs }

/-! ### Application -/

/-- The frames that stay under a new one. A frame with nothing left to do makes room for it. -/
def callers (m : Machine ω) : List Frame :=
  match m.frames with
  | [] => []
  | f :: fs => if f.control.isEmpty then fs else f :: fs

/-- Puts a frame for `delta` to work. -/
def enter (m : Machine ω) (delta : Delta) (env : Env) : Progress ω :=
  .running
    { m with
      frames := { control := delta.body.reverse, env } :: m.callers
      environments := m.environments + 1 }

/-- Takes the next item of the frame at work. -/
def takeItem (m : Machine ω) : Option ControlItem × Machine ω :=
  match m.frames with
  | { control := item :: control, env } :: fs =>
    (some item, { m with frames := { control, env } :: fs })
  | _ => (none, m)

/-- The item applies a function. -/
def isApplication (m : Machine ω) : ControlItem → Bool
  | .node id => m.program.arena.kind id = .gamma
  | _ => false

/-- Applies `Conc` to `v`. The application of the result to another string is next among the items,
    and is carried out at once. -/
def applyConc (m : Machine ω) (v : Value) : Progress ω :=
  let (item?, m) := m.takeItem
  if item?.any m.isApplication then
    match m.values with
    | [] => m.underflow
    -- the operand of the application that was taken is below `v`
    | w :: values => { m with values }.settle (v.joined w)
  else
    m.settle (Builtin.conc.apply v)

/-- Applies `Print` to `v`. -/
def applyPrint [OutputWriter ω] (m : Machine ω) (v : Value) : Progress ω :=
  let (complete, sink) := OutputWriter.write m.sink (Text.expandEscapes v.render)
  let m := { m with sink }
  if complete then m.settle (Builtin.print.apply v) else .halted (.error .outputFull) m

/-- Applies a built-in function to `v`. -/
def applyBuiltin [OutputWriter ω] (m : Machine ω) (b : Builtin) (v : Value) : Progress ω :=
  match b with
  | .conc => m.applyConc v
  | .print => m.applyPrint v
  | b => m.settle (b.apply v)

/-- Carries out the application at place `id`, of `f` to `v`. The fixpoint of a function is applied
    by applying the function to its fixpoint and the result to `v`. -/
def apply [OutputWriter ω] (m : Machine ω) (id : Nat) (f v : Value) : Progress ω :=
  match f with
  | .closure delta env =>
    match env.enter? delta.vars v with
    | some inner => m.enter delta inner
    | none => m.fail (.type (.notTupleOf delta.vars.length v))
  | .eta delta env =>
    { m with values := .closure delta env :: .eta delta env :: v :: m.values }.schedule
      [.node id, .node id]
  | .ystar =>
    match v with
    | .closure delta env => m.push (.eta delta env)
    | v => m.fail (.type (.notClosure v))
  | .tuple elements => m.settle (ValueOf.element elements v)
  | .builtin b => m.applyBuiltin b v
  | f => m.fail (.cannotEvaluate f)

/-! ### Reductions -/

/-- Looks up the value of a name. -/
def identifier (m : Machine ω) (name : String) : Progress ω :=
  match m.env.lookup? name with
  | some v => m.push v
  | none =>
    match Builtin.ofName? name with
    | some b => m.push (.builtin b)
    | none => m.fail (.undeclared name)

/-- Takes one value. -/
def unary (m : Machine ω) (operation : Machine ω → Value → Progress ω) : Progress ω :=
  match m.values with
  | v :: values => operation { m with values } v
  | [] => m.underflow

/-- Takes two values, the left one first. -/
def binary (m : Machine ω) (operation : Machine ω → Value → Value → Progress ω) : Progress ω :=
  match m.values with
  | left :: right :: values => operation { m with values } left right
  | _ => m.underflow

/-- Takes as many values as there are operands, for a tuple of them. -/
def gather (m : Machine ω) (count : Nat) : Progress ω :=
  if count ≤ m.values.length then
    { m with values := m.values.drop count }.push (.tuple (m.values.take count))
  else
    m.underflow

/-- Reduces the node at place `id`. -/
def reduceNode [OutputWriter ω] (m : Machine ω) (id : Nat) : Progress ω :=
  let label := m.program.arena.label id
  let m := { m with line := label.line }
  match label.kind with
  | .identifier => m.identifier label.content
  | .integer => m.settle (FaultOf.orOverflow (Integer.ofText? label.content))
  | .string => m.push (.string label.content)
  | .truth b => m.push (.truth b)
  | .dummy => m.push .dummy
  | .nil => m.push .nil
  | .ystar => m.push .ystar
  | .tau => m.gather (m.program.arena.children id).length
  | .gamma => m.binary fun m f v => m.apply id f v
  | .binary op => m.binary fun m left right => m.settle (op.apply left right)
  | .not => m.unary fun m v => m.settle v.inverted
  | .neg => m.unary fun m v => m.settle v.negated
  | kind => m.fail (.unexpectedItem kind)

/-- Chooses a branch of a conditional. -/
def choose (m : Machine ω) (b : Beta) : Progress ω :=
  { m with line := b.line }.unary fun m v =>
    match v with
    | .truth true => m.schedule b.whenTrue.reverse
    | .truth false => m.schedule b.whenFalse.reverse
    | v => m.fail (.type (.notTruthValue v))

/-- Reduces an item. -/
def reduce [OutputWriter ω] (m : Machine ω) : ControlItem → Progress ω
  | .node id => m.reduceNode id
  | .delta index =>
    let delta := m.program.control.delta index
    { m with line := delta.line }.push (.closure delta m.env)
  | .beta index => m.choose (m.program.control.beta index)

/-! ### Running -/

/-- The end of the program: its value is what is left on the stack. -/
def finish (m : Machine ω) : Progress ω :=
  match m.values with
  | [] => .halted (.ok none) m
  | [v] => .halted (.ok (some v)) { m with values := [] }
  | values => .halted (.error (.leftoverValues values.length)) m

variable [OutputWriter ω]

/-- One step: a reduction, the removal of a frame that has nothing left to do, or the end. -/
def step (m : Machine ω) : Progress ω :=
  match m.frames with
  | [] => m.finish
  | { control := [], env := _ } :: fs => .running { m with frames := fs }
  | { control := item :: control, env } :: fs =>
    { m with frames := { control, env } :: fs }.reduce item

/-- Up to `n` steps. -/
def runFor : Nat → Machine ω → Progress ω
  | 0, m => .running m
  | n + 1, m =>
    match m.step with
    | .running m => runFor n m
    | .halted result m => .halted result m

/-- Running for one step is a step. -/
theorem runFor_one (m : Machine ω) : m.runFor 1 = m.step := by
  rw [runFor]
  cases m.step <;> rfl

/-- A run goes on behind its first step. -/
theorem runFor_succ_of_step_eq {m m' : Machine ω} (k : Nat) (h : m.step = .running m') :
    m.runFor (k + 1) = m'.runFor k := by
  rw [runFor, h]

/-- A run whose first step halts ends there. -/
theorem runFor_succ_of_step_eq_halted {m m' : Machine ω} {result : Except EvalError (Option Value)}
    (k : Nat) (h : m.step = .halted result m') : m.runFor (k + 1) = m.step := by
  rw [runFor, h]

/-- A run that has not halted after some steps goes on from where it is. -/
theorem runFor_add {n : Nat} {m m' : Machine ω} (k : Nat) (h : m.runFor n = .running m') :
    m.runFor (n + k) = m'.runFor k := by
  induction n generalizing m with
  | zero =>
    simp only [runFor, Progress.running.injEq] at h
    rw [h, Nat.zero_add]
  | succ n ih =>
    rw [Nat.succ_add]
    simp only [runFor] at h ⊢
    split at h
    · exact ih h
    · cases h

/-- A run that has halted is not changed by more steps. -/
theorem runFor_add_of_halted {n : Nat} {m m' : Machine ω} {result : Except EvalError (Option Value)}
    (k : Nat) (h : m.runFor n = .halted result m') : m.runFor (n + k) = .halted result m' := by
  induction n generalizing m with
  | zero => simp [runFor] at h
  | succ n ih =>
    rw [Nat.succ_add]
    simp only [runFor] at h ⊢
    split at h
    · exact ih h
    · exact h

end Machine

end Rpal
