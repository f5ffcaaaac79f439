import Rpal.Proofs.Control.Acceptance
import Rpal.Proofs.Control.Renaming
import Rpal.Proofs.Value.Alpha

/-!
# Programs that are the same up to the names of parameters

Two programs whose trees are the same up to the names of parameters are run in lockstep. Their
machines have the same frames, with environments that bind corresponding names, and values that are
the same up to the names in functions. A name is looked up at run time, by its text; it finds
corresponding bindings because the environments are built as the trees are.

Functions show the name of a parameter when they are printed. So what is printed is the same only as
long as no function is, and only an output of limited size can tell: `Machine.Alpha` has a parameter
for what is known of the sinks.

## Key results

- `Machine.step_alpha`: one step, from the lemmas about the ends of a reduction
- `Machine.runFor_alpha`: a run
- `Program.runs_alike_of_renames`: a parameter of a lambda is given a fresh name
-/

namespace Rpal

variable {p p' : Program} {S : Sink → Sink → Prop}

/-- The values of two programs are the same up to the names of parameters. -/
abbrev Program.ValueAlpha (p p' : Program) : Value → Value → Prop :=
  ValueOf.Alpha (p.CodeAlpha p')

/-- The errors of two programs are the same up to the names of parameters. -/
abbrev Program.ErrorAlpha (p p' : Program) : EvalError → EvalError → Prop :=
  EvalErrorOf.Alpha (p.CodeAlpha p')

/-- The results of two programs are the same up to the names of parameters. -/
abbrev Program.ResultAlpha (p p' : Program) :
    Except EvalError (Option Value) → Except EvalError (Option Value) → Prop :=
  Except.Alpha (p.ErrorAlpha p') (Option.Rel (p.ValueAlpha p'))

/-- The frames have items that do the same in environments that bind corresponding names. -/
def Frame.Alpha (p p' : Program) (f f' : Frame) : Prop :=
  ∃ bs : Binders, EnvOf.Alpha (p.CodeAlpha p') bs f.env f'.env ∧
    List.Forall₂ (p.ItemAlpha p' bs) f.control f'.control

/-- The machines of two programs are in the same state up to the names of parameters. Their sinks are
    as `S` says. -/
structure Machine.Alpha (p p' : Program) (S : Sink → Sink → Prop) (m m' : Machine) : Prop where
  program : m.program = p
  program' : m'.program = p'
  frames : List.Forall₂ (Frame.Alpha p p') m.frames m'.frames
  values : List.Forall₂ (p.ValueAlpha p') m.values m'.values
  line : m.line = m'.line
  environments : m.environments = m'.environments
  sink : S m.sink m'.sink

/-- The machines are in the same state and at work in environments that bind the names in `bs`. -/
structure Machine.AlphaIn (p p' : Program) (S : Sink → Sink → Prop) (bs : Binders)
    (m m' : Machine) : Prop where
  state : m.Alpha p p' S m'
  atWork : ∃ f fs f' fs', m.frames = f :: fs ∧ m'.frames = f' :: fs' ∧
    EnvOf.Alpha (p.CodeAlpha p') bs f.env f'.env ∧
    List.Forall₂ (p.ItemAlpha p' bs) f.control f'.control ∧
    List.Forall₂ (Frame.Alpha p p') fs fs'

/-- Both runs go on, or both have halted with results that are the same. -/
inductive Progress.Alpha (p p' : Program) (S : Sink → Sink → Prop) : Progress → Progress → Prop where
  | running {m m' : Machine} : m.Alpha p p' S m' → Alpha p p' S (.running m) (.running m')
  | halted {result result' : Except EvalError (Option Value)} {m m' : Machine} :
      p.ResultAlpha p' result result' → m.Alpha p p' S m' →
      Alpha p p' S (.halted result m) (.halted result' m')

/-- Printing the values comes to the same for the sinks: both texts fit or neither does. -/
def Sink.PrintsAlike (S : Sink → Sink → Prop) (s s' : Sink) (v v' : Value) : Prop :=
  (s.write (Text.expandEscapes v.render)).1 = (s'.write (Text.expandEscapes v'.render)).1 ∧
    S (s.write (Text.expandEscapes v.render)).2 (s'.write (Text.expandEscapes v'.render)).2

/-- There is room for any text in a sink without limit. -/
theorem Sink.printsAlike_of_room {s s' : Sink} {v v' : Value} (h : s.room = none)
    (h' : s'.room = none) :
    Sink.PrintsAlike (fun s s' => s.room = none ∧ s'.room = none) s s' v v' := by
  simp only [Sink.PrintsAlike, Sink.write, h, h', and_self]

/-- Equal sinks print a value alike. -/
theorem Sink.printsAlike_self {s s' : Sink} {v : Value} (h : s = s') :
    Sink.PrintsAlike Eq s s' v v := by
  subst h
  exact ⟨rfl, rfl⟩

namespace Machine

/-- The value that the next step prints. -/
def printed? (m : Machine) : Option Value :=
  match m.frames, m.values with
  | { control := .node id :: _, env := _ } :: _, .builtin .print :: v :: _ =>
    if m.program.arena.kind id = .gamma then some v else none
  | _, _ => none

variable {m m' : Machine} {bs : Binders} {v v' f f' : Value} {id id' : Nat}

/-! ### Ends of a reduction -/

/-- Alike values are pushed alike. -/
theorem Alpha.push (h : m.Alpha p p' S m') (hv : p.ValueAlpha p' v v') :
    Progress.Alpha p p' S (m.push v) (m'.push v') :=
  .running { h with values := .cons hv h.values }

/-- Alike faults end alike runs. -/
theorem Alpha.fail (h : m.Alpha p p' S m') {f f' : Fault} (hf : FaultOf.Alpha (p.CodeAlpha p') f f') :
    Progress.Alpha p p' S (m.fail f) (m'.fail f') := by
  refine .halted (.error ?_) h
  rw [h.line]
  exact .fault hf

/-- Results that settle alike are pushed or reported alike. -/
theorem Alpha.settle (h : m.Alpha p p' S m') {r r' : Except Fault Value}
    (hr : SettlesAlike (p.CodeAlpha p') r r') :
    Progress.Alpha p p' S (m.settle r) (m'.settle r') := by
  cases hr with
  | ok hv => exact h.push hv
  | error hf => exact h.fail hf

/-- A value is missing in both machines or in neither. -/
theorem Alpha.underflow (h : m.Alpha p p' S m') :
    Progress.Alpha p p' S m.underflow m'.underflow :=
  .halted (.error .stackUnderflow) { h with values := .nil }

/-- The machines are at work in the same way with other values. -/
theorem AlphaIn.withValues (h : m.AlphaIn p p' S bs m') {values values' : List Value}
    (hvalues : List.Forall₂ (p.ValueAlpha p') values values') :
    Machine.AlphaIn p p' S bs { m with values } { m' with values := values' } :=
  ⟨{ h.state with values := hvalues }, h.atWork⟩

/-- The machines are at work in the same way on another line. -/
theorem AlphaIn.withLine (h : m.AlphaIn p p' S bs m') {line line' : Nat} (hline : line = line') :
    Machine.AlphaIn p p' S bs { m with line } { m' with line := line' } :=
  ⟨{ h.state with line := hline }, h.atWork⟩

/-- The environments of the top frames are alike under the names bound there. -/
theorem AlphaIn.env (h : m.AlphaIn p p' S bs m') :
    EnvOf.Alpha (p.CodeAlpha p') bs m.env m'.env := by
  obtain ⟨f, fs, f', fs', hm, hm', henv, -⟩ := h.atWork
  simp only [Machine.env, hm, hm']
  exact henv

/-- Alike items are scheduled alike. -/
theorem AlphaIn.schedule (h : m.AlphaIn p p' S bs m') {items items' : List ControlItem}
    (hitems : List.Forall₂ (p.ItemAlpha p' bs) items items') :
    Progress.Alpha p p' S (m.schedule items) (m'.schedule items') := by
  obtain ⟨f, fs, f', fs', hm, hm', henv, hcontrol, hfs⟩ := h.atWork
  simp only [Machine.schedule, hm, hm']
  exact .running { h.state with frames := .cons ⟨bs, henv, List.rel_append hitems hcontrol⟩ hfs }

/-! ### Application -/

/-- The callers of alike machines are alike. -/
theorem AlphaIn.callers (h : m.AlphaIn p p' S bs m') :
    List.Forall₂ (Frame.Alpha p p') m.callers m'.callers := by
  obtain ⟨f, fs, f', fs', hm, hm', henv, hcontrol, hfs⟩ := h.atWork
  simp only [Machine.callers, hm, hm']
  cases hcontrol' : f.control with
  | nil =>
    rw [hcontrol', List.forall₂_nil_left_iff] at hcontrol
    simpa [hcontrol] using hfs
  | cons item items =>
    obtain ⟨item', items', -, -, heq⟩ := List.forall₂_cons_left_iff.1 (hcontrol' ▸ hcontrol)
    simpa [heq] using ⟨⟨bs, henv, hcontrol⟩, hfs⟩

/-- Functions that are the same are entered in the same way. -/
theorem AlphaIn.enter (h : m.AlphaIn p p' S bs m') {d d' : Delta} {inner inner' : Env}
    {cs : Binders} (hcode : p.CodeAlpha p' cs d d')
    (hinner : EnvOf.Alpha (p.CodeAlpha p') (cs.inside d.vars d'.vars) inner inner') :
    Progress.Alpha p p' S (m.enter d inner) (m'.enter d' inner') :=
  .running { h.state with
    frames := .cons ⟨_, hinner, List.forall₂_reverse_iff.2 hcode.body⟩ h.callers
    environments := congrArg (· + 1) h.state.environments }

/-- The next items of the frames at work are the same, and so is what is behind them. -/
theorem AlphaIn.takeItem (h : m.AlphaIn p p' S bs m') :
    Option.Rel (p.ItemAlpha p' bs) m.takeItem.1 m'.takeItem.1 ∧
      m.takeItem.2.AlphaIn p p' S bs m'.takeItem.2 := by
  obtain ⟨f, fs, f', fs', hm, hm', henv, hcontrol, hfs⟩ := h.atWork
  obtain ⟨control, env⟩ := f
  obtain ⟨control', env'⟩ := f'
  simp only [Machine.takeItem, hm, hm']
  cases hcontrol with
  | nil => exact ⟨.none, h⟩
  | cons hitem hcontrol =>
    exact ⟨.some hitem, { h.state with frames := .cons ⟨bs, henv, hcontrol⟩ hfs },
      _, _, _, _, rfl, rfl, henv, hcontrol, hfs⟩

/-- Alike items are both applications or neither is. -/
theorem AlphaIn.isApplication (h : m.AlphaIn p p' S bs m') {item item' : ControlItem}
    (hitem : p.ItemAlpha p' bs item item') : m.isApplication item = m'.isApplication item' := by
  cases hitem with
  | node hlabel =>
    simp only [Machine.isApplication, h.state.program, h.state.program', Arena.kind,
      hlabel.kind_eq]
  | delta => rfl
  | beta => rfl

/-- `Conc` makes alike partial applications of alike strings. -/
theorem AlphaIn.applyConc (h : m.AlphaIn p p' S bs m') (hv : p.ValueAlpha p' v v') :
    Progress.Alpha p p' S (m.applyConc v) (m'.applyConc v') := by
  obtain ⟨hitem, htaken⟩ := h.takeItem
  simp only [Machine.applyConc]
  generalize m.takeItem = r at hitem htaken
  generalize m'.takeItem = r' at hitem htaken
  obtain ⟨item?, n⟩ := r
  obtain ⟨item?', n'⟩ := r'
  -- the items that are taken are applications in both machines or in neither
  have happlied : item?.any n.isApplication = item?'.any n'.isApplication := by
    cases hitem with
    | none => rfl
    | some hitem => exact htaken.isApplication hitem
  simp only [happlied]
  split
  · have hvalues := htaken.state.values
    generalize hws : n.values = ws at hvalues
    generalize hws' : n'.values = ws' at hvalues
    cases hvalues with
    | nil => exact htaken.state.underflow
    | cons hw hvalues =>
      exact (htaken.withValues hvalues).state.settle (ValueOf.joined_alpha hv hw)
  · exact htaken.state.settle (Builtin.apply_alpha .conc hv)

/-- `Print` keeps machines alike where the sinks print the two values alike. -/
theorem AlphaIn.applyPrint (h : m.AlphaIn p p' S bs m') (hv : p.ValueAlpha p' v v')
    (hprints : Sink.PrintsAlike S m.sink m'.sink v v') :
    Progress.Alpha p p' S (m.applyPrint v) (m'.applyPrint v') := by
  have hstate : Machine.Alpha p p' S
      { m with sink := (m.sink.write (Text.expandEscapes v.render)).2 }
      { m' with sink := (m'.sink.write (Text.expandEscapes v'.render)).2 } :=
    { h.state with sink := hprints.2 }
  simp only [Machine.applyPrint, Sink.outputWriter_write, hprints.1]
  split
  · exact hstate.settle (Builtin.apply_alpha .print hv)
  · exact .halted (.error .outputFull) hstate

/-- Built-ins take alike arguments to alike results, `Print` under its own condition. -/
theorem AlphaIn.applyBuiltin (h : m.AlphaIn p p' S bs m') (b : Builtin)
    (hv : p.ValueAlpha p' v v')
    (hprints : b = .print → Sink.PrintsAlike S m.sink m'.sink v v') :
    Progress.Alpha p p' S (m.applyBuiltin b v) (m'.applyBuiltin b v') := by
  cases b with
  | conc => exact h.applyConc hv
  | print => exact h.applyPrint hv (hprints rfl)
  | _ =>
    simp only [Machine.applyBuiltin]
    exact h.state.settle (Builtin.apply_alpha _ hv)

/-- Functions that are the same are applied in the same way. -/
theorem AlphaIn.apply (h : m.AlphaIn p p' S bs m')
    (hid : p.ItemAlpha p' bs (.node id) (.node id')) (hf : p.ValueAlpha p' f f')
    (hv : p.ValueAlpha p' v v')
    (hprints : f = .builtin .print → f' = .builtin .print →
      Sink.PrintsAlike S m.sink m'.sink v v') :
    Progress.Alpha p p' S (m.apply id f v) (m'.apply id' f' v') := by
  cases hf with
  | closure hcode henv =>
    -- both functions have as many parameters, so that both can take the argument or neither
    have hinner := henv.enter? hv hcode.length_vars
    simp only [Machine.apply]
    generalize EnvOf.enter? _ _ v = inner? at hinner
    generalize EnvOf.enter? _ _ v' = inner?' at hinner
    cases hinner with
    | none =>
      rw [hcode.length_vars]
      exact h.state.fail (.type (.notTupleOf hv))
    | some hinner => exact h.enter hcode hinner
  | eta hcode henv =>
    refine (h.withValues (.cons (.closure hcode henv) (.cons (.eta hcode henv)
      (.cons hv h.state.values)))).schedule (.cons hid (.cons hid .nil))
  | ystar =>
    cases hv with
    | closure hcode henv => exact h.state.push (.eta hcode henv)
    | _ => exact h.state.fail (.type (.notClosure (by constructor <;> assumption)))
  | tuple hvs => exact h.state.settle (ValueOf.element_alpha hvs hv)
  | builtin b =>
    exact h.applyBuiltin b hv fun hb => hprints (congrArg ValueOf.builtin hb)
      (congrArg ValueOf.builtin hb)
  | _ => exact h.state.fail (.cannotEvaluate (by constructor))

/-! ### Reductions -/

/-- Names that stand for the same are looked up with the same result. -/
theorem AlphaIn.identifier (h : m.AlphaIn p p' S bs m') {n n' : String} (hn : bs.Pairs n n') :
    Progress.Alpha p p' S (m.identifier n) (m'.identifier n') := by
  rw [Machine.identifier, Machine.identifier]
  obtain ⟨v, v', hv, hv', hvalue⟩ | ⟨hv, hv', rfl⟩ := h.env.lookup? hn
  · rw [hv, hv']
    exact h.state.push hvalue
  · rw [hv, hv']
    -- the name is bound nowhere
    cases Builtin.ofName? n with
    | some b => exact h.state.push (.builtin b)
    | none => exact h.state.fail (.undeclared n)

/-- An operation on one value keeps machines alike, if it does on alike values. -/
theorem AlphaIn.unary (h : m.AlphaIn p p' S bs m') {o o' : Machine → Value → Progress}
    (ho : ∀ {n n' : Machine} {v v' : Value}, n.AlphaIn p p' S bs n' → p.ValueAlpha p' v v' →
      Progress.Alpha p p' S (o n v) (o' n' v')) :
    Progress.Alpha p p' S (m.unary o) (m'.unary o') := by
  have hvalues := h.state.values
  rw [Machine.unary, Machine.unary]
  generalize hvs : m.values = vs at hvalues
  generalize hvs' : m'.values = vs' at hvalues
  cases hvalues with
  | nil => exact h.state.underflow
  | cons hv hvalues => exact ho (h.withValues hvalues) hv

/-- An operation on two values keeps machines alike, if it does on the two that were taken. -/
theorem AlphaIn.binary (h : m.AlphaIn p p' S bs m') {o o' : Machine → Value → Value → Progress}
    (ho : ∀ {v v' w w' : Value} {vs vs' : List Value}, m.values = v :: w :: vs →
      m'.values = v' :: w' :: vs' →
      Machine.AlphaIn p p' S bs { m with values := vs } { m' with values := vs' } →
      p.ValueAlpha p' v v' → p.ValueAlpha p' w w' →
      Progress.Alpha p p' S (o { m with values := vs } v w) (o' { m' with values := vs' } v' w')) :
    Progress.Alpha p p' S (m.binary o) (m'.binary o') := by
  have hvalues := h.state.values
  rw [Machine.binary, Machine.binary]
  generalize hvs : m.values = vs at hvalues ho
  generalize hvs' : m'.values = vs' at hvalues ho
  cases hvalues with
  | nil => exact h.state.underflow
  | cons hv hvalues =>
    cases hvalues with
    | nil => exact h.state.underflow
    | cons hw hvalues => exact ho rfl rfl (h.withValues hvalues) hv hw

/-- As many values are gathered into one tuple as into the other. -/
theorem AlphaIn.gather (h : m.AlphaIn p p' S bs m') (count : Nat) :
    Progress.Alpha p p' S (m.gather count) (m'.gather count) := by
  rw [Machine.gather, Machine.gather, h.state.values.length_eq]
  split
  · exact (h.withValues (List.forall₂_drop count h.state.values)).state.push
      (.tuple (List.forall₂_take count h.state.values))
  · exact h.state.underflow

/-- What the application at place `id` prints comes to the same for both sinks. -/
def PrintsAt (S : Sink → Sink → Prop) (p : Program) (m m' : Machine) (id : Nat) : Prop :=
  p.arena.kind id = .gamma → ∀ {v v' vs vs'}, m.values = .builtin .print :: v :: vs →
    m'.values = .builtin .print :: v' :: vs' → Sink.PrintsAlike S m.sink m'.sink v v'

/-- Nodes that are the same are reduced in the same way. -/
theorem AlphaIn.reduceNode (h : m.AlphaIn p p' S bs m')
    (hid : p.ItemAlpha p' bs (.node id) (.node id')) (hprints : PrintsAt S p m m' id) :
    Progress.Alpha p p' S (m.reduceNode id) (m'.reduceNode id') := by
  obtain ⟨hlabel, hchildren⟩ : (p.arena.label id).Alpha bs (p'.arena.label id') ∧
      (p.arena.children id).length = (p'.arena.children id').length := by
    cases hid with
    | node hlabel hchildren => exact ⟨hlabel, hchildren⟩
  have hline := h.withLine hlabel.line_eq
  have hpairs := hlabel.pairs
  have hcontent := hlabel.content_eq
  obtain rfl := h.state.program
  obtain rfl := h.state.program'
  simp only [Machine.reduceNode, ← hlabel.kind_eq]
  rw [PrintsAt, Arena.kind] at hprints
  -- the nodes are of one construct, and only the contents of names differ
  generalize (m.program.arena.label id).kind = kind at hprints hpairs hcontent
  cases kind with
  | identifier => exact hline.identifier (hpairs rfl)
  | integer =>
    rw [← hcontent (by decide)]
    exact hline.state.settle (FaultOf.orOverflow_alpha _)
  | string =>
    rw [← hcontent (by decide)]
    exact hline.state.push (.string _)
  | truth b => exact hline.state.push (.truth b)
  | dummy => exact hline.state.push .dummy
  | nil => exact hline.state.push (.tuple .nil)
  | ystar => exact hline.state.push .ystar
  | tau =>
    rw [hchildren]
    exact hline.gather _
  | gamma =>
    refine hline.binary fun hvalues hvalues' hstate hf hv =>
      hstate.apply hid hf hv fun heq heq' => ?_
    exact hprints rfl (heq ▸ hvalues) (heq' ▸ hvalues')
  | binary op =>
    exact hline.binary fun _ _ hstate hl hr => hstate.state.settle (op.apply_alpha hl hr)
  | not => exact hline.unary fun hstate hv => hstate.state.settle (ValueOf.inverted_alpha hv)
  | neg => exact hline.unary fun hstate hv => hstate.state.settle (ValueOf.negated_alpha hv)
  | _ => exact hline.state.fail (.unexpectedItem _)

/-- Conditionals that are the same take the same branch. -/
theorem AlphaIn.choose {j j' : Nat} (h : m.AlphaIn p p' S bs m')
    (hj : p.ItemAlpha p' bs (.beta j) (.beta j')) :
    Progress.Alpha p p' S (m.choose (p.control.beta j)) (m'.choose (p'.control.beta j')) := by
  obtain ⟨hline, htrue, hfalse⟩ := Program.itemAlpha_beta_iff.1 hj
  refine (h.withLine hline).unary fun hstate hv => ?_
  cases hv with
  | truth b =>
    cases b with
    | true => exact hstate.schedule (List.forall₂_reverse_iff.2 htrue)
    | false => exact hstate.schedule (List.forall₂_reverse_iff.2 hfalse)
  | _ => exact hstate.state.fail (.type (.notTruthValue (by constructor <;> assumption)))

/-- Items that are the same are reduced in the same way. -/
theorem AlphaIn.reduce (h : m.AlphaIn p p' S bs m') {item item' : ControlItem}
    (hitem : p.ItemAlpha p' bs item item')
    (hprints : ∀ id, item = .node id → PrintsAt S p m m' id) :
    Progress.Alpha p p' S (m.reduce item) (m'.reduce item') := by
  -- items that are the same are of one kind
  cases item with
  | node id =>
    cases item' with
    | node id' => exact h.reduceNode hitem (hprints id rfl)
    | _ => cases hitem
  | delta k =>
    cases item' with
    | delta k' =>
      have hcode := Program.itemAlpha_delta_iff.1 hitem
      obtain rfl := h.state.program
      obtain rfl := h.state.program'
      exact (h.withLine hcode.line_eq).state.push (.closure hcode h.env)
    | _ => cases hitem
  | beta j =>
    cases item' with
    | beta j' =>
      obtain rfl := h.state.program
      obtain rfl := h.state.program'
      exact h.choose hitem
    | _ => cases hitem

/-! ### Steps and runs -/

/-- Alike runs end alike. -/
theorem Alpha.finish (h : m.Alpha p p' S m') :
    Progress.Alpha p p' S m.finish m'.finish := by
  have hvalues := h.values
  have hlen := hvalues.length_eq
  rw [Machine.finish, Machine.finish]
  generalize hvs : m.values = vs at hvalues hlen
  generalize hvs' : m'.values = vs' at hvalues hlen
  cases hvalues with
  | nil => exact .halted (.ok .none) h
  | cons hv hvalues =>
    cases hvalues with
    | nil => exact .halted (.ok (.some hv)) { h with values := .nil }
    | cons hw hvalues =>
      simp only [hlen]
      exact .halted (.error (.leftoverValues _)) h

/-- What is to be printed comes to the same for both sinks. -/
def PrintsNext (S : Sink → Sink → Prop) (m m' : Machine) : Prop :=
  ∀ v v', m.printed? = some v → m'.printed? = some v' → Sink.PrintsAlike S m.sink m'.sink v v'

/-- One step of machines in the same state leads to the same state. -/
theorem step_alpha (h : m.Alpha p p' S m') (hprints : PrintsNext S m m') :
    Progress.Alpha p p' S m.step m'.step := by
  have hframes := h.frames
  rw [step, step]
  cases hm : m.frames with
  | nil =>
    rw [hm, List.forall₂_nil_left_iff] at hframes
    rw [hframes]
    exact h.finish
  | cons f fs =>
    obtain ⟨f', fs', ⟨bs, henv, hcontrol⟩, hfs, hm'⟩ := List.forall₂_cons_left_iff.1 (hm ▸ hframes)
    obtain ⟨control, env⟩ := f
    obtain ⟨control', env'⟩ := f'
    rw [hm']
    cases hcontrol with
    | nil => exact .running { h with frames := hfs }
    | @cons item item' control control' hitem hcontrol =>
      -- the names that the items refer to are those bound in the frames at work
      have hwork : Machine.AlphaIn p p' S bs { m with frames := { control, env } :: fs }
          { m' with frames := { control := control', env := env' } :: fs' } :=
        ⟨{ h with frames := .cons ⟨bs, henv, hcontrol⟩ hfs },
          _, _, _, _, rfl, rfl, henv, hcontrol, hfs⟩
      refine hwork.reduce hitem ?_
      rintro id rfl hgamma v v' vs vs' hvalues hvalues'
      have hvalues : m.values = .builtin .print :: v :: vs := hvalues
      have hvalues' : m'.values = .builtin .print :: v' :: vs' := hvalues'
      cases hitem with
      | node hlabel =>
        have hgamma' : p'.arena.kind _ = .gamma := hlabel.kind_eq.symm.trans hgamma
        -- that both nodes apply `Print` is what `printed?` looks for
        refine hprints v v' ?_ ?_
        · simp only [printed?, hm, hvalues, h.program, hgamma, if_true]
        · simp only [printed?, hm', hvalues', h.program', hgamma', if_true]

/-- Machines in the same state print values that are the same. -/
theorem Alpha.printed? (h : m.Alpha p p' S m') :
    Option.Rel (p.ValueAlpha p') m.printed? m'.printed? := by
  have hframes := h.frames
  have hvalues := h.values
  rw [Machine.printed?, Machine.printed?, h.program, h.program']
  generalize m.frames = fs at hframes
  generalize m'.frames = fs' at hframes
  generalize m.values = vs at hvalues
  generalize m'.values = vs' at hvalues
  -- the same is looked for in both machines: an item at work, then two values
  cases hframes with
  | nil => exact .none
  | @cons f f' _ _ hf _ =>
    obtain ⟨bs, -, hcontrol⟩ := hf
    obtain ⟨control, env⟩ := f
    obtain ⟨control', env'⟩ := f'
    cases hcontrol with
    | nil => exact .none
    | cons hitem _ =>
      cases hitem with
      | delta => exact .none
      | beta => exact .none
      | @node _ id id' hlabel =>
        cases hvalues with
        | nil => exact .none
        | cons hv hvalues =>
          cases hv with
          | builtin b =>
            cases hvalues with
            | nil => cases b <;> exact .none
            | cons hw _ =>
              cases b with
              | print =>
                have hkind : p.arena.kind id = p'.arena.kind id' := hlabel.kind_eq
                simp only [hkind]
                by_cases hgamma : p'.arena.kind id' = .gamma
                · simpa only [if_pos hgamma] using .some hw
                · simpa only [if_neg hgamma] using .none
              | _ => exact .none
          | _ => exact .none

/-- A machine halts when what it prints does not fit. -/
theorem step_of_printed? (h : m.printed? = some v)
    (hfull : (m.sink.write (Text.expandEscapes v.render)).1 = false) :
    ∃ m₁, m.step = .halted (.error .outputFull) m₁ := by
  obtain ⟨program, frames, values, line, environments, sink⟩ := m
  simp only [Machine.printed?] at h
  split at h
  · split at h
    · next hgamma =>
      obtain rfl := Option.some.inj h
      have hkind : (program.arena.label _).kind = .gamma := hgamma
      have hfull : (sink.write _).1 = false := hfull
      simp only [step, reduce, reduceNode, hkind, binary, apply, applyBuiltin, applyPrint,
        Sink.outputWriter_write]
      rw [hfull]
      exact ⟨_, rfl⟩
    · cases h
  · cases h

/-- Machines in the same state stay so, as long as what they print comes to the same for both
    sinks. The induction is on the number of steps. -/
theorem runFor_alpha (n : Nat) (h : m.Alpha p p' S m')
    (hprints : ∀ k < n, ∀ m₁ m₁', m.runFor k = .running m₁ → m₁.Alpha p p' S m₁' →
      PrintsNext S m₁ m₁') :
    Progress.Alpha p p' S (m.runFor n) (m'.runFor n) := by
  induction n generalizing m m' with
  | zero => exact .running h
  | succ n ih =>
    have hstep := step_alpha h (hprints 0 (Nat.succ_pos n) m m' rfl h)
    rw [runFor, runFor]
    have hnext (k) (m₁ : Machine) (hm₁ : m.step = .running m₁) :
        m.runFor (k + 1) = m₁.runFor k := by
      rw [runFor, hm₁]
    generalize m.step = r at hstep hnext
    generalize m'.step = r' at hstep
    cases hstep with
    | running hstep =>
      exact ih hstep fun k hk m₂ m₂' hm₂ => hprints (k + 1) (Nat.succ_lt_succ hk) m₂ m₂'
        ((hnext k _ rfl).trans hm₂)
    | halted hresult hstep => exact .halted hresult hstep

/-- The run has halted because something did not fit into the sink. -/
def IsFull (r : Progress) : Prop :=
  ∃ m, r = .halted (.error .outputFull) m

/-- Whatever the sinks are, machines in the same state stay so until something does not fit into one
    of them. -/
theorem runFor_alpha_or_isFull (n : Nat) (h : m.Alpha p p' (fun _ _ => True) m') :
    Progress.Alpha p p' (fun _ _ => True) (m.runFor n) (m'.runFor n) ∨
      IsFull (m.runFor n) ∨ IsFull (m'.runFor n) := by
  induction n generalizing m m' with
  | zero => exact .inl (.running h)
  | succ n ih =>
    by_cases hprints : PrintsNext (fun _ _ => True) m m'
    · have hstep := step_alpha h hprints
      rw [runFor, runFor]
      generalize m.step = r at hstep
      generalize m'.step = r' at hstep
      cases hstep with
      | running hstep => exact ih hstep
      | halted hresult hstep => exact .inl (.halted hresult hstep)
    · -- one of the texts does not fit
      simp only [PrintsNext, Sink.PrintsAlike, and_true, not_forall] at hprints
      obtain ⟨v, v', hv, hv', hne⟩ := hprints
      right
      cases hfull : (m.sink.write (Text.expandEscapes v.render)).1 with
      | false =>
        obtain ⟨m₁, hm₁⟩ := step_of_printed? hv hfull
        exact .inl ⟨m₁, by rw [runFor, hm₁]⟩
      | true =>
        rw [hfull] at hne
        obtain ⟨m₁, hm₁⟩ := step_of_printed? hv' (Bool.eq_false_of_not_eq_true (Ne.symm hne))
        exact .inr ⟨m₁, by rw [runFor, hm₁]⟩

end Machine

/-! ### Programs -/

open Rpal.Tree

namespace Control

/-- The first delta is the program itself, on the line of its tree. -/
theorem EmitsBodies.root_eq {a : Arena} {c : Control} {places : List Nat} {index n b : Nat}
    (h : EmitsBodies a c places index n b) :
    ∃ root, places[0]? = some root ∧ c.root.line = a.line root := by
  induction h with
  | zero hplace _ _ _ hline => exact ⟨_, hplace, hline⟩
  | succ _ _ _ _ ih => exact ih

/-- The line of a flattened program is the one of its root. -/
theorem root_line {a : Arena} {c : Control} {F : Set Nat} {root : Nat} {t : Tree Label}
    (hcontrol : a.control = .ok c) (hroot : a.root = some root) (h : a.Unfolds F t root)
    (ht : IsFlattenable t) : c.root.line = t.label.line := by
  obtain ⟨more, places, d, rfl, hwork⟩ := Flattening.worklist_of_control hcontrol hroot h ht
  obtain ⟨root', hplace, hline⟩ := hwork.emits.root_eq
  obtain rfl : root = root' := Option.some.inj hplace
  rw [hline, Arena.line, h.label_eq]

end Control

/-- There is an arena for any tree that is marked as standardized. -/
theorem Arena.exists_standardized (t : Tree Label) : ∃ (a : Arena) (root : Nat) (F : Set Nat),
    a.standardized = true ∧ a.root = some root ∧ a.Unfolds F t root := by
  obtain ⟨root, F, hroot, hunfolds⟩ := Arena.unfolds_ofTree t
  refine ⟨{ Arena.ofTree t with standardized := true }, root, F, rfl, hroot, ?_⟩
  refine hunfolds.congr ?_ (Set.Subset.refl F) ?_
  · exact Nat.le_refl _
  · exact fun _ _ => rfl

/-- Only a standardized arena has control structures. -/
theorem Arena.standardized_of_control {a : Arena} {c : Control} (h : a.control = .ok c) :
    a.standardized = true := by
  by_contra hmark
  rw [Arena.control, if_neg hmark] at h
  cases h

/-- Programs whose trees are the same up to the names of parameters start in the same state. -/
theorem Machine.start_alpha {F F' : Set Nat} {root root' : Nat} {t t' : Tree Label}
    {sink sink' : Sink} (hcontrol : p.arena.control = .ok p.control)
    (hcontrol' : p'.arena.control = .ok p'.control) (hroot : p.arena.root = some root)
    (hroot' : p'.arena.root = some root') (h : p.arena.Unfolds F t root)
    (h' : p'.arena.Unfolds F' t' root') (ht : IsStandard t) (hkinds : t.kinds = t'.kinds)
    (halpha : Tree.Alpha [] t t') (hsinks : S sink sink') :
    (start p sink).Alpha p p' S (start p' sink') := by
  have ht' := ht.of_kinds hkinds
  -- both programs come with the code of their trees, whose lambdas have the same numbers
  have hcodes := Control.codes_numbered hcontrol hroot h ht.isFlattenable
  have hcodes' := Control.codes_numbered hcontrol' hroot' h' ht'.isFlattenable
  exact {
    program := rfl
    program' := rfl
    frames := .cons ⟨[], .outermost, Control.items_alpha halpha (map_label_numbered t)
      (map_label_numbered t') (numbers_eq_of_kinds hkinds) hcodes hcodes'⟩ .nil
    values := .nil
    line := (Control.root_line hcontrol hroot h ht.isFlattenable).trans
      (halpha.label_alpha.line_eq.trans
        (Control.root_line hcontrol' hroot' h' ht'.isFlattenable).symm)
    environments := rfl
    sink := hsinks }

/-- There is no function in the value that a run has come to, or in its error. -/
def Machine.IsDataResult : Except EvalError (Option Value) → Prop
  | .ok v => ∀ w ∈ v, w.IsData
  | .error e => e.IsData

/-- A result without functions is the same as itself only. -/
theorem Machine.IsDataResult.eq_of_alpha {result result' : Except EvalError (Option Value)}
    (hdata : IsDataResult result) (h : p.ResultAlpha p' result result') : result' = result := by
  cases h with
  | ok hv =>
    cases hv with
    | none => rfl
    | some hv => rw [ValueOf.IsData.eq_of_alpha (hdata _ rfl) hv]
  | error he => rw [EvalErrorOf.IsData.eq_of_alpha hdata he]

/-- In a program that is built from source, a parameter of a lambda is renamed to a name that occurs
    nowhere, together with the identifiers that it binds. Any arena with the renamed tree is a
    program then, which is run in lockstep with the first one: with an unlimited output for ever, and
    with any other until something does not fit. As long as no function is printed, the outputs are
    the same, and so is the result if it has no function in it. -/
theorem Program.runs_alike_of_renames {tokens : List Token} {t s s' : Tree Label} {p : Program}
    {x y : String} {a : Arena} {F : Set Nat} {root : Nat} (ht : Tree.ofTokens tokens = .ok t)
    (hp : (Arena.ofTree t).program = .ok p) (hs : p.arena.rootTree? = some s)
    (hrenames : Renames x y s s') (hfresh : IsFresh y s) (hmark : a.standardized = true)
    (hroot : a.root = some root) (hunfolds : a.Unfolds F s' root) :
    ∃ c, a.control = .ok c ∧ ∀ p' : Program, p' = { arena := a, control := c } →
      (∀ n, Progress.Alpha p p' (fun s s' => s.room = none ∧ s'.room = none)
        ((Machine.start p (Sink.withRoom none)).runFor n)
        ((Machine.start p' (Sink.withRoom none)).runFor n)) ∧
      ∀ sink n,
        (Progress.Alpha p p' (fun _ _ => True) ((Machine.start p sink).runFor n)
            ((Machine.start p' sink).runFor n) ∨
          Machine.IsFull ((Machine.start p sink).runFor n) ∨
          Machine.IsFull ((Machine.start p' sink).runFor n)) ∧
        ((∀ k < n, ∀ m v, (Machine.start p sink).runFor k = .running m → m.printed? = some v →
            v.IsData) →
          Progress.Alpha p p' Eq ((Machine.start p sink).runFor n)
              ((Machine.start p' sink).runFor n) ∧
            ∀ result m, (Machine.start p sink).runFor n = .halted result m →
              Machine.IsDataResult result →
                ∃ m', (Machine.start p' sink).runFor n = .halted result m' ∧ m'.sink = m.sink) := by
  have hsource := Tree.isSource_of_ofTokens ht
  obtain ⟨root₀, F₀, hcontrol, hroot₀, hunfolds₀, htree⟩ :=
    Program.exists_of_ofTree (.inl ⟨_, hsource⟩) hp
  obtain rfl : t.standard = s := Option.some.inj (htree.symm.trans hs)
  have hstandard : IsStandard t.standard := hsource.standard
  have hbinds : t.standard.BindsParameters := by
    have hdecides := Arena.control_decides (Arena.standardized_of_control hcontrol) hroot₀ hunfolds₀
      hstandard
    rwa [hcontrol] at hdecides
  have hkinds := hrenames.kinds_eq
  have halpha : Tree.Alpha [] t.standard s' :=
    hrenames.alpha (hstandard.isScoped hbinds) hfresh fun n _ => (renamed_self y n).symm
  -- renaming changes no construct, so that the renamed tree can be flattened too
  have hdecides := Arena.control_decides hmark hroot hunfolds (hstandard.of_kinds hkinds)
  cases hcontrol' : a.control with
  | error e =>
    rw [hcontrol'] at hdecides
    exact absurd (hbinds.of_kinds hkinds) hdecides.1
  | ok c =>
    refine ⟨c, rfl, ?_⟩
    rintro p' rfl
    have hstart {S : Sink → Sink → Prop} {sink sink' : Sink} (hsinks : S sink sink') :
        (Machine.start p sink).Alpha p ⟨a, c⟩ S (Machine.start ⟨a, c⟩ sink') :=
      Machine.start_alpha hcontrol hcontrol' hroot₀ hroot hunfolds₀ hunfolds hstandard hkinds halpha
        hsinks
    refine ⟨fun n => ?_, fun sink n => ⟨?_, fun hdata => ?_⟩⟩
    · refine Machine.runFor_alpha n (hstart ⟨rfl, rfl⟩) fun _ _ m m' _ hm v v' _ _ => ?_
      exact Sink.printsAlike_of_room hm.sink.1 hm.sink.2
    · exact Machine.runFor_alpha_or_isFull n (hstart trivial)
    · -- a value without functions is printed alike, because it is the same in both machines
      have hprints : ∀ k < n, ∀ m m', (Machine.start p sink).runFor k = .running m →
          m.Alpha p ⟨a, c⟩ Eq m' → Machine.PrintsNext Eq m m' := by
        intro k hk m m' hm halpha v v' hv hv'
        have hvalue := halpha.printed?
        rw [hv, hv'] at hvalue
        cases hvalue with
        | some hvalue =>
          obtain rfl := ValueOf.IsData.eq_of_alpha (hdata k hk m v hm hv) hvalue
          exact Sink.printsAlike_self halpha.sink
      have hrun := Machine.runFor_alpha n (hstart rfl) hprints
      refine ⟨hrun, fun result m hm hresult => ?_⟩
      rw [hm] at hrun
      generalize hm' : (Machine.start ⟨a, c⟩ sink).runFor n = r at hrun
      cases hrun with
      | halted hresults halpha =>
        obtain rfl := hresult.eq_of_alpha hresults
        exact ⟨_, rfl, halpha.sink.symm⟩

/-- The tree is an application of a function whose parameter has the name. -/
def Tree.appliesBinderOf (name : String) : Tree Label → Bool
  | node _ [node l [x, _], _] => decide (l.kind = .lambda ∧ name ∈ x.boundNames)
  | _ => false

/-- The program `(fn x . (fn x . x) x) 1`, in which the outer `x` becomes `y`. -/
theorem Program.runs_alike_of_renames_shadowed : ∃ t p s', Tree.ofTokens
      ([.symbol .lparen, .symbol .fnKw, .identifier "x", .symbol .dot, .symbol .lparen,
        .symbol .fnKw, .identifier "x", .symbol .dot, .identifier "x", .symbol .rparen,
        .identifier "x", .symbol .rparen, .integer "1", .symbol .endOfInput].map fun l =>
          { lexeme := l, span := ⟨0, 0⟩, line := 1 }) = .ok t ∧
    (Arena.ofTree t).program = .ok p ∧ p.arena.rootTree? = some t.standard ∧
    Renames "x" "y" t.standard s' ∧ IsFresh "y" t.standard ∧
    ∃ a c, a.standardized = true ∧ a.rootTree? = some s' ∧ a.control = .ok c ∧
      ∀ p' : Program, p' = { arena := a, control := c } →
      (∀ n, Progress.Alpha p p' (fun s s' => s.room = none ∧ s'.room = none)
        ((Machine.start p (Sink.withRoom none)).runFor n)
        ((Machine.start p' (Sink.withRoom none)).runFor n)) ∧
      ∀ sink n,
        (Progress.Alpha p p' (fun _ _ => True) ((Machine.start p sink).runFor n)
            ((Machine.start p' sink).runFor n) ∨
          Machine.IsFull ((Machine.start p sink).runFor n) ∨
          Machine.IsFull ((Machine.start p' sink).runFor n)) ∧
        ((∀ k < n, ∀ m v, (Machine.start p sink).runFor k = .running m → m.printed? = some v →
            v.IsData) →
          Progress.Alpha p p' Eq ((Machine.start p sink).runFor n)
              ((Machine.start p' sink).runFor n) ∧
            ∀ result m, (Machine.start p sink).runFor n = .halted result m →
              Machine.IsDataResult result →
                ∃ m', (Machine.start p' sink).runFor n = .halted result m' ∧ m'.sink = m.sink) := by
  generalize htokens : List.map _ _ = tokens
  have hok : ((Tree.ofTokens tokens).toOption.any fun t => (Arena.ofTree t).program.isOk &&
      decide ((∀ l ∈ t.standard.preorder, l.kind = .identifier → l.content ≠ "y") ∧
        t.standard.appliesBinderOf "x" = true)) = true := by
    subst htokens
    decide +kernel
  obtain ⟨t, p, h, hp, hfresh, hshape⟩ := Program.exists_of_tokens hok
  obtain ⟨-, -, -, -, -, hs⟩ := exists_of_ofTree (.inl ⟨_, isSource_of_ofTokens h⟩) hp
  obtain ⟨s', hrenames⟩ : ∃ s', Renames "x" "y" t.standard s' := by
    rw [Tree.appliesBinderOf.eq_def] at hshape
    split at hshape
    · next heq =>
      obtain ⟨hl, hx⟩ := of_decide_eq_true hshape
      rw [heq]
      exact ⟨_, @Renames.within _ _ _ [] _ _ _ (.lambda hl hx)⟩
    · cases hshape
  obtain ⟨a, root, F, hmark, hroot, hunfolds⟩ := Arena.exists_standardized s'
  obtain ⟨c, hc⟩ := runs_alike_of_renames h hp hs hrenames hfresh hmark hroot hunfolds
  exact ⟨t, p, s', h, hp, hs, hrenames, hfresh, a, c, hmark, hunfolds.rootTree?_eq hroot, hc⟩

end Rpal
