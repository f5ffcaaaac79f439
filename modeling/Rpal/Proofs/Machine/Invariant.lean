import Rpal.Proofs.Machine.Soundness

/-!
# Invariants of items and their environments

What a machine reduces are items of a program's control structures, each in some environment. A
requirement on items and environments that carries over from a lambda to its body and from a
conditional to its branches (`Program.Discipline`) therefore holds of everything that a machine will
ever reduce, and every error is due to an item that meets it.

The number of values on the stack does not matter. So an invariant of this kind is kept by errors too,
and a machine that is run again goes on with what an error has left.

## Key results

- `step_obeys`: a step keeps to the discipline, whether it fails or not
- `Runs.obeys`: so do any number of runs, and they explain all their errors
-/

namespace Rpal

/-- A requirement on the items of a program and the environments in which they are reduced. -/
structure Program.Discipline (p : Program) where
  /-- The item can be reduced in the environment. -/
  admits : Env → ControlItem → Prop
  /-- There can be a function with this code and environment. -/
  code : Delta → Env → Prop
  code_of_admits : ∀ {env k}, admits env (.delta k) → code (p.control.delta k) env
  admits_of_code : ∀ {d env inner v}, code d env → env.enter? d.vars v = some inner →
    ∀ i ∈ d.body, admits inner i
  admits_of_beta : ∀ {env j}, admits env (.beta j) →
    ∀ i ∈ (p.control.beta j).whenTrue ++ (p.control.beta j).whenFalse, admits env i

/-- The line that is reported for an item. -/
def Program.lineOf (p : Program) : ControlItem → Nat
  | .node id => p.arena.line id
  | .delta k => (p.control.delta k).line
  | .beta j => (p.control.beta j).line

/-- The fault is about something else than a name without a value. -/
def FaultOf.IsNameless {φ : Type} : FaultOf φ → Prop
  | .undeclared _ => False
  | _ => True

/-- An operational fault names nothing. -/
theorem FaultOf.IsOperational.isNameless {φ : Type} {f : FaultOf φ} (h : f.IsOperational) :
    f.IsNameless := by
  cases f with
  | undeclared => exact h
  | _ => trivial

variable {p : Program} {D : p.Discipline} {ω : Type}

namespace Program.Discipline

/-- Values with functions that there can be. -/
def parts (D : p.Discipline) : Parts Delta where
  ystar := True
  builtin _ := True
  code := D.code

/-- The error has no line, or it is on the line of an item that can be reduced in some environment. A
    name is undeclared if it is that of the item, unbound there and not built in. -/
inductive Explains (D : p.Discipline) : EvalError → Prop where
  | fault {env item f} : D.admits env item → f.IsNameless → Explains D (.fault (p.lineOf item) f)
  | undeclared {env id} : D.admits env (.node id) → p.arena.kind id = .identifier →
      env.lookup? (p.arena.label id).content = none →
      Builtin.ofName? (p.arena.label id).content = none →
      Explains D (.fault (p.lineOf (.node id)) (.undeclared (p.arena.label id).content))
  | stackUnderflow : Explains D .stackUnderflow
  | leftoverValues {count} : Explains D (.leftoverValues count)
  | outputFull : Explains D .outputFull

end Program.Discipline

/-- The items of the frame can be reduced in its environment. -/
structure Frame.Obeys (D : p.Discipline) (f : Frame) : Prop where
  env : f.env.MadeOf D.parts
  control : ∀ i ∈ f.control, D.admits f.env i

/-- The machine evaluates `p` and keeps to the discipline. -/
structure Machine.Obeys (D : p.Discipline) (m : Machine ω) : Prop where
  program_eq : m.program = p
  frames : ∀ f ∈ m.frames, f.Obeys D
  values : ∀ v ∈ m.values, v.MadeOf D.parts

/-- The machine keeps to the discipline, also if it has halted, and an error is explained. -/
def Progress.Obeys (D : p.Discipline) : Progress ω → Prop
  | .running m => m.Obeys D
  | .halted result m => m.Obeys D ∧ ∀ e, result = .error e → D.Explains e

/-- The machine keeps to the discipline and is about to reduce `item`, whose line it has noted. -/
structure Machine.ObeysAt (D : p.Discipline) (item : ControlItem) (m : Machine ω) : Prop
    extends m.Obeys D where
  admits : D.admits m.env item
  line_eq : m.line = p.lineOf item

namespace Machine

variable {m : Machine ω} {item : ControlItem}

/-! ### Ends of a reduction -/

/-- A value made of the parts may be pushed. -/
theorem Obeys.push {v : Value} (h : m.Obeys D) (hv : v.MadeOf D.parts) : (m.push v).Obeys D :=
  ⟨h.program_eq, h.frames, List.forall_mem_cons.2 ⟨hv, h.values⟩⟩

/-- An error that the discipline explains may end a run. -/
theorem Obeys.halted {e : EvalError} (h : m.Obeys D) (he : D.Explains e) :
    (Progress.halted (.error e) m).Obeys D := by
  refine ⟨h, fun e' heq => ?_⟩
  cases heq
  exact he

/-- A result may end a run. -/
theorem Obeys.halted_ok {result : Option Value} (h : m.Obeys D) :
    (Progress.halted (.ok result) m).Obeys D := by
  refine ⟨h, fun e heq => ?_⟩
  cases heq

/-- A fault that names nothing is explained by any discipline. -/
theorem ObeysAt.fail {f : Fault} (h : m.ObeysAt D item) (hf : f.IsNameless) :
    (m.fail f).Obeys D := by
  rw [Machine.fail, h.line_eq]
  exact h.halted (.fault h.admits hf)

/-- What an operation settles on is pushed or reported. -/
theorem ObeysAt.settle {result : Except Fault Value} (h : m.ObeysAt D item)
    (hresult : Settles D.parts result) : (m.settle result).Obeys D := by
  cases hresult with
  | ok hv => exact h.push hv
  | error hf => exact h.fail hf.isNameless

/-- A missing value is an error that names nothing. -/
theorem Obeys.underflow (h : m.Obeys D) : m.underflow.Obeys D :=
  Obeys.halted ⟨h.program_eq, h.frames, List.forall_mem_nil _⟩ .stackUnderflow

/-- The current environment holds values made of the parts. -/
theorem Obeys.env (h : m.Obeys D) : m.env.MadeOf D.parts := by
  rw [Machine.env]
  split
  · trivial
  · next hframes => exact (h.frames _ (hframes ▸ List.mem_cons_self)).env

/-- Items can be scheduled that can be reduced in the frame at work. -/
theorem Obeys.schedule {items : List ControlItem} (h : m.Obeys D)
    (hitems : ∀ i ∈ items, D.admits m.env i) : (m.schedule items).Obeys D := by
  rw [Machine.env] at hitems
  rw [Machine.schedule]
  split
  · exact h
  · next f fs hframes =>
    simp only [hframes] at hitems
    have hall := h.frames
    rw [hframes, List.forall_mem_cons] at hall
    refine ⟨h.program_eq, List.forall_mem_cons.2 ⟨⟨hall.1.env, ?_⟩, hall.2⟩, h.values⟩
    exact List.forall_mem_append.2 ⟨hitems, hall.1.control⟩

/-- The stack of values does not matter, as long as there can be such values. -/
theorem ObeysAt.withValues {values : List Value} (h : m.ObeysAt D item)
    (hvalues : ∀ v ∈ values, v.MadeOf D.parts) : Machine.ObeysAt D item { m with values } :=
  ⟨⟨h.program_eq, h.frames, hvalues⟩, h.admits, h.line_eq⟩

/-! ### Application -/

/-- The body of a function is reduced where its parameters are bound. -/
theorem Obeys.enter {d : Delta} {env inner : Env} {v : Value} (h : m.Obeys D) (hd : D.code d env)
    (henv : env.MadeOf D.parts) (hv : v.MadeOf D.parts) (hinner : env.enter? d.vars v = some inner) :
    (m.enter d inner).Obeys D := by
  have hframe : Frame.Obeys D { control := d.body.reverse, env := inner } :=
    ⟨henv.enter? hv hinner, fun i hi => D.admits_of_code hd hinner i (List.mem_reverse.1 hi)⟩
  refine ⟨h.program_eq, List.forall_mem_cons.2 ⟨hframe, fun f hf => ?_⟩, h.values⟩
  exact h.frames f (mem_frames_of_mem_callers hf)

/-- The item at hand stays the one that errors refer to when it is taken. -/
theorem ObeysAt.takeItem (h : m.ObeysAt D item) : m.takeItem.2.ObeysAt D item := by
  have hadmits := h.admits
  rw [Machine.takeItem]
  split
  · next hframes =>
    have hall := h.frames
    rw [hframes, List.forall_mem_cons] at hall
    have hframe := List.forall_mem_cons.1 hall.1.control
    -- the environment of the frame at work stays
    rw [Machine.env, hframes] at hadmits
    exact ⟨⟨h.program_eq, List.forall_mem_cons.2 ⟨⟨hall.1.env, hframe.2⟩, hall.2⟩, h.values⟩,
      hadmits, h.line_eq⟩
  · exact h

/-- `Conc` makes a partial application of what it is given. -/
theorem ObeysAt.applyConc {v : Value} (h : m.ObeysAt D item) : (m.applyConc v).Obeys D := by
  have htake := h.takeItem
  rw [Machine.applyConc]
  generalize m.takeItem = taken at htake
  obtain ⟨item?, m⟩ := taken
  simp only
  split
  · split
    · exact htake.underflow
    · next w values hvalues =>
      have hall := htake.values
      rw [hvalues, List.forall_mem_cons] at hall
      exact (htake.withValues hall.2).settle (v.joined_settles _ w)
  · exact htake.settle (Builtin.apply_settles _ _ v)

/-- A built-in makes its value of the parts of its argument. -/
theorem ObeysAt.applyBuiltin [OutputWriter ω] {b : Builtin} {v : Value} (h : m.ObeysAt D item) :
    (m.applyBuiltin b v).Obeys D := by
  cases b with
  | conc => exact h.applyConc
  | print =>
    simp only [Machine.applyBuiltin, applyPrint]
    -- neither frames nor values change, whatever is written
    generalize OutputWriter.write m.sink (Text.expandEscapes v.render) = written
    have h' : Machine.ObeysAt D item { m with sink := written.2 } :=
      ⟨⟨h.program_eq, h.frames, h.values⟩, h.admits, h.line_eq⟩
    split
    · exact h'.settle (Builtin.apply_settles _ _ v)
    · exact h'.halted .outputFull
  | _ =>
    simp only [Machine.applyBuiltin]
    exact h.settle (Builtin.apply_settles _ _ v)

/-- Applying a value enters a closure, which the parts describe, or stays with its argument. -/
theorem ObeysAt.apply [OutputWriter ω] {id : Nat} {f v : Value} (h : m.ObeysAt D (.node id))
    (hf : f.MadeOf D.parts) (hv : v.MadeOf D.parts) : (m.apply id f v).Obeys D := by
  cases f with
  | closure d env =>
    simp only [Machine.apply]
    split
    · next hinner => exact h.enter hf.1 hf.2 hv hinner
    · exact h.fail trivial
  | eta d env =>
    have hvalues : ∀ w ∈ ValueOf.closure d env :: .eta d env :: v :: m.values,
        w.MadeOf D.parts := by
      simp only [List.forall_mem_cons]
      exact ⟨hf, hf, hv, h.values⟩
    -- the same application is reduced twice more
    refine (h.withValues hvalues).schedule ?_
    simp only [List.forall_mem_cons]
    exact ⟨h.admits, h.admits, List.forall_mem_nil _⟩
  | ystar =>
    cases v with
    | closure d env => exact h.push hv
    | _ => exact h.fail trivial
  | tuple elements => exact h.settle (ValueOf.element_settles (ValueOf.allMadeOf_iff.1 hf) v)
  | builtin b => exact h.applyBuiltin
  | integer | string | truth | dummy => exact h.fail trivial

/-! ### Reductions -/

/-- An operation on one value obeys, if it does on every value made of the parts. -/
theorem ObeysAt.unary {operation : Machine ω → Value → Progress ω} (h : m.ObeysAt D item)
    (hop : ∀ m' v, m'.ObeysAt D item → v.MadeOf D.parts → (operation m' v).Obeys D) :
    (m.unary operation).Obeys D := by
  rw [Machine.unary]
  split
  · next v values hvalues =>
    have hall := h.values
    rw [hvalues, List.forall_mem_cons] at hall
    exact hop _ _ (h.withValues hall.2) hall.1
  · exact h.underflow

/-- An operation on two values obeys, if it does on any two made of the parts. -/
theorem ObeysAt.binary {operation : Machine ω → Value → Value → Progress ω} (h : m.ObeysAt D item)
    (hop : ∀ m' v w, m'.ObeysAt D item → v.MadeOf D.parts → w.MadeOf D.parts →
      (operation m' v w).Obeys D) : (m.binary operation).Obeys D := by
  rw [Machine.binary]
  split
  · next v w values hvalues =>
    have hall := h.values
    rw [hvalues, List.forall_mem_cons, List.forall_mem_cons] at hall
    exact hop _ _ _ (h.withValues hall.2.2) hall.1 hall.2.1
  · exact h.underflow

/-- A name is bound in the environment, a built-in, or reported as undeclared. -/
theorem ObeysAt.identifier {id : Nat} (h : m.ObeysAt D (.node id))
    (hid : p.arena.kind id = .identifier) :
    (m.identifier (p.arena.label id).content).Obeys D := by
  rw [Machine.identifier]
  split
  · next hv => exact h.push (h.env.lookup? hv)
  · next hlookup =>
    split
    · exact h.push trivial
    · next hbuiltin =>
      rw [Machine.fail, h.line_eq]
      exact h.halted (.undeclared h.admits hid hlookup hbuiltin)

/-- Reducing an admitted node obeys: one case for each construct. -/
theorem Obeys.reduceNode [OutputWriter ω] {id : Nat} (h : m.Obeys D)
    (hid : D.admits m.env (.node id)) : (m.reduceNode id).Obeys D := by
  have hlabel : m.program.arena.label id = p.arena.label id := by rw [h.program_eq]
  have h' : Machine.ObeysAt D (.node id) { m with line := (p.arena.label id).line } :=
    ⟨⟨h.program_eq, h.frames, h.values⟩, hid, rfl⟩
  simp only [Machine.reduceNode, hlabel]
  cases hk : (p.arena.label id).kind with
  | identifier => exact h'.identifier hk
  | integer => exact h'.settle (FaultOf.orOverflow_settles _ _)
  | string | truth | nil | dummy | ystar => exact h'.push trivial
  | tau =>
    simp only [gather]
    split
    · -- the tuple is made of the topmost values, and the others stay
      have hdrop := h'.withValues fun v hv =>
        h.values v (List.mem_of_mem_drop (i := (m.program.arena.children id).length) hv)
      exact hdrop.push (ValueOf.allMadeOf_iff.2 fun v hv => h.values v (List.mem_of_mem_take hv))
    · exact h'.underflow
  | gamma => exact h'.binary fun m' f v hm hf hv => hm.apply hf hv
  | binary op => exact h'.binary fun m' l r hm hl hr => hm.settle (op.apply_settles hl hr)
  | not => exact h'.unary fun m' v hm _ => hm.settle (v.inverted_settles _)
  | neg => exact h'.unary fun m' v hm _ => hm.settle (v.negated_settles _)
  | _ => exact h'.fail trivial

/-- The branch that a conditional takes is admitted along with it. -/
theorem Obeys.choose {j : Nat} (h : m.Obeys D) (hj : D.admits m.env (.beta j)) :
    (m.choose (p.control.beta j)).Obeys D := by
  have h' : Machine.ObeysAt D (.beta j) { m with line := (p.control.beta j).line } :=
    ⟨⟨h.program_eq, h.frames, h.values⟩, hj, rfl⟩
  refine h'.unary fun m' v hm _ => ?_
  have hbranches := D.admits_of_beta hm.admits
  rw [List.forall_mem_append] at hbranches
  split
  · exact hm.schedule fun i hi => hbranches.1 i (List.mem_reverse.1 hi)
  · exact hm.schedule fun i hi => hbranches.2 i (List.mem_reverse.1 hi)
  · exact hm.fail trivial

/-- Reducing an admitted item obeys. -/
theorem Obeys.reduce [OutputWriter ω] (h : m.Obeys D) (hitem : D.admits m.env item) :
    (m.reduce item).Obeys D := by
  cases item with
  | node id => exact h.reduceNode hitem
  | beta j =>
    rw [Machine.reduce, h.program_eq]
    exact h.choose hitem
  | delta k =>
    -- a lambda captures the environment in which it can be reduced
    obtain rfl := h.program_eq
    have h' : Machine.Obeys D { m with line := (m.program.control.delta k).line } :=
      ⟨rfl, h.frames, h.values⟩
    have hclosure : (ValueOf.closure (m.program.control.delta k) m.env).MadeOf D.parts :=
      ⟨D.code_of_admits hitem, h.env⟩
    exact h'.push hclosure

/-! ### Running -/

/-- The end of a run obeys. -/
theorem Obeys.finish (h : m.Obeys D) : m.finish.Obeys D := by
  rw [Machine.finish]
  split
  · exact h.halted_ok
  · exact Obeys.halted_ok ⟨h.program_eq, h.frames, List.forall_mem_nil _⟩
  · exact h.halted .leftoverValues

variable [OutputWriter ω]

/-- A step keeps to the discipline, whether it fails or not. -/
theorem step_obeys (h : m.Obeys D) : m.step.Obeys D := by
  have hall := h.frames
  rw [step.eq_def]
  split
  · exact h.finish
  · -- a frame without items is left
    next hframes =>
    rw [hframes, List.forall_mem_cons] at hall
    exact ⟨h.program_eq, hall.2, h.values⟩
  · next item control env fs hframes =>
    rw [hframes, List.forall_mem_cons] at hall
    obtain ⟨⟨henv, hcontrol⟩, hfs⟩ := hall
    obtain ⟨hitem, hcontrol⟩ := List.forall_mem_cons.1 hcontrol
    have h' : Machine.Obeys D { m with frames := { control, env } :: fs } :=
      ⟨h.program_eq, List.forall_mem_cons.2 ⟨⟨henv, hcontrol⟩, hfs⟩, h.values⟩
    exact h'.reduce hitem

/-- Any number of steps keeps to the discipline. -/
theorem runFor_obeys (n : Nat) (h : m.Obeys D) : (m.runFor n).Obeys D := by
  induction n generalizing m with
  | zero => exact h
  | succ n ih =>
    have hstep := step_obeys h
    rw [runFor]
    split
    · next hrunning =>
      rw [hrunning] at hstep
      exact ih hstep
    · next hhalted => rwa [hhalted] at hstep

/-- Runs one after the other, each on the machine that the one before has left, with their
    results. -/
inductive Runs : Machine ω → List (Except EvalError (Option Value)) → Machine ω → Prop where
  | nil (m : Machine ω) : Runs m [] m
  | cons {m m' m'' : Machine ω} {n result results} : m.runFor n = .halted result m' →
      Runs m' results m'' → Runs m (result :: results) m''

/-- Every run of a machine that keeps to the discipline explains its errors. -/
theorem Runs.obeys {m' : Machine ω} {results : List (Except EvalError (Option Value))}
    (hruns : Runs m results m') (h : m.Obeys D) :
    m'.Obeys D ∧ ∀ e, .error e ∈ results → D.Explains e := by
  induction hruns with
  | nil => exact ⟨h, fun e he => absurd he List.not_mem_nil⟩
  | @cons m m₁ m₂ n result results hrun _ ih =>
    have hhalted := runFor_obeys n h
    rw [hrun] at hhalted
    obtain ⟨hm₁, hresult⟩ := hhalted
    obtain ⟨hm₂, hresults⟩ := ih hm₁
    refine ⟨hm₂, fun e he => ?_⟩
    rcases List.mem_cons.1 he with heq | he
    · exact hresult e heq.symm
    · exact hresults e he

end Machine

end Rpal
