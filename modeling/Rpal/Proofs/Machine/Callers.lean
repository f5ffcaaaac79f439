import Rpal.Proofs.Machine.Scope

/-!
# Callers that have nothing left to do

A function that is put to work takes the place of a caller that has nothing left to do. This keeps
the stack of frames flat when functions call each other last. A machine that keeps such callers
behaves in the same way: the frames that it has in addition are only removed later, one by one,
without a trace.

To compare the two machines, a reduction is looked at in two machines that have the same frame at
work above different frames. The frames below do not matter to it, and it either leaves them alone
and changes the frame at work, or puts a function to work.

## Key results

- `reduce_parallel`: a reduction in two machines with the same frame at work
- `runBy_alike`: two machines that differ only in frames with nothing left to do stay so
- `Runs.callersBusy`: below the frame at work, every frame has something left to do
- `runs_alike_keeping`: whether callers with nothing left to do are kept cannot be observed
-/

namespace Rpal

variable {ω : Type}

/-! ### A machine that keeps its callers -/

namespace Machine

/-- Puts a frame for `delta` to work above all frames, whether they have something left to do or
    not. -/
def enterKeeping (m : Machine ω) (delta : Delta) (env : Env) : Progress ω :=
  .running
    { m with
      frames := { control := delta.body.reverse, env } :: m.frames
      environments := m.environments + 1 }

/-- `apply`, in a machine that keeps its callers. -/
def applyKeeping [OutputWriter ω] (m : Machine ω) (id : Nat) (f v : Value) : Progress ω :=
  match f with
  | .closure delta env =>
    match env.enter? delta.vars v with
    | some inner => m.enterKeeping delta inner
    | none => m.fail (.type (.notTupleOf delta.vars.length v))
  | f => m.apply id f v

/-- `reduce`, in a machine that keeps its callers. -/
def reduceKeeping [OutputWriter ω] (m : Machine ω) : ControlItem → Progress ω
  | .node id =>
    if m.program.arena.kind id = .gamma then
      { m with line := m.program.arena.line id }.binary fun m f v => m.applyKeeping id f v
    else
      m.reduceNode id
  | item => m.reduce item

/-- `step`, in a machine that keeps its callers. -/
def stepKeeping [OutputWriter ω] (m : Machine ω) : Progress ω :=
  match m.frames with
  | { control := item :: control, env } :: fs =>
    { m with frames := { control, env } :: fs }.reduceKeeping item
  | _ => m.step

/-- Up to `n` steps of a machine that goes on by `step`. -/
def runBy (step : Machine ω → Progress ω) : Nat → Machine ω → Progress ω
  | 0, m => .running m
  | n + 1, m =>
    match step m with
    | .running m => runBy step n m
    | .halted result m => .halted result m

/-- Runs of such a machine, each on what the one before has left, with their results. -/
inductive RunsBy (step : Machine ω → Progress ω) :
    Machine ω → List (Except EvalError (Option Value)) → Machine ω → Prop where
  | nil (m : Machine ω) : RunsBy step m [] m
  | cons {m m' m'' : Machine ω} {n result results} : runBy step n m = .halted result m' →
      RunsBy step m' results m'' → RunsBy step m (result :: results) m''

variable {m m' : Machine ω} {σ σ' : Machine ω → Progress ω}

/-- Running by `step` is running. -/
theorem runBy_step [OutputWriter ω] (n : Nat) (m : Machine ω) :
    runBy Machine.step n m = m.runFor n := by
  induction n generalizing m with
  | zero => rfl
  | succ n ih =>
    rw [runBy, runFor]
    cases m.step with
    | running m' => exact ih m'
    | halted result m' => rfl

/-- A sequence of runs by `step` is a sequence of runs. -/
theorem runsBy_step [OutputWriter ω] {results : List (Except EvalError (Option Value))} :
    RunsBy Machine.step m results m' ↔ Runs m results m' := by
  constructor
  · intro h
    induction h with
    | nil m => exact .nil m
    | cons hrun _ ih => exact .cons ((runBy_step _ _).symm.trans hrun) ih
  · intro h
    induction h with
    | nil m => exact .nil m
    | cons hrun _ ih => exact .cons ((runBy_step _ _).trans hrun) ih

/-! ### A reduction in two machines -/

/-- The machine with `f` at work above `fs`. -/
def on (m : Machine ω) (f : Frame) (fs : List Frame) : Machine ω :=
  { m with frames := f :: fs }

/-- What a reduction makes of two machines with `f` at work, above `fs` and above `fs'`: the frame at
    work is another one now, or a function is put to work, and the second machine keeps its
    callers. -/
inductive Parallel (f : Frame) (fs fs' : List Frame) : Progress ω → Progress ω → Prop where
  | running (m : Machine ω) (g : Frame) :
      Parallel f fs fs' (.running (m.on g fs)) (.running (m.on g fs'))
  | halted (result : Except EvalError (Option Value)) (m : Machine ω) (g : Frame) :
      Parallel f fs fs' (.halted result (m.on g fs)) (.halted result (m.on g fs'))
  | entered (m : Machine ω) (g : Frame) :
      Parallel f fs fs' (.running (m.on g (if f.control.isEmpty then fs else f :: fs)))
        (.running (m.on g (f :: fs')))

section

variable {f : Frame} {fs fs' : List Frame}

/-- A push does not look at the callers. -/
theorem push_parallel (m : Machine ω) (g : Frame) (v : Value) :
    Parallel f fs fs' ((m.on g fs).push v) ((m.on g fs').push v) :=
  .running { m with values := v :: m.values } g

/-- A fault does not look at the callers. -/
theorem fail_parallel (m : Machine ω) (g : Frame) (fault : Fault) :
    Parallel f fs fs' ((m.on g fs).fail fault) ((m.on g fs').fail fault) :=
  .halted _ m g

/-- The result of an operation does not look at the callers. -/
theorem settle_parallel (m : Machine ω) (g : Frame) (result : Except Fault Value) :
    Parallel f fs fs' ((m.on g fs).settle result) ((m.on g fs').settle result) := by
  cases result with
  | ok v => exact push_parallel m g v
  | error fault => exact fail_parallel m g fault

/-- A missing value is missing with any callers. -/
theorem underflow_parallel (m : Machine ω) (g : Frame) :
    Parallel f fs fs' (m.on g fs).underflow (m.on g fs').underflow :=
  .halted _ { m with values := [] } g

/-- Scheduling changes the top frame alone. -/
theorem schedule_parallel (m : Machine ω) (g : Frame) (items : List ControlItem) :
    Parallel f fs fs' ((m.on g fs).schedule items) ((m.on g fs').schedule items) :=
  .running m { g with control := items ++ g.control }

/-- `Conc` touches the top frame alone. -/
theorem applyConc_parallel (m : Machine ω) (v : Value) :
    Parallel f fs fs' ((m.on f fs).applyConc v) ((m.on f fs').applyConc v) := by
  obtain ⟨control, env⟩ := f
  cases control with
  | nil => exact settle_parallel m _ (Builtin.conc.apply v)
  | cons item control =>
    -- the item is taken in both machines, whether it is an application or not
    have htake (gs : List Frame) : (m.on { control := item :: control, env } gs).takeItem =
        (some item, m.on { control, env } gs) := rfl
    have hkind (gs : List Frame) :
        (m.on { control, env } gs).isApplication item = m.isApplication item := by
      cases item <;> rfl
    have hvalues (g : Frame) (gs : List Frame) : (m.on g gs).values = m.values := rfl
    simp only [applyConc, htake, Option.any_some, hkind, hvalues]
    split
    · cases m.values with
      | nil => exact underflow_parallel m _
      | cons w values => exact settle_parallel { m with values } _ (v.joined w)
    · exact settle_parallel m _ (Builtin.conc.apply v)

/-- No built-in looks at the callers. -/
theorem applyBuiltin_parallel [OutputWriter ω] (m : Machine ω) (b : Builtin) (v : Value) :
    Parallel f fs fs' ((m.on f fs).applyBuiltin b v) ((m.on f fs').applyBuiltin b v) := by
  cases b with
  | conc => exact applyConc_parallel m v
  | print =>
    show Parallel f fs fs' ((m.on f fs).applyPrint v) ((m.on f fs').applyPrint v)
    simp only [applyPrint]
    -- both machines write to the same sink
    generalize hwrite : OutputWriter.write m.sink (Text.expandEscapes v.render) = written
    have hwrite' (gs : List Frame) :
        OutputWriter.write (m.on f gs).sink (Text.expandEscapes v.render) = written := hwrite
    simp only [hwrite']
    split
    · exact settle_parallel { m with sink := written.2 } f _
    · exact .halted _ { m with sink := written.2 } f
  | _ =>
    simp only [applyBuiltin]
    exact settle_parallel m f _

/-- The second machine keeps its callers. -/
theorem apply_parallel [OutputWriter ω] (m : Machine ω) (id : Nat) (g v : Value) :
    Parallel f fs fs' ((m.on f fs).apply id g v) ((m.on f fs').applyKeeping id g v) := by
  cases g with
  | closure delta env =>
    simp only [apply, applyKeeping]
    cases env.enter? delta.vars v with
    | some inner =>
      exact .entered { m with environments := m.environments + 1 }
        { control := delta.body.reverse, env := inner }
    | none => exact fail_parallel m f _
  | eta delta env =>
    exact schedule_parallel { m with values := .closure delta env :: .eta delta env :: v :: m.values }
      f _
  | ystar =>
    cases v with
    | closure delta env => exact push_parallel m f _
    | _ => exact fail_parallel m f _
  | tuple elements => exact settle_parallel m f _
  | builtin b => exact applyBuiltin_parallel m b v
  | _ => exact fail_parallel m f _

/-- A name is looked up in the environment of the top frame. -/
theorem identifier_parallel (m : Machine ω) (name : String) :
    Parallel f fs fs' ((m.on f fs).identifier name) ((m.on f fs').identifier name) := by
  have henv (gs : List Frame) : (m.on f gs).env = f.env := rfl
  simp only [identifier, henv]
  split
  · exact push_parallel m f _
  · split
    · exact push_parallel m f _
    · exact fail_parallel m f _

/-- Taking one value leaves the callers, as long as the operation on it does. -/
theorem unary_parallel (m : Machine ω) {operation : Machine ω → Value → Progress ω}
    (h : ∀ (m : Machine ω) (v : Value),
      Parallel f fs fs' (operation (m.on f fs) v) (operation (m.on f fs') v)) :
    Parallel f fs fs' ((m.on f fs).unary operation) ((m.on f fs').unary operation) := by
  have hvalues (gs : List Frame) : (m.on f gs).values = m.values := rfl
  simp only [unary, hvalues]
  split
  · next v values _ => exact h { m with values } v
  · exact underflow_parallel m f

/-- Taking two values leaves the callers, as long as the operation on them does. -/
theorem binary_parallel (m : Machine ω)
    {operation operation' : Machine ω → Value → Value → Progress ω}
    (h : ∀ (m : Machine ω) (v w : Value),
      Parallel f fs fs' (operation (m.on f fs) v w) (operation' (m.on f fs') v w)) :
    Parallel f fs fs' ((m.on f fs).binary operation) ((m.on f fs').binary operation') := by
  have hvalues (gs : List Frame) : (m.on f gs).values = m.values := rfl
  simp only [binary, hvalues]
  split
  · next v w values _ => exact h { m with values } v w
  · exact underflow_parallel m f

/-- A tuple is gathered from values, without a look at the callers. -/
theorem gather_parallel (m : Machine ω) (count : Nat) :
    Parallel f fs fs' ((m.on f fs).gather count) ((m.on f fs').gather count) := by
  have hvalues (gs : List Frame) : (m.on f gs).values = m.values := rfl
  simp only [gather, hvalues]
  split
  · exact push_parallel { m with values := m.values.drop count } f _
  · exact underflow_parallel m f

/-- Every node but an application is reduced in the top frame alone. -/
theorem reduceNode_parallel [OutputWriter ω] (m : Machine ω) {id : Nat}
    (hid : m.program.arena.kind id ≠ .gamma) :
    Parallel f fs fs' ((m.on f fs).reduceNode id) ((m.on f fs').reduceNode id) := by
  let n : Machine ω := { m with line := m.program.arena.line id }
  unfold reduceNode
  -- neither the program nor the line depends on the frames
  have hlabel (gs : List Frame) : (m.on f gs).program.arena.label id = m.program.arena.label id := rfl
  simp only [hlabel]
  cases hk : (m.program.arena.label id).kind with
  | gamma => exact absurd hk hid
  | identifier => exact identifier_parallel n _
  | integer => exact settle_parallel n f _
  | string | truth | dummy | nil | ystar => exact push_parallel n f _
  | tau => exact gather_parallel n _
  | binary op => exact binary_parallel n fun m v w => settle_parallel m f _
  | not | neg => exact unary_parallel n fun m v => settle_parallel m f _
  | _ => exact fail_parallel n f _

/-- A conditional schedules its branch in the top frame. -/
theorem choose_parallel (m : Machine ω) (b : Beta) :
    Parallel f fs fs' ((m.on f fs).choose b) ((m.on f fs').choose b) := by
  refine unary_parallel { m with line := b.line } fun m v => ?_
  cases v with
  | truth t =>
    cases t with
    | true => exact schedule_parallel m f _
    | false => exact schedule_parallel m f _
  | _ => exact fail_parallel m f _

/-- A reduction does not depend on the frames below the frame at work. -/
theorem reduce_parallel [OutputWriter ω] (m : Machine ω) (item : ControlItem) :
    Parallel f fs fs' ((m.on f fs).reduce item) ((m.on f fs').reduceKeeping item) := by
  cases item with
  | node id =>
    -- only an application can put a function to work, and so differ in the two machines
    by_cases hid : m.program.arena.kind id = .gamma
    · have hreal : (m.on f fs).reduce (.node id) =
          (Machine.on { m with line := m.program.arena.line id } f fs).binary
            fun m f v => m.apply id f v := by
        show (m.on f fs).reduceNode id = _
        rw [reduceNode]
        have hk : ((m.on f fs).program.arena.label id).kind = .gamma := hid
        simp only [hk]
        rfl
      have hkeeping : (m.on f fs').reduceKeeping (.node id) =
          (Machine.on { m with line := m.program.arena.line id } f fs').binary
            fun m f v => m.applyKeeping id f v := if_pos hid
      rw [hreal, hkeeping]
      exact binary_parallel _ fun m g v => apply_parallel m id g v
    · have hkeeping : (m.on f fs').reduceKeeping (.node id) = (m.on f fs').reduceNode id :=
        if_neg hid
      rw [hkeeping]
      exact reduceNode_parallel m hid
  | delta index => exact push_parallel { m with line := (m.program.control.delta index).line } f _
  | beta index => exact choose_parallel m _

end

/-! ### Frames with nothing left to do -/

/-- The frames that have something left to do. -/
def busy (fs : List Frame) : List Frame :=
  fs.filter fun f => !f.control.isEmpty

/-- The machines differ at most in frames with nothing left to do. -/
structure Alike (m m' : Machine ω) : Prop where
  busy_eq : busy m.frames = busy m'.frames
  program_eq : m.program = m'.program
  values_eq : m.values = m'.values
  line_eq : m.line = m'.line
  environments_eq : m.environments = m'.environments
  sink_eq : m.sink = m'.sink

theorem Alike.refl (m : Machine ω) : m.Alike m :=
  ⟨rfl, rfl, rfl, rfl, rfl, rfl⟩

theorem Alike.symm (h : m.Alike m') : m'.Alike m :=
  ⟨h.busy_eq.symm, h.program_eq.symm, h.values_eq.symm, h.line_eq.symm, h.environments_eq.symm,
    h.sink_eq.symm⟩

theorem Alike.trans {m'' : Machine ω} (h : m.Alike m') (h' : m'.Alike m'') : m.Alike m'' :=
  ⟨h.busy_eq.trans h'.busy_eq, h.program_eq.trans h'.program_eq, h.values_eq.trans h'.values_eq,
    h.line_eq.trans h'.line_eq, h.environments_eq.trans h'.environments_eq,
    h.sink_eq.trans h'.sink_eq⟩

end Machine

/-- Both machines have halted with the same result, or neither has, and they differ at most in
    frames with nothing left to do. -/
inductive Progress.Alike : Progress ω → Progress ω → Prop where
  | running {m m' : Machine ω} : m.Alike m' → Alike (.running m) (.running m')
  | halted {m m' : Machine ω} (result : Except EvalError (Option Value)) : m.Alike m' →
      Alike (.halted result m) (.halted result m')

theorem Progress.Alike.symm {p p' : Progress ω} (h : p.Alike p') : p'.Alike p := by
  cases h with
  | running h => exact .running h.symm
  | halted result h => exact .halted result h.symm

namespace Machine

section

variable {f : Frame} {fs fs' : List Frame} {m m' : Machine ω} {p p' : Progress ω}

/-- A frame with items left is busy. -/
theorem busy_cons_of_ne_nil (hf : f.control ≠ []) : busy (f :: fs) = f :: busy fs :=
  List.filter_cons_of_pos (by simpa using hf)

/-- A frame without items is not busy. -/
theorem busy_cons_of_eq_nil (hf : f.control = []) : busy (f :: fs) = busy fs :=
  List.filter_cons_of_neg (by simpa using hf)

/-- The same frame on top keeps the busy frames the same. -/
theorem busy_cons_congr (h : busy fs = busy fs') (f : Frame) : busy (f :: fs) = busy (f :: fs') := by
  by_cases hf : f.control = []
  · rw [busy_cons_of_eq_nil hf, busy_cons_of_eq_nil hf, h]
  · rw [busy_cons_of_ne_nil hf, busy_cons_of_ne_nil hf, h]

/-- What a reduction leaves of two machines that are alike is alike. -/
theorem Parallel.alike (h : Parallel f fs fs' p p') (hfs : busy fs = busy fs') : p.Alike p' := by
  cases h with
  | running m g => exact .running ⟨busy_cons_congr hfs g, rfl, rfl, rfl, rfl, rfl⟩
  | halted result m g => exact .halted result ⟨busy_cons_congr hfs g, rfl, rfl, rfl, rfl, rfl⟩
  | entered m g =>
    refine .running ⟨busy_cons_congr ?_ g, rfl, rfl, rfl, rfl, rfl⟩
    by_cases hf : f.control = []
    · -- the first machine has removed its caller
      simp only [hf, List.isEmpty_nil, if_true]
      rw [busy_cons_of_eq_nil hf, hfs]
    · simp only [List.isEmpty_iff, hf, if_false]
      exact busy_cons_congr hfs f

/-- With a frame at work that has something left to do, there is only one machine above given
    frames. -/
theorem Alike.eq_on (h : m.Alike m') (hframes : m'.frames = f :: fs) : m' = m.on f fs := by
  obtain ⟨-, hprogram, hvalues, hline, henvironments, hsink⟩ := h
  cases m'
  simp only at hframes hprogram hvalues hline henvironments hsink
  simp only [on, hframes, hprogram, hvalues, hline, henvironments, hsink]

/-- Machines that are alike come to the same end. -/
theorem Alike.finish (h : m.Alike m') (hframes : m.frames = []) (hframes' : m'.frames = []) :
    m.finish.Alike m'.finish := by
  simp only [Machine.finish, ← h.values_eq]
  split
  · exact .halted _ h
  · exact .halted _ ⟨by rw [hframes, hframes'], h.program_eq, rfl, h.line_eq, h.environments_eq,
      h.sink_eq⟩
  · exact .halted _ h

end

/-! ### Both machines step by step -/

section

variable {σ σ' : Machine ω → Progress ω} {n k : Nat} {m m' m₁ : Machine ω}
  {result : Except EvalError (Option Value)}

/-- How a machine goes on when the frame at work has nothing left to do. -/
structure Drains (σ : Machine ω → Progress ω) : Prop where
  finish : ∀ m : Machine ω, m.frames = [] → σ m = m.finish
  drop : ∀ (m : Machine ω) env fs, m.frames = { control := [], env } :: fs →
    σ m = .running { m with frames := fs }

/-- Reductions of the machines that go on by `σ` and `σ'` keep them alike. -/
def Agree (σ σ' : Machine ω → Progress ω) : Prop :=
  ∀ (m : Machine ω) item control env fs fs', busy fs = busy fs' →
    (σ (m.on { control := item :: control, env } fs)).Alike
      (σ' (m.on { control := item :: control, env } fs'))

theorem Agree.symm (h : Agree σ σ') : Agree σ' σ :=
  fun m item control env fs fs' hfs => (h m item control env fs' fs hfs.symm).symm

/-- The machine drops a frame that has nothing left to do, and ends without frames. -/
theorem drains_step [OutputWriter ω] : Drains (step : Machine ω → Progress ω) where
  finish m hframes := by rw [step.eq_def, hframes]
  drop m env fs hframes := by rw [step.eq_def, hframes]

/-- So does the machine that keeps its callers. -/
theorem drains_stepKeeping [OutputWriter ω] :
    Drains (stepKeeping : Machine ω → Progress ω) where
  finish m hframes := by
    rw [stepKeeping.eq_def, hframes]
    exact drains_step.finish m hframes
  drop m env fs hframes := by
    rw [stepKeeping.eq_def, hframes]
    exact drains_step.drop m env fs hframes

/-- Keeping a caller that has nothing left to do does not show. -/
theorem agree_step_stepKeeping [OutputWriter ω] :
    Agree (step : Machine ω → Progress ω) stepKeeping :=
  fun m item control env _ _ hfs => (reduce_parallel (f := { control, env }) m item).alike hfs

/-- A run goes on behind its first step. -/
theorem runBy_succ_of_running (n : Nat) (h : σ m = .running m₁) :
    runBy σ (n + 1) m = runBy σ n m₁ := by
  rw [runBy, h]

/-- A run whose first step halts ends there. -/
theorem runBy_succ_of_halted (n : Nat) (h : σ m = .halted result m₁) :
    runBy σ (n + 1) m = .halted result m₁ := by
  rw [runBy, h]

/-- A run may be cut in two. -/
theorem runBy_add (k : Nat) (h : runBy σ n m = .running m₁) : runBy σ (n + k) m = runBy σ k m₁ := by
  induction n generalizing m with
  | zero =>
    rw [Progress.running.inj h, Nat.zero_add]
  | succ n ih =>
    rw [Nat.succ_add]
    cases hstep : σ m with
    | running m₂ =>
      rw [runBy_succ_of_running _ hstep] at h ⊢
      exact ih h
    | halted result m₂ =>
      rw [runBy_succ_of_halted _ hstep] at h
      exact nomatch h

/-- After some steps the frame at work has something left to do, or there is no frame. -/
theorem Drains.exists_runBy (hσ : Drains σ) (m : Machine ω) : ∃ n m₁, runBy σ n m = .running m₁ ∧
    m₁.Alike m ∧ ∀ f ∈ m₁.frames.head?, f.control ≠ [] := by
  induction hframes : m.frames generalizing m with
  | nil => exact ⟨0, m, rfl, .refl m, by simp [hframes]⟩
  | cons f fs ih =>
    by_cases hf : f.control = []
    -- one step removes the frame, and the induction goes on with the frames below
    · obtain ⟨control, env⟩ := f
      obtain rfl : control = [] := hf
      obtain ⟨n, m₁, hrun, halike, hhead⟩ := ih { m with frames := fs } rfl
      refine ⟨n + 1, m₁, (runBy_succ_of_running n (hσ.drop m env fs hframes)).trans hrun, ?_, hhead⟩
      refine halike.trans ⟨?_, rfl, rfl, rfl, rfl, rfl⟩
      rw [hframes]
      exact (busy_cons_of_eq_nil rfl).symm
    · exact ⟨0, m, rfl, .refl m, by simpa [hframes] using hf⟩

/-- When the frames at work have something left to do, if there are any, both machines take the same
    step: they come to the same end, or reduce the same item of the same frame. -/
theorem Agree.step (hagree : Agree σ σ') (hσ : Drains σ) (hσ' : Drains σ') (h : m.Alike m')
    (hhead : ∀ f ∈ m.frames.head?, f.control ≠ []) (hhead' : ∀ f ∈ m'.frames.head?, f.control ≠ []) :
    (σ m).Alike (σ' m') := by
  have hbusy := h.busy_eq
  -- the machines have the same busy frames, of which the frames at work are the first
  cases hframes : m.frames with
  | nil =>
    cases hframes' : m'.frames with
    | nil =>
      rw [hσ.finish m hframes, hσ'.finish m' hframes']
      exact h.finish hframes hframes'
    | cons g gs =>
      rw [hframes'] at hhead' hbusy
      rw [hframes, busy_cons_of_ne_nil (hhead' g rfl)] at hbusy
      cases hbusy
  | cons f fs =>
    rw [hframes] at hhead
    have hf := hhead f rfl
    rw [hframes, busy_cons_of_ne_nil hf] at hbusy
    cases hframes' : m'.frames with
    | nil =>
      rw [hframes'] at hbusy
      cases hbusy
    | cons g gs =>
      rw [hframes'] at hhead' hbusy
      rw [busy_cons_of_ne_nil (hhead' g rfl)] at hbusy
      obtain ⟨rfl, hfs⟩ := List.cons.inj hbusy
      obtain ⟨control, env⟩ := f
      obtain ⟨item, control, rfl⟩ := List.exists_cons_of_ne_nil hf
      have hstep := hagree m item control env fs gs hfs
      rwa [← (Alike.refl m).eq_on hframes, ← h.eq_on hframes'] at hstep

/-- Two machines that differ at most in frames with nothing left to do go on to differ at most in
    such frames. While the one takes a step, the other may have to remove frames first. -/
theorem runBy_alike (hσ : Drains σ) (hσ' : Drains σ') (hagree : Agree σ σ') (n : Nat)
    (h : m.Alike m') : ∃ k, (runBy σ n m).Alike (runBy σ' k m') := by
  induction n generalizing m m' with
  | zero => exact ⟨0, .running h⟩
  | succ n ih =>
    by_cases hidle : ∃ env fs, m.frames = { control := [], env } :: fs
    · -- the first machine removes a frame, and the second one waits
      obtain ⟨env, fs, hframes⟩ := hidle
      rw [runBy_succ_of_running n (hσ.drop m env fs hframes)]
      refine ih ⟨?_, h.program_eq, h.values_eq, h.line_eq, h.environments_eq, h.sink_eq⟩
      rw [← h.busy_eq, hframes]
      exact (busy_cons_of_eq_nil rfl).symm
    · -- the second machine removes all frames that are in the way, and then both take a step
      have hhead : ∀ f ∈ m.frames.head?, f.control ≠ [] := by
        rintro ⟨control, env⟩ hf rfl
        exact hidle ⟨env, m.frames.tail, (List.cons_head?_tail hf).symm⟩
      obtain ⟨k, m₂, hrun, halike, hhead₂⟩ := hσ'.exists_runBy m'
      have hstep := hagree.step hσ hσ' (h.trans halike.symm) hhead hhead₂
      generalize hp : σ m = p, hp' : σ' m₂ = p' at hstep
      cases hstep with
      | running hmm =>
        obtain ⟨k', hk'⟩ := ih hmm
        refine ⟨k + (k' + 1), ?_⟩
        rwa [runBy_succ_of_running _ hp, runBy_add _ hrun, runBy_succ_of_running _ hp']
      | halted result hmm =>
        refine ⟨k + 1, ?_⟩
        rw [runBy_succ_of_halted _ hp, runBy_add _ hrun, runBy_succ_of_halted _ hp']
        exact .halted result hmm

/-- The same holds of any number of runs, whatever their results are. -/
theorem RunsBy.alike (hσ : Drains σ) (hσ' : Drains σ') (hagree : Agree σ σ')
    {results : List (Except EvalError (Option Value))} (hruns : RunsBy σ m results m₁)
    (h : m.Alike m') : ∃ m₂, RunsBy σ' m' results m₂ ∧ m₁.Alike m₂ := by
  induction hruns generalizing m' with
  | nil m => exact ⟨m', .nil m', h⟩
  | @cons m m₁ m₃ n result results hrun _ ih =>
    obtain ⟨k, hk⟩ := runBy_alike hσ hσ' hagree n h
    rw [hrun] at hk
    generalize hp : runBy σ' k m' = p at hk
    cases hk with
    | @halted _ m₂ _ hmm =>
      obtain ⟨m₄, hruns, halike⟩ := ih hmm
      exact ⟨m₄, .cons hp hruns, halike⟩

end

/-! ### The frames of a machine that does not keep its callers -/

/-- Below the frame at work, every frame has something left to do. -/
def CallersBusy (m : Machine ω) : Prop :=
  ∀ f ∈ m.frames.tail, f.control ≠ []

end Machine

/-- The machine as it is then. -/
def Progress.machine : Progress ω → Machine ω
  | .running m => m
  | .halted _ m => m

namespace Machine

section

variable {f : Frame} {fs fs' : List Frame} {m m' : Machine ω} {p p' : Progress ω}

/-- The callers stay busy in what leaves them alone. -/
theorem Parallel.callersBusy (h : Parallel f fs fs' p p') (hfs : ∀ g ∈ fs, g.control ≠ []) :
    p.machine.CallersBusy := by
  cases h with
  | running | halted => exact hfs
  | entered m g =>
    by_cases hf : f.control = []
    · simpa [CallersBusy, on, Progress.machine, hf] using hfs
    · simpa [CallersBusy, on, Progress.machine, hf] using hfs

/-- A caller with nothing left to do makes room. -/
theorem Parallel.length_frames_le (h : Parallel f fs fs' p p') (hf : f.control = []) :
    p.machine.frames.length ≤ fs.length + 1 := by
  cases h with
  | running | halted => exact Nat.le_refl _
  | entered m g => simp [on, Progress.machine, hf]

/-- A step keeps the callers busy. -/
theorem step_callersBusy [OutputWriter ω] (h : m.CallersBusy) : m.step.machine.CallersBusy := by
  rw [CallersBusy] at h
  rw [step.eq_def]
  split
  · next hframes =>
    rw [Machine.finish.eq_def]
    split <;> simp [CallersBusy, Progress.machine, hframes]
  · next fs hframes =>
    rw [hframes] at h
    exact fun f hf => h f (List.mem_of_mem_tail hf)
  · next item control env fs hframes =>
    rw [hframes] at h
    have hparallel : Parallel { control, env } fs fs _ _ := reduce_parallel m item
    exact hparallel.callersBusy h

/-- The callers stay busy for any number of steps. -/
theorem runFor_callersBusy [OutputWriter ω] (n : Nat) (h : m.CallersBusy) :
    (m.runFor n).machine.CallersBusy := by
  induction n generalizing m with
  | zero => exact h
  | succ n ih =>
    have hstep := step_callersBusy h
    rw [runFor]
    split
    · next hrunning =>
      rw [hrunning] at hstep
      exact ih hstep
    · next hhalted => rwa [hhalted] at hstep

/-- The callers stay busy over any sequence of runs, those that fail included. -/
theorem Runs.callersBusy [OutputWriter ω] {results : List (Except EvalError (Option Value))}
    (hruns : Runs m results m') (h : m.CallersBusy) : m'.CallersBusy := by
  induction hruns with
  | nil => exact h
  | @cons m _ _ n _ _ hrun _ ih =>
    have hhalted := runFor_callersBusy n h
    rw [hrun] at hhalted
    exact ih hhalted

/-- The last item of a frame does not add a frame. -/
theorem length_frames_step_le [OutputWriter ω] {item : ControlItem} {env : Env}
    (hframes : m.frames = { control := [item], env } :: fs) :
    m.step.machine.frames.length ≤ m.frames.length := by
  have hstep : m.step = { m with frames := { control := [], env } :: fs }.reduce item := by
    rw [step.eq_def, hframes]
  have hparallel : Parallel { control := [], env } fs fs _ _ := reduce_parallel m item
  rw [hframes, hstep]
  exact hparallel.length_frames_le rfl

end

/-- Whether callers with nothing left to do are kept cannot be observed. However often a program is
    run, whatever its output is written to, and whatever the results and errors are, there are runs
    with the same results of a machine that keeps such callers, and the other way round. The two
    machines then differ at most in frames with nothing left to do, and go on to do so. A machine
    that does not keep them has something left to do in every frame below the frame at work, and does
    not have more frames after the last item of a frame, whatever function this item puts to work. -/
theorem runs_alike_keeping [OutputWriter ω] (p : Program) (sink : ω)
    (results : List (Except EvalError (Option Value))) :
    (∀ m, Runs (start p sink) results m →
      ∃ m', RunsBy stepKeeping (start p sink) results m' ∧ m.Alike m' ∧
        ∀ n, ∃ k, (m.runFor n).Alike (runBy stepKeeping k m')) ∧
    (∀ m', RunsBy stepKeeping (start p sink) results m' →
      ∃ m, Runs (start p sink) results m ∧ m.Alike m' ∧
        ∀ k, ∃ n, (m.runFor n).Alike (runBy stepKeeping k m')) ∧
    ∀ m n m₁, Runs (start p sink) results m → m.runFor n = .running m₁ →
      (∀ f ∈ m₁.frames.tail, f.control ≠ []) ∧
      ∀ item env fs, m₁.frames = { control := [item], env } :: fs →
        m₁.step.machine.frames.length ≤ m₁.frames.length := by
  refine ⟨fun m hruns => ?_, fun m' hruns => ?_, fun m n m₁ hruns hrun => ⟨?_, ?_⟩⟩
  · obtain ⟨m', hruns', halike⟩ := (runsBy_step.2 hruns).alike drains_step drains_stepKeeping
      agree_step_stepKeeping (.refl _)
    refine ⟨m', hruns', halike, fun n => ?_⟩
    rw [← runBy_step]
    exact runBy_alike drains_step drains_stepKeeping agree_step_stepKeeping n halike
  · obtain ⟨m, hruns', halike⟩ := hruns.alike drains_stepKeeping drains_step
      agree_step_stepKeeping.symm (.refl _)
    refine ⟨m, runsBy_step.1 hruns', halike.symm, fun k => ?_⟩
    obtain ⟨n, hn⟩ := runBy_alike drains_stepKeeping drains_step agree_step_stepKeeping.symm k halike
    exact ⟨n, runBy_step n m ▸ hn.symm⟩
  · -- a machine starts with a single frame
    have hstart : (start p sink).CallersBusy := List.forall_mem_nil _
    have hbusy := runFor_callersBusy n (hruns.callersBusy hstart)
    rw [hrun] at hbusy
    exact hbusy
  · exact fun item env fs hframes => length_frames_step_le hframes

end Machine

end Rpal
