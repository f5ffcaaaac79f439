import Rpal.Proofs.Machine.Callers
import Rpal.Proofs.Machine.Renaming

/-!
# Output to a limited sink

A machine never reads what it has printed. A limit on the sink therefore only cuts off the output: as
long as everything fits, the machine with a limited sink takes the steps of the machine without a
limit, and when a text does not fit, it halts there.

## Key results

- `Machine.step_withSink`: a step that prints nothing does not depend on the sink, and one that prints
  depends on whether the text fits
- `Machine.step_limited`: one step of the two machines
- `Program.run_limited`: whole runs, and what is kept of their output
-/

namespace Rpal

/-! ### Sinks -/

namespace Sink

/-- What a sink for `n` bytes is after `bytes` were to be written to it. -/
def limited (n : Nat) (bytes : ByteArray) : Sink :=
  { written := bytes.extract 0 n, room := some (n - bytes.size) }

/-- A limit on an empty sink is room for that many bytes. -/
theorem limited_empty (n : Nat) : limited n .empty = withRoom (some n) := by
  have hbytes : ByteArray.empty.extract 0 n = .empty :=
    ByteArray.extract_eq_empty_iff.2 (Nat.min_le_right ..)
  rw [limited, hbytes]
  rfl

/-- A sink without a limit takes any text. -/
theorem write_of_room_eq_none {s : Sink} (h : s.room = none) (text : String) :
    s.write text = (true, { written := s.written ++ text.toUTF8, room := none }) := by
  simp only [write, h]

/-- A limited sink takes a text if all bytes so far fit. -/
theorem write_limited {n : Nat} {bytes : ByteArray} (h : bytes.size ≤ n) (text : String) :
    (limited n bytes).write text =
      (decide ((bytes ++ text.toUTF8).size ≤ n), limited n (bytes ++ text.toUTF8)) := by
  simp only [write, limited, ByteArray.extract_append, ByteArray.size_append, ByteArray.size_extract,
    Nat.zero_sub, Nat.sub_zero]
  refine Prod.ext ?_ ?_
  · simp only [decide_eq_decide]
    omega
  · simp only [mk.injEq, Option.some.injEq, true_and]
    omega

end Sink

namespace Machine

variable (m : Machine)

/-- The machine with another sink. -/
def withSink (s : Sink) : Machine :=
  { m with sink := s }

end Machine

namespace Progress

/-- The result of the run, if it has halted. -/
def result? : Progress → Option (Except EvalError (Option Value))
  | running _ => none
  | halted result _ => some result

/-- What has been printed. -/
def output (r : Progress) : ByteArray :=
  r.machine.sink.written

/-- The run, with another sink. -/
def withSink (s : Sink) : Progress → Progress
  | running m => running (m.withSink s)
  | halted result m => halted result (m.withSink s)

end Progress

namespace Machine

variable {m : Machine} {s : Sink}

/-! ### Steps that print nothing -/

/-- Settling on a result does not write. -/
theorem settle_withSink (m : Machine) (s : Sink) (result : Except Fault Value) :
    (m.withSink s).settle result = (m.settle result).withSink s := by
  cases result <;> rfl

/-- Scheduling does not write. -/
theorem schedule_withSink (m : Machine) (s : Sink) (items : List ControlItem) :
    (m.withSink s).schedule items = (m.schedule items).withSink s := by
  obtain ⟨program, frames, values, line, environments, sink⟩ := m
  cases frames <;> rfl

/-- `Conc` does not write. -/
theorem applyConc_withSink (m : Machine) (s : Sink) (v : Value) :
    (m.withSink s).applyConc v = (m.applyConc v).withSink s := by
  have htake : (m.withSink s).takeItem = (m.takeItem.1, m.takeItem.2.withSink s) := by
    obtain ⟨program, frames, values, line, environments, sink⟩ := m
    match frames with
    | [] | { control := [], env := _ } :: _ | { control := _ :: _, env := _ } :: _ => rfl
  have hitem : (m.takeItem.2.withSink s).isApplication = m.takeItem.2.isApplication := by
    funext item
    cases item <;> rfl
  simp only [applyConc, htake, hitem]
  split
  · have hvalues : (m.takeItem.2.withSink s).values = m.takeItem.2.values := rfl
    rw [hvalues]
    cases m.takeItem.2.values with
    | nil => rfl
    | cons w values => exact settle_withSink { m.takeItem.2 with values } s _
  · exact settle_withSink ..

/-- An application of anything but `Print` does not depend on the sink. -/
theorem apply_withSink (m : Machine) (s : Sink) (id : Nat) {f : Value} (v : Value)
    (hf : f ≠ .builtin .print) : (m.withSink s).apply id f v = (m.apply id f v).withSink s := by
  cases f with
  | closure delta env =>
    simp only [apply]
    cases env.enter? delta.vars v with
    | none => rfl
    | some inner => rfl
  | eta delta env =>
    exact schedule_withSink { m with values := .closure delta env :: .eta delta env :: v :: m.values }
      s [.node id, .node id]
  | ystar => cases v <;> rfl
  | tuple elements => exact settle_withSink ..
  | builtin b =>
    have hsettle := settle_withSink m s (b.apply v)
    cases b with
    | conc => exact applyConc_withSink m s v
    | print => exact absurd rfl hf
    | _ => exact hsettle
  | _ => rfl

/-- Looking up a name does not write. -/
theorem identifier_withSink (m : Machine) (s : Sink) (name : String) :
    (m.withSink s).identifier name = (m.identifier name).withSink s := by
  have henv : (m.withSink s).env = m.env := rfl
  simp only [identifier, henv]
  cases m.env.lookup? name with
  | some v => rfl
  | none => cases Builtin.ofName? name <;> rfl

/-- Taking one value does not write, if the operation on it does not. -/
theorem unary_withSink {operation : Machine → Value → Progress} (m : Machine) (s : Sink)
    (h : ∀ (m : Machine) v, operation (m.withSink s) v = (operation m v).withSink s) :
    (m.withSink s).unary operation = (m.unary operation).withSink s := by
  obtain ⟨program, frames, values, line, environments, sink⟩ := m
  cases values with
  | nil => rfl
  | cons v values => exact h { program, frames, values, line, environments, sink } v

/-- Gathering a tuple does not write. -/
theorem gather_withSink (m : Machine) (s : Sink) (count : Nat) :
    (m.withSink s).gather count = (m.gather count).withSink s := by
  have hvalues : (m.withSink s).values = m.values := rfl
  simp only [gather, hvalues]
  split <;> rfl

/-- A reduction that prints nothing does not depend on the sink. -/
theorem reduceNode_withSink (m : Machine) (s : Sink) (id : Nat)
    (h : m.program.arena.kind id = .gamma → ∀ v vs, m.values ≠ .builtin .print :: v :: vs) :
    (m.withSink s).reduceNode id = (m.reduceNode id).withSink s := by
  generalize hlabel : m.program.arena.label id = l
  have hgamma : l.kind = .gamma → ∀ v vs, m.values ≠ .builtin .print :: v :: vs := hlabel ▸ h
  have hvalues : m.values = { m with line := l.line }.values := rfl
  rw [hvalues] at hgamma
  -- from here on, the machine is the one that remembers the line of the node
  have hlabel' : (m.withSink s).program.arena.label id = l := hlabel
  have hchildren : (m.withSink s).program.arena.children id = m.program.arena.children id := rfl
  have hline : { m.withSink s with line := l.line } = { m with line := l.line }.withSink s := rfl
  simp only [reduceNode, hlabel, hlabel', hchildren, hline]
  generalize { m with line := l.line } = m at hgamma
  cases hl : l.kind with
  | identifier => exact identifier_withSink m s l.content
  | integer => exact settle_withSink m s _
  | tau => exact gather_withSink m s _
  | gamma =>
    obtain ⟨program, frames, values, line, environments, sink⟩ := m
    rcases values with _ | ⟨f, _ | ⟨v, vs⟩⟩
    · rfl
    · rfl
    · exact apply_withSink { program, frames, values := vs, line, environments, sink } s id v
        fun hf => hgamma hl v vs (hf ▸ rfl)
  | binary op =>
    obtain ⟨program, frames, values, line, environments, sink⟩ := m
    rcases values with _ | ⟨v, _ | ⟨w, vs⟩⟩
    · rfl
    · rfl
    · exact settle_withSink { program, frames, values := vs, line, environments, sink } s _
  | not => exact unary_withSink m s fun m v => settle_withSink m s _
  | neg => exact unary_withSink m s fun m v => settle_withSink m s _
  | _ => rfl

/-- A conditional does not write. -/
theorem choose_withSink (m : Machine) (s : Sink) (b : Beta) :
    (m.withSink s).choose b = (m.choose b).withSink s := by
  refine unary_withSink { m with line := b.line } s fun m v => ?_
  cases v with
  | truth b' =>
    cases b' with
    | true => exact schedule_withSink m s b.whenTrue.reverse
    | false => exact schedule_withSink m s b.whenFalse.reverse
  | _ => rfl

/-- A step that prints nothing does not depend on the sink. -/
theorem step_withSink (s : Sink) (h : m.printed? = none) :
    (m.withSink s).step = m.step.withSink s := by
  obtain ⟨program, frames, values, line, environments, sink⟩ := m
  match frames with
  | [] =>
    match values with
    | [] | [_] | _ :: _ :: _ => rfl
  | { control := [], env } :: fs => rfl
  | { control := .node id :: control, env } :: fs =>
    let m : Machine :=
      { program, frames := { control, env } :: fs, values, line, environments, sink }
    refine reduceNode_withSink m s id fun hgamma v vs hvalues => ?_
    have hvalues : values = .builtin .print :: v :: vs := hvalues
    have hgamma : program.arena.kind id = .gamma := hgamma
    -- an application of `Print` would print
    simp [printed?, hvalues, hgamma] at h
  | { control := .delta index :: control, env } :: fs => rfl
  | { control := .beta index :: control, env } :: fs =>
    let m : Machine :=
      { program, frames := { control, env } :: fs, values, line, environments, sink }
    exact choose_withSink m s (program.control.beta index)

/-- A step that prints goes on if the text fits into the sink, and halts otherwise. -/
theorem step_withSink_of_printed? {v : Value} (h : m.printed? = some v) :
    ∃ m₁ m₂ : Machine, ∀ s, (m.withSink s).step =
      if (s.write (Text.expandEscapes v.render)).1 then
        .running (m₁.withSink (s.write (Text.expandEscapes v.render)).2)
      else
        .halted (.error .outputFull) (m₂.withSink (s.write (Text.expandEscapes v.render)).2) := by
  obtain ⟨program, frames, values, line, environments, sink⟩ := m
  simp only [Machine.printed?] at h
  split at h
  · next id control env fs v' vs =>
    split at h
    · next hgamma =>
      obtain rfl := Option.some.inj h
      have hkind : (program.arena.label id).kind = .gamma := hgamma
      -- the machine when the text is written, with or without room for it
      let m₂ : Machine :=
        { program, frames := { control, env } :: fs, values := vs
          line := (program.arena.label id).line, environments, sink }
      refine ⟨{ m₂ with values := .dummy :: vs }, m₂, fun s => ?_⟩
      simp only [step, withSink, reduce, reduceNode, hkind]
      rfl
    · cases h
  · cases h

/-! ### A limited and an unlimited sink -/

/-- The machine with a sink for `n` bytes to which the same was to be written. -/
def limited (n : Nat) (m : Machine) : Machine :=
  m.withSink (.limited n m.sink.written)

end Machine

/-- The run of a machine with a sink for `n` bytes to which the same was to be written. -/
def Progress.limited (n : Nat) : Progress → Progress
  | running m => running (m.limited n)
  | halted result m => halted result (m.limited n)

namespace Machine

variable {m : Machine} {n : Nat}

/-- The text that the next step prints. -/
def printedText (m : Machine) : String :=
  (m.printed?.map fun v => Text.expandEscapes v.render).getD ""

/-- The sink of a machine is the one it has. -/
theorem withSink_sink (m : Machine) : m.withSink m.sink = m := rfl

/-- A step of a machine without a limit adds the text that it prints to the output. -/
theorem sink_step (h : m.sink.room = none) : m.step.machine.sink =
    { written := m.sink.written ++ m.printedText.toUTF8, room := none } := by
  cases hprinted : m.printed? with
  | none =>
    have hstep := step_withSink m.sink hprinted
    have hsink (r : Progress) : (r.withSink m.sink).machine.sink = m.sink := by
      cases r <;> rfl
    rw [withSink_sink] at hstep
    rw [hstep, hsink, printedText, hprinted, ← h]
    show m.sink = { m.sink with written := m.sink.written ++ ByteArray.empty }
    rw [ByteArray.append_empty]
  | some v =>
    obtain ⟨m₁, m₂, hstep⟩ := step_withSink_of_printed? hprinted
    have hstep := hstep m.sink
    rw [withSink_sink, Sink.write_of_room_eq_none h] at hstep
    rw [hstep, printedText, hprinted]
    rfl

/-- With room for everything, a step appends the text it prints. -/
theorem output_step (h : m.sink.room = none) :
    m.step.output = m.sink.written ++ m.printedText.toUTF8 := by
  rw [Progress.output, sink_step h]

/-- As long as the output fits, the machine with a limit takes the same step. -/
theorem step_limited (hroom : m.sink.room = none) (hfits : m.step.output.size ≤ n) :
    (m.limited n).step = m.step.limited n := by
  have houtput := output_step hroom
  rw [houtput] at hfits
  have hwritten : m.sink.written.size ≤ n := by
    rw [ByteArray.size_append] at hfits
    omega
  cases hprinted : m.printed? with
  | none =>
    -- neither machine writes
    have hkeeps := step_withSink m.sink hprinted
    rw [withSink_sink] at hkeeps
    rw [limited, step_withSink _ hprinted, hkeeps]
    cases m.step <;> rfl
  | some v =>
    obtain ⟨m₁, m₂, hstep⟩ := step_withSink_of_printed? hprinted
    -- both machines write the same text, and it fits into both sinks
    have hfree := hstep m.sink
    rw [printedText, hprinted] at hfits
    have hfits : (m.sink.written ++ (Text.expandEscapes v.render).toUTF8).size ≤ n := hfits
    rw [withSink_sink, Sink.write_of_room_eq_none hroom] at hfree
    rw [limited, hstep, Sink.write_limited hwritten, hfree]
    simp only [hfits, decide_true, if_true]
    rfl

/-- If the text that is printed does not fit any longer, the machine with a limit halts, and keeps
    what fits. -/
theorem step_limited_of_printed? {v : Value} (hprinted : m.printed? = some v)
    (hfits : m.sink.written.size ≤ n)
    (hfull : n < (m.sink.written ++ (Text.expandEscapes v.render).toUTF8).size) :
    ∃ last : Machine, (m.limited n).step = .halted (.error .outputFull) last ∧
      last.sink = .limited n (m.sink.written ++ (Text.expandEscapes v.render).toUTF8) := by
  obtain ⟨m₁, m₂, hstep⟩ := step_withSink_of_printed? hprinted
  refine ⟨m₂.withSink (.limited n (m.sink.written ++ (Text.expandEscapes v.render).toUTF8)), ?_, rfl⟩
  rw [limited, hstep, Sink.write_limited hfits]
  simp only [Nat.not_le.2 hfull, decide_false, Bool.false_eq_true, if_false]

/-! ### Runs -/

/-- A step without a limit leaves the sink without one. -/
theorem sink_of_step_eq {m₁ : Machine} (hroom : m.sink.room = none) (h : m.step = .running m₁) :
    m₁.sink = { written := m.sink.written ++ m.printedText.toUTF8, room := none } := by
  rw [← sink_step hroom, h]
  rfl

/-- What a machine without a limit has printed stays the beginning of what it prints. -/
theorem output_runFor (k : Nat) (hroom : m.sink.room = none) :
    ∃ more, (m.runFor k).output = m.sink.written ++ more := by
  induction k generalizing m with
  | zero => exact ⟨.empty, ByteArray.append_empty.symm⟩
  | succ k ih =>
    cases hstep : m.step with
    | running m₁ =>
      have hsink := sink_of_step_eq hroom hstep
      obtain ⟨more, hmore⟩ := ih (m := m₁) (by rw [hsink])
      refine ⟨m.printedText.toUTF8 ++ more, ?_⟩
      rw [runFor_succ_of_step_eq k hstep, hmore, hsink, ByteArray.append_assoc]
    | halted result m₁ =>
      rw [runFor_succ_of_step_eq_halted k hstep]
      exact ⟨_, output_step hroom⟩

/-- The output of a run without a limit only grows. -/
theorem output_runFor_add (j i : Nat) (hroom : m.sink.room = none) :
    ∃ more, (m.runFor (j + i)).output = (m.runFor j).output ++ more := by
  induction j generalizing m with
  | zero =>
    rw [Nat.zero_add]
    exact output_runFor i hroom
  | succ j ih =>
    rw [Nat.succ_add]
    cases hstep : m.step with
    | running m₁ =>
      rw [runFor_succ_of_step_eq _ hstep, runFor_succ_of_step_eq j hstep]
      exact ih (by rw [sink_of_step_eq hroom hstep])
    | halted result m₁ =>
      rw [runFor_succ_of_step_eq_halted _ hstep, runFor_succ_of_step_eq_halted j hstep]
      exact ⟨.empty, ByteArray.append_empty.symm⟩

/-- As long as the output fits, the machine with a limit runs alike. -/
theorem runFor_limited (k : Nat) (hroom : m.sink.room = none)
    (hfits : (m.runFor k).output.size ≤ n) : (m.limited n).runFor k = (m.runFor k).limited n := by
  induction k generalizing m with
  | zero => rfl
  | succ k ih =>
    -- what the first step prints is where the whole output begins
    have hfirst : m.step.output.size ≤ n := by
      obtain ⟨more, hmore⟩ := output_runFor_add 1 k hroom
      rw [Nat.add_comm, hmore, runFor_one, ByteArray.size_append] at hfits
      omega
    cases hstep : m.step with
    | running m₁ =>
      have hlimited : (m.limited n).step = .running (m₁.limited n) := by
        rw [step_limited hroom hfirst, hstep, Progress.limited]
      rw [runFor_succ_of_step_eq k hstep] at hfits ⊢
      rw [runFor_succ_of_step_eq k hlimited]
      exact ih (by rw [sink_of_step_eq hroom hstep]) hfits
    | halted result m₁ =>
      have hlimited : (m.limited n).step = .halted result (m₁.limited n) := by
        rw [step_limited hroom hfirst, hstep, Progress.limited]
      rw [runFor_succ_of_step_eq_halted k hstep, runFor_succ_of_step_eq_halted k hlimited,
        step_limited hroom hfirst]

/-- A step that lengthens the output of a machine without a limit prints a value. -/
theorem exists_printed? (hroom : m.sink.room = none)
    (hlt : m.sink.written.size < m.step.output.size) : ∃ v, m.printed? = some v ∧
      m.step.output = m.sink.written ++ (Text.expandEscapes v.render).toUTF8 := by
  rw [output_step hroom, printedText] at hlt ⊢
  cases hprinted : m.printed? with
  | none =>
    rw [hprinted, ByteArray.size_append] at hlt
    exact absurd hlt (Nat.lt_irrefl _)
  | some v => exact ⟨v, rfl, rfl⟩

/-- The text that `v` prints after `k` steps is the first one that does not fit into `n` bytes. The
    machine `bound`, which has room for `n` bytes, halts with what fits of it. -/
structure CutsOff (free bound : Machine) (n k : Nat) (next : Machine) (v : Value) (last : Machine) :
    Prop where
  /-- Both machines come to the same state. -/
  runFor_free : free.runFor k = .running next
  runFor_bound : bound.runFor k = .running (next.limited n)
  /-- The next step prints `v`. -/
  printed : next.printed? = some v
  fits : next.sink.written.size ≤ n
  full : n < (next.sink.written ++ (Text.expandEscapes v.render).toUTF8).size
  output_free : (free.runFor (k + 1)).output =
    next.sink.written ++ (Text.expandEscapes v.render).toUTF8
  halted : bound.runFor (k + 1) = .halted (.error .outputFull) last
  kept : last.sink.written =
    (next.sink.written ++ (Text.expandEscapes v.render).toUTF8).extract 0 n

/-- If the output does not fit, there is a first text that does not. The induction is on the number
    of steps. -/
theorem exists_cutsOff (k : Nat) (hroom : m.sink.room = none) (hfits : m.sink.written.size ≤ n)
    (hlt : n < (m.runFor k).output.size) :
    ∃ j < k, ∃ next v last, CutsOff m (m.limited n) n j next v last := by
  induction k generalizing m with
  | zero => exact absurd hlt (Nat.not_lt.2 hfits)
  | succ k ih =>
    rcases Nat.lt_or_ge n m.step.output.size with hcut | hfirst
    · -- the text of this step is the one
      obtain ⟨v, hprinted, houtput⟩ := exists_printed? hroom (Nat.lt_of_le_of_lt hfits hcut)
      have hcut := houtput ▸ hcut
      obtain ⟨last, hhalted, hsink⟩ := step_limited_of_printed? hprinted hfits hcut
      exact ⟨0, k.succ_pos, m, v, last, {
        runFor_free := rfl
        runFor_bound := rfl
        printed := hprinted
        fits := hfits
        full := hcut
        output_free := (congrArg Progress.output (runFor_one m)).trans houtput
        halted := (runFor_succ_of_step_eq_halted 0 hhalted).trans hhalted
        kept := congrArg Sink.written hsink }⟩
    · cases hstep : m.step with
      | running m₁ =>
        have hlimited : (m.limited n).step = .running (m₁.limited n) := by
          rw [step_limited hroom hfirst, hstep, Progress.limited]
        have hroom₁ : m₁.sink.room = none := by rw [sink_of_step_eq hroom hstep]
        rw [hstep] at hfirst
        rw [runFor_succ_of_step_eq k hstep] at hlt
        obtain ⟨j, hj, next, v, last, h⟩ := ih hroom₁ hfirst hlt
        exact ⟨j + 1, Nat.succ_lt_succ hj, next, v, last, {
          h with
          runFor_free := (runFor_succ_of_step_eq j hstep).trans h.runFor_free
          runFor_bound := (runFor_succ_of_step_eq j hlimited).trans h.runFor_bound
          output_free :=
            (congrArg Progress.output (runFor_succ_of_step_eq (j + 1) hstep)).trans h.output_free
          halted := (runFor_succ_of_step_eq (j + 1) hlimited).trans h.halted }⟩
      | halted result m₁ =>
        rw [runFor_succ_of_step_eq_halted k hstep] at hlt
        exact absurd hlt (Nat.not_lt.2 hfirst)

/-- What is kept with a limit is the beginning of what is printed without one, after any number of
    steps. -/
theorem output_runFor_limited (k : Nat) (hroom : m.sink.room = none)
    (hfits : m.sink.written.size ≤ n) :
    ((m.limited n).runFor k).output = (m.runFor k).output.extract 0 n := by
  rcases Nat.lt_or_ge n (m.runFor k).output.size with hlt | hle
  · obtain ⟨j, hj, next, v, last, h⟩ := exists_cutsOff k hroom hfits hlt
    obtain ⟨i, rfl⟩ := Nat.exists_eq_add_of_le hj
    obtain ⟨more, hmore⟩ := output_runFor_add (j + 1) i hroom
    have hempty : more.extract 0 (n - (m.runFor (j + 1)).output.size) = .empty := by
      refine ByteArray.extract_eq_empty_iff.2 ?_
      rw [h.output_free]
      have := h.full
      omega
    rw [runFor_add_of_halted i h.halted, hmore, ByteArray.extract_append, Nat.zero_sub, hempty,
      ByteArray.append_empty, h.output_free]
    exact h.kept
  · rw [runFor_limited k hroom hle]
    cases m.runFor k <;> rfl

/-- The number of bytes that are printed, if there is an end to it. -/
noncomputable def outputLength (m : Machine) : ℕ∞ :=
  ⨆ k, ((m.runFor k).output.size : ℕ∞)

/-- The output is longer than `n` if it is so after some number of steps. -/
theorem lt_outputLength_iff {n : Nat} :
    n < m.outputLength ↔ ∃ k, n < (m.runFor k).output.size := by
  simp only [outputLength, lt_iSup_iff, Nat.cast_lt]

end Machine

namespace Program

/-- With room for `n` bytes, a program prints the first `n` bytes that it would print without a
    limit. If that is all, it runs alike; otherwise it halts where the first text does not fit. -/
theorem run_limited (p : Program) (n : Nat) :
    let free := Machine.start p (Sink.withRoom none)
    let bound := Machine.start p (Sink.withRoom (some n))
    (∀ k, (bound.runFor k).output = (free.runFor k).output.extract 0 n) ∧
    bound.outputLength = min ↑n free.outputLength ∧
    (free.outputLength ≤ n → ∀ k, (bound.runFor k).result? = (free.runFor k).result?) ∧
    (n < free.outputLength → ∃ k next v last, Machine.CutsOff free bound n k next v last) := by
  intro free bound
  -- nothing is written at the start, so that the limit can be put on the free machine
  have hbound : free.limited n = bound :=
    congrArg (free.withSink ·) (Sink.limited_empty n)
  have hfits : free.sink.written.size ≤ n := Nat.zero_le n
  have houtput (k : Nat) := Machine.output_runFor_limited (m := free) k rfl hfits
  rw [hbound] at houtput
  refine ⟨houtput, ?_, fun hle k => ?_, fun hlt => ?_⟩
  · have hsize (k : Nat) :
        ((bound.runFor k).output.size : ℕ∞) = ↑n ⊓ ↑(free.runFor k).output.size := by
      rw [houtput, ByteArray.size_extract, Nat.sub_zero]
      exact Nat.mono_cast.map_min
    -- the bounded output is as long as the shorter of the two at every step, and so in the end
    exact (iSup_congr hsize).trans (inf_iSup_eq ..).symm
  · have hle : (free.runFor k).output.size ≤ n := by
      exact_mod_cast (le_iSup _ k).trans hle
    rw [← hbound, Machine.runFor_limited k rfl hle]
    cases free.runFor k <;> rfl
  · obtain ⟨k, hk⟩ := Machine.lt_outputLength_iff.1 hlt
    obtain ⟨j, -, hcut⟩ := Machine.exists_cutsOff k rfl hfits hk
    exact ⟨j, hbound ▸ hcut⟩

/-- Of two texts, only a part of the second one fits. -/
theorem run_limited_pair : ∃ p, Program.ofFile
      { name := "", start := 0, content := "(Print 'ab', Print 'cd')" } = .ok p ∧
    ∃ k next v last, Machine.CutsOff (Machine.start p (Sink.withRoom none))
      (Machine.start p (Sink.withRoom (some 3))) 3 k next v last := by
  generalize hf : { name := "", start := 0, content := _ : SourceFile } = f
  have hok : ((Program.ofFile f).map fun p =>
      ((Machine.start p (Sink.withRoom none)).runFor 100).output.size) = .ok 4 := by
    subst hf
    decide +kernel
  cases h : Program.ofFile f with
  | error e =>
    rw [h] at hok
    exact nomatch hok
  | ok p =>
    rw [h] at hok
    have hsize : ((Machine.start p (Sink.withRoom none)).runFor 100).output.size = 4 :=
      Except.ok.inj hok
    have hlt : 3 < ((Machine.start p (Sink.withRoom none)).runFor 100).output.size := by
      rw [hsize]
      decide
    exact ⟨p, rfl, (run_limited p 3).2.2.2 (Machine.lt_outputLength_iff.2 ⟨100, hlt⟩)⟩

end Program

end Rpal
