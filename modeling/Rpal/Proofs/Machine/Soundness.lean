import Rpal.Proofs.Machine.StackEffect
import Rpal.Proofs.Tree.Standard
import Rpal.Proofs.Value.Parts

/-!
# Soundness of the machine

A machine that evaluates a program built from source text never lacks an operand, never has values
left over, and never meets an item that it cannot reduce. The invariant is that the remaining items
of all frames, one frame after the other, take the values on the stack to a single value.

## Key results

- `step_sound`: a step keeps the machine balanced, or ends the evaluation properly
- `runFor_sound`: so does any number of steps
- `runFor_sound_of_ofFile`: the evaluation of a program from source text ends properly, if at all
-/

namespace Rpal

variable {ω : Type}

/-- The delta leaves exactly one value. -/
def Program.IsBody (p : Program) (d : Delta) : Prop :=
  p.Nets d.body.reverse [] [.value]

/-- What the values of a balanced machine are made of. The fixpoint finder is on the stack only as
    long as it takes to apply it. -/
def Program.parts (p : Program) : Parts Delta where
  ystar := False
  builtin _ := True
  code d _ := p.IsBody d

/-- The value can be what is known of it. -/
def Slot.Admits (p : Program) : Slot → Value → Prop
  | .value, v => v.MadeOf p.parts
  | .function, v => v.MadeOf p.parts ∧ ∃ d env, v = .closure d env
  | .ystar, v => v = .ystar

/-- A program can cause the error. The others are defects of a program's code. -/
def EvalErrorOf.IsExpected {φ : Type} : EvalErrorOf φ → Prop
  | .fault _ f => f.IsExpected
  | .outputFull => True
  | .stackUnderflow | .leftoverValues _ => False

namespace Machine

/-- The items of all frames, in the order in which they are reduced. -/
def remaining (m : Machine ω) : List ControlItem :=
  m.frames.flatMap Frame.control

/-- The machine evaluates `p`, and the values on its stack are as `slots` says. -/
structure Holds (p : Program) (slots : List Slot) (m : Machine ω) : Prop where
  program_eq : m.program = p
  env_parts : ∀ f ∈ m.frames, f.env.MadeOf p.parts
  admits : List.Forall₂ (Slot.Admits p) slots m.values

/-- Reducing the remaining items needs no operand that is not there and leaves one value. -/
def Balanced (p : Program) (m : Machine ω) : Prop :=
  ∃ slots, m.Holds p slots ∧ p.Nets m.remaining slots [.value]

/-- With one more value the machine is balanced. -/
def Awaits (p : Program) (slots : List Slot) (m : Machine ω) : Prop :=
  m.Holds p slots ∧ p.Nets m.remaining (.value :: slots) [.value]

end Machine

/-- The machine goes on and is balanced, or has halted with one value, or with an error that a
    program can cause. -/
def Progress.Sound (p : Program) : Progress ω → Prop
  | .running m => m.Balanced p
  | .halted (.ok result) m => (∃ v, result = some v) ∧ m.frames = [] ∧ m.values = []
  | .halted (.error e) _ => e.IsExpected

variable {p : Program} {slots : List Slot} {m : Machine ω}

/-- All that is known of a value allows it to be taken for any value, but for the fixpoint
    finder. -/
theorem Slot.Admits.madeOf {o : Slot} {v : Value} (h : o.Admits p v) (ho : o ≠ .ystar) :
    v.MadeOf p.parts := by
  cases o with
  | value => exact h
  | function => exact h.1
  | ystar => exact absurd rfl ho

/-- The fixpoint finder is not among the operands of a node. -/
theorem Slot.madeOf_of_admits {ops : List Slot} {vs : List Value}
    (h : List.Forall₂ (Slot.Admits p) ops vs) (hops : Slot.ystar ∉ ops) :
    ∀ v ∈ vs, v.MadeOf p.parts := by
  induction h with
  | nil => exact nofun
  | cons hv _ ih =>
    rw [List.mem_cons, not_or] at hops
    rw [List.forall_mem_cons]
    exact ⟨hv.madeOf (Ne.symm hops.1), ih hops.2⟩

namespace Machine

/-! ### Ends of a reduction -/

/-- A pushed value is the next one that the rest of the control asks for. -/
theorem Awaits.push {v : Value} (h : m.Awaits p slots) (hv : v.MadeOf p.parts) :
    (m.push v).Sound p :=
  ⟨.value :: slots, ⟨h.1.program_eq, h.1.env_parts, .cons hv h.1.admits⟩, h.2⟩

/-- The value that an operation settles on is pushed, and its fault is an expected one. -/
theorem Awaits.settle {result : Except Fault Value} (h : m.Awaits p slots)
    (hresult : Settles p.parts result) : (m.settle result).Sound p := by
  cases hresult with
  | ok hv => exact h.push hv
  | error hf => exact hf.isExpected

/-- The line and the output do not matter. -/
theorem Awaits.congr {m' : Machine ω} (h : m.Awaits p slots) (hprogram : m'.program = m.program)
    (hframes : m'.frames = m.frames) (hvalues : m'.values = m.values) : m'.Awaits p slots := by
  obtain ⟨⟨heq, hparts, hadmits⟩, hnets⟩ := h
  refine ⟨⟨hprogram.trans heq, hframes ▸ hparts, hvalues ▸ hadmits⟩, ?_⟩
  rwa [remaining, hframes]

/-- Items that are to be reduced next find their operands. -/
theorem Holds.schedule {items : List ControlItem} {f : Frame} {fs : List Frame}
    (h : m.Holds p slots) (hframes : m.frames = f :: fs)
    (hnets : p.Nets (items ++ m.remaining) slots [.value]) : (m.schedule items).Sound p := by
  obtain ⟨heq, hparts, hadmits⟩ := h
  rw [remaining, hframes, List.flatMap_cons, ← List.append_assoc] at hnets
  rw [hframes, List.forall_mem_cons] at hparts
  simp only [Machine.schedule, hframes]
  exact ⟨slots, ⟨heq, List.forall_mem_cons.2 hparts, hadmits⟩, hnets⟩

/-! ### Application -/

/-- A caller is a frame. -/
theorem mem_frames_of_mem_callers {f : Frame} (h : f ∈ m.callers) : f ∈ m.frames := by
  rw [callers] at h
  split at h
  · exact nomatch h
  · next hframes =>
    rw [hframes]
    split at h
    · exact List.mem_cons_of_mem _ h
    · exact h

/-- A frame makes room for another only if it has no items. -/
theorem flatMap_callers : m.callers.flatMap Frame.control = m.remaining := by
  rw [callers, remaining]
  split
  · next hframes => rw [hframes]
  · next hframes =>
    rw [hframes]
    split
    · next hempty => rw [List.flatMap_cons, List.isEmpty_iff.1 hempty, List.nil_append]
    · rfl

/-- The body of a function leaves the value that is awaited. -/
theorem Awaits.enter {d : Delta} {env : Env} (h : m.Awaits p slots) (hd : p.IsBody d)
    (henv : env.MadeOf p.parts) : (m.enter d env).Sound p := by
  obtain ⟨⟨heq, hparts, hadmits⟩, hnets⟩ := h
  have hbody := (hd.frame_value slots).append hnets
  refine ⟨slots, ⟨heq, ?_, hadmits⟩, ?_⟩
  · exact List.forall_mem_cons.2 ⟨henv, fun f hf => hparts f (mem_frames_of_mem_callers hf)⟩
  · rwa [remaining, List.flatMap_cons, flatMap_callers]

/-- `Conc` finds a second operand for the application that it takes. -/
theorem Awaits.applyConc {v : Value} (h : m.Awaits p slots) : (m.applyConc v).Sound p := by
  have halone : (m.settle (Builtin.conc.apply v)).Sound p := trivial
  obtain ⟨⟨heq, hparts, hadmits⟩, hnets⟩ := h
  rw [Machine.applyConc]
  match hframes : m.frames with
  | [] | { control := [], env := _ } :: fs =>
    simp only [takeItem, hframes, Option.any_none, Bool.false_eq_true, if_false]
    exact halone
  | { control := item :: control, env } :: fs =>
    simp only [takeItem, hframes, Option.any_some]
    split
    · next happ =>
      rw [remaining, hframes, List.flatMap_cons, List.cons_append] at hnets
      cases item with
      | delta | beta => exact nomatch happ
      | node id =>
        have hk : p.arena.kind id = .gamma := by simpa [isApplication, heq] using happ
        generalize hs : Slot.value :: slots = s at hnets
        cases hnets with
        | fixpoint => exact nomatch hs
        | ystar hy => exact nomatch hk.symm.trans hy
        | @node _ ops _ below _ harity hops hnets =>
          -- the slots say that the operand of the application taken is on the stack
          have hlen : ops.length = 2 := by simpa [Program.arity?, hk, eq_comm] using harity
          match ops, hlen with
          | [o, o'], _ =>
            simp only [List.cons_append, List.nil_append, List.cons.injEq] at hs
            obtain ⟨rfl, rfl⟩ := hs
            cases hvalues : m.values with
            | nil =>
              rw [hvalues] at hadmits
              exact nomatch hadmits
            | cons w values =>
              rw [hvalues] at hadmits
              rw [hframes, List.forall_mem_cons] at hparts
              obtain - | ⟨-, hadmits⟩ := hadmits
              have hawaits : Awaits p below
                  { m with frames := { control, env } :: fs, values } :=
                ⟨⟨heq, List.forall_mem_cons.2 hparts, hadmits⟩, hnets⟩
              exact hawaits.settle (v.joined_settles _ w)
    · exact halone

/-- A built-in takes one value and leaves one, or fails with an expected error. -/
theorem Awaits.applyBuiltin [OutputWriter ω] {b : Builtin} {v : Value} (h : m.Awaits p slots) :
    (m.applyBuiltin b v).Sound p := by
  cases b with
  | conc => exact h.applyConc
  | print =>
    simp only [Machine.applyBuiltin, applyPrint]
    generalize OutputWriter.write m.sink (Text.expandEscapes v.render) = written
    have h' : Awaits p slots { m with sink := written.2 } := h.congr rfl rfl rfl
    split
    · exact h'.settle (Builtin.apply_settles _ _ v)
    · exact trivial
  | _ =>
    simp only [Machine.applyBuiltin]
    exact h.settle (Builtin.apply_settles _ _ v)

/-- The application of a value to another leaves the value that is awaited. -/
theorem Awaits.apply [OutputWriter ω] {id : Nat} {f v : Value} {g : Frame} {gs : List Frame}
    (h : m.Awaits p slots) (hframes : m.frames = g :: gs) (hid : p.arena.kind id = .gamma)
    (hf : f.MadeOf p.parts) (hv : v.MadeOf p.parts) : (m.apply id f v).Sound p := by
  cases f with
  | closure d env =>
    simp only [Machine.apply]
    split
    · next hinner => exact h.enter hf.1 (hf.2.enter? hv hinner)
    · exact trivial
  | eta d env =>
    obtain ⟨⟨heq, hparts, hadmits⟩, hnets⟩ := h
    -- the two applications take the function, its fixpoint and the argument
    have harity : p.arity? id = some [Slot.value, .value].length := by
      simp only [Program.arity?, hid, List.length_cons, List.length_nil]
    have hops : Slot.ystar ∉ [Slot.value, .value] := by decide
    have hcode : p.Nets ([.node id, .node id] ++ m.remaining)
        (.value :: .value :: .value :: slots) [.value] :=
      .node harity hops (.node (s := slots) harity hops hnets)
    have hholds : Holds p (.value :: .value :: .value :: slots)
        { m with values := .closure d env :: .eta d env :: v :: m.values } :=
      ⟨heq, hparts, .cons hf (.cons hf (.cons hv hadmits))⟩
    exact hholds.schedule hframes hcode
  | ystar => exact hf.elim
  | tuple elements => exact h.settle (ValueOf.element_settles (ValueOf.allMadeOf_iff.1 hf) v)
  | builtin b => exact h.applyBuiltin
  | integer | string | truth | dummy => exact trivial

/-! ### Reductions -/

/-- The operands of a node are on the stack. -/
theorem Holds.operands {ops : List Slot} (h : m.Holds p (ops ++ slots)) (hops : Slot.ystar ∉ ops) :
    ∃ vs values, m.values = vs ++ values ∧ vs.length = ops.length ∧
      (∀ v ∈ vs, v.MadeOf p.parts) ∧ List.Forall₂ (Slot.Admits p) slots values := by
  have hvs := List.forall₂_take ops.length h.admits
  have hvalues := List.forall₂_drop ops.length h.admits
  rw [List.take_left] at hvs
  rw [List.drop_left] at hvalues
  exact ⟨_, _, (List.take_append_drop ..).symm, hvs.length_eq.symm,
    Slot.madeOf_of_admits hvs hops, hvalues⟩

/-- A name leaves the value it is bound to, or is reported as undeclared. -/
theorem Awaits.identifier {name : String} (h : m.Awaits p slots) :
    (m.identifier name).Sound p := by
  have henv : m.env.MadeOf p.parts := by
    rw [env]
    split
    · exact trivial
    · next hframes => exact h.1.env_parts _ (hframes ▸ List.mem_cons_self)
  rw [Machine.identifier]
  split
  · next hv => exact h.push (henv.lookup? hv)
  · split
    · exact h.push trivial
    · exact trivial

/-- The fixpoint finder is applied to the function under it. -/
theorem Holds.applyFixpoint [OutputWriter ω] {id : Nat}
    (h : m.Holds p (.ystar :: .function :: slots))
    (hnets : p.Nets m.remaining (.value :: slots) [.value]) :
    (m.binary fun m f v => m.apply id f v).Sound p := by
  obtain ⟨heq, hparts, hadmits⟩ := h
  match hvalues : m.values, hadmits with
  | y :: f :: vs, .cons hy (.cons hf hadmits) =>
    obtain rfl : y = .ystar := hy
    obtain ⟨hv, d, env, rfl⟩ := hf
    have hawaits : Awaits p slots { m with values := vs } := ⟨⟨heq, hparts, hadmits⟩, hnets⟩
    simp only [binary, hvalues, Machine.apply]
    exact hawaits.push hv

/-- A node takes its operands and leaves a value. -/
theorem Holds.reduceNode [OutputWriter ω] {id : Nat} {g : Frame} {gs : List Frame}
    (h : m.Holds p slots) (hframes : m.frames = g :: gs)
    (hnets : p.Nets (.node id :: m.remaining) slots [.value]) : (m.reduceNode id).Sound p := by
  have hkind : (m.program.arena.label id).kind = p.arena.kind id := by
    rw [h.program_eq]
    rfl
  cases hnets with
  | ystar hk hnets =>
    simp only [Machine.reduceNode, hkind, hk]
    have hy : Slot.ystar.Admits p .ystar := rfl
    exact ⟨_, ⟨h.program_eq, h.env_parts, .cons hy h.admits⟩, hnets⟩
  | fixpoint hk hnets =>
    simp only [Machine.reduceNode, hkind, hk]
    have h' : Holds p _ { m with line := (m.program.arena.label id).line } :=
      ⟨h.program_eq, h.env_parts, h.admits⟩
    exact h'.applyFixpoint hnets
  | @node _ ops _ below _ harity hops hnets =>
    obtain ⟨vs, values, hvalues, hlen, hvs, hbelow⟩ := h.operands hops
    rw [← hlen] at harity
    have hawaits : Awaits p below { m with line := (m.program.arena.label id).line, values } :=
      ⟨⟨h.program_eq, h.env_parts, hbelow⟩, hnets⟩
    -- a node without operands leaves the stack as it is
    have hleaf (hnil : 0 = vs.length) :
        Awaits p below { m with line := (m.program.arena.label id).line } :=
      hawaits.congr rfl rfl (by rw [hvalues, List.length_eq_zero_iff.1 hnil.symm, List.nil_append])
    simp only [Machine.reduceNode, hkind]
    -- the arity of the construct says how many operands there are, and rules out those without one
    cases hk : p.arena.kind id <;>
      simp only [Program.arity?, hk, Option.some.injEq, reduceCtorEq] at harity
    case identifier => exact (hleaf harity).identifier
    case integer => exact (hleaf harity).settle (FaultOf.orOverflow_settles _ _)
    case string | truth | nil | dummy => exact (hleaf harity).push trivial
    case not | neg =>
      match vs, harity with
      | [v], _ =>
        simp only [unary, hvalues, List.cons_append, List.nil_append]
        first
          | exact hawaits.settle (v.inverted_settles _)
          | exact hawaits.settle (v.negated_settles _)
    case binary op =>
      match vs, harity with
      | [l, r], _ =>
        simp only [List.forall_mem_cons] at hvs
        simp only [binary, hvalues, List.cons_append, List.nil_append]
        exact hawaits.settle (op.apply_settles hvs.1 hvs.2.1)
    case tau =>
      rw [h.program_eq, harity]
      simp only [gather, hvalues, List.length_append, Nat.le_add_right, if_true, List.drop_left,
        List.take_left]
      rw [h.program_eq] at hawaits
      exact hawaits.push (ValueOf.allMadeOf_iff.2 hvs)
    case gamma =>
      match vs, harity with
      | [f, v], _ =>
        simp only [List.forall_mem_cons] at hvs
        simp only [binary, hvalues, List.cons_append, List.nil_append]
        exact hawaits.apply hframes hk hvs.1 hvs.2.1

/-- A condition is followed by one of the branches. -/
theorem Holds.choose {j : Nat} {g : Frame} {gs : List Frame} (h : m.Holds p slots)
    (hframes : m.frames = g :: gs) (hnets : p.Nets (.beta j :: m.remaining) slots [.value]) :
    (m.choose (p.control.beta j)).Sound p := by
  obtain ⟨heq, hparts, hadmits⟩ := h
  cases hnets with
  | @beta _ o _ below _ ho htrue hfalse hnets =>
    cases hvalues : m.values with
    | nil =>
      rw [hvalues] at hadmits
      -- the item nets a value from an operand, so that the stack is not empty
      exact nomatch hadmits
    | cons v values =>
      rw [hvalues] at hadmits
      obtain - | ⟨-, hadmits⟩ := hadmits
      have hholds : Holds p below { m with line := (p.control.beta j).line, values } :=
        ⟨heq, hparts, hadmits⟩
      simp only [Machine.choose, unary, hvalues]
      split
      · exact hholds.schedule hframes ((htrue.frame_value below).append hnets)
      · exact hholds.schedule hframes ((hfalse.frame_value below).append hnets)
      · exact trivial

/-- The reduction of the next item finds its operands. -/
theorem Holds.reduce [OutputWriter ω] {item : ControlItem} {g : Frame} {gs : List Frame}
    (h : m.Holds p slots) (hframes : m.frames = g :: gs)
    (hnets : p.Nets (item :: m.remaining) slots [.value]) : (m.reduce item).Sound p := by
  cases item with
  | node id => exact h.reduceNode hframes hnets
  | beta j =>
    rw [Machine.reduce, h.program_eq]
    exact h.choose hframes hnets
  | delta k =>
    cases hnets with
    | @delta _ o _ _ _ ho hbody hnets =>
      -- what is awaited of a closure is a value or a function, which it is either way
      have hv : o.Admits p (.closure (p.control.delta k) m.env) := by
        have hparts : m.env.MadeOf p.parts := by
          rw [env, hframes]
          exact h.env_parts g (hframes ▸ List.mem_cons_self)
        cases o with
        | value => exact ⟨hbody, hparts⟩
        | function => exact ⟨⟨hbody, hparts⟩, _, _, rfl⟩
        | ystar => exact absurd rfl ho
      rw [Machine.reduce, h.program_eq]
      exact ⟨_, ⟨rfl, h.env_parts, .cons hv h.admits⟩, hnets⟩

/-! ### Running -/

/-- The program ends with exactly one value. -/
theorem Balanced.finish (h : m.Balanced p) (hframes : m.frames = []) : m.finish.Sound p := by
  obtain ⟨slots, ⟨-, -, hadmits⟩, hnets⟩ := h
  rw [remaining, hframes] at hnets
  cases hnets
  match hvalues : m.values, hadmits with
  | [v], _ =>
    simp only [Machine.finish, hvalues]
    exact ⟨⟨v, rfl⟩, hframes, rfl⟩

variable [OutputWriter ω]

/-- A step keeps a machine balanced, or ends the evaluation properly. -/
theorem step_sound (h : m.Balanced p) : m.step.Sound p := by
  rw [step.eq_def]
  split
  · next hframes => exact h.finish hframes
  · next fs hframes =>
    obtain ⟨slots, ⟨heq, hparts, hadmits⟩, hnets⟩ := h
    rw [hframes, List.forall_mem_cons] at hparts
    rw [remaining, hframes] at hnets
    exact ⟨slots, ⟨heq, hparts.2, hadmits⟩, hnets⟩
  · next item control e fs hframes =>
    obtain ⟨slots, ⟨heq, hparts, hadmits⟩, hnets⟩ := h
    rw [hframes, List.forall_mem_cons] at hparts
    rw [remaining, hframes] at hnets
    have hholds : Holds p slots { m with frames := { control, env := e } :: fs } :=
      ⟨heq, List.forall_mem_cons.2 hparts, hadmits⟩
    exact hholds.reduce rfl hnets

/-- Any number of steps keeps a machine balanced, or ends the evaluation properly. -/
theorem runFor_sound (n : Nat) (h : m.Balanced p) : (m.runFor n).Sound p := by
  induction n generalizing m with
  | zero => exact h
  | succ n ih =>
    have hstep := step_sound h
    rw [runFor]
    split
    · next hrunning =>
      rw [hrunning] at hstep
      exact ih hstep
    · next hhalted => rwa [hhalted] at hstep

end Machine

/-- A machine about to evaluate a program that is built from a tree is balanced. -/
theorem Program.start_balanced {t : Tree Label} (ht : Tree.IsSource .expression t)
    (hp : (Arena.ofTree t).program = .ok p) (sink : ω) : (Machine.start p sink).Balanced p := by
  have hcodes := (Program.codes_of_ofTree (.inl ⟨_, ht⟩) ht.standard hp).2
  have hstandard : Tree.IsStandard (t.standard.numbered.map Numbered.label) := by
    rw [Tree.map_label_numbered]
    exact ht.standard
  have hnets := nets_of_codes hcodes hstandard
  refine ⟨[], ⟨rfl, List.forall_mem_singleton.2 trivial, .nil⟩, ?_⟩
  rwa [Machine.remaining, Machine.start, List.flatMap_singleton]

/-- A program from source text is built from the tree of its tokens. -/
theorem Program.exists_of_ofFile {f : SourceFile} (h : Program.ofFile f = .ok p) :
    ∃ tokens t, f.tokens = .ok tokens ∧ Tree.ofTokens tokens = .ok t ∧
      (Arena.ofTree t).program = .ok p := by
  simp only [Program.ofFile, bind, Except.bind] at h
  cases htree : f.tree with
  | error e =>
    rw [htree] at h
    cases h
  | ok t =>
    rw [htree] at h
    obtain ⟨tokens, htokens, ht⟩ := SourceFile.exists_tokens_of_tree htree
    exact ⟨tokens, t, htokens, ht, h⟩

/-- The evaluation of a program from source text never lacks an operand, never leaves more or less
    than one value, and never meets an item that it cannot reduce. -/
theorem Program.runFor_sound_of_ofFile [OutputWriter ω] {f : SourceFile}
    (h : Program.ofFile f = .ok p) (sink : ω) (n : Nat) :
    ((Machine.start p sink).runFor n).Sound p := by
  obtain ⟨tokens, t, -, ht, hp⟩ := exists_of_ofFile h
  exact Machine.runFor_sound n (Program.start_balanced (Tree.isSource_of_ofTokens ht) hp sink)

/-- A program with a recursive function and a second operand for `Conc`. -/
theorem Program.runFor_sound_countdown : ∃ p, Program.ofFile
      { name := "", start := 0
        content := "let rec f n = n eq 0 -> '' | Conc 'a' (f (n - 1)) in Print (f 2)" } = .ok p ∧
    ((Machine.start p (Sink.withRoom none)).runFor 100).Sound p := by
  generalize hf : { name := "", start := 0, content := _ : SourceFile } = f
  have hok : (Program.ofFile f).isOk = true := by
    subst hf
    decide +kernel
  cases h : Program.ofFile f with
  | error e =>
    rw [h] at hok
    exact nomatch hok
  | ok p => exact ⟨p, rfl, runFor_sound_of_ofFile h _ _⟩

end Rpal
