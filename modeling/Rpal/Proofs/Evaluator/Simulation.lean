import Rpal.Proofs.Evaluator.Follows

/-!
# The machine evaluates the standardized tree

The machine reduces the code of a tree as the evaluator evaluates the tree. Applications are
followed up to a limit: a machine that follows an evaluation beyond the limit has taken at least as
many steps. An operator is reduced right before the item of its application, and so `Conc` finds the
operand that the evaluator passes along.

## Key results

- `follows_eval`: the code of a tree, given what applications do
- `applies_apply`: applications, by induction on the limit
- `follows_call`: the body of a function, in the environment of its call
-/

namespace Rpal

open Rpal.Tree

/-! ### Shapes of trees -/

/-- Every construct has as many operands as it is reduced with. -/
inductive Tree.IsShaped : Tree Numbered → Prop where
  | plain {a ts} : a.label.kind.admits ts.length = true → (∀ t ∈ ts, IsShaped t) →
      IsShaped (.node a ts)
  | lambda {a x e} : a.label.kind = .lambda → IsShaped e → IsShaped (.node a [x, e])

/-- The body of a lambda is shaped if the lambda is. -/
theorem Tree.IsShaped.body {a : Numbered} {x e : Tree Numbered} (h : IsShaped (.node a [x, e]))
    (ha : a.label.kind = .lambda) : e.IsShaped := by
  cases h with
  | plain hadmits _ =>
    rw [ha] at hadmits
    cases hadmits
  | lambda _ he => exact he

/-- An expression of the core language has the right shape, whatever numbers its lambdas have. -/
theorem Tree.IsCore.isShaped {u : Tree Numbered} (h : IsCore (u.map Numbered.label)) :
    u.IsShaped := by
  -- by size, because the shape is that of the tree without numbers
  induction hn : u.size using Nat.strongRecOn generalizing u with
  | ind n ih =>
    subst hn
    cases u with
    | node a us =>
      rw [Tree.map, mapAll_eq_map] at h
      generalize hts : us.map (Tree.map Numbered.label) = ts at h
      cases h with
      | plain hadmits hall =>
        subst hts
        rw [List.length_map] at hadmits
        refine .plain hadmits fun u hmem => ih u.size ?_ (List.forall_mem_map.1 hall u hmem) rfl
        have := size_le_sizeAll hmem
        rw [size]
        omega
      | lambda ha _ he =>
        obtain ⟨x, e, rfl, -, rfl⟩ := exists_of_map_eq_pair hts
        exact .lambda ha (ih e.size (by simp only [size, sizeAll]; omega) he rfl)

/-! ### Items that come next -/

/-- There is a next item, and it is no application, whatever comes later. -/
def Arena.Begins (a : Arena) (code : List ControlItem) : Prop :=
  code ≠ [] ∧ ∀ rest, a.NoApplication (code ++ rest)

/-- How code begins does not depend on what follows. -/
theorem Arena.Begins.append {a : Arena} {code : List ControlItem} (h : a.Begins code)
    (more : List ControlItem) : a.Begins (code ++ more) := by
  refine ⟨List.append_ne_nil_of_left_ne_nil h.1 more, fun rest => ?_⟩
  rw [List.append_assoc]
  exact h.2 (more ++ rest)

namespace Control

variable {a : Arena} {c : Control}

mutual

/-- The code of a tree does not begin with an application. -/
theorem Codes.begins {u : Tree Numbered} {code : List ControlItem} (h : Codes a c u code)
    (hu : u.IsShaped) : a.Begins code := by
  cases h with
  | lambda => exact ⟨List.cons_ne_nil _ _, fun _ => trivial⟩
  | conditional hl _ _ _ hp =>
    cases hu with
    | plain _ hus => exact (hp.begins (hus _ List.mem_cons_self)).append _
  | @plain l n ts id codes hlambda _ hid _ hcodes =>
    cases hu with
    | lambda hl => exact absurd hl hlambda
    | plain hadmits hus =>
      -- without children the item of the node itself comes first
      by_cases hts : ts = []
      · subst hts
        cases hcodes
        refine ⟨List.cons_ne_nil _ _, fun _ => ?_⟩
        intro hk
        rw [Arena.kind, hid] at hk
        simp only [hk] at hadmits
        cases hadmits
      · exact (hcodes.begins hts hus).append _

/-- The code of several trees begins as the code of the first one does. -/
theorem CodesAll.begins {us : List (Tree Numbered)} {codes : List ControlItem}
    (h : CodesAll a c us codes) (hne : us ≠ []) (hus : ∀ u ∈ us, u.IsShaped) : a.Begins codes := by
  cases h with
  | nil => exact absurd rfl hne
  | @cons u us code codes hu hs =>
    obtain ⟨hshaped, hus⟩ := List.forall_mem_cons.1 hus
    by_cases hnil : us = []
    · subst hnil
      cases hs
      exact hu.begins hshaped
    · exact (hs.begins hnil hus).append _

end

end Control

/-! ### States of the machine -/

/-- What the values of the evaluator are made of: functions whose deltas have the code of their
    bodies. -/
def Program.codes (p : Program) : Parts (Abstraction Numbered) where
  ystar := True
  builtin _ := True
  code c _ := (p.deltaOf c).index = c.label.number ∧ (p.deltaOf c).vars = c.vars ∧
    p.control.Codes p.arena c.body (p.deltaOf c).body.reverse ∧ c.body.IsShaped

/-- The operand that is passed along to a tree is on the stack if the next item applies the tree's
    value to it. Otherwise there is none. -/
inductive Program.Offers (p : Program) :
    Option (TreeValue Numbered) → List ControlItem → List Value → Prop where
  | none {rest vs} : p.arena.NoApplication rest → Offers p none rest vs
  | some {w id rest vs} : p.arena.kind id = .gamma → w.MadeOf p.codes →
      Offers p (some w) (.node id :: rest) (w.map p.deltaOf :: vs)

namespace Machine

/-- The machine evaluates `p` with these frames and values, and its sink has room for everything. -/
structure Has (p : Program) (frames : List Frame) (values : List Value) (m : Machine) : Prop where
  program_eq : m.program = p
  room_eq : m.sink.room = none
  frames_eq : m.frames = frames
  values_eq : m.values = values

/-- The machine has left the value `v`, and goes on with the frame `f` unless there is nothing left
    to do in it. -/
def Leaves (p : Program) (f : Frame) (fs : List Frame) (vs : List Value) (v : TreeValue Numbered)
    (m : Machine) : Prop :=
  v.MadeOf p.codes ∧ ∃ frames, m.Has p frames (v.map p.deltaOf :: vs) ∧
    (frames = f :: fs ∨ f.control = [] ∧ frames = fs)

/-- The machine has left a value. The item and the operand of the application around it are gone if
    they were taken. -/
def Returns (p : Program) (env : Env) (rest : List ControlItem) (fs : List Frame) (vs : List Value)
    (operand? : Option (TreeValue Numbered)) (r : TreeValue Numbered × Bool) (m : Machine) : Prop :=
  (r.2 = true → operand?.isSome) ∧
    m.Leaves p { control := rest.drop r.2.toNat, env } fs (vs.drop r.2.toNat) r.1

/-- The machine has left several values, the first on top. -/
def LeavesAll (p : Program) (f : Frame) (fs : List Frame) (vs : List Value) (count : Nat)
    (ws : List (TreeValue Numbered)) (m : Machine) : Prop :=
  (∀ w ∈ ws, w.MadeOf p.codes) ∧ ws.length = count ∧
    m.Has p (f :: fs) (ws.map (ValueOf.map p.deltaOf) ++ vs)

variable {p : Program} {env : Env} {rest : List ControlItem} {fs : List Frame} {vs : List Value}
  {m : Machine} {v : TreeValue Numbered} {taken : Bool}

/-- Without an operand, none is taken. -/
theorem Returns.leaves (h : m.Returns p env rest fs vs none (v, taken)) (hrest : rest ≠ []) :
    v.MadeOf p.codes ∧
      m.Has p ({ control := rest, env } :: fs) (v.map p.deltaOf :: vs) := by
  obtain ⟨htaken, hv, frames, hm, hframes⟩ := h
  have htaken : taken = false := by simpa using htaken
  subst htaken
  rcases hframes with rfl | ⟨hnil, -⟩
  · exact ⟨hv, hm⟩
  · exact absurd hnil hrest

end Machine

/-- What is assumed of applications. -/
def Applies (p : Program) (limit : Nat) (apply : Tree.Application Numbered) : Prop :=
  ∀ {m : Machine} {id : Nat} {l : Label} {env : Env} {rest : List ControlItem} {fs : List Frame}
    {vs : List Value} {f v : TreeValue Numbered} {operand? : Option (TreeValue Numbered)},
    p.arena.label id = l → l.kind = .gamma → f.MadeOf p.codes → v.MadeOf p.codes →
    p.Offers operand? rest vs →
    m.Has p ({ control := .node id :: rest, env } :: fs) (f.map p.deltaOf :: v.map p.deltaOf :: vs) →
    Follows p limit m (Machine.Returns p env rest fs vs operand?) (apply l.line f v operand?)

variable {p : Program} {limit : Nat} {apply : Tree.Application Numbered}
  {env : TreeEnv Numbered} {rest : List ControlItem} {fs : List Frame} {vs : List Value}
  {operand? : Option (TreeValue Numbered)} {m : Machine}

/-- The item of a lambda is reduced to a function in the environment of the frame. -/
theorem Machine.Has.step_delta {k : Nat} {env : Env}
    (hm : m.Has p ({ control := .delta k :: rest, env } :: fs) vs) :
    ∃ m₁ : Machine, m.step = .running m₁ ∧ m₁.sink = m.sink ∧
      m₁.Has p ({ control := rest, env } :: fs) (.closure (p.control.delta k) env :: vs) := by
  obtain ⟨hprogram, hroom, hframes, hvalues⟩ := hm
  have hstep := Machine.step_cons hframes
  rw [Machine.reduce, Machine.push] at hstep
  refine ⟨_, hstep, rfl, hprogram, hroom, rfl, ?_⟩
  simp only [hprogram, hvalues]
  rfl

/-- A lambda leaves its function. -/
theorem follows_lambda {a : Numbered} {x e : Tree Numbered} (ha : a.label.kind = .lambda)
    (hcode : p.codes.code ⟨a, x.boundNames, e⟩ env) (henv : env.MadeOf p.codes)
    (hm : m.Has p ({ control := .delta a.number :: rest, env := env.map p.deltaOf } :: fs) vs) :
    Follows p limit m (Machine.Returns p (env.map p.deltaOf) rest fs vs operand?)
      ((node a [x, e]).eval apply env operand?) := by
  obtain ⟨m₁, hstep, hsink, hm₁⟩ := hm.step_delta
  rw [eval_lambda ha]
  exact .after_silent (n := 1) ((m.runFor_one).trans hstep) hsink
    (.pure ⟨fun h => Bool.noConfusion h, ⟨hcode, henv⟩, _, hm₁, .inl rfl⟩)

/-- A construct that is no application leaves the value of an operation on its operands. -/
theorem follows_operate {l : Label} {id count : Nat} {ws : List (TreeValue Numbered)}
    (hid : p.arena.label id = l) (hchildren : (p.arena.children id).length = count)
    (hcount : ws.length = count)
    (hadmits : l.kind.admits count = true)
    (hcond : l.kind ≠ .conditional) (hgamma : l.kind ≠ .gamma) (henv : env.MadeOf p.codes)
    (hws : ∀ w ∈ ws, w.MadeOf p.codes)
    (hm : m.Has p ({ control := .node id :: rest, env := env.map p.deltaOf } :: fs)
      (ws.map (ValueOf.map p.deltaOf) ++ vs)) :
    Follows p limit m
      (fun v m' => v.MadeOf p.codes ∧
        m'.Has p ({ control := rest, env := env.map p.deltaOf } :: fs) (v.map p.deltaOf :: vs))
      (.settle l.line (l.operate env ws)) := by
  obtain ⟨hprogram, hroom, hframes, hvalues⟩ := hm
  subst hcount
  -- the operands are on the stack, where the machine takes them from
  have hreduce := Machine.reduceNode_eq_settle
    (m := { m with frames := { control := rest, env := env.map p.deltaOf } :: fs })
    (hprogram ▸ hid) (by rw [List.length_map]; exact hprogram ▸ hchildren)
    (by rwa [List.length_map]) hcond hgamma hvalues
  have hstep := (Machine.step_cons hframes).trans hreduce
  rw [show Machine.env { m with frames := { control := rest, env := env.map p.deltaOf } :: fs } =
    env.map p.deltaOf from rfl, Label.operate_map] at hstep
  exact .settle hstep rfl fun v hv =>
    ⟨Label.madeOf_of_operate henv hws (fun _ _ _ => trivial) (fun _ => trivial) hv,
      hprogram, hroom, rfl, rfl⟩

mutual

/-- The machine reduces the code of a tree as the tree is evaluated. -/
theorem follows_eval (happ : Applies p limit apply) (henv : env.MadeOf p.codes)
    {u : Tree Numbered} {code rest : List ControlItem} {vs : List Value}
    {operand? : Option (TreeValue Numbered)} {m : Machine} (hcode : p.control.Codes p.arena u code)
    (hu : u.IsShaped) (hoffers : p.Offers operand? rest vs)
    (hm : m.Has p ({ control := code ++ rest, env := env.map p.deltaOf } :: fs) vs) :
    Follows p limit m (Machine.Returns p (env.map p.deltaOf) rest fs vs operand?)
      (u.eval apply env operand?) := by
  cases hcode with
  | lambda hl hindex hvars _ he =>
    exact follows_lambda hl ⟨hindex, hvars, he, hu.body hl⟩ henv hm
  | @conditional l n e e₁ e₂ j code code₁ code₂ hl hbeta h₁ h₂ he =>
    cases hu with
    | plain _ hus =>
      simp only [List.forall_mem_cons] at hus
      rw [List.append_assoc] at hm
      -- no operand is offered to the condition, because the beta comes behind it
      have hnext : p.arena.NoApplication (.beta j :: rest) := trivial
      rw [eval_conditional hl]
      refine (follows_eval happ henv he hus.1 (.none hnext) hm).andThen ?_
      rintro ⟨v, taken⟩ m' hm'
      obtain ⟨hv, hprogram, hroom, hframes, hvalues⟩ := hm'.leaves (List.cons_ne_nil _ _)
      have hstep := Machine.step_cons hframes
      simp only [Machine.reduce, Machine.choose, Machine.unary, hvalues, hprogram, hbeta,
        List.reverse_reverse] at hstep
      cases v with
      | truth b =>
        cases b with
        | true =>
          refine .after_silent (n := 1) ((m'.runFor_one).trans hstep) rfl ?_
          exact follows_eval happ henv h₁ hus.2.1 hoffers ⟨rfl, hroom, rfl, rfl⟩
        | false =>
          refine .after_silent (n := 1) ((m'.runFor_one).trans hstep) rfl ?_
          exact follows_eval happ henv h₂ hus.2.2.1 hoffers ⟨rfl, hroom, rfl, rfl⟩
      | _ => exact .fail hstep rfl
  | @plain l n ts id codes hlambda hcond hid hlen hcodes =>
    cases hu with
    | lambda hl _ => exact absurd hl hlambda
    | plain hadmits hus =>
      have hkind : p.arena.kind id = l.kind := by rw [Arena.kind, hid]
      rw [List.append_assoc] at hm
      by_cases hgamma : l.kind = .gamma
      · -- the operand comes first, and then the operator right before the application
        rw [show (Numbered.mk l n).label.kind = .gamma from hgamma] at hadmits
        obtain ⟨e₁, e₂, rfl⟩ := List.length_eq_two.1 (of_decide_eq_true hadmits)
        simp only [List.forall_mem_cons] at hus
        obtain - | ⟨h₁, - | ⟨h₂, - | -⟩⟩ := hcodes
        rw [List.nil_append, List.append_assoc] at hm
        rw [eval_gamma hgamma]
        refine (follows_eval happ henv h₂ hus.2.1 (.none ((h₁.begins hus.1).2 _)) hm).andThen ?_
        rintro ⟨v, taken⟩ m₁ hm₁
        obtain ⟨hv, hm₁⟩ := hm₁.leaves ((h₁.begins hus.1).append _).1
        refine (follows_eval happ henv h₁ hus.1 (.some (hkind.trans hgamma) hv) hm₁).andThen ?_
        rintro ⟨f, taken⟩ m₂ ⟨-, hm₂⟩
        cases taken with
        | true => exact .pure ⟨fun h => Bool.noConfusion h, hm₂⟩
        | false =>
          obtain ⟨hf, frames, hm₂, rfl | ⟨hnil, -⟩⟩ := hm₂
          · exact happ hid hgamma hf hv hoffers hm₂
          · cases hnil
      · have hnext : p.arena.NoApplication (.node id :: rest) := fun h => hgamma (hkind.symm.trans h)
        rw [eval_plain hlambda hcond hgamma]
        refine (follows_evalAll happ henv hcodes hus (List.cons_ne_nil _ _) hnext hm).andThen ?_
        rintro ws m₁ ⟨hws, hcount, hm₁⟩
        refine (follows_operate hid hlen hcount hadmits hcond hgamma henv hws hm₁).andThen ?_
        rintro v m₂ ⟨hv, hm₂⟩
        exact .pure ⟨fun h => Bool.noConfusion h, hv, _, hm₂, .inl rfl⟩

/-- The machine reduces the code of several trees as they are evaluated. -/
theorem follows_evalAll (happ : Applies p limit apply) (henv : env.MadeOf p.codes)
    {us : List (Tree Numbered)} {codes rest : List ControlItem} {vs : List Value} {m : Machine}
    (hcodes : p.control.CodesAll p.arena us codes) (hus : ∀ u ∈ us, u.IsShaped) (hne : rest ≠ [])
    (hrest : p.arena.NoApplication rest)
    (hm : m.Has p ({ control := codes ++ rest, env := env.map p.deltaOf } :: fs) vs) :
    Follows p limit m
      (Machine.LeavesAll p { control := rest, env := env.map p.deltaOf } fs vs us.length)
      (evalAll apply env us) := by
  cases hcodes with
  | nil =>
    rw [evalAll]
    exact .pure ⟨List.forall_mem_nil _, rfl, hm⟩
  -- the last tree is evaluated first: its code is in front of that of the others
  | @cons u us code codes hu hs =>
    obtain ⟨hshaped, hus⟩ := List.forall_mem_cons.1 hus
    rw [List.append_assoc] at hm
    have hbegins := hu.begins hshaped
    rw [evalAll]
    refine (follows_evalAll happ henv hs hus (hbegins.append rest).1 (hbegins.2 rest) hm).andThen ?_
    rintro ws m' ⟨hws, hlen, hm'⟩
    refine (follows_eval happ henv hu hshaped (.none hrest) hm').andThen ?_
    rintro ⟨v, taken⟩ m'' hm''
    obtain ⟨hv, hm''⟩ := hm''.leaves hne
    exact .pure ⟨List.forall_mem_cons.2 ⟨hv, hws⟩, congrArg (· + 1) hlen, hm''⟩

end

/-! ### Applications -/

/-- An application that is an operation on values leaves its value. -/
theorem follows_settle (taken : Bool) {env : Env} {line : Nat} {m₁ : Machine}
    {result : Except (FaultOf (Abstraction Numbered)) (TreeValue Numbered)}
    (hstep : m.step = m₁.settle (mapResult p.deltaOf result)) (hline : m₁.line = line)
    (hsink : m₁.sink = m.sink)
    (hm : m₁.Has p ({ control := rest.drop taken.toNat, env } :: fs) (vs.drop taken.toNat))
    (htaken : taken = true → operand?.isSome) (hresult : Settles p.codes result) :
    Follows p limit m (Machine.Returns p env rest fs vs operand?)
      (do return (← .settle line result, taken)) := by
  obtain ⟨hprogram, hroom, hframes, hvalues⟩ := hm
  subst hline
  refine Follows.andThen (Q := fun v m' => v.MadeOf p.codes ∧ m'.Has p
    ({ control := rest.drop taken.toNat, env } :: fs) (v.map p.deltaOf :: vs.drop taken.toNat)) ?_ ?_
  · refine .settle hstep hsink fun v hv => ⟨hresult.madeOf hv, hprogram, hroom, hframes, ?_⟩
    exact congrArg _ hvalues
  · rintro v m' ⟨hv, hm'⟩
    exact .pure ⟨htaken, hv, _, hm', .inl rfl⟩

/-- A function is applied by reducing its body in a frame of its own. If the calling frame has
    nothing left to do, it is dropped before, otherwise the new frame is dropped behind. -/
theorem follows_call {code : Abstraction Numbered} {cenv : TreeEnv Numbered} {id : Nat}
    {v : TreeValue Numbered} {env : Env} {m₁ : Machine} (happ : Applies p limit apply)
    (hcode : p.codes.code code cenv) (hcenv : cenv.MadeOf p.codes) (hv : v.MadeOf p.codes)
    (hstep : m.step = m₁.apply id (.closure (p.deltaOf code) (cenv.map p.deltaOf)) (v.map p.deltaOf))
    (hsink : m₁.sink = m.sink) (hm : m₁.Has p ({ control := rest, env } :: fs) vs) :
    Follows p (limit + 1) m (Machine.Leaves p { control := rest, env } fs vs)
      (Evaluation.call apply m₁.line code cenv v) := by
  obtain ⟨hprogram, hroom, hframes, hvalues⟩ := hm
  obtain ⟨-, hvars, hbody, hshaped⟩ := hcode
  rw [Machine.apply, hvars, EnvOf.enter?_map] at hstep
  rw [Evaluation.call]
  cases hinner : cenv.enter? code.vars v with
  | none =>
    rw [hinner] at hstep
    exact .fail hstep hsink
  | some inner =>
    rw [hinner] at hstep
    -- what is left when the frame of the body is gone
    have hcallers : ∀ {m' : Machine} {r : TreeValue Numbered}, r.MadeOf p.codes →
        m'.Has p m₁.callers (r.map p.deltaOf :: vs) →
        m'.Leaves p { control := rest, env } fs vs r := by
      intro m' r hr hm'
      refine ⟨hr, _, hm', ?_⟩
      rw [Machine.callers, hframes]
      cases rest with
      | nil => exact .inr ⟨rfl, rfl⟩
      | cons item rest => exact .inl rfl
    obtain ⟨m₂, henter, hsink₂, hm₂⟩ : ∃ m₂,
        m₁.enter (p.deltaOf code) (inner.map p.deltaOf) = .running m₂ ∧ m₂.sink = m₁.sink ∧
          m₂.Has p ({ control := (p.deltaOf code).body.reverse ++ [], env := inner.map p.deltaOf } ::
            m₁.callers) vs :=
      ⟨_, rfl, rfl, hprogram, hroom, by rw [List.append_nil], hvalues⟩
    refine .step (hstep.trans henter) (hsink₂.trans hsink) ?_
    have hnone : p.Offers none [] vs := .none trivial
    have heval := follows_eval happ (hcenv.enter? hv hinner) hbody hshaped hnone hm₂
    refine heval.andThen ?_
    rintro ⟨r, taken⟩ m₂ ⟨htaken, hr, frames, hm₂, hframes₂⟩
    -- no operand was offered, so that none is taken
    obtain rfl : taken = false := by simpa using htaken
    -- the frame of the body is there and empty, or it was dropped for a call that came last
    rcases hframes₂ with rfl | ⟨-, rfl⟩
    · have hdrop : m₂.step = .running { m₂ with frames := m₁.callers } := by
        rw [Machine.step.eq_def, hm₂.frames_eq]
        rfl
      refine .after_silent (n := 1) ((m₂.runFor_one).trans hdrop) rfl (.pure (hcallers hr ?_))
      exact ⟨hm₂.program_eq, hm₂.room_eq, rfl, hm₂.values_eq⟩
    · exact .pure (hcallers hr hm₂)

/-- `Conc` takes the operand of the application around it. -/
theorem follows_conc {v w : TreeValue Numbered} {env : Env} {line : Nat} {m₁ : Machine}
    (hoffers : p.Offers (some w) rest vs) (hstep : m.step = m₁.applyConc (v.map p.deltaOf))
    (hline : m₁.line = line) (hsink : m₁.sink = m.sink)
    (hm : m₁.Has p ({ control := rest, env } :: fs) vs) :
    Follows p limit m (Machine.Returns p env rest fs vs (some w))
      (do return (← .settle line (v.joined w), true)) := by
  obtain ⟨hprogram, hroom, hframes, hvalues⟩ := hm
  cases hoffers with
  | some hid hw =>
    rw [Machine.applyConc_of_application (hprogram ▸ hid) hframes hvalues, ValueOf.joined_map]
      at hstep
    exact follows_settle true hstep hline hsink ⟨hprogram, hroom, rfl, rfl⟩ (fun _ => rfl)
      (ValueOf.joined_settles p.codes v w)

/-- `Print` writes what its argument looks like, which does not depend on the code of functions. -/
theorem follows_print {v : TreeValue Numbered} {env : Env} {m₁ : Machine}
    (hv : v.MadeOf p.codes)
    (hstep : m.step = m₁.applyPrint (v.map p.deltaOf)) (hsink : m₁.sink = m.sink)
    (hm : m₁.Has p ({ control := rest, env } :: fs) vs) :
    Follows p limit m (Machine.Returns p env rest fs vs operand?)
      (.ended [v] (.ok (.dummy, false))) := by
  obtain ⟨hprogram, hroom, hframes, hvalues⟩ := hm
  have hrender : (v.map p.deltaOf).render = v.render :=
    ValueOf.render_map (P := p.codes) (fun c _ hc => ⟨hc.1, hc.2.1⟩) hv
  rw [Machine.applyPrint_of_room hroom, hrender] at hstep
  refine .returns ((m.runFor_one).trans hstep) ?_
    ⟨fun h => Bool.noConfusion h, trivial, _, ⟨hprogram, hroom, ?_, ?_⟩, .inl rfl⟩
  · rw [output, output, ByteArray.append_empty, ← hsink]
  · exact hframes
  · exact congrArg _ hvalues

/-- An application takes the function and the argument from the stack. -/
theorem Machine.Has.step_gamma {id : Nat} {l : Label} {env : Env} {f v : Value}
    (hm : m.Has p ({ control := .node id :: rest, env } :: fs) (f :: v :: vs))
    (hid : p.arena.label id = l) (hgamma : l.kind = .gamma) :
    ∃ m₁ : Machine, m.step = m₁.apply id f v ∧ m₁.line = l.line ∧ m₁.sink = m.sink ∧
      m₁.Has p ({ control := rest, env } :: fs) vs :=
  ⟨_, Machine.step_gamma (hm.program_eq ▸ hid) hgamma hm.frames_eq hm.values_eq, rfl, rfl,
    hm.program_eq, hm.room_eq, rfl, rfl⟩

/-- The fixpoint of a function is applied by two applications, of the function to its fixpoint and
    of the result to the argument. -/
theorem Machine.Has.apply_eta {env : Env} (hm : m.Has p ({ control := rest, env } :: fs) vs)
    (id : Nat) (delta : Delta) (cenv : Env) (v : Value) :
    ∃ m₁ : Machine, m.apply id (.eta delta cenv) v = .running m₁ ∧ m₁.sink = m.sink ∧
      m₁.Has p ({ control := .node id :: .node id :: rest, env } :: fs)
        (.closure delta cenv :: .eta delta cenv :: v :: vs) := by
  obtain ⟨hprogram, hroom, hframes, hvalues⟩ := hm
  rw [Machine.apply, Machine.schedule]
  simp only [hframes]
  exact ⟨_, rfl, rfl, hprogram, hroom, rfl, by rw [hvalues]⟩

/-- Applications are followed up to the limit. -/
theorem applies_apply (limit : Nat) : Applies p limit (Evaluation.apply limit) := by
  induction limit with
  | zero =>
    intro m id l env rest fs vs f v operand? _ _ _ _ _ _
    exact .runs rfl
  | succ limit ih =>
    intro m id l env rest fs vs f v operand? hid hgamma hf hv hoffers hm
    obtain ⟨m₁, hstep, hline, hsink, hm₁⟩ := hm.step_gamma hid hgamma
    -- an application that is an operation takes no operand
    have hsettle {result} (hresult : Settles p.codes result)
        (happly : m₁.apply id (f.map p.deltaOf) (v.map p.deltaOf) =
          m₁.settle (mapResult p.deltaOf result)) :
        Follows p (limit + 1) m (Machine.Returns p env rest fs vs operand?)
          (do return (← .settle l.line result, false)) :=
      follows_settle false (hstep.trans happly) hline hsink hm₁ (fun h => Bool.noConfusion h) hresult
    have hfail {fault : FaultOf (Abstraction Numbered)}
        (happly : m₁.apply id (f.map p.deltaOf) (v.map p.deltaOf) = m₁.fail (fault.map p.deltaOf)) :
        Follows p (limit + 1) m (Machine.Returns p env rest fs vs operand?) (.fail l.line fault) :=
      hline ▸ .fail (hstep.trans happly) hsink
    cases f with
    | closure code cenv =>
      have hcall := follows_call ih hf.1 hf.2 hv hstep hsink hm₁
      rw [hline] at hcall
      exact hcall.andThen fun r m' hm' => .pure ⟨fun h => Bool.noConfusion h, hm'⟩
    | eta code cenv =>
      obtain ⟨m₂, heta, hsink₂, hm₂⟩ :=
        hm₁.apply_eta id (p.deltaOf code) (cenv.map p.deltaOf) (v.map p.deltaOf)
      obtain ⟨m₃, hstep₃, hline₃, hsink₃, hm₃⟩ := hm₂.step_gamma hid hgamma
      have hcall := follows_call (v := .eta code cenv) ih hf.1 hf.2 hf hstep₃ hsink₃ hm₃
      rw [hline₃] at hcall
      refine .step (hstep.trans heta) (hsink₂.trans hsink) (hcall.of_succ.andThen ?_)
      rintro f m' ⟨hf, frames, hm', rfl | ⟨hnil, -⟩⟩
      · exact ih hid hgamma hf hv hoffers hm'
      · cases hnil
    | ystar =>
      cases v with
      | closure code cenv =>
        have heta : Settles p.codes (.ok (.eta code cenv)) := .ok hv
        exact hsettle heta rfl
      | _ => exact hfail rfl
    | tuple elements =>
      refine hsettle (ValueOf.element_settles (ValueOf.allMadeOf_iff.1 hf) v) ?_
      rw [ValueOf.map, ValueOf.mapAll_eq_map, Machine.apply, ValueOf.element_map]
    | builtin b =>
      cases b with
      | conc =>
        cases operand? with
        | some w => exact follows_conc hoffers hstep hline hsink hm₁
        | none =>
          cases hoffers with
          | none hrest =>
            obtain ⟨m', hconc, hsink'⟩ := Machine.applyConc_of_noApplication hm₁.frames_eq
              (hm₁.program_eq ▸ hrest)
            rw [hline] at hconc
            exact .fail (hstep.trans hconc) (hsink'.trans hsink)
      | print => exact follows_print hv hstep hsink hm₁
      | _ =>
        refine hsettle (Builtin.apply_settles p.codes _ v) ?_
        rw [← Builtin.apply_map]
        rfl
    | _ => exact hfail rfl

end Rpal
