import Rpal.Control.Flatten
import Rpal.Control.Printer
import Rpal.Proofs.Layout.Unplaced

/-!
# Control structures without lines

Flattening looks at the constructs, the texts and the links of nodes, and only copies their lines to
deltas, betas and errors. So the control structures of an arena without lines are those of the
arena, without lines.

## Key results

- `Flattening.commutes_items`: the items of one body
- `Arena.control_unplaced`: all control structures
- `Control.render_unplaced`: printing does not show lines
-/

namespace Rpal

/-- The delta without its line. -/
def Delta.unplaced (d : Delta) : Delta :=
  { d with line := 0 }

/-- The beta without its line. -/
def Beta.unplaced (b : Beta) : Beta :=
  { b with line := 0 }

/-- The control structures without lines. -/
def Control.unplaced (c : Control) : Control :=
  { deltas := c.deltas.map Delta.unplaced, betas := c.betas.map Beta.unplaced }

/-- The draft without lines. -/
def ControlDraft.unplaced (d : ControlDraft) : ControlDraft :=
  { d with control := d.control.unplaced }

/-- The error without its line. -/
def BuildError.unplaced : BuildError → BuildError
  | unexpectedConstruct construct _ => unexpectedConstruct construct 0
  | malformed construct part _ => malformed construct part 0
  | badParameter found _ => badParameter found 0
  | e => e

namespace Control

variable (c : Control)

@[simp] theorem delta_unplaced (index : Nat) : c.unplaced.delta index = (c.delta index).unplaced :=
  Array.getD_map_of_eq (f := Delta.unplaced) (a := default) rfl c.deltas index

@[simp] theorem beta_unplaced (index : Nat) : c.unplaced.beta index = (c.beta index).unplaced :=
  Array.getD_map_of_eq (f := Beta.unplaced) (a := default) rfl c.betas index

end Control

namespace ControlDraft

variable (d : ControlDraft)

/-- Forgetting lines keeps the number of deltas. -/
theorem size_deltas_unplaced : d.unplaced.control.deltas.size = d.control.deltas.size :=
  Array.size_map

/-- Forgetting lines keeps the number of betas. -/
theorem size_betas_unplaced : d.unplaced.control.betas.size = d.control.betas.size :=
  Array.size_map

/-- A delta is added without its line. -/
theorem addDelta_unplaced (vars : List String) (line body : Nat) :
    (d.addDelta vars line body).unplaced = d.unplaced.addDelta vars 0 body := by
  simp only [addDelta, unplaced, Control.unplaced, Array.map_push, Array.size_map, Delta.unplaced]

/-- A beta is added without its line. -/
theorem addBeta_unplaced (b : Beta) : (d.addBeta b).unplaced = d.unplaced.addBeta b.unplaced := by
  simp only [addBeta, unplaced, Control.unplaced, Array.map_push]

/-- A body is set whether lines are known or not. -/
theorem setBody_unplaced (index : Nat) (body : List ControlItem) :
    (d.setBody index body).unplaced = d.unplaced.setBody index body := by
  have hdeltas : (d.control.deltas.modify index fun delta => { delta with body }).map Delta.unplaced =
      (d.control.deltas.map Delta.unplaced).modify index fun delta => { delta with body } := by
    apply Array.map_modify_of_comm
    exact fun _ => rfl
  simp only [setBody, unplaced, Control.unplaced, hdeltas]

end ControlDraft

namespace Flattening

variable {α β : Type}

/-- What a step leaves behind, without lines. -/
def unplacedResult : Except BuildError (α × ControlDraft) → Except BuildError (α × ControlDraft)
  | .ok (r, d) => .ok (r, d.unplaced)
  | .error e => .error e.unplaced

/-- The second step does without lines what the first does. -/
def Commutes (x y : Flattening α) : Prop :=
  ∀ d : ControlDraft, y d.unplaced = unplacedResult (x d)

namespace Commutes

/-- A result commutes with forgetting lines. -/
theorem pure (r : α) : Commutes (Pure.pure r) (Pure.pure r) :=
  fun _ => rfl

/-- A failure commutes with forgetting lines if its error does. -/
theorem throw {e e' : BuildError} (h : e' = e.unplaced) :
    Commutes (throw e : Flattening α) (throw e') :=
  fun _ => congrArg Except.error h

/-- A sequence commutes with forgetting lines if its parts do. -/
theorem bind {x y : Flattening α} {f g : α → Flattening β} (hxy : Commutes x y)
    (hfg : ∀ r, Commutes (f r) (g r)) : Commutes (x >>= f) (y >>= g) := by
  intro d
  have h := hxy d
  simp only [Bind.bind, StateT.bind, Except.bind, h]
  cases x d with
  | ok r => exact hfg r.1 r.2
  | error e => rfl

/-- What is read from the draft is the same without lines. -/
theorem get_bind {f g : ControlDraft → Flattening α} (hread : ∀ d : ControlDraft, g d.unplaced = g d)
    (hfg : ∀ d, Commutes (f d) (g d)) : Commutes (get >>= f) (get >>= g) := by
  intro d
  show g d.unplaced d.unplaced = unplacedResult (f d d)
  rw [hread, hfg]

/-- A change of the draft commutes with forgetting lines if the change itself does. -/
theorem modify {f g : ControlDraft → ControlDraft} (h : ∀ d, (f d).unplaced = g d.unplaced) :
    Commutes (modify f) (modify g) :=
  fun d => congrArg (fun d => Except.ok (PUnit.unit, d)) (h d).symm

/-- A loop over a list commutes with forgetting lines if its rounds do. -/
theorem foldlM {f g : β → α → Flattening β} (h : ∀ b a, Commutes (f b a) (g b a)) (as : List α)
    (b : β) : Commutes (as.foldlM f b) (as.foldlM g b) := by
  induction as generalizing b with
  | nil => exact pure b
  | cons a as ih =>
    rw [List.foldlM_cons, List.foldlM_cons]
    exact (h b a).bind ih

end Commutes

variable (a : Arena)

/-- Whether a node is a name does not depend on lines. -/
theorem boundName_unplaced (id : Nat) :
    boundName a.unplaced id = (boundName a id).mapError BuildError.unplaced := by
  simp only [boundName, a.kind_unplaced, a.label_unplaced, a.line_unplaced]
  split <;> rfl

/-- Whether nodes are names does not depend on lines. -/
theorem mapM_boundName_unplaced (ids : List Nat) : ids.mapM (boundName a.unplaced) =
    (ids.mapM (boundName a)).mapError BuildError.unplaced := by
  induction ids with
  | nil => rfl
  | cons id ids ih =>
    rw [List.mapM_cons, List.mapM_cons, ih, boundName_unplaced]
    cases boundName a id with
    | error e => rfl
    | ok name => cases ids.mapM (boundName a) <;> rfl

/-- What a lambda binds does not depend on lines. -/
theorem boundNames_unplaced (id : Nat) :
    boundNames a.unplaced id = (boundNames a id).mapError BuildError.unplaced := by
  simp only [boundNames, a.kind_unplaced, a.children_unplaced, boundName_unplaced,
    mapM_boundName_unplaced]
  cases a.kind id with
  | unit | names => rfl
  | _ => cases boundName a id <;> rfl

/-- The names that a parameter binds are found without the draft. -/
theorem commutes_boundNames (id : Nat) :
    Commutes (boundNames a id : Flattening (List String)) (boundNames a.unplaced id) := by
  intro d
  rw [boundNames_unplaced]
  cases boundNames a id <;> rfl

/-- A new delta is the same up to its line. -/
theorem commutes_newDelta (vars : List String) (body : Nat) :
    Commutes (newDelta a vars body) (newDelta a.unplaced vars body) := by
  unfold newDelta
  refine .get_bind (fun d => by rw [d.size_deltas_unplaced]) fun d => ?_
  refine (Commutes.modify fun d => ?_).bind fun _ => .pure _
  rw [d.addDelta_unplaced, a.line_unplaced]

/-- A new beta is the same up to its line. -/
theorem commutes_newBeta (b : Beta) : Commutes (newBeta b) (newBeta b.unplaced) := by
  unfold newBeta
  refine .get_bind (fun d => by rw [d.size_betas_unplaced]) fun d => ?_
  exact (Commutes.modify fun d => d.addBeta_unplaced b).bind fun _ => .pure _

/-- The item of a lambda does not depend on lines. -/
theorem commutes_lambdaItem (id : Nat) :
    Commutes (lambdaItem a id) (lambdaItem a.unplaced id) := by
  unfold lambdaItem
  rw [a.child_unplaced, a.kind_unplaced, a.line_unplaced]
  cases a.child id with
  | none => exact .throw rfl
  | some parameter =>
    simp only [a.sibling_unplaced]
    cases a.sibling parameter with
    | none => exact .throw rfl
    | some body =>
      refine (commutes_boundNames a parameter).bind fun vars => ?_
      exact (commutes_newDelta a vars body).bind fun index => .pure (ControlItem.delta index)

/-- The items of a tree do not depend on lines. -/
theorem commutes_items (depth : Nat) (before : List ControlItem) (id : Nat) :
    Commutes (items a depth before id) (items a.unplaced depth before id) := by
  induction depth generalizing before id with
  | zero => exact .pure before
  | succ depth ih =>
    simp only [items, a.kind_unplaced, a.children_unplaced, a.line_unplaced]
    cases a.kind id with
    | lambda => exact (commutes_lambdaItem a id).bind fun item => .pure (item :: before)
    | conditional =>
      match a.children id with
      | condition :: first :: second :: _ =>
        -- the beta gets its number when both branches are flattened
        refine (ih [] first).bind fun whenTrue => (ih [] second).bind fun whenFalse => ?_
        exact (commutes_newBeta _).bind fun index => ih (.beta index :: before) condition
      | [] | [_] | [_, _] => exact .throw rfl
    | _ =>
      dsimp only
      split
      · exact .throw rfl
      · exact .foldlM ih _ _

/-- The bodies that wait are flattened alike without lines. -/
theorem commutes_bodies (n index : Nat) :
    Commutes (bodies a n index) (bodies a.unplaced n index) := by
  induction n generalizing index with
  | zero => exact .pure ()
  | succ n ih =>
    rw [bodies, bodies, a.size_unplaced]
    refine .get_bind (fun d => rfl) fun d => ?_
    cases d.pending with
    | nil => exact .pure ()
    | cons body more =>
      -- the pending bodies are places, which have no lines
      have htake : Commutes (modify fun d => { d with pending := more })
          (modify fun d => { d with pending := more }) := .modify fun _ => rfl
      refine htake.bind fun _ => ?_
      refine (commutes_items a a.size [] body).bind fun last => ?_
      refine (Commutes.modify fun d => d.setBody_unplaced index last.reverse).bind fun _ => ?_
      exact ih (index + 1)

/-- The control structures of a program are the same up to lines. -/
theorem commutes_program (root : Nat) :
    Commutes (program a root) (program a.unplaced root) := by
  unfold program
  rw [a.size_unplaced]
  exact (commutes_newDelta a [] root).bind fun _ => commutes_bodies a _ 0

end Flattening

/-- An arena without lines has the same control structures, or fails in the same way. -/
theorem Arena.control_unplaced (a : Arena) : a.unplaced.control =
    (a.control.map Control.unplaced).mapError BuildError.unplaced := by
  have hmark : a.unplaced.standardized = a.standardized := rfl
  have hroot : a.unplaced.root = a.root := rfl
  rw [control, control, hmark, hroot]
  split
  · cases a.root with
    | none => rfl
    | some root =>
      have hempty : ControlDraft.empty.unplaced = .empty := by
        simp only [ControlDraft.unplaced, ControlDraft.empty, Control.unplaced, List.map_toArray,
          List.map_nil]
      have hprogram := Flattening.commutes_program a root .empty
      rw [hempty] at hprogram
      simp only [StateT.run, hprogram]
      cases Flattening.program a root .empty <;> rfl
  · rfl

namespace Control

variable (a : Arena) (c : Control)

/-- Lines are not shown in control structures. -/
theorem renderItem_unplaced (depth : Nat) (item : ControlItem) :
    renderItem a.unplaced c.unplaced depth item = renderItem a c depth item := by
  induction depth generalizing item with
  | zero =>
    cases item with
    | node id => rw [renderItem, renderItem, a.label_unplaced]; rfl
    | delta index => rw [renderItem, renderItem, c.delta_unplaced]; rfl
    | beta index => rfl
  | succ depth ih =>
    cases item with
    | node id => rw [renderItem, renderItem, a.label_unplaced]; rfl
    | delta index => rw [renderItem, renderItem, c.delta_unplaced]; rfl
    | beta index =>
      rw [renderItem, renderItem, c.beta_unplaced]
      simp only [Beta.unplaced, funext ih]

/-- Printed control structures do not show lines. -/
theorem render_unplaced : c.unplaced.render a.unplaced = c.render a := by
  have hdelta : renderDelta a.unplaced c.unplaced ∘ Delta.unplaced = renderDelta a c := by
    funext d
    have hbetas : c.unplaced.betas.size = c.betas.size := Array.size_map
    simp only [Function.comp_apply, renderDelta, Delta.unplaced, hbetas,
      funext (renderItem_unplaced a c c.betas.size)]
    rfl
  simp only [render, unplaced, Array.toList_map, List.map_map]
  exact congrArg (fun f => String.join (c.deltas.toList.map f)) hdelta

end Control

end Rpal
