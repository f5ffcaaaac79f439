import Rpal.Arena.Standardize
import Rpal.Proofs.Layout.Unplaced

/-!
# Standardization without lines

The rules look at the constructs and the links of nodes. Lines are only copied to the nodes that are
added, and put into errors. So a change of an arena does the same without lines, up to the line of an
error.

## Key results

- `Reshape.IgnoresLines.bind`, `Reshape.IgnoresLines.get_bind`: changes one after the other
- `Reshape.ignoresLines_rule`, `Reshape.ignoresLines_visit`: one node, and all nodes
- `Arena.standardForm_unplaced`: the canonical form
-/

namespace Rpal

/-- The error without its line. -/
def StandardizeError.unplaced : StandardizeError → StandardizeError
  | malformed construct _ defect => malformed construct 0 defect
  | e => e

namespace Reshape

variable {α β : Type}

/-- What a change leaves behind, without lines. -/
def unplacedResult : EStateM.Result StandardizeError Arena α → EStateM.Result StandardizeError Arena α
  | .ok r a => .ok r a.unplaced
  | .error e a => .error e.unplaced a.unplaced

/-- The change does the same in an arena without lines. -/
def IgnoresLines (x : Reshape α) : Prop :=
  ∀ a : Arena, x a.unplaced = unplacedResult (x a)

namespace IgnoresLines

/-- A result ignores lines. -/
theorem pure (r : α) : IgnoresLines (Pure.pure r) :=
  fun _ => rfl

/-- A sequence ignores lines if its parts do. -/
theorem bind {x : Reshape α} {f : α → Reshape β} (hx : IgnoresLines x)
    (hf : ∀ r, IgnoresLines (f r)) : IgnoresLines (x >>= f) := by
  intro a
  show EStateM.bind x f a.unplaced = unplacedResult (EStateM.bind x f a)
  unfold EStateM.bind
  rw [hx a]
  cases x a with
  | ok r a' => exact hf r a'
  | error e a' => rfl

/-- What is read from the arena is the same without lines. -/
theorem get_bind {f : Arena → Reshape α} (hread : ∀ a : Arena, f a.unplaced = f a)
    (hf : ∀ a, IgnoresLines (f a)) : IgnoresLines (get >>= f) := by
  intro a
  show f a.unplaced a.unplaced = unplacedResult (f a a)
  rw [hread, hf]

/-- A change of the arena ignores lines if it commutes with forgetting them. -/
theorem modify {f : Arena → Arena} (hf : ∀ a, (f a).unplaced = f a.unplaced) :
    IgnoresLines (modify f) := by
  intro a
  show EStateM.Result.ok PUnit.unit (f a.unplaced) = .ok PUnit.unit (f a).unplaced
  rw [hf]

end IgnoresLines

/-! ### Reading and linking nodes -/

/-- An error about a node is the same up to its line. -/
theorem ignoresLines_malformed (id : Nat) (defect : Defect) :
    IgnoresLines (malformed id defect : Reshape α) := by
  intro a
  show EStateM.Result.error
      (StandardizeError.malformed (a.unplaced.kind id) (a.unplaced.line id) defect) a.unplaced =
    .error (.malformed (a.kind id) 0 defect) a.unplaced
  rw [Arena.kind_unplaced, Arena.line_unplaced]

/-- Looking up a child ignores lines. -/
theorem ignoresLines_child (id : Nat) : IgnoresLines (child id) :=
  .get_bind (fun a => by rw [a.child_unplaced]) fun _ => .pure _

/-- Looking up a sibling ignores lines. -/
theorem ignoresLines_sibling (id : Nat) : IgnoresLines (sibling id) :=
  .get_bind (fun a => by rw [a.sibling_unplaced]) fun _ => .pure _

/-- Whether something is missing does not depend on lines. -/
theorem ignoresLines_need (owner : Nat) (link : Option Nat) (defect : Defect) :
    IgnoresLines (need owner link defect) := by
  cases link with
  | some id => exact .pure id
  | none => exact ignoresLines_malformed owner defect

/-- The node that a link of `id` leads to. -/
theorem ignoresLines_need_child (owner id : Nat) (defect : Defect) {f : Nat → Reshape α}
    (hf : ∀ r, IgnoresLines (f r)) :
    IgnoresLines (child id >>= fun link => need owner link defect >>= f) :=
  (ignoresLines_child id).bind fun _ => (ignoresLines_need owner _ defect).bind hf

/-- Needing a sibling ignores lines. -/
theorem ignoresLines_need_sibling (owner id : Nat) (defect : Defect) {f : Nat → Reshape α}
    (hf : ∀ r, IgnoresLines (f r)) :
    IgnoresLines (sibling id >>= fun link => need owner link defect >>= f) :=
  (ignoresLines_sibling id).bind fun _ => (ignoresLines_need owner _ defect).bind hf

/-- The sides of an equation are looked up without lines. -/
theorem ignoresLines_sides (owner id : Nat) (defect : Defect) :
    IgnoresLines (sides owner id defect) := by
  refine .get_bind (fun a => by rw [a.kind_unplaced]) fun a => ?_
  split
  · exact ignoresLines_need_child owner id defect fun left =>
      ignoresLines_need_sibling owner left defect fun right => .pure (left, right)
  · exact ignoresLines_malformed owner defect

/-- The sides of several equations are looked up without lines. -/
theorem ignoresLines_allSides (owner : Nat) (defect : Defect) (ids : List Nat) :
    IgnoresLines (allSides owner defect ids) := by
  induction ids with
  | nil => exact .pure _
  | cons id ids ih =>
    exact (ignoresLines_sides owner id defect).bind fun _ => ih.bind fun _ => .pure _

/-- A node is added in the same place, with the label that it has without lines. -/
theorem ignoresLines_alloc {l : Arena → Label} (hl : ∀ a : Arena, l a.unplaced = (l a).unplaced) :
    IgnoresLines (get >>= fun a => alloc (l a)) := by
  intro a
  show EStateM.Result.ok a.unplaced.nextId (a.unplaced.alloc (l a.unplaced)) =
    .ok a.nextId (a.alloc (l a)).unplaced
  rw [Arena.alloc_unplaced, Arena.nextId_unplaced, hl]

/-- Adding a node with a label from the arena ignores lines if the label does. -/
theorem ignoresLines_alloc_bind {l : Arena → Label}
    (hl : ∀ a : Arena, l a.unplaced = (l a).unplaced) {f : Nat → Reshape α}
    (hf : ∀ id, IgnoresLines (f id)) : IgnoresLines (get >>= fun a => alloc (l a) >>= f) := by
  have h := (ignoresLines_alloc hl).bind hf
  rwa [bind_assoc] at h

/-- Adding a node beside another one ignores lines. -/
theorem ignoresLines_allocBeside (id : Nat) (kind : Kind) : IgnoresLines (allocBeside id kind) :=
  ignoresLines_alloc fun a => by rw [a.line_unplaced]; rfl

/-- Setting a child ignores lines. -/
theorem ignoresLines_setChild (id : Nat) (target : Option Nat) : IgnoresLines (setChild id target) :=
  .modify fun a => a.setChild_unplaced id target

/-- Setting a sibling ignores lines. -/
theorem ignoresLines_setSibling (id : Nat) (target : Option Nat) :
    IgnoresLines (setSibling id target) :=
  .modify fun a => a.setSibling_unplaced id target

/-- Setting children ignores lines. -/
theorem ignoresLines_setChildren (id : Nat) (ids : List Nat) : IgnoresLines (setChildren id ids) :=
  .modify fun a => a.setChildren_unplaced id ids

/-- Changing a construct ignores lines. -/
theorem ignoresLines_setKind (id : Nat) (kind : Kind) : IgnoresLines (setKind id kind) :=
  .modify fun a => a.setKind_unplaced id kind

/-! ### The rules -/

/-- Nesting lambdas ignores lines. -/
theorem ignoresLines_nestLambdas (n id : Nat) : IgnoresLines (nestLambdas n id) := by
  induction n generalizing id with
  | zero => exact .pure id
  | succ n ih =>
    refine (ignoresLines_sibling id).bind fun next => ?_
    cases next with
    | none => exact .pure id
    | some next =>
      refine (ignoresLines_allocBeside id .lambda).bind fun lambda => ?_
      refine (ignoresLines_setChild lambda (some id)).bind fun _ => ?_
      refine (ih next).bind fun body => ?_
      exact (ignoresLines_setSibling id (some body)).bind fun _ => .pure lambda

/-- Currying ignores lines. -/
theorem ignoresLines_curry (id : Nat) : IgnoresLines (curry id) :=
  .get_bind (fun a => by rw [a.size_unplaced]) fun a => ignoresLines_nestLambdas a.size id

/-- The rule for `let` ignores lines. -/
theorem ignoresLines_letRule (id : Nat) : IgnoresLines (letRule id) := by
  refine ignoresLines_need_child id id _ fun equation => ?_
  refine (ignoresLines_sides id equation _).bind ?_
  rintro ⟨x, e₁⟩
  refine ignoresLines_need_sibling id equation _ fun e₂ => ?_
  refine (ignoresLines_setSibling x (some e₂)).bind fun _ => ?_
  refine (ignoresLines_setSibling equation (some e₁)).bind fun _ => ?_
  exact (ignoresLines_setKind equation .lambda).bind fun _ => ignoresLines_setKind id .gamma

/-- The rule for `where` ignores lines. -/
theorem ignoresLines_whereRule (id : Nat) : IgnoresLines (whereRule id) := by
  refine ignoresLines_need_child id id _ fun e₂ => ?_
  refine ignoresLines_need_sibling id e₂ _ fun equation => ?_
  refine (ignoresLines_setSibling e₂ none).bind fun _ => ?_
  refine (ignoresLines_setSibling equation (some e₂)).bind fun _ => ?_
  refine (ignoresLines_setChild id (some equation)).bind fun _ => ?_
  exact (ignoresLines_setKind id .letIn).bind fun _ => ignoresLines_letRule id

/-- The rule for `function_form` ignores lines. -/
theorem ignoresLines_functionFormRule (id : Nat) : IgnoresLines (functionFormRule id) := by
  refine ignoresLines_need_child id id _ fun p => ?_
  refine ignoresLines_need_sibling id p _ fun v₁ => ?_
  refine ignoresLines_need_sibling id v₁ _ fun _ => ?_
  refine (ignoresLines_curry v₁).bind fun lambda => ?_
  exact (ignoresLines_setSibling p (some lambda)).bind fun _ => ignoresLines_setKind id .equation

/-- The rule for `lambda` ignores lines. -/
theorem ignoresLines_lambdaRule (id : Nat) : IgnoresLines (lambdaRule id) := by
  refine ignoresLines_need_child id id _ fun v₁ => ?_
  refine ignoresLines_need_sibling id v₁ _ fun rest => ?_
  exact (ignoresLines_curry rest).bind fun body => ignoresLines_setSibling v₁ (some body)

/-- The rule for `@` ignores lines. -/
theorem ignoresLines_atNameRule (id : Nat) : IgnoresLines (atNameRule id) := by
  refine ignoresLines_need_child id id _ fun e₁ => ?_
  refine ignoresLines_need_sibling id e₁ _ fun n => ?_
  refine ignoresLines_need_sibling id n _ fun e₂ => ?_
  refine (ignoresLines_allocBeside id .gamma).bind fun inner => ?_
  refine (ignoresLines_setChildren inner [n, e₁]).bind fun _ => ?_
  refine (ignoresLines_setSibling inner (some e₂)).bind fun _ => ?_
  exact (ignoresLines_setChild id (some inner)).bind fun _ => ignoresLines_setKind id .gamma

/-- The rule for `within` ignores lines. -/
theorem ignoresLines_withinRule (id : Nat) : IgnoresLines (withinRule id) := by
  refine ignoresLines_need_child id id _ fun first => ?_
  refine ignoresLines_need_sibling id first _ fun second => ?_
  refine (ignoresLines_sides id first _).bind ?_
  rintro ⟨x₁, e₁⟩
  refine (ignoresLines_sides id second _).bind ?_
  rintro ⟨x₂, e₂⟩
  refine (ignoresLines_allocBeside id .lambda).bind fun lambda => ?_
  refine (ignoresLines_setChildren lambda [x₁, e₂]).bind fun _ => ?_
  refine (ignoresLines_allocBeside id .gamma).bind fun gamma => ?_
  refine (ignoresLines_setChildren gamma [lambda, e₁]).bind fun _ => ?_
  exact (ignoresLines_setChildren id [x₂, gamma]).bind fun _ => ignoresLines_setKind id .equation

/-- The rule for `and` ignores lines. -/
theorem ignoresLines_simultaneousRule (id : Nat) : IgnoresLines (simultaneousRule id) := by
  refine .get_bind (fun a => by rw [a.children_unplaced]) fun a => ?_
  -- what is done once the sides of the equations are known
  have hrest (lefts rights : List Nat) : IgnoresLines (do
      let names ← allocBeside id .names
      setChildren names lefts
      let tau ← allocBeside id .tau
      setChildren tau rights
      setChildren id [names, tau]
      setKind id .equation) := by
    refine (ignoresLines_allocBeside id .names).bind fun names => ?_
    refine (ignoresLines_setChildren names lefts).bind fun _ => ?_
    refine (ignoresLines_allocBeside id .tau).bind fun tau => ?_
    refine (ignoresLines_setChildren tau rights).bind fun _ => ?_
    exact (ignoresLines_setChildren id [names, tau]).bind fun _ => ignoresLines_setKind id .equation
  have hsides := ignoresLines_allSides id .notAllEquations (a.children id)
  by_cases hempty : (a.children id).isEmpty
  · simp only [hempty, if_true]
    refine (ignoresLines_malformed id .noDefinitions).bind fun _ => hsides.bind ?_
    rintro ⟨lefts, rights⟩
    exact hrest lefts rights
  · simp only [hempty, Bool.false_eq_true, if_false]
    refine hsides.bind ?_
    rintro ⟨lefts, rights⟩
    exact hrest lefts rights

/-- The rule for `rec` ignores lines. -/
theorem ignoresLines_recursiveRule (id : Nat) : IgnoresLines (recursiveRule id) := by
  refine ignoresLines_need_child id id _ fun equation => ?_
  refine (ignoresLines_sides id equation _).bind ?_
  rintro ⟨x, _⟩
  refine (ignoresLines_allocBeside id .lambda).bind fun lambda => ?_
  refine (ignoresLines_setChild lambda (some x)).bind fun _ => ?_
  refine (ignoresLines_allocBeside id .ystar).bind fun ystar => ?_
  refine (ignoresLines_allocBeside id .gamma).bind fun gamma => ?_
  refine (ignoresLines_setChildren gamma [ystar, lambda]).bind fun _ => ?_
  -- the copy loses the line that the name loses
  refine ignoresLines_alloc_bind (fun a => a.label_unplaced x) fun copy => ?_
  refine (ignoresLines_child x).bind fun link => ?_
  refine (ignoresLines_setChild copy link).bind fun _ => ?_
  exact (ignoresLines_setChildren id [copy, gamma]).bind fun _ => ignoresLines_setKind id .equation

/-- Which rule applies does not depend on lines, and the rule ignores them. -/
theorem ignoresLines_rule (id : Nat) : IgnoresLines (rule id) := by
  refine .get_bind (fun a => by rw [a.kind_unplaced]) fun a => ?_
  cases a.kind id with
  | letIn => exact ignoresLines_letRule id
  | whereIn => exact ignoresLines_whereRule id
  | functionForm => exact ignoresLines_functionFormRule id
  | lambda => exact ignoresLines_lambdaRule id
  | atName => exact ignoresLines_atNameRule id
  | within => exact ignoresLines_withinRule id
  | simultaneous => exact ignoresLines_simultaneousRule id
  | recursive => exact ignoresLines_recursiveRule id
  | _ => exact .pure ()

/-! ### The whole tree -/

/-- Visiting nodes ignores lines. -/
theorem ignoresLines_visit (n : Nat) (link : Option Nat) : IgnoresLines (visit n link) := by
  induction n generalizing link with
  | zero => cases link <;> exact .pure ()
  | succ n ih =>
    cases link with
    | none => exact .pure ()
    | some id =>
      refine (ignoresLines_child id).bind fun first => (ih first).bind fun _ => ?_
      exact (ignoresLines_rule id).bind fun _ => (ignoresLines_sibling id).bind fun next => ih next

/-- Standardization ignores lines. -/
theorem ignoresLines_standardize : IgnoresLines standardize := by
  have hbound (a : Arena) : linkBound a.unplaced = linkBound a := by
    rw [linkBound, linkBound, a.size_unplaced]
  refine .get_bind (fun a => by rw [hbound]; rfl) fun a => ?_
  by_cases hmark : a.standardized
  · simp only [hmark, if_true]
    exact fun _ => rfl
  · simp only [hmark, Bool.false_eq_true, if_false]
    cases a.root with
    | none => exact fun _ => rfl
    | some root =>
      refine (ignoresLines_child root).bind fun first => ?_
      refine (ignoresLines_visit (linkBound a) first).bind fun _ => ?_
      exact (ignoresLines_rule root).bind fun _ => .modify fun _ => rfl

end Reshape

namespace Arena

/-- An arena without lines has the same canonical form, or fails in the same way. -/
theorem standardForm_unplaced (a : Arena) : a.unplaced.standardForm =
    (a.standardForm.map unplaced).mapError StandardizeError.unplaced := by
  rw [standardForm, standardForm, Reshape.ignoresLines_standardize a]
  cases Reshape.standardize a with
  | ok r a' => rfl
  | error e a' => rfl

end Arena

end Rpal
