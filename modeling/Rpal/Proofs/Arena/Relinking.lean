import Rpal.Arena.Standardize
import Rpal.Proofs.Arena.Links
import Rpal.Proofs.Tree.Standard

/-!
# What the rules of standardization do to nodes

Every rule relinks the nodes around the place that it is for. If these nodes are linked as the rule
wants them, it runs to an arena whose labels and links are known at every place.

## Key results

- `bind_apply` and the lemmas after it: how a change is run
- `letRule_apply`, …, `recursiveRule_apply`: one lemma per rule, apart from those that nest or gather
  any number of nodes
-/

namespace Rpal.Reshape

open Arena

variable {α β : Type} {a : Arena} {id : Nat}

/-! ### Running a change -/

/-- A sequence goes on with the arena that its first part leaves, unless that part fails. -/
theorem bind_apply (x : Reshape α) (f : α → Reshape β) (a : Arena) :
    (x >>= f) a =
      match x a with
      | .ok v a' => f v a'
      | .error e a' => .error e a' := by
  simp only [bind, EStateM.bind]
  cases x a <;> rfl

@[simp] theorem pure_apply (v : α) (a : Arena) : (pure v : Reshape α) a = .ok v a := rfl

@[simp] theorem get_apply (a : Arena) : (get : Reshape Arena) a = .ok a a := rfl

@[simp] theorem child_apply (id : Nat) (a : Arena) : child id a = .ok (a.child id) a := rfl

@[simp] theorem sibling_apply (id : Nat) (a : Arena) : sibling id a = .ok (a.sibling id) a := rfl

/-- An allocation gives the place behind all nodes. -/
@[simp] theorem alloc_apply (l : Label) (a : Arena) : alloc l a = .ok a.size (a.alloc l) := rfl

/-- An allocation beside a node takes over the line of that node. -/
@[simp] theorem allocBeside_apply (id : Nat) (kind : Kind) (a : Arena) :
    allocBeside id kind a = .ok a.size (a.alloc ((a.label id).beside kind)) := rfl

@[simp] theorem setChild_apply (id : Nat) (t : Option Nat) (a : Arena) :
    setChild id t a = .ok () (a.setChild id t) := rfl

@[simp] theorem setSibling_apply (id : Nat) (t : Option Nat) (a : Arena) :
    setSibling id t a = .ok () (a.setSibling id t) := rfl

@[simp] theorem setChildren_apply (id : Nat) (ids : List Nat) (a : Arena) :
    setChildren id ids a = .ok () (a.setChildren id ids) := rfl

@[simp] theorem setKind_apply (id : Nat) (kind : Kind) (a : Arena) :
    setKind id kind a = .ok () (a.setKind id kind) := rfl

/-- What is needed and there is returned. -/
@[simp] theorem need_some (owner id : Nat) (d : Defect) (a : Arena) :
    need owner (some id) d a = .ok id a := rfl

/-- The sides of an equation are its two children. -/
theorem sides_apply (owner : Nat) (d : Defect) {left right : Nat} (hk : a.kind id = .equation)
    (hl : a.child id = some left) (hr : a.sibling left = some right) :
    sides owner id d a = .ok (left, right) a := by
  simp only [sides, bind_apply, get_apply, hk, if_pos, child_apply, hl, need_some, sibling_apply,
    hr, pure_apply]

/-! ### Relinked nodes -/

/-- The arena `a'` comes from `a` by `added` new nodes and by changes to nodes, which have the labels
    and links as told. -/
structure Relinked (a a' : Arena) (added : Nat) (label : Nat → Label)
    (child sibling : Nat → Option Nat) : Prop where
  root_eq : a'.root = a.root
  mark_eq : a'.standardized = a.standardized
  size_eq : a'.size = a.size + added
  label_eq : ∀ y, a'.label y = label y
  child_eq : ∀ y, a'.child y = child y
  sibling_eq : ∀ y, a'.sibling y = sibling y

/-- The rule for `let` puts the body behind the name and the right side behind the lambda. -/
theorem letRule_apply {q x e₁ e₂ : Nat} (hid : id < a.size) (hq : q < a.size) (hx : x < a.size)
    (hk : a.kind q = .equation) (hc : a.child id = some q) (hs : a.sibling q = some e₂)
    (hc' : a.child q = some x) (hs' : a.sibling x = some e₁) :
    ∃ a', letRule id a = .ok () a' ∧ Relinked a a' 0
      (fun y => if y = id then (a.label id).turned .gamma else
        if y = q then (a.label q).turned .lambda else a.label y)
      a.child
      (fun y => if y = q then some e₁ else if y = x then some e₂ else a.sibling y) := by
  refine ⟨(((a.setSibling x (some e₂)).setSibling q (some e₁)).setKind q .lambda).setKind id .gamma,
    ?_, by simp, rfl, by simp, fun y => ?_, fun y => by simp, fun y => ?_⟩
  · simp only [letRule, bind_apply, child_apply, hc, need_some, sides_apply id _ hk hc' hs',
      sibling_apply, hs, setSibling_apply, setKind_apply]
  · rw [label_setKind (by simpa), label_setKind (by simpa)]
    grind [Label.turned, label_setSibling]
  · rw [sibling_setKind, sibling_setKind, sibling_setSibling (by simpa), sibling_setSibling hx]

/-- The rule for `where` swaps the operands and goes on as that for `let`. -/
theorem whereRule_apply {q e₂ : Nat} (hid : id < a.size) (hq : q < a.size) (he₂ : e₂ < a.size)
    (hc : a.child id = some e₂) (hs : a.sibling e₂ = some q) :
    ∃ a', whereRule id a = letRule id a' ∧ Relinked a a' 0
      (fun y => if y = id then (a.label id).turned .letIn else a.label y)
      (fun y => if y = id then some q else a.child y)
      (fun y => if y = q then some e₂ else if y = e₂ then none else a.sibling y) := by
  refine ⟨(((a.setSibling e₂ none).setSibling q (some e₂)).setChild id (some q)).setKind id .letIn,
    ?_, by simp, rfl, by simp, fun y => ?_, fun y => ?_, fun y => ?_⟩
  · simp only [whereRule, bind_apply, child_apply, hc, need_some, sibling_apply, hs,
      setSibling_apply, setChild_apply, setKind_apply]
  · rw [label_setKind (by simpa)]
    grind [Label.turned, label_setSibling, label_setChild]
  · rw [child_setKind, child_setChild (by simpa)]
    simp
  · rw [sibling_setKind, sibling_setChild, sibling_setSibling (by simpa), sibling_setSibling he₂]

/-- The rule for `@` puts an application of the name to the left operand in front. -/
theorem atNameRule_apply {e₁ n e₂ : Nat} (hid : id < a.size) (he₁ : e₁ < a.size) (hn : n < a.size)
    (hc : a.child id = some e₁) (hs : a.sibling e₁ = some n) (hs' : a.sibling n = some e₂) :
    ∃ a', atNameRule id a = .ok () a' ∧ Relinked a a' 1
      (fun y => if y = id then (a.label id).turned .gamma else
        if y = a.size then (a.label id).beside .gamma else a.label y)
      (fun y => if y = id then some a.size else if y = a.size then some n else a.child y)
      (fun y => if y = a.size then some e₂ else if y = e₁ then none else
        if y = n then some e₁ else a.sibling y) := by
  refine ⟨((((a.alloc ((a.label id).beside .gamma)).setChildren a.size [n, e₁]).setSibling a.size
    (some e₂)).setChild id (some a.size)).setKind id .gamma,
    ?_, by simp, by simp, by simp, fun y => ?_, fun y => ?_, fun y => ?_⟩
  · simp only [atNameRule, bind_apply, child_apply, hc, need_some, sibling_apply, hs, hs',
      allocBeside_apply, setChildren_apply, setSibling_apply, setChild_apply, setKind_apply]
  · rw [label_setKind (by simp; omega)]
    grind [Label.turned, label_setSibling, label_setChild, label_setChildren, label_alloc]
  · rw [child_setKind, child_setChild (by simp; omega), child_setSibling,
      child_setChildren (by simp)]
    simp
  · rw [sibling_setKind, sibling_setChild, sibling_setSibling (by simp),
      sibling_setChildren_pair (by simp; omega) (by simp; omega), sibling_alloc]

/-- The rule for `within` binds the first name around the second right side. No link leads to the
    equations themselves any more. -/
theorem withinRule_apply {q₁ x₁ e₁ q₂ x₂ e₂ : Nat} (hid : id < a.size)
    (hlt : ∀ y ∈ [x₁, e₁, x₂, e₂], y < a.size)
    (hc : a.child id = some q₁) (hs : a.sibling q₁ = some q₂)
    (hk₁ : a.kind q₁ = .equation) (hc₁ : a.child q₁ = some x₁) (hs₁ : a.sibling x₁ = some e₁)
    (hk₂ : a.kind q₂ = .equation) (hc₂ : a.child q₂ = some x₂) (hs₂ : a.sibling x₂ = some e₂) :
    ∃ a', withinRule id a = .ok () a' ∧ Relinked a a' 2
      (fun y => if y = id then (a.label id).turned .equation else
        if y = a.size + 1 then (a.label id).beside .gamma else
          if y = a.size then (a.label id).beside .lambda else a.label y)
      (fun y => if y = id then some x₂ else if y = a.size + 1 then some a.size else
        if y = a.size then some x₁ else a.child y)
      (fun y => if y = a.size + 1 then none else if y = x₂ then some (a.size + 1) else
        if y = e₁ then none else if y = a.size then some e₁ else
          if y = e₂ then none else if y = x₁ then some e₂ else a.sibling y) := by
  simp only [List.forall_mem_cons] at hlt
  obtain ⟨hx₁, he₁, hx₂, he₂, -⟩ := hlt
  -- the arena that the rule leaves, change by change; the labels and links follow from it
  refine ⟨((((((a.alloc ((a.label id).beside .lambda)).setChildren a.size [x₁, e₂]).alloc
    ((a.label id).beside .gamma)).setChildren (a.size + 1) [a.size, e₁]).setChildren id
    [x₂, a.size + 1]).setKind id .equation),
    ?_, by simp, by simp, by simp, fun y => ?_, fun y => ?_, fun y => ?_⟩
  · simp (disch := omega) only [withinRule, bind_apply, child_apply, hc, need_some, sibling_apply,
      hs, sides_apply id _ hk₁ hc₁ hs₁, sides_apply id _ hk₂ hc₂ hs₂, allocBeside_apply,
      setChildren_apply, size_setChildren, size_alloc, label_setChildren, label_alloc, if_neg,
      setKind_apply]
  · rw [label_setKind (by simp; omega)]
    simp only [label_setChildren, label_alloc, size_setChildren, size_alloc]
    split
    · next heq => simp (disch := omega) only [heq, if_neg, Label.turned]
    · rfl
  · rw [child_setKind, child_setChildren (by simp; omega), child_setChildren (by simp), child_alloc,
      child_setChildren (by simp), child_alloc]
    rfl
  · rw [sibling_setKind, sibling_setChildren_pair (by simp; omega) (by simp),
      sibling_setChildren_pair (by simp) (by simp; omega), sibling_alloc,
      sibling_setChildren_pair (by simp; omega) (by simp; omega), sibling_alloc]

/-- The rule for `rec` makes a copy of the name for the equation. No link leads to the old equation
    itself any more. The copy is made last, when the name is below the lambda already. -/
theorem recursiveRule_apply {q x e : Nat} (hid : id < a.size) (hx : x < a.size)
    (hc : a.child id = some q) (hk : a.kind q = .equation) (hc' : a.child q = some x)
    (hs' : a.sibling x = some e) :
    ∃ a', recursiveRule id a = .ok () a' ∧ Relinked a a' 4
      (fun y => if y = id then (a.label id).turned .equation else
        if y = a.size + 3 then a.label x else
          if y = a.size + 2 then (a.label id).beside .gamma else
            if y = a.size + 1 then (a.label id).beside .ystar else
              if y = a.size then (a.label id).beside .lambda else a.label y)
      (fun y => if y = id then some (a.size + 3) else if y = a.size + 3 then a.child x else
        if y = a.size + 2 then some (a.size + 1) else if y = a.size then some x else a.child y)
      (fun y => if y = a.size + 2 then none else if y = a.size + 3 then some (a.size + 2) else
        if y = a.size then none else if y = a.size + 1 then some a.size else a.sibling y) := by
  -- the arena that the rule leaves, change by change; the labels and links follow from it
  refine ⟨(((((((((a.alloc ((a.label id).beside .lambda)).setChild a.size (some x)).alloc
    ((a.label id).beside .ystar)).alloc ((a.label id).beside .gamma)).setChildren (a.size + 2)
    [a.size + 1, a.size]).alloc (a.label x)).setChild (a.size + 3) (a.child x)).setChildren id
    [a.size + 3, a.size + 2]).setKind id .equation),
    ?_, by simp, by simp, by simp, fun y => ?_, fun y => ?_, fun y => ?_⟩
  · simp (disch := first | omega | (simp; done) | (simp; omega)) only [recursiveRule, bind_apply,
      child_apply, hc, need_some, sides_apply id _ hk hc' hs', allocBeside_apply, setChild_apply,
      size_setChild, size_alloc, size_setChildren, label_setChild, label_alloc, label_setChildren,
      setChildren_apply, get_apply, alloc_apply, setKind_apply, child_alloc, child_setChild,
      child_setChildren, if_neg, Nat.add_assoc, Nat.reduceAdd]
  · rw [label_setKind (by simp; omega)]
    simp only [label_setChildren, label_setChild, label_alloc, size_setChildren, size_setChild,
      size_alloc, Nat.add_assoc, Nat.reduceAdd]
    split
    · next heq => simp (disch := omega) only [heq, if_neg, Label.turned]
    · rfl
  · rw [child_setKind, child_setChildren (by simp; omega), child_setChild (by simp),
      child_alloc, child_setChildren (by simp), child_alloc, child_alloc, child_setChild (by simp),
      child_alloc]
    rfl
  · rw [sibling_setKind, sibling_setChildren_pair (by simp) (by simp), sibling_setChild,
      sibling_alloc, sibling_setChildren_pair (by simp) (by simp; omega), sibling_alloc,
      sibling_alloc, sibling_setChild, sibling_alloc]

end Rpal.Reshape
