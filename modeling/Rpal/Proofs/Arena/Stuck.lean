import Rpal.Proofs.Arena.Settled
import Rpal.Proofs.Tree.Malformed

/-!
# Where standardization stops

A rule stops at a node if its children are not as it wants them. The nodes that were visited before
are settled then, and those that come later are as they were. So if the rules are applied to what has
become of the tree, they stop at the same node again: the way to it is the same, what is beside it is
settled, and a rule looks at nothing that changes when settled nodes are visited again.

## Key results

- `rule_stops`: a rule that refuses its node leaves the arena as it is
- `visit_of_stuck`: a visit that stops goes on to stop in the same way
- `standardize_of_halted`: standardization fails with the same error over and over
-/

namespace Rpal.Arena

variable {a a' : Arena} {id : Nat}

/-- The node is an equation with a left and a right side. -/
def hasSides (a : Arena) (id : Nat) : Bool :=
  a.kind id = .equation && ((a.child id).bind a.sibling).isSome

/-- Whether a node is an equation depends on the node and on whether its first child has a sibling. -/
theorem hasSides_congr (hlabel : a'.label id = a.label id) (hchild : a'.child id = a.child id)
    (hsibling : ∀ v, a.child id = some v → (a'.sibling v).isSome = (a.sibling v).isSome) :
    a'.hasSides id = a.hasSides id := by
  have hkind : a'.kind id = a.kind id := congrArg Label.kind hlabel
  rw [hasSides, hasSides, hkind, hchild]
  cases hc : a.child id with
  | none => rfl
  | some v => rw [Option.bind_some, Option.bind_some, hsibling v hc]

end Rpal.Arena

namespace Rpal.Reshape

open Arena

variable {a : Arena} {id : Nat} {ids : List Nat} {d : Defect}

/-! ### Rules that stop -/

/-- What is needed and missing is an error about the owner. -/
theorem need_none (owner : Nat) (d : Defect) (a : Arena) : need owner none d a =
    .error (.malformed (a.kind owner) (a.line owner) d) a := rfl

/-- The sides of a node that has them. -/
theorem sides_of_hasSides (owner : Nat) (d : Defect) (h : a.hasSides id = true) :
    ∃ x y, a.kind id = .equation ∧ a.child id = some x ∧ a.sibling x = some y ∧
      sides owner id d a = .ok (x, y) a := by
  obtain ⟨hk, hsome⟩ := Bool.and_eq_true_iff.1 h
  obtain ⟨y, hy⟩ := Option.isSome_iff_exists.1 hsome
  obtain ⟨x, hx, hy⟩ := Option.bind_eq_some_iff.1 hy
  have hk := of_decide_eq_true hk
  exact ⟨x, y, hk, hx, hy, sides_apply owner d hk hx hy⟩

/-- The rule for `owner` stops at a node that does not have sides. -/
theorem sides_of_not_hasSides (owner : Nat) (d : Defect) (h : a.hasSides id = false) :
    sides owner id d a = .error (.malformed (a.kind owner) (a.line owner) d) a := by
  simp only [sides, bind_apply, get_apply]
  split
  · next hk =>
    cases hx : a.child id with
    | none => simp only [bind_apply, child_apply, hx, need_none]
    | some x =>
      cases hy : a.sibling x with
      | none => simp only [bind_apply, child_apply, hx, need_some, sibling_apply, hy, need_none]
      | some y => simp [hasSides, hk, hx, hy] at h
  · rfl

/-- The rule for `owner` stops at the first of several nodes that does not have sides. -/
theorem allSides_of_not_all (owner : Nat) (d : Defect) (h : ids.all a.hasSides = false) :
    allSides owner d ids a = .error (.malformed (a.kind owner) (a.line owner) d) a := by
  induction ids with
  | nil => cases h
  | cons q qs ih =>
    cases hq : a.hasSides q with
    | false => simp only [allSides, bind_apply, sides_of_not_hasSides owner d hq]
    | true =>
      obtain ⟨x, y, -, -, -, hrun⟩ := sides_of_hasSides owner d hq
      rw [List.all_cons, hq, Bool.true_and] at h
      simp only [allSides, bind_apply, hrun, ih h]

/-- The change stops at the node and leaves the arena as it is. -/
def Stops (x : Reshape Unit) (a : Arena) (id : Nat) (d : Defect) : Prop :=
  x a = .error (.malformed (a.kind id) (a.line id) d) a

/-- The rule for `let` stops at its first defect. -/
theorem letRule_stops (hchain : a.Chain (a.child id) ids)
    (hd : Kind.letIn.defect? (ids.map a.hasSides) = some d) : Stops (letRule id) a id d := by
  -- a defect is found at the first operand, or behind it if there is no second one
  match ids, hchain with
  | [], hc =>
    cases hd
    simp only [Stops, letRule, bind_apply, child_apply, chain_nil.1 hc, need_none]
  | q :: rest, ⟨hc, hrest⟩ =>
    rw [List.map_cons] at hd
    cases hq : a.hasSides q with
    | false =>
      rw [hq] at hd
      cases hd
      simp only [Stops, letRule, bind_apply, child_apply, hc, need_some,
        sides_of_not_hasSides _ _ hq]
    | true =>
      obtain ⟨x, y, -, -, -, hrun⟩ := sides_of_hasSides id .noEquation hq
      rw [hq] at hd
      cases rest with
      | nil =>
        cases hd
        simp only [Stops, letRule, bind_apply, child_apply, hc, need_some, hrun, sibling_apply,
          chain_nil.1 hrest, need_none]
      | cons r rest => cases hd

/-- The rule for `where` stops at its first defect, except that the rule for `let` looks for an
    equation. -/
theorem whereRule_stops (hchain : a.Chain (a.child id) ids)
    (hd : Kind.whereIn.defect? (ids.map a.hasSides) = some d) (hne : d ≠ .noEquation) :
    Stops (whereRule id) a id d := by
  match ids, hchain with
  | [], hc =>
    cases hd
    simp only [Stops, whereRule, bind_apply, child_apply, chain_nil.1 hc, need_none]
  | [e], ⟨hc, hs⟩ =>
    cases hd
    simp only [Stops, whereRule, bind_apply, child_apply, hc, need_some, sibling_apply,
      chain_nil.1 hs, need_none]
  | e :: q :: rest, _ =>
    rw [List.map_cons, List.map_cons] at hd
    cases hq : a.hasSides q with
    | false =>
      rw [hq] at hd
      cases hd
      -- what is wrong is the second operand, which the rule for `let` finds and reports
      exact absurd rfl hne
    | true =>
      rw [hq] at hd
      cases hd

/-- The rule for `function_form` stops at its first defect. -/
theorem functionFormRule_stops (hchain : a.Chain (a.child id) ids)
    (hd : Kind.functionForm.defect? (ids.map a.hasSides) = some d) :
    Stops (functionFormRule id) a id d := by
  match ids, hchain with
  | [], hc =>
    cases hd
    simp only [Stops, functionFormRule, bind_apply, child_apply, chain_nil.1 hc, need_none]
  | [p], ⟨hc, hs⟩ =>
    cases hd
    simp only [Stops, functionFormRule, bind_apply, child_apply, hc, need_some, sibling_apply,
      chain_nil.1 hs, need_none]
  | [p, v], ⟨hc, hs, hs'⟩ =>
    cases hd
    simp only [Stops, functionFormRule, bind_apply, child_apply, hc, need_some, sibling_apply, hs,
      chain_nil.1 hs', need_none]
  | p :: v :: w :: rest, _ => cases hd

/-- The rule for `lambda` stops at its first defect. -/
theorem lambdaRule_stops (hchain : a.Chain (a.child id) ids)
    (hd : Kind.lambda.defect? (ids.map a.hasSides) = some d) : Stops (lambdaRule id) a id d := by
  match ids, hchain with
  | [], hc =>
    cases hd
    simp only [Stops, lambdaRule, bind_apply, child_apply, chain_nil.1 hc, need_none]
  | [v], ⟨hc, hs⟩ =>
    cases hd
    simp only [Stops, lambdaRule, bind_apply, child_apply, hc, need_some, sibling_apply,
      chain_nil.1 hs, need_none]
  | v :: w :: rest, _ => cases hd

/-- The rule for `@` stops at its first defect. -/
theorem atNameRule_stops (hchain : a.Chain (a.child id) ids)
    (hd : Kind.atName.defect? (ids.map a.hasSides) = some d) : Stops (atNameRule id) a id d := by
  match ids, hchain with
  | [], hc =>
    cases hd
    simp only [Stops, atNameRule, bind_apply, child_apply, chain_nil.1 hc, need_none]
  | [e], ⟨hc, hs⟩ =>
    cases hd
    simp only [Stops, atNameRule, bind_apply, child_apply, hc, need_some, sibling_apply,
      chain_nil.1 hs, need_none]
  | [e, n], ⟨hc, hs, hs'⟩ =>
    cases hd
    simp only [Stops, atNameRule, bind_apply, child_apply, hc, need_some, sibling_apply, hs,
      chain_nil.1 hs', need_none]
  | e :: n :: f :: rest, _ => cases hd

/-- The rule for `within` stops at its first defect. -/
theorem withinRule_stops (hchain : a.Chain (a.child id) ids)
    (hd : Kind.within.defect? (ids.map a.hasSides) = some d) : Stops (withinRule id) a id d := by
  -- the first operand is looked at before the second one, but both have to be there for that
  match ids, hchain with
  | [], hc =>
    cases hd
    simp only [Stops, withinRule, bind_apply, child_apply, chain_nil.1 hc, need_none]
  | [q], ⟨hc, hs⟩ =>
    have hd : some .notTwoEquations = some d := by
      rw [← hd, List.map_singleton]
      cases a.hasSides q <;> rfl
    cases hd
    simp only [Stops, withinRule, bind_apply, child_apply, hc, need_some, sibling_apply,
      chain_nil.1 hs, need_none]
  | q :: r :: rest, ⟨hc, hs, _⟩ =>
    rw [List.map_cons, List.map_cons] at hd
    cases hq : a.hasSides q with
    | false =>
      rw [hq] at hd
      cases hd
      simp only [Stops, withinRule, bind_apply, child_apply, hc, need_some, sibling_apply, hs,
        sides_of_not_hasSides _ _ hq]
    | true =>
      obtain ⟨x, y, -, -, -, hrun⟩ := sides_of_hasSides id .notTwoEquations hq
      cases hr : a.hasSides r with
      | false =>
        rw [hq, hr] at hd
        cases hd
        simp only [Stops, withinRule, bind_apply, child_apply, hc, need_some, sibling_apply, hs,
          hrun, sides_of_not_hasSides _ _ hr]
      | true =>
        rw [hq, hr] at hd
        cases hd

/-- The rule for `and` stops at its first defect. -/
theorem simultaneousRule_stops (hchain : a.Chain (a.child id) ids) (hlen : ids.length ≤ a.size)
    (hd : Kind.simultaneous.defect? (ids.map a.hasSides) = some d) :
    Stops (simultaneousRule id) a id d := by
  have hchildren : a.children id = ids := hchain.siblings hlen
  cases ids with
  | nil =>
    cases hd
    simp only [Stops, simultaneousRule, bind_apply, get_apply, hchildren, List.isEmpty_nil, if_true]
    rfl
  | cons q qs =>
    obtain ⟨hall, rfl⟩ : (q :: qs).all a.hasSides = false ∧ .notAllEquations = d := by
      rw [List.map_cons, Kind.defect?, ← List.map_cons, List.all_map, Function.id_comp] at hd
      · split at hd
        · cases hd
        · next hne => exact ⟨Bool.eq_false_of_not_eq_true hne, Option.some.inj hd⟩
      · exact List.cons_ne_nil _ _
    simp only [Stops, simultaneousRule, bind_apply, get_apply, hchildren, List.isEmpty_cons,
      Bool.false_eq_true, if_false, allSides_of_not_all _ _ hall]

/-- The rule for `rec` stops at its first defect. -/
theorem recursiveRule_stops (hchain : a.Chain (a.child id) ids)
    (hd : Kind.recursive.defect? (ids.map a.hasSides) = some d) :
    Stops (recursiveRule id) a id d := by
  match ids, hchain with
  | [], hc =>
    cases hd
    simp only [Stops, recursiveRule, bind_apply, child_apply, chain_nil.1 hc, need_none]
  | q :: rest, ⟨hc, _⟩ =>
    rw [List.map_cons] at hd
    cases hq : a.hasSides q with
    | false =>
      rw [hq] at hd
      cases hd
      simp only [Stops, recursiveRule, bind_apply, child_apply, hc, need_some,
        sides_of_not_hasSides _ _ hq]
    | true =>
      rw [hq] at hd
      cases hd

/-- A rule that refuses its node leaves the arena as it is. -/
theorem rule_stops (hchain : a.Chain (a.child id) ids) (hlen : ids.length ≤ a.size)
    (hd : (a.kind id).defect? (ids.map a.hasSides) = some d)
    (hreported : (a.kind id).reported d = a.kind id) : Stops (rule id) a id d := by
  have hrun {x : Reshape Unit} (hx : Stops x a id d) (hrule : rule id a = x a) :
      Stops (rule id) a id d := hrule.trans hx
  cases hk : a.kind id with
  | letIn => exact hrun (letRule_stops hchain (hk ▸ hd)) (by rw [rule_apply, hk])
  | whereIn =>
    refine hrun (whereRule_stops hchain (hk ▸ hd) ?_) (by rw [rule_apply, hk])
    -- a `where` without an equation would be reported as something else
    rintro rfl
    rw [hk] at hreported
    cases hreported
  | functionForm => exact hrun (functionFormRule_stops hchain (hk ▸ hd)) (by rw [rule_apply, hk])
  | lambda => exact hrun (lambdaRule_stops hchain (hk ▸ hd)) (by rw [rule_apply, hk])
  | atName => exact hrun (atNameRule_stops hchain (hk ▸ hd)) (by rw [rule_apply, hk])
  | within => exact hrun (withinRule_stops hchain (hk ▸ hd)) (by rw [rule_apply, hk])
  | simultaneous =>
    exact hrun (simultaneousRule_stops hchain hlen (hk ▸ hd)) (by rw [rule_apply, hk])
  | recursive => exact hrun (recursiveRule_stops hchain (hk ▸ hd)) (by rw [rule_apply, hk])
  | _ =>
    rw [hk] at hd
    cases hd

end Rpal.Reshape

namespace Rpal.Arena

variable {a a' : Arena} {S S' T P Q : Set Nat} {id n : Nat} {ids : List Nat} {link : Option Nat}
  {e : StandardizeError} {d : Defect}

/-! ### Visits that stop -/

/-- The rule for the node stops because of its children `ids`, at which no rule stops. -/
structure Refuses (a : Arena) (S P : Set Nat) (id : Nat) (ids : List Nat) (d : Defect) : Prop where
  chain : a.Chain (a.child id) ids
  length_le : ids.length ≤ a.size
  inside : ∀ y ∈ ids, y ∈ P
  clear : ∀ y ∈ ids, a.Clear S y
  defect : (a.kind id).defect? (ids.map a.hasSides) = some d
  reported : (a.kind id).reported d = a.kind id

/-- A visit from the link on stops with the error, along up to `n` links. Its way leads through nodes
    in `P`, and what is beside it is settled. -/
def Stuck (a : Arena) (S P : Set Nat) (e : StandardizeError) : Nat → Option Nat → Prop
  | n + 1, some id => id ∈ P ∧
    ((∃ ids d, a.Refuses S P id ids d ∧ e = (a.label id).malformed d) ∨
      a.Stuck S P e n (a.child id) ∨ a.Clear S id ∧ a.Stuck S P e n (a.sibling id))
  | _, _ => False

/-- A node is refused among more settled places. -/
theorem Refuses.mono (h : a.Refuses S P id ids d) (hS : S ⊆ T) (hP : P ⊆ Q) :
    a.Refuses T Q id ids d :=
  { h with
    inside := fun y hy => hP (h.inside y hy)
    clear := fun y hy => (h.clear y hy).mono hS }

/-- More nodes are settled, and the way leads through more of them. -/
theorem Stuck.mono (h : a.Stuck S P e n link) (hS : S ⊆ T) (hP : P ⊆ Q) :
    a.Stuck T Q e n link := by
  induction n generalizing link with
  | zero => exact h.elim
  | succ n ih =>
    cases link with
    | none => exact h.elim
    | some id =>
      obtain ⟨hmem, h⟩ := h
      refine ⟨hP hmem, ?_⟩
      obtain ⟨ids, d, hrefuses, he⟩ | hbelow | ⟨hclear, hbehind⟩ := h
      · exact .inl ⟨ids, d, hrefuses.mono hS hP, he⟩
      · exact .inr (.inl (ih hbelow))
      · exact .inr (.inr ⟨hclear.mono hS, ih hbehind⟩)

/-- A rule that stops goes on to do so. -/
theorem Resettled.refuses (h : Resettled a a' S S') (ha : a.Settled S)
    (hP : ∀ y ∈ P, y < a.size ∧ y ∉ S) (hid : id < a.size) (hrefuses : a.Refuses S P id ids d) :
    a'.Refuses S' P id ids d := by
  have hkind : a'.kind id = a.kind id := congrArg Label.kind (h.label_eq id hid)
  have hids : ∀ y ∈ ids, y < a.size ∧ y ∉ S := fun y hy => hP y (hrefuses.inside y hy)
  have hsides : ids.map a'.hasSides = ids.map a.hasSides := by
    refine List.map_congr_left fun y hy => ?_
    have hlt := (hids y hy).1
    refine hasSides_congr (h.label_eq y hlt) (h.child_eq y hlt) fun v hv => ?_
    exact h.isSome_sibling v (ha.lt v ((hrefuses.clear y hy).child v hv))
  exact {
    chain := by
      rw [h.child_eq id hid]
      exact h.chain hids hrefuses.chain
    length_le := Nat.le_trans hrefuses.length_le h.size_le
    inside := hrefuses.inside
    clear := fun y hy => h.clear ha (hids y hy).1 (hrefuses.clear y hy)
    defect := by rw [hkind, hsides, hrefuses.defect]
    reported := by rw [hkind, hrefuses.reported] }

/-- A visit that stops goes on to do so. -/
theorem Resettled.stuck (h : Resettled a a' S S') (ha : a.Settled S)
    (hP : ∀ y ∈ P, y < a.size ∧ y ∉ S) (hstuck : a.Stuck S P e n link) :
    a'.Stuck S' P e n link := by
  induction n generalizing link with
  | zero => exact hstuck.elim
  | succ n ih =>
    cases link with
    | none => exact hstuck.elim
    | some id =>
      obtain ⟨hmem, hstuck⟩ := hstuck
      obtain ⟨hid, hS⟩ := hP id hmem
      refine ⟨hmem, ?_⟩
      obtain ⟨ids, d, hrefuses, rfl⟩ | hbelow | ⟨hclear, hbehind⟩ := hstuck
      · exact .inl ⟨ids, d, h.refuses ha hP hid hrefuses, by rw [h.label_eq id hid]⟩
      · rw [h.child_eq id hid]
        exact .inr (.inl (ih hbelow))
      · rw [h.sibling_eq id hid hS]
        exact .inr (.inr ⟨h.clear ha hid hclear, ih hbehind⟩)

end Rpal.Arena

namespace Rpal.Reshape

open Arena

variable {a : Arena} {S P : Set Nat} {id n : Nat} {ids : List Nat} {link : Option Nat}
  {e : StandardizeError} {d : Defect}

/-- A rule that refuses its node. -/
theorem rule_of_refuses (h : a.Refuses S P id ids d) :
    rule id a = .error ((a.label id).malformed d) a := by
  have hstops := rule_stops h.chain h.length_le h.defect h.reported
  rwa [Stops, ← h.reported] at hstops

/-- The children of a node that is refused can be visited, and it is refused again then. -/
theorem visit_of_refuses (n : Nat) (h : a.Settled S) (hP : ∀ y ∈ P, y < a.size ∧ y ∉ S)
    (hid : id < a.size) (hrefuses : a.Refuses S P id ids d) : ∃ a' S', Resettled a a' S S' ∧
      (do visit n (← child id); rule id : Reshape Unit) a =
        .error ((a.label id).malformed d) a' := by
  obtain ⟨a', S', hrun, h'⟩ := visit_chain n h hrefuses.chain
    (fun y hy => hP y (hrefuses.inside y hy)) hrefuses.clear
  refine ⟨a', S', h', ?_⟩
  simp only [bind_apply, child_apply, hrun, rule_of_refuses (h'.refuses h hP hid hrefuses),
    h'.label_eq id hid]

/-- A visit that is stuck stops with the error and only changes what is settled. The induction is on
    the number of links, which the way from a link to the node that is refused does not exceed. -/
theorem visit_of_stuck (h : a.Settled S) (hP : ∀ y ∈ P, y < a.size ∧ y ∉ S)
    (hstuck : a.Stuck S P e n link) :
    ∃ a' S', visit n link a = .error e a' ∧ Resettled a a' S S' := by
  induction n generalizing a S link with
  | zero => exact hstuck.elim
  | succ n ih =>
    cases link with
    | none => exact hstuck.elim
    | some id =>
      obtain ⟨hmem, hstuck⟩ := hstuck
      obtain ⟨hid, hS⟩ := hP id hmem
      -- the node is refused itself, or the way goes on below it, or behind it
      obtain ⟨ids, d, hrefuses, rfl⟩ | hbelow | ⟨hclear, hbehind⟩ := hstuck
      · obtain ⟨a₁, S₁, h₁, hrun⟩ := visit_of_refuses n h hP hid hrefuses
        exact ⟨a₁, S₁, visit_succ_error hrun, h₁⟩
      · obtain ⟨a₁, S₁, hrun, h₁⟩ := ih h hP hbelow
        refine ⟨a₁, S₁, ?_, h₁⟩
        simp only [visit, bind_apply, child_apply, hrun]
      · obtain ⟨a₁, S₁, h₁, hrun⟩ := visit_clear (n := n) h hid hS hclear
        obtain ⟨a₂, S₂, hrun₂, h₂⟩ := ih h₁.settled
          (fun y hy => ⟨Nat.lt_of_lt_of_le (hP y hy).1 h₁.size_le, h₁.notMem (hP y hy).1 (hP y hy).2⟩)
          (h₁.stuck h hP hbehind)
        exact ⟨a₂, S₂, hrun.trans hrun₂, h₁.trans h₂⟩

end Rpal.Reshape

/-! ### Standardization that fails -/

namespace Rpal.Arena

open Reshape

variable {a a' : Arena} {S S' P : Set Nat} {id n : Nat} {link : Option Nat} {e : StandardizeError}

/-- What stops along some links stops along more. -/
theorem Stuck.le {m : Nat} (h : a.Stuck S P e n link) (hn : n ≤ m) : a.Stuck S P e m link := by
  induction n generalizing m link with
  | zero => exact h.elim
  | succ n ih =>
    obtain ⟨m, rfl⟩ : ∃ k, m = k + 1 := ⟨m - 1, by omega⟩
    have hn := Nat.le_of_succ_le_succ hn
    cases link with
    | none => exact h.elim
    | some id =>
      obtain ⟨hmem, h⟩ := h
      refine ⟨hmem, ?_⟩
      obtain hrefuses | hbelow | ⟨hclear, hbehind⟩ := h
      · exact .inl hrefuses
      · exact .inr (.inl (ih hbelow hn))
      · exact .inr (.inr ⟨hclear, ih hbehind hn⟩)

/-- A larger arena has longer chains of links at most. -/
theorem linkBound_mono (h : a.size ≤ a'.size) : linkBound a ≤ linkBound a' :=
  Nat.mul_le_mul (Nat.add_le_add_right h 2) (Nat.add_le_add_right h 2)

/-- Standardization of the arena has failed with the error and left it so that it fails again: the
    rules stop at the root, or below it. -/
structure Halted (a : Arena) (S P : Set Nat) (e : StandardizeError) (root : Nat) : Prop where
  mark_eq : a.standardized = false
  root_eq : a.root = some root
  settled : a.Settled S
  inside : ∀ y ∈ P, y < a.size ∧ y ∉ S
  mem : root ∈ P
  stops : (∃ ids d, a.Refuses S P root ids d ∧ e = (a.label root).malformed d) ∨
    a.Stuck S P e (linkBound a) (a.child root)

/-- When settled nodes are visited, an arena stays so that standardization fails. -/
theorem Halted.resettled {root : Nat} (h : a.Halted S P e root) (h' : Resettled a a' S S') :
    a'.Halted S' P e root := by
  obtain ⟨hroot, hS⟩ := h.inside root h.mem
  refine ⟨h'.mark_eq.trans h.mark_eq, h'.root_eq.trans h.root_eq, h'.settled, fun y hy => ?_, h.mem,
    ?_⟩
  · obtain ⟨hlt, hS⟩ := h.inside y hy
    exact ⟨Nat.lt_of_lt_of_le hlt h'.size_le, h'.notMem hlt hS⟩
  · obtain ⟨ids, d, hrefuses, rfl⟩ | hstuck := h.stops
    · have hrefuses := h'.refuses h.settled h.inside hroot hrefuses
      exact .inl ⟨ids, d, hrefuses, by rw [h'.label_eq root hroot]⟩
    · rw [h'.child_eq root hroot]
      exact .inr ((h'.stuck h.settled h.inside hstuck).le (linkBound_mono h'.size_le))

end Rpal.Arena

namespace Rpal.Reshape

open Arena

variable {a : Arena} {S P : Set Nat} {root : Nat} {e : StandardizeError}

/-- The tree is standardized as any subtree is, and marked. -/
theorem standardize_apply (hmark : a.standardized = false) (hroot : a.root = some root) :
    standardize a =
      match (do visit (linkBound a) (← child root); rule root : Reshape Unit) a with
      | .ok _ a' => .ok () { a' with standardized := true }
      | .error e a' => .error e a' := by
  simp only [standardize, bind_apply, get_apply, hmark, Bool.false_eq_true, if_false, hroot,
    child_apply]
  cases visit (linkBound a) (a.child root) a with
  | error e a₁ => rfl
  | ok v a₁ =>
    simp only
    cases rule root a₁ <;> rfl

/-- Standardization fails with the same error, and goes on to do so. -/
theorem standardize_of_halted (h : a.Halted S P e root) :
    ∃ a' S', standardize a = .error e a' ∧ a'.Halted S' P e root := by
  obtain ⟨a', S', h', hrun⟩ : ∃ a' S', Resettled a a' S S' ∧
      (do visit (linkBound a) (← child root); rule root : Reshape Unit) a = .error e a' := by
    obtain ⟨ids, d, hrefuses, rfl⟩ | hstuck := h.stops
    · exact visit_of_refuses (linkBound a) h.settled h.inside (h.inside root h.mem).1 hrefuses
    · obtain ⟨a', S', hrun, h'⟩ := visit_of_stuck h.settled h.inside hstuck
      refine ⟨a', S', h', ?_⟩
      simp only [bind_apply, child_apply, hrun]
  exact ⟨a', S', by rw [standardize_apply h.mark_eq h.root_eq, hrun], h.resettled h'⟩

/-- The arena after a change, which may have stopped half way. -/
def after (x : Reshape Unit) (a : Arena) : Arena :=
  match x a with
  | .ok _ a' => a'
  | .error _ a' => a'

/-- However often standardization has been tried, it fails again. -/
theorem iterate_of_halted (n : Nat) (h : a.Halted S P e root) :
    ∃ S', Halted ((after standardize)^[n] a) S' P e root := by
  induction n with
  | zero => exact ⟨S, h⟩
  | succ n ih =>
    obtain ⟨S', h'⟩ := ih
    obtain ⟨a', S'', hrun, h''⟩ := standardize_of_halted h'
    have hafter : after standardize ((after standardize)^[n] a) = a' := by rw [after, hrun]
    rw [Function.iterate_succ_apply', hafter]
    exact ⟨S'', h''⟩

end Rpal.Reshape
