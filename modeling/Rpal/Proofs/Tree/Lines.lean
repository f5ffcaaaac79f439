import Rpal.Proofs.Tree.Standard

/-!
# Lines of the canonical form

Bringing a tree into canonical form makes new nodes, each on the line of a node that was there: of the
construct that is rewritten, of a definition inside it, or of a parameter. So the canonical form is on
the lines of the tree.

## Key results

- `Tree.OnLines.rewrite`: one rule
- `Tree.OnLines.standard`: the canonical form
-/

namespace Rpal.Tree

variable {S : Nat → Prop} {l : Label} {t : Tree Label} {ts : List (Tree Label)}

/-- Every node of the tree is on a line of `S`. -/
def OnLines (S : Nat → Prop) (t : Tree Label) : Prop :=
  ∀ l ∈ t.preorder, S l.line

/-- The lines of a node are its own and those of its children. -/
theorem onLines_node : (node l ts).OnLines S ↔ S l.line ∧ ∀ t ∈ ts, t.OnLines S := by
  simp only [OnLines, preorder, preorderAll_eq_flatMap, List.forall_mem_cons, List.mem_flatMap]
  exact and_congr_right fun _ =>
    ⟨fun h t ht l hl => h l ⟨t, ht, hl⟩, fun h l ⟨t, ht, hl⟩ => h t ht l hl⟩

/-- The label of a tree is on one of its lines. -/
theorem OnLines.label (h : t.OnLines S) : S t.label.line := by
  cases t with
  | node l ts => exact (onLines_node.1 h).1

/-- Each lambda of a nest is on the line of its parameter. -/
theorem onLines_nest : ∀ {ts : List (Tree Label)}, ts ≠ [] → (∀ t ∈ ts, t.OnLines S) →
    (nest ts).OnLines S
  | [e], _, hts => hts e List.mem_cons_self
  | v :: e :: more, _, hts => by
    rw [List.forall_mem_cons] at hts
    have hnest := onLines_nest (List.cons_ne_nil e more) hts.2
    have hline : S (v.label.beside .lambda).line := hts.1.label
    simp [nest, onLines_node, hline, hts.1, hnest]

/-- The two sides of equations are on the lines of the equations. -/
theorem onLines_of_mem_sides? (hts : ∀ t ∈ ts, t.OnLines S) :
    ∀ p ∈ ts.filterMap sides?, p.1.OnLines S ∧ p.2.OnLines S := by
  intro p hp
  obtain ⟨d, hd, hsides⟩ := List.mem_filterMap.1 hp
  have hd := hts d hd
  unfold sides? at hsides
  split at hsides
  · split at hsides
    · cases hsides
      simpa using (onLines_node.1 hd).2
    · cases hsides
  · cases hsides

/-- A rule makes new nodes on lines of the old ones only. -/
theorem OnLines.rewrite (h : (node l ts).OnLines S) : (rewrite l ts).OnLines S := by
  obtain ⟨hl, hts⟩ := onLines_node.1 h
  unfold Tree.rewrite
  split
  case h_3 | h_4 =>
    -- the parameters of a function make a nest
    have hnest := onLines_nest (List.cons_ne_nil _ _) (List.forall_mem_cons.1 hts).2
    simp_all [onLines_node, Label.turned]
  case h_7 =>
    have hsides := onLines_of_mem_sides? hts
    simp only [onLines_node, Label.turned, Label.beside, List.forall_mem_cons, List.forall_mem_map]
    exact ⟨hl, ⟨hl, fun p hp => (hsides p hp).1⟩, ⟨hl, fun p hp => (hsides p hp).2⟩,
      List.forall_mem_nil _⟩
  -- the other rules only move the parts of the construct
  all_goals simp_all [onLines_node, Label.turned, Label.beside, leaf]

/-- The canonical form of a tree is on the lines of the tree. -/
theorem OnLines.standard (h : t.OnLines S) : t.standard.OnLines S := by
  induction t using Tree.induct with
  | node l ts ih =>
    obtain ⟨hl, hts⟩ := onLines_node.1 h
    rw [Tree.standard, standardAll_eq_map]
    refine OnLines.rewrite (onLines_node.2 ⟨hl, List.forall_mem_map.2 fun t ht => ?_⟩)
    exact ih t ht (hts t ht)

end Rpal.Tree
