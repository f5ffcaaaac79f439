import Rpal.Proofs.Control.Numbering

/-!
# Names and the lambdas that bind them

The names that occur in a tree where no lambda around them binds them. What a lambda binds does not
count as an occurrence.
-/

namespace Rpal.Tree

variable {α : Type} [Labelled α]

mutual

/-- The names that occur outside of parameters, each with its line, unless they are among `bound` or
    in the body of a lambda that binds them. -/
def freeNames (bound : List String) : Tree α → List (String × Nat)
  | node a ts =>
    match (Labelled.toLabel a).kind, ts with
    | .identifier, ts =>
      if (Labelled.toLabel a).content ∈ bound then freeNamesAll bound ts
      else ((Labelled.toLabel a).content, (Labelled.toLabel a).line) :: freeNamesAll bound ts
    | .lambda, [x, e] => freeNames (x.boundNames ++ bound) e
    | _, ts => freeNamesAll bound ts

/-- `freeNames` on a list of trees. -/
def freeNamesAll (bound : List String) : List (Tree α) → List (String × Nat)
  | [] => []
  | t :: ts => freeNames bound t ++ freeNamesAll bound ts

end

variable {a : α} {x e : Tree α} {ts : List (Tree α)} {bound : List String}

/-- The free names of trees are the free names of each. -/
theorem freeNamesAll_eq_flatMap : freeNamesAll bound ts = ts.flatMap (freeNames bound) := by
  induction ts with
  | nil => rfl
  | cons t ts ih => rw [freeNamesAll, ih, List.flatMap_cons]

/-- A name that is not bound occurs. -/
theorem mem_freeNames_identifier (ha : (Labelled.toLabel a).kind = .identifier)
    (hbound : (Labelled.toLabel a).content ∉ bound) :
    ((Labelled.toLabel a).content, (Labelled.toLabel a).line) ∈ (node a ts).freeNames bound := by
  rw [freeNames.eq_def]
  simp only [ha, if_neg hbound, List.mem_cons_self]

/-- A function binds the names of its parameter in its body. -/
theorem freeNames_lambda (ha : (Labelled.toLabel a).kind = .lambda) :
    (node a [x, e]).freeNames bound = e.freeNames (x.boundNames ++ bound) := by
  rw [freeNames.eq_def]
  simp only [ha]

/-- Names that occur in the children occur. -/
theorem mem_freeNames_of_mem {t : Tree α} {o : String × Nat}
    (hlambda : (Labelled.toLabel a).kind ≠ .lambda) (ht : t ∈ ts) (ho : o ∈ t.freeNames bound) :
    o ∈ (node a ts).freeNames bound := by
  have hall : o ∈ freeNamesAll bound ts := by
    rw [freeNamesAll_eq_flatMap]
    exact List.mem_flatMap.2 ⟨t, ht, ho⟩
  rw [freeNames.eq_def]
  dsimp only
  split
  · split
    · exact hall
    · exact List.mem_cons_of_mem _ hall
  · exact absurd ‹_› hlambda
  · exact hall

/-- The same names occur when the labels say the same of constructs. -/
theorem freeNames_map {β : Type} [Labelled β] {f : α → β}
    (hf : ∀ a, Labelled.toLabel (f a) = Labelled.toLabel a) (t : Tree α) (bound : List String) :
    (t.map f).freeNames bound = t.freeNames bound := by
  induction t using Tree.induct generalizing bound with
  | node a ts ih =>
    have hts : (ts.map (Tree.map f)).flatMap (freeNames bound) = ts.flatMap (freeNames bound) := by
      rw [List.flatMap_map]
      exact List.flatMap_congr fun t ht => ih t ht bound
    rw [Tree.map, mapAll_eq_map, freeNames.eq_def, freeNames.eq_def]
    simp only [hf]
    have hall : freeNamesAll bound (ts.map (Tree.map f)) = freeNamesAll bound ts := by
      rwa [freeNamesAll_eq_flatMap, freeNamesAll_eq_flatMap]
    cases (Labelled.toLabel a).kind with
    | identifier => simp only [hall]
    | lambda =>
      -- only a lambda with a parameter and a body is treated as one
      rcases ts with - | ⟨x, - | ⟨e, - | ⟨t, ts⟩⟩⟩
      · exact hall
      · exact hall
      · simp only [List.map_cons, List.map_nil]
        rw [boundNames_map hf, ih e (by simp)]
      · exact hall
    | _ => exact hall

end Rpal.Tree
