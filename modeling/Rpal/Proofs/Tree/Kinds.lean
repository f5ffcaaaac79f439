import Rpal.Proofs.Control.Numbering
import Rpal.Proofs.Tree.Pattern

/-!
# Trees of the same constructs

Whether a tree is in canonical form, what its lambdas can bind and how they are numbered depends on
the constructs in it alone, and not on texts and lines.

## Key results

- `IsStandard.of_kinds`, `BindsParameters.of_kinds`: which trees are programs
- `numbers_eq_of_kinds`: the numbers of their lambdas
-/

namespace Rpal.Tree

/-- The constructs in a tree. -/
def kinds (t : Tree Label) : Tree Kind :=
  t.map Label.kind

section

variable {l : Label} {ts : List (Tree Label)} {t t' x e : Tree Label}

/-- The constructs of a node are its own and those of its children. -/
@[simp] theorem kinds_node (l : Label) (ts : List (Tree Label)) :
    (node l ts).kinds = node l.kind (ts.map kinds) := by
  rw [kinds, map, mapAll_eq_map]
  rfl

/-- A tree of the constructs of a node is a node of the same construct. -/
theorem kinds_node_eq (h : (node l ts).kinds = t'.kinds) :
    ∃ l' ts', t' = node l' ts' ∧ l'.kind = l.kind ∧ ts.map kinds = ts'.map kinds := by
  cases t' with
  | node l' ts' =>
    rw [kinds_node, kinds_node, node.injEq] at h
    exact ⟨l', ts', rfl, h.1.symm, h.2⟩

/-- A list of the constructs of two trees is a list of two trees. -/
theorem kinds_pair_eq {us : List (Tree Label)} (h : [x, e].map kinds = us.map kinds) :
    ∃ x' e', us = [x', e'] ∧ x.kinds = x'.kinds ∧ e.kinds = e'.kinds := by
  obtain ⟨x', us, rfl, hx, h⟩ := List.map_eq_cons_iff.1 h.symm
  obtain ⟨e', us, rfl, he, h⟩ := List.map_eq_cons_iff.1 h
  obtain rfl := List.map_eq_nil_iff.1 h
  exact ⟨x', e', rfl, hx.symm, he.symm⟩

/-- A list of the constructs of three trees is a list of three trees. -/
theorem kinds_triple_eq {p : Tree Label} {us : List (Tree Label)}
    (h : [p, x, e].map kinds = us.map kinds) :
    ∃ p' x' e', us = [p', x', e'] ∧ p.kinds = p'.kinds ∧ x.kinds = x'.kinds ∧
      e.kinds = e'.kinds := by
  obtain ⟨p', us, rfl, hp, h⟩ := List.map_eq_cons_iff.1 h.symm
  obtain ⟨x', e', rfl, hx, he⟩ := kinds_pair_eq h.symm
  exact ⟨p', x', e', rfl, hp.symm, hx, he⟩

/-- A tree of the construct of a leaf is a leaf. -/
theorem kinds_leaf_eq (h : (leaf l).kinds = t'.kinds) : ∃ l', t' = leaf l' ∧ l'.kind = l.kind := by
  obtain ⟨l', ts', rfl, hl, hts⟩ := kinds_node_eq h
  obtain rfl := List.map_eq_nil_iff.1 hts.symm
  exact ⟨l', rfl, hl⟩

/-- What holds of trees of the same constructs holds of the members of such lists. -/
theorem forall_of_kinds {P : Tree Label → Prop} {ts us : List (Tree Label)}
    (h : ts.map kinds = us.map kinds) (hP : ∀ t ∈ ts, ∀ t', t.kinds = t'.kinds → P t') :
    ∀ u ∈ us, P u := by
  intro u hu
  obtain ⟨t, ht, hkinds⟩ := List.mem_map.1 (h ▸ List.mem_map_of_mem hu)
  exact hP t ht u hkinds

/-- Being a name is a matter of constructs. -/
theorem IsName.of_kinds (h : IsName t) (hkinds : t.kinds = t'.kinds) : IsName t' := by
  obtain ⟨l, hl, rfl⟩ := h
  obtain ⟨l', rfl, hl'⟩ := kinds_leaf_eq hkinds
  exact ⟨l', hl'.trans hl, rfl⟩

/-- Being bindable is a matter of constructs. -/
theorem IsBindable.of_kinds (h : IsBindable t) (hkinds : t.kinds = t'.kinds) : IsBindable t' := by
  cases h with
  | name h => exact .name (h.of_kinds hkinds)
  | names hl hts =>
    obtain ⟨l', ts', rfl, hl', hts'⟩ := kinds_node_eq hkinds
    exact .names (hl'.trans hl) (forall_of_kinds hts' fun t ht t' => (hts t ht).of_kinds)
  | unit hl =>
    obtain ⟨l', rfl, hl'⟩ := kinds_leaf_eq hkinds
    exact .unit (hl'.trans hl)

/-- Being a binder is a matter of constructs. -/
theorem IsBinder.of_kinds (h : IsBinder t) (hkinds : t.kinds = t'.kinds) : IsBinder t' := by
  induction h generalizing t' with
  | name h => exact .name (h.of_kinds hkinds)
  | names hl hlen _ ih =>
    obtain ⟨l', ts', rfl, hl', hts'⟩ := kinds_node_eq hkinds
    refine .names (hl'.trans hl) ?_ (forall_of_kinds hts' fun t ht t' => ih t ht)
    rwa [← List.length_map (f := kinds), ← hts', List.length_map]

/-- Being a bound parameter is a matter of constructs. -/
theorem IsBound.of_kinds (h : IsBound t) (hkinds : t.kinds = t'.kinds) : IsBound t' := by
  cases h with
  | binder h => exact .binder (h.of_kinds hkinds)
  | unit hl =>
    obtain ⟨l', rfl, hl'⟩ := kinds_leaf_eq hkinds
    exact .unit (hl'.trans hl)

/-- A tree of the constructs of one in canonical form is in canonical form. -/
theorem IsStandard.of_kinds (h : IsStandard t) (hkinds : t.kinds = t'.kinds) : IsStandard t' := by
  induction h generalizing t' with
  | plain htakes _ ih =>
    obtain ⟨l', ts', rfl, hl', hts'⟩ := kinds_node_eq hkinds
    refine .plain ?_ (forall_of_kinds hts' fun t ht t' => ih t ht)
    rwa [hl', ← List.length_map (f := kinds), ← hts', List.length_map]
  | lambda hl hx _ ih =>
    obtain ⟨l', ts', rfl, hl', hts'⟩ := kinds_node_eq hkinds
    obtain ⟨x', e', rfl, hx', he'⟩ := kinds_pair_eq hts'
    exact .lambda (hl'.trans hl) (hx.of_kinds hx') (ih he')
  | fixpoint hl hly hll hx _ ih =>
    obtain ⟨l', ts', rfl, hl', hts'⟩ := kinds_node_eq hkinds
    obtain ⟨y', f', rfl, hy', hf'⟩ := kinds_pair_eq hts'
    obtain ⟨ly', rfl, hly'⟩ := kinds_leaf_eq hy'
    obtain ⟨ll', us', rfl, hll', hus'⟩ := kinds_node_eq hf'
    obtain ⟨x', e', rfl, hx', he'⟩ := kinds_pair_eq hus'
    exact .fixpoint (hl'.trans hl) (hly'.trans hly) (hll'.trans hll) (hx.of_kinds hx') (ih he')

/-- Trees of the same constructs bind parameters alike. -/
theorem BindsParameters.of_kinds (h : t.BindsParameters) (hkinds : t.kinds = t'.kinds) :
    t'.BindsParameters := by
  induction t using Tree.induct generalizing t' with
  | node l ts ih =>
    obtain ⟨l', ts', rfl, hl', hts'⟩ := kinds_node_eq hkinds
    rw [BindsParameters, forall_mem_subtrees] at h ⊢
    refine ⟨fun hlambda => ?_, forall_of_kinds hts' fun t ht t' => ih t ht (h.2 t ht)⟩
    have hhead : ts.head?.map kinds = ts'.head?.map kinds := by
      rw [← List.head?_map, hts', List.head?_map]
    intro x' hx'
    have hx' : ts'.head? = some x' := hx'
    rw [hx', Option.map_some, Option.map_eq_some_iff] at hhead
    obtain ⟨x, hx, hkinds⟩ := hhead
    exact (h.1 (hl' ▸ hlambda) x hx).of_kinds hkinds

end

/-! ### Numbers -/

/-- The numbers in a tree of constructs without lambdas do not depend on texts. -/
theorem numbers_map_constant {n : Nat} {t t' : Tree Label} (h : t.kinds = t'.kinds) :
    (t.map fun l => (⟨l, n⟩ : Numbered)).map Numbered.number =
      (t'.map fun l => (⟨l, n⟩ : Numbered)).map Numbered.number := by
  have hmap (t : Tree Label) : (t.map fun l => (⟨l, n⟩ : Numbered)).map Numbered.number =
      t.kinds.map fun _ => n := by
    induction t using Tree.induct with
    | node l ts ih => simpa [map] using ih
  rw [hmap, hmap, h]

/-- Trees of the same constructs have lambdas with bodies of the same constructs. -/
theorem met_kinds (t : Tree Label) :
    ∀ {t'}, t.kinds = t'.kinds → (met t).map kinds = (met t').map kinds := by
  -- the cases are those of the recursion: a lambda, a conditional, another node, and lists of trees
  refine met.induct (fun t => ∀ {t'}, t.kinds = t'.kinds → (met t).map kinds = (met t').map kinds)
    (fun ts => ∀ {ts'}, ts.map kinds = ts'.map kinds →
      (metAll ts).map kinds = (metAll ts').map kinds) ?_ ?_ ?_ ?_ ?_ t
  · intro l x e hl t' h
    obtain ⟨l', ts', rfl, hl', hts'⟩ := kinds_node_eq h
    obtain ⟨x', e', rfl, -, he⟩ := kinds_pair_eq hts'
    rw [met_lambda hl, met_lambda (hl'.trans hl), List.map_singleton, List.map_singleton, he]
  · intro l p e₁ e₂ hl ih₁ ih₂ ih t' h
    obtain ⟨l', ts', rfl, hl', hts'⟩ := kinds_node_eq h
    obtain ⟨p', e₁', e₂', rfl, hp, h₁, h₂⟩ := kinds_triple_eq hts'
    simp only [met_conditional hl, met_conditional (hl'.trans hl), List.map_append, ih₁ h₁, ih₂ h₂,
      ih hp]
  · intro l ts hlambda hcond ih t' h
    obtain ⟨l', ts', rfl, hl', hts'⟩ := kinds_node_eq h
    rw [met.eq_3 l ts hlambda hcond, met.eq_3 l' ts', ih hts']
    · -- the other tree is no lambda and no conditional either
      rintro x' e' hl rfl
      obtain ⟨x, e, rfl, -⟩ := kinds_pair_eq hts'.symm
      exact hlambda x e (hl'.symm.trans hl) rfl
    · rintro p' e₁' e₂' hl rfl
      obtain ⟨p, e₁, e₂, rfl, -⟩ := kinds_triple_eq hts'.symm
      exact hcond p e₁ e₂ (hl'.symm.trans hl) rfl
  · intro ts' h
    rw [List.map_eq_nil_iff.1 h.symm]
  · intro t ts iht ihts ts' h
    obtain ⟨t', ts', rfl, ht, hts⟩ := List.map_eq_cons_iff.1 h.symm
    simp only [metAll, List.map_append, iht ht.symm, ihts hts.symm]

/-- As many lambdas are met in trees of the same constructs. -/
theorem length_met_of_kinds {t t' : Tree Label} (h : t.kinds = t'.kinds) :
    (met t).length = (met t').length := by
  simpa using congrArg List.length (met_kinds t h)

/-- Trees of the same constructs are filled with the same numbers, if the bodies have the same. -/
theorem numbers_fill {bodies bodies' : Nat → Tree Numbered}
    (hbodies : ∀ k, (bodies k).map Numbered.number = (bodies' k).map Numbered.number)
    (t : Tree Label) : ∀ {t'} n, t.kinds = t'.kinds →
      (fill bodies n t).map Numbered.number = (fill bodies' n t').map Numbered.number := by
  -- the numbers that go to each part depend on how many lambdas are met in the parts before it
  refine met.induct
    (fun t => ∀ {t'} n, t.kinds = t'.kinds →
      (fill bodies n t).map Numbered.number = (fill bodies' n t').map Numbered.number)
    (fun ts => ∀ {ts'} n, ts.map kinds = ts'.map kinds →
      (fillAll bodies n ts).map (Tree.map Numbered.number) =
        (fillAll bodies' n ts').map (Tree.map Numbered.number)) ?_ ?_ ?_ ?_ ?_ t
  · intro l x e hl t' n h
    obtain ⟨l', ts', rfl, hl', hts'⟩ := kinds_node_eq h
    obtain ⟨x', e', rfl, hx, -⟩ := kinds_pair_eq hts'
    simp only [fill_lambda hl, fill_lambda (hl'.trans hl), map, mapAll, hbodies,
      numbers_map_constant hx]
  · intro l p e₁ e₂ hl ih₁ ih₂ ih t' n h
    obtain ⟨l', ts', rfl, hl', hts'⟩ := kinds_node_eq h
    obtain ⟨p', e₁', e₂', rfl, hp, h₁, h₂⟩ := kinds_triple_eq hts'
    simp only [fill_conditional hl, fill_conditional (hl'.trans hl), map, mapAll, ih₁ _ h₁, ih₂ _ h₂,
      ih _ hp, length_met_of_kinds h₁, length_met_of_kinds h₂]
  · intro l ts hlambda hcond ih t' n h
    obtain ⟨l', ts', rfl, hl', hts'⟩ := kinds_node_eq h
    rw [fill.eq_3 bodies n l ts hlambda hcond, fill.eq_3 bodies' n l' ts', map, map, mapAll_eq_map,
      mapAll_eq_map, ih n hts']
    · rintro x' e' hl rfl
      obtain ⟨x, e, rfl, -⟩ := kinds_pair_eq hts'.symm
      exact hlambda x e (hl'.symm.trans hl) rfl
    · rintro p' e₁' e₂' hl rfl
      obtain ⟨p, e₁, e₂, rfl, -⟩ := kinds_triple_eq hts'.symm
      exact hcond p e₁ e₂ (hl'.symm.trans hl) rfl
  · intro ts' n h
    rw [List.map_eq_nil_iff.1 h.symm]
    rfl
  · intro t ts iht ihts ts' n h
    obtain ⟨t', ts', rfl, ht, hts⟩ := List.map_eq_cons_iff.1 h.symm
    simp only [fillAll, List.map_cons, iht n ht.symm, ihts _ hts.symm, length_met_of_kinds ht]

/-- The bodies of the lambdas that are met in trees of the same constructs have the same constructs.
    -/
theorem flatMap_met_kinds {ts ts' : List (Tree Label)} (h : ts.map kinds = ts'.map kinds) :
    (ts.flatMap met).map kinds = (ts'.flatMap met).map kinds := by
  induction ts generalizing ts' with
  | nil => rw [List.map_eq_nil_iff.1 h.symm]
  | cons t ts ih =>
    obtain ⟨t', ts', rfl, ht, hts⟩ := List.map_eq_cons_iff.1 h.symm
    simp only [List.flatMap_cons, List.map_append, met_kinds t ht.symm, ih hts.symm]

/-- Trees of the same constructs are numbered alike. -/
theorem numbers_fillAll {bodies bodies' : Nat → Tree Numbered}
    (hbodies : ∀ k, (bodies k).map Numbered.number = (bodies' k).map Numbered.number) (n : Nat)
    {ts ts' : List (Tree Label)} (h : ts.map kinds = ts'.map kinds) :
    (fillAll bodies n ts).map (Tree.map Numbered.number) =
      (fillAll bodies' n ts').map (Tree.map Numbered.number) := by
  induction ts generalizing n ts' with
  | nil =>
    rw [List.map_eq_nil_iff.1 h.symm]
    rfl
  | cons t ts ih =>
    obtain ⟨t', ts', rfl, ht, hts⟩ := List.map_eq_cons_iff.1 h.symm
    simp only [fillAll, List.map_cons, numbers_fill hbodies t n ht.symm, ih _ hts.symm,
      length_met_of_kinds ht]

/-- Level by level, trees of the same constructs get the same numbers. -/
theorem numbers_numberAll (n : Nat) {ts ts' : List (Tree Label)}
    (h : ts.map kinds = ts'.map kinds) :
    (numberAll n ts).map (Tree.map Numbered.number) =
      (numberAll n ts').map (Tree.map Numbered.number) := by
  induction ts using met_induction generalizing n ts' with
  | nil => rw [List.map_eq_nil_iff.1 h.symm]
  | step ts hne ih =>
    have hne' : ts' ≠ [] := by
      rintro rfl
      exact hne (List.map_eq_nil_iff.1 h)
    have hmet := flatMap_met_kinds h
    have hlen : (ts.flatMap met).length = (ts'.flatMap met).length := by
      simpa using congrArg List.length hmet
    rw [numberAll_of_ne_nil n hne, numberAll_of_ne_nil n hne', ← hlen]
    refine numbers_fillAll (fun k => ?_) n h
    have hbodies := congrArg (fun us => us.getD (k - n) ((default : Tree Numbered).map
      Numbered.number)) (ih (n + (ts.flatMap met).length) hmet)
    simpa only [List.getD_map] using hbodies

/-- Trees of the same constructs have the same numbers. -/
theorem numbers_eq_of_kinds {t t' : Tree Label} (h : t.kinds = t'.kinds) :
    t.numbered.map Numbered.number = t'.numbered.map Numbered.number := by
  have hkinds : [t].map kinds = [t'].map kinds := congrArg (fun k => [k]) h
  have hall := numbers_numberAll 1 hkinds
  have hhead := congrArg (fun us => us.headD ((default : Tree Numbered).map Numbered.number)) hall
  simpa only [numbered, List.headD_map] using hhead

end Rpal.Tree
