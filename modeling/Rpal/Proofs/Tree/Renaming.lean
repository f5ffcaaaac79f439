import Rpal.Proofs.Tree.Kinds

/-!
# Renamed parameters

A parameter of a lambda can be given another name, if all occurrences of the parameter are renamed
with it. These are the identifiers of that name in the body of the lambda, outside of inner lambdas
that bind the name again.

Two trees that differ in the names of their parameters are compared with the parameters around them
in mind: `Binders` are the names bound at corresponding places of the two trees, the last binding
first. Identifiers correspond if they are bound at the same place, or if they are bound nowhere and
are the same.

## Key results

- `Renames`: one parameter of one lambda is renamed
- `Alpha`: trees that are the same up to the names of parameters
- `Renames.kinds_eq`, `Renames.alpha`: renaming a parameter to a fresh name makes such a tree
-/

namespace Rpal

/-! ### Names bound at corresponding places -/

/-- The name `n` after `x` was renamed to `y`. -/
def renamed (x y n : String) : String :=
  if n = x then y else n

/-- The renamed name becomes the new one. -/
@[simp] theorem renamed_self (y n : String) : renamed y y n = n := by
  rw [renamed]
  split
  · next h => exact h.symm
  · rfl

/-- Other names stay. -/
theorem renamed_of_ne {x y n : String} (h : n ≠ x) : renamed x y n = n :=
  if_neg h

/-- Two names stay different if neither is the new one. -/
theorem eq_of_renamed_eq {x y m n : String} (hm : m ≠ y) (hn : n ≠ y)
    (h : renamed x y m = renamed x y n) : m = n := by
  unfold renamed at h
  split at h <;> split at h <;> simp_all

/-- The names bound at corresponding places of two trees, the last binding first. -/
abbrev Binders : Type :=
  List (String × String)

namespace Binders

/-- The names `n` and `n'` stand for the same. -/
def Pairs : Binders → String → String → Prop
  | [], n, n' => n = n'
  | (x, x') :: bs, n, n' => if n = x then n' = x' else n' ≠ x' ∧ Pairs bs n n'

/-- The binders inside of lambdas that bind `names` and `names'`. -/
def inside (bs : Binders) (names names' : List String) : Binders :=
  (names.zip names').reverse ++ bs

/-- The binders rename `x` to `y`. Nothing is said of a `y` that was there before. -/
def Renames (x y : String) (bs : Binders) : Prop :=
  ∀ n, n ≠ y → bs.Pairs n (renamed x y n)

variable {x y n : String} {bs : Binders} {names : List String}

/-- A name that is bound last is renamed as it is where it is bound. -/
theorem pairs_append {cs : Binders} (hcs : ∀ c ∈ cs, c.1 ≠ y ∧ c.2 = renamed x y c.1) (hn : n ≠ y)
    (h : n ∉ cs.map Prod.fst → bs.Pairs n (renamed x y n)) :
    Pairs (cs ++ bs) n (renamed x y n) := by
  induction cs with
  | nil => exact h List.not_mem_nil
  | cons c cs ih =>
    obtain ⟨z, z'⟩ := c
    obtain ⟨⟨hz, hz'⟩, hcs⟩ := List.forall_mem_cons.1 hcs
    rw [List.cons_append, Pairs, show z' = renamed x y z from hz']
    split
    · next heq => rw [heq]
    · next hne =>
      refine ⟨fun heq => hne (eq_of_renamed_eq hn hz heq), ih hcs fun hnotMem => h ?_⟩
      rw [List.map_cons, List.mem_cons, not_or]
      exact ⟨hne, hnotMem⟩

/-- The names bound by a parameter are paired with their renamed ones. -/
theorem pairs_inside (hy : y ∉ names) (hn : n ≠ y) (h : n ∉ names → bs.Pairs n (renamed x y n)) :
    (bs.inside names (names.map (renamed x y))).Pairs n (renamed x y n) := by
  have hzip : names.zip (names.map (renamed x y)) = names.map fun z => (z, renamed x y z) := by
    simpa using List.zip_map' (l := names) (f := id) (g := renamed x y)
  refine pairs_append (fun c hc => ?_) hn fun hnotMem => h fun hmem => hnotMem ?_
  · rw [List.mem_reverse, hzip, List.mem_map] at hc
    obtain ⟨z, hz, rfl⟩ := hc
    exact ⟨fun heq => hy (heq ▸ hz), rfl⟩
  · simpa [hzip] using hmem

/-- Where `x` is bound, it can be renamed to a name that is not. -/
theorem Renames.bind (h : bs.Renames y y) (hx : x ∈ names) (hy : y ∉ names) :
    (bs.inside names (names.map (renamed x y))).Renames x y := by
  refine fun n hn => pairs_inside hy hn fun hnotMem => ?_
  have hne : n ≠ x := by
    rintro rfl
    exact hnotMem hx
  rw [renamed_of_ne hne]
  simpa using h n hn

/-- A lambda that does not bind `x` leaves it renamed. -/
theorem Renames.inside (h : bs.Renames x y) (hx : x ∉ names) (hy : y ∉ names) :
    (bs.inside names names).Renames x y := by
  have hmap : names.map (renamed x y) = names := by
    refine (List.map_congr_left fun z hz => ?_).trans (List.map_id _)
    exact renamed_of_ne fun heq => hx (heq ▸ hz)
  intro n hn
  have hpairs := pairs_inside (x := x) hy hn fun _ => h n hn
  rwa [hmap] at hpairs

/-- A lambda that binds `x` again hides what is renamed. -/
theorem Renames.hide (h : bs.Renames x y) (hx : x ∈ names) (hy : y ∉ names) :
    (bs.inside names names).Renames y y := by
  intro n hn
  have hmap : names.map (renamed y y) = names :=
    (List.map_congr_left fun z _ => renamed_self y z).trans (List.map_id _)
  rw [← congrArg (bs.inside names) hmap]
  refine pairs_inside hy hn fun hnotMem => ?_
  have hne : n ≠ x := by
    rintro rfl
    exact hnotMem hx
  simpa [renamed_of_ne hne] using h n hn

end Binders

/-! ### Renaming -/

/-- The label with another name, if it is an identifier `x`. -/
def Label.renamed (x y : String) (l : Label) : Label :=
  if l.kind = .identifier ∧ l.content = x then { l with text := some y } else l

@[simp] theorem Label.kind_renamed (x y : String) (l : Label) : (l.renamed x y).kind = l.kind := by
  rw [renamed]
  split <;> rfl

@[simp] theorem Label.line_renamed (x y : String) (l : Label) : (l.renamed x y).line = l.line := by
  rw [renamed]
  split <;> rfl

/-- Renaming a label renames the name on it. -/
theorem Label.content_renamed {x y : String} {l : Label} (h : l.kind = .identifier) :
    (l.renamed x y).content = Rpal.renamed x y l.content := by
  rw [renamed, Rpal.renamed]
  by_cases hx : l.content = x
  · rw [if_pos ⟨h, hx⟩, if_pos hx]
    rfl
  · rw [if_neg (fun hand => hx hand.2), if_neg hx]

/-- Labels that are not names stay. -/
theorem Label.renamed_of_ne {x y : String} {l : Label} (h : l.kind ≠ .identifier) :
    l.renamed x y = l :=
  if_neg fun hand => h hand.1

namespace Tree

mutual

/-- The tree with another name for the identifiers `x` that no lambda in it binds. -/
def renameFree (x y : String) : Tree Label → Tree Label
  | node l ts =>
    match l.kind, ts with
    | .lambda, [p, e] => if x ∈ p.boundNames then node l [p, e] else node l [p, renameFree x y e]
    | _, ts => node (l.renamed x y) (renameFreeAll x y ts)

/-- `renameFree` on a list of trees. -/
def renameFreeAll (x y : String) : List (Tree Label) → List (Tree Label)
  | [] => []
  | t :: ts => renameFree x y t :: renameFreeAll x y ts

end

/-- The second tree is the first with the parameter `x` of one lambda renamed to `y`, together with
    the identifiers that it binds. -/
inductive Renames (x y : String) : Tree Label → Tree Label → Prop where
  | lambda {l : Label} {p e} : l.kind = .lambda → x ∈ p.boundNames →
      Renames x y (node l [p, e]) (node l [p.map (Label.renamed x y), e.renameFree x y])
  | within {l : Label} {before t t' behind} : Renames x y t t' →
      Renames x y (node l (before ++ t :: behind)) (node l (before ++ t' :: behind))

/-- The name `y` occurs nowhere in the tree. -/
def IsFresh (y : String) (t : Tree Label) : Prop :=
  ∀ l ∈ t.preorder, l.kind = .identifier → l.content ≠ y

end Tree

/-- The labels are the same, apart from names that stand for the same. -/
structure Label.Alpha (bs : Binders) (l l' : Label) : Prop where
  kind_eq : l.kind = l'.kind
  line_eq : l.line = l'.line
  pairs : l.kind = .identifier → bs.Pairs l.content l'.content
  content_eq : l.kind ≠ .identifier → l.content = l'.content

namespace Tree

/-- The trees are the same up to the names of parameters, if they are in lambdas that bind `bs`. -/
inductive Alpha : Binders → Tree Label → Tree Label → Prop where
  | lambda {bs} {l l' : Label} {p p' e e'} : l.kind = .lambda → l.Alpha bs l' → p.kinds = p'.kinds →
      Alpha (bs.inside p.boundNames p'.boundNames) e e' → Alpha bs (node l [p, e]) (node l' [p', e'])
  | plain {bs} {l l' : Label} {ts ts'} : l.kind ≠ .lambda → l.Alpha bs l' → ts.length = ts'.length →
      (∀ t t', (t, t') ∈ ts.zip ts' → Alpha bs t t') → Alpha bs (node l ts) (node l' ts')

variable {x y : String} {bs : Binders} {l : Label} {t t' p e : Tree Label} {ts ts' : List (Tree Label)}

/-- A name is fresh for a node if it is not on it and fresh for its children. -/
theorem isFresh_node : IsFresh y (node l ts) ↔
    (l.kind = .identifier → l.content ≠ y) ∧ ∀ t ∈ ts, t.IsFresh y := by
  simp only [IsFresh, preorder, preorderAll_eq_flatMap, List.forall_mem_cons, List.mem_flatMap]
  refine and_congr_right' ⟨fun h t ht k hk => h k ⟨t, ht, hk⟩, fun h k hk => ?_⟩
  obtain ⟨t, ht, hk⟩ := hk
  exact h t ht k hk

/-- A name is fresh for two sides if it is fresh for each. -/
theorem isFresh_pair : IsFresh y (node l [p, e]) ↔
    (l.kind = .identifier → l.content ≠ y) ∧ p.IsFresh y ∧ e.IsFresh y := by
  rw [isFresh_node, List.forall_mem_cons, List.forall_mem_singleton]

/-! ### Programs -/

/-- Every lambda in the tree has a parameter and a body. -/
inductive IsScoped : Tree Label → Prop where
  | lambda {l : Label} {p e} : l.kind = .lambda → IsParameter p → IsScoped e →
      IsScoped (node l [p, e])
  | plain {l : Label} {ts} : l.kind ≠ .lambda → (∀ t ∈ ts, IsScoped t) → IsScoped (node l ts)

/-- A tree in canonical form, whose lambdas bind parameters. -/
theorem IsStandard.isScoped (h : IsStandard t) (hbinds : t.BindsParameters) : t.IsScoped := by
  induction h with
  | @plain l ts htakes _ ih =>
    have hl : l.kind ≠ .lambda := by
      intro hl
      rw [hl] at htakes
      cases htakes
    exact .plain hl fun t ht => ih t ht ((bindsParameters_node hl).1 hbinds t ht)
  | lambda hl hx _ ih =>
    obtain ⟨hp, he⟩ := (bindsParameters_lambda hl hx.isFormal).1 hbinds
    exact .lambda hl (hx.isBindable_iff.1 hp) (ih he)
  | @fixpoint l ly ll x e hl hly hll hx _ ih =>
    have hne : l.kind ≠ .lambda := by
      rw [hl]
      decide
    -- the lambda is the second operand of the fixpoint finder
    have hlambda := (bindsParameters_node hne).1 hbinds (node ll [x, e]) (by simp)
    obtain ⟨hp, he⟩ := (bindsParameters_lambda hll hx.isFormal).1 hlambda
    refine .plain hne (List.forall_mem_cons.2 ⟨.plain ?_ (List.forall_mem_nil _),
      List.forall_mem_singleton.2 (.lambda hll (hx.isBindable_iff.1 hp) (ih he))⟩)
    rw [hly]
    decide

/-! ### Parameters -/

/-- What is done to a name is done to the name that it binds. -/
theorem IsName.boundNames_renamed (h : IsName p) :
    (p.map (Label.renamed x y)).boundNames = p.boundNames.map (renamed x y) ∧
      (p.map (Label.renamed x y)).label.content = renamed x y p.label.content := by
  obtain ⟨l, hl, rfl⟩ := h
  have hcontent := Label.content_renamed (x := x) (y := y) hl
  have hnames {l : Label} (hl : l.kind = .identifier) : (leaf l).boundNames = [l.content] := by
    refine boundNames_of_ne ?_ ?_ <;> simp [Labelled.toLabel, hl]
  refine ⟨?_, hcontent⟩
  rw [hnames hl, leaf, map, mapAll, ← leaf, hnames ((l.kind_renamed x y).trans hl), hcontent,
    List.map_singleton]

/-- What is done to all names of a parameter is done to the names that it binds. -/
theorem IsParameter.boundNames_renamed (h : IsParameter p) :
    (p.map (Label.renamed x y)).boundNames = p.boundNames.map (renamed x y) := by
  cases h with
  | pattern h =>
    cases h with
    | name h => exact h.boundNames_renamed.1
    | @names l ts hl _ hts =>
      have hcontents : ts.map (fun t => (t.map (Label.renamed x y)).label.content) =
          ts.map fun t => renamed x y t.label.content :=
        List.map_congr_left fun t ht => (hts t ht).boundNames_renamed.2
      simpa [map, boundNames, Labelled.toLabel, hl, Function.comp_def] using hcontents
  | unit hl => simp [leaf, map, mapAll, boundNames, Labelled.toLabel, hl]

/-- A parameter does not bind what occurs nowhere in it. -/
theorem IsParameter.notMem_boundNames (h : IsParameter p) (hy : IsFresh y p) : y ∉ p.boundNames := by
  have hname {t : Tree Label} (ht : IsName t) (hy : IsFresh y t) : t.label.content ≠ y := by
    obtain ⟨l, hl, rfl⟩ := ht
    exact (isFresh_node.1 hy).1 hl
  cases h with
  | pattern h =>
    cases h with
    | name h =>
      obtain ⟨l, hl, rfl⟩ := h
      simpa [leaf, boundNames, Labelled.toLabel, hl] using ((isFresh_node.1 hy).1 hl).symm
    | @names l ts hl _ hts =>
      have hall := fun t ht => hname (hts t ht) ((isFresh_node.1 hy).2 t ht)
      simpa [boundNames, Labelled.toLabel, hl] using hall
  | unit hl => simp [leaf, boundNames, Labelled.toLabel, hl]

/-! ### Renaming the identifiers that a lambda binds -/

section

/-- A function that binds the name shadows it: nothing is renamed in there. -/
theorem renameFree_lambda_of_mem (hl : l.kind = .lambda) (hx : x ∈ p.boundNames) :
    (node l [p, e]).renameFree x y = node l [p, e] := by
  cases l
  cases hl
  exact if_pos hx

/-- In a function that does not bind the name, the body is renamed. -/
theorem renameFree_lambda_of_notMem (hl : l.kind = .lambda) (hx : x ∉ p.boundNames) :
    (node l [p, e]).renameFree x y = node l [p, e.renameFree x y] := by
  cases l
  cases hl
  exact if_neg hx

/-- In all other constructs, the children are renamed. -/
theorem renameFree_plain (hl : l.kind ≠ .lambda) :
    (node l ts).renameFree x y = node (l.renamed x y) (ts.map (renameFree x y)) := by
  have hall : renameFreeAll x y ts = ts.map (renameFree x y) := by
    induction ts with
    | nil => rfl
    | cons t ts ih => rw [renameFreeAll, ih, List.map_cons]
  rw [renameFree, hall]
  exact fun _ _ h => absurd h hl

/-- Renaming free occurrences keeps the constructs. -/
theorem kinds_renameFree (t : Tree Label) : (t.renameFree x y).kinds = t.kinds := by
  refine renameFree.induct x (fun t => (t.renameFree x y).kinds = t.kinds)
    (fun ts => (renameFreeAll x y ts).map kinds = ts.map kinds) ?_ ?_ ?_ rfl ?_ t
  · intro l p e hl hx
    rw [renameFree_lambda_of_mem hl hx]
  · intro l p e hl hx ih
    rw [renameFree_lambda_of_notMem hl hx, kinds_node, kinds_node, List.map_cons, List.map_singleton,
      ih, List.map_cons, List.map_singleton]
  · intro l ts hlambda ih
    rw [renameFree, kinds_node, kinds_node, Label.kind_renamed, ih]
    exact hlambda
  · intro t ts iht ihts
    rw [renameFreeAll, List.map_cons, List.map_cons, iht, ihts]

/-- Renaming all labels keeps the constructs. -/
theorem kinds_map_renamed (t : Tree Label) : (t.map (Label.renamed x y)).kinds = t.kinds := by
  induction t using Tree.induct with
  | node l ts ih =>
    rw [map, mapAll_eq_map, kinds_node, kinds_node, Label.kind_renamed, List.map_map]
    exact congrArg (node l.kind) (List.map_congr_left ih)

/-- Renaming leaves the constructs as they are. -/
theorem Renames.kinds_eq (h : Renames x y t t') : t.kinds = t'.kinds := by
  induction h with
  | lambda => simp only [kinds_node, List.map_cons, List.map_nil, kinds_map_renamed, kinds_renameFree]
  | within _ ih => simp only [kinds_node, List.map_append, List.map_cons, ih]

/-- There is no lambda in a parameter. -/
theorem IsParameter.not_renames (h : IsParameter p) : ¬Renames x y p t := by
  have hleaf {l : Label} {t} (hl : l.kind ≠ .lambda) : ¬Renames x y (leaf l) t := by
    intro h
    generalize hu : leaf l = u at h
    cases h with
    | lambda => simp [leaf] at hu
    | within => simp [leaf] at hu
  have hname {p t : Tree Label} (h : IsName p) : ¬Renames x y p t := by
    obtain ⟨l, hl, rfl⟩ := h
    exact hleaf (by rw [hl]; decide)
  intro hrenames
  cases h with
  | pattern h =>
    cases h with
    | name h => exact hname h hrenames
    | names hl _ hts =>
      cases hrenames with
      | lambda hlambda => exact absurd (hl.symm.trans hlambda) (by decide)
      | within hwithin => exact hname (hts _ (by simp)) hwithin
  | unit hl => exact hleaf (by rw [hl]; decide) hrenames

end

/-! ### Renamed trees are the same up to names -/

/-- A name is renamed as the binders around it say. -/
theorem Label.alpha_renamed (h : bs.Renames x y) (hy : l.kind = .identifier → l.content ≠ y) :
    l.Alpha bs (l.renamed x y) where
  kind_eq := (l.kind_renamed x y).symm
  line_eq := (l.line_renamed x y).symm
  pairs hl := by
    rw [Label.content_renamed hl]
    exact h _ (hy hl)
  content_eq hl := by rw [Label.renamed_of_ne hl]

/-- A name that is not renamed stays what it is. -/
theorem Label.alpha_self (h : bs.Renames y y) (hy : l.kind = .identifier → l.content ≠ y) :
    l.Alpha bs l where
  kind_eq := rfl
  line_eq := rfl
  pairs hl := by simpa using h _ (hy hl)
  content_eq _ := rfl

/-- A construct that binds nothing is alike another, if the labels and the children are. -/
theorem alpha_map {f : Tree Label → Tree Label} {l' : Label} (hl : l.kind ≠ .lambda)
    (hlabel : l.Alpha bs l') (hts : ∀ t ∈ ts, Alpha bs t (f t)) :
    Alpha bs (node l ts) (node l' (ts.map f)) := by
  refine .plain hl hlabel (List.length_map f).symm fun t t' hmem => ?_
  have hzip : ts.zip (ts.map f) = ts.map fun t => (t, f t) := by
    simpa using List.zip_map' (l := ts) (f := id) (g := f)
  rw [hzip, List.mem_map] at hmem
  obtain ⟨u, hu, heq⟩ := hmem
  obtain ⟨rfl, rfl⟩ := Prod.mk.injEq .. ▸ heq
  exact hts u hu

/-- A tree is the same as itself if no parameter is renamed. -/
theorem IsScoped.alpha_self (h : IsScoped t) (hy : IsFresh y t) (hbs : bs.Renames y y) :
    Alpha bs t t := by
  induction h generalizing bs with
  | lambda hl hp _ ih =>
    obtain ⟨hlabel, hyp, hye⟩ := isFresh_pair.1 hy
    have hnotMem := hp.notMem_boundNames hyp
    exact .lambda hl (Label.alpha_self hbs hlabel) rfl (ih hye (hbs.inside hnotMem hnotMem))
  | @plain l ts hl _ ih =>
    obtain ⟨hlabel, hyts⟩ := isFresh_node.1 hy
    have halpha := alpha_map (f := id) hl (Label.alpha_self hbs hlabel)
      fun t ht => ih t ht (hyts t ht) hbs
    rwa [List.map_id] at halpha

/-- A tree without `y` is the same after its `x` were renamed to `y`, if the binders say so. -/
theorem IsScoped.alpha_renameFree (h : IsScoped t) (hy : IsFresh y t) (hbs : bs.Renames x y) :
    Alpha bs t (t.renameFree x y) := by
  induction h generalizing bs with
  | @lambda l p e hl hp he ih =>
    obtain ⟨hlabel, hyp, hye⟩ := isFresh_pair.1 hy
    have hnotMem := hp.notMem_boundNames hyp
    have hself : l.Alpha bs l := by
      have hrenamed := Label.alpha_renamed hbs hlabel
      rwa [Label.renamed_of_ne (by rw [hl]; decide)] at hrenamed
    by_cases hx : x ∈ p.boundNames
    · rw [renameFree_lambda_of_mem hl hx]
      exact .lambda hl hself rfl (he.alpha_self hye (hbs.hide hx hnotMem))
    · rw [renameFree_lambda_of_notMem hl hx]
      exact .lambda hl hself rfl (ih hye (hbs.inside hx hnotMem))
  | plain hl _ ih =>
    obtain ⟨hlabel, hyts⟩ := isFresh_node.1 hy
    rw [renameFree_plain hl]
    exact alpha_map hl (Label.alpha_renamed hbs hlabel) fun t ht => ih t ht (hyts t ht) hbs

/-- Renaming one parameter to a fresh name makes a tree that is the same up to names. -/
theorem Renames.alpha (h : Renames x y t t') (ht : IsScoped t) (hy : IsFresh y t)
    (hbs : bs.Renames y y) : Alpha bs t t' := by
  induction h generalizing bs with
  | @lambda l p e hl hx =>
    cases ht with
    | plain hne => exact absurd hl hne
    | lambda _ hp he =>
      obtain ⟨hlabel, hyp, hye⟩ := isFresh_pair.1 hy
      refine .lambda hl (Label.alpha_self hbs hlabel) (kinds_map_renamed p).symm ?_
      rw [hp.boundNames_renamed]
      exact he.alpha_renameFree hye (hbs.bind hx (hp.notMem_boundNames hyp))
  | @within l before t t' behind hrenames ih =>
    generalize hts : before ++ t :: behind = ts at ht hy
    cases ht with
    | @lambda l p e hl hp he =>
      obtain ⟨hlabel, hyp, hye⟩ := isFresh_pair.1 hy
      -- the renamed child is the body
      cases before with
      | nil =>
        obtain ⟨rfl, -⟩ : t = p ∧ behind = [e] := by simpa using hts
        exact absurd hrenames hp.not_renames
      | cons q before =>
        obtain ⟨rfl, hts⟩ : q = p ∧ before ++ t :: behind = [e] := by simpa using hts
        obtain ⟨rfl, rfl, rfl⟩ : before = [] ∧ t = e ∧ behind = [] := by
          simpa [List.append_eq_singleton_iff] using hts
        have hnotMem := hp.notMem_boundNames hyp
        exact .lambda hl (Label.alpha_self hbs hlabel) rfl
          (ih he hye (hbs.inside hnotMem hnotMem))
    | plain hl hall =>
      subst hts
      obtain ⟨hlabel, hyts⟩ := isFresh_node.1 hy
      refine .plain hl (Label.alpha_self hbs hlabel) (by simp) fun u u' hmem => ?_
      have hself (us : List (Tree Label)) (hus : ∀ u ∈ us, u ∈ before ++ t :: behind)
          (hmem : (u, u') ∈ us.zip us) : Alpha bs u u' := by
        obtain ⟨rfl, hu⟩ : u = u' ∧ u ∈ us := by
          rw [List.zip_eq_zipWith, List.zipWith_self, List.mem_map] at hmem
          obtain ⟨v, hv, heq⟩ := hmem
          obtain ⟨rfl, rfl⟩ := Prod.mk.injEq .. ▸ heq
          exact ⟨rfl, hv⟩
        exact (hall u (hus u hu)).alpha_self (hyts u (hus u hu)) hbs
      rw [List.zip_append rfl, List.mem_append, List.zip_cons_cons, List.mem_cons] at hmem
      obtain hmem | heq | hmem := hmem
      · exact hself before (fun u hu => List.mem_append_left _ hu) hmem
      · obtain ⟨rfl, rfl⟩ := Prod.mk.injEq .. ▸ heq
        exact ih (hall _ (by simp)) (hyts _ (by simp)) hbs
      · exact hself behind (fun u hu => List.mem_append_right _ (List.mem_cons_of_mem _ hu)) hmem

end Tree

end Rpal
