import Rpal.Proofs.Arena.Rules

/-!
# Standardization in an arena

The rules are applied along the links of the tree, every node after its children. What is below a
node has its canonical form by then, and is made into the canonical form of the node.

## Key results

- `rule_apply`: which rule is applied to a node
- `rewrites_rule`: a rule that fits does what it does to trees
- `visit_apply`: a chain of siblings is standardized
-/

namespace Rpal

namespace Tree

/-- A tree has at least one node. -/
theorem size_pos {α : Type} (t : Tree α) : 0 < t.size := by
  cases t with
  | node l ts => rw [size]; omega

end Tree

namespace Reshape

open Arena Rpal.Tree

variable {a a' : Arena} {F F' O : Set Nat} {l : Label} {t : Tree Label} {ts : List (Tree Label)}
  {id : Nat} {ids : List Nat} {link : Option Nat}

/-! ### The rule for a node -/

/-- The rule that is applied depends on the construct of the node. -/
theorem rule_apply (id : Nat) (a : Arena) : rule id a =
    match a.kind id with
    | .letIn => letRule id a
    | .whereIn => whereRule id a
    | .functionForm => functionFormRule id a
    | .lambda => lambdaRule id a
    | .atName => atNameRule id a
    | .within => withinRule id a
    | .simultaneous => simultaneousRule id a
    | .recursive => recursiveRule id a
    | _ => .ok () a := by
  simp only [rule, bind_apply, get_apply]
  cases a.kind id <;> rfl

/-- A construct without a rule is left alone. -/
theorem rule_of_hasRule_eq_false (h : (a.kind id).hasRule = false) : rule id a = .ok () a := by
  rw [rule_apply]
  cases hk : a.kind id <;> simp [hk, Kind.hasRule] at h <;> rfl

/-- A rule that fits makes the node what it is rewritten to. -/
theorem rewrites_rule (hfits : Fits l ts) (h : Forest a F O [(.node l ts, id)] []) :
    Rewrites (rule id) a F O id (rewrite l ts) := by
  have hlid : a.label id = l := h.label_eq
  have hkind : a.kind id = l.kind := by rw [Arena.kind, hlid]
  have hrun {x : Reshape Unit} {t : Tree Label} (hx : Rewrites x a F O id t)
      (hrule : rule id a = x a) : Rewrites (rule id) a F O id t :=
    hx.of_run hrule rfl (Nat.le_refl _) (fun _ _ => rfl) rfl
  -- by the construct; the subtrees are taken apart as far as the rule follows them
  cases hfits with
  | noRule hl =>
    rw [rewrite_of_hasRule_eq_false hl]
    exact .of_forest (rule_of_hasRule_eq_false (by rw [hkind, hl])) h rfl (Nat.le_refl _)
      (fun _ _ => rfl) rfl
  | letIn hl hd =>
    obtain ⟨eq, x, e₁, rfl, heq⟩ := hd.exists_eq
    rw [rewrite_letIn hl]
    exact hrun (rewrites_letIn hl heq h) (by rw [rule_apply, hkind, hl])
  | whereIn hl hd =>
    obtain ⟨eq, x, e₁, rfl, heq⟩ := hd.exists_eq
    rw [rewrite_whereIn hl]
    exact hrun (rewrites_whereIn hl heq h) (by rw [rule_apply, hkind, hl])
  | functionForm hl =>
    rw [rewrite_functionForm hl]
    exact hrun (rewrites_functionForm hl h) (by rw [rule_apply, hkind, hl])
  | lambda hl =>
    rw [rewrite_lambda_cons hl]
    exact hrun (rewrites_lambda hl h) (by rw [rule_apply, hkind, hl])
  | atName hl =>
    rw [rewrite_atName hl]
    exact hrun (rewrites_atName hl h) (by rw [rule_apply, hkind, hl])
  | within hl hd₁ hd₂ =>
    obtain ⟨eq₁, x₁, e₁, rfl, heq₁⟩ := hd₁.exists_eq
    obtain ⟨eq₂, x₂, e₂, rfl, heq₂⟩ := hd₂.exists_eq
    rw [rewrite_within hl]
    exact hrun (rewrites_within hl heq₁ heq₂ h) (by rw [rule_apply, hkind, hl])
  | simultaneous hl hne hds =>
    rw [rewrite_simultaneous hl]
    exact hrun (rewrites_simultaneous hl hne hds h) (by rw [rule_apply, hkind, hl])
  | recursive hl heq hx =>
    rw [rewrite_recursive hl]
    exact hrun (rewrites_recursive hl heq hx h) (by rw [rule_apply, hkind, hl])

/-! ### The whole tree -/

/-- Names are left alone. -/
theorem visit_names (n : Nat) (h : a.UnfoldsAll F ts link) (hts : ∀ t ∈ ts, IsNaming t) :
    visit n link a = .ok () a := by
  induction n generalizing ts link with
  | zero => cases link <;> rfl
  | succ n ih =>
    cases ts with
    | nil =>
      obtain rfl := h
      rfl
    | cons t ts =>
      obtain ⟨ht, hmore⟩ := List.forall_mem_cons.1 hts
      obtain ⟨id, rfl, ht', hrest⟩ := h
      -- neither a name nor a list of names has a rule
      cases t with
      | node l cs =>
        obtain ⟨-, -, hlabel, hchild⟩ := ht'
        have hrule : (a.kind id).hasRule = false := by
          rw [Arena.kind, hlabel]
          exact ht.hasRule_eq_false
        simp only [visit, bind_apply, child_apply, sibling_apply, ih hchild ht.children,
          rule_of_hasRule_eq_false hrule, ih hrest hmore]

/-- A number of links is enough to standardize the trees at a chain of siblings. -/
def Visits (n : Nat) (ts : List (Tree Label)) : Prop :=
  ∀ {ids link a F O}, Forest a F O (ts.zip ids) [] → ids.length = ts.length → a.Chain link ids →
    ∃ a' F', visit n link a = .ok () a' ∧
      Forest a' F' (O ∪ F') ((ts.map standard).zip ids) [] ∧ Reworked a a' F F' O ∧
      ∀ i ∈ ids, a'.sibling i = a.sibling i

/-- A node is standardized after its children. -/
theorem Visits.node {n : Nat} (hvisits : Visits n ts) (ht : IsWellFormed (.node l ts))
    (h : Forest a F O [(.node l ts, id)] []) :
    Rewrites (do visit n (← child id); rule id) a F O id (node l ts).standard := by
  have hfits := ht.fits
  rw [standard, standardAll_eq_map]
  by_cases hl : l.kind = .names
  · -- a list of names is fixed, and the visit of its children does nothing
    have hnames := ht.names_children hl
    have hrun := visit_names n (h.unfolds_names hl) hnames
    have hts : ts.map standard = ts := by
      rw [List.map_congr_left fun t hmem => (hnames t hmem).standard, List.map_id']
    rw [hts] at hfits ⊢
    have hrule := rewrites_rule hfits h
    refine hrule.of_run ?_ rfl (Nat.le_refl _) (fun _ _ => rfl) rfl
    simp only [bind_apply, child_apply, hrun]
  · have hlid : a.label id = l := h.label_eq
    -- the root is bare while its children are visited, and is put together with what they become
    obtain ⟨ids, hlen, hchain, h⟩ := h.open_root hl
    obtain ⟨O₁, hO₁, hbare, hfocus, hback⟩ := h.focus
    obtain ⟨a₁, F₁, hrun, h₁, hre, hsiblings⟩ := hvisits hfocus hlen hchain
    obtain ⟨hlabel, hchild, hsibling⟩ := node_eq_iff.1 (hre.node_eq id (hbare id (by simp)))
    have hchain₁ : a₁.Chain (a₁.child id) ids := by
      rw [hchild]
      exact hchain.congr hsiblings
    have h₁ := (hback h₁ hre).close_root (by simpa using hlen) hl (hlabel.trans hlid) hchain₁
    obtain ⟨a₂, F₂, hrun₂, h₂, hre₂, hsibling₂⟩ := rewrites_rule hfits h₁
    refine ⟨a₂, F₂, ?_, ?_, (hre.mono hO₁).trans hre₂, hsibling₂.trans hsibling⟩
    · simp only [bind_apply, child_apply, hrun, hrun₂]
    · rwa [Set.union_assoc, Set.union_eq_self_of_subset_left hre₂.fixed] at h₂

/-- After the first of several siblings come the others. -/
theorem visit_succ {n : Nat}
    (hrun : (do visit n (← child id); rule id : Reshape Unit) a = .ok () a') :
    visit (n + 1) (some id) a = visit n (a'.sibling id) a' := by
  simp only [visit, bind_apply, child_apply, sibling_apply] at hrun ⊢
  cases hv : visit n (a.child id) a with
  | ok v a₁ =>
    simp only [hv] at hrun ⊢
    rw [hrun]
  | error e a₁ =>
    rw [hv] at hrun
    exact nomatch hrun

/-- A visit stops when the first of several siblings stops it. -/
theorem visit_succ_error {n : Nat} {e : StandardizeError}
    (hrun : (do visit n (← child id); rule id : Reshape Unit) a = .error e a') :
    visit (n + 1) (some id) a = .error e a' := by
  simp only [bind_apply, child_apply] at hrun
  simp only [visit, bind_apply, child_apply]
  split at hrun
  · rw [hrun]
  · exact hrun

/-- There is nothing to be done for no trees. -/
theorem visits_nil (n : Nat) : Visits n [] := by
  intro ids link a F O h hlen hchain
  obtain rfl := List.eq_nil_of_length_eq_zero hlen
  obtain rfl := hchain
  refine ⟨a, F, by cases n <;> rfl, ?_, .refl a F O, nofun⟩
  rwa [Set.union_eq_self_of_subset_right h.fixed_subset]

/-- A chain of siblings is standardized. -/
theorem visit_apply (n : Nat) (hts : ∀ t ∈ ts, IsWellFormed t) (hn : sizeAll ts ≤ n) : Visits n ts := by
  induction n generalizing ts with
  | zero =>
    cases ts with
    | nil => exact visits_nil 0
    | cons t ts =>
      have hpos := t.size_pos
      rw [sizeAll] at hn
      omega
  | succ n ih =>
    cases ts with
    | nil => exact visits_nil (n + 1)
    | cons t ts =>
      intro ids link a F O h hlen hchain
      obtain ⟨id, ids, rfl⟩ := List.exists_cons_of_length_eq_add_one hlen
      rw [List.length_cons, List.length_cons, Nat.add_right_cancel_iff] at hlen
      obtain ⟨rfl, hids⟩ := hchain
      obtain ⟨ht, hmore⟩ := List.forall_mem_cons.1 hts
      have h : Forest a F O ([(t, id)] ++ ts.zip ids) [] := h
      obtain ⟨O₁, hO₁, hothers, hfocus, hback⟩ := h.focus
      -- the first tree, with the others outside
      obtain ⟨a₁, F₁, hrun, h₁, hre, hsibling⟩ : Rewrites (do visit n (← child id); rule id) a F O₁
          id t.standard := by
        cases t with
        | node l cs =>
          rw [sizeAll, Tree.size] at hn
          have hvisits : Visits n cs := ih ht.children (by omega)
          exact hvisits.node ht hfocus
      -- the rule for the first tree leaves the links between the others alone
      have hids₁ : ∀ i ∈ ids, a₁.sibling i = a.sibling i := by
        intro i hi
        refine (node_eq_iff.1 (hre.node_eq i (hothers i ?_))).2.2
        rwa [List.append_nil, List.map_snd_zip (Nat.le_of_eq hlen)]
      have hchain₁ : a₁.Chain (a₁.sibling id) ids := by
        rw [hsibling]
        exact hids.congr hids₁
      have hn_more : sizeAll ts ≤ n := by
        have hpos := t.size_pos
        rw [sizeAll] at hn
        omega
      -- the other trees, with the first one outside
      have h₁ := (hback h₁ hre).perm (List.perm_append_comm)
      obtain ⟨O₂, hO₂, hother, hfocus₂, hback₂⟩ := h₁.focus
      obtain ⟨a₂, F₂, hrun₂, h₂, hre₂, hsiblings₂⟩ :=
        ih hmore hn_more hfocus₂ hlen hchain₁
      have h₂ := (hback₂ h₂ hre₂).perm (List.perm_append_comm)
      rw [Set.union_assoc, Set.union_eq_self_of_subset_left hre₂.fixed] at h₂
      refine ⟨a₂, F₂, (visit_succ hrun).trans hrun₂, h₂, (hre.mono hO₁).trans (hre₂.mono hO₂), ?_⟩
      refine List.forall_mem_cons.2 ⟨?_, fun i hi => (hsiblings₂ i hi).trans (hids₁ i hi)⟩
      exact (node_eq_iff.1 (hre₂.node_eq id (hother id (by simp)))).2.2.trans hsibling

end Reshape

namespace Arena

open Rpal.Tree

/-! ### The arena of a tree -/

mutual

/-- The nodes that a tree is added as are its own. -/
theorem graft_forest {a : Arena} {F O : Set Nat} {trees : List (Tree Label × Nat)}
    (t : Tree Label) (h : Forest a F O trees []) :
    ∃ F', F ⊆ F' ∧ Forest (a.graft t).2 F' (O ∪ F') ((t, (a.graft t).1) :: trees) [] ∧
      (a.graft t).2.size = a.size + t.size := by
  cases t with
  | node l ts =>
    obtain ⟨F₁, hF, h₁, hlen, hsize⟩ := graftAll_forest ts h
    simp only [graft]
    generalize a.graftAll ts = r at h₁ hlen hsize
    obtain ⟨ids, a₁⟩ := r
    have h₁ := h₁.alloc l
    have hlabel : (a₁.alloc l).label a₁.size = l := by rw [label_alloc, if_pos rfl]
    have hsize₂ : ((a₁.alloc l).setChildren a₁.nextId ids).size = a.size + (Tree.node l ts).size := by
      rw [size_setChildren, size_alloc, hsize, Tree.size]
      omega
    -- names are fixed as soon as they have been added
    by_cases hl : l.kind = .names
    · obtain ⟨F₂, hF₂, -, h₂⟩ := h₁.setNames hlen hl hlabel
      rw [Set.union_assoc, Set.union_eq_self_of_subset_left hF₂] at h₂
      exact ⟨F₂, hF.trans hF₂, h₂, hsize₂⟩
    · exact ⟨F₁, hF, h₁.setChildren hlen hl hlabel, hsize₂⟩

/-- Trees that are added one after the other make a forest with what was there. -/
theorem graftAll_forest {a : Arena} {F O : Set Nat} {trees : List (Tree Label × Nat)}
    (ts : List (Tree Label)) (h : Forest a F O trees []) :
    ∃ F', F ⊆ F' ∧ Forest (a.graftAll ts).2 F' (O ∪ F') (ts.zip (a.graftAll ts).1 ++ trees) [] ∧
      (a.graftAll ts).1.length = ts.length ∧ (a.graftAll ts).2.size = a.size + sizeAll ts := by
  cases ts with
  | nil =>
    refine ⟨F, Set.Subset.refl F, ?_, rfl, rfl⟩
    rwa [Set.union_eq_self_of_subset_right h.fixed_subset]
  | cons t ts =>
    -- the first tree stays as it is while the others are grafted
    obtain ⟨F₁, hF, h₁, hsize⟩ := graft_forest t h
    simp only [graftAll]
    generalize a.graft t = r at h₁ hsize
    obtain ⟨id, a₁⟩ := r
    obtain ⟨F₂, hF₂, h₂, hlen, hsize₂⟩ := graftAll_forest ts h₁
    generalize a₁.graftAll ts = r at h₂ hlen hsize₂
    obtain ⟨ids, a₂⟩ := r
    rw [Set.union_assoc, Set.union_eq_self_of_subset_left hF₂] at h₂
    refine ⟨F₂, hF.trans hF₂, h₂.perm List.perm_middle, by simpa using hlen, ?_⟩
    simp only at hsize hsize₂ ⊢
    rw [hsize₂, hsize, sizeAll]
    omega

end

/-- The arena of a tree has the nodes of the tree. -/
theorem ofTree_forest (t : Tree Label) : ∃ root F, (ofTree t).root = some root ∧
    Forest (ofTree t) F F [(t, root)] [] ∧ t.size ≤ (ofTree t).size := by
  have hempty : Forest empty ∅ ∅ [] [] :=
    ⟨∅, rfl, .nil, List.forall_mem_nil _, fun _ h => (Set.notMem_empty _ h).elim,
      fun _ h => (Set.notMem_empty _ h).elim, Set.Subset.refl ∅⟩
  obtain ⟨F, -, h, hsize⟩ := graft_forest t hempty
  rw [Set.empty_union] at h
  refine ⟨(empty.graft t).1, F, rfl, h.congr rfl fun _ => rfl, ?_⟩
  have hofTree : (ofTree t).size = (empty.graft t).2.size := rfl
  omega

mutual

/-- Adding trees does not mark an arena as standardized. -/
theorem standardized_graft (a : Arena) : ∀ t, (a.graft t).2.standardized = a.standardized
  | .node l ts => by
    simp only [graft, standardized_setChildren]
    exact standardized_graftAll a ts

/-- Trees that are added do not mark the arena. -/
theorem standardized_graftAll (a : Arena) : ∀ ts, (a.graftAll ts).2.standardized = a.standardized
  | [] => rfl
  | t :: ts => by
    simp only [graftAll]
    exact (standardized_graftAll _ ts).trans (standardized_graft a t)

end

/-- A well-formed tree is standardized, and the arena has its canonical form. -/
theorem standardForm_ofTree {t : Tree Label} (ht : IsWellFormed t) : ∃ a root F,
    (ofTree t).standardForm = .ok a ∧ (ofTree t).root = some root ∧ a.root = some root ∧
      a.standardized = true ∧ Forest a F F [(t.standard, root)] [] := by
  obtain ⟨root, F, hroot, h, hsize⟩ := ofTree_forest t
  have hmark : (ofTree t).standardized = false := standardized_graft empty t
  cases t with
  | node l ts =>
    -- there are as many links to follow as nodes, for which the bound is enough
    have hbound : sizeAll ts ≤ Reshape.linkBound (ofTree (.node l ts)) := by
      rw [Tree.size] at hsize
      refine Nat.le_trans ?_ (Nat.le_mul_self _)
      omega
    have hvisits : Reshape.Visits (Reshape.linkBound (ofTree (.node l ts))) ts :=
      Reshape.visit_apply _ ht.children hbound
    obtain ⟨a, F', hrun, h', hre, -⟩ := hvisits.node ht h
    rw [Set.union_eq_self_of_subset_left hre.fixed] at h'
    refine ⟨{ a with standardized := true }, root, F', ?_, hroot, hre.root_eq.trans hroot, rfl,
      h'.congr rfl fun _ => rfl⟩
    -- the visit of the root is that of its children, and then the rule
    have hstandardize : Reshape.standardize (ofTree (.node l ts)) =
        .ok () { a with standardized := true } := by
      simp only [Reshape.bind_apply, Reshape.child_apply] at hrun
      simp only [Reshape.standardize, Reshape.bind_apply, Reshape.get_apply, hmark,
        Bool.false_eq_true, if_false, hroot, Reshape.child_apply]
      cases hv : Reshape.visit (Reshape.linkBound (ofTree (.node l ts)))
          ((ofTree (.node l ts)).child root) (ofTree (.node l ts)) with
      | ok v a₁ =>
        simp only [hv] at hrun ⊢
        rw [hrun]
        rfl
      | error e a₁ =>
        rw [hv] at hrun
        exact nomatch hrun
    rw [standardForm, hstandardize]

end Arena

end Rpal
