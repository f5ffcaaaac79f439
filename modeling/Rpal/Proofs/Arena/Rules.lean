import Rpal.Proofs.Arena.Forest
import Rpal.Proofs.Arena.Relinking

/-!
# The rules of standardization in an arena

Every rule relinks the nodes around the place that it is for, and makes the tree there into the one
that `Tree.rewrite` says. The proofs have one shape: the rule runs to an arena whose labels and
links are known at every place, subtrees that own none of the relinked nodes are kept, and the new
tree is put together from them.

## Key results

- `Rewrites`: a change of an arena that makes the tree at a place into another
- `rewrites_letIn`, …, `rewrites_recursive`: one lemma per rule
-/

namespace Rpal.Reshape

open Arena Rpal.Tree

variable {α β : Type} {a a' : Arena} {F O : Set Nat} {id : Nat} {t : Tree Label}

/-! ### What a rule does -/

/-- The change makes the tree at place `id` into `t`. It does not touch what is outside of that
    tree. -/
def Rewrites (x : Reshape Unit) (a : Arena) (F O : Set Nat) (id : Nat) (t : Tree Label) : Prop :=
  ∃ a' F', x a = .ok () a' ∧ Forest a' F' (O ∪ F') [(t, id)] [] ∧ Reworked a a' F F' O ∧
    a'.sibling id = a.sibling id

/-- A change that makes no more nodes fixed. -/
theorem Rewrites.of_forest {x : Reshape Unit} (hrun : x a = .ok () a')
    (h : Forest a' F O [(t, id)] []) (hroot : a'.root = a.root) (hsize : a.size ≤ a'.size)
    (hnode : ∀ y ∈ O, a'.node y = a.node y) (hsibling : a'.sibling id = a.sibling id) :
    Rewrites x a F O id t := by
  refine ⟨a', F, hrun, ?_, ⟨hroot, hsize, Set.Subset.refl F, fun _ hF _ => hF, hnode⟩, hsibling⟩
  rwa [Set.union_eq_self_of_subset_right h.fixed_subset]

/-- What is left of a change after a part of it that makes no more nodes fixed. -/
theorem Rewrites.of_run {x x' : Reshape Unit} (h : Rewrites x' a' F O id t) (hrun : x a = x' a')
    (hroot : a'.root = a.root) (hsize : a.size ≤ a'.size) (hnode : ∀ y ∈ O, a'.node y = a.node y)
    (hsibling : a'.sibling id = a.sibling id) : Rewrites x a F O id t := by
  obtain ⟨a'', F', hrun', h, hre, hsibling'⟩ := h
  refine ⟨a'', F', hrun.trans hrun', h, ?_, hsibling'.trans hsibling⟩
  exact ⟨hre.root_eq.trans hroot, Nat.le_trans hsize hre.size_le, hre.fixed, hre.fresh,
    fun y hy => (hre.node_eq y hy).trans (hnode y hy)⟩

/-- The rule for `let` puts the body behind the name and the right side behind the lambda. -/
theorem rewrites_letIn {l eq : Label} {x e₁ e₂ : Tree Label} (hl : l.kind = .letIn)
    (heq : eq.kind = .equation) (h : Forest a F O [(.node l [.node eq [x, e₁], e₂], id)] []) :
    Rewrites (letRule id) a F O id
      (.node (l.turned .gamma) [.node (eq.turned .lambda) [x, e₂], e₁]) := by
  have hlid : a.label id = l := h.label_eq
  obtain ⟨ie, i₂, hc, hs, hn, h⟩ := h.open_pair (by rw [hl]; decide)
  have hleq : a.label ie = eq := h.label_eq
  obtain ⟨ix, i₁, hc', hs', hn', h⟩ := h.open_pair (by rw [heq]; decide)
  have hnodup := h.nodup
  have hinside := h.inside
  simp only [List.map_cons, List.map_nil, List.cons_append, List.nil_append, List.nodup_cons,
    List.mem_cons, forall_eq_or_imp, not_or] at hnodup hinside
  obtain ⟨a', hrun, hroot, -, hsize, hlabel, hchild, hsibling⟩ := letRule_apply (by omega)
    (by omega) (by omega) (by rw [Arena.kind, hleq, heq]) hc hs hc' hs'
  have hnode (y) (hy : y ≠ id ∧ y ≠ ie ∧ y ≠ ix) : a'.node y = a.node y := by
    rw [node_eq_iff, hlabel, hchild, hsibling]
    grind
  -- the equation and the root are bare; no subtree owns one of the nodes that were changed
  have h : Forest a' F O [(x, ix), (e₁, i₁), (e₂, i₂)] [ie, id] :=
    h.kept [] (by omega) (by grind) (by grind) .nil nofun
  -- the body changes places with the right side
  have h := h.perm (.cons _ (.swap _ _ _))
  have h := h.close_pair (l := eq.turned .lambda) nofun (by grind) (by grind) (by grind) (by grind)
  have h := h.close_pair (l := l.turned .gamma) nofun (by grind) (by grind) (by grind) (by grind)
  exact .of_forest hrun h hroot (by omega) (by grind) (by grind)

/-- The rule for `where` swaps the operands and goes on as that for `let`. -/
theorem rewrites_whereIn {l eq : Label} {x e₁ e₂ : Tree Label} (hl : l.kind = .whereIn)
    (heq : eq.kind = .equation) (h : Forest a F O [(.node l [e₂, .node eq [x, e₁]], id)] []) :
    Rewrites (whereRule id) a F O id
      (.node (l.turned .gamma) [.node (eq.turned .lambda) [x, e₂], e₁]) := by
  have hlid : a.label id = l := h.label_eq
  obtain ⟨i₂, ie, hc, hs, hn, h⟩ := h.open_pair (by rw [hl]; decide)
  have hnodup := h.nodup
  have hinside := h.inside
  simp only [List.map_cons, List.map_nil, List.cons_append, List.nil_append, List.nodup_cons,
    List.mem_cons, forall_eq_or_imp, not_or] at hnodup hinside
  obtain ⟨a', hrun, hroot, -, hsize, hlabel, hchild, hsibling⟩ := whereRule_apply (by omega)
    (by omega) (by omega) hc hs
  have hnode (y) (hy : y ≠ id ∧ y ≠ ie ∧ y ≠ i₂) : a'.node y = a.node y := by
    rw [node_eq_iff, hlabel, hchild, hsibling]
    grind
  have h : Forest a' F O [(e₂, i₂), (.node eq [x, e₁], ie)] [id] :=
    h.kept [] (by omega) (by grind) (by grind) .nil nofun
  -- the operands are swapped, so that the tree is that of a `let`
  have h := (h.perm (.swap ..)).close_pair (l := l.turned .letIn) nofun (by grind) (by grind)
    (by grind) (by grind)
  exact (rewrites_letIn rfl heq h).of_run hrun hroot (by omega) (by grind) (by grind)

/-- The rule for `@` puts an application of the name to the left operand in front. -/
theorem rewrites_atName {l : Label} {e₁ n e₂ : Tree Label} (hl : l.kind = .atName)
    (h : Forest a F O [(.node l [e₁, n, e₂], id)] []) :
    Rewrites (atNameRule id) a F O id
      (.node (l.turned .gamma) [.node (l.beside .gamma) [n, e₁], e₂]) := by
  have hlid : a.label id = l := h.label_eq
  obtain ⟨i₁, iN, i₂, hc, hs, hs', hn, h⟩ := h.open_triple (by rw [hl]; decide)
  have hnodup := h.nodup
  have hinside := h.inside
  have hO := h.outside_lt
  simp only [List.map_cons, List.map_nil, List.cons_append, List.nil_append, List.nodup_cons,
    List.mem_cons, forall_eq_or_imp, not_or] at hnodup hinside
  obtain ⟨a', hrun, hroot, -, hsize, hlabel, hchild, hsibling⟩ := atNameRule_apply (by omega)
    (by omega) (by omega) hc hs hs'
  have hnode (y) (hlt : y < a.size) (hy : y ≠ id ∧ y ≠ i₁ ∧ y ≠ iN) : a'.node y = a.node y := by
    rw [node_eq_iff, hlabel, hchild, hsibling]
    grind
  have h : Forest a' F O [(e₁, i₁), (n, iN), (e₂, i₂)] [a.size, id] :=
    h.kept [a.size] (by omega) (by grind) (by grind) (by simp) (by simp; omega)
  -- the inner application comes first, because the outer one has it as a child
  have h := (h.perm (.swap ..)).close_pair (l := l.beside .gamma) nofun (by grind) (by grind)
    (by grind) (by grind)
  have h := h.close_pair (l := l.turned .gamma) nofun (by grind) (by grind) (by grind) (by grind)
  exact .of_forest hrun h hroot (by omega) (by grind) (by grind)

/-- The rule for `within` binds the first name around the second right side. The equations
    themselves are not used any more. -/
theorem rewrites_within {l eq₁ eq₂ : Label} {x₁ e₁ x₂ e₂ : Tree Label} (hl : l.kind = .within)
    (heq₁ : eq₁.kind = .equation) (heq₂ : eq₂.kind = .equation)
    (h : Forest a F O [(.node l [.node eq₁ [x₁, e₁], .node eq₂ [x₂, e₂]], id)] []) :
    Rewrites (withinRule id) a F O id (.node (l.turned .equation)
      [x₂, .node (l.beside .gamma) [.node (l.beside .lambda) [x₁, e₂], e₁]]) := by
  have hlid : a.label id = l := h.label_eq
  obtain ⟨q₁, q₂, hc, hs, hn, h⟩ := h.open_pair (by rw [hl]; decide)
  have hl₁ : a.label q₁ = eq₁ := h.label_eq
  obtain ⟨ix₁, ie₁, hc₁, hs₁, hn₁, h⟩ := h.open_pair (by rw [heq₁]; decide)
  have h := h.perm (.trans (.cons _ (.swap ..)) (.swap ..))
  have hl₂ : a.label q₂ = eq₂ := h.label_eq
  obtain ⟨ix₂, ie₂, hc₂, hs₂, hn₂, h⟩ := h.open_pair (by rw [heq₂]; decide)
  have h : Forest a F O [(x₁, ix₁), (e₂, ie₂), (e₁, ie₁), (x₂, ix₂)] [id] :=
    (h.discard [id] (by simp)).perm
      ((List.perm_append_singleton _ [_, _, _]).symm.trans (.swap ..))
  have hnodup := h.nodup
  have hinside := h.inside
  have hO := h.outside_lt
  simp only [List.map_cons, List.map_nil, List.cons_append, List.nil_append, List.nodup_cons,
    List.mem_cons, forall_eq_or_imp, not_or] at hnodup hinside
  obtain ⟨a', hrun, hroot, -, hsize, hlabel, hchild, hsibling⟩ := withinRule_apply (by omega)
    (by grind) hc hs (by rw [Arena.kind, hl₁, heq₁]) hc₁ hs₁ (by rw [Arena.kind, hl₂, heq₂]) hc₂ hs₂
  simp only [hlid] at hlabel
  have hnode (y) (hlt : y < a.size) (hy : y ≠ id ∧ y ≠ ix₁ ∧ y ≠ ie₂ ∧ y ≠ ie₁ ∧ y ≠ ix₂) :
      a'.node y = a.node y := by
    rw [node_eq_iff, hlabel, hchild, hsibling]
    grind
  have h : Forest a' F O [(x₁, ix₁), (e₂, ie₂), (e₁, ie₁), (x₂, ix₂)] [a.size, a.size + 1, id] :=
    h.kept [a.size, a.size + 1] (by omega) (by grind) (by grind) (by simp) (by simp; omega)
  -- the lambda, then its application, then the new equation
  have h := h.close_pair (l := l.beside .lambda) nofun
    (by simp (disch := omega) only [hlabel, if_neg, if_true])
    (by simp (disch := omega) only [hchild, if_neg, if_true])
    (by simp (disch := omega) only [hsibling, if_neg, if_true])
    (by simp (disch := omega) only [hsibling, if_neg, if_true])
  have h := h.close_pair (l := l.beside .gamma) nofun
    (by simp (disch := omega) only [hlabel, if_neg, if_true])
    (by simp (disch := omega) only [hchild, if_neg, if_true])
    (by simp (disch := omega) only [hsibling, if_neg, if_true])
    (by simp (disch := omega) only [hsibling, if_neg, if_true])
  have h := (h.perm (.swap ..)).close_pair (l := l.turned .equation) nofun
    (by simp only [hlabel, if_true]) (by simp only [hchild, if_true])
    (by simp (disch := omega) only [hsibling, if_neg, if_true]) (by simp only [hsibling, if_true])
  refine .of_forest hrun h hroot (by omega) (fun y hy => hnode y (hO y hy) (by grind)) ?_
  simp (disch := omega) only [hsibling, if_neg]

/-- The rule for `rec` makes a copy of the name for the equation. The old equation itself is not
    used any more. -/
theorem rewrites_recursive {l eq : Label} {x e : Tree Label} (hl : l.kind = .recursive)
    (heq : eq.kind = .equation) (hx : IsNaming x)
    (h : Forest a F O [(.node l [.node eq [x, e]], id)] []) :
    Rewrites (recursiveRule id) a F O id (.node (l.turned .equation)
      [x, .node (l.beside .gamma)
        [.leaf (l.beside .ystar), .node (l.beside .lambda) [x, e]]]) := by
  have hlid : a.label id = l := h.label_eq
  obtain ⟨q, hc, hn, h⟩ := h.open_single (by rw [hl]; decide)
  have hlq : a.label q = eq := h.label_eq
  obtain ⟨ix, ie, hc', hs', hn', h⟩ := h.open_pair (by rw [heq]; decide)
  have h := h.discard [id] (by simp)
  have hnodup := h.nodup
  have hinside := h.inside
  have hO := h.outside_lt
  simp only [List.map_cons, List.map_nil, List.cons_append, List.nil_append, List.nodup_cons,
    List.mem_cons, forall_eq_or_imp, not_or] at hnodup hinside
  obtain ⟨a', hrun, hroot, -, hsize, hlabel, hchild, hsibling⟩ := recursiveRule_apply (by omega)
    (by omega) hc (by rw [Arena.kind, hlq, heq]) hc' hs'
  simp only [hlid] at hlabel
  have hnode (y) (hlt : y < a.size) (hy : y ≠ id) : a'.node y = a.node y := by
    rw [node_eq_iff, hlabel, hchild, hsibling]
    refine ⟨?_, ?_, ?_⟩ <;> simp (disch := omega) only [if_neg]
  have h : Forest a' F O [(x, ix), (e, ie)]
      [a.size + 3, a.size, a.size + 1, a.size + 2, id] := by
    refine h.kept [a.size + 3, a.size, a.size + 1, a.size + 2] (by omega) ?_ ?_ (by simp)
      (by simp; omega)
    · exact fun y hlt _ hy => hnode y hlt (List.ne_of_not_mem_cons hy)
    · exact fun y hlt hy => (node_eq_iff.1 (hnode y hlt (List.ne_of_not_mem_cons hy))).imp_right
        And.left
  -- the copy of the name, then the lambda, the fixpoint finder, the application and the equation
  have h := h.copy hx (by simp (disch := omega) only [hlabel, if_neg, if_true])
    (by simp (disch := omega) only [hchild, if_neg, if_true])
  have h := (h.perm (List.perm_append_singleton _ [_, _]).symm).close_pair (l := l.beside .lambda)
    nofun (by simp (disch := omega) only [hlabel, if_neg, if_true])
    (by simp (disch := omega) only [hchild, if_neg, if_true])
    (by simp (disch := omega) only [hsibling, if_neg, hs'])
    (by simp (disch := omega) only [hsibling, if_neg, hn'])
  have h := h.close_leaf (l := l.beside .ystar) nofun
    (by simp (disch := omega) only [hlabel, if_neg, if_true])
    (by simp (disch := omega) only [hchild, if_neg, child_of_le])
  have h := h.close_pair (l := l.beside .gamma) nofun
    (by simp (disch := omega) only [hlabel, if_neg, if_true])
    (by simp (disch := omega) only [hchild, if_neg, if_true])
    (by simp (disch := omega) only [hsibling, if_neg, if_true])
    (by simp (disch := omega) only [hsibling, if_neg, if_true])
  have h := (h.perm (.swap ..)).close_pair (l := l.turned .equation) nofun
    (by simp only [hlabel, if_true]) (by simp only [hchild, if_true])
    (by simp (disch := omega) only [hsibling, if_neg, if_true]) (by simp only [hsibling, if_true])
  refine .of_forest hrun h hroot (by omega) (fun y hy => hnode y (hO y hy) ?_) ?_
  · rintro rfl
    exact hinside.2.2.1.2 hy
  · simp (disch := omega) only [hsibling, if_neg]

/-! ### Functions -/

variable {trees : List (Tree Label × Nat)} {bare : List Nat}

/-- Trees at a chain of siblings are nested, and only these nodes are changed. The induction is on
    the trees behind the first; the first waits beside the forest until they are nested. -/
theorem nestLambdas_apply {n : Nat} {ts : List (Tree Label)} {ids : List Nat}
    (h : Forest a F O ((t, id) :: (ts.zip ids ++ trees)) bare) (hlen : ids.length = ts.length)
    (hchain : a.Chain (a.sibling id) ids) (hn : ids.length ≤ n) :
    ∃ root a', nestLambdas n id a = .ok root a' ∧
      Forest a' F O ((nest (t :: ts), root) :: trees) bare ∧ a'.root = a.root ∧
      a.size ≤ a'.size ∧ a'.sibling root = none ∧
      ∀ y < a.size, y ∉ id :: ids → a'.node y = a.node y := by
  induction ts generalizing n a t id ids trees bare with
  | nil =>
    obtain rfl := List.eq_nil_of_length_eq_zero hlen
    refine ⟨id, a, ?_, h, rfl, Nat.le_refl _, hchain, fun _ _ _ => rfl⟩
    have hnone : a.sibling id = none := hchain
    cases n with
    | zero => rfl
    | succ n => simp only [nestLambdas, bind_apply, sibling_apply, hnone, pure_apply]
  | cons t' ts ih =>
    obtain ⟨j, js, rfl⟩ := List.exists_cons_of_length_eq_add_one hlen
    rw [List.length_cons, List.length_cons, Nat.add_right_cancel_iff] at hlen
    obtain ⟨n, rfl⟩ : ∃ k, n = k + 1 := ⟨n - 1, by rw [List.length_cons] at hn; omega⟩
    obtain ⟨hj, hjs⟩ := hchain
    have hid := h.inside id (by simp)
    have hlid : a.label id = t.label := h.label_eq
    have hjlt : ∀ y ∈ j :: js, y < a.size := by
      intro y hy
      refine (h.inside y ?_).1
      rw [List.map_cons, List.map_append, List.map_snd_zip (by simp [hlen])]
      simp only [List.mem_cons, List.mem_append] at hy ⊢
      exact .inl (.inr (.inl hy))
    -- the new lambda is bare until its body is there
    generalize ha₁ : (a.alloc (t.label.beside .lambda)).setChild a.size (some id) = a₁
    have h₁ : Forest a₁ F O ((t', j) :: (ts.zip js ++ ((t, id) :: trees))) (a.size :: bare) := by
      have hperm : List.Perm ((t', j) :: ts.zip js ++ (t, id) :: trees)
          ((t, id) :: ((t', j) :: ts.zip js ++ trees)) := List.perm_middle
      rw [← ha₁]
      exact ((h.alloc _).setChild _).perm hperm.symm
    have hsize₁ : a₁.size = a.size + 1 := by simp [← ha₁]
    have hsibling₁ (y) : a₁.sibling y = a.sibling y := by
      rw [← ha₁, sibling_setChild, sibling_alloc]
    have hchain₁ : a₁.Chain (a₁.sibling j) js := by
      rw [hsibling₁]
      exact hjs.congr fun y _ => hsibling₁ y
    obtain ⟨root, a₂, hrun, h₂, hroot₂, hsize₂, hroot, hsame⟩ :=
      ih h₁ hlen hchain₁ (by simpa using hn)
    have hne : root ≠ id := by
      have hnodup := h₂.nodup
      grind
    have hlt₂ : id < a₂.size := by omega
    obtain ⟨hlabel₂, hchild₂, hsibling₂⟩ := node_eq_iff.1 (hsame a.size (by omega)
      fun hmem => Nat.lt_irrefl _ (hjlt _ hmem))
    have h₃ := ((h₂.perm (.swap ..)).setSibling (some root)).close_pair
      (l := t.label.beside .lambda) nofun
      (by rw [label_setSibling, hlabel₂, ← ha₁, label_setChild, label_alloc, if_pos rfl])
      (by rw [child_setSibling, hchild₂, ← ha₁, child_setChild (by simp), if_pos rfl])
      (by rw [sibling_setSibling hlt₂, if_pos rfl])
      (by rw [sibling_setSibling hlt₂, if_neg hne, hroot])
    refine ⟨a.size, a₂.setSibling id (some root), ?_, h₃, by simp [hroot₂, ← ha₁],
      by simp; omega, ?_, fun y hy hmem => ?_⟩
    · simp only [nestLambdas, bind_apply, sibling_apply, hj, allocBeside_apply, hlid,
        setChild_apply, ha₁, hrun, setSibling_apply, pure_apply]
    · rw [sibling_setSibling hlt₂, if_neg (by omega), hsibling₂, hsibling₁,
        sibling_of_le (Nat.le_refl _)]
    · obtain ⟨hyid, hmem⟩ := List.ne_and_not_mem_of_not_mem_cons hmem
      rw [Arena.setSibling, node_modify_of_ne _ (Ne.symm hyid), hsame y (by omega) hmem, ← ha₁,
        Arena.setChild, node_modify_of_ne _ (by omega), node_alloc_of_lt _ hy]

/-- All trees at a chain of siblings are nested. -/
theorem curry_apply {ts : List (Tree Label)} {ids : List Nat}
    (h : Forest a F O ((t, id) :: (ts.zip ids ++ trees)) bare) (hlen : ids.length = ts.length)
    (hchain : a.Chain (a.sibling id) ids) :
    ∃ root a', curry id a = .ok root a' ∧
      Forest a' F O ((nest (t :: ts), root) :: trees) bare ∧ a'.root = a.root ∧
      a.size ≤ a'.size ∧ a'.sibling root = none ∧
      ∀ y < a.size, y ∉ id :: ids → a'.node y = a.node y := by
  have hn : ids.length ≤ a.size := by
    have hle := h.length_le
    simp only [List.length_cons, List.length_append, List.length_zip, hlen, Nat.min_self] at hle
    omega
  simp only [curry, bind_apply, get_apply]
  exact nestLambdas_apply h hlen hchain hn

/-- What is behind the first subtree of a node is nested as one subtree. -/
theorem curry_behind {l : Label} {p v : Tree Label} {ts : List (Tree Label)} (hl : l.kind ≠ .names)
    (h : Forest a F O [(.node l (p :: v :: ts), id)] []) :
    ∃ ip iv root a₁, a.child id = some ip ∧ a.sibling ip = some iv ∧
      (ts ≠ [] → ∃ j, a.sibling iv = some j) ∧ curry iv a = .ok root a₁ ∧
      Forest (a₁.setSibling ip (some root)) F O [(.node l [p, nest (v :: ts)], id)] [] ∧
      a₁.root = a.root ∧ a.size ≤ a₁.size ∧
      (∀ y ∈ O, (a₁.setSibling ip (some root)).node y = a.node y) ∧
      (a₁.setSibling ip (some root)).sibling id = a.sibling id := by
  have hlid : a.label id = l := h.label_eq
  obtain ⟨ids, hlen, hchain, h⟩ := h.open_root hl
  match ids, hlen with
  -- nothing but the nodes behind the first is nested; the first is linked to what comes of them
  | ip :: iv :: ids, hlen =>
    obtain ⟨hc, hs, hrest⟩ := hchain
    have hperm : List.Perm ((p, ip) :: ((v :: ts).zip (iv :: ids) ++ []))
        ((v, iv) :: (ts.zip ids ++ [(p, ip)])) := by
      rw [List.append_nil]
      exact (List.perm_append_singleton _ _).symm
    have hmap : ((p :: v :: ts).zip (ip :: iv :: ids) ++ []).map Prod.snd = ip :: iv :: ids := by
      rw [List.append_nil, List.map_snd_zip (Nat.le_of_eq hlen)]
    have hinside := h.inside
    have hnodup := h.nodup
    rw [hmap] at hinside hnodup
    obtain ⟨root, a₁, hrun, h₁, hroot₁, hsize, hroot, hsame⟩ :=
      curry_apply (h.perm hperm) (by simpa using hlen) hrest
    have hid := hinside id (by simp)
    have hip := hinside ip (by simp)
    have hidmem : id ∉ iv :: ids := by grind
    have hidip : id ≠ ip := by grind
    have hrootip : root ≠ ip := by
      have hnodup := h₁.nodup
      grind
    obtain ⟨hlabel, hchild, hsibling⟩ := node_eq_iff.1 (hsame id hid.1 hidmem)
    have h₂ := ((h₁.perm (.swap ..)).setSibling (some root)).close_pair hl
      (by rw [label_setSibling, hlabel, hlid]) (by rw [child_setSibling, hchild, hc])
      (by rw [sibling_setSibling (by omega), if_pos rfl])
      (by rw [sibling_setSibling (by omega), if_neg hrootip, hroot])
    refine ⟨ip, iv, root, a₁, hc, hs, fun hts => ?_, hrun, h₂, hroot₁, hsize, fun y hy => ?_,
      ?_⟩
    · have hpos : 0 < ids.length := by
        have := List.length_pos_iff.2 hts
        simp at hlen
        omega
      obtain ⟨j, js, rfl⟩ := List.exists_cons_of_ne_nil (List.ne_nil_of_length_pos hpos)
      exact ⟨j, hrest.1⟩
    · have hmem : y ∉ ip :: iv :: ids := fun hmem => (hinside y (List.mem_append_left _ hmem)).2 hy
      obtain ⟨hyip, hmem⟩ := List.ne_and_not_mem_of_not_mem_cons hmem
      rw [Arena.setSibling, node_modify_of_ne _ (Ne.symm hyip), hsame y (h.outside_lt y hy) hmem]
    · rw [sibling_setSibling (by omega), if_neg hidip, hsibling]

/-- The rule for `function_form` nests the parameters and the body as one right side. -/
theorem rewrites_functionForm {l : Label} {p v e : Tree Label} {ts : List (Tree Label)}
    (hl : l.kind = .functionForm) (h : Forest a F O [(.node l (p :: v :: e :: ts), id)] []) :
    Rewrites (functionFormRule id) a F O id
      (.node (l.turned .equation) [p, nest (v :: e :: ts)]) := by
  have hid := h.inside id (by simp)
  obtain ⟨ip, iv, root, a₁, hc, hs, hbody, hrun, h', hroot, hsize, hnode, hsibling⟩ :=
    curry_behind (by rw [hl]; decide) h
  obtain ⟨j, hj⟩ := hbody nofun
  refine .of_forest ?_ (h'.setKind (by rw [hl]; decide) .equation nofun) (by simpa using hroot)
    (by simpa using hsize)
    (fun y hy => ?_) ?_
  · simp only [functionFormRule, bind_apply, child_apply, hc, need_some, sibling_apply, hs, hj,
      hrun, setSibling_apply, setKind_apply]
  · have hne : id ≠ y := fun heq => hid.2 (heq ▸ hy)
    rw [Arena.setKind, node_modify_of_ne _ hne, hnode y hy]
  · rw [sibling_setKind, hsibling]

/-- The rule for `lambda` nests what is behind the first parameter. -/
theorem rewrites_lambda {l : Label} {v e : Tree Label} {ts : List (Tree Label)}
    (hl : l.kind = .lambda) (h : Forest a F O [(.node l (v :: e :: ts), id)] []) :
    Rewrites (lambdaRule id) a F O id (.node l [v, nest (e :: ts)]) := by
  obtain ⟨ip, iv, root, a₁, hc, hs, -, hrun, h', hroot, hsize, hnode, hsibling⟩ :=
    curry_behind (by rw [hl]; decide) h
  refine .of_forest ?_ h' (by simpa using hroot) (by simpa using hsize) hnode hsibling
  simp only [lambdaRule, bind_apply, child_apply, hc, need_some, sibling_apply, hs, hrun,
    setSibling_apply]

/-! ### Simultaneous definitions -/

/-- Equations are taken apart into their left and their right sides. -/
theorem allSides_apply {ds : List (Tree Label)} {qs : List Nat} (owner : Nat) (d : Defect)
    (hds : ∀ d ∈ ds, IsEquated d) (h : Forest a F O (ds.zip qs ++ trees) bare)
    (hlen : qs.length = ds.length) :
    ∃ lefts rights, allSides owner d qs a = .ok (lefts, rights) a ∧
      lefts.length = (ds.filterMap sides?).length ∧
      rights.length = (ds.filterMap sides?).length ∧
      Forest a F O (((ds.filterMap sides?).map Prod.fst).zip lefts ++
        (((ds.filterMap sides?).map Prod.snd).zip rights ++ trees)) bare := by
  induction ds generalizing qs trees with
  | nil =>
    obtain rfl := List.eq_nil_of_length_eq_zero hlen
    exact ⟨[], [], rfl, rfl, rfl, h⟩
  | cons d ds ih =>
    obtain ⟨q, qs, rfl⟩ := List.exists_cons_of_length_eq_add_one hlen
    rw [List.length_cons, List.length_cons, Nat.add_right_cancel_iff] at hlen
    obtain ⟨hd, hmore⟩ := List.forall_mem_cons.1 hds
    cases hd with
    | @mk l x e hl =>
      -- the equation itself is given up, and its sides join those of the others
      have hlq : a.label q = l := h.label_eq
      have hk : a.kind q = .equation := by rw [Arena.kind, hlq, hl]
      obtain ⟨ix, ie, hc, hs, hn, h⟩ := Forest.open_pair h (by rw [hl]; decide)
      have h := (h.discard bare (List.sublist_cons_self ..)).perm
        ((List.perm_middle.trans (List.perm_middle.cons _)).symm)
      obtain ⟨lefts, rights, hrun, hlefts, hrights, h⟩ := ih hmore h hlen
      have hsides : sides? (.node l [x, e]) = some (x, e) := if_pos hl
      rw [List.filterMap_cons_some hsides]
      refine ⟨ix :: lefts, ie :: rights, ?_, by simp [hlefts], by simp [hrights], h.perm ?_⟩
      · simp only [allSides, bind_apply, sides_apply owner d hk hc hs, hrun, pure_apply]
      · refine List.Perm.trans (.append_left _ ?_) List.perm_middle
        exact List.perm_middle.trans (List.perm_middle.cons _)

/-- The rule for `and` makes a list of the names and a tuple of the right sides. The equations
    themselves are not used any more, and the names are fixed from now on. -/
theorem rewrites_simultaneous {l : Label} {ds : List (Tree Label)} (hl : l.kind = .simultaneous)
    (hne : ds ≠ []) (hds : ∀ d ∈ ds, IsEquated d) (h : Forest a F O [(.node l ds, id)] []) :
    Rewrites (simultaneousRule id) a F O id (.node (l.turned .equation)
      [.node (l.beside .names) ((ds.filterMap sides?).map Prod.fst),
        .node (l.beside .tau) ((ds.filterMap sides?).map Prod.snd)]) := by
  have hlid : a.label id = l := h.label_eq
  obtain ⟨qs, hlen, hchain, h⟩ := h.open_root (by rw [hl]; decide)
  -- the children are read with a bound on their number, which the forest is known to keep
  have hqs : a.children id = qs := by
    refine hchain.siblings ?_
    have hle := h.length_le
    rwa [List.append_nil, List.length_zip, hlen, Nat.min_self, ← hlen] at hle
  have hqs_ne : qs.isEmpty = false := by
    rw [List.isEmpty_eq_false_iff, List.ne_nil_iff_length_pos, hlen]
    exact List.length_pos_iff.2 hne
  obtain ⟨lefts, rights, hrun, hlefts, hrights, h⟩ := allSides_apply id .notAllEquations hds h hlen
  have hmap : ((((ds.filterMap sides?).map Prod.fst).zip lefts ++
      (((ds.filterMap sides?).map Prod.snd).zip rights ++ [])).map Prod.snd) = lefts ++ rights := by
    rw [List.append_nil, List.map_append, List.map_snd_zip (by simp [hlefts]),
      List.map_snd_zip (by simp [hrights])]
  have hinside := h.inside
  have hnodup := h.nodup
  rw [hmap] at hinside hnodup
  have hid := hinside id (by simp)
  have hlt : ∀ y ∈ lefts ++ rights, y < a.size := fun y hy =>
    (hinside y (List.mem_append_left _ hy)).1
  obtain ⟨hlt_lefts, hlt_rights⟩ := List.forall_mem_append.1 hlt
  have hid_mem : id ∉ lefts ++ rights := fun hmem =>
    (List.nodup_append.1 hnodup).2.2 id hmem id (by simp) rfl
  obtain ⟨hid_lefts, hid_rights⟩ := not_or.1 (mt List.mem_append.2 hid_mem)
  -- the list of names, then the tuple, then the new equation
  obtain ⟨F', hF, hfresh, h₁⟩ := (h.alloc (l.beside .names)).setNames (l := l.beside .names)
    (by simp [hlefts]) rfl (by rw [label_alloc, if_pos rfl])
  generalize ha₁ : (a.alloc (l.beside .names)).setChildren a.size lefts = a₁ at h₁
  have hsize₁ : a₁.size = a.size + 1 := by simp [← ha₁]
  have hl₁id : a₁.label id = l := by
    rw [← ha₁, label_setChildren, label_alloc, if_neg (by omega), hlid]
  rw [List.append_nil] at h₁
  have h₂ := ((h₁.perm (List.perm_append_singleton _ _).symm).alloc (l.beside .tau)).setChildren
    (l := l.beside .tau) (by simp [hrights]) nofun (by rw [label_alloc, if_pos rfl])
  generalize ha₂ : (a₁.alloc (l.beside .tau)).setChildren a₁.size rights = a₂ at h₂
  have hsize₂ : a₂.size = a.size + 2 := by simp [← ha₂, hsize₁]
  have hl₂id : a₂.label id = l := by
    rw [← ha₂, label_setChildren, label_alloc, if_neg (by omega), hl₁id]
  have h₃ := ((h₂.perm (.swap ..)).setChildren_pair (by rw [hl]; decide) hl₂id).setKind
    (by rw [hl]; decide) .equation nofun
  refine ⟨_, F', ?_, h₃, ⟨by simp [← ha₂, ← ha₁], by simp; omega, hF, hfresh, fun y hy => ?_⟩, ?_⟩
  · simp only [simultaneousRule, bind_apply, get_apply, hqs, hqs_ne, Bool.false_eq_true, if_false,
      hrun, allocBeside_apply, hlid, setChildren_apply, ha₁, hl₁id, ha₂, setKind_apply]
  · have hylt := h.outside_lt y hy
    have hyid : y ≠ id := fun heq => hid.2 (heq ▸ hy)
    have hmem : y ∉ lefts ++ rights := fun hmem => (hinside y (List.mem_append_left _ hmem)).2 hy
    obtain ⟨hy_lefts, hy_rights⟩ := not_or.1 (mt List.mem_append.2 hmem)
    rw [Arena.setKind, node_modify_of_ne _ (Ne.symm hyid),
      node_setChildren_of_not_mem (by omega) (by simp; omega) (by simp; omega), ← ha₂,
      node_setChildren_of_not_mem (by simp)
        (fun i hi => by have := hlt_rights i hi; simp; omega)
        (List.not_mem_cons_of_ne_of_not_mem (by omega) hy_rights),
      node_alloc_of_lt _ (by omega), ← ha₁,
      node_setChildren_of_not_mem (by simp) (fun i hi => by have := hlt_lefts i hi; simp; omega)
        (List.not_mem_cons_of_ne_of_not_mem (by omega) hy_lefts),
      node_alloc_of_lt _ hylt]
  · rw [sibling_setKind, sibling_setChildren_of_not_mem (by simp; omega) (by simp; omega), ← ha₂,
      sibling_setChildren_of_not_mem (fun i hi => by have := hlt_rights i hi; simp; omega)
        hid_rights, sibling_alloc, ← ha₁,
      sibling_setChildren_of_not_mem (fun i hi => by have := hlt_lefts i hi; simp; omega)
        hid_lefts, sibling_alloc]

end Rpal.Reshape
