import Rpal.Proofs.Arena.Pieces
import Rpal.Proofs.Arena.Stuck

/-!
# The rules of standardization on trees of any shape

A rule that does not stop leaves its node with children over settled nodes, whatever the shape of the
tree was: with more children than the rule is for, or with any constructs in place of names and
expressions.

## Key results

- `Relays`: what a rule does to a node whose children are visited
- `relays_letIn`, …, `relays_recursive`: one lemma per rule
- `relays_rule`, `refuses_rule`: the rule for any construct, be its node as it should be or not
-/

namespace Rpal.Arena

/-- The children `ids` of the node have been visited. They have the children `idss`, below which
    everything is settled. -/
structure Visited (a : Arena) (O S : Set Nat) (id : Nat) (ids : List Nat)
    (idss : List (List Nat)) : Prop where
  pieces : a.Pieces O S idss.flatten (id :: ids)
  chain : a.Chain (a.child id) ids
  laid : List.Forall₂ a.Laid ids idss

variable {a a' : Arena} {O S : Set Nat} {id : Nat} {ids : List Nat} {idss : List (List Nat)}

/-- The children of a visited node are loose when their own children are settled. -/
theorem Visited.sink (h : a.Visited O S id ids idss) : ∃ S', a.Pieces O S' ids [id] := by
  have hpieces : a.Pieces O S (idss.flatten ++ []) (ids ++ [id]) := by
    rw [List.append_nil]
    exact h.pieces.perm (.refl _) (List.perm_append_singleton id ids).symm
  have hsunk := hpieces.sink h.laid
  rw [List.append_nil] at hsunk
  exact ⟨_, hsunk⟩

/-- A node is an equation with two sides if it has two children at least. -/
theorem hasSides_of_chain (h : a.Chain (a.child id) ids) :
    a.hasSides id = (decide (a.kind id = .equation) && decide (2 ≤ ids.length)) := by
  rw [hasSides]
  congr 1
  rcases ids with _ | ⟨x, _ | ⟨e, more⟩⟩
  · rw [chain_nil.1 h]
    rfl
  · rw [h.1, Option.bind_some, chain_nil.1 h.2]
    rfl
  · rw [h.1, Option.bind_some, h.2.1, Option.isSome_some, decide_eq_true (by simp)]

/-- An equation has a left and a right side among its children. -/
theorem Laid.sides (h : a.Laid id ids) (hid : a.hasSides id = true) :
    ∃ x e more, ids = x :: e :: more ∧ a.kind id = .equation ∧ a.child id = some x ∧
      a.sibling x = some e ∧ a.Chain (a.sibling e) more := by
  have hchain := h.chain
  rw [hasSides_of_chain hchain, Bool.and_eq_true_iff, decide_eq_true_iff, decide_eq_true_iff] at hid
  obtain ⟨hk, hlen⟩ := hid
  rcases ids with _ | ⟨x, _ | ⟨e, more⟩⟩
  · cases hlen
  · exact absurd hlen (by simp)
  · exact ⟨x, e, more, rfl, hk, hchain⟩

/-- A node stays laid if neither it nor the siblings of its children are changed. -/
theorem Laid.congr (h : a.Laid id ids) (hlabel : a'.label id = a.label id)
    (hchild : a'.child id = a.child id) (hsibling : ∀ y ∈ ids, a'.sibling y = a.sibling y) :
    a'.Laid id ids where
  chain := by
    rw [hchild]
    exact h.chain.congr hsibling
  passes := h.passes.congr hlabel hchild fun v hv hs => by rwa [hsibling v (h.chain.mem hv)]

end Rpal.Arena

namespace Rpal.Reshape

open Arena

variable {a a' : Arena} {O S : Set Nat} {id : Nat} {ids more : List Nat} {idss : List (List Nat)}

/-- The change leaves the node with children over settled nodes, and makes it an equation or not. It
    does not touch what is in `O`. -/
def Relays (x : Reshape Unit) (a : Arena) (O : Set Nat) (id : Nat) (equation : Bool) : Prop :=
  ∃ a' S ids, x a = .ok () a' ∧ a'.Pieces O S ids [id] ∧ a'.Laid id ids ∧ Spares a a' O ∧
    a'.sibling id = a.sibling id ∧ a'.hasSides id = equation

/-- A change that puts the pieces together to a node of another construct. -/
theorem Relays.of_pieces {x : Reshape Unit} (hrun : x a = .ok () a') (h : a'.Pieces O S ids [id])
    (hchain : a'.Chain (a'.child id) ids) {k : Kind} (hk : a'.kind id = k)
    (hrule : k.hasRule = false) (hspares : Spares a a' O)
    (hsibling : a'.sibling id = a.sibling id) :
    Relays x a O id (decide (k = .equation) && decide (2 ≤ ids.length)) := by
  refine ⟨a', S, ids, hrun, h, ⟨hchain, .inl (by rw [hk, hrule])⟩, hspares, hsibling, ?_⟩
  rw [hasSides_of_chain hchain, hk]

/-- What a change does after another that leaves the node's sibling and what is in `O` alone. -/
theorem Relays.after {x y : Reshape Unit} {equation : Bool} (h : Relays y a' O id equation)
    (hrun : x a = y a') (hspares : Spares a a' O) (hsibling : a'.sibling id = a.sibling id) :
    Relays x a O id equation := by
  obtain ⟨a'', S, ids, hrun', hpieces, hlaid, hspares', hsibling', hsides⟩ := h
  exact ⟨a'', S, ids, hrun.trans hrun', hpieces, hlaid, hspares.trans hspares',
    hsibling'.trans hsibling, hsides⟩

/-- The rule for `let` with an equation as its first operand. -/
theorem relays_letIn {q e₂ : Nat} (h : a.Visited O S id (q :: e₂ :: more) idss)
    (hq : a.hasSides q = true) : Relays (letRule id) a O id false := by
  obtain ⟨hpieces, ⟨hc, hs, hmore⟩, hlaid⟩ := h
  obtain ⟨_, idss, hlq, hothers, rfl⟩ := List.forall₂_cons_left_iff.1 hlaid
  obtain ⟨x, e₁, m, rfl, hk, hc', hs', hm⟩ := hlq.sides hq
  -- the other operands are loose, beside the children of the equation
  have h : a.Pieces O S (idss.flatten ++ x :: e₁ :: m) (e₂ :: more ++ [q, id]) :=
    hpieces.perm List.perm_append_comm
      ((List.Perm.swap ..).trans (List.perm_append_comm : ([q, id] ++ (e₂ :: more)).Perm _))
  have h := h.sink hothers
  generalize S ∪ _ = S₁ at h
  have h : a.Pieces O S₁ ([x] ++ (e₂ :: more ++ e₁ :: m)) [q, id] :=
    h.perm List.perm_middle (.refl _)
  obtain ⟨hnodup, hlt, hrest, hO⟩ := h.front
  obtain ⟨a', hrun, hroot, hmark, hsize, hlabel, hchild, hsibling⟩ := letRule_apply
    (hlt id (by simp)) (hlt q (by simp)) (hlt x (by simp)) hk hc hs hc' hs'
  have hnode (y) (hy : y ∉ [x, q, id]) : a'.node y = a.node y := by
    rw [node_eq_iff, hlabel, hchild, hsibling]
    grind
  have hspares : Spares a a' O := ⟨hroot, hmark, by omega, fun y hy => hnode y (hO y hy)⟩
  have h : a'.Pieces O S₁ ((x :: e₂ :: more) ++ (e₁ :: m)) [q, id] :=
    h.relinked hspares.size_le (by grind) (by grind)
  have hsame (y) (hy : y ∈ e₂ :: more ++ e₁ :: m) : a'.sibling y = a.sibling y :=
    (node_eq_iff.1 (hnode y (hrest y hy))).2.2
  have hne : id ≠ q ∧ q ≠ x ∧ x ≠ id := by grind
  have hlaid : a'.Laid q (x :: e₂ :: more) := by
    refine .of_lambda ?_ ⟨?_, ?_, ?_⟩
    · rw [Arena.kind, hlabel, if_neg hne.1.symm, if_pos rfl]
      rfl
    · rw [hchild, hc']
    · rw [hsibling, if_neg hne.2.1.symm, if_pos rfl]
    · rw [hsame e₂ (by simp)]
      exact hmore.congr fun y hy => hsame y (by simp [hy])
  refine .of_pieces (k := .gamma) hrun (h.close hlaid) ⟨?_, ?_, ?_⟩ ?_ rfl hspares ?_
  · rw [hchild, hc]
  · rw [hsibling, if_pos rfl]
  · rw [hsame e₁ (by simp)]
    exact hm.congr fun y hy => hsame y (by simp [hy])
  · rw [Arena.kind, hlabel, if_pos rfl]
    rfl
  · rw [hsibling, if_neg hne.1, if_neg hne.2.2.symm]

/-- The rule for `where` swaps its operands and drops what is behind them. The node is a `let` then
    that has been visited. -/
theorem whereRule_visited {e₂ q : Nat} (h : a.Visited O S id (e₂ :: q :: more) idss) :
    ∃ a' idss', whereRule id a = letRule id a' ∧ a'.Visited O S id [q, e₂] idss' ∧ Spares a a' O ∧
      a'.label id = (a.label id).turned .letIn ∧ a'.sibling id = a.sibling id ∧
      a'.hasSides q = a.hasSides q := by
  obtain ⟨hpieces, ⟨hc, hs, hmore⟩, hlaid⟩ := h
  obtain ⟨ks, _, hle, hothers, rfl⟩ := List.forall₂_cons_left_iff.1 hlaid
  obtain ⟨js, idss, hlq, -, rfl⟩ := List.forall₂_cons_left_iff.1 hothers
  -- no link leads to the operands behind the second one any more
  have h : a.Pieces O S (ks ++ js) [id, e₂, q] := by
    refine hpieces.discard ?_ (by simp)
    rw [List.flatten_cons, List.flatten_cons]
    exact .append_left (List.sublist_append_left ..) ks
  have h : a.Pieces O S ([] ++ (js ++ ks)) [id, q, e₂] :=
    h.perm List.perm_append_comm ((List.Perm.swap ..).cons _)
  obtain ⟨hnodup, hlt, hrest, hO⟩ := h.front
  -- only the node and its two operands are relinked, so that the operands stay over what they have
  obtain ⟨a', hrun, hroot, hmark, hsize, hlabel, hchild, hsibling⟩ := whereRule_apply
    (hlt id (by simp)) (hlt q (by simp)) (hlt e₂ (by simp)) hc hs
  have hnode (y) (hy : y ∉ [id, q, e₂]) : a'.node y = a.node y := by
    rw [node_eq_iff, hlabel, hchild, hsibling]
    grind
  have hspares : Spares a a' O := ⟨hroot, hmark, by omega, fun y hy => hnode y (hO y hy)⟩
  have h : a'.Pieces O S (js ++ ks) [id, q, e₂] :=
    h.relinked hspares.size_le (by grind) (by grind)
  have hsame (y) (hy : y ∈ js ++ ks) : a'.sibling y = a.sibling y :=
    (node_eq_iff.1 (hnode y (hrest y hy))).2.2
  have hne : id ≠ q ∧ id ≠ e₂ ∧ q ≠ e₂ := by simpa [and_assoc] using hnodup
  refine ⟨a', [js, ks], hrun, ⟨by simpa using h, ⟨?_, ?_, ?_⟩, ?_⟩, hspares, ?_, ?_, ?_⟩
  · rw [hchild, if_pos rfl]
  · rw [hsibling, if_pos rfl]
  · rw [hsibling, if_neg hne.2.2.symm, if_pos rfl]
    exact rfl
  · refine .cons (hlq.congr ?_ ?_ fun y hy => hsame y (by simp [hy])) (.cons (hle.congr ?_ ?_
      fun y hy => hsame y (by simp [hy])) .nil)
    · rw [hlabel, if_neg hne.1.symm]
    · rw [hchild, if_neg hne.1.symm]
    · rw [hlabel, if_neg hne.2.1.symm]
    · rw [hchild, if_neg hne.2.1.symm]
  · rw [hlabel, if_pos rfl]
  · rw [hsibling, if_neg hne.1, if_neg hne.2.1]
  · refine hasSides_congr ?_ ?_ fun v hv => ?_
    · rw [hlabel, if_neg hne.1.symm]
    · rw [hchild, if_neg hne.1.symm]
    · rw [hsame v (by simp [hlq.chain.mem hv])]

/-- The rule for `where` with an equation as its second operand. -/
theorem relays_whereIn {e₂ q : Nat} (h : a.Visited O S id (e₂ :: q :: more) idss)
    (hq : a.hasSides q = true) : Relays (whereRule id) a O id false := by
  obtain ⟨a', idss', hrun, h', hspares, -, hsibling, hq'⟩ := whereRule_visited h
  exact (relays_letIn h' (hq'.trans hq)).after hrun hspares hsibling

/-- The rule for `@` with an operand on both sides. -/
theorem relays_atName {e₁ n e₂ : Nat} (h : a.Visited O S id (e₁ :: n :: e₂ :: more) idss) :
    Relays (atNameRule id) a O id false := by
  obtain ⟨hc, hs, hs', hmore⟩ := h.chain
  obtain ⟨S₁, h⟩ := h.sink
  have h : a.Pieces O S₁ ([e₁, n] ++ (e₂ :: more)) [id] := h
  obtain ⟨hnodup, hlt, hrest, hO⟩ := h.front
  have hOlt := h.outside_lt
  obtain ⟨a', hrun, hroot, hmark, hsize, hlabel, hchild, hsibling⟩ := atNameRule_apply
    (hlt id (by simp)) (hlt e₁ (by simp)) (hlt n (by simp)) hc hs hs'
  have hnode (y) (hylt : y < a.size) (hy : y ∉ [e₁, n, id]) : a'.node y = a.node y := by
    rw [node_eq_iff, hlabel, hchild, hsibling]
    grind
  have hspares : Spares a a' O :=
    ⟨hroot, hmark, by omega, fun y hy => hnode y (hOlt y hy) (hO y hy)⟩
  have hinside := h.inside
  have h : a'.Pieces O S₁ ([e₁, n] ++ (e₂ :: more)) [a.size, id] :=
    h.kept [a.size] hspares.size_le (by grind) (by grind) (List.nodup_singleton _)
      (by simp; omega)
  have hsame (y) (hy : y ∈ e₂ :: more) : a'.sibling y = a.sibling y :=
    (node_eq_iff.1 (hnode y (hinside y (by simp at hy ⊢; tauto)).1 (hrest y hy))).2.2
  simp only [List.cons_append, List.nil_append, List.forall_mem_cons] at hlt
  have hne : e₁ ≠ n ∧ e₁ ≠ id ∧ n ≠ id := by simpa [and_assoc] using hnodup
  -- the new application is over the name and the left operand
  have h : a'.Pieces O S₁ ([n, e₁] ++ (e₂ :: more)) [a.size, id] := h.perm (.swap ..) (.refl _)
  have hlaid : a'.Laid a.size [n, e₁] := by
    refine .of_hasRule (k := .gamma) ?_ rfl ⟨?_, ?_, ?_⟩
    · rw [Arena.kind, hlabel, if_neg (by omega), if_pos rfl]
      rfl
    · rw [hchild, if_neg (by omega), if_pos rfl]
    · simp (disch := omega) only [hsibling, if_neg, if_true]
    · simp (disch := omega) only [hsibling, if_neg, if_true]
      exact rfl
  refine .of_pieces (k := .gamma) hrun (h.close hlaid) ⟨?_, ?_, ?_⟩ ?_ rfl hspares ?_
  · rw [hchild, if_pos rfl]
  · rw [hsibling, if_pos rfl]
  · rw [hsame e₂ (by simp)]
    exact hmore.congr fun y hy => hsame y (by simp [hy])
  · rw [Arena.kind, hlabel, if_pos rfl]
    rfl
  · simp (disch := omega) only [hsibling, if_neg]

/-- What is behind the first child of a node is nested as one node. -/
theorem curry_visited {p v : Nat} (h : a.Visited O S id (p :: v :: more) idss) :
    ∃ root a₁ S', curry v a = .ok root a₁ ∧
      Arena.Pieces (a₁.setSibling p (some root)) O S' [p, root] [id] ∧
      Arena.Chain (a₁.setSibling p (some root)) (a.child id) [p, root] ∧
      Spares a (a₁.setSibling p (some root)) O ∧ a₁.node id = a.node id ∧ id ≠ p ∧ p < a₁.size := by
  obtain ⟨hc, hs, hmore⟩ := h.chain
  -- what is below the children is settled from now on, and the children are loose
  obtain ⟨S₁, h⟩ := h.sink
  have hfront : a.Pieces O S₁ ((p :: v :: more) ++ []) [id] := by
    rw [List.append_nil]
    exact h
  obtain ⟨hnodup, hlt, -, hO⟩ := hfront.front
  have hOlt := h.outside_lt
  have hpid : id ≠ p ∧ id ∉ v :: more := by
    have hmem := List.disjoint_of_nodup_append hnodup
    grind
  obtain ⟨root, a₁, S', hrun, h₁, hroot₁, hmark₁, hsize, hroot, hsame⟩ := curry_pieces
    (h.perm (List.perm_append_singleton p (v :: more)).symm (.refl _)) hmore
  have hplt : p < a₁.size := Nat.lt_of_lt_of_le (hlt p (by simp)) hsize
  have hrootp : root ≠ p := by
    have hnodup₁ := h₁.nodup
    grind
  have hsibling := sibling_setSibling hplt (some root)
  refine ⟨root, a₁, S', hrun, ?_, ⟨hc, ?_, ?_⟩, ⟨hroot₁, hmark₁, by simpa, fun y hy => ?_⟩, ?_, hpid.1,
    hplt⟩
  · refine (h₁.perm (.swap ..) (.refl _)).relinked (by simp) (fun y _ hy _ => ?_) fun y _ _ => ?_
    · exact node_modify_of_ne _ (Ne.symm (List.ne_of_not_mem_cons hy))
    · rw [label_setSibling, child_setSibling]
      exact ⟨rfl, rfl⟩
  · rw [hsibling, if_pos rfl]
  · rw [hsibling, if_neg hrootp, hroot]
    exact rfl
  · -- neither the nesting nor the new link is noticed outside
    have hy' := hO y hy
    simp only [List.mem_append, List.mem_cons, not_or] at hy'
    rw [Arena.setSibling, node_modify_of_ne _ (Ne.symm hy'.1.1),
      hsame y (hOlt y hy) (by simpa using hy'.1.2)]
  · exact hsame id (hlt id (by simp)) hpid.2

/-- The rule for `function_form` with a name, a parameter and a body. -/
theorem relays_functionForm {p v w : Nat} (h : a.Visited O S id (p :: v :: w :: more) idss) :
    Relays (functionFormRule id) a O id true := by
  obtain ⟨hc, hs, hs', -⟩ := h.chain
  have hid := (h.pieces.inside id (by simp))
  -- first, the parameters become lambdas around the body, beside the name
  obtain ⟨root, a₁, S', hrun, h₁, hchain, hspares, hnode, hne, hplt⟩ := curry_visited h
  have hid₁ : id < a₁.size := by
    have hle := hspares.size_le
    simp only [size_setSibling] at hle
    omega
  obtain ⟨hlabel₁, hchild₁, hsibling₁⟩ := node_eq_iff.1 hnode
  have hrun : functionFormRule id a =
      .ok () ((a₁.setSibling p (some root)).setKind id .equation) := by
    simp only [functionFormRule, bind_apply, child_apply, hc, need_some, sibling_apply, hs, hs', hrun,
      setSibling_apply, setKind_apply]
  have hlabel := label_setKind (a := a₁.setSibling p (some root)) (by simpa using hid₁) .equation
  -- then the outermost lambda becomes the sibling of the name
  have hpieces : Arena.Pieces ((a₁.setSibling p (some root)).setKind id .equation) O S' [p, root]
      [id] := by
    refine h₁.relinked (by simp) (fun y _ _ hy => ?_) fun y _ hy => ?_
    · exact node_modify_of_ne _ (Ne.symm (List.ne_of_not_mem_cons hy))
    · rw [hlabel, if_neg (List.ne_of_not_mem_cons hy), child_setKind]
      exact ⟨rfl, rfl⟩
  refine .of_pieces (k := .equation) hrun hpieces ?_ ?_ rfl (hspares.trans ⟨rfl, rfl, by simp, ?_⟩) ?_
  · rw [child_setKind, child_setSibling, hchild₁]
    exact hchain.congr fun y _ => sibling_setKind ..
  · rw [Arena.kind, hlabel, if_pos rfl]
  · exact fun y hy => node_modify_of_ne _ fun heq => hid.2.2 (heq ▸ hy)
  · rw [sibling_setKind, sibling_setSibling hplt, if_neg hne, hsibling₁]

/-- The rule for `lambda` with a parameter and a body. -/
theorem relays_lambda {p v : Nat} (h : a.Visited O S id (p :: v :: more) idss)
    (hk : a.kind id = .lambda) : Relays (lambdaRule id) a O id false := by
  obtain ⟨hc, hs, -⟩ := h.chain
  obtain ⟨root, a₁, S', hrun, h₁, hchain, hspares, hnode, hne, hplt⟩ := curry_visited h
  obtain ⟨hlabel₁, hchild₁, hsibling₁⟩ := node_eq_iff.1 hnode
  generalize ha' : a₁.setSibling p (some root) = a' at h₁ hchain hspares
  have hrun : lambdaRule id a = .ok () a' := by
    simp only [lambdaRule, bind_apply, child_apply, hc, need_some, sibling_apply, hs, hrun,
      setSibling_apply, ha']
  have hk' : a'.kind id = .lambda := by
    rw [Arena.kind, ← ha', label_setSibling, hlabel₁, ← Arena.kind, hk]
  have hchild : a'.child id = a.child id := by rw [← ha', child_setSibling, hchild₁]
  have hsome := hchain.2.1
  refine ⟨a', S', [p, root], hrun, h₁, ⟨hchild ▸ hchain, .inr ⟨hk', p, ?_, ?_⟩⟩, hspares, ?_, ?_⟩
  · rw [hchild, hc]
  · rw [hsome, Option.isSome_some]
  · rw [← ha', sibling_setSibling hplt, if_neg hne, hsibling₁]
  · rw [hasSides, hk']
    rfl

/-- The rule for `within` with two equations. -/
theorem relays_within {q₁ q₂ : Nat} (h : a.Visited O S id (q₁ :: q₂ :: more) idss)
    (h₁ : a.hasSides q₁ = true) (h₂ : a.hasSides q₂ = true) : Relays (withinRule id) a O id true := by
  obtain ⟨hpieces, ⟨hc, hs, -⟩, hlaid⟩ := h
  obtain ⟨_, _, hl₁, hothers, rfl⟩ := List.forall₂_cons_left_iff.1 hlaid
  obtain ⟨_, idss, hl₂, -, rfl⟩ := List.forall₂_cons_left_iff.1 hothers
  obtain ⟨x₁, e₁, m₁, rfl, hk₁, hc₁, hs₁, -⟩ := hl₁.sides h₁
  obtain ⟨x₂, e₂, m₂, rfl, hk₂, hc₂, hs₂, -⟩ := hl₂.sides h₂
  -- the sides are loose, and the equations are given up
  have h : a.Pieces O S [x₁, e₁, x₂, e₂] [id] := by
    refine hpieces.discard ?_ (by simp)
    simp only [List.flatten_cons, List.cons_append]
    exact .cons_cons _ (.cons_cons _ (.trans (.cons_cons _ (.cons_cons _ (List.nil_sublist _)))
      (List.sublist_append_right ..)))
  have h : a.Pieces O S ([x₁, e₂, e₁, x₂] ++ []) [id] :=
    h.perm (.cons _ ((List.perm_append_singleton e₂ [e₁, x₂]))) (.refl _)
  obtain ⟨hnodup, hlt, -, hO⟩ := h.front
  have hOlt := h.outside_lt
  obtain ⟨a', hrun, hroot, hmark, hsize, hlabel, hchild, hsibling⟩ := withinRule_apply
    (hlt id (by simp)) (fun y hy => hlt y (by grind)) hc hs hk₁ hc₁ hs₁ hk₂ hc₂ hs₂
  have hnode (y) (hylt : y < a.size) (hy : y ∉ [x₁, e₂, e₁, x₂, id]) : a'.node y = a.node y := by
    rw [node_eq_iff, hlabel, hchild, hsibling]
    grind
  have hspares : Spares a a' O :=
    ⟨hroot, hmark, by omega, fun y hy => hnode y (hOlt y hy) (hO y hy)⟩
  have h : a'.Pieces O S ([x₁, e₂] ++ [e₁, x₂]) [a.size, a.size + 1, id] :=
    h.kept [a.size, a.size + 1] hspares.size_le (by grind) (by grind) (by simp) (by simp; omega)
  simp only [List.cons_append, List.nil_append, List.forall_mem_cons] at hlt
  simp only [List.cons_append, List.nil_append, List.nodup_cons, List.mem_cons, not_or] at hnodup
  -- the lambda, then its application
  have hlambda : a'.Laid a.size [x₁, e₂] := by
    refine .of_lambda ?_ ⟨?_, ?_, ?_⟩
    · simp (disch := omega) only [Arena.kind, hlabel, if_neg, if_true, Label.kind_beside]
    · simp (disch := omega) only [hchild, if_neg, if_true]
    · simp (disch := omega) only [hsibling, if_neg, if_true]
    · simp (disch := omega) only [hsibling, if_neg, if_true]
      exact rfl
  have h : a'.Pieces O _ ([a.size, e₁] ++ [x₂]) [a.size + 1, id] := h.close hlambda
  have hgamma : a'.Laid (a.size + 1) [a.size, e₁] := by
    refine .of_hasRule (k := .gamma) ?_ rfl ⟨?_, ?_, ?_⟩
    · simp (disch := omega) only [Arena.kind, hlabel, if_neg, if_true, Label.kind_beside]
    · simp (disch := omega) only [hchild, if_neg, if_true]
    · simp (disch := omega) only [hsibling, if_neg, if_true]
    · simp (disch := omega) only [hsibling, if_neg, if_true]
      exact rfl
  have h := (h.close hgamma).perm (.swap ..) (.refl _)
  refine .of_pieces (k := .equation) hrun h ⟨?_, ?_, ?_⟩ ?_ rfl hspares ?_
  · simp only [hchild, if_true]
  · simp (disch := omega) only [hsibling, if_neg, if_true]
  · simp only [hsibling, if_true]
    exact rfl
  · simp only [Arena.kind, hlabel, if_true, Label.kind_turned]
  · simp (disch := omega) only [hsibling, if_neg]

/-- Equations are taken apart into their left and their right sides. -/
theorem allSides_laid (owner : Nat) (d : Defect) (h : List.Forall₂ a.Laid ids idss)
    (hsides : ids.all a.hasSides = true) : ∃ lefts rights,
      allSides owner d ids a = .ok (lefts, rights) a ∧ (lefts ++ rights).Subperm idss.flatten := by
  induction h with
  | nil => exact ⟨[], [], rfl, .refl _⟩
  | @cons q js qs idss hq _ ih =>
    obtain ⟨hsq, hsides⟩ := Bool.and_eq_true_iff.1 hsides
    obtain ⟨x, e, m, rfl, hk, hc, hs, -⟩ := hq.sides hsq
    obtain ⟨lefts, rights, hrun, hsub⟩ := ih hsides
    refine ⟨x :: lefts, e :: rights, ?_, ?_⟩
    · simp only [allSides, bind_apply, sides_apply owner d hk hc hs, hrun, pure_apply]
    · have hperm : (x :: lefts ++ e :: rights).Perm (x :: e :: (lefts ++ rights)) :=
        List.perm_middle.cons x
      refine hperm.subperm.trans ?_
      rw [List.flatten_cons, List.cons_append, List.cons_append, List.subperm_cons,
        List.subperm_cons]
      exact hsub.trans (List.sublist_append_right ..).subperm

/-- A new node of a construct without a rule is put over loose nodes. -/
theorem pieces_gather {loose bare : List Nat} {l : Label} (h : a.Pieces O S (ids ++ loose) bare)
    (hl : l.kind.hasRule = false) (ha' : a' = (a.alloc l).setChildren a.size ids) :
    (∃ S', a'.Pieces O S' (a.size :: loose) bare) ∧ a'.size = a.size + 1 ∧ Spares a a' O ∧
      ∀ y ∈ bare, a'.node y = a.node y := by
  obtain ⟨hnodup, hlt, -, hO⟩ := h.front
  have hOlt := h.outside_lt
  have hids : ∀ y ∈ ids, y < (a.alloc l).size := fun y hy => by
    rw [size_alloc]
    exact Nat.lt_succ_of_lt (hlt y (by simp [hy]))
  have hsize : a'.size = a.size + 1 := by rw [ha', size_setChildren, size_alloc]
  -- besides the new node, only links between the gathered nodes change
  have hnode (y) (hylt : y < a.size) (hy : y ∉ ids) : a'.node y = a.node y := by
    rw [ha', node_setChildren_of_not_mem (by simp) hids (List.not_mem_cons_of_ne_of_not_mem
      (Nat.ne_of_lt hylt) hy), node_alloc_of_lt _ hylt]
  have hchild (y) : a'.child y = if y = a.size then ids.head? else a.child y := by
    rw [ha', child_setChildren (by simp), child_alloc]
  have hlabel (y) : a'.label y = if y = a.size then l else a.label y := by
    rw [ha', label_setChildren, label_alloc]
  -- the new node is bare at first, until it is closed over the gathered nodes
  have hpieces : a'.Pieces O S (ids ++ loose) (a.size :: bare) := by
    refine h.kept [a.size] (by omega) (fun y hylt hy _ => hnode y hylt (by simp_all))
      (fun y hylt _ => ?_) (List.nodup_singleton _) (by simp [hsize])
    rw [hlabel, hchild, if_neg (Nat.ne_of_lt hylt), if_neg (Nat.ne_of_lt hylt)]
    exact ⟨rfl, rfl⟩
  have hlaid : a'.Laid a.size ids := by
    refine .of_hasRule (by rw [Arena.kind, hlabel, if_pos rfl]) hl ?_
    rw [ha']
    exact chain_setChildren (by simp) hids (hnodup.sublist (List.sublist_append_left ..))
  refine ⟨⟨_, hpieces.close hlaid⟩, hsize, ⟨?_, ?_, by omega, fun y hy => ?_⟩, fun y hy => ?_⟩
  · rw [ha', root_setChildren, root_alloc]
  · rw [ha', standardized_setChildren, standardized_alloc]
  · exact hnode y (hOlt y hy) fun hmem => hO y hy (by simp [hmem])
  · exact hnode y (hlt y (by simp [hy])) fun hmem =>
      (List.nodup_append.1 hnodup).2.2 y hmem y hy rfl

/-- The rule for `and` with equations only. -/
theorem relays_simultaneous (h : a.Visited O S id ids idss) (hne : ids ≠ [])
    (hsides : ids.all a.hasSides = true) : Relays (simultaneousRule id) a O id true := by
  have hlen : ids.length ≤ a.size := by
    obtain ⟨S₁, h₁⟩ := h.sink
    exact h₁.length_le
  have hchildren : a.children id = ids := h.chain.siblings hlen
  obtain ⟨lefts, rights, hrun, hsub⟩ := allSides_laid id .notAllEquations h.laid hsides
  obtain ⟨kept, hperm, hkept⟩ := hsub
  -- the sides are loose, and the equations are given up
  have h : a.Pieces O S (lefts ++ rights) [id] :=
    (h.pieces.discard hkept (List.cons_sublist_cons.2 (List.nil_sublist _))).perm hperm (.refl _)
  generalize ha₁ : (a.alloc ((a.label id).beside .names)).setChildren a.size lefts = a₁
  obtain ⟨⟨S₁, h₁⟩, hsize₁, hspares₁, hid₁⟩ := pieces_gather h rfl ha₁.symm
  have h₁ : a₁.Pieces O S₁ (rights ++ [a.size]) [id] :=
    h₁.perm (List.perm_append_singleton a.size rights).symm (.refl _)
  generalize ha₂ : (a₁.alloc ((a₁.label id).beside .tau)).setChildren a₁.size rights = a₂
  obtain ⟨⟨S₂, h₂⟩, hsize₂, hspares₂, hid₂⟩ := pieces_gather h₁ rfl ha₂.symm
  have h₂ : a₂.Pieces O S₂ ([a.size, a₁.size] ++ []) [id] := h₂.perm (.swap ..) (.refl _)
  obtain ⟨hnodup, hlt, -, hO⟩ := h₂.front
  generalize ha₃ : (a₂.setChildren id [a.size, a₁.size]).setKind id .equation = a₃
  have hlt' : ∀ y ∈ [a.size, a₁.size], y < a₂.size := fun y hy => hlt y (List.mem_append_left _ hy)
  have hid := hlt id (by simp)
  have hlabel (y) (hy : y ≠ id) : a₃.label y = a₂.label y := by
    rw [← ha₃, label_setKind (by simpa), if_neg hy, label_setChildren]
  have hchild (y) (hy : y ≠ id) : a₃.child y = a₂.child y := by
    rw [← ha₃, child_setKind, child_setChildren hid, if_neg hy]
  have hsibling (y) (hy : y ∉ [a.size, a₁.size]) : a₃.sibling y = a₂.sibling y := by
    rw [← ha₃, sibling_setKind, sibling_setChildren_of_not_mem hlt' hy]
  have hnode (y) (hy : y ∉ [a.size, a₁.size, id]) : a₃.node y = a₂.node y := by
    have hyid : y ≠ id := fun heq => hy (by simp [heq])
    exact node_eq_iff.2 ⟨hlabel y hyid, hchild y hyid, hsibling y fun hmem => hy (by simp_all)⟩
  have hidmem : id ∉ [a.size, a₁.size] := fun hmem =>
    (List.nodup_append.1 hnodup).2.2 id hmem id (by simp) rfl
  have hspares₃ : Spares a₂ a₃ O :=
    ⟨by simp [← ha₃], by simp [← ha₃], by simp [← ha₃], fun y hy => hnode y (hO y hy)⟩
  have h₃ : a₃.Pieces O S₂ [a.size, a₁.size] [id] := by
    refine h₂.relinked hspares₃.size_le (fun y _ hy hy' => hnode y ?_) fun y _ hy => ?_
    · simp_all
    · exact ⟨hlabel y (by simpa using hy), hchild y (by simpa using hy)⟩
  refine .of_pieces (k := .equation) ?_ h₃ ?_ ?_ rfl
    ((hspares₁.trans hspares₂).trans hspares₃) ?_
  · cases ids with
    | nil => exact absurd rfl hne
    | cons q qs =>
      simp only [simultaneousRule, bind_apply, get_apply, hchildren, List.isEmpty_cons,
        Bool.false_eq_true, if_false, hrun, allocBeside_apply, setChildren_apply, ha₁,
        ha₂, setKind_apply, ha₃]
  · rw [← ha₃, child_setKind]
    exact (chain_setChildren hid hlt' (hnodup.sublist (List.sublist_append_left ..))).congr
      fun y _ => sibling_setKind ..
  · rw [Arena.kind, ← ha₃, label_setKind (by simpa), if_pos rfl]
  · rw [hsibling id hidmem, (node_eq_iff.1 (hid₂ id (by simp))).2.2,
      (node_eq_iff.1 (hid₁ id (by simp))).2.2]

/-- The rule for `rec` with an equation as its first operand. The sides stay where they are, below the
    new lambda, and the copy of the name shares what is below it. -/
theorem relays_recursive {q : Nat} (h : a.Visited O S id (q :: more) idss)
    (hq : a.hasSides q = true) : Relays (recursiveRule id) a O id true := by
  obtain ⟨hpieces, ⟨hc, -⟩, hlaid⟩ := h
  obtain ⟨_, idss, hlq, -, rfl⟩ := List.forall₂_cons_left_iff.1 hlaid
  obtain ⟨x, e, m, rfl, hk, hc', hs', hm⟩ := hlq.sides hq
  have h : a.Pieces O S (x :: e :: m) [id] :=
    hpieces.discard (List.sublist_append_left ..) (by simp)
  have hidlt := (h.inside id (by simp)).1
  have hxlt := (h.inside x (by simp)).1
  obtain ⟨a', hrun, hroot, hmark, hsize, hlabel, hchild, hsibling⟩ :=
    recursiveRule_apply hidlt hxlt hc hk hc' hs'
  have hsame (y) (hy : y < a.size) : a'.sibling y = a.sibling y := by
    simp (disch := omega) only [hsibling, if_neg]
  have hkept (y) (hy : y < a.size) (hyid : y ≠ id) :
      a'.label y = a.label y ∧ a'.child y = a.child y := by
    simp (disch := omega) only [hlabel, hchild, if_neg, and_self]
  have hnode (y) (hy : y < a.size) (hyid : y ≠ id) : a'.node y = a.node y :=
    node_eq_iff.2 ⟨(hkept y hy hyid).1, (hkept y hy hyid).2, hsame y hy⟩
  have hspares : Spares a a' O := ⟨hroot, hmark, by omega, fun y hy =>
    hnode y (h.outside_lt y hy) fun heq => (h.inside id (by simp)).2.2 (heq ▸ hy)⟩
  have h' : a'.Pieces O S ((x :: e :: m) ++ []) [a.size, a.size + 1, a.size + 2, a.size + 3, id] := by
    rw [List.append_nil]
    exact h.kept [a.size, a.size + 1, a.size + 2, a.size + 3] hspares.size_le
      (fun y hy _ hyid => hnode y hy (List.ne_of_not_mem_cons hyid))
      (fun y hy hyid => hkept y hy (List.ne_of_not_mem_cons hyid)) (by simp) (by simp; omega)
  -- the lambda, the fixpoint operator, its application and the copy
  have hlambda : a'.Laid a.size (x :: e :: m) := by
    refine .of_lambda ?_ ⟨?_, ?_, ?_⟩
    · simp (disch := omega) only [Arena.kind, hlabel, if_neg, if_true, Label.kind_beside]
    · simp (disch := omega) only [hchild, if_neg, if_true]
    · rw [hsame x hxlt, hs']
    · rw [hsame e (h.inside e (by simp)).1]
      exact hm.congr fun y hy => hsame y (h.inside y (by simp [hy])).1
  have hystar (T : Set Nat) : a'.Clear T (a.size + 1) := by
    refine ⟨.inl ?_, fun v hv => ?_⟩
    · simp (disch := omega) only [Arena.kind, hlabel, if_neg, if_true, Label.kind_beside]
      rfl
    · simp (disch := omega) only [hchild, if_neg, child_of_le] at hv
      cases hv
  have hgamma : a'.Laid (a.size + 2) [a.size + 1, a.size] := by
    refine .of_hasRule (k := .gamma) ?_ rfl ⟨?_, ?_, ?_⟩
    · simp (disch := omega) only [Arena.kind, hlabel, if_neg, if_true, Label.kind_beside]
    · simp (disch := omega) only [hchild, if_neg, if_true]
    · simp (disch := omega) only [hsibling, if_neg, if_true]
    · simp (disch := omega) only [hsibling, if_neg, if_true]
      exact rfl
  have hcopy : a'.Clear S (a.size + 3) := by
    have hxid : x ≠ id := fun heq => h.notMem_bare x (by simp) (by simp [heq])
    have hlabel' : a'.label (a.size + 3) = a'.label x := by
      rw [(hkept x hxlt hxid).1]
      simp (disch := omega) only [hlabel, if_neg, if_true]
    have hchild' : a'.child (a.size + 3) = a'.child x := by
      rw [(hkept x hxlt hxid).2]
      simp (disch := omega) only [hchild, if_neg, if_true]
    have hx := h'.clear x (by simp)
    refine ⟨?_, hchild' ▸ hx.child⟩
    rw [Passes, Arena.kind, hlabel', hchild']
    exact hx.passes
  have h₁ : a'.Pieces O _ ([a.size + 1, a.size] ++ []) [a.size + 2, a.size + 3, id] :=
    (h'.close hlambda).close_clear (hystar _)
  have h₁ := h₁.close hgamma
  have h₂ := h₁.close_clear (hcopy.mono (Set.subset_union_left.trans Set.subset_union_left))
  refine .of_pieces (k := .equation) hrun h₂ ⟨?_, ?_, ?_⟩ ?_ rfl hspares (hsame id hidlt)
  · simp only [hchild, if_true]
  · simp (disch := omega) only [hsibling, if_neg, if_true]
  · simp only [hsibling, if_true]
    exact rfl
  · simp only [Arena.kind, hlabel, if_true, Label.kind_turned]

/-! ### The rule for any construct -/

/-- A node of a construct without a rule. -/
theorem relays_of_hasRule (h : a.Visited O S id ids idss) (hrule : (a.kind id).hasRule = false) :
    Relays (rule id) a O id ((a.kind id).makesEquation ids.length) := by
  obtain ⟨S', hpieces⟩ := h.sink
  have hrelays := Relays.of_pieces (rule_of_hasRule_eq_false hrule) hpieces h.chain rfl hrule
    (.refl a O) rfl
  have hmakes : (a.kind id).makesEquation ids.length =
      (decide (a.kind id = .equation) && decide (2 ≤ ids.length)) := by
    cases hk : a.kind id with
    | letIn | whereIn | functionForm | lambda | atName | within | simultaneous | recursive =>
      rw [hk] at hrule
      cases hrule
    | _ => rfl
  rwa [hmakes]

/-- The rule for a node with which nothing is wrong. -/
theorem relays_rule (h : a.Visited O S id ids idss)
    (hd : (a.kind id).defect? (ids.map a.hasSides) = none) :
    Relays (rule id) a O id ((a.kind id).makesEquation ids.length) := by
  by_cases hrule : (a.kind id).hasRule = false
  · exact relays_of_hasRule h hrule
  have hrun {x : Reshape Unit} {e : Bool} (hrelays : Relays x a O id e) (hrule : rule id a = x a) :
      Relays (rule id) a O id e := hrelays.after hrule (.refl a O) rfl
  -- the children are taken apart as far as the rule follows them, and there is a defect if they end
  -- before that or one is not as it should be
  cases hk : a.kind id with
  | letIn =>
    rw [hk] at hd
    rcases ids with _ | ⟨q, _ | ⟨e₂, more⟩⟩
    · cases hd
    · cases hq : a.hasSides q <;> simp [hq, Kind.defect?] at hd
    · cases hq : a.hasSides q with
      | false => simp [hq, Kind.defect?] at hd
      | true => exact hrun (relays_letIn h hq) (by rw [rule_apply, hk])
  | whereIn =>
    rw [hk] at hd
    rcases ids with _ | ⟨e₂, _ | ⟨q, more⟩⟩
    · cases hd
    · cases hd
    · cases hq : a.hasSides q with
      | false => simp [hq, Kind.defect?] at hd
      | true => exact hrun (relays_whereIn h hq) (by rw [rule_apply, hk])
  | functionForm =>
    rw [hk] at hd
    rcases ids with _ | ⟨p, _ | ⟨v, _ | ⟨w, more⟩⟩⟩
    · cases hd
    · cases hd
    · cases hd
    · exact hrun (relays_functionForm h) (by rw [rule_apply, hk])
  | lambda =>
    rw [hk] at hd
    rcases ids with _ | ⟨p, _ | ⟨v, more⟩⟩
    · cases hd
    · cases hd
    · exact hrun (relays_lambda h hk) (by rw [rule_apply, hk])
  | atName =>
    rw [hk] at hd
    rcases ids with _ | ⟨e₁, _ | ⟨n, _ | ⟨e₂, more⟩⟩⟩
    · cases hd
    · cases hd
    · cases hd
    · exact hrun (relays_atName h) (by rw [rule_apply, hk])
  | within =>
    rw [hk] at hd
    rcases ids with _ | ⟨q₁, _ | ⟨q₂, more⟩⟩
    · cases hd
    · cases hq : a.hasSides q₁ <;> simp [hq, Kind.defect?] at hd
    · cases h₁ : a.hasSides q₁ <;> cases h₂ : a.hasSides q₂ <;> simp [h₁, h₂, Kind.defect?] at hd
      exact hrun (relays_within h h₁ h₂) (by rw [rule_apply, hk])
  | simultaneous =>
    rw [hk] at hd
    rcases ids with _ | ⟨q, qs⟩
    · cases hd
    · have hall : (q :: qs).all a.hasSides = true := by
        simpa [Kind.defect?] using hd
      exact hrun (relays_simultaneous h (List.cons_ne_nil q qs) hall) (by rw [rule_apply, hk])
  | recursive =>
    rw [hk] at hd
    rcases ids with _ | ⟨q, more⟩
    · cases hd
    · cases hq : a.hasSides q with
      | false => simp [hq, Kind.defect?] at hd
      | true => exact hrun (relays_recursive h hq) (by rw [rule_apply, hk])
  | _ => exact absurd (hk ▸ rfl) hrule

/-- The rule for a node with which something is wrong. It is refused again then, with the same
    error. -/
theorem refuses_rule {d : Defect} (h : a.Visited O S id ids idss)
    (hd : (a.kind id).defect? (ids.map a.hasSides) = some d) :
    ∃ a' S' ids', rule id a = .error ((a.label id).malformed d) a' ∧ Spares a a' O ∧
      a'.Pieces O S' ids' [id] ∧ a'.Refuses S' {y | y ∈ ids'} id ids' d ∧
      (a.label id).malformed d = (a'.label id).malformed d := by
  by_cases hreported : (a.kind id).reported d = a.kind id
  · -- the rule leaves everything as it is
    obtain ⟨S', hpieces⟩ := h.sink
    have hrefuses : a.Refuses S' {y | y ∈ ids} id ids d :=
      ⟨h.chain, hpieces.length_le, fun y hy => hy, hpieces.clear, hd, hreported⟩
    exact ⟨a, S', ids, rule_of_refuses hrefuses, .refl a O, hpieces, hrefuses, rfl⟩
  · -- only the rule for `where` has swapped the operands before
    obtain ⟨hk, rfl⟩ : a.kind id = .whereIn ∧ d = .noEquation := by
      by_contra hne
      exact hreported (if_neg hne)
    obtain ⟨e₂, q, more, rfl, hq⟩ :
        ∃ e₂ q more, ids = e₂ :: q :: more ∧ a.hasSides q = false := by
      rw [hk] at hd
      rcases ids with _ | ⟨e₂, _ | ⟨q, more⟩⟩
      · cases hd
      · cases hd
      · cases hq : a.hasSides q with
        | false => exact ⟨e₂, q, more, rfl, hq⟩
        | true => simp [hq, Kind.defect?] at hd
    obtain ⟨a', idss', hrun, h', hspares, hlabel, -, hq'⟩ := whereRule_visited h
    obtain ⟨S', hpieces⟩ := h'.sink
    have hk' : a'.kind id = .letIn := by rw [Arena.kind, hlabel]; rfl
    have hdefect : Kind.letIn.defect? ([q, e₂].map a'.hasSides) = some .noEquation := by
      rw [List.map_cons, hq'.trans hq]
      rfl
    have hmalformed : (a.label id).malformed .noEquation = (a'.label id).malformed .noEquation := by
      rw [hlabel, Label.malformed, Label.malformed, ← Arena.kind, hk]
      rfl
    have hrefuses : a'.Refuses S' {y | y ∈ [q, e₂]} id [q, e₂] .noEquation :=
      ⟨h'.chain, hpieces.length_le, fun y hy => hy, hpieces.clear, hk' ▸ hdefect, by rw [hk']; rfl⟩
    refine ⟨a', S', [q, e₂], ?_, hspares, hpieces, hrefuses, hmalformed⟩
    rw [hmalformed, ← rule_of_refuses hrefuses, rule_apply, rule_apply, hk, hk']
    exact hrun

end Rpal.Reshape
