import Rpal.Control.Flatten
import Rpal.Proofs.Arena.Relaying
import Rpal.Proofs.Arena.Spans

/-!
# Standardization of trees of any shape

The nodes of a tree may be of any constructs and have any number of children. If standardization
fails, the error is about the first node, children before their parents, whose children are not what
its rule is for. What has been done until then is not undone: the arena is left with a part of the
tree rewritten. But standardization of this arena fails in the same way, however often it is tried.

## Key results

- `visit_fares`: what a visit of siblings comes to, be it to an end or to a stop
- `standardize_malformed_iff`: when standardization fails, and with which error
- `standardize_fails_again`: standardization that has failed fails again
-/

namespace Rpal.Arena

variable {a a' a'' : Arena} {O O' S S' P : Set Nat} {id n : Nat} {ids : List Nat}

/-- The places are distinct and not in `O`. -/
structure Apart (a : Arena) (O : Set Nat) (places : List Nat) : Prop where
  nodup : places.Nodup
  notMem : ∀ y ∈ places, y ∉ O
  outside_lt : ∀ y ∈ O, y < a.size

/-- The places below a node are apart from the node. -/
theorem Apart.below {below : List Nat} (h : a.Apart O (id :: below)) (hid : id < a.size) :
    a.Apart (insert id O) below where
  nodup := h.nodup.of_cons
  notMem y hy hmem := by
    obtain rfl | hmem := hmem
    · exact (List.nodup_cons.1 h.nodup).1 hy
    · exact h.notMem y (.tail _ hy) hmem
  outside_lt y hy := hy.elim (fun heq => heq ▸ hid) (h.outside_lt y)

/-- The places of a tree are apart from those of the trees behind it. -/
theorem Apart.inside {inside behind : List Nat} (h : a.Apart O (inside ++ behind))
    (hlt : ∀ y ∈ behind, y < a.size) : a.Apart (O ∪ {y | y ∈ behind}) inside where
  nodup := (List.nodup_append.1 h.nodup).1
  notMem y hy hmem := hmem.elim (h.notMem y (List.mem_append_left _ hy))
    fun hbehind => (List.nodup_append.1 h.nodup).2.2 y hy y hbehind rfl
  outside_lt y hy := hy.elim (h.outside_lt y) (hlt y)

/-- The places of the trees behind a tree are apart from what becomes of the tree. -/
theorem Apart.behind {inside behind loose bare : List Nat} (h : a.Apart O (inside ++ behind))
    (hpieces : a'.Pieces (O ∪ {y | y ∈ behind}) S loose bare) :
    a'.Apart (O ∪ (S ∪ {y | y ∈ loose ++ bare})) behind where
  nodup := (List.nodup_append.1 h.nodup).2.1
  notMem y hy hmem := by
    obtain hO | hS | hmem := hmem
    · exact h.notMem y (List.mem_append_right _ hy) hO
    · exact hpieces.apart y hS (.inr hy)
    · exact (hpieces.inside y hmem).2.2 (.inr hy)
  outside_lt y hy := by
    obtain hO | hS | hmem := hy
    · exact hpieces.outside_lt y (.inl hO)
    · exact hpieces.settled.lt y hS
    · exact (hpieces.inside y hmem).1

/-- The arena `a'` is what a visit leaves when it stops. The nodes in `S` are settled, and the way to
    the node where it has stopped leads through nodes in `P`. -/
structure Left (a a' : Arena) (O S P : Set Nat) : Prop where
  spares : Spares a a' O
  settled : a'.Settled S
  inside : ∀ y ∈ P, y < a'.size ∧ y ∉ S ∧ y ∉ O
  apart : ∀ y ∈ S, y ∉ O

/-- What leaves more places alone leaves fewer alone too. -/
theorem Left.mono (h : Left a a' O' S P) (hO : O ⊆ O') : Left a a' O S P where
  spares := h.spares.mono hO
  settled := h.settled
  inside y hy := by
    obtain ⟨hlt, hS, hyO⟩ := h.inside y hy
    exact ⟨hlt, hS, fun hmem => hyO (hO hmem)⟩
  apart y hy hmem := h.apart y hy (hO hmem)

/-- The visit has stopped below the node. -/
theorem Left.above (h : Left a a' (insert id O) S P) (hid : id < a.size) (hO : id ∉ O) :
    Left a a' O S (insert id P) where
  spares := h.spares.mono (Set.subset_insert ..)
  settled := h.settled
  inside y hy := by
    obtain rfl | hy := hy
    · exact ⟨Nat.lt_of_lt_of_le hid h.spares.size_le, fun hS => h.apart _ hS (.inl rfl), hO⟩
    · obtain ⟨hlt, hS, hyO⟩ := h.inside y hy
      exact ⟨hlt, hS, fun hmem => hyO (.inr hmem)⟩
  apart y hy hmem := h.apart y hy (.inr hmem)

/-- The visit has stopped at the node. -/
theorem Left.of_pieces (h : a'.Pieces O S ids [id]) (hspares : Spares a a' O) :
    Left a a' O S (insert id {y | y ∈ ids}) where
  spares := hspares
  settled := h.settled
  inside y hy := h.inside y (by simpa [or_comm] using hy)
  apart := h.apart

/-- A node that has been visited is still as it was when those behind it have been visited. -/
theorem Pieces.behind (h : a.Pieces O' S ids [id]) (hlaid : a.Laid id ids) (hO : O ⊆ O')
    (hspares : Spares a a' (O ∪ (S ∪ {y | y ∈ ids ++ [id]}))) :
    a'.Pieces O S ids [id] ∧ a'.Laid id ids ∧ a'.node id = a.node id ∧
      ∀ y ∈ ids, a'.node y = a.node y := by
  have hids (y) (hy : y ∈ ids) : y ∈ O ∪ (S ∪ {y | y ∈ ids ++ [id]}) :=
    .inr (.inr (List.mem_append_left _ hy))
  have hid := hspares.node_eq id (.inr (.inr (by simp)))
  have hsame (y) (hy : y ∈ ids) := hspares.node_eq y (hids y hy)
  obtain ⟨hlabel, hchild, -⟩ := node_eq_iff.1 hid
  refine ⟨h.spared hspares hO (fun y hy => .inr (.inl hy)) hids,
    hlaid.congr hlabel hchild fun y hy => (node_eq_iff.1 (hsame y hy)).2.2, hid, hsame⟩

/-- The visit has stopped behind a node that has been visited. -/
theorem Left.before (h : Left a' a'' (O ∪ (S ∪ {y | y ∈ ids ++ [id]})) S' P)
    (hpieces : a'.Pieces O' S ids [id]) (hlaid : a'.Laid id ids) (hO : O ⊆ O')
    (hspares : Spares a a' O) :
    Left a a'' O (S ∪ {y | y ∈ ids} ∪ S') (insert id P) ∧
      a''.Clear (S ∪ {y | y ∈ ids} ∪ S') id := by
  -- what the second visit does is outside of what the first one has left, which is therefore kept
  obtain ⟨hpieces, hlaid, -⟩ := hpieces.behind hlaid hO h.spares
  rw [← List.append_nil ids] at hpieces
  have hclosed := hpieces.close hlaid
  have hidmem : id ∈ O ∪ (S ∪ {y | y ∈ ids ++ [id]}) := .inr (.inr (by simp))
  refine ⟨⟨hspares.trans (h.spares.mono Set.subset_union_left),
    hclosed.settled.union h.settled, ?_, ?_⟩, (hclosed.clear id (.head _)).mono
      Set.subset_union_left⟩
  · rintro y (rfl | hy)
    · obtain ⟨hlt, hS, hyO⟩ := hclosed.inside y (by simp)
      exact ⟨hlt, fun hmem => hmem.elim hS fun hS' => h.apart y hS' hidmem, hyO⟩
    · obtain ⟨hlt, hS', hout⟩ := h.inside y hy
      refine ⟨hlt, ?_, fun hyO => hout (.inl hyO)⟩
      rintro ((hS | hids) | hS)
      · exact hout (.inr (.inl hS))
      · exact hout (.inr (.inr (List.mem_append_left _ hids)))
      · exact hS' hS
  · rintro y (hS | hS)
    · exact hclosed.apart y hS
    · exact fun hyO => h.apart y hS (.inl hyO)

end Rpal.Arena

namespace Rpal.Reshape

open Arena Rpal.Tree

variable {a a' : Arena} {O S P : Set Nat} {l : Label} {t : Tree Label} {ts : List (Tree Label)}
  {id n : Nat} {ids places : List Nat} {link : Option Nat}

/-! ### The first pass -/

/-- What it comes to when the subtrees of a node and the node itself are visited. -/
def NodeFares (n : Nat) (t : Tree Label) (a : Arena) (O : Set Nat) (id : Nat) : Prop :=
  match t.fault? with
  | none => Relays (do visit n (← child id); rule id) a O id t.isDefinition
  | some (u, d) => ∃ a' S P, (do visit n (← child id); rule id : Reshape Unit) a =
      .error (u.label.malformed d) a' ∧ Left a a' O S P ∧ id ∈ P ∧
        ((∃ ids d', a'.Refuses S P id ids d' ∧ u.label.malformed d = (a'.label id).malformed d') ∨
          a'.Stuck S P (u.label.malformed d) n (a'.child id))

/-- What it comes to when a chain of siblings is visited. -/
def Fares (n : Nat) (ts : List (Tree Label)) (a : Arena) (O : Set Nat) (link : Option Nat) : Prop :=
  match firstFault? (postorderAll ts) with
  | none => ∃ a' S ids idss, visit n link a = .ok () a' ∧ Spares a a' O ∧
      a'.Pieces O S idss.flatten ids ∧ a'.Chain link ids ∧ List.Forall₂ a'.Laid ids idss ∧
        ids.map a'.hasSides = ts.map isDefinition
  | some (u, d) => ∃ a' S P, visit n link a = .error (u.label.malformed d) a' ∧
      Left a a' O S P ∧ a'.Stuck S P (u.label.malformed d) n link

/-- There is nothing to be done for no trees. -/
theorem fares_nil (n : Nat) (hlt : ∀ y ∈ O, y < a.size) : Fares n [] a O none := by
  have hpieces : a.Pieces O ∅ [] [] := {
    settled := settled_empty a
    nodup := .nil
    inside := List.forall_mem_nil _
    apart := fun y hy => absurd hy (Set.notMem_empty y)
    outside_lt := hlt
    clear := List.forall_mem_nil _ }
  exact ⟨a, ∅, [], [], by cases n <;> rfl, .refl a O, hpieces, rfl, .nil, rfl⟩

/-- A node is visited after its children. -/
theorem node_fares (h : a.Spans t id places) (hplaces : a.Apart O places)
    (hfares : ∀ {ts link below O}, a.SpansAll ts link below → a.Apart O below →
      below.length < places.length → Fares n ts a O link) : NodeFares n t a O id := by
  cases t with
  | node l ts =>
    obtain ⟨hid, rfl, below, rfl, hbelow⟩ := h
    have hidO := hplaces.notMem id (.head _)
    have hfares := hfares hbelow (hplaces.below hid) (Nat.lt_succ_self _)
    rw [Fares] at hfares
    rw [NodeFares, fault?_node]
    cases hf : firstFault? (postorderAll ts) with
    | some f =>
      -- the visit stops below the node
      obtain ⟨u, d⟩ := f
      rw [hf] at hfares
      obtain ⟨a', S, P, hrun, hleft, hstuck⟩ := hfares
      obtain ⟨-, hchild, -⟩ := node_eq_iff.1 (hleft.spares.node_eq id (.inl rfl))
      refine ⟨a', S, insert id P, ?_, hleft.above hid hidO, .inl rfl, .inr ?_⟩
      · simp only [bind_apply, child_apply, hrun]
      · rw [hchild]
        exact hstuck.mono (Set.Subset.refl S) (Set.subset_insert ..)
    | none =>
      rw [hf] at hfares
      obtain ⟨a₁, S, ids, idss, hrun, hspares, hpieces, hchain, hlaid, hsides⟩ := hfares
      obtain ⟨hlabel, hchild, hsibling⟩ := node_eq_iff.1 (hspares.node_eq id (.inl rfl))
      have hspares := hspares.mono (Set.subset_insert id O)
      have hvisited : a₁.Visited O S id ids idss := ⟨hpieces.claim hidO, hchild ▸ hchain, hlaid⟩
      have hkind : a₁.kind id = (a.label id).kind := congrArg Label.kind hlabel
      have hdefect : (a₁.kind id).defect? (ids.map a₁.hasSides) = (node (a.label id) ts).defect? := by
        rw [hkind, hsides, defect?]
      cases hd : (node (a.label id) ts).defect? with
      | none =>
        have hrelays := relays_rule hvisited (hdefect.trans hd)
        have hlen : ids.length = ts.length := by simpa using congrArg List.length hsides
        rw [hkind, hlen] at hrelays
        refine hrelays.after ?_ hspares hsibling
        simp only [bind_apply, child_apply, hrun]
      | some d =>
        -- it stops at the node, over children that have been visited
        obtain ⟨a₂, S₂, ids₂, hrun₂, hspares₂, hpieces₂, hrefuses, hmalformed⟩ :=
          refuses_rule hvisited (hdefect.trans hd)
        rw [hlabel] at hrun₂ hmalformed
        refine ⟨a₂, S₂, _, ?_, .of_pieces hpieces₂ (hspares.trans hspares₂), .inl rfl, .inl
          ⟨ids₂, d, hrefuses.mono (Set.Subset.refl S₂) (Set.subset_insert ..), hmalformed⟩⟩
        simp only [bind_apply, child_apply, hrun, hrun₂]
        rfl

/-- What is behind a node that does not stop the visit is visited next. -/
theorem fares_cons {inside behind : List Nat}
    (hts : a.SpansAll ts (a.sibling id) behind) (hplaces : a.Apart O (inside ++ behind))
    (hnode : NodeFares n t a (O ∪ {y | y ∈ behind}) id)
    (hbehind : ∀ {a' O}, a'.SpansAll ts (a'.sibling id) behind → a'.Apart O behind →
      Fares n ts a' O (a'.sibling id)) : Fares (n + 1) (t :: ts) a O (some id) := by
  have hO : O ⊆ O ∪ {y | y ∈ behind} := Set.subset_union_left
  rw [NodeFares] at hnode
  rw [Fares, postorderAll, firstFault?_append, ← fault?]
  cases hf : t.fault? with
  | some f =>
    -- the visit stops in the first tree
    obtain ⟨u, d⟩ := f
    rw [hf] at hnode
    obtain ⟨a', S, P, hrun, hleft, hid, hstops⟩ := hnode
    exact ⟨a', S, P, visit_succ_error hrun, hleft.mono hO, hid, hstops.imp_right .inl⟩
  | none =>
    rw [hf] at hnode
    obtain ⟨a₁, S₁, ids₁, hrun₁, hpieces₁, hlaid₁, hspares₁, hsibling₁, hsides₁⟩ := hnode
    have hts₁ : a₁.SpansAll ts (a₁.sibling id) behind := by
      rw [hsibling₁]
      exact hts.congr hspares₁.size_le fun y hy => hspares₁.node_eq y (.inr hy)
    have hspares₁ := hspares₁.mono hO
    have hfares := hbehind hts₁ (hplaces.behind hpieces₁)
    rw [Fares] at hfares
    -- from here on, what has become of the first tree is outside
    have hvisit := visit_succ hrun₁
    cases hfs : firstFault? (postorderAll ts) with
    | some f =>
      -- it stops behind the first tree, all of which is settled
      obtain ⟨u, d⟩ := f
      rw [hfs] at hfares
      obtain ⟨a₂, S₂, P, hrun₂, hleft₂, hstuck₂⟩ := hfares
      obtain ⟨hleft, hclear⟩ := hleft₂.before hpieces₁ hlaid₁ hO hspares₁
      obtain ⟨-, -, hnode₂, -⟩ := hpieces₁.behind hlaid₁ hO hleft₂.spares
      refine ⟨a₂, _, _, hvisit.trans hrun₂, hleft, .inl rfl, .inr (.inr ⟨hclear, ?_⟩)⟩
      rw [(node_eq_iff.1 hnode₂).2.2]
      exact hstuck₂.mono Set.subset_union_right (Set.subset_insert ..)
    | none =>
      rw [hfs] at hfares
      obtain ⟨a₂, S₂, ids₂, idss₂, hrun₂, hspares₂, hpieces₂, hchain₂, hlaid₂, hsides₂⟩ := hfares
      obtain ⟨hpieces, hlaid, hnode₂, hsame⟩ := hpieces₁.behind hlaid₁ hO hspares₂
      obtain ⟨hlabel, hchild, hsibling⟩ := node_eq_iff.1 hnode₂
      refine ⟨a₂, S₁ ∪ S₂, id :: ids₂, ids₁ :: idss₂, hvisit.trans hrun₂,
        hspares₁.trans (hspares₂.mono Set.subset_union_left), ?_, ⟨rfl, ?_⟩, .cons hlaid hlaid₂, ?_⟩
      · exact hpieces.append hpieces₂ Set.subset_union_left (fun y hy => .inr (.inl hy))
          fun y hy => .inr (.inr hy)
      · rw [hsibling]
        exact hchain₂
      · have hid : a₂.hasSides id = a₁.hasSides id := by
          refine hasSides_congr hlabel hchild fun v hv => ?_
          rw [(node_eq_iff.1 (hsame v (hlaid₁.chain.mem hv))).2.2]
        rw [List.map_cons, List.map_cons, hid, hsides₁, hsides₂]

/-- A chain of siblings that are the roots of trees is visited until it ends or something is found to
    be wrong. The induction is on the number of links: a path through the trees has no more than
    there are nodes. -/
theorem visit_fares (n : Nat) (h : a.SpansAll ts link places) (hplaces : a.Apart O places)
    (hn : places.length ≤ n) : Fares n ts a O link := by
  induction n generalizing ts link places a O with
  | zero =>
    obtain rfl := List.eq_nil_of_length_eq_zero (Nat.le_zero.1 hn)
    cases ts with
    | nil =>
      obtain ⟨rfl, -⟩ := h
      exact fares_nil 0 hplaces.outside_lt
    | cons t ts =>
      obtain ⟨id, inside, behind, -, heq, ht, -⟩ := h
      obtain ⟨rfl, -⟩ := List.append_eq_nil_iff.1 heq.symm
      cases ht.mem
  | succ n ih =>
    cases ts with
    | nil =>
      obtain ⟨rfl, -⟩ := h
      exact fares_nil (n + 1) hplaces.outside_lt
    | cons t ts =>
      -- the first tree has a place at least, so that fewer are left for those behind it
      obtain ⟨id, inside, behind, rfl, rfl, ht, hts⟩ := h
      rw [List.length_append] at hn
      have hpos := List.length_pos_of_mem ht.mem
      refine fares_cons hts hplaces ?_ fun hspans hapart => ih hspans hapart (by omega)
      exact node_fares ht (hplaces.inside hts.lt) fun hspans hapart hlt => ih hspans hapart (by omega)

/-! ### Standardization -/

/-- What it comes to when a tree is standardized. If it fails, it leaves the arena so that it fails
    again. -/
theorem standardize_fares {root : Nat} (hmark : a.standardized = false) (hroot : a.root = some root)
    (h : a.Spans t root places) (hnodup : places.Nodup) :
    match t.fault? with
    | none => ∃ a', standardize a = .ok () a' ∧ a'.hasSides root = t.isDefinition
    | some (u, d) => ∃ a' S P, standardize a = .error (u.label.malformed d) a' ∧
        a'.Halted S P (u.label.malformed d) root := by
  have hnode : NodeFares (linkBound a) t a ∅ root := by
    -- nothing is outside of the whole tree
    have hapart : a.Apart ∅ places := ⟨hnodup, fun y _ => Set.notMem_empty y,
      fun y hy => absurd hy (Set.notMem_empty y)⟩
    refine node_fares h hapart fun hspans hapart hlt => visit_fares _ hspans hapart ?_
    -- distinct places are not more than there are nodes, and the bound is more than that
    have hle := length_le_size hnodup h.lt
    have hbound : a.size ≤ linkBound a :=
      Nat.le_trans (Nat.le_add_right _ 2) (Nat.le_mul_self _)
    omega
  rw [NodeFares] at hnode
  cases hf : t.fault? with
  | none =>
    rw [hf] at hnode
    obtain ⟨a', S, ids, hrun, -, -, -, -, hsides⟩ := hnode
    exact ⟨{ a' with standardized := true }, by rw [standardize_apply hmark hroot, hrun], hsides⟩
  | some f =>
    obtain ⟨u, d⟩ := f
    rw [hf] at hnode
    obtain ⟨a', S, P, hrun, hleft, hmem, hstops⟩ := hnode
    refine ⟨a', S, P, by rw [standardize_apply hmark hroot, hrun], hleft.spares.mark_eq.trans hmark,
      hleft.spares.root_eq.trans hroot, hleft.settled, fun y hy => ?_, hmem, ?_⟩
    · exact ⟨(hleft.inside y hy).1, (hleft.inside y hy).2.1⟩
    · exact hstops.imp_right fun hstuck => hstuck.le (linkBound_mono hleft.spares.size_le)

/-- A marked tree is refused at once. -/
theorem standardize_of_marked (hmark : a.standardized = true) :
    standardize a = .error .alreadyStandardized a := by
  simp only [standardize, bind_apply, get_apply, hmark, if_true]
  rfl

/-- If standardization fails because of the shape of the tree, this is about the first fault, and the
    arena is left so that standardization fails again. -/
theorem halted_of_standardize {k : Kind} {m : Nat} {d : Defect} (h : a.IsTree t)
    (hrun : standardize a = .error (.malformed k m d) a') :
    a.standardized = false ∧ (∃ u, t.fault? = some (u, d) ∧ u.label.malformed d = .malformed k m d) ∧
      ∃ S P root, a'.Halted S P (.malformed k m d) root := by
  obtain ⟨root, places, hroot, h, hnodup⟩ := h
  cases hmark : a.standardized with
  -- with the mark, and without a fault, the run would have ended otherwise
  | true => exact nomatch hrun.symm.trans (standardize_of_marked hmark)
  | false =>
    have hfares := standardize_fares hmark hroot h hnodup
    cases hf : t.fault? with
    | none =>
      rw [hf] at hfares
      obtain ⟨a₁, hrun₁, -⟩ := hfares
      exact nomatch hrun.symm.trans hrun₁
    | some f =>
      obtain ⟨u, d'⟩ := f
      rw [hf] at hfares
      obtain ⟨a₁, S, P, hrun₁, hhalted⟩ := hfares
      obtain ⟨heq, rfl⟩ := EStateM.Result.error.inj (hrun.symm.trans hrun₁)
      obtain rfl : d = d' := (StandardizeError.malformed.inj heq).2.2
      exact ⟨rfl, ⟨u, rfl, heq.symm⟩, S, P, root, heq ▸ hhalted⟩

/-- Standardization fails if something is wrong with a node, and the error is about the first node,
    children before their parents, of which this is so. It names the construct of this node, except
    that a `where` without an equation is called a `let`. -/
theorem standardize_malformed_iff {k : Kind} {m : Nat} {d : Defect} (h : a.IsTree t) :
    (∃ a', standardize a = .error (.malformed k m d) a') ↔
      a.standardized = false ∧ ∃ before u behind, t.postorder = before ++ u :: behind ∧
        (∀ v ∈ before, v.defect? = none) ∧ u.defect? = some d ∧
          k = u.label.kind.reported d ∧ m = u.label.line := by
  constructor
  · rintro ⟨a', hrun⟩
    obtain ⟨hmark, ⟨u, hf, heq⟩, -⟩ := halted_of_standardize h hrun
    obtain ⟨before, behind, hpost, hbefore, hu⟩ := firstFault?_eq_some_iff.1 hf
    obtain ⟨hk, hm, -⟩ := StandardizeError.malformed.inj heq
    exact ⟨hmark, before, u, behind, hpost, hbefore, hu, hk.symm, hm.symm⟩
  · rintro ⟨hmark, before, u, behind, hpost, hbefore, hu, rfl, rfl⟩
    obtain ⟨root, places, hroot, h, hnodup⟩ := h
    have hf : t.fault? = some (u, d) :=
      firstFault?_eq_some_iff.2 ⟨before, behind, hpost, hbefore, hu⟩
    have hfares := standardize_fares hmark hroot h hnodup
    rw [hf] at hfares
    obtain ⟨a', -, -, hrun, -⟩ := hfares
    exact ⟨a', hrun⟩

/-- `1 where 2`, on lines 5 and 6. -/
def whereInteger : Tree Label :=
  node ⟨.whereIn, none, 5⟩ [leaf ⟨.integer, some "1", 5⟩, leaf ⟨.integer, some "2", 6⟩]

/-- A `where` with an integer in place of a definition is called a `let`. -/
theorem standardize_malformed_iff_whereInteger : (ofTree whereInteger).IsTree whereInteger ∧
    ∃ a, standardize (ofTree whereInteger) = .error (.malformed .letIn 5 .noEquation) a := by
  have htree := isTree_ofTree whereInteger
  refine ⟨htree, (standardize_malformed_iff htree).2 ⟨rfl, whereInteger.children, whereInteger, [],
    rfl, by decide, rfl, rfl, rfl⟩⟩

/-- Standardization that has failed because of the shape of the tree leaves the tree without the
    mark. Its control structures cannot be built then, and standardization fails with the same error
    however often it is tried again. -/
theorem standardize_fails_again {k : Kind} {m : Nat} {d : Defect} (h : a.IsTree t)
    (hrun : standardize a = .error (.malformed k m d) a') (n : Nat) :
    ((after standardize)^[n] a').standardized = false ∧
      Arena.control ((after standardize)^[n] a') = .error .notStandardized ∧
        ∃ a'', standardize ((after standardize)^[n] a') = .error (.malformed k m d) a'' := by
  obtain ⟨-, -, S, P, root, hhalted⟩ := halted_of_standardize h hrun
  obtain ⟨S', h'⟩ := iterate_of_halted n hhalted
  obtain ⟨a'', -, hrun', -⟩ := standardize_of_halted h'
  exact ⟨h'.mark_eq, by rw [Arena.control, h'.mark_eq]; rfl, a'', hrun'⟩

/-- The application of a `let` with two bodies to a function without one. The `let` has been
    rewritten when the function is found to be malformed, and is rewritten again afterwards. -/
def applicationOfLet : Tree Label :=
  node ⟨.gamma, none, 1⟩
    [node ⟨.letIn, none, 1⟩
      [node ⟨.equation, none, 1⟩ [leaf ⟨.identifier, some "x", 1⟩, leaf ⟨.integer, some "1", 1⟩],
        leaf ⟨.identifier, some "x", 2⟩, leaf ⟨.identifier, some "y", 2⟩],
      node ⟨.lambda, none, 3⟩ [leaf ⟨.identifier, some "z", 3⟩]]

/-- A `let` without a definition below an application, which is tried three times. -/
theorem standardize_fails_again_applicationOfLet :
    (ofTree applicationOfLet).IsTree applicationOfLet ∧
      ∃ a, standardize (ofTree applicationOfLet) = .error (.malformed .lambda 3 .noBody) a ∧
        ∃ a', standardize ((after standardize)^[2] a) = .error (.malformed .lambda 3 .noBody) a' := by
  have htree := isTree_ofTree applicationOfLet
  have hrun : standardize (ofTree applicationOfLet) =
      .error (.malformed .lambda 3 .noBody) (after standardize (ofTree applicationOfLet)) := rfl
  exact ⟨htree, _, hrun, (standardize_fails_again htree hrun 2).2.2⟩

end Rpal.Reshape
