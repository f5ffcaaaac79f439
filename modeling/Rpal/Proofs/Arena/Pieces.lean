import Rpal.Proofs.Arena.Settled

/-!
# Pieces of a tree of any shape

A rule takes the tree at a node apart and puts it together again. What it touches are the node, its
children and its grandchildren; everything deeper is settled and stays as it is. The `loose` nodes are
those with settled nodes below them, whose siblings are about to be set. Nothing is said of the links
of `bare` nodes.

Loose nodes that are linked to each other become settled, and a bare node over settled nodes becomes
loose. In contrast to a forest, no two pieces have to be apart below the loose nodes: they may share
what is settled.

## Key results

- `Pieces.kept`: pieces are kept when only bare nodes and the siblings of loose ones change
- `Pieces.absorb`, `Pieces.close`: how pieces are put together
- `curry_pieces`: a chain of loose nodes is nested
-/

namespace Rpal.Arena

/-- Distinct nodes that a rule relinks, beside the settled nodes in `S` and apart from all nodes in
    `O`. -/
structure Pieces (a : Arena) (O S : Set Nat) (loose bare : List Nat) : Prop where
  settled : a.Settled S
  nodup : (loose ++ bare).Nodup
  inside : ∀ y ∈ loose ++ bare, y < a.size ∧ y ∉ S ∧ y ∉ O
  apart : ∀ y ∈ S, y ∉ O
  outside_lt : ∀ y ∈ O, y < a.size
  clear : ∀ y ∈ loose, a.Clear S y

/-- The node has the children `ids`, and the rule for it does not stop. -/
structure Laid (a : Arena) (id : Nat) (ids : List Nat) : Prop where
  chain : a.Chain (a.child id) ids
  passes : a.Passes id

variable {a a' : Arena} {O O' O'' S S' : Set Nat} {id : Nat} {ids loose loose' bare bare' : List Nat}
  {idss : List (List Nat)} {link : Option Nat}

/-- The nodes of a chain are linked to each other. -/
theorem Chain.sibling_mem (h : a.Chain link ids) :
    ∀ y ∈ ids, ∀ z, a.sibling y = some z → z ∈ ids := by
  induction ids generalizing link with
  | nil => exact nofun
  | cons id ids ih =>
    obtain ⟨-, h⟩ := h
    refine List.forall_mem_cons.2 ⟨fun z hz => ?_, fun y hy z hz => .tail _ (ih h y hy z hz)⟩
    cases ids with
    | nil => exact nomatch (chain_nil.1 h).symm.trans hz
    | cons i is => exact Option.some.inj (h.1.symm.trans hz) ▸ .tail _ (.head _)

/-- A link to a chain leads to a node of the chain. -/
theorem Chain.mem (h : a.Chain link ids) (hid : link = some id) : id ∈ ids := by
  cases ids with
  | nil => exact nomatch (chain_nil.1 h).symm.trans hid
  | cons i is => exact Option.some.inj (h.1.symm.trans hid) ▸ .head _

/-- A node of a construct without a rule, over any children. -/
theorem Laid.of_hasRule {k : Kind} (hk : a.kind id = k) (hrule : k.hasRule = false)
    (hchain : a.Chain (a.child id) ids) : a.Laid id ids :=
  ⟨hchain, .inl (by rw [hk, hrule])⟩

/-- A lambda over two children at least. -/
theorem Laid.of_lambda {x e : Nat} (hk : a.kind id = .lambda)
    (hchain : a.Chain (a.child id) (x :: e :: ids)) : a.Laid id (x :: e :: ids) :=
  ⟨hchain, .inr ⟨hk, x, hchain.1, by rw [hchain.2.1, Option.isSome_some]⟩⟩

/-! ### Order and selection -/

/-- The order of the pieces does not matter. -/
theorem Pieces.perm (h : Pieces a O S loose bare) (hloose : loose.Perm loose')
    (hbare : bare.Perm bare') : Pieces a O S loose' bare' where
  settled := h.settled
  nodup := (hloose.append hbare).nodup_iff.1 h.nodup
  inside y hy := h.inside y ((hloose.append hbare).mem_iff.2 hy)
  apart := h.apart
  outside_lt := h.outside_lt
  clear y hy := h.clear y (hloose.mem_iff.2 hy)

/-- Pieces can be left out. -/
theorem Pieces.discard (h : Pieces a O S loose bare) (hloose : loose'.Sublist loose)
    (hbare : bare'.Sublist bare) : Pieces a O S loose' bare' where
  settled := h.settled
  nodup := h.nodup.sublist (hloose.append hbare)
  inside y hy := h.inside y ((hloose.append hbare).subset hy)
  apart := h.apart
  outside_lt := h.outside_lt
  clear y hy := h.clear y (hloose.subset hy)

/-- Loose nodes are not bare. -/
theorem Pieces.notMem_bare (h : Pieces a O S loose bare) : ∀ y ∈ loose, y ∉ bare := fun y hy hmem =>
  (List.nodup_append.1 h.nodup).2.2 y hy y hmem rfl

/-- What is to be changed, some loose nodes and the bare ones, is apart from the rest. -/
theorem Pieces.front (h : Pieces a O S (ids ++ loose) bare) :
    (ids ++ bare).Nodup ∧ (∀ y ∈ ids ++ bare, y < a.size) ∧ (∀ y ∈ loose, y ∉ ids ++ bare) ∧
      ∀ y ∈ O, y ∉ ids ++ bare := by
  have hsub : (ids ++ bare).Sublist (ids ++ loose ++ bare) :=
    (List.sublist_append_left ..).append (.refl _)
  refine ⟨h.nodup.sublist hsub, fun y hy => (h.inside y (hsub.subset hy)).1, fun y hy hmem => ?_,
    fun y hO hmem => (h.inside y (hsub.subset hmem)).2.2 hO⟩
  obtain hids | hbare := List.mem_append.1 hmem
  · exact (List.nodup_append.1 (List.nodup_append.1 h.nodup).1).2.2 y hids y hy rfl
  · exact h.notMem_bare y (List.mem_append_right _ hy) hbare

/-- Pieces that have nothing in common. -/
theorem Pieces.append (h : Pieces a O S loose bare) (h' : Pieces a O' S' loose' bare')
    (hO : O ⊆ O') (hS : S ⊆ O') (hmem : ∀ y ∈ loose ++ bare, y ∈ O') :
    Pieces a O (S ∪ S') (loose ++ loose') (bare ++ bare') where
  settled := h.settled.union h'.settled
  nodup := by
    -- what is outside of the second pieces includes the first ones
    have hdisj : ∀ y ∈ loose ++ bare, y ∉ loose' ++ bare' := fun y hy hy' =>
      (h'.inside y hy').2.2 (hmem y hy)
    have hnodup := List.nodup_append.2 ⟨h.nodup, h'.nodup, fun y hy z hz heq =>
      hdisj y hy (heq ▸ hz)⟩
    refine (List.Perm.nodup_iff ?_).1 hnodup
    simp only [List.append_assoc]
    refine .append_left _ ?_
    rw [← List.append_assoc, ← List.append_assoc]
    exact .append_right _ List.perm_append_comm
  inside y hy := by
    have hy : y ∈ loose ++ bare ∨ y ∈ loose' ++ bare' := by
      simp only [List.mem_append] at hy ⊢
      tauto
    obtain hy | hy := hy
    · obtain ⟨hlt, hS, hO⟩ := h.inside y hy
      exact ⟨hlt, fun hmem' => hmem'.elim hS fun hy' => h'.apart y hy' (hmem y hy), hO⟩
    · obtain ⟨hlt, hS', hO'⟩ := h'.inside y hy
      exact ⟨hlt, fun hmem' => hmem'.elim (fun hy' => hO' (hS hy')) hS', fun hy' => hO' (hO hy')⟩
  apart := by
    rintro y (hy | hy) hO'
    · exact h.apart y hy hO'
    · exact h'.apart y hy (hO hO')
  outside_lt := h.outside_lt
  clear y hy := by
    obtain hy | hy := List.mem_append.1 hy
    · exact (h.clear y hy).mono Set.subset_union_left
    · exact (h'.clear y hy).mono Set.subset_union_right

/-! ### Changes -/

/-- Pieces are kept when only bare nodes and the siblings of loose nodes change. New nodes are
    bare. -/
theorem Pieces.kept (h : Pieces a O S loose bare) (news : List Nat) (hsize : a.size ≤ a'.size)
    (hnode : ∀ y < a.size, y ∉ loose → y ∉ bare → a'.node y = a.node y)
    (hloose : ∀ y < a.size, y ∉ bare → a'.label y = a.label y ∧ a'.child y = a.child y)
    (hnodup : news.Nodup) (hnews : ∀ y ∈ news, a.size ≤ y ∧ y < a'.size) :
    Pieces a' O S loose (news ++ bare) := by
  have hloose : ∀ y ∈ loose, a'.label y = a.label y ∧ a'.child y = a.child y := fun y hy =>
    hloose y (h.inside y (List.mem_append_left _ hy)).1 (h.notMem_bare y hy)
  have hS : ∀ y ∈ S, a'.node y = a.node y := fun y hy => hnode y (h.settled.lt y hy)
    (fun hmem => (h.inside y (List.mem_append_left _ hmem)).2.1 hy)
    (fun hmem => (h.inside y (List.mem_append_right _ hmem)).2.1 hy)
  -- the new nodes are not among the old ones
  have hnew : ∀ y ∈ news, y ∉ S ∧ y ∉ O ∧ y ∉ loose ++ bare := fun y hy =>
    ⟨fun hmem => Nat.not_lt.2 (hnews y hy).1 (h.settled.lt y hmem),
      fun hmem => Nat.not_lt.2 (hnews y hy).1 (h.outside_lt y hmem),
      fun hmem => Nat.not_lt.2 (hnews y hy).1 (h.inside y hmem).1⟩
  have hperm : (news ++ (loose ++ bare)).Perm (loose ++ (news ++ bare)) := by
    rw [← List.append_assoc, ← List.append_assoc]
    exact .append_right _ List.perm_append_comm
  refine ⟨h.settled.congr hsize hS, ?_, fun y hy => ?_, h.apart,
    fun y hy => Nat.lt_of_lt_of_le (h.outside_lt y hy) hsize, fun y hy => ?_⟩
  · refine hperm.nodup_iff.1 (List.nodup_append.2 ⟨hnodup, h.nodup, fun y hy z hz heq => ?_⟩)
    exact (hnew y hy).2.2 (heq ▸ hz)
  · obtain hy | hy := List.mem_append.1 (hperm.mem_iff.2 hy)
    · exact ⟨(hnews y hy).2, (hnew y hy).1, (hnew y hy).2.1⟩
    · exact ⟨Nat.lt_of_lt_of_le (h.inside y hy).1 hsize, (h.inside y hy).2⟩
  · exact (h.clear y hy).congr (hloose y hy).1 (hloose y hy).2 hS

/-- Pieces are kept when links are changed and no nodes are added. -/
theorem Pieces.relinked (h : Pieces a O S loose bare) (hsize : a.size ≤ a'.size)
    (hnode : ∀ y < a.size, y ∉ loose → y ∉ bare → a'.node y = a.node y)
    (hloose : ∀ y < a.size, y ∉ bare → a'.label y = a.label y ∧ a'.child y = a.child y) :
    Pieces a' O S loose bare :=
  h.kept [] hsize hnode hloose .nil (List.forall_mem_nil _)

/-- Pieces are kept when they are spared. Less has to be outside of them. -/
theorem Pieces.spared (h : Pieces a O' S loose bare) (h' : Spares a a' O'') (hO : O ⊆ O')
    (hS : S ⊆ O'') (hloose : ∀ y ∈ loose, y ∈ O'') : Pieces a' O S loose bare where
  settled := h.settled.congr h'.size_le fun y hy => h'.node_eq y (hS hy)
  nodup := h.nodup
  inside y hy := by
    obtain ⟨hlt, hyS, hyO⟩ := h.inside y hy
    exact ⟨Nat.lt_of_lt_of_le hlt h'.size_le, hyS, fun hmem => hyO (hO hmem)⟩
  apart y hy hmem := h.apart y hy (hO hmem)
  outside_lt y hy := Nat.lt_of_lt_of_le (h.outside_lt y (hO hy)) h'.size_le
  clear y hy := by
    obtain ⟨hlabel, hchild, -⟩ := node_eq_iff.1 (h'.node_eq y (hloose y hy))
    exact (h.clear y hy).congr hlabel hchild fun z hz => h'.node_eq z (hS hz)

/-- A node from outside is added to the bare ones. -/
theorem Pieces.claim (h : Pieces a (insert id O) S loose bare) (hid : id ∉ O) :
    Pieces a O S loose (id :: bare) where
  settled := h.settled
  nodup := List.perm_middle.nodup_iff.2
    (List.nodup_cons.2 ⟨fun hmem => (h.inside id hmem).2.2 (.inl rfl), h.nodup⟩)
  inside y hy := by
    obtain rfl | hy := List.mem_cons.1 (List.perm_middle.mem_iff.1 hy)
    · exact ⟨h.outside_lt _ (.inl rfl), fun hmem => h.apart _ hmem (.inl rfl), hid⟩
    · obtain ⟨hlt, hS, hO⟩ := h.inside y hy
      exact ⟨hlt, hS, fun hmem => hO (.inr hmem)⟩
  apart y hy hmem := h.apart y hy (.inr hmem)
  outside_lt y hy := h.outside_lt y (.inr hy)
  clear := h.clear

/-- Loose nodes that are linked to each other become settled. -/
theorem Pieces.absorb (h : Pieces a O S (ids ++ loose) bare) (hchain : a.Chain link ids) :
    Pieces a O (S ∪ {y | y ∈ ids}) loose bare := by
  have hclosed := hchain.sibling_mem
  have hnodup := h.nodup
  rw [List.append_assoc] at hnodup
  obtain ⟨-, hrest, hdisj⟩ := List.nodup_append.1 hnodup
  have hmem {y : Nat} (hy : y ∈ ids) : y ∈ ids ++ loose := List.mem_append_left _ hy
  have hinside (y : Nat) (hy : y ∈ ids) := h.inside y (List.mem_append_left _ (hmem hy))
  refine ⟨⟨?_, ?_, ?_, ?_⟩, hrest, fun y hy => ?_, ?_, h.outside_lt, fun y hy => ?_⟩
  · rintro y (hy | hy)
    · exact h.settled.lt y hy
    · exact (hinside y hy).1
  · rintro y (hy | hy) z hz
    · exact .inl (h.settled.child y hy z hz)
    · exact .inl ((h.clear y (hmem hy)).child z hz)
  · rintro y (hy | hy) z hz
    · exact .inl (h.settled.sibling y hy z hz)
    · -- the siblings of the chain are in the chain
      exact .inr (hclosed y hy z hz)
  · rintro y (hy | hy)
    · exact h.settled.passes y hy
    · exact (h.clear y (hmem hy)).passes
  · obtain ⟨hlt, hS, hO⟩ := h.inside y (by
      rw [List.append_assoc]
      exact List.mem_append_right _ hy)
    exact ⟨hlt, fun hmem' => hmem'.elim hS fun hids => hdisj y hids y hy rfl, hO⟩
  · rintro y (hy | hy)
    · exact h.apart y hy
    · exact (hinside y hy).2.2
  · exact (h.clear y (List.mem_append_right _ hy)).mono Set.subset_union_left

/-- A bare node over settled nodes is loose, if the rule for it does not stop. -/
theorem Pieces.close_clear (h : Pieces a O S loose (id :: bare)) (hclear : a.Clear S id) :
    Pieces a O S (id :: loose) bare where
  settled := h.settled
  nodup := List.perm_middle.nodup_iff.1 h.nodup
  inside y hy := h.inside y (List.perm_middle.mem_iff.2 hy)
  apart := h.apart
  outside_lt := h.outside_lt
  clear := List.forall_mem_cons.2 ⟨hclear, h.clear⟩

/-- A bare node that is put over loose nodes is loose, and they are settled. -/
theorem Pieces.close (h : Pieces a O S (ids ++ loose) (id :: bare)) (hlaid : a.Laid id ids) :
    Pieces a O (S ∪ {y | y ∈ ids}) (id :: loose) bare :=
  (h.absorb hlaid.chain).close_clear ⟨hlaid.passes, fun _ hv => .inr (hlaid.chain.mem hv)⟩

/-- Nodes become loose when their children are settled. -/
theorem Pieces.sink (h : Pieces a O S (idss.flatten ++ loose) (ids ++ bare))
    (hlaid : List.Forall₂ a.Laid ids idss) :
    Pieces a O (S ∪ {y | y ∈ idss.flatten}) (ids ++ loose) bare := by
  induction hlaid generalizing S loose with
  | nil =>
    rw [List.flatten_nil] at h ⊢
    simpa using h
  | @cons id js ids idss hlaid _ ih =>
    rw [List.flatten_cons, List.append_assoc] at h
    -- the first node, then the others
    have h₁ := h.close hlaid
    have h₂ := ih (h₁.perm List.perm_middle.symm (.refl _))
    have hS : S ∪ {y | y ∈ js} ∪ {y | y ∈ idss.flatten} =
        S ∪ {y | y ∈ (js :: idss).flatten} := by
      ext y
      simp only [Set.mem_union, Set.mem_ofPred_eq, List.flatten_cons, List.mem_append, or_assoc]
    exact hS ▸ h₂.perm List.perm_middle (.refl _)

/-- There are not more loose nodes than nodes. -/
theorem Pieces.length_le (h : Pieces a O S loose bare) : loose.length ≤ a.size :=
  length_le_size (h.nodup.sublist (List.sublist_append_left ..)) fun y hy =>
    (h.inside y (List.mem_append_left _ hy)).1

end Rpal.Arena

namespace Rpal.Reshape

open Arena

variable {a : Arena} {O S : Set Nat} {id : Nat} {ids loose bare : List Nat}

/-- A chain of loose nodes is nested, and no other nodes are changed. The induction is on the nodes
    behind the first; the first is loose until they are nested. -/
theorem nestLambdas_pieces {n : Nat} (h : Pieces a O S (id :: ids ++ loose) bare)
    (hchain : a.Chain (a.sibling id) ids) (hn : ids.length ≤ n) :
    ∃ root a' S', nestLambdas n id a = .ok root a' ∧ Pieces a' O S' (root :: loose) bare ∧
      a'.root = a.root ∧ a'.standardized = a.standardized ∧ a.size ≤ a'.size ∧
      a'.sibling root = none ∧ ∀ y < a.size, y ∉ id :: ids → a'.node y = a.node y := by
  induction ids generalizing n a S id loose bare with
  | nil =>
    refine ⟨id, a, S, ?_, h, rfl, rfl, Nat.le_refl _, hchain, fun _ _ _ => rfl⟩
    cases n with
    | zero => rfl
    | succ n => simp only [nestLambdas, bind_apply, sibling_apply, chain_nil.1 hchain, pure_apply]
  | cons j js ih =>
    obtain ⟨n, rfl⟩ : ∃ k, n = k + 1 := ⟨n - 1, by rw [List.length_cons] at hn; omega⟩
    obtain ⟨hj, hjs⟩ := hchain
    have hlt : ∀ y ∈ id :: j :: js, y < a.size := fun y hy =>
      (h.inside y (List.mem_append_left _ (List.mem_append_left _ hy))).1
    have hid := hlt id (.head _)
    -- the new lambda is bare until its body is there
    generalize ha₁ : (a.alloc ((a.label id).beside .lambda)).setChild a.size (some id) = a₁
    have hsize₁ : a₁.size = a.size + 1 := by simp [← ha₁]
    have hnode₁ (y) (hy : y < a.size) : a₁.node y = a.node y := by
      rw [← ha₁, Arena.setChild, node_modify_of_ne _ (Nat.ne_of_gt hy), node_alloc_of_lt _ hy]
    have h₁ : Pieces a₁ O S (id :: j :: js ++ loose) (a.size :: bare) := by
      refine h.kept [a.size] (by omega) (fun y hy _ _ => hnode₁ y hy) (fun y hy _ => ?_)
        (List.nodup_singleton _) (by simp [hsize₁])
      exact (node_eq_iff.1 (hnode₁ y hy)).imp_right And.left
    have hperm : (id :: j :: js ++ loose).Perm (j :: js ++ id :: loose) := List.perm_middle.symm
    have hchain₁ : a₁.Chain (a₁.sibling j) js := by
      have hsibling (y) (hy : y < a.size) := (node_eq_iff.1 (hnode₁ y hy)).2.2
      rw [hsibling j (hlt j (.tail _ (.head _)))]
      exact hjs.congr fun y hy => hsibling y (hlt y (.tail _ (.tail _ hy)))
    obtain ⟨root, a₂, S₂, hrun, h₂, hroot₂, hmark₂, hsize₂, hroot, hsame⟩ :=
      ih (h₁.perm hperm (.refl _)) hchain₁ (Nat.le_of_succ_le_succ hn)
    have hfresh : a.size ∉ j :: js := fun hmem => Nat.lt_irrefl _ (hlt _ (.tail _ hmem))
    obtain ⟨hlabel₂, hchild₂, hsibling₂⟩ := node_eq_iff.1 (hsame a.size (by omega) hfresh)
    have hne : root ≠ id ∧ id ≠ a.size := by
      have hnodup := h₂.nodup
      grind
    -- the first node is linked to the body
    generalize ha₃ : a₂.setSibling id (some root) = a₃
    have hlabel₃ (y) : a₃.label y = a₂.label y := by rw [← ha₃, label_setSibling]
    have hchild₃ (y) : a₃.child y = a₂.child y := by rw [← ha₃, child_setSibling]
    have hsibling₃ (y) : a₃.sibling y = if y = id then some root else a₂.sibling y := by
      rw [← ha₃, sibling_setSibling (by omega)]
    have h₃ : Pieces a₃ O S₂ ([id, root] ++ loose) (a.size :: bare) := by
      refine (h₂.perm (.swap ..) (.refl _)).relinked (by simp [← ha₃]) (fun y _ hy _ => ?_)
        fun y _ _ => ⟨hlabel₃ y, hchild₃ y⟩
      rw [← ha₃]
      exact node_modify_of_ne _ (Ne.symm (List.ne_of_not_mem_cons hy))
    have hlaid : a₃.Laid a.size [id, root] := by
      refine .of_lambda ?_ ⟨?_, ?_, ?_⟩
      · rw [Arena.kind, hlabel₃, hlabel₂, ← ha₁, label_setChild, label_alloc, if_pos rfl]
        rfl
      · rw [hchild₃, hchild₂, ← ha₁, child_setChild (by simp), if_pos rfl]
      · rw [hsibling₃, if_pos rfl]
      · rw [hsibling₃, if_neg hne.1, hroot]
        exact rfl
    refine ⟨a.size, a₃, _, ?_, h₃.close hlaid, ?_, ?_, ?_, ?_, fun y hy hmem => ?_⟩
    · simp only [nestLambdas, bind_apply, sibling_apply, hj, allocBeside_apply, setChild_apply, ha₁,
        hrun, setSibling_apply, pure_apply, ha₃]
    · simp [← ha₃, hroot₂, ← ha₁]
    · simp [← ha₃, hmark₂, ← ha₁]
    · simp only [← ha₃, size_setSibling]
      omega
    · rw [hsibling₃, if_neg hne.2.symm, hsibling₂, ← ha₁, sibling_setChild, sibling_alloc,
        sibling_of_le (Nat.le_refl _)]
    · obtain ⟨hyid, hmem⟩ := List.ne_and_not_mem_of_not_mem_cons hmem
      rw [← ha₃, Arena.setSibling, node_modify_of_ne _ (Ne.symm hyid), hsame y (by omega) hmem,
        hnode₁ y hy]

/-- All nodes of a chain are nested. -/
theorem curry_pieces (h : Pieces a O S (id :: ids ++ loose) bare)
    (hchain : a.Chain (a.sibling id) ids) :
    ∃ root a' S', curry id a = .ok root a' ∧ Pieces a' O S' (root :: loose) bare ∧
      a'.root = a.root ∧ a'.standardized = a.standardized ∧ a.size ≤ a'.size ∧
      a'.sibling root = none ∧ ∀ y < a.size, y ∉ id :: ids → a'.node y = a.node y := by
  have hle := h.length_le
  simp only [List.cons_append, List.length_cons, List.length_append] at hle
  simp only [curry, bind_apply, get_apply]
  exact nestLambdas_pieces h hchain (by omega)

end Rpal.Reshape
