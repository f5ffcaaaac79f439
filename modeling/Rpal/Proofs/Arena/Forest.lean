import Rpal.Proofs.Arena.Ownership
import Rpal.Proofs.Tree.Core

/-!
# Forests

A part of an arena that is taken apart and put together again: some trees, each with the place of
its root, and some bare nodes, without a node in common. Links between the roots and the links of
the bare nodes do not matter to a forest, so that it is kept while they are changed.

A forest has nothing in common with the nodes in `O`, which are those outside of it. The fixed nodes
are among them.

## Key results

- `Forest.open_root`, `Forest.close_root`: a tree is its bare root beside its subtrees
- `Forest.kept`: a forest is kept when only its bare nodes and links between its roots change
- `Forest.focus`: what is done to a part of a forest is done to the forest
-/

namespace Rpal.Arena

/-- Trees at their places and bare nodes, without a node in common and without one in `O`. -/
def Forest (a : Arena) (F O : Set Nat) (trees : List (Tree Label × Nat)) (bare : List Nat) : Prop :=
  ∃ S, a.OwnsAll F (trees.map Prod.fst) (trees.map Prod.snd) S ∧ bare.Nodup ∧
    (∀ b ∈ bare, b < a.size ∧ b ∉ S ∧ b ∉ O) ∧ (∀ y ∈ S, y ∉ O) ∧ (∀ y ∈ O, y < a.size) ∧ F ⊆ O

/-- The arena `a'` comes from `a` by changes outside of `O`. It has more fixed nodes, none of them
    in `O`. -/
structure Reworked (a a' : Arena) (F F' O : Set Nat) : Prop where
  root_eq : a'.root = a.root
  size_le : a.size ≤ a'.size
  fixed : F ⊆ F'
  fresh : ∀ y ∈ F', y ∈ O → y ∈ F
  node_eq : ∀ y ∈ O, a'.node y = a.node y

variable {a a' a'' : Arena} {F F' F'' O : Set Nat} {t : Tree Label} {ts : List (Tree Label)}
  {trees trees' : List (Tree Label × Nat)} {l : Label} {id : Nat} {ids bare : List Nat}

theorem Reworked.refl (a : Arena) (F O : Set Nat) : Reworked a a F F O :=
  ⟨rfl, Nat.le_refl _, Set.Subset.refl F, fun _ h _ => h, fun _ _ => rfl⟩

/-- Reworking twice is reworking. -/
theorem Reworked.trans (h : Reworked a a' F F' O) (h' : Reworked a' a'' F' F'' (O ∪ F')) :
    Reworked a a'' F F'' O where
  root_eq := h'.root_eq.trans h.root_eq
  size_le := Nat.le_trans h.size_le h'.size_le
  fixed := h.fixed.trans h'.fixed
  fresh y hy hO := h.fresh y (h'.fresh y hy (.inl hO)) hO
  node_eq y hO := (h'.node_eq y (.inl hO)).trans (h.node_eq y hO)

/-- Less is outside of what was reworked. -/
theorem Reworked.mono {O' : Set Nat} (h : Reworked a a' F F' O) (hO : O' ⊆ O) :
    Reworked a a' F F' O' where
  root_eq := h.root_eq
  size_le := h.size_le
  fixed := h.fixed
  fresh y hy hy' := h.fresh y hy (hO hy')
  node_eq y hy := h.node_eq y (hO hy)

/-! ### Order and selection -/

/-- The order of owned trees does not matter. -/
theorem OwnsAll.perm {S : Set Nat} (h : trees.Perm trees') :
    a.OwnsAll F (trees.map Prod.fst) (trees.map Prod.snd) S →
      a.OwnsAll F (trees'.map Prod.fst) (trees'.map Prod.snd) S := by
  induction h generalizing S with
  | nil => exact id
  | cons p _ ih =>
    rintro ⟨S₁, S₂, h, hall, hdisj, heq⟩
    exact ⟨S₁, S₂, h, ih hall, hdisj, heq⟩
  | swap p q l =>
    rintro ⟨S₁, _, h₁, ⟨S₂, S₃, h₂, hall, hdisj, rfl⟩, hdisj', rfl⟩
    refine ⟨S₂, S₁ ∪ S₃, h₂, ⟨S₁, S₃, h₁, hall, fun y hy h => hdisj' y hy (.inr h), rfl⟩, ?_,
      Set.union_left_comm ..⟩
    rintro y hy (h | h)
    · exact hdisj' y h (.inl hy)
    · exact hdisj y hy h
  | trans _ _ ih₁ ih₂ => exact fun h => ih₂ (ih₁ h)

/-- The order of the trees does not matter. -/
theorem Forest.perm (h : Forest a F O trees bare) (hp : trees.Perm trees') :
    Forest a F O trees' bare := by
  obtain ⟨S, hall, h⟩ := h
  exact ⟨S, hall.perm hp, h⟩

/-- Bare nodes can be left out. -/
theorem Forest.discard (h : Forest a F O trees bare) (bare' : List Nat) (hs : bare'.Sublist bare) :
    Forest a F O trees bare' := by
  obtain ⟨S, hall, hnodup, hbare, h⟩ := h
  exact ⟨S, hall, hnodup.sublist hs, fun b hb => hbare b (hs.subset hb), h⟩

/-- The roots and the bare nodes are distinct. -/
theorem Forest.nodup (h : Forest a F O trees bare) : (trees.map Prod.snd ++ bare).Nodup := by
  obtain ⟨S, hall, hnodup, hbare, -⟩ := h
  refine List.nodup_append.2 ⟨hall.nodup, hnodup, fun y hy b hb heq => ?_⟩
  exact (hbare b hb).2.1 (heq ▸ hall.subset y hy)

/-- The roots and the bare nodes are nodes of the arena and not outside of the forest. -/
theorem Forest.inside (h : Forest a F O trees bare) :
    ∀ y ∈ trees.map Prod.snd ++ bare, y < a.size ∧ y ∉ O := by
  obtain ⟨S, hall, -, hbare, hO, -⟩ := h
  intro y hy
  rcases List.mem_append.1 hy with hy | hy
  · exact ⟨hall.lt y (hall.subset y hy), hO y (hall.subset y hy)⟩
  · exact ⟨(hbare y hy).1, (hbare y hy).2.2⟩

/-- What is outside of a forest are nodes of the arena. -/
theorem Forest.outside_lt (h : Forest a F O trees bare) : ∀ y ∈ O, y < a.size := by
  obtain ⟨-, -, -, -, -, hlt, -⟩ := h
  exact hlt

/-- The fixed places are outside of the forest. -/
theorem Forest.fixed_subset (h : Forest a F O trees bare) : F ⊆ O := by
  obtain ⟨-, -, -, -, -, -, hF⟩ := h
  exact hF

/-- There are not more trees than nodes. -/
theorem Forest.length_le (h : Forest a F O trees bare) : trees.length ≤ a.size := by
  obtain ⟨S, hall, -⟩ := h
  have hle := hall.length_le
  rwa [List.length_map] at hle

/-- A tree has the label of its root. -/
theorem Forest.label_eq (h : Forest a F O ((t, id) :: trees) bare) : a.label id = t.label := by
  obtain ⟨S, ⟨S₁, S₂, h, -⟩, -⟩ := h
  exact h.label_eq

/-- What is below a list of names is fixed. -/
theorem Forest.unfolds_names (h : Forest a F O ((.node l ts, id) :: trees) bare)
    (hl : l.kind = .names) : a.UnfoldsAll F ts (a.child id) := by
  obtain ⟨S, ⟨S₁, S₂, h, -⟩, -⟩ := h
  exact ((owns_names hl).1 h).2.2.2

/-! ### Taking trees apart and putting them together -/

/-- A tree is taken apart into its root and its subtrees. -/
theorem Forest.open_root (h : Forest a F O ((.node l ts, id) :: trees) bare)
    (hl : l.kind ≠ .names) : ∃ ids, ids.length = ts.length ∧ a.Chain (a.child id) ids ∧
      Forest a F O (ts.zip ids ++ trees) (id :: bare) := by
  obtain ⟨_, ⟨_, S₂, h, hall, hdisj, rfl⟩, hnodup, hbare, hO, h'⟩ := h
  obtain ⟨hid, -, ids, S', hchain, hsub, hfresh, rfl⟩ := (owns_node hl).1 h
  have hlen := hsub.length_eq
  refine ⟨ids, hlen, hchain, S' ∪ S₂, ?_, ?_, ?_, ?_, h'⟩
  · have hlen' : ids.length ≤ ts.length := Nat.le_of_eq hlen
    rw [List.map_append, List.map_append, List.map_fst_zip (Nat.le_of_eq hlen.symm),
      List.map_snd_zip hlen', ownsAll_append hlen]
    exact ⟨S', S₂, hsub, hall, fun y hy => hdisj y (.inr hy), rfl⟩
  · exact List.nodup_cons.2 ⟨fun hmem => (hbare id hmem).2.1 (.inl (.inl rfl)), hnodup⟩
  · refine List.forall_mem_cons.2 ⟨⟨hid, ?_, hO id (.inl (.inl rfl))⟩, fun b hb => ?_⟩
    · rintro (h | h)
      · exact hfresh h
      · exact hdisj id (.inl rfl) h
    · obtain ⟨hlt, hS, hO⟩ := hbare b hb
      exact ⟨hlt, fun hmem => hS (hmem.imp_left .inr), hO⟩
  · exact fun y hy => hO y (hy.imp_left .inr)

/-- A bare node that is linked to trees is put together with them. -/
theorem Forest.close_root (h : Forest a F O (ts.zip ids ++ trees) (id :: bare))
    (hlen : ids.length = ts.length) (hl : l.kind ≠ .names) (hlabel : a.label id = l)
    (hchain : a.Chain (a.child id) ids) : Forest a F O ((.node l ts, id) :: trees) bare := by
  obtain ⟨_, hall, hnodup, hbare, hO, h'⟩ := h
  rw [List.map_append, List.map_append, List.map_fst_zip (Nat.le_of_eq hlen.symm),
    List.map_snd_zip (Nat.le_of_eq hlen), ownsAll_append hlen] at hall
  obtain ⟨S', S₂, hsub, hall, hdisj, rfl⟩ := hall
  obtain ⟨⟨hid, hS, hidO⟩, hbare⟩ := List.forall_mem_cons.1 hbare
  obtain ⟨hfresh, hnodup⟩ := List.nodup_cons.1 hnodup
  -- the subtrees and the bare root have nothing in common, and neither does anything else
  have howns : a.Owns F (.node l ts) id (insert id S') :=
    (owns_node hl).2 ⟨hid, hlabel, ids, S', hchain, hsub, fun h => hS (.inl h), rfl⟩
  refine ⟨_, ⟨insert id S', S₂, howns, hall, ?_, rfl⟩, hnodup, fun b hb => ?_, ?_, h'⟩
  · rintro y (rfl | hy)
    · exact fun h => hS (.inr h)
    · exact hdisj y hy
  · obtain ⟨hlt, hbS, hbO⟩ := hbare b hb
    refine ⟨hlt, ?_, hbO⟩
    rintro ((rfl | h) | h)
    · exact hfresh hb
    · exact hbS (.inl h)
    · exact hbS (.inr h)
  · rintro y ((rfl | h) | h)
    · exact hidO
    · exact hO y (.inl h)
    · exact hO y (.inr h)

/-- A tree with one subtree is taken apart. -/
theorem Forest.open_single (h : Forest a F O ((.node l [t], id) :: trees) bare)
    (hl : l.kind ≠ .names) : ∃ i, a.child id = some i ∧ a.sibling i = none ∧
      Forest a F O ((t, i) :: trees) (id :: bare) := by
  obtain ⟨ids, hlen, hchain, h⟩ := h.open_root hl
  match ids, hlen with
  | [i], _ => exact ⟨i, hchain.1, hchain.2, h⟩

/-- A tree with two subtrees is taken apart. -/
theorem Forest.open_pair {t₁ t₂ : Tree Label}
    (h : Forest a F O ((.node l [t₁, t₂], id) :: trees) bare) (hl : l.kind ≠ .names) :
    ∃ i₁ i₂, a.child id = some i₁ ∧ a.sibling i₁ = some i₂ ∧ a.sibling i₂ = none ∧
      Forest a F O ((t₁, i₁) :: (t₂, i₂) :: trees) (id :: bare) := by
  obtain ⟨ids, hlen, hchain, h⟩ := h.open_root hl
  match ids, hlen with
  | [i₁, i₂], _ =>
    obtain ⟨h₁, h₂, h₃⟩ := hchain
    exact ⟨i₁, i₂, h₁, h₂, h₃, h⟩

/-- A tree with three subtrees is taken apart. -/
theorem Forest.open_triple {t₁ t₂ t₃ : Tree Label}
    (h : Forest a F O ((.node l [t₁, t₂, t₃], id) :: trees) bare) (hl : l.kind ≠ .names) :
    ∃ i₁ i₂ i₃, a.child id = some i₁ ∧ a.sibling i₁ = some i₂ ∧ a.sibling i₂ = some i₃ ∧
      a.sibling i₃ = none ∧
      Forest a F O ((t₁, i₁) :: (t₂, i₂) :: (t₃, i₃) :: trees) (id :: bare) := by
  obtain ⟨ids, hlen, hchain, h⟩ := h.open_root hl
  match ids, hlen with
  | [i₁, i₂, i₃], _ =>
    obtain ⟨h₁, h₂, h₃, h₄⟩ := hchain
    exact ⟨i₁, i₂, i₃, h₁, h₂, h₃, h₄, h⟩

/-- A bare node that is linked to two trees is put together with them. -/
theorem Forest.close_pair {t₁ t₂ : Tree Label} {i₁ i₂ : Nat}
    (h : Forest a F O ((t₁, i₁) :: (t₂, i₂) :: trees) (id :: bare)) (hl : l.kind ≠ .names)
    (hlabel : a.label id = l) (hc : a.child id = some i₁) (hs : a.sibling i₁ = some i₂)
    (hn : a.sibling i₂ = none) : Forest a F O ((.node l [t₁, t₂], id) :: trees) bare := by
  have h : Forest a F O ([t₁, t₂].zip [i₁, i₂] ++ trees) (id :: bare) := h
  exact h.close_root rfl hl hlabel ⟨hc, hs, hn⟩

/-- A bare node without children is a tree. -/
theorem Forest.close_leaf (h : Forest a F O trees (id :: bare)) (hl : l.kind ≠ .names)
    (hlabel : a.label id = l) (hc : a.child id = none) :
    Forest a F O ((.leaf l, id) :: trees) bare := by
  have h : Forest a F O ([].zip [] ++ trees) (id :: bare) := h
  exact h.close_root rfl hl hlabel hc

/-! ### Changes -/

/-- A forest is kept when only its bare nodes and the siblings of its roots change. New nodes are
    bare. -/
theorem Forest.kept (h : Forest a F O trees bare) (news : List Nat) (hsize : a.size ≤ a'.size)
    (hnode : ∀ y < a.size, y ∉ trees.map Prod.snd → y ∉ bare → a'.node y = a.node y)
    (hroots : ∀ y < a.size, y ∉ bare → a'.label y = a.label y ∧ a'.child y = a.child y)
    (hnodup : news.Nodup) (hnews : ∀ y ∈ news, a.size ≤ y ∧ y < a'.size) :
    Forest a' F O trees (news ++ bare) := by
  have hinside := h.inside
  obtain ⟨S, hall, hbare_nodup, hbare, hO, hlt, hF⟩ := h
  have hroots : ∀ y ∈ trees.map Prod.snd, a'.label y = a.label y ∧ a'.child y = a.child y :=
    fun y hy => hroots y (hall.lt y (hall.subset y hy)) fun h => (hbare y h).2.1 (hall.subset y hy)
  -- fixed nodes are outside of the forest, where nothing changes
  have hfixed : ∀ y ∈ F, a'.node y = a.node y := fun y hy =>
    hnode y (hlt y (hF hy)) (fun hmem => (hinside y (List.mem_append_left _ hmem)).2 (hF hy))
      fun hmem => (hinside y (List.mem_append_right _ hmem)).2 (hF hy)
  have hall' := hall.kept hsize hfixed
    (fun y hy hroot => hnode y (hall.lt y hy) hroot fun hmem => (hbare y hmem).2.1 hy)
    (fun y hy => (hroots y hy).1) (fun y hy => (hroots y hy).2)
  refine ⟨S, hall', ?_, fun b hb => ?_, hO, fun y hy => Nat.lt_of_lt_of_le (hlt y hy) hsize, hF⟩
  · refine List.nodup_append.2 ⟨hnodup, hbare_nodup, fun y hy b hb heq => ?_⟩
    exact Nat.not_lt.2 (hnews y hy).1 (heq ▸ (hbare b hb).1)
  · rcases List.mem_append.1 hb with hb | hb
    · obtain ⟨hle, hlt'⟩ := hnews b hb
      exact ⟨hlt', fun h => Nat.not_lt.2 hle (hall.lt b h), fun h => Nat.not_lt.2 hle (hlt b h)⟩
    · obtain ⟨hblt, h⟩ := hbare b hb
      exact ⟨Nat.lt_of_lt_of_le hblt hsize, h⟩

/-- A new node is bare. -/
theorem Forest.alloc (h : Forest a F O trees bare) (l : Label) :
    Forest (a.alloc l) F O trees (a.size :: bare) := by
  refine h.kept [a.size] (by simp) (fun y hy _ _ => node_alloc_of_lt l hy) (fun y hy _ => ?_)
    (by simp) (by simp)
  rw [label_alloc, if_neg (Nat.ne_of_lt hy), child_alloc]
  exact ⟨rfl, rfl⟩

/-- A link from a bare node to its children is set. -/
theorem Forest.setChild (h : Forest a F O trees (id :: bare)) (target : Option Nat) :
    Forest (a.setChild id target) F O trees (id :: bare) := by
  refine h.kept [] (by simp) (fun y _ _ hy => ?_) (fun y _ hy => ?_) .nil nofun
  · exact node_modify_of_ne _ (Ne.symm (List.ne_of_not_mem_cons hy))
  · have hid := h.inside id (List.mem_append_right _ List.mem_cons_self)
    rw [label_setChild, child_setChild hid.1, if_neg (List.ne_of_not_mem_cons hy)]
    exact ⟨rfl, rfl⟩

/-- The siblings of a root are set. -/
theorem Forest.setSibling (h : Forest a F O ((t, id) :: trees) bare) (target : Option Nat) :
    Forest (a.setSibling id target) F O ((t, id) :: trees) bare := by
  refine h.kept [] (by simp) (fun y _ hy _ => ?_) (fun y _ _ => ?_) .nil nofun
  · exact node_modify_of_ne _ (Ne.symm (List.ne_of_not_mem_cons hy))
  · rw [label_setSibling, child_setSibling]
    exact ⟨rfl, rfl⟩

/-- Roots are linked below a bare node. -/
theorem Forest.link (h : Forest a F O (ts.zip ids ++ trees) (id :: bare))
    (hlen : ids.length = ts.length) :
    Forest (a.setChildren id ids) F O (ts.zip ids ++ trees) (id :: bare) ∧
      (a.setChildren id ids).Chain ((a.setChildren id ids).child id) ids := by
  have hinside := h.inside
  have hnodup := h.nodup
  rw [List.map_append, List.map_snd_zip (Nat.le_of_eq hlen)] at hinside hnodup
  have hid : id < a.size := (hinside id (by simp)).1
  have hlt : ∀ i ∈ ids, i < a.size := fun i hi => (hinside i (by simp [hi])).1
  have hids : ids.Nodup := (List.nodup_append.1 (List.nodup_append.1 hnodup).1).1
  refine ⟨?_, chain_setChildren hid hlt hids⟩
  refine h.kept [] (by simp) (fun y _ hroot hy => ?_) (fun y _ hy => ?_) .nil nofun
  · rw [List.map_append, List.map_snd_zip (Nat.le_of_eq hlen)] at hroot
    refine node_setChildren_of_not_mem hid hlt ?_
    exact List.not_mem_cons_of_ne_of_not_mem (List.ne_of_not_mem_cons hy)
      fun hmem => hroot (List.mem_append_left _ hmem)
  · rw [label_setChildren, child_setChildren hid, if_neg (List.ne_of_not_mem_cons hy)]
    exact ⟨rfl, rfl⟩

/-- The roots of trees become the children of a bare node. -/
theorem Forest.setChildren (h : Forest a F O (ts.zip ids ++ trees) (id :: bare))
    (hlen : ids.length = ts.length) (hl : l.kind ≠ .names) (hlabel : a.label id = l) :
    Forest (a.setChildren id ids) F O ((.node l ts, id) :: trees) bare := by
  obtain ⟨hlink, hchain⟩ := h.link hlen
  exact hlink.close_root hlen hl ((label_setChildren ..).trans hlabel) hchain

/-- The roots of two trees become the children of a bare node. -/
theorem Forest.setChildren_pair {t₁ t₂ : Tree Label} {i₁ i₂ : Nat}
    (h : Forest a F O ((t₁, i₁) :: (t₂, i₂) :: trees) (id :: bare)) (hl : l.kind ≠ .names)
    (hlabel : a.label id = l) :
    Forest (a.setChildren id [i₁, i₂]) F O ((.node l [t₁, t₂], id) :: trees) bare := by
  have h : Forest a F O ([t₁, t₂].zip [i₁, i₂] ++ trees) (id :: bare) := h
  exact h.setChildren rfl hl hlabel

/-- The construct of a root is set. -/
theorem Forest.setKind (h : Forest a F O ((.node l ts, id) :: trees) bare) (hl : l.kind ≠ .names)
    (kind : Kind) (hkind : kind ≠ .names) :
    Forest (a.setKind id kind) F O ((.node (l.turned kind) ts, id) :: trees) bare := by
  have hid : id < a.size := (h.inside id (by simp)).1
  have hlabel : a.label id = l := h.label_eq
  obtain ⟨ids, hlen, hchain, h⟩ := h.open_root hl
  have hkept : Forest (a.setKind id kind) F O (ts.zip ids ++ trees) (id :: bare) := by
    refine h.kept [] (by simp) (fun y _ _ hy => ?_) (fun y _ hy => ?_) .nil nofun
    · exact node_modify_of_ne _ (Ne.symm (List.ne_of_not_mem_cons hy))
    · rw [label_setKind hid, if_neg (List.ne_of_not_mem_cons hy), child_setKind]
      exact ⟨rfl, rfl⟩
  refine hkept.close_root hlen hkind ?_ ?_
  · rw [label_setKind hid, if_pos rfl, hlabel]
    rfl
  · rw [child_setKind]
    exact hchain.congr fun y _ => sibling_setKind ..

/-- A forest depends on the nodes of the arena only. -/
theorem Forest.congr (h : Forest a F O trees bare) (hsize : a'.size = a.size)
    (hnode : ∀ y, a'.node y = a.node y) : Forest a' F O trees bare := by
  refine h.kept [] (Nat.le_of_eq hsize.symm) (fun y _ _ _ => hnode y) (fun y _ _ => ?_) .nil nofun
  exact (node_eq_iff.1 (hnode y)).imp_right And.left

/-- A bare node with the label and the children of a tree of names is another tree for it. -/
theorem Forest.copy {i j : Nat} (h : Forest a F O ((t, i) :: trees) (j :: bare))
    (ht : Tree.IsNaming t) (hlabel : a.label j = a.label i) (hchild : a.child j = a.child i) :
    Forest a F O ((t, j) :: (t, i) :: trees) bare := by
  cases ht with
  | name hname =>
    obtain ⟨l, hl, rfl⟩ := hname
    have hl' : l.kind ≠ .names := by rw [hl]; decide
    have hnone : a.child i = none := by
      obtain ⟨ids, hlen, hchain, -⟩ := h.open_root hl'
      rw [List.eq_nil_of_length_eq_zero hlen] at hchain
      exact hchain
    exact h.close_leaf hl' (hlabel.trans h.label_eq) (hchild.trans hnone)
  | @names l ts hl _ =>
    -- a list owns its own place only, so that two lists can share the fixed names
    obtain ⟨S, hall, hnodup, hbare, h'⟩ := h
    have ⟨S₁, S₂, hi, _⟩ := hall
    obtain ⟨⟨hj, hjS, hjO⟩, hbare⟩ := List.forall_mem_cons.1 hbare
    obtain ⟨hfresh, hnodup⟩ := List.nodup_cons.1 hnodup
    obtain ⟨-, hil, -, hunfolds⟩ := (owns_names hl).1 hi
    have hcopy : a.Owns F (.node l ts) j {j} :=
      (owns_names hl).2 ⟨hj, hlabel.trans hil, rfl, hchild ▸ hunfolds⟩
    refine ⟨_, ⟨{j}, S, hcopy, hall, ?_, rfl⟩, hnodup, fun b hb => ?_, ?_, h'.2⟩
    · rintro y rfl
      exact hjS
    · obtain ⟨hlt, hbS, hbO⟩ := hbare b hb
      refine ⟨hlt, ?_, hbO⟩
      rintro (rfl | h)
      · exact hfresh hb
      · exact hbS h
    · rintro y (rfl | h)
      · exact hjO
      · exact h'.1 y h

/-- Trees that will not be changed any more are made fixed. -/
theorem Forest.freeze {link : Option Nat} (h : Forest a F O (ts.zip ids ++ trees) bare)
    (hlen : ids.length = ts.length) (hchain : a.Chain link ids) :
    ∃ F', F ⊆ F' ∧ (∀ y ∈ F', y ∈ O → y ∈ F) ∧ a.UnfoldsAll F' ts link ∧
      Forest a F' (O ∪ F') trees bare := by
  obtain ⟨_, hall, hnodup, hbare, hO, hlt, hF⟩ := h
  rw [List.map_append, List.map_append, List.map_fst_zip (Nat.le_of_eq hlen.symm),
    List.map_snd_zip (Nat.le_of_eq hlen), ownsAll_append hlen] at hall
  obtain ⟨S₁, S₂, h₁, h₂, hdisj, rfl⟩ := hall
  -- the nodes that the trees own become fixed, and are outside from now on
  refine ⟨F ∪ S₁, Set.subset_union_left, ?_, ?_, S₂, ?_, hnodup, fun b hb => ?_, ?_, ?_, ?_⟩
  · rintro y (h | h) hyO
    · exact h
    · exact (hO y (.inl h) hyO).elim
  · exact h₁.unfolds Set.subset_union_right Set.subset_union_left hchain (Set.Subset.refl S₁)
  · exact h₂.congr (Nat.le_refl _) Set.subset_union_left (fun _ _ => rfl) fun _ _ => rfl
  · obtain ⟨hblt, hbS, hbO⟩ := hbare b hb
    refine ⟨hblt, fun h => hbS (.inr h), ?_⟩
    rintro (h | h | h)
    · exact hbO h
    · exact hbO (hF h)
    · exact hbS (.inl h)
  · rintro y hy (h | h | h)
    · exact hO y (.inr hy) h
    · exact hO y (.inr hy) (hF h)
    · exact hdisj y h hy
  · rintro y (h | h | h)
    · exact hlt y h
    · exact hlt y (hF h)
    · exact h₁.lt y h
  · exact Set.subset_union_right

/-- The roots of trees become the children of a bare list of names, and are fixed from now on. -/
theorem Forest.setNames (h : Forest a F O (ts.zip ids ++ trees) (id :: bare))
    (hlen : ids.length = ts.length) (hl : l.kind = .names) (hlabel : a.label id = l) :
    ∃ F', F ⊆ F' ∧ (∀ y ∈ F', y ∈ O → y ∈ F) ∧
      Forest (a.setChildren id ids) F' (O ∪ F') ((.node l ts, id) :: trees) bare := by
  obtain ⟨hlink, hchain⟩ := h.link hlen
  -- the roots are chained below the list, and what they own is out of reach for later writes
  obtain ⟨F', hF, hfresh, hunfolds, S, hall, hnodup, hbare, hO, h⟩ := hlink.freeze hlen hchain
  obtain ⟨⟨hid, hidS, hidO⟩, hbare⟩ := List.forall_mem_cons.1 hbare
  obtain ⟨hidbare, hnodup⟩ := List.nodup_cons.1 hnodup
  -- the list itself owns its own place only
  have howns : (a.setChildren id ids).Owns F' (.node l ts) id {id} :=
    (owns_names hl).2 ⟨hid, (label_setChildren ..).trans hlabel, rfl, hunfolds⟩
  refine ⟨F', hF, hfresh, _, ⟨{id}, S, howns, hall, ?_, rfl⟩, hnodup, fun b hb => ?_, ?_, h⟩
  · rintro y rfl
    exact hidS
  · obtain ⟨hlt, hbS, hbO⟩ := hbare b hb
    refine ⟨hlt, ?_, hbO⟩
    rintro (rfl | h)
    · exact hidbare hb
    · exact hbS h
  · rintro y (rfl | hy)
    · exact hidO
    · exact hO y hy

/-- A part of a forest is a forest, for which everything else is outside. What is done to the part
    is done to the whole forest. -/
theorem Forest.focus {others : List (Tree Label × Nat)} (h : Forest a F O (trees ++ others) bare) :
    ∃ O₁, O ⊆ O₁ ∧ (∀ y ∈ others.map Prod.snd ++ bare, y ∈ O₁) ∧ Forest a F O₁ trees [] ∧
      ∀ {a' F' trees'}, Forest a' F' (O₁ ∪ F') trees' [] → Reworked a a' F F' O₁ →
        Forest a' F' (O ∪ F') (trees' ++ others) bare := by
  obtain ⟨_, hall, hnodup, hbare, hO, hlt, hF⟩ := h
  rw [List.map_append, List.map_append, ownsAll_append (by simp)] at hall
  obtain ⟨S₁, S₂, h₁, h₂, hdisj, rfl⟩ := hall
  refine ⟨O ∪ (S₂ ∪ {b | b ∈ bare}), Set.subset_union_left, ?_, ?_, ?_⟩
  · intro y hy
    rcases List.mem_append.1 hy with hy | hy
    · exact .inr (.inl (h₂.subset y hy))
    · exact .inr (.inr hy)
  -- the part itself owns nothing of what is outside now
  · refine ⟨S₁, h₁, .nil, nofun, ?_, ?_, hF.trans Set.subset_union_left⟩
    · rintro y hy (h | h | h)
      · exact hO y (.inl hy) h
      · exact hdisj y hy h
      · exact (hbare y h).2.1 (.inl hy)
    · rintro y (h | h | h)
      · exact hlt y h
      · exact h₂.lt y h
      · exact (hbare y h).1
  · rintro a' F' trees' ⟨S', hall', -, -, hO', hlt', hF'⟩ hre
    -- what is new among the fixed nodes comes from the part
    have hfresh : ∀ y, y ∈ S₂ ∨ y ∈ bare → y ∉ O ∪ F' := by
      intro y hy
      have hyO : y ∉ O := by
        rcases hy with hy | hy
        · exact hO y (.inr hy)
        · exact (hbare y hy).2.2
      rintro (h | h)
      · exact hyO h
      · exact hyO (hF (hre.fresh y h (.inr hy)))
    refine ⟨S' ∪ S₂, ?_, hnodup, fun b hb => ⟨?_, ?_, hfresh b (.inr hb)⟩, ?_, ?_, ?_⟩
    · rw [List.map_append, List.map_append, ownsAll_append (by simp)]
      refine ⟨S', S₂, hall', ?_, fun y hy h => hO' y hy (.inl (.inr (.inl h))), rfl⟩
      exact h₂.congr hre.size_le hre.fixed (fun y hy => hre.node_eq y (.inl (hF hy)))
        fun y hy => hre.node_eq y (.inr (.inl hy))
    · exact Nat.lt_of_lt_of_le (hbare b hb).1 hre.size_le
    · rintro (h | h)
      · exact hO' b h (.inl (.inr (.inr hb)))
      · exact (hbare b hb).2.1 (.inr h)
    · rintro y (h | h)
      · exact fun hmem => hO' y h (hmem.imp_left .inl)
      · exact hfresh y (.inl h)
    · rintro y (h | h)
      · exact Nat.lt_of_lt_of_le (hlt y h) hre.size_le
      · exact hlt' y (.inr h)
    · exact Set.subset_union_right

end Rpal.Arena
