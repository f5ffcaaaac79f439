import Rpal.Proofs.Arena.Links

/-!
# Ownership of nodes

While an arena is changed in place, the nodes of every subtree are its own: `Owns` says that the
node at a place unfolds to a tree, and collects the nodes that this takes. The subtrees of a node
own different nodes, so that a change within one of them is not seen by the others.

The nodes below a list of names are the exception. They are never changed again, and two lists can
share them. They are in a fixed region `F`, and no subtree owns them.

## Key results

- `Owns.congr`: a tree depends on the nodes that it owns and on the fixed nodes only
- `OwnsAll.kept`: trees are kept by a change that only sets the siblings of their roots
- `Owns.unfolds`: what is owned unfolds to its tree
-/

namespace Rpal.Arena

mutual

/-- The node at place `id` unfolds to the tree, and `S` are the nodes that this takes, apart from
    the nodes of lists of names, which are in `F`. -/
def Owns (a : Arena) (F : Set Nat) : Tree Label → Nat → Set Nat → Prop
  | .node l ts, id, S => id < a.size ∧ a.label id = l ∧
    if l.kind = .names then S = {id} ∧ a.UnfoldsAll F ts (a.child id)
    else ∃ ids S', a.Chain (a.child id) ids ∧ a.OwnsAll F ts ids S' ∧ id ∉ S' ∧ S = insert id S'

/-- The nodes at the places `ids` unfold to the trees, and `S` are the nodes that this takes, no
    node for two of them. -/
def OwnsAll (a : Arena) (F : Set Nat) : List (Tree Label) → List Nat → Set Nat → Prop
  | [], [], S => S = ∅
  | t :: ts, id :: ids, S => ∃ S₁ S₂, a.Owns F t id S₁ ∧ a.OwnsAll F ts ids S₂ ∧
    (∀ y ∈ S₁, y ∉ S₂) ∧ S = S₁ ∪ S₂
  | _, _, _ => False

end

variable {a a' : Arena} {F F' S S' T R : Set Nat} {t : Tree Label} {ts : List (Tree Label)}
  {id : Nat} {ids : List Nat}

/-! ### Owned nodes -/

/-- A node other than a list of names owns itself and what its children own. -/
theorem owns_node {l : Label} (hl : l.kind ≠ .names) :
    a.Owns F (.node l ts) id S ↔ id < a.size ∧ a.label id = l ∧
      ∃ ids S', a.Chain (a.child id) ids ∧ a.OwnsAll F ts ids S' ∧ id ∉ S' ∧ S = insert id S' := by
  rw [Owns, if_neg hl]

/-- A list of names owns itself only. -/
theorem owns_names {l : Label} (hl : l.kind = .names) :
    a.Owns F (.node l ts) id S ↔ id < a.size ∧ a.label id = l ∧ S = {id} ∧
      a.UnfoldsAll F ts (a.child id) := by
  rw [Owns, if_pos hl]

/-- A tree owns its root. -/
theorem Owns.mem (h : a.Owns F t id S) : id ∈ S := by
  cases t with
  | node l ts =>
    obtain ⟨-, -, h⟩ := h
    split at h
    · rw [h.1]
      exact rfl
    · obtain ⟨_, S', -, -, -, rfl⟩ := h
      exact Set.mem_insert id S'

/-- A tree has the label of its root. -/
theorem Owns.label_eq (h : a.Owns F t id S) : a.label id = t.label := by
  cases t with
  | node l ts => exact h.2.1

mutual

/-- Owned nodes are nodes of the arena. -/
theorem Owns.lt : ∀ {t : Tree Label} {id : Nat} {S : Set Nat}, a.Owns F t id S →
    ∀ y ∈ S, y < a.size
  | .node l ts, id, S, ⟨hid, _, h⟩ => by
    split at h
    · rw [h.1]
      rintro y rfl
      exact hid
    · obtain ⟨_, S', -, hall, -, rfl⟩ := h
      exact Set.forall_mem_insert.2 ⟨hid, hall.lt⟩

/-- What a list of trees owns are nodes of the arena. -/
theorem OwnsAll.lt : ∀ {ts : List (Tree Label)} {ids : List Nat} {S : Set Nat},
    a.OwnsAll F ts ids S → ∀ y ∈ S, y < a.size
  | [], [], _, h => h ▸ nofun
  | t :: ts, id :: ids, S, ⟨S₁, S₂, h, hall, _, hS⟩ => by
    subst hS
    rintro y (hy | hy)
    · exact h.lt y hy
    · exact hall.lt y hy

end

/-- The roots are owned. -/
theorem OwnsAll.subset (h : a.OwnsAll F ts ids S) : ∀ y ∈ ids, y ∈ S := by
  induction ts generalizing ids S with
  | nil =>
    cases ids with
    | nil => nofun
    | cons => exact h.elim
  | cons t ts ih =>
    cases ids with
    | nil => exact h.elim
    | cons id ids =>
      obtain ⟨S₁, S₂, h, hall, -, rfl⟩ := h
      exact List.forall_mem_cons.2 ⟨.inl h.mem, fun y hy => .inr (ih hall y hy)⟩

/-- The roots are distinct. -/
theorem OwnsAll.nodup (h : a.OwnsAll F ts ids S) : ids.Nodup := by
  induction ts generalizing ids S with
  | nil =>
    cases ids with
    | nil => exact .nil
    | cons => exact h.elim
  | cons t ts ih =>
    cases ids with
    | nil => exact h.elim
    | cons id ids =>
      obtain ⟨S₁, S₂, h, hall, hdisj, rfl⟩ := h
      exact List.nodup_cons.2 ⟨fun hid => hdisj id h.mem (hall.subset id hid), ih hall⟩

/-- Every tree has a root. -/
theorem OwnsAll.length_eq (h : a.OwnsAll F ts ids S) : ids.length = ts.length := by
  induction ts generalizing ids S with
  | nil =>
    cases ids with
    | nil => rfl
    | cons => exact h.elim
  | cons t ts ih =>
    cases ids with
    | nil => exact h.elim
    | cons id ids =>
      obtain ⟨S₁, S₂, -, hall, -, -⟩ := h
      rw [List.length_cons, List.length_cons, ih hall]

/-- There are not more trees than nodes. -/
theorem OwnsAll.length_le (h : a.OwnsAll F ts ids S) : ts.length ≤ a.size := by
  have hsub : ids ⊆ List.range a.size := fun y hy => List.mem_range.2 (h.lt y (h.subset y hy))
  have hle := (h.nodup.subperm hsub).length_le
  rwa [List.length_range, h.length_eq] at hle

/-- Two lists of trees without a common node. -/
theorem ownsAll_append {ts' : List (Tree Label)} {ids' : List Nat} (hlen : ids.length = ts.length) :
    a.OwnsAll F (ts ++ ts') (ids ++ ids') S ↔ ∃ S₁ S₂, a.OwnsAll F ts ids S₁ ∧
      a.OwnsAll F ts' ids' S₂ ∧ (∀ y ∈ S₁, y ∉ S₂) ∧ S = S₁ ∪ S₂ := by
  -- both directions regroup the nodes: those of the first tree go with the rest of the first list
  induction ts generalizing ids S with
  | nil =>
    obtain rfl := List.eq_nil_of_length_eq_zero hlen
    constructor
    · exact fun h => ⟨∅, S, rfl, h, nofun, (Set.empty_union S).symm⟩
    · rintro ⟨S₁, S₂, rfl, h, -, rfl⟩
      rwa [Set.empty_union]
  | cons t ts ih =>
    obtain ⟨id, ids, rfl⟩ := List.exists_cons_of_length_eq_add_one hlen
    rw [List.length_cons, List.length_cons, Nat.add_right_cancel_iff] at hlen
    constructor
    · rintro ⟨S₁, S', h, hall, hdisj, rfl⟩
      obtain ⟨S₂, S₃, h₂, h₃, hdisj', rfl⟩ := (ih hlen).1 hall
      refine ⟨S₁ ∪ S₂, S₃, ⟨S₁, S₂, h, h₂, fun y hy h => hdisj y hy (.inl h), rfl⟩, h₃, ?_,
        (Set.union_assoc ..).symm⟩
      rintro y (hy | hy)
      · exact fun h => hdisj y hy (.inr h)
      · exact hdisj' y hy
    · rintro ⟨_, S₃, ⟨S₁, S₂, h, h₂, hdisj, rfl⟩, h₃, hdisj', rfl⟩
      refine ⟨S₁, S₂ ∪ S₃, h, (ih hlen).2 ⟨S₂, S₃, h₂, h₃, fun y hy => hdisj' y (.inr hy), rfl⟩, ?_,
        Set.union_assoc ..⟩
      rintro y hy (h | h)
      · exact hdisj y hy h
      · exact hdisj' y (.inl hy) h

/-! ### What a tree depends on -/

mutual

/-- A tree unfolds as before if the fixed nodes stay as they are. -/
theorem Unfolds.congr (hsize : a.size ≤ a'.size) (hFF : F ⊆ F')
    (hF : ∀ y ∈ F, a'.node y = a.node y) :
    ∀ {t : Tree Label} {id : Nat}, a.Unfolds F t id → a'.Unfolds F' t id
  | .node l ts, id, ⟨hid, hlt, hl, hall⟩ => by
    obtain ⟨hlabel, hchild, -⟩ := node_eq_iff.1 (hF id hid)
    refine ⟨hFF hid, Nat.lt_of_lt_of_le hlt hsize, hlabel.trans hl, ?_⟩
    rw [hchild]
    exact hall.congr hsize hFF hF

/-- A list of trees unfolds as before if the fixed nodes stay as they are. -/
theorem UnfoldsAll.congr (hsize : a.size ≤ a'.size) (hFF : F ⊆ F')
    (hF : ∀ y ∈ F, a'.node y = a.node y) :
    ∀ {ts : List (Tree Label)} {link : Option Nat}, a.UnfoldsAll F ts link →
      a'.UnfoldsAll F' ts link
  | [], _, h => h
  | .node l cs :: ts, link, ⟨id, hlink, h, hall⟩ => by
    refine ⟨id, hlink, h.congr hsize hFF hF, ?_⟩
    obtain ⟨-, -, hsibling⟩ := node_eq_iff.1 (hF id h.1)
    rw [hsibling]
    exact hall.congr hsize hFF hF

end

mutual

/-- A tree depends on the nodes that it owns and on the fixed nodes only. It does not depend on the
    sibling of its root. -/
theorem Owns.congr (hsize : a.size ≤ a'.size) (hFF : F ⊆ F')
    (hF : ∀ y ∈ F, a'.node y = a.node y) :
    ∀ {t : Tree Label} {id : Nat} {S : Set Nat}, a.Owns F t id S →
      a'.label id = a.label id → a'.child id = a.child id →
      (∀ y ∈ S, y ≠ id → a'.node y = a.node y) → a'.Owns F' t id S
  | .node l ts, id, S, ⟨hid, hl, h⟩, hlabel, hchild, hS => by
    refine ⟨Nat.lt_of_lt_of_le hid hsize, hlabel.trans hl, ?_⟩
    rw [hchild]
    split at h
    · next hnames =>
      rw [if_pos hnames]
      exact ⟨h.1, h.2.congr hsize hFF hF⟩
    · next hnames =>
      rw [if_neg hnames]
      obtain ⟨ids, S', hchain, hall, hfresh, rfl⟩ := h
      have hS' : ∀ y ∈ S', a'.node y = a.node y := fun y hy =>
        hS y (Set.mem_insert_of_mem id hy) fun heq => hfresh (heq ▸ hy)
      refine ⟨ids, S', hchain.congr fun y hy => ?_, hall.congr hsize hFF hF hS', hfresh, rfl⟩
      exact (node_eq_iff.1 (hS' y (hall.subset y hy))).2.2

/-- A list of trees owns the same places as long as these and the fixed ones stay as they are. -/
theorem OwnsAll.congr (hsize : a.size ≤ a'.size) (hFF : F ⊆ F')
    (hF : ∀ y ∈ F, a'.node y = a.node y) :
    ∀ {ts : List (Tree Label)} {ids : List Nat} {S : Set Nat}, a.OwnsAll F ts ids S →
      (∀ y ∈ S, a'.node y = a.node y) → a'.OwnsAll F' ts ids S
  | [], [], _, h, _ => h
  | t :: ts, id :: ids, S, ⟨S₁, S₂, h, hall, hdisj, hS⟩, hsame => by
    subst hS
    have hid := node_eq_iff.1 (hsame id (.inl h.mem))
    exact ⟨S₁, S₂, h.congr hsize hFF hF hid.1 hid.2.1 fun y hy _ => hsame y (.inl hy),
      hall.congr hsize hFF hF fun y hy => hsame y (.inr hy), hdisj, rfl⟩

end

/-- Trees are kept by a change that only sets the siblings of their roots. -/
theorem OwnsAll.kept (h : a.OwnsAll F ts ids S) (hsize : a.size ≤ a'.size)
    (hF : ∀ y ∈ F, a'.node y = a.node y) (hS : ∀ y ∈ S, y ∉ ids → a'.node y = a.node y)
    (hlabel : ∀ y ∈ ids, a'.label y = a.label y) (hchild : ∀ y ∈ ids, a'.child y = a.child y) :
    a'.OwnsAll F ts ids S := by
  induction ts generalizing ids S with
  | nil =>
    cases ids with
    | nil => exact h
    | cons => exact h.elim
  | cons t ts ih =>
    cases ids with
    | nil => exact h.elim
    | cons id ids =>
      obtain ⟨S₁, S₂, h, hall, hdisj, rfl⟩ := h
      obtain ⟨hl, hlabel⟩ := List.forall_mem_cons.1 hlabel
      obtain ⟨hc, hchild⟩ := List.forall_mem_cons.1 hchild
      -- a root among the nodes of one tree is that tree's root
      refine ⟨S₁, S₂, h.congr hsize (Set.Subset.refl F) hF hl hc fun y hy hne => ?_,
        ih hall (fun y hy hids => ?_) hlabel hchild, hdisj, rfl⟩
      · refine hS y (.inl hy) (List.not_mem_cons_of_ne_of_not_mem hne fun hids => ?_)
        exact hdisj y hy (hall.subset y hids)
      · refine hS y (.inr hy) (List.not_mem_cons_of_ne_of_not_mem ?_ hids)
        rintro rfl
        exact hdisj y h.mem hy

/-! ### What is owned unfolds -/

mutual

/-- What is owned unfolds to its tree. -/
theorem Owns.unfolds (hS : S ⊆ F') (hF : F ⊆ F') : ∀ {t : Tree Label} {id : Nat} {T : Set Nat},
    a.Owns F t id T → T ⊆ S → a.Unfolds F' t id
  | .node l ts, id, T, ⟨hid, hl, h⟩, hT => by
    split at h
    · obtain ⟨rfl, hall⟩ := h
      exact ⟨hS (hT rfl), hid, hl, hall.congr (Nat.le_refl _) hF fun _ _ => rfl⟩
    · obtain ⟨ids, S', hchain, hall, -, rfl⟩ := h
      exact ⟨hS (hT (Set.mem_insert id S')), hid, hl,
        hall.unfolds hS hF hchain ((Set.subset_insert id S').trans hT)⟩

/-- Trees whose roots are chained unfold from the first of them. -/
theorem OwnsAll.unfolds (hS : S ⊆ F') (hF : F ⊆ F') :
    ∀ {ts : List (Tree Label)} {ids : List Nat} {T : Set Nat} {link : Option Nat},
      a.OwnsAll F ts ids T → a.Chain link ids → T ⊆ S → a.UnfoldsAll F' ts link
  | [], [], _, _, _, hlink, _ => hlink
  | t :: ts, id :: ids, T, link, ⟨S₁, S₂, h, hall, _, heq⟩, ⟨hlink, hchain⟩, hT => by
    subst heq
    exact ⟨id, hlink, h.unfolds hS hF (Set.subset_union_left.trans hT),
      hall.unfolds hS hF hchain (Set.subset_union_right.trans hT)⟩

end

end Rpal.Arena
