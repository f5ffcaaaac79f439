import Rpal.Proofs.Arena.Standardize

/-!
# Reading trees off an arena

The links from a node on unfold to at most one tree, so that no path along them comes back to a
node: paths are no longer than the arena is large. This is why the bounds with which an arena is
read are never reached.

## Key results

- `Unfolds.unique`: a node unfolds to one tree only
- `UnfoldsAll.linkDepthAll_le`: a path along the links is not longer than the arena is large
- `Unfolds.tree_eq`: the tree at a node is the one that it unfolds to
- `unfolds_standardForm`: the standardized arena of a program's tree holds its canonical form
- `standardForm_of_ofTokens`: changing links in place comes to the same as rewriting the tree
-/

namespace Rpal

namespace Tree

variable {α : Type}

mutual

/-- The length of the longest path below the root, along links to first children and siblings. -/
def linkDepth : Tree α → Nat
  | node _ ts => linkDepthAll ts

/-- The length of the longest path along links to first children and siblings. -/
def linkDepthAll : List (Tree α) → Nat
  | [] => 0
  | t :: ts => max t.linkDepth (linkDepthAll ts) + 1

end

mutual

/-- The number of nodes of a tree is bounded by its paths, as that of a binary tree. -/
theorem size_le_two_pow : ∀ t : Tree α, t.size ≤ 2 ^ t.linkDepth
  | node _ ts => by
    rw [size, linkDepth]
    have := sizeAll_lt_two_pow ts
    omega

/-- A list of trees is smaller than a power of two of its depth by links. -/
theorem sizeAll_lt_two_pow : ∀ ts : List (Tree α), sizeAll ts < 2 ^ linkDepthAll ts
  | [] => Nat.two_pow_pos 0
  | t :: ts => by
    have h₁ := size_le_two_pow t
    have h₂ := sizeAll_lt_two_pow ts
    have h₁' : 2 ^ t.linkDepth ≤ 2 ^ max t.linkDepth (linkDepthAll ts) :=
      Nat.pow_le_pow_right (by decide) (Nat.le_max_left ..)
    have h₂' : 2 ^ linkDepthAll ts ≤ 2 ^ max t.linkDepth (linkDepthAll ts) :=
      Nat.pow_le_pow_right (by decide) (Nat.le_max_right ..)
    rw [sizeAll, linkDepthAll, Nat.pow_succ]
    omega

end

/-- A list of trees is as deep by links as it is long, or deeper. -/
theorem length_le_linkDepthAll (ts : List (Tree α)) : ts.length ≤ linkDepthAll ts := by
  induction ts with
  | nil => exact Nat.le_refl 0
  | cons t ts ih =>
    rw [List.length_cons, linkDepthAll]
    exact Nat.succ_le_succ (Nat.le_trans ih (Nat.le_max_right ..))

/-- A tree is less deep by links than a list that it is in. -/
theorem linkDepth_lt_of_mem {t : Tree α} {ts : List (Tree α)} (h : t ∈ ts) :
    t.linkDepth < linkDepthAll ts := by
  induction ts with
  | nil => exact nomatch h
  | cons s ts ih =>
    rw [linkDepthAll]
    rcases List.mem_cons.1 h with rfl | h
    · exact Nat.lt_succ_of_le (Nat.le_max_left ..)
    · exact Nat.lt_succ_of_le (Nat.le_trans (Nat.le_of_lt (ih h)) (Nat.le_max_right ..))

/-- The children of a node are less deep than the node. -/
theorem linkDepth_children_lt {x : α} {ts : List (Tree α)} {n : Nat}
    (h : (node x ts).linkDepth < n + 1) : ∀ t ∈ ts, t.linkDepth < n := fun _ ht =>
  Nat.lt_of_lt_of_le (linkDepth_lt_of_mem ht) (Nat.le_of_lt_succ h)

end Tree

namespace Arena

open Rpal.Tree

variable {a : Arena} {F F' : Set Nat} {t t' : Tree Label} {ts ts' : List (Tree Label)} {l : Label}
  {id : Nat} {link : Option Nat}

/-! ### Paths along the links -/

mutual

/-- A node unfolds to one tree only. -/
theorem Unfolds.unique : ∀ {t t' : Tree Label} {id : Nat}, a.Unfolds F t id → a.Unfolds F' t' id →
    t = t'
  | .node l ts, .node l' ts', id, ⟨_, _, hl, hall⟩, ⟨_, _, hl', hall'⟩ => by
    rw [← hl, ← hl', hall.unique hall']

/-- One list of trees unfolds from a link. -/
theorem UnfoldsAll.unique : ∀ {ts ts' : List (Tree Label)} {link : Option Nat},
    a.UnfoldsAll F ts link → a.UnfoldsAll F' ts' link → ts = ts'
  | [], [], _, _, _ => rfl
  | [], _ :: _, _, h, ⟨_, h', _⟩ => nomatch h.symm.trans h'
  | _ :: _, [], _, ⟨_, h, _⟩, h' => nomatch h.symm.trans h'
  | t :: ts, t' :: ts', _, ⟨id, h, ht, hts⟩, ⟨id', h', ht', hts'⟩ => by
    obtain rfl := Option.some.inj (h.symm.trans h')
    rw [ht.unique ht', hts.unique hts']

end

/-- A node has the label of the root. -/
theorem Unfolds.label_eq (h : a.Unfolds F t id) : a.label id = t.label := by
  cases t with
  | node l ts => exact h.2.2.1

/-- There is a path from the link on that is as long as any and does not meet a node twice. -/
def HasPath (a : Arena) (F : Set Nat) (ts : List (Tree Label)) : Prop :=
  ∃ path : List Nat, path.length = linkDepthAll ts ∧ path.Nodup ∧
    ∀ y ∈ path, y < a.size ∧ ∃ ts', a.UnfoldsAll F ts' (some y) ∧
      linkDepthAll ts' ≤ linkDepthAll ts

/-- A longest path takes the longer of two links. It does not come back to a node, because what is
    below the node has shorter paths. -/
theorem UnfoldsAll.hasPath : ∀ {ts : List (Tree Label)} {link : Option Nat},
    a.UnfoldsAll F ts link → a.HasPath F ts
  | [], _, _ => ⟨[], rfl, .nil, nofun⟩
  | .node l cs :: ts, _, ⟨id, _, h, hall⟩ => by
    have hself : a.UnfoldsAll F (.node l cs :: ts) (some id) := ⟨id, rfl, h, hall⟩
    obtain ⟨-, hid, -, hcs⟩ := h
    obtain ⟨rest, hrest, hdepth⟩ : ∃ rest, a.HasPath F rest ∧
        linkDepthAll (.node l cs :: ts) = linkDepthAll rest + 1 := by
      rw [linkDepthAll, linkDepth]
      -- the path goes on below the node or behind it, where it is longer
      rcases Nat.le_total (linkDepthAll cs) (linkDepthAll ts) with hle | hle
      · exact ⟨ts, hall.hasPath, by rw [Nat.max_eq_right hle]⟩
      · exact ⟨cs, hcs.hasPath, by rw [Nat.max_eq_left hle]⟩
    obtain ⟨path, hlen, hnodup, hpath⟩ := hrest
    refine ⟨id :: path, by rw [List.length_cons, hlen, hdepth], ?_, ?_⟩
    -- a node on the rest of the path unfolds to something less deep, and thus is another one
    · refine List.nodup_cons.2 ⟨fun hmem => ?_, hnodup⟩
      obtain ⟨-, ts', hts', hle⟩ := hpath id hmem
      rw [hts'.unique hself, hdepth] at hle
      omega
    · refine List.forall_mem_cons.2 ⟨⟨hid, _, hself, Nat.le_refl _⟩, fun y hy => ?_⟩
      obtain ⟨hlt, ts', hts', hle⟩ := hpath y hy
      exact ⟨hlt, ts', hts', by omega⟩

/-- A path along the links is not longer than the arena is large. -/
theorem UnfoldsAll.linkDepthAll_le (h : a.UnfoldsAll F ts link) : linkDepthAll ts ≤ a.size := by
  obtain ⟨path, hlen, hnodup, hpath⟩ := h.hasPath
  exact hlen ▸ length_le_size hnodup fun y hy => (hpath y hy).1

/-- A path below a node is shorter, because it does not meet the node. -/
theorem Unfolds.linkDepth_lt (h : a.Unfolds F t id) : t.linkDepth < a.size := by
  cases t with
  | node l ts =>
    have ⟨_, hid, _, hts⟩ := h
    obtain ⟨path, hlen, hnodup, hpath⟩ := hts.hasPath
    have hfresh : id ∉ path := by
      intro hmem
      obtain ⟨-, ts', hts', hle⟩ := hpath id hmem
      match ts', hts' with
      | t' :: ts', ⟨id', hlink, ht', _⟩ =>
        obtain rfl := Option.some.inj hlink
        rw [← h.unique ht', linkDepthAll, linkDepth] at hle
        omega
    have hle := length_le_size (List.nodup_cons.2 ⟨hfresh, hnodup⟩)
      (List.forall_mem_cons.2 ⟨hid, fun y hy => (hpath y hy).1⟩)
    rwa [List.length_cons, hlen] at hle

/-! ### Trees -/

/-- The children of a node unfold to the subtrees. -/
theorem UnfoldsAll.chain (h : a.UnfoldsAll F ts link) :
    ∃ ids, a.Chain link ids ∧ List.Forall₂ (a.Unfolds F) ts ids := by
  induction ts generalizing link with
  | nil => exact ⟨[], h, .nil⟩
  | cons t ts ih =>
    obtain ⟨id, rfl, ht, hts⟩ := h
    obtain ⟨ids, hchain, hids⟩ := ih hts
    exact ⟨id :: ids, ⟨rfl, hchain⟩, .cons ht hids⟩

/-- The children of a node unfold to the subtrees. -/
theorem Unfolds.children (h : a.Unfolds F (.node l ts) id) :
    a.Chain (a.child id) (a.children id) ∧ List.Forall₂ (a.Unfolds F) ts (a.children id) := by
  obtain ⟨-, -, -, hts⟩ := h
  obtain ⟨ids, hchain, hids⟩ := hts.chain
  have hle : ids.length ≤ a.size := by
    rw [← hids.length_eq]
    exact Nat.le_trans (length_le_linkDepthAll ts) hts.linkDepthAll_le
  rw [Arena.children, hchain.siblings hle]
  exact ⟨hchain, hids⟩

/-- The tree at a node, read to a depth that is enough. -/
theorem Unfolds.map_shapeTo {n : Nat} (h : a.Unfolds F t id) (hn : t.linkDepth < n) :
    (a.shapeTo n id).map a.label = t := by
  induction n generalizing t id with
  | zero => exact absurd hn (Nat.not_lt_zero _)
  | succ n ih =>
    have hmap {ts : List (Tree Label)} {ids : List Nat} (hids : List.Forall₂ (a.Unfolds F) ts ids)
        (hdepth : ∀ t ∈ ts, t.linkDepth < n) :
        ids.map (fun id => (a.shapeTo n id).map a.label) = ts := by
      induction hids with
      | nil => rfl
      | cons ht _ ihs =>
        obtain ⟨hd, hds⟩ := List.forall_mem_cons.1 hdepth
        rw [List.map_cons, ih ht hd, ihs hds]
    cases t with
    | node l ts =>
      have hl : a.label id = l := h.2.2.1
      rw [shapeTo, Tree.map, mapAll_eq_map, List.map_map, hl]
      exact congrArg _ (hmap h.children.2 (linkDepth_children_lt hn))

/-- The tree at a node is the one that it unfolds to. -/
theorem Unfolds.tree_eq (h : a.Unfolds F t id) : a.tree id = t :=
  h.map_shapeTo h.linkDepth_lt

/-- A tree that owns its nodes is what the arena unfolds to from its root. -/
theorem Forest.unfolds (h : Forest a F F [(t, id)] []) : ∃ F', a.Unfolds F' t id := by
  obtain ⟨S, ⟨S₁, S₂, howns, -⟩, -⟩ := h
  exact ⟨F ∪ S₁, howns.unfolds Set.subset_union_right Set.subset_union_left (Set.Subset.refl S₁)⟩

/-- The arena of a tree unfolds to it. -/
theorem unfolds_ofTree (t : Tree Label) :
    ∃ root F, (ofTree t).root = some root ∧ (ofTree t).Unfolds F t root := by
  obtain ⟨root, F, hroot, h, -⟩ := ofTree_forest t
  obtain ⟨F', h⟩ := h.unfolds
  exact ⟨root, F', hroot, h⟩

/-- A well-formed tree is standardized, and the arena unfolds to its canonical form. -/
theorem unfolds_standardForm_of_isWellFormed {t : Tree Label} (ht : IsWellFormed t) : ∃ a root F,
    (ofTree t).standardForm = .ok a ∧ (ofTree t).root = some root ∧ a.root = some root ∧
      a.standardized = true ∧ a.Unfolds F t.standard root := by
  obtain ⟨a, root, F, hform, hroot, hroot', hmark, h⟩ := standardForm_ofTree ht
  obtain ⟨F', h⟩ := h.unfolds
  exact ⟨a, root, F', hform, hroot, hroot', hmark, h⟩

/-- A program's tree is standardized, and the arena unfolds to its canonical form. -/
theorem unfolds_standardForm {t : Tree Label} (ht : IsPart t) : ∃ a root F,
    (ofTree t).standardForm = .ok a ∧ (ofTree t).root = some root ∧ a.root = some root ∧
      a.standardized = true ∧ a.Unfolds F t.standard root :=
  unfolds_standardForm_of_isWellFormed ht.isWellFormed

/-- The tree at the root, once it is known to which tree the root unfolds. -/
theorem Unfolds.rootTree?_eq (h : a.Unfolds F t id) (hroot : a.root = some id) :
    a.rootTree? = some t := by
  rw [rootTree?, hroot, Option.map_some, h.tree_eq]

/-- The nodes need not be known. -/
theorem Unfolds.univ (h : a.Unfolds F t id) : a.Unfolds Set.univ t id :=
  h.congr (Nat.le_refl _) (Set.subset_univ F) fun _ _ => rfl

/-- Changing the links in place has the same effect as the rules on trees: the arena of a program's
    tree is standardized, the root stays where it is, and from there the arena unfolds to the
    canonical form of the tree that it unfolded to before. -/
theorem standardForm_of_ofTokens {tokens : List Token} {t : Tree Label}
    (h : Tree.ofTokens tokens = .ok t) : ∃ root, (ofTree t).root = some root ∧
      (ofTree t).Unfolds Set.univ t root ∧ (ofTree t).rootTree? = some t ∧
      ∃ a, (ofTree t).standardForm = .ok a ∧ a.root = some root ∧ a.standardized = true ∧
        a.Unfolds Set.univ t.standard root ∧ a.rootTree? = some t.standard := by
  obtain ⟨root, F, hroot, hraw⟩ := unfolds_ofTree t
  obtain ⟨a, root', F', hform, hroot', haroot, hmark, hstandard⟩ :=
    unfolds_standardForm (.inl ⟨_, isSource_of_ofTokens h⟩)
  obtain rfl : root = root' := Option.some.inj (hroot.symm.trans hroot')
  exact ⟨root, hroot, hraw.univ, hraw.rootTree?_eq hroot, a, hform, haroot, hmark, hstandard.univ,
    hstandard.rootTree?_eq haroot⟩

/-- The tree of `let rec f n = f in f`, with two rules to apply. -/
theorem standardForm_letRec : ∃ t, Tree.ofTokens
      ([.symbol .letKw, .symbol .recKw, .identifier "f", .identifier "n", .symbol .equals,
        .identifier "f", .symbol .inKw, .identifier "f", .symbol .endOfInput].map fun l =>
          { lexeme := l, span := ⟨0, 0⟩, line := 1 }) = .ok t ∧
    ∃ root, (ofTree t).root = some root ∧
      (ofTree t).Unfolds Set.univ t root ∧ (ofTree t).rootTree? = some t ∧
      ∃ a, (ofTree t).standardForm = .ok a ∧ a.root = some root ∧ a.standardized = true ∧
        a.Unfolds Set.univ t.standard root ∧ a.rootTree? = some t.standard := by
  generalize htokens : List.map _ _ = tokens
  have hok : (Tree.ofTokens tokens).isOk = true := by
    subst htokens
    decide +kernel
  cases h : Tree.ofTokens tokens with
  | error e =>
    rw [h] at hok
    cases hok
  | ok t => exact ⟨t, rfl, standardForm_of_ofTokens h⟩

end Arena

end Rpal
