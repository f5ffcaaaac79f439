import Rpal.Proofs.Arena.Spans

/-!
# Trees behind the nodes of an arena

A tree that is added to an arena gets the places behind those that are there, without a gap, each
node after its children. What is below a node are therefore the places right before it, and a link
to a child leads backward, one to a sibling forward.

## Key results

- `Fills`: a tree and its nodes take up the places of an interval
- `graft_fills`: an added tree fills the new places
- `FillsAll.existsUnique_reach`: links lead to every place of the interval in one way
- `isNewTree_graft`: an added tree is linked to nothing else, and has no node twice
-/

namespace Rpal.Arena

open Rpal.Tree

variable {a a' : Arena} {t : Tree Label} {ts : List (Tree Label)} {link : Option Nat}
  {lo mid hi id y : Nat}

mutual

/-- The places from `lo` to `id` are those of the tree, the root is at `id`. -/
def Fills (a : Arena) : Tree Label → Nat → Nat → Prop
  | .node l ts, lo, id => id < a.size ∧ a.label id = l ∧ a.FillsAll ts (a.child id) lo id

/-- The link leads to siblings that are the roots of the trees, with the places from `lo` up to
    `hi`. -/
def FillsAll (a : Arena) : List (Tree Label) → Option Nat → Nat → Nat → Prop
  | [], link, lo, hi => link = none ∧ lo = hi
  | t :: ts, link, lo, hi => ∃ id, link = some id ∧ a.Fills t lo id ∧
    a.FillsAll ts (a.sibling id) (id + 1) hi

end

/-- The roots of the trees are at `ids`, which may be linked in any way. -/
def FillsEach (a : Arena) : List (Tree Label) → List Nat → Nat → Nat → Prop
  | [], [], lo, hi => lo = hi
  | t :: ts, id :: ids, lo, hi => a.Fills t lo id ∧ a.FillsEach ts ids (id + 1) hi
  | _, _, _, _ => False

mutual

/-- The root of a tree comes last in its interval. -/
theorem Fills.le : ∀ {t : Tree Label} {lo id : Nat}, a.Fills t lo id → lo ≤ id
  | .node _ _, _, _, ⟨_, _, h⟩ => h.le

/-- The interval of a list of trees does not end before it starts. -/
theorem FillsAll.le : ∀ {ts : List (Tree Label)} {link : Option Nat} {lo hi : Nat},
    a.FillsAll ts link lo hi → lo ≤ hi
  | [], _, _, _, ⟨_, h⟩ => Nat.le_of_eq h
  | _ :: _, _, _, _, ⟨_, _, h, hs⟩ => Nat.le_trans (Nat.le_succ_of_le h.le) hs.le

end

/-- The root of a tree is a node of the arena. -/
theorem Fills.lt_size (h : a.Fills t lo id) : id < a.size := by
  cases t with
  | node l ts => exact h.1

mutual

/-- A tree is kept if its nodes are not changed. -/
theorem Fills.congr (hsize : a.size ≤ a'.size) : ∀ {t : Tree Label} {lo id : Nat},
    a.Fills t lo id → (∀ y, lo ≤ y → y ≤ id → a'.label y = a.label y ∧ a'.child y = a.child y) →
      (∀ y, lo ≤ y → y < id → a'.sibling y = a.sibling y) → a'.Fills t lo id
  | .node _ _, lo, id, ⟨hid, hl, h⟩, hkept, hsibling => by
    obtain ⟨hlabel, hchild⟩ := hkept id h.le (Nat.le_refl _)
    refine ⟨Nat.lt_of_lt_of_le hid hsize, hlabel.trans hl, ?_⟩
    rw [hchild]
    exact h.congr hsize (fun y hlo hy => hkept y hlo (Nat.le_of_lt hy)) hsibling

/-- Trees fill an interval as long as the labels and links in it stay. -/
theorem FillsAll.congr (hsize : a.size ≤ a'.size) :
    ∀ {ts : List (Tree Label)} {link : Option Nat} {lo hi : Nat}, a.FillsAll ts link lo hi →
      (∀ y, lo ≤ y → y < hi → a'.label y = a.label y ∧ a'.child y = a.child y) →
      (∀ y, lo ≤ y → y < hi → a'.sibling y = a.sibling y) → a'.FillsAll ts link lo hi
  | [], _, _, _, h, _, _ => h
  | _ :: _, _, lo, hi, ⟨id, hlink, h, hs⟩, hkept, hsibling => by
    have hlo := h.le
    have hhi := hs.le
    refine ⟨id, hlink, h.congr hsize (fun y hy hid => hkept y hy (by omega))
      fun y hy hid => hsibling y hy (by omega), ?_⟩
    rw [hsibling id hlo (by omega)]
    exact hs.congr hsize (fun y hy hid => hkept y (by omega) hid)
      fun y hy hid => hsibling y (by omega) hid

end

/-! ### Adding trees -/

/-- The roots are at places of the interval, in order. -/
theorem FillsEach.roots {ids : List Nat} (h : a.FillsEach ts ids lo hi) :
    (∀ i ∈ ids, lo ≤ i ∧ i < hi) ∧ ids.Nodup ∧ lo ≤ hi := by
  fun_induction FillsEach a ts ids lo hi with
  | case1 => exact ⟨List.forall_mem_nil _, .nil, Nat.le_of_eq h⟩
  | case2 t ts id ids lo hi ih =>
    obtain ⟨ht, hts⟩ := h
    obtain ⟨hids, hnodup, hle⟩ := ih hts
    have hlo := ht.le
    refine ⟨List.forall_mem_cons.2 ⟨⟨hlo, hle⟩, fun i hi => ?_⟩,
      List.nodup_cons.2 ⟨fun hmem => ?_, hnodup⟩, by omega⟩
    · have := hids i hi
      omega
    · exact Nat.lt_irrefl id (hids id hmem).1
  | case3 => exact h.elim

/-- The trees are kept when nodes are added. -/
theorem Fills.extends (h : a.Fills t lo id) (h' : Extends a a') : a'.Fills t lo id := by
  have hkept {y : Nat} (hy : y ≤ id) := node_eq_iff.1
    (h'.node_eq y (Nat.lt_of_le_of_lt hy h.lt_size))
  exact h.congr h'.size_le (fun y _ hy => ⟨(hkept hy).1, (hkept hy).2.1⟩)
    fun y _ hy => (hkept (Nat.le_of_lt hy)).2.2

/-- Trees are linked to each other by setting the siblings of their roots. -/
theorem FillsEach.fillsAll (hsize : a.size ≤ a'.size) {ids : List Nat}
    (h : a.FillsEach ts ids lo hi)
    (hkept : ∀ y, lo ≤ y → y < hi → a'.label y = a.label y ∧ a'.child y = a.child y)
    (hsibling : ∀ y, lo ≤ y → y < hi → y ∉ ids → a'.sibling y = a.sibling y)
    (hchain : a'.Chain link ids) : a'.FillsAll ts link lo hi := by
  fun_induction FillsEach a ts ids lo hi generalizing link with
  | case1 => exact ⟨hchain, h⟩
  | case2 t ts id ids lo hi ih =>
    obtain ⟨ht, hts⟩ := h
    obtain ⟨hids, -, hle⟩ := hts.roots
    have hlo := ht.le
    refine ⟨id, hchain.1, ht.congr hsize (fun y hy hid => hkept y hy (by omega)) ?_,
      ih hts (fun y hy hlt => hkept y (by omega) hlt) ?_ hchain.2⟩
    · -- the roots behind are at later places
      refine fun y hy hid => hsibling y hy (by omega) (List.not_mem_cons_of_ne_of_not_mem
        (Nat.ne_of_lt hid) fun hmem => ?_)
      have := (hids y hmem).1
      omega
    · exact fun y hy hlt hmem => hsibling y (by omega) hlt
        (List.not_mem_cons_of_ne_of_not_mem (Nat.ne_of_gt hy) hmem)
  | case3 => exact h.elim

/-- A new node over the trees that are last takes the next place. -/
theorem FillsEach.alloc {ids : List Nat} (l : Label) (h : a.FillsEach ts ids lo a.size) :
    ((a.alloc l).setChildren a.size ids).Fills (.node l ts) lo a.size ∧
      ((a.alloc l).setChildren a.size ids).sibling a.size = none := by
  obtain ⟨hroots, hnodup, -⟩ := h.roots
  have hid : a.size < (a.alloc l).size := by simp
  have hids (i) (hi : i ∈ ids) : i < (a.alloc l).size := Nat.lt_trans (hroots i hi).2 hid
  have hfresh : a.size ∉ ids := fun hmem => Nat.lt_irrefl _ (hroots _ hmem).2
  refine ⟨⟨by simp, by rw [label_setChildren, label_alloc, if_pos rfl], ?_⟩, ?_⟩
  · refine h.fillsAll (by simp) (fun y _ hy => ?_) (fun y _ _ hy => ?_)
      (chain_setChildren hid hids hnodup)
    · have hne := Nat.ne_of_lt hy
      rw [label_setChildren, label_alloc, if_neg hne, child_setChildren hid, if_neg hne, child_alloc]
      exact ⟨rfl, rfl⟩
    · rw [sibling_setChildren_of_not_mem hids hy, sibling_alloc]
  · rw [sibling_setChildren_of_not_mem hids hfresh, sibling_alloc, sibling_of_le (Nat.le_refl _)]

mutual

/-- An added tree fills the new places. -/
theorem graft_fills (a : Arena) : ∀ t, (a.graft t).2.size = (a.graft t).1 + 1 ∧
    (a.graft t).2.Fills t a.size (a.graft t).1 ∧ (a.graft t).2.sibling (a.graft t).1 = none
  | .node l ts => by
    have h := graftAll_fills a ts
    simp only [graft, nextId_eq_size]
    exact ⟨by simp, h.alloc l⟩

/-- The trees that are added one after the other fill what was free. -/
theorem graftAll_fills (a : Arena) : ∀ ts,
    (a.graftAll ts).2.FillsEach ts (a.graftAll ts).1 a.size (a.graftAll ts).2.size
  | [] => rfl
  | t :: ts => by
    obtain ⟨hsize, ht, -⟩ := graft_fills a t
    have hext := (graftAll_spans (a.graft t).2 ts).1
    have hts := graftAll_fills (a.graft t).2 ts
    rw [hsize] at hts
    exact ⟨ht.extends hext, hts⟩

end

mutual

/-- Adding trees leaves the root where it is. -/
theorem root_graft (a : Arena) : ∀ t, (a.graft t).2.root = a.root
  | .node l ts => by
    simp only [graft, root_setChildren]
    exact root_graftAll a ts

/-- The root of the arena stays when trees are added. -/
theorem root_graftAll (a : Arena) : ∀ ts, (a.graftAll ts).2.root = a.root
  | [] => rfl
  | t :: ts => by
    simp only [graftAll]
    exact (root_graftAll _ ts).trans (root_graft a t)

end

/-! ### Following the links -/

/-- The links of a node. -/
inductive Link where
  | child
  | sibling
deriving DecidableEq

/-- Where a link of the node at place `id` leads. -/
def next (a : Arena) (id : Nat) : Link → Option Nat
  | .child => a.child id
  | .sibling => a.sibling id

/-- Where the links of `path` lead, behind a first link. -/
def reach (a : Arena) : Option Nat → List Link → Option Nat
  | link, [] => link
  | none, _ :: _ => none
  | some id, l :: path => a.reach (a.next id l) path

/-- The links of trees stay among their places: to a child backward, to a sibling forward. -/
theorem FillsAll.next_mem : ∀ {ts : List (Tree Label)} {link : Option Nat} {lo hi : Nat},
    a.FillsAll ts link lo hi → (∀ y, link = some y → lo ≤ y ∧ y < hi) ∧
      ∀ y, lo ≤ y → y < hi → (∀ c, a.child y = some c → lo ≤ c ∧ c < y) ∧
        ∀ s, a.sibling y = some s → y < s ∧ s < hi
  | [], _, lo, hi, ⟨hlink, hlo⟩ => by
    subst hlink hlo
    exact ⟨nofun, fun y hy hlt => absurd hlt (Nat.not_lt.2 hy)⟩
  | .node _ _ :: _, _, lo, hi, ⟨id, hlink, ⟨_, _, hcs⟩, hts⟩ => by
    obtain ⟨hchild, hinside⟩ := hcs.next_mem
    obtain ⟨hsibling, hbehind⟩ := hts.next_mem
    have hlo := hcs.le
    have hhi := hts.le
    subst hlink
    refine ⟨fun y hy => ?_, fun y hy hlt => ?_⟩
    · obtain rfl := Option.some.inj hy
      omega
    · -- inside the first tree, at its root, or in the trees behind it
      rcases Nat.lt_trichotomy y id with hid | rfl | hid
      · obtain ⟨hc, hs⟩ := hinside y hy hid
        exact ⟨hc, fun s h => ⟨(hs s h).1, Nat.lt_trans (hs s h).2 hhi⟩⟩
      · exact ⟨hchild, fun s h => ⟨(hsibling s h).1, (hsibling s h).2⟩⟩
      · obtain ⟨hc, hs⟩ := hbehind y hid hlt
        exact ⟨fun c h => ⟨Nat.le_trans (by omega) (hc c h).1, (hc c h).2⟩, hs⟩

/-- Links lead from the places of trees to such places. -/
theorem FillsAll.reach_mem (h : a.FillsAll ts link lo hi) {path : List Link}
    (hy : a.reach link path = some y) : lo ≤ y ∧ y < hi := by
  obtain ⟨hlink, hnext⟩ := h.next_mem
  -- from now on the link may lead to any of the places
  clear h
  induction path generalizing link with
  | nil => exact hlink y hy
  | cons l path ih =>
    cases link with
    | none => cases hy
    | some id =>
      obtain ⟨hlo, hhi⟩ := hlink id rfl
      obtain ⟨hc, hs⟩ := hnext id hlo hhi
      refine ih hy fun z hz => ?_
      cases l with
      | child =>
        have := hc z hz
        omega
      | sibling =>
        have := hs z hz
        omega

/-- Every place of trees is reached in one way. The induction is on the trees, with those below the
    first one and those behind it. -/
theorem FillsAll.existsUnique_reach : ∀ {ts : List (Tree Label)} {link : Option Nat} {lo hi y : Nat},
    a.FillsAll ts link lo hi → lo ≤ y → y < hi → ∃! path, a.reach link path = some y
  | [], _, lo, hi, y, ⟨_, hlo⟩, hy, hlt => by omega
  | .node _ _ :: _, _, lo, hi, y, ⟨id, hlink, ⟨_, _, hcs⟩, hts⟩, hy, hlt => by
    subst hlink
    -- a path ends at the first root, or goes on below it or behind it
    have hbelow {path} (h : a.reach (some id) (.child :: path) = some y) : y < id :=
      (hcs.reach_mem h).2
    have hbehind {path} (h : a.reach (some id) (.sibling :: path) = some y) : id < y :=
      (hts.reach_mem h).1
    rcases Nat.lt_trichotomy y id with hid | rfl | hid
    · obtain ⟨path, hpath, hunique⟩ := hcs.existsUnique_reach hy hid
      refine ⟨.child :: path, hpath, fun path' h => ?_⟩
      match path', h with
      | [], h => exact absurd (Option.some.inj h) (Nat.ne_of_gt hid)
      | .child :: path', h => rw [hunique path' h]
      | .sibling :: path', h => exact absurd (hbehind h) (Nat.lt_asymm hid)
    · refine ⟨[], rfl, fun path' h => ?_⟩
      match path', h with
      | [], h => rfl
      | .child :: path', h => exact absurd (hbelow h) (Nat.lt_irrefl _)
      | .sibling :: path', h => exact absurd (hbehind h) (Nat.lt_irrefl _)
    · obtain ⟨path, hpath, hunique⟩ := hts.existsUnique_reach hid hlt
      refine ⟨.sibling :: path, hpath, fun path' h => ?_⟩
      match path', h with
      | [], h => exact absurd (Option.some.inj h) (Nat.ne_of_lt hid)
      | .child :: path', h => exact absurd (hbelow h) (Nat.lt_asymm hid)
      | .sibling :: path', h => rw [hunique path' h]

/-- The siblings that a link to trees leads to are among their places. -/
theorem FillsAll.siblings_mem (h : a.FillsAll ts link lo hi) (n : Nat) :
    ∀ y ∈ a.siblings n link, lo ≤ y ∧ y < hi := by
  induction n generalizing ts link lo with
  | zero => exact nofun
  | succ n ih =>
    cases ts with
    | nil =>
      obtain ⟨rfl, -⟩ := h
      exact nofun
    | cons t ts =>
      obtain ⟨id, rfl, ht, hts⟩ := h
      have hlo := ht.le
      have hhi := hts.le
      refine List.forall_mem_cons.2 ⟨by omega, fun y hy => ?_⟩
      have := ih hts y hy
      omega

/-- The children of a node come before it. -/
theorem FillsAll.children_lt : ∀ {ts : List (Tree Label)} {link : Option Nat} {lo hi y : Nat},
    a.FillsAll ts link lo hi → lo ≤ y → y < hi → ∀ c ∈ a.children y, lo ≤ c ∧ c < y
  | [], _, lo, hi, y, ⟨_, hlo⟩, hy, hlt => by omega
  | .node _ _ :: _, _, lo, hi, y, ⟨id, hlink, ⟨_, _, hcs⟩, hts⟩, hy, hlt => by
    rcases Nat.lt_trichotomy y id with hid | rfl | hid
    · exact hcs.children_lt hy hid
    · exact hcs.siblings_mem a.size
    · intro c hc
      have hlo := hcs.le
      have := hts.children_lt hid hlt c hc
      omega

mutual

/-- A tree that fills an interval unfolds from its root. -/
theorem Fills.unfolds : ∀ {t : Tree Label} {lo id : Nat},
    a.Fills t lo id → a.Unfolds Set.univ t id
  | .node _ _, _, _, ⟨hid, hl, h⟩ => ⟨trivial, hid, hl, h.unfolds⟩

/-- Trees that fill an interval unfold from the first link. -/
theorem FillsAll.unfolds : ∀ {ts : List (Tree Label)} {link : Option Nat} {lo hi : Nat},
    a.FillsAll ts link lo hi → a.UnfoldsAll Set.univ ts link
  | [], _, _, _, ⟨hlink, _⟩ => hlink
  | _ :: _, _, _, _, ⟨id, hlink, h, hs⟩ => ⟨id, hlink, h.unfolds, hs.unfolds⟩

end

/-! ### New trees -/

/-- The nodes that `a'` has in addition to those of `a` make one tree: there are no others that are
    linked to them, none of them is apart, shared or below itself. -/
structure IsNewTree (a a' : Arena) (root : Nat) : Prop where
  root_new : a.size ≤ root ∧ root < a'.size
  sibling_root : a'.sibling root = none
  /-- Every new node is reached from the root, and in one way. -/
  existsUnique_reach : ∀ id, a.size ≤ id → id < a'.size →
    ∃! path, a'.reach (some root) path = some id
  /-- No link of a new node leads to an old one. -/
  next_new : ∀ id, a.size ≤ id → id < a'.size → ∀ l target, a'.next id l = some target →
    a.size ≤ target ∧ target < a'.size
  children_lt : ∀ id, a.size ≤ id → id < a'.size → ∀ c ∈ a'.children id, c < id

/-- An added tree is a new tree. -/
theorem isNewTree_graft (a : Arena) (t : Tree Label) :
    IsNewTree a (a.graft t).2 (a.graft t).1 := by
  obtain ⟨hsize, hfills, hsibling⟩ := graft_fills a t
  have h : (a.graft t).2.FillsAll [t] (some (a.graft t).1) a.size (a.graft t).2.size :=
    ⟨_, rfl, hfills, hsibling, hsize.symm⟩
  exact {
    root_new := h.next_mem.1 _ rfl
    sibling_root := hsibling
    existsUnique_reach := fun _ hid hlt => h.existsUnique_reach hid hlt
    next_new := fun id hid hlt l target htarget => by
      obtain ⟨hc, hs⟩ := h.next_mem.2 id hid hlt
      cases l with
      | child => exact ⟨(hc _ htarget).1, Nat.lt_trans (hc _ htarget).2 hlt⟩
      | sibling => exact ⟨Nat.le_trans hid (Nat.le_of_lt (hs _ htarget).1), (hs _ htarget).2⟩
    children_lt := fun _ hid hlt c hc => (h.children_lt hid hlt c hc).2 }

/-- The tree that is read off from the root of an added tree is that tree. -/
theorem tree_graft (a : Arena) (t : Tree Label) : (a.graft t).2.tree (a.graft t).1 = t :=
  (graft_fills a t).2.1.unfolds.tree_eq

end Rpal.Arena
