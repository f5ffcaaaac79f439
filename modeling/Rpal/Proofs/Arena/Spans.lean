import Rpal.Proofs.Arena.Unfold

/-!
# Arenas that are trees

The links from the root of an arena make a tree if they lead to no node twice. Nothing is said of the
constructs of the nodes or of how many children they have.

## Key results

- `IsTree`: the links of the arena make a tree
- `isTree_ofTree`: every tree is that of an arena
-/

namespace Rpal.Arena

mutual

/-- The node at place `id` is the root of the tree, whose nodes are at `places`, parents first. -/
def Spans (a : Arena) : Tree Label → Nat → List Nat → Prop
  | .node l ts, id, places => id < a.size ∧ a.label id = l ∧
    ∃ below, places = id :: below ∧ a.SpansAll ts (a.child id) below

/-- The link leads to siblings that are the roots of the trees. -/
def SpansAll (a : Arena) : List (Tree Label) → Option Nat → List Nat → Prop
  | [], link, places => link = none ∧ places = []
  | t :: ts, link, places => ∃ id inside behind, link = some id ∧ places = inside ++ behind ∧
    a.Spans t id inside ∧ a.SpansAll ts (a.sibling id) behind

end

/-- The links from the root on make a tree: they lead to no node twice. -/
def IsTree (a : Arena) (t : Tree Label) : Prop :=
  ∃ root places, a.root = some root ∧ a.Spans t root places ∧ places.Nodup

variable {a a' a'' : Arena}

/-- A tree has a node at least, its root. -/
theorem Spans.mem {t : Tree Label} {id : Nat} {places : List Nat} (h : a.Spans t id places) :
    id ∈ places := by
  cases t with
  | node l ts =>
    obtain ⟨-, -, below, rfl, -⟩ := h
    exact .head _

mutual

/-- The places of a tree are nodes of the arena. -/
theorem Spans.lt : ∀ {t : Tree Label} {id : Nat} {places : List Nat}, a.Spans t id places →
    ∀ y ∈ places, y < a.size
  | .node _ _, _, _, ⟨hid, _, _, rfl, h⟩ => List.forall_mem_cons.2 ⟨hid, h.lt⟩

/-- The places of a list of trees are nodes of the arena. -/
theorem SpansAll.lt : ∀ {ts : List (Tree Label)} {link : Option Nat} {places : List Nat},
    a.SpansAll ts link places → ∀ y ∈ places, y < a.size
  | [], _, _, ⟨_, rfl⟩ => nofun
  | _ :: _, _, _, ⟨_, _, _, _, rfl, h, hs⟩ => List.forall_mem_append.2 ⟨h.lt, hs.lt⟩

end

mutual

/-- A tree is kept if its nodes are not changed. -/
theorem Spans.congr (hsize : a.size ≤ a'.size) : ∀ {t : Tree Label} {id : Nat} {places : List Nat},
    a.Spans t id places → (∀ y ∈ places, a'.node y = a.node y) → a'.Spans t id places
  | .node _ _, _, _, ⟨hid, hl, below, rfl, h⟩, hsame => by
    obtain ⟨hid', hbelow⟩ := List.forall_mem_cons.1 hsame
    obtain ⟨hlabel, hchild, -⟩ := node_eq_iff.1 hid'
    refine ⟨Nat.lt_of_lt_of_le hid hsize, hlabel.trans hl, below, rfl, ?_⟩
    rw [hchild]
    exact h.congr hsize hbelow

/-- Trees keep their places as long as the nodes there stay as they are. -/
theorem SpansAll.congr (hsize : a.size ≤ a'.size) :
    ∀ {ts : List (Tree Label)} {link : Option Nat} {places : List Nat},
      a.SpansAll ts link places → (∀ y ∈ places, a'.node y = a.node y) → a'.SpansAll ts link places
  | [], _, _, h, _ => h
  | _ :: _, _, _, ⟨id, inside, behind, rfl, rfl, h, hs⟩, hsame => by
    obtain ⟨hinside, hbehind⟩ := List.forall_mem_append.1 hsame
    refine ⟨id, inside, behind, rfl, rfl, h.congr hsize hinside, ?_⟩
    rw [(node_eq_iff.1 (hinside id h.mem)).2.2]
    exact hs.congr hsize hbehind

end

mutual

/-- A tree unfolds from its root. -/
theorem Spans.unfolds : ∀ {t : Tree Label} {id : Nat} {places : List Nat},
    a.Spans t id places → a.Unfolds Set.univ t id
  | .node _ _, _, _, ⟨hid, hl, _, _, h⟩ => ⟨trivial, hid, hl, h.unfolds⟩

/-- Trees unfold from the link to the first one. -/
theorem SpansAll.unfolds : ∀ {ts : List (Tree Label)} {link : Option Nat} {places : List Nat},
    a.SpansAll ts link places → a.UnfoldsAll Set.univ ts link
  | [], _, _, ⟨hlink, _⟩ => hlink
  | _ :: _, _, _, ⟨id, _, _, hlink, _, h, hs⟩ => ⟨id, hlink, h.unfolds, hs.unfolds⟩

end

/-! ### The arena of a tree -/

/-- The trees have their roots at `ids`, which may be linked in any way, and their nodes at
    `places`. -/
def SpansEach (a : Arena) : List (Tree Label) → List Nat → List Nat → Prop
  | [], [], places => places = []
  | t :: ts, id :: ids, places => ∃ inside behind, places = inside ++ behind ∧
    a.Spans t id inside ∧ a.SpansEach ts ids behind
  | _, _, _ => False

/-- The places of trees apart from each other are nodes of the arena. -/
theorem SpansEach.lt {ts : List (Tree Label)} {ids places : List Nat}
    (h : a.SpansEach ts ids places) : ∀ y ∈ places, y < a.size := by
  fun_induction SpansEach a ts ids places with
  | case1 => exact h ▸ nofun
  | case2 t ts id ids places ih =>
    obtain ⟨inside, behind, rfl, ht, hts⟩ := h
    exact List.forall_mem_append.2 ⟨ht.lt, ih behind hts⟩
  | case3 => exact h.elim

/-- The roots are among the nodes, and as many. -/
theorem SpansEach.sublist {ts : List (Tree Label)} {ids places : List Nat}
    (h : a.SpansEach ts ids places) : ids.Sublist places := by
  fun_induction SpansEach a ts ids places with
  | case1 => exact List.nil_sublist _
  | case2 t ts id ids places ih =>
    obtain ⟨inside, behind, rfl, ht, hts⟩ := h
    exact (List.singleton_sublist.2 ht.mem).append (ih behind hts)
  | case3 => exact h.elim

/-- Trees are linked to each other by setting the siblings of their roots. -/
theorem SpansEach.spansAll (hsize : a.size ≤ a'.size) {ts : List (Tree Label)}
    {ids places : List Nat} {link : Option Nat} (h : a.SpansEach ts ids places)
    (hnodup : places.Nodup)
    (hkept : ∀ y ∈ places, a'.label y = a.label y ∧ a'.child y = a.child y)
    (hsibling : ∀ y ∈ places, y ∉ ids → a'.sibling y = a.sibling y) (hchain : a'.Chain link ids) :
    a'.SpansAll ts link places := by
  fun_induction SpansEach a ts ids places generalizing link with
  | case1 => exact ⟨hchain, h⟩
  | case2 t ts id ids places ih =>
    obtain ⟨inside, behind, rfl, ht, hts⟩ := h
    obtain ⟨hinside, hbehind⟩ := List.forall_mem_append.1 hkept
    obtain ⟨hsinside, hsbehind⟩ := List.forall_mem_append.1 hsibling
    obtain ⟨hnodup, hnodup', hdisj⟩ := List.nodup_append.1 hnodup
    refine ⟨id, inside, behind, hchain.1, rfl, ?_, ih behind hts hnodup' hbehind ?_ hchain.2⟩
    · cases t with
      | node l cs =>
        -- the nodes below the root are not changed at all
        obtain ⟨hid, hl, below, rfl, hcs⟩ := ht
        obtain ⟨hlabel, hchild⟩ := hinside id (.head _)
        refine ⟨Nat.lt_of_lt_of_le hid hsize, hlabel.trans hl, below, rfl, ?_⟩
        rw [hchild]
        refine hcs.congr hsize fun y hy => node_eq_iff.2
          ⟨(hinside y (.tail _ hy)).1, (hinside y (.tail _ hy)).2, hsinside y (.tail _ hy) ?_⟩
        refine List.not_mem_cons_of_ne_of_not_mem (fun heq => ?_) fun hmem => ?_
        · exact (List.nodup_cons.1 hnodup).1 (heq ▸ hy)
        · exact hdisj y (.tail _ hy) y (hts.sublist.subset hmem) rfl
    · refine fun y hy hmem => hsbehind y hy (List.not_mem_cons_of_ne_of_not_mem (fun heq => ?_) hmem)
      exact hdisj id ht.mem y hy heq.symm
  | case3 => exact h.elim

/-- The arena `a'` comes from `a` by new nodes. -/
structure Extends (a a' : Arena) : Prop where
  size_le : a.size ≤ a'.size
  node_eq : ∀ y < a.size, a'.node y = a.node y

theorem Extends.refl (a : Arena) : Extends a a :=
  ⟨Nat.le_refl _, fun _ _ => rfl⟩

/-- What extends an extension extends the arena. -/
theorem Extends.trans (h : Extends a a') (h' : Extends a' a'') : Extends a a'' :=
  ⟨Nat.le_trans h.size_le h'.size_le,
    fun y hy => (h'.node_eq y (Nat.lt_of_lt_of_le hy h.size_le)).trans (h.node_eq y hy)⟩

/-- A tree is kept when nodes are added. -/
theorem Spans.extends {t : Tree Label} {id : Nat} {places : List Nat} (h : a.Spans t id places)
    (h' : Extends a a') : a'.Spans t id places :=
  h.congr h'.size_le fun y hy => h'.node_eq y (h.lt y hy)

/-- A new node over trees that are not linked yet makes a tree with them. -/
theorem SpansEach.alloc {ts : List (Tree Label)} {ids places : List Nat} (l : Label)
    (h : a.SpansEach ts ids places) (hnodup : places.Nodup) :
    Spans ((a.alloc l).setChildren a.size ids) (.node l ts) a.size (a.size :: places) := by
  have hid : a.size < (a.alloc l).size := by simp
  have hids (y) (hy : y ∈ ids) : y < (a.alloc l).size :=
    Nat.lt_trans (h.lt y (h.sublist.subset hy)) hid
  refine ⟨by simp, by rw [label_setChildren, label_alloc, if_pos rfl], places, rfl, ?_⟩
  refine h.spansAll (by simp) hnodup (fun y hy => ?_) (fun y _ hy => ?_)
    (chain_setChildren hid hids (hnodup.sublist h.sublist))
  · have hne := Nat.ne_of_lt (h.lt y hy)
    rw [label_setChildren, label_alloc, if_neg hne, child_setChildren hid, if_neg hne, child_alloc]
    exact ⟨rfl, rfl⟩
  · rw [sibling_setChildren_of_not_mem hids hy, sibling_alloc]

mutual

/-- The nodes that a tree is added as are new and make that tree. -/
theorem graft_spans (a : Arena) : ∀ t, Extends a (a.graft t).2 ∧ ∃ places,
    (a.graft t).2.Spans t (a.graft t).1 places ∧ places.Nodup ∧ ∀ y ∈ places, a.size ≤ y
  | .node l ts => by
    obtain ⟨hext, places, hspans, hnodup, hfresh⟩ := graftAll_spans a ts
    simp only [graft, nextId_eq_size]
    generalize a.graftAll ts = r at hext hspans
    obtain ⟨ids, a₁⟩ := r
    have hsize : a.size ≤ a₁.size := hext.size_le
    refine ⟨⟨by simp; omega, fun y hy => ?_⟩, a₁.size :: places, hspans.alloc l hnodup, ?_, ?_⟩
    · -- the new node links new nodes only
      have hids (i) (hi : i ∈ ids) : i < (a₁.alloc l).size := by
        have hi : i < a₁.size := hspans.lt i (hspans.sublist.subset hi)
        simp only [size_alloc]
        omega
      have hy' : y ∉ a₁.size :: ids := List.not_mem_cons_of_ne_of_not_mem (by omega)
        fun hmem => Nat.not_le.2 hy (hfresh y (hspans.sublist.subset hmem))
      rw [node_setChildren_of_not_mem (by simp) hids hy', node_alloc_of_lt _ (by omega),
        hext.node_eq y hy]
    · exact List.nodup_cons.2 ⟨fun hmem => Nat.lt_irrefl _ (hspans.lt _ hmem), hnodup⟩
    · exact List.forall_mem_cons.2 ⟨hext.size_le, hfresh⟩

/-- The nodes that several trees are added as are new and make those trees. -/
theorem graftAll_spans (a : Arena) : ∀ ts, Extends a (a.graftAll ts).2 ∧ ∃ places,
    (a.graftAll ts).2.SpansEach ts (a.graftAll ts).1 places ∧ places.Nodup ∧
      ∀ y ∈ places, a.size ≤ y
  | [] => ⟨.refl a, [], rfl, .nil, nofun⟩
  | t :: ts => by
    obtain ⟨hext, inside, ht, hnodup, hfresh⟩ := graft_spans a t
    simp only [graftAll]
    generalize a.graft t = r at hext ht
    obtain ⟨id, a₁⟩ := r
    obtain ⟨hext', behind, hts, hnodup', hfresh'⟩ := graftAll_spans a₁ ts
    generalize a₁.graftAll ts = r at hext' hts
    obtain ⟨ids, a₂⟩ := r
    refine ⟨hext.trans hext', inside ++ behind, ⟨inside, behind, rfl, ht.extends hext', hts⟩,
      List.nodup_append.2 ⟨hnodup, hnodup', fun y hy z hz heq => ?_⟩, ?_⟩
    · -- the second tree comes behind all nodes of the first
      exact Nat.not_le.2 (ht.lt y hy) (heq ▸ hfresh' z hz)
    · exact List.forall_mem_append.2 ⟨hfresh, fun y hy => Nat.le_trans hext.size_le (hfresh' y hy)⟩

end

/-- Every tree is that of an arena. -/
theorem isTree_ofTree (t : Tree Label) : (ofTree t).IsTree t := by
  obtain ⟨hext, places, hspans, hnodup, -⟩ := graft_spans empty t
  have hsame : Extends (empty.graft t).2 (ofTree t) := ⟨Nat.le_refl _, fun _ _ => rfl⟩
  exact ⟨_, places, rfl, hspans.extends hsame, hnodup⟩

end Rpal.Arena
