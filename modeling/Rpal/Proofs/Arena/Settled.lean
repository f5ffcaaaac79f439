import Rpal.Proofs.Arena.Standardize

/-!
# Settled nodes

A node is settled if no rule stops at it or below it. This is so once the rules have been applied,
because lambdas are the only nodes left that have a rule. Applying the rules again does not leave the
nodes as they are: a lambda with more than two children is nested. But this only relinks settled
nodes to settled ones, and nodes that have a sibling go on to have one.

## Key results

- `Resettled`: what becomes of an arena when the rules are applied to settled nodes
- `visit_resettled`: settled nodes can be visited over and over
- `visit_chain`: so can siblings that have settled nodes below them
-/

namespace Rpal.Arena

variable {a a' a'' : Arena} {S S' S'' T O P : Set Nat} {id : Nat} {ids : List Nat}
  {link : Option Nat}

/-- There are no nodes behind an empty link. -/
theorem chain_nil : a.Chain link [] ↔ link = none := Iff.rfl

/-! ### Changes -/

/-- The arena `a'` comes from `a` by changes outside of `O`. -/
structure Spares (a a' : Arena) (O : Set Nat) : Prop where
  root_eq : a'.root = a.root
  mark_eq : a'.standardized = a.standardized
  size_le : a.size ≤ a'.size
  node_eq : ∀ y ∈ O, a'.node y = a.node y

theorem Spares.refl (a : Arena) (O : Set Nat) : Spares a a O :=
  ⟨rfl, rfl, Nat.le_refl _, fun _ _ => rfl⟩

/-- What two changes spare, both together spare. -/
theorem Spares.trans (h : Spares a a' O) (h' : Spares a' a'' O) : Spares a a'' O :=
  ⟨h'.root_eq.trans h.root_eq, h'.mark_eq.trans h.mark_eq, Nat.le_trans h.size_le h'.size_le,
    fun y hy => (h'.node_eq y hy).trans (h.node_eq y hy)⟩

/-- A change spares every part of what it spares. -/
theorem Spares.mono (h : Spares a a' O) (hO : P ⊆ O) : Spares a a' P :=
  ⟨h.root_eq, h.mark_eq, h.size_le, fun y hy => h.node_eq y (hO hy)⟩

/-! ### Settled nodes -/

/-- The rule for the node does not stop: there is none, or the node is a lambda with a parameter and
    a body. -/
def Passes (a : Arena) (id : Nat) : Prop :=
  (a.kind id).hasRule = false ∨
    a.kind id = .lambda ∧ ∃ v, a.child id = some v ∧ (a.sibling v).isSome

/-- No rule stops at the nodes in `S`, and their links lead to nodes in `S` only. -/
structure Settled (a : Arena) (S : Set Nat) : Prop where
  lt : ∀ y ∈ S, y < a.size
  child : ∀ y ∈ S, ∀ z, a.child y = some z → z ∈ S
  sibling : ∀ y ∈ S, ∀ z, a.sibling y = some z → z ∈ S
  passes : ∀ y ∈ S, a.Passes y

/-- The rule for the node does not stop, and what is below the node is settled. Its sibling may be
    any node. -/
structure Clear (a : Arena) (S : Set Nat) (id : Nat) : Prop where
  passes : a.Passes id
  child : ∀ v, a.child id = some v → v ∈ S

/-- A settled node is clear of what is not settled. -/
theorem Settled.clear (h : a.Settled S) (hid : id ∈ S) : a.Clear S id :=
  ⟨h.passes id hid, h.child id hid⟩

/-- A node is clear among more settled nodes. -/
theorem Clear.mono (h : a.Clear S id) (hS : S ⊆ T) : a.Clear T id :=
  ⟨h.passes, fun v hv => hS (h.child v hv)⟩

/-- No nodes are settled at first. -/
theorem settled_empty (a : Arena) : a.Settled ∅ where
  lt y hy := absurd hy (Set.notMem_empty y)
  child y hy := absurd hy (Set.notMem_empty y)
  sibling y hy := absurd hy (Set.notMem_empty y)
  passes y hy := absurd hy (Set.notMem_empty y)

/-- Settled nodes are settled together. -/
theorem Settled.union (h : a.Settled S) (h' : a.Settled T) : a.Settled (S ∪ T) where
  lt y hy := hy.elim (h.lt y) (h'.lt y)
  child y hy z hz := hy.imp (fun hy => h.child y hy z hz) fun hy => h'.child y hy z hz
  sibling y hy z hz := hy.imp (fun hy => h.sibling y hy z hz) fun hy => h'.sibling y hy z hz
  passes y hy := hy.elim (h.passes y) (h'.passes y)

/-- Whether a rule stops depends on the node and on whether its first child has a sibling. -/
theorem Passes.congr (h : a.Passes id) (hlabel : a'.label id = a.label id)
    (hchild : a'.child id = a.child id)
    (hsibling : ∀ v, a.child id = some v → (a.sibling v).isSome → (a'.sibling v).isSome) :
    a'.Passes id := by
  have hkind : a'.kind id = a.kind id := congrArg Label.kind hlabel
  rw [Passes, hkind, hchild]
  exact h.imp_right fun ⟨hlambda, v, hv, hs⟩ => ⟨hlambda, v, hv, hsibling v hv hs⟩

/-- Settled nodes that are not changed stay settled. -/
theorem Settled.congr (h : a.Settled S) (hsize : a.size ≤ a'.size)
    (hnode : ∀ y ∈ S, a'.node y = a.node y) : a'.Settled S where
  lt y hy := Nat.lt_of_lt_of_le (h.lt y hy) hsize
  child y hy z hz := h.child y hy z ((node_eq_iff.1 (hnode y hy)).2.1 ▸ hz)
  sibling y hy z hz := h.sibling y hy z ((node_eq_iff.1 (hnode y hy)).2.2 ▸ hz)
  passes y hy := by
    obtain ⟨hlabel, hchild, -⟩ := node_eq_iff.1 (hnode y hy)
    refine (h.passes y hy).congr hlabel hchild fun v hv hs => ?_
    rwa [(node_eq_iff.1 (hnode v (h.child y hy v hv))).2.2]

/-- A node stays clear if its label, its child and the settled nodes stay. -/
theorem Clear.congr (h : a.Clear S id) (hlabel : a'.label id = a.label id)
    (hchild : a'.child id = a.child id) (hnode : ∀ y ∈ S, a'.node y = a.node y) :
    a'.Clear S id := by
  refine ⟨h.passes.congr hlabel hchild fun v hv hs => ?_, fun v hv => h.child v (hchild ▸ hv)⟩
  rwa [(node_eq_iff.1 (hnode v (h.child v hv))).2.2]

/-- The arena `a'` comes from `a`, in which `S` is settled, by nesting and linking settled nodes. The
    settled nodes of `a'` are those and new ones. -/
structure Resettled (a a' : Arena) (S S' : Set Nat) : Prop where
  settled : a'.Settled S'
  root_eq : a'.root = a.root
  mark_eq : a'.standardized = a.standardized
  size_le : a.size ≤ a'.size
  subset : S ⊆ S'
  fresh : ∀ y ∈ S', y ∈ S ∨ a.size ≤ y
  label_eq : ∀ y < a.size, a'.label y = a.label y
  child_eq : ∀ y < a.size, a'.child y = a.child y
  sibling_eq : ∀ y < a.size, y ∉ S → a'.sibling y = a.sibling y
  isSome_sibling : ∀ y < a.size, (a'.sibling y).isSome = (a.sibling y).isSome

theorem Resettled.refl (h : a.Settled S) : Resettled a a S S where
  settled := h
  root_eq := rfl
  mark_eq := rfl
  size_le := Nat.le_refl _
  subset := Set.Subset.refl S
  fresh _ hy := .inl hy
  label_eq _ _ := rfl
  child_eq _ _ := rfl
  sibling_eq _ _ _ := rfl
  isSome_sibling _ _ := rfl

/-- Nodes can be settled in two stages. -/
theorem Resettled.trans (h : Resettled a a' S S') (h' : Resettled a' a'' S' S'') :
    Resettled a a'' S S'' where
  settled := h'.settled
  root_eq := h'.root_eq.trans h.root_eq
  mark_eq := h'.mark_eq.trans h.mark_eq
  size_le := Nat.le_trans h.size_le h'.size_le
  subset := h.subset.trans h'.subset
  fresh y hy := by
    obtain hy | hle := h'.fresh y hy
    · exact h.fresh y hy
    · exact .inr (Nat.le_trans h.size_le hle)
  label_eq y hy := (h'.label_eq y (Nat.lt_of_lt_of_le hy h.size_le)).trans (h.label_eq y hy)
  child_eq y hy := (h'.child_eq y (Nat.lt_of_lt_of_le hy h.size_le)).trans (h.child_eq y hy)
  sibling_eq y hy hS := by
    have hS' : y ∉ S' := fun hmem => (h.fresh y hmem).elim hS (Nat.not_le.2 hy)
    exact (h'.sibling_eq y (Nat.lt_of_lt_of_le hy h.size_le) hS').trans (h.sibling_eq y hy hS)
  isSome_sibling y hy :=
    (h'.isSome_sibling y (Nat.lt_of_lt_of_le hy h.size_le)).trans (h.isSome_sibling y hy)

/-- What is not settled does not become so. -/
theorem Resettled.notMem (h : Resettled a a' S S') (hid : id < a.size) (hS : id ∉ S) : id ∉ S' :=
  fun hmem => (h.fresh id hmem).elim hS (Nat.not_le.2 hid)

/-- A rule that does not stop goes on not to. -/
theorem Resettled.clear (h : Resettled a a' S S') (ha : a.Settled S) (hid : id < a.size)
    (hclear : a.Clear S id) : a'.Clear S' id := by
  refine ⟨hclear.passes.congr (h.label_eq id hid) (h.child_eq id hid) fun v hv hs => ?_, ?_⟩
  · rwa [h.isSome_sibling v (ha.lt v (hclear.child v hv))]
  · intro v hv
    rw [h.child_eq id hid] at hv
    exact h.subset (hclear.child v hv)

/-- A chain of nodes that are not settled is kept. -/
theorem Resettled.chain (h : Resettled a a' S S') (hids : ∀ y ∈ ids, y < a.size ∧ y ∉ S)
    (hchain : a.Chain link ids) : a'.Chain link ids :=
  hchain.congr fun y hy => h.sibling_eq y (hids y hy).1 (hids y hy).2

/-- A settled node that has a sibling gets another one. -/
theorem resettled_setSibling {y z : Nat} (h : a.Settled S) (hy : y ∈ S)
    (hsome : (a.sibling y).isSome) (hz : z ∈ S) : Resettled a (a.setSibling y (some z)) S S := by
  have hsibling := sibling_setSibling (h.lt y hy) (some z)
  -- that a node passes depends on whether its child has a sibling, and not on which one it has
  have hisSome (x : Nat) : ((a.setSibling y (some z)).sibling x).isSome = (a.sibling x).isSome := by
    rw [hsibling]
    split
    · next heq => rw [heq, hsome, Option.isSome_some]
    · rfl
  refine { Resettled.refl h with
    settled := ⟨fun x hx => ?_, fun x hx w hw => ?_, fun x hx w hw => ?_, fun x hx => ?_⟩
    size_le := Nat.le_of_eq (size_setSibling ..).symm
    label_eq := fun x _ => label_setSibling ..
    child_eq := fun x _ => child_setSibling ..
    sibling_eq := fun x _ hx => ?_
    isSome_sibling := fun x _ => hisSome x }
  · rw [size_setSibling]
    exact h.lt x hx
  · rw [child_setSibling] at hw
    exact h.child x hx w hw
  · rw [hsibling] at hw
    split at hw
    · exact Option.some.inj hw ▸ hz
    · exact h.sibling x hx w hw
  · refine (h.passes x hx).congr (label_setSibling ..) (child_setSibling ..) fun v _ hs => ?_
    rwa [hisSome]
  · rw [hsibling, if_neg fun heq : x = y => hx (heq ▸ hy)]

/-- A new lambda over a settled node that has a sibling is settled. -/
theorem resettled_alloc_lambda {y : Nat} {l : Label} (h : a.Settled S) (hy : y ∈ S)
    (hsome : (a.sibling y).isSome) (hl : l.kind = .lambda) :
    Resettled a ((a.alloc l).setChild a.size (some y)) S (insert a.size S) := by
  have hlabel (x : Nat) (hx : x < a.size) :
      ((a.alloc l).setChild a.size (some y)).label x = a.label x := by
    rw [label_setChild, label_alloc, if_neg (Nat.ne_of_lt hx)]
  have hchild (x : Nat) : ((a.alloc l).setChild a.size (some y)).child x =
      if x = a.size then some y else a.child x := by
    rw [child_setChild (by simp), child_alloc]
  have hsibling (x : Nat) :
      ((a.alloc l).setChild a.size (some y)).sibling x = a.sibling x := by
    rw [sibling_setChild, sibling_alloc]
  refine {
    settled := ⟨?_, ?_, ?_, ?_⟩
    root_eq := rfl
    mark_eq := rfl
    size_le := by simp
    subset := Set.subset_insert ..
    fresh := ?_
    label_eq := hlabel
    child_eq := fun x hx => by rw [hchild, if_neg (Nat.ne_of_lt hx)]
    sibling_eq := fun x _ _ => hsibling x
    isSome_sibling := fun x _ => by rw [hsibling] }
  · rintro x (rfl | hx)
    · simp
    · have hlt := h.lt x hx
      simp only [size_setChild, size_alloc]
      omega
  · rintro x hx w hw
    rw [hchild] at hw
    split at hw
    · exact Option.some.inj hw ▸ .inr hy
    · next hne => exact .inr (h.child x (hx.resolve_left hne) w hw)
  · rintro x hx w hw
    rw [hsibling] at hw
    obtain rfl | hx := hx
    · rw [sibling_of_le (Nat.le_refl _)] at hw
      cases hw
    · exact .inr (h.sibling x hx w hw)
  · rintro x (rfl | hx)
    · -- the new lambda passes, because its child has a sibling
      refine .inr ⟨?_, y, ?_, ?_⟩
      · rw [Arena.kind, label_setChild, label_alloc, if_pos rfl, hl]
      · rw [hchild, if_pos rfl]
      · rwa [hsibling]
    · have hlt := h.lt x hx
      refine (h.passes x hx).congr (hlabel x hlt) ?_ fun v _ hs => ?_
      · rw [hchild, if_neg (Nat.ne_of_lt hlt)]
      · rwa [hsibling]
  · rintro x (rfl | hx)
    · exact .inr (Nat.le_refl _)
    · exact .inl hx

end Rpal.Arena

namespace Rpal.Reshape

open Arena

variable {a : Arena} {S : Set Nat} {id : Nat} {ids : List Nat} {link : Option Nat}

/-! ### Rules for settled nodes -/

/-- Nesting settled nodes leaves them settled. -/
theorem nestLambdas_resettled (n : Nat) (h : a.Settled S) (hid : id ∈ S) :
    ∃ root a' S', nestLambdas n id a = .ok root a' ∧ Resettled a a' S S' ∧ root ∈ S' := by
  induction n generalizing a S id with
  | zero => exact ⟨id, a, S, rfl, .refl h, hid⟩
  | succ n ih =>
    simp only [nestLambdas, bind_apply, sibling_apply]
    cases hs : a.sibling id with
    | none => exact ⟨id, a, S, rfl, .refl h, hid⟩
    | some next =>
      have hlambda := resettled_alloc_lambda (l := (a.label id).beside .lambda) h hid
        (by rw [hs, Option.isSome_some]) rfl
      have hnext := hlambda.subset (h.sibling id hid next hs)
      obtain ⟨body, a₂, S₂, hrun, hbody, hmem⟩ := ih hlambda.settled hnext
      have h₂ := hlambda.trans hbody
      have hsome : (a₂.sibling id).isSome := by
        rw [h₂.isSome_sibling id (h.lt id hid), hs, Option.isSome_some]
      have h₃ := resettled_setSibling hbody.settled (h₂.subset hid) hsome hmem
      refine ⟨a.size, _, S₂, ?_, h₂.trans h₃, hbody.subset (Set.mem_insert ..)⟩
      simp only [bind_apply, allocBeside_apply, setChild_apply, hrun, setSibling_apply, pure_apply]

/-- The rule for a node that it does not stop at. -/
theorem rule_resettled (h : a.Settled S) (hclear : a.Clear S id) :
    ∃ a' S', rule id a = .ok () a' ∧ Resettled a a' S S' := by
  obtain hrule | ⟨hlambda, v, hv, hsome⟩ := hclear.passes
  · exact ⟨a, S, rule_of_hasRule_eq_false hrule, .refl h⟩
  · obtain ⟨rest, hrest⟩ := Option.isSome_iff_exists.1 hsome
    have hvmem := hclear.child v hv
    obtain ⟨root, a₁, S₁, hrun, h₁, hroot⟩ :=
      nestLambdas_resettled a.size h (h.sibling v hvmem rest hrest)
    have hsome₁ : (a₁.sibling v).isSome := by rwa [h₁.isSome_sibling v (h.lt v hvmem)]
    have h₂ := resettled_setSibling h₁.settled (h₁.subset hvmem) hsome₁ hroot
    refine ⟨_, S₁, ?_, h₁.trans h₂⟩
    rw [rule_apply, hlambda]
    simp only [lambdaRule, bind_apply, get_apply, child_apply, hv, need_some, sibling_apply, hrest,
      curry, hrun, setSibling_apply]

/-- Settled nodes can be visited, with any bound. -/
theorem visit_resettled (n : Nat) (h : a.Settled S) (hlink : ∀ y, link = some y → y ∈ S) :
    ∃ a' S', visit n link a = .ok () a' ∧ Resettled a a' S S' := by
  induction n generalizing a S link with
  | zero => cases link <;> exact ⟨a, S, rfl, .refl h⟩
  | succ n ih =>
    cases link with
    | none => exact ⟨a, S, rfl, .refl h⟩
    | some id =>
      have hid := hlink id rfl
      obtain ⟨a₁, S₁, hrun₁, h₁⟩ := ih h (h.child id hid)
      obtain ⟨a₂, S₂, hrun₂, h₂⟩ :=
        rule_resettled h₁.settled (h₁.settled.clear (h₁.subset hid))
      obtain ⟨a₃, S₃, hrun₃, h₃⟩ :=
        ih h₂.settled (h₂.settled.sibling id (h₂.subset (h₁.subset hid)))
      refine ⟨a₃, S₃, ?_, (h₁.trans h₂).trans h₃⟩
      simp only [visit, bind_apply, child_apply, hrun₁, hrun₂, sibling_apply, hrun₃]

/-- A node over settled nodes is left as it is, and so is what is behind it. -/
theorem visit_clear {n : Nat} (h : a.Settled S) (hid : id < a.size) (hS : id ∉ S)
    (hclear : a.Clear S id) : ∃ a' S', Resettled a a' S S' ∧
      visit (n + 1) (some id) a = visit n (a.sibling id) a' := by
  obtain ⟨a₁, S₁, hrun₁, h₁⟩ := visit_resettled n h hclear.child
  obtain ⟨a₂, S₂, hrun₂, h₂⟩ := rule_resettled h₁.settled (h₁.clear h hid hclear)
  have h₁₂ := h₁.trans h₂
  refine ⟨a₂, S₂, h₁₂, ?_⟩
  simp only [visit, bind_apply, child_apply, hrun₁, hrun₂, sibling_apply, h₁₂.sibling_eq id hid hS]

/-- A chain of nodes over settled nodes can be visited, with any bound. -/
theorem visit_chain (n : Nat) (h : a.Settled S) (hchain : a.Chain link ids)
    (hids : ∀ y ∈ ids, y < a.size ∧ y ∉ S) (hclear : ∀ y ∈ ids, a.Clear S y) :
    ∃ a' S', visit n link a = .ok () a' ∧ Resettled a a' S S' := by
  induction n generalizing a S link ids with
  | zero => cases link <;> exact ⟨a, S, rfl, .refl h⟩
  | succ n ih =>
    cases ids with
    | nil =>
      obtain rfl := hchain
      exact ⟨a, S, rfl, .refl h⟩
    | cons id ids =>
      obtain ⟨rfl, hchain⟩ := hchain
      obtain ⟨hid, hids⟩ := List.forall_mem_cons.1 hids
      obtain ⟨hclear, hclears⟩ := List.forall_mem_cons.1 hclear
      -- the first node is settled by its visit, and the others are as clear as they were
      obtain ⟨a₁, S₁, h₁, hrun⟩ := visit_clear (n := n) h hid.1 hid.2 hclear
      obtain ⟨a₂, S₂, hrun₂, h₂⟩ := ih h₁.settled (h₁.chain hids hchain)
        (fun y hy => ⟨Nat.lt_of_lt_of_le (hids y hy).1 h₁.size_le,
          h₁.notMem (hids y hy).1 (hids y hy).2⟩)
        (fun y hy => h₁.clear h (hids y hy).1 (hclears y hy))
      exact ⟨a₂, S₂, hrun.trans hrun₂, h₁.trans h₂⟩

end Rpal.Reshape
