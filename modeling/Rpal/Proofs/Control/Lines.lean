import Rpal.Proofs.Control.Exact
import Rpal.Proofs.Machine.Invariant
import Rpal.Proofs.Tree.Lines

/-!
# Lines of the control structures

A delta has the line of the body of its lambda, a beta that of its conditional, and an item for a node
that of the node. So the control structures of a program are on the lines of its tree.

## Key results

- `Control.EmitsBodies.lined`: what flattening makes is on the lines of the tree
- `Program.onLines_of_ofTree`: the nodes, deltas, betas and items of a program
-/

namespace Rpal

open Rpal.Tree

namespace Arena

variable {a : Arena} {F : Set Nat} {t : Tree Label}

/-- The node is found by going from the root to children, again and again. -/
inductive Reaches (a : Arena) : Nat → Prop where
  | root {id} : a.root = some id → Reaches a id
  | child {id y} : Reaches a id → y ∈ a.children id → Reaches a y

/-- Every node that is found unfolds to a part of the tree at the root. What holds of a tree and
    carries over to its parts holds of what the node unfolds to. -/
theorem Reaches.exists_unfolds {P : Tree Label → Prop} {root id : Nat} (h : a.Reaches id)
    (hroot : a.root = some root) (hunfolds : a.Unfolds F t root) (ht : P t)
    (hP : ∀ l ts, P (.node l ts) → ∀ u ∈ ts, P u) : ∃ u, a.Unfolds F u id ∧ P u := by
  induction h with
  | root hid =>
    obtain rfl := Option.some.inj (hroot.symm.trans hid)
    exact ⟨t, hunfolds, ht⟩
  | @child id y _ hy ih =>
    obtain ⟨⟨l, ts⟩, hu, hPu⟩ := ih
    obtain ⟨i, hi, rfl⟩ := List.mem_iff_getElem.1 hy
    obtain ⟨-, hids⟩ := hu.children
    have hi' : i < ts.length := hids.length_eq ▸ hi
    exact ⟨ts[i], List.Forall₂.get hids hi' hi, hP l ts hPu _ (List.getElem_mem hi')⟩

/-- A node that unfolds to a tree on lines of `S` is on such a line. -/
theorem Unfolds.onLine {S : Nat → Prop} {id : Nat} (h : a.Unfolds F t id) (hS : t.OnLines S) :
    S (a.line id) := by
  rw [Arena.line, h.label_eq]
  exact hS.label

/-- Every node that is found is on a line of `S` if the tree at the root is. -/
theorem Reaches.onLine {S : Nat → Prop} {root id : Nat} (h : a.Reaches id)
    (hroot : a.root = some root) (hunfolds : a.Unfolds F t root) (hS : t.OnLines S) :
    S (a.line id) := by
  obtain ⟨u, hu, hSu⟩ := h.exists_unfolds (P := OnLines S) hroot hunfolds hS
    fun l ts h => (onLines_node.1 h).2
  exact hu.onLine hSu

end Arena

/-- The nodes, deltas and betas of the program are on lines of `S`. -/
structure Program.OnLines (S : Nat → Prop) (p : Program) : Prop where
  node : ∀ id, p.arena.Reaches id → S (p.arena.line id)
  size_pos : 0 < p.control.deltas.size
  delta : ∀ k < p.control.deltas.size, S (p.control.delta k).line
  beta : ∀ j < p.control.betas.size, S (p.control.beta j).line
  items : ∀ i ∈ p.control.items, S (p.lineOf i)

namespace Control

variable {S : Nat → Prop} {p : Program} {F : Set Nat} {places : List Nat}

/-- The deltas from `n` up to `n'` are for bodies on lines of `S`, whose places are known, and the betas
    from `b` up to `b'` and the items of their branches are on such lines. -/
structure Lined (S : Nat → Prop) (p : Program) (F : Set Nat) (places : List Nat)
    (n b n' b' : Nat) : Prop where
  delta : ∀ k, n ≤ k → k < n' → ∃ id t, places[k]? = some id ∧ p.arena.Unfolds F t id ∧
    t.OnLines S ∧ (p.control.delta k).line = p.arena.line id
  beta : ∀ j, b ≤ j → j < b' → S (p.control.beta j).line ∧
    ∀ i ∈ (p.control.beta j).whenTrue ++ (p.control.beta j).whenFalse, S (p.lineOf i)

/-- No deltas and betas are on lines where there are none. -/
theorem Lined.self (n b : Nat) : Lined S p F places n b n b where
  delta _ hk hk' := absurd hk (Nat.not_le_of_lt hk')
  beta _ hj hj' := absurd hj (Nat.not_le_of_lt hj')

/-- Deltas and betas that are added in two stages are all on their lines. -/
theorem Lined.trans {n b n₁ b₁ n' b' : Nat} (h : Lined S p F places n b n₁ b₁)
    (h' : Lined S p F places n₁ b₁ n' b') : Lined S p F places n b n' b' where
  delta k hk hk' := (Nat.lt_or_ge k n₁).elim (h.delta k hk) fun hk₁ => h'.delta k hk₁ hk'
  beta j hj hj' := (Nat.lt_or_ge j b₁).elim (h.beta j hj) fun hj₁ => h'.beta j hj₁ hj'

/-- One delta. -/
theorem Lined.ofDelta {n b id : Nat} {t : Tree Label} (hplace : places[n]? = some id)
    (h : p.arena.Unfolds F t id) (hS : t.OnLines S)
    (hline : (p.control.delta n).line = p.arena.line id) :
    Lined S p F places n b (n + 1) b := by
  refine ⟨fun k hk hk' => ?_, fun j hj hj' => absurd hj (Nat.not_le_of_lt hj')⟩
  obtain rfl : k = n := by omega
  exact ⟨id, t, hplace, h, hS, hline⟩

/-- One beta. -/
theorem Lined.ofBeta {n j : Nat} (hline : S (p.control.beta j).line)
    (hitems : ∀ i ∈ (p.control.beta j).whenTrue ++ (p.control.beta j).whenFalse, S (p.lineOf i)) :
    Lined S p F places n j n (j + 1) := by
  refine ⟨fun k hk hk' => absurd hk (Nat.not_le_of_lt hk'), fun i hi hi' => ?_⟩
  obtain rfl : i = j := by omega
  exact ⟨hline, hitems⟩

mutual

/-- What is made for a node is on lines of the tree that the node unfolds to. -/
theorem Emits.lined : ∀ {t : Tree Label} {id n b n' b' : Nat} {code : List ControlItem},
    Emits p.arena p.control places id n b code n' b' → p.arena.Unfolds F t id → t.OnLines S →
      Lined S p F places n b n' b' ∧ ∀ i ∈ code, S (p.lineOf i)
  | .node l ts, _, n, _, _, _, _, .lambda _ hchildren hplace _ _ _ hline, h, hS => by
    obtain ⟨-, hids⟩ := h.children
    rw [hchildren] at hids
    obtain - | ⟨_, - | ⟨hue, hnil⟩⟩ := hids
    cases hnil
    have hbody := (onLines_node.1 hS).2 _ (List.mem_cons_of_mem _ List.mem_cons_self)
    have hdelta : S (p.control.delta n).line := by
      rw [hline]
      exact hue.onLine hbody
    exact ⟨.ofDelta hplace hue hbody hline, List.forall_mem_singleton.2 hdelta⟩
  | .node l ts, id, _, _, _, _, _, .conditional (j := j) _ hchildren h₁ h₂ _ hbeta hp, h, hS => by
    have hid := h.onLine hS
    obtain ⟨-, hids⟩ := h.children
    rw [hchildren] at hids
    obtain - | ⟨hup, - | ⟨hu₁, - | ⟨hu₂, hnil⟩⟩⟩ := hids
    cases hnil
    have hparts := (onLines_node.1 hS).2
    simp only [List.forall_mem_cons] at hparts
    obtain ⟨hlined₁, hcode₁⟩ := h₁.lined hu₁ hparts.2.1
    obtain ⟨hlined₂, hcode₂⟩ := h₂.lined hu₂ hparts.2.2.1
    obtain ⟨hlined, hcode⟩ := hp.lined hup hparts.1
    have hline : S (p.control.beta j).line := by rwa [hbeta]
    have hbranches : ∀ i ∈ (p.control.beta j).whenTrue ++ (p.control.beta j).whenFalse,
        S (p.lineOf i) := by
      rw [hbeta]
      exact List.forall_mem_append.2 ⟨hcode₁, hcode₂⟩
    -- the beta comes after its branches and before the condition
    have hbefore := (hlined₁.trans hlined₂).trans (.ofBeta hline hbranches)
    exact ⟨hbefore.trans hlined, List.forall_mem_cons.2 ⟨hline, hcode⟩⟩
  | .node l ts, id, _, _, _, _, _, .plain _ _ hs, h, hS => by
    have hid : S (p.lineOf (.node id)) := h.onLine hS
    obtain ⟨-, hids⟩ := h.children
    obtain ⟨hlined, hcodes⟩ := hs.lined hids (onLines_node.1 hS).2
    exact ⟨hlined, List.forall_mem_cons.2 ⟨hid, hcodes⟩⟩

/-- The code of trees on lines is on these lines, with all deltas and betas in it. -/
theorem EmitsAll.lined : ∀ {ts : List (Tree Label)} {ids : List Nat} {n b n' b' : Nat}
    {codes : List ControlItem}, EmitsAll p.arena p.control places ids n b codes n' b' →
      List.Forall₂ (p.arena.Unfolds F) ts ids → (∀ t ∈ ts, t.OnLines S) →
      Lined S p F places n b n' b' ∧ ∀ i ∈ codes, S (p.lineOf i)
  | _, _, n, b, _, _, _, .nil, .nil, _ => ⟨.self n b, List.forall_mem_nil _⟩
  | _, _, _, _, _, _, _, .cons h hs, .cons hu hus, hS => by
    obtain ⟨ht, hts⟩ := List.forall_mem_cons.1 hS
    obtain ⟨hlined, hcode⟩ := h.lined hu ht
    obtain ⟨hlined', hcodes⟩ := hs.lined hus hts
    exact ⟨hlined.trans hlined', List.forall_mem_append.2 ⟨hcode, hcodes⟩⟩

end

/-- What is made for all bodies is on lines of the tree at the first place. The induction carries that
    the bodies still to be flattened are on such lines. -/
theorem EmitsBodies.lined {root index n b : Nat} {t : Tree Label}
    (h : EmitsBodies p.arena p.control places index n b) (hplace : places[0]? = some root)
    (hroot : p.arena.Unfolds F t root) (hS : t.OnLines S) :
    Lined S p F places 0 0 n b ∧ ∀ k < index, ∀ i ∈ (p.control.delta k).body, S (p.lineOf i) := by
  induction h with
  | @zero root' hplace' _ _ _ hline =>
    obtain rfl : root = root' := Option.some.inj (hplace.symm.trans hplace')
    exact ⟨.ofDelta hplace hroot hS hline, fun k hk => absurd hk (Nat.not_lt_zero k)⟩
  | @succ index id n b n' b' _ hlt hid hemits ih =>
    obtain ⟨hlined, hbodies⟩ := ih
    obtain ⟨id', u, hid', hu, hSu, -⟩ := hlined.delta index (Nat.zero_le _) hlt
    obtain rfl : id = id' := Option.some.inj (hid.symm.trans hid')
    obtain ⟨hlined', hcode⟩ := hemits.lined hu hSu
    refine ⟨hlined.trans hlined', fun k hk => ?_⟩
    obtain hk | rfl := Nat.lt_succ_iff_lt_or_eq.1 hk
    · exact hbodies k hk
    · exact hcode

/-- What holds of all items of bodies and branches holds of all items. -/
theorem forall_mem_items {c : Control} {P : ControlItem → Prop}
    (hbodies : ∀ k < c.deltas.size, ∀ i ∈ (c.delta k).body, P i)
    (hbranches : ∀ j < c.betas.size, ∀ i ∈ (c.beta j).whenTrue ++ (c.beta j).whenFalse, P i) :
    ∀ i ∈ c.items, P i := by
  simp only [items, toList_deltas, toList_betas, List.flatMap_map, List.mem_append, List.mem_flatMap,
    List.mem_range]
  rintro i (⟨k, hk, hi⟩ | ⟨j, hj, hi⟩)
  · exact hbodies k hk i hi
  · exact hbranches j hj i (List.mem_append.2 hi)

end Control

/-- A program is on the lines of the tree that it is built from. -/
theorem Program.onLines_of_ofTree {S : Nat → Prop} {t : Tree Label} {p : Program}
    (ht : IsSource .expression t) (hp : (Arena.ofTree t).program = .ok p) (hS : t.OnLines S) :
    p.OnLines S := by
  obtain ⟨root, F, hcontrol, hroot, hunfolds, -⟩ := Program.exists_of_ofTree (.inl ⟨_, ht⟩) hp
  obtain ⟨more, places, d, hd, hwork⟩ :=
    Flattening.worklist_of_control hcontrol hroot hunfolds ht.standard.isFlattenable
  have hemits := hwork.emits
  rw [← hwork.size_eq, hd] at hemits
  obtain ⟨hlined, hbodies⟩ := hemits.lined rfl hunfolds hS.standard
  have hbeta (j) (hj : j < p.control.betas.size) := hlined.beta j (Nat.zero_le j) hj
  refine ⟨fun id hid => ?_, hemits.pos, fun k hk => ?_, fun j hj => (hbeta j hj).1, ?_⟩
  · exact hid.onLine hroot hunfolds hS.standard
  · obtain ⟨id, u, -, hu, hSu, hline⟩ := hlined.delta k (Nat.zero_le k) hk
    rw [hline]
    exact hu.onLine hSu
  · exact Control.forall_mem_items hbodies fun j hj => (hbeta j hj).2

end Rpal
