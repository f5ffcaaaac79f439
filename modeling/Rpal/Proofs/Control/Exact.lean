import Rpal.Proofs.Control.Codes
import Rpal.Proofs.Tree.Source

/-!
# Flattening is exact and breadth first

What the numbers of the control structures have to do with each other and with the tree. Every delta
and every beta is given once and used once, so that no lambda and no branch is lost, duplicated, or
attached to the wrong delta.

While a tree is flattened, deltas and betas are numbered at different moments: a lambda when it is
met, a conditional after its branches, and a body is filled in when those before it are. But what one
body adds is always an interval of deltas and an interval of betas (`Emits`), and the intervals of the
bodies follow each other (`EmitsBodies`). What is stated here follows from this alone.

## Key results

- `Emits.count`: the deltas and betas of a body are used once, in the body or in a branch below it
- `Emits.within_iff`: a body has the deltas of its interval
- `Program.isExact_of_ofTokens`: the control structures of a program are exact
-/

namespace Rpal

namespace Control

/-! ### What is stated -/

section

variable (a : Arena) (c : Control) (place : Nat → Nat)

mutual

/-- The code of the node at place `id`: a lambda is the item of its delta, whose body is at
    `place k`, a conditional is the item of its beta before its condition, and any other node comes
    before its children. -/
inductive Flat : Nat → List ControlItem → Prop where
  | lambda {id x k} : a.kind id = .lambda → a.children id = [x, place k] → 0 < k →
      k < c.deltas.size → Flattening.boundNames a x = .ok (c.delta k).vars →
      (c.delta k).line = a.line (place k) → Flat id [.delta k]
  | conditional {id p e₁ e₂ j code} : a.kind id = .conditional → a.children id = [p, e₁, e₂] →
      j < c.betas.size → (c.beta j).line = a.line id → Flat e₁ (c.beta j).whenTrue →
      Flat e₂ (c.beta j).whenFalse → Flat p code → Flat id (.beta j :: code)
  | plain {id codes} : a.kind id ≠ .lambda → a.kind id ≠ .conditional →
      FlatAll (a.children id) codes → Flat id (.node id :: codes)

/-- The code of several nodes, one after the other. -/
inductive FlatAll : List Nat → List ControlItem → Prop where
  | nil : FlatAll [] []
  | cons {id ids code codes} : Flat id code → FlatAll ids codes →
      FlatAll (id :: ids) (code ++ codes)

end

end

section

variable (c : Control)

/-- The items of all bodies and branches. -/
def items : List ControlItem :=
  c.deltas.toList.flatMap (fun d => d.body) ++
    c.betas.toList.flatMap fun b => b.whenTrue ++ b.whenFalse

/-- The item is one of the sequence or of the branches of its conditionals, however deep. -/
inductive Within : List ControlItem → ControlItem → Prop where
  | mem {items item} : item ∈ items → Within items item
  | whenTrue {items j item} : .beta j ∈ items → Within (c.beta j).whenTrue item → Within items item
  | whenFalse {items j item} : .beta j ∈ items → Within (c.beta j).whenFalse item →
      Within items item

/-- The lambda of delta `i` is in the body of delta `k`. -/
def Owns (k i : Nat) : Prop :=
  c.Within (c.delta k).body (.delta i)

end

/-- The control structures are those of the arena's tree, numbered breadth first. -/
structure IsExact (a : Arena) (c : Control) : Prop where
  size_pos : 0 < c.deltas.size
  index_eq : ∀ k < c.deltas.size, (c.delta k).index = k
  /-- Every delta has the code of its body, and the first one that of the program. -/
  flat : ∃ place : Nat → Nat, a.root = some (place 0) ∧
    ∀ k < c.deltas.size, Flat a c place (place k) (c.delta k).body
  /-- Every delta but the first is used once. -/
  count_delta : ∀ k, c.items.count (.delta k) = if 0 < k ∧ k < c.deltas.size then 1 else 0
  /-- Every beta is used once. -/
  count_beta : ∀ j, c.items.count (.beta j) = if j < c.betas.size then 1 else 0
  beta_lt : ∀ j < c.betas.size, ∀ i,
    .beta i ∈ (c.beta j).whenTrue ++ (c.beta j).whenFalse → i < j
  exists_owner : ∀ i, 0 < i → i < c.deltas.size → ∃ k < c.deltas.size, c.Owns k i
  owner_lt : ∀ k < c.deltas.size, ∀ i, c.Owns k i → k < i
  /-- Deltas are numbered in the order of the bodies that their lambdas are in. -/
  owner_le : ∀ k < c.deltas.size, ∀ l < c.deltas.size, ∀ i j, i ≤ j → c.Owns k i → c.Owns l j → k ≤ l

variable {a : Arena} {c : Control} {places : List Nat}

/-! ### Intervals -/

mutual

/-- Numbers are given upwards. -/
theorem Emits.le {id n b n' b' : Nat} {code : List ControlItem} :
    Emits a c places id n b code n' b' → n ≤ n' ∧ b ≤ b'
  | .lambda .. => ⟨Nat.le_succ _, Nat.le_refl _⟩
  | .conditional _ _ h₁ h₂ _ _ h => by
    have := h₁.le
    have := h₂.le
    have := h.le
    omega
  | .plain _ _ hs => hs.le

/-- Emitting the code of a list only adds deltas and betas. -/
theorem EmitsAll.le {ids : List Nat} {n b n' b' : Nat} {codes : List ControlItem} :
    EmitsAll a c places ids n b codes n' b' → n ≤ n' ∧ b ≤ b'
  | .nil => ⟨Nat.le_refl _, Nat.le_refl _⟩
  | .cons h hs => by
    have := h.le
    have := hs.le
    omega

end

mutual

/-- Apart from the numbers, the code is that of the node. -/
theorem Emits.flat {id n b n' b' : Nat} {code : List ControlItem} (hn : 0 < n) :
    Emits a c places id n b code n' b' → Flat a c (fun k => places.getD k 0) id code
  | .lambda (e := e) hl hchildren hplace hlt _ hvars hline => by
    -- the place of the body is looked up by the number of the delta
    have hget : places.getD n 0 = e := by rw [List.getD_eq_getElem?_getD, hplace, Option.getD_some]
    refine .lambda hl ?_ hn hlt hvars ?_
    · rw [hget, hchildren]
    · rw [hget, hline]
  | .conditional hl hchildren h₁ h₂ hj hbeta h => by
    have hle₁ := h₁.le
    have hle₂ := h₂.le
    refine .conditional hl hchildren hj ?_ ?_ ?_ (h.flat (by omega)) <;> rw [hbeta]
    · exact h₁.flat hn
    · exact h₂.flat (by omega)
  | .plain hlambda hcond hs => .plain hlambda hcond (hs.flat hn)

/-- The emitted code of a list of nodes is flat. -/
theorem EmitsAll.flat {ids : List Nat} {n b n' b' : Nat} {codes : List ControlItem} (hn : 0 < n) :
    EmitsAll a c places ids n b codes n' b' → FlatAll a c (fun k => places.getD k 0) ids codes
  | .nil => .nil
  | .cons h hs => .cons (h.flat hn) (hs.flat (Nat.lt_of_lt_of_le hn h.le.1))

end

mutual

/-- The deltas of the interval know their numbers. -/
theorem Emits.index_eq {id n b n' b' : Nat} {code : List ControlItem} :
    Emits a c places id n b code n' b' → ∀ k, n ≤ k → k < n' → (c.delta k).index = k
  | .lambda _ _ _ _ hindex _ _ => fun k hk hk' => by
    obtain rfl : k = n := by omega
    exact hindex
  | .conditional _ _ h₁ h₂ _ _ h => fun k hk hk' =>
    (Nat.lt_or_ge k _).elim (h₁.index_eq k hk) fun hk₁ =>
      (Nat.lt_or_ge k _).elim (h₂.index_eq k hk₁) fun hk₂ => h.index_eq k hk₂ hk'
  | .plain _ _ hs => hs.index_eq

/-- The deltas of a list of nodes are numbered as they are met. -/
theorem EmitsAll.index_eq {ids : List Nat} {n b n' b' : Nat} {codes : List ControlItem} :
    EmitsAll a c places ids n b codes n' b' → ∀ k, n ≤ k → k < n' → (c.delta k).index = k
  | .nil => fun _ hk hk' => absurd hk' (Nat.not_lt.2 hk)
  | .cons h hs => fun k hk hk' =>
    (Nat.lt_or_ge k _).elim (h.index_eq k hk) fun hk₁ => hs.index_eq k hk₁ hk'

end

/-! ### Every number is used once -/

/-- How often the item is in the branches of beta `j`. -/
def branchCount (c : Control) (item : ControlItem) (j : Nat) : Nat :=
  (c.beta j).whenTrue.count item + (c.beta j).whenFalse.count item

/-- How often the item is given when deltas are numbered from `n` up to `n'` and betas from `b` up to
    `b'`. Nodes are not counted. -/
def given (n b n' b' : Nat) : ControlItem → Nat
  | .node _ => 0
  | .delta k => if n ≤ k ∧ k < n' then 1 else 0
  | .beta j => if b ≤ j ∧ j < b' then 1 else 0

/-- What was given in two stages was given in one of them. -/
theorem given_add {n b n₁ b₁ n' b' : Nat} (hn : n ≤ n₁ ∧ b ≤ b₁) (hn' : n₁ ≤ n' ∧ b₁ ≤ b')
    (item : ControlItem) :
    given n b n₁ b₁ item + given n₁ b₁ n' b' item = given n b n' b' item := by
  cases item with
  | node id => rfl
  | delta k | beta j =>
    simp only [given]
    split_ifs <;> omega

/-- Nothing is given in an empty stage. -/
theorem given_self (n b : Nat) (item : ControlItem) : given n b n b item = 0 := by
  cases item with
  | node id => rfl
  | delta k | beta j =>
    rw [given, if_neg]
    omega

/-- One number is given to a conditional. -/
theorem given_beta (n b : Nat) (item : ControlItem) :
    given n b n (b + 1) item = if ControlItem.beta b == item then 1 else 0 := by
  cases item with
  | node id => rfl
  | delta k =>
    simp only [given, beq_iff_eq, reduceCtorEq]
    split_ifs <;> omega
  | beta j =>
    simp only [given, beq_iff_eq, ControlItem.beta.injEq]
    split_ifs <;> omega

/-- One number is given to a lambda. -/
theorem given_delta (n b : Nat) (item : ControlItem) :
    given n b (n + 1) b item = if ControlItem.delta n == item then 1 else 0 := by
  cases item with
  | node id => rfl
  | delta k =>
    simp only [given, beq_iff_eq, ControlItem.delta.injEq]
    split_ifs <;> omega
  | beta j =>
    simp only [given, beq_iff_eq, reduceCtorEq]
    split_ifs <;> omega

mutual

/-- What is given is used once, in the code or in a branch below it. -/
theorem Emits.count {id n b n' b' : Nat} {code : List ControlItem} {item : ControlItem}
    (hitem : ∀ id, item ≠ .node id) : Emits a c places id n b code n' b' →
      code.count item + ∑ j ∈ Finset.Ico b b', c.branchCount item j = given n b n' b' item
  | .lambda .. => by
    rw [Finset.Ico_self, Finset.sum_empty, Nat.add_zero, List.count_singleton]
    exact (given_delta ..).symm
  | .conditional _ _ h₁ h₂ _ hbeta h => by
    have hle₁ := h₁.le
    have hle₂ := h₂.le
    have hle := h.le
    -- the numbers are those of the branches, that of the conditional, and those of the condition
    rw [← Finset.sum_Ico_consecutive _ hle₁.2 (by omega : _ ≤ b'),
      ← Finset.sum_Ico_consecutive _ hle₂.2 (by omega : _ ≤ b'),
      Finset.sum_eq_sum_Ico_succ_bot (by omega : _ < b'), branchCount, hbeta, List.count_cons,
      ← given_beta, ← given_add hle₁ ⟨by omega, by omega⟩ item,
      ← given_add hle₂ ⟨by omega, by omega⟩ item,
      ← given_add ⟨Nat.le_refl _, Nat.le_succ _⟩ hle item, ← h₁.count hitem, ← h₂.count hitem,
      ← h.count hitem]
    ring
  | .plain _ _ hs => by
    rw [List.count_cons_of_ne (hitem _).symm]
    exact hs.count hitem

/-- A delta or beta that is given in the code of a list occurs once in the code or the branches, and
    no other occurs. -/
theorem EmitsAll.count {ids : List Nat} {n b n' b' : Nat} {codes : List ControlItem}
    {item : ControlItem} (hitem : ∀ id, item ≠ .node id) :
    EmitsAll a c places ids n b codes n' b' →
      codes.count item + ∑ j ∈ Finset.Ico b b', c.branchCount item j = given n b n' b' item
  | .nil => by
    rw [Finset.Ico_self, Finset.sum_empty, given_self]
    rfl
  | .cons h hs => by
    rw [← given_add h.le hs.le item, ← h.count hitem, ← hs.count hitem, List.count_append,
      ← Finset.sum_Ico_consecutive _ h.le.2 hs.le.2]
    omega

end

/-- The betas that the code mentions are among those given. -/
theorem Emits.lt_of_mem {id n b n' b' j : Nat} {code : List ControlItem}
    (h : Emits a c places id n b code n' b') (hj : .beta j ∈ code) : j < b' := by
  have hcount := h.count (fun id hid => nomatch hid : ∀ id, ControlItem.beta j ≠ .node id)
  have hpos := List.count_pos_iff.2 hj
  by_contra hlt
  rw [given, if_neg (fun hb => hlt hb.2)] at hcount
  omega

mutual

/-- A conditional mentions smaller betas in its branches, because these are flattened first. -/
theorem Emits.beta_lt {id n b n' b' : Nat} {code : List ControlItem} :
    Emits a c places id n b code n' b' → ∀ j, b ≤ j → j < b' →
      ∀ i, .beta i ∈ (c.beta j).whenTrue ++ (c.beta j).whenFalse → i < j
  | .lambda .. => fun j hj hj' => absurd hj' (Nat.not_lt.2 hj)
  | .conditional (j := m) _ _ h₁ h₂ _ hbeta h => fun j hj hj' i hi => by
    have hle := h₂.le
    by_cases heq : j = m
    · rw [heq, hbeta] at hi
      rcases List.mem_append.1 hi with hi | hi
      · have := h₁.lt_of_mem hi
        omega
      · have := h₂.lt_of_mem hi
        omega
    · rcases Nat.lt_or_ge j _ with hj₁ | hj₁
      · exact h₁.beta_lt j hj hj₁ i hi
      · rcases Nat.lt_or_ge j _ with hj₂ | hj₂
        · exact h₂.beta_lt j hj₁ hj₂ i hi
        · exact h.beta_lt j (by omega) hj' i hi
  | .plain _ _ hs => hs.beta_lt

/-- The branches that a list of nodes gives mention betas given before. -/
theorem EmitsAll.beta_lt {ids : List Nat} {n b n' b' : Nat} {codes : List ControlItem} :
    EmitsAll a c places ids n b codes n' b' → ∀ j, b ≤ j → j < b' →
      ∀ i, .beta i ∈ (c.beta j).whenTrue ++ (c.beta j).whenFalse → i < j
  | .nil => fun _ hj hj' => absurd hj' (Nat.not_lt.2 hj)
  | .cons h hs => fun j hj hj' =>
    (Nat.lt_or_ge j _).elim (h.beta_lt j hj) fun hj₁ => hs.beta_lt j hj₁ hj'

end

/-! ### The deltas of a body -/

theorem not_within_nil (item : ControlItem) : ¬c.Within [] item := by
  intro h
  cases h <;> contradiction

/-- What is within items is within the first or the last of them. -/
theorem within_append {xs ys : List ControlItem} {item : ControlItem} :
    c.Within (xs ++ ys) item ↔ c.Within xs item ∨ c.Within ys item := by
  constructor
  · intro h
    cases h with
    | mem h => exact (List.mem_append.1 h).imp .mem .mem
    | whenTrue h hw => exact (List.mem_append.1 h).imp (.whenTrue · hw) (.whenTrue · hw)
    | whenFalse h hw => exact (List.mem_append.1 h).imp (.whenFalse · hw) (.whenFalse · hw)
  · rintro (h | h)
    all_goals
      cases h with
      | mem h => exact .mem (by simp [h])
      | whenTrue h hw => exact .whenTrue (by simp [h]) hw
      | whenFalse h hw => exact .whenFalse (by simp [h]) hw

/-- What is within items is within the first one or the others. -/
theorem within_cons {x item : ControlItem} {ys : List ControlItem} :
    c.Within (x :: ys) item ↔ c.Within [x] item ∨ c.Within ys item := by
  rw [← within_append, List.singleton_append]

/-- Only the node itself is within a node. -/
theorem within_node {id : Nat} {item : ControlItem} : c.Within [.node id] item ↔ item = .node id := by
  constructor
  · intro h
    cases h with
    | mem h => exact List.mem_singleton.1 h
    | whenTrue h | whenFalse h => cases List.mem_singleton.1 h
  · exact fun h => .mem (List.mem_singleton.2 h)

/-- Only the delta itself is within a delta. -/
theorem within_delta {k : Nat} {item : ControlItem} :
    c.Within [.delta k] item ↔ item = .delta k := by
  constructor
  · intro h
    cases h with
    | mem h => exact List.mem_singleton.1 h
    | whenTrue h | whenFalse h => cases List.mem_singleton.1 h
  · exact fun h => .mem (List.mem_singleton.2 h)

/-- Within a beta, there are the beta and what is within its branches. -/
theorem within_beta {j : Nat} {item : ControlItem} : c.Within [.beta j] item ↔
    item = .beta j ∨ c.Within (c.beta j).whenTrue item ∨ c.Within (c.beta j).whenFalse item := by
  constructor
  · intro h
    cases h with
    | mem h => exact .inl (List.mem_singleton.1 h)
    | whenTrue h hw =>
      cases List.mem_singleton.1 h
      exact .inr (.inl hw)
    | whenFalse h hw =>
      cases List.mem_singleton.1 h
      exact .inr (.inr hw)
  · rintro (rfl | h | h)
    · exact .mem (List.mem_singleton.2 rfl)
    · exact .whenTrue (List.mem_singleton.2 rfl) h
    · exact .whenFalse (List.mem_singleton.2 rfl) h

mutual

/-- The deltas in the code or in a branch below it are those of the interval. -/
theorem Emits.within_iff {id n b n' b' : Nat} {code : List ControlItem} :
    Emits a c places id n b code n' b' → ∀ i, c.Within code (.delta i) ↔ n ≤ i ∧ i < n'
  | .lambda .. => fun i => by
    rw [within_delta, ControlItem.delta.injEq]
    omega
  | .conditional _ _ h₁ h₂ _ hbeta h => fun i => by
    have hle₁ := h₁.le
    have hle₂ := h₂.le
    have hle := h.le
    rw [within_cons, within_beta, hbeta, h₁.within_iff, h₂.within_iff, h.within_iff]
    simp only [reduceCtorEq, false_or]
    omega
  | .plain _ _ hs => fun i => by
    rw [within_cons, within_node, hs.within_iff]
    simp only [reduceCtorEq, false_or]

/-- The deltas within the code of a list are those that it gives. -/
theorem EmitsAll.within_iff {ids : List Nat} {n b n' b' : Nat} {codes : List ControlItem} :
    EmitsAll a c places ids n b codes n' b' → ∀ i, c.Within codes (.delta i) ↔ n ≤ i ∧ i < n'
  | .nil => fun i => iff_of_false (not_within_nil _) (by omega)
  | .cons h hs => fun i => by
    have hle := h.le
    have hles := hs.le
    rw [within_append, h.within_iff, hs.within_iff]
    omega

end

/-! ### All bodies -/

variable {index n b : Nat}

/-- The delta of the whole program is there from the start. -/
theorem EmitsBodies.pos (h : EmitsBodies a c places index n b) : 0 < n := by
  induction h with
  | zero => exact Nat.one_pos
  | succ _ _ _ hemits ih => exact Nat.lt_of_lt_of_le ih hemits.le.1

/-- Every body that is filled in adds an interval of numbers to those before it. -/
theorem EmitsBodies.exists_emits (h : EmitsBodies a c places index n b) {k : Nat} (hk : k < index) :
    ∃ id m i m' i', places[k]? = some id ∧ k < m ∧ m' ≤ n ∧ i' ≤ b ∧
      Emits a c places id m i (c.delta k).body m' i' := by
  induction h with
  | zero => exact absurd hk (Nat.not_lt_zero k)
  | @succ index id n b n' b' _ hlt hplace hemits ih =>
    have hle := hemits.le
    rcases Nat.lt_succ_iff_lt_or_eq.1 hk with hk | rfl
    · obtain ⟨id, m, i, m', i', hid, hm, hm', hi', he⟩ := ih hk
      exact ⟨id, m, i, m', i', hid, hm, hm'.trans hle.1, hi'.trans hle.2, he⟩
    · exact ⟨id, n, b, n', b', hplace, hlt, Nat.le_refl _, Nat.le_refl _, hemits⟩

/-- Deltas are numbered as they are met. -/
theorem EmitsBodies.index_eq (h : EmitsBodies a c places index n b) :
    ∀ k < n, (c.delta k).index = k := by
  induction h with
  | zero _ _ hindex =>
    intro k hk
    obtain rfl := Nat.lt_one_iff.1 hk
    exact hindex
  | succ _ _ _ hemits ih =>
    exact fun k hk => (Nat.lt_or_ge k _).elim (ih k) fun hk' => hemits.index_eq k hk' hk

/-- What is given is used once. -/
theorem EmitsBodies.count {item : ControlItem} (hitem : ∀ id, item ≠ .node id)
    (h : EmitsBodies a c places index n b) :
    ∑ k ∈ Finset.range index, (c.delta k).body.count item +
      ∑ j ∈ Finset.range b, c.branchCount item j = given 1 0 n b item := by
  induction h with
  | zero => exact (given_self 1 0 item).symm
  | succ hbodies _ _ hemits ih =>
    have hle := hemits.le
    -- the numbers given in the last body follow those given in the bodies before it
    rw [← given_add ⟨hbodies.pos, Nat.zero_le _⟩ hle item, ← ih, ← hemits.count hitem,
      Finset.sum_range_succ, ← Finset.sum_range_add_sum_Ico _ hle.2]
    ring

/-- The branches of a beta only mention betas that were given before it. -/
theorem EmitsBodies.beta_lt (h : EmitsBodies a c places index n b) : ∀ j < b, ∀ i,
    .beta i ∈ (c.beta j).whenTrue ++ (c.beta j).whenFalse → i < j := by
  induction h with
  | zero => exact fun j hj => absurd hj (Nat.not_lt_zero j)
  | succ _ _ _ hemits ih =>
    exact fun j hj => (Nat.lt_or_ge j _).elim (ih j) fun hj' => hemits.beta_lt j hj' hj

/-- Every delta but the first occurs in a body before it. -/
theorem EmitsBodies.exists_owner (h : EmitsBodies a c places index n b) :
    ∀ i, 0 < i → i < n → ∃ k < index, c.Owns k i := by
  induction h with
  | zero => exact fun i hi hi' => absurd hi (by omega)
  | @succ index id n _ _ _ _ _ _ hemits ih =>
    intro i hi hi'
    rcases Nat.lt_or_ge i n with hlt | hge
    · obtain ⟨k, hk, howns⟩ := ih i hi hlt
      exact ⟨k, Nat.lt_succ_of_lt hk, howns⟩
    · exact ⟨index, Nat.lt_succ_self _, (hemits.within_iff i).2 ⟨hge, hi'⟩⟩

/-- A delta occurs in the body of one before it. -/
theorem EmitsBodies.owner_lt (h : EmitsBodies a c places index n b) {k i : Nat} (hk : k < index)
    (howns : c.Owns k i) : k < i ∧ i < n := by
  obtain ⟨id, m, _, m', _, -, hm, hm', -, hemits⟩ := h.exists_emits hk
  have hi := (hemits.within_iff i).1 howns
  omega

/-- Deltas that are given later occur in bodies that come later. -/
theorem EmitsBodies.owner_le (h : EmitsBodies a c places index n b) : ∀ k < index, ∀ l < index,
    ∀ i j, i ≤ j → c.Owns k i → c.Owns l j → k ≤ l := by
  induction h with
  | zero => exact fun k hk => absurd hk (Nat.not_lt_zero k)
  | @succ index id n _ _ _ hbodies _ _ hemits ih =>
    intro k hk l hl i j hij hki hlj
    rcases Nat.lt_succ_iff_lt_or_eq.1 hl with hl | rfl
    · rcases Nat.lt_succ_iff_lt_or_eq.1 hk with hk | rfl
      · exact ih k hk l hl i j hij hki hlj
      · -- the deltas of the last body are numbered behind all others
        have hi := (hemits.within_iff i).1 hki
        have hj := hbodies.owner_lt hl hlj
        omega
    · exact Nat.le_of_lt_succ hk

/-- The bodies in the order of their numbers. -/
theorem toList_deltas (c : Control) : c.deltas.toList = (List.range c.deltas.size).map c.delta := by
  refine List.ext_getElem (by simp) fun k hk hk' => ?_
  have hk : k < c.deltas.size := by simpa using hk
  simp [delta, Array.getD, hk]

/-- The betas are read off one by one. -/
theorem toList_betas (c : Control) : c.betas.toList = (List.range c.betas.size).map c.beta := by
  refine List.ext_getElem (by simp) fun j hj hj' => ?_
  have hj : j < c.betas.size := by simpa using hj
  simp [beta, Array.getD, hj]

/-- The items are counted body by body and branch by branch. -/
theorem count_items (c : Control) (item : ControlItem) : c.items.count item =
    ∑ k ∈ Finset.range c.deltas.size, (c.delta k).body.count item +
      ∑ j ∈ Finset.range c.betas.size, c.branchCount item j := by
  rw [items, List.count_append, List.count_flatMap, List.count_flatMap, toList_deltas, toList_betas,
    List.map_map, List.map_map]
  simp only [Function.comp_def, List.count_append]
  rfl

/-- Bodies that are all filled in are exact. -/
theorem EmitsBodies.isExact {root : Nat}
    (h : EmitsBodies a c places c.deltas.size c.deltas.size c.betas.size)
    (hroot : a.root = some root) (hplace : places[0]? = some root) : IsExact a c where
  size_pos := h.pos
  index_eq := h.index_eq
  flat := by
    -- the places that were noted are those of the bodies
    refine ⟨fun k => places.getD k 0, ?_, fun k hk => ?_⟩
    · show a.root = some (places.getD 0 0)
      rw [hroot, List.getD_eq_getElem?_getD, hplace, Option.getD_some]
    · obtain ⟨id, m, _, _, _, hid, hm, -, -, hemits⟩ := h.exists_emits hk
      show Flat a c _ (places.getD k 0) _
      rw [List.getD_eq_getElem?_getD, hid, Option.getD_some]
      exact hemits.flat (Nat.zero_lt_of_lt hm)
  count_delta k := by
    rw [count_items, h.count (by simp)]
    rfl
  count_beta j := by
    rw [count_items, h.count (by simp), given]
    simp only [Nat.zero_le, true_and]
  beta_lt := h.beta_lt
  exists_owner := h.exists_owner
  owner_lt k hk i howns := (h.owner_lt hk howns).1
  owner_le := h.owner_le

end Control

open Rpal.Tree

/-- The control structures of a program are those of its standardized tree, exactly and breadth
    first. -/
theorem Program.isExact_of_ofTokens {tokens : List Token} {t : Tree Label} {p : Program}
    (ht : Tree.ofTokens tokens = .ok t) (hp : (Arena.ofTree t).program = .ok p) :
    p.arena.rootTree? = some t.standard ∧ p.control.IsExact p.arena := by
  have hsource := isSource_of_ofTokens ht
  obtain ⟨root, F, hcontrol, hroot, hunfolds, htree⟩ :=
    Program.exists_of_ofTree (.inl ⟨_, hsource⟩) hp
  obtain ⟨more, places, d, hd, hwork⟩ :=
    Flattening.worklist_of_control hcontrol hroot hunfolds hsource.standard.isFlattenable
  have hemits := hwork.emits
  rw [← hwork.size_eq, hd] at hemits
  exact ⟨htree, hemits.isExact hroot rfl⟩

/-- The program `let f x = x -> (fn y . y) | (fn y . x) in f true`, with lambdas in both branches of a
    conditional that is itself in the body of a lambda. -/
theorem Program.isExact_of_ofTokens_branches : ∃ t p, Tree.ofTokens
      ([.symbol .letKw, .identifier "f", .identifier "x", .symbol .equals, .identifier "x",
        .symbol .arrow, .symbol .lparen, .symbol .fnKw, .identifier "y", .symbol .dot,
        .identifier "y", .symbol .rparen, .symbol .bar, .symbol .lparen, .symbol .fnKw,
        .identifier "y", .symbol .dot, .identifier "x", .symbol .rparen, .symbol .inKw,
        .identifier "f", .symbol .trueKw, .symbol .endOfInput].map fun l =>
          { lexeme := l, span := ⟨0, 0⟩, line := 1 }) = .ok t ∧
    (Arena.ofTree t).program = .ok p ∧
    p.arena.rootTree? = some t.standard ∧ p.control.IsExact p.arena := by
  generalize htokens : List.map _ _ = tokens
  have hok : ((Tree.ofTokens tokens).toOption.any fun t =>
      (Arena.ofTree t).program.isOk && decide True) = true := by
    subst htokens
    decide +kernel
  obtain ⟨t, p, h, hp, -⟩ := Program.exists_of_tokens (P := fun _ => True) hok
  exact ⟨t, p, h, hp, isExact_of_ofTokens h hp⟩

end Rpal
