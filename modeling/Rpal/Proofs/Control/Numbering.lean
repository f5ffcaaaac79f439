import Rpal.Tree.Kind
import Mathlib

/-!
# Numbered lambdas

The lambdas of a program are numbered level by level: first those that are met outside of all
lambdas, then those in the bodies of these, and so on. In a body they are met from left to right,
but in a conditional first in the branches and then in the condition. The program itself is number
0. The number of a lambda is what is shown of it when a function is printed.

## Key results

- `Tree.numbered`: the tree with its lambdas numbered
- `map_label_numbered`: numbers are only added
-/

namespace Rpal

/-- A label with the number of a lambda. Other constructs have the number 0. -/
structure Numbered where
  label : Label
  number : Nat
deriving DecidableEq, Inhabited

/-- Labels that say what construct a node is, and maybe more. -/
class Labelled (α : Type) where
  toLabel : α → Label

instance : Labelled Label := ⟨id⟩

instance : Labelled Numbered := ⟨Numbered.label⟩

/-- The names that a parameter binds. -/
def Tree.boundNames {α : Type} [Labelled α] : Tree α → List String
  | node a ts =>
    match (Labelled.toLabel a).kind with
    | .unit => []
    | .names => ts.map fun t => (Labelled.toLabel t.label).content
    | _ => [(Labelled.toLabel a).content]

/-- A parameter that is no list of names and not empty binds one name. -/
theorem Tree.boundNames_of_ne {α : Type} [Labelled α] {a : α} {ts : List (Tree α)}
    (hunit : (Labelled.toLabel a).kind ≠ .unit) (hnames : (Labelled.toLabel a).kind ≠ .names) :
    (node a ts).boundNames = [(Labelled.toLabel a).content] := by
  rw [boundNames.eq_def]
  dsimp only
  split
  · exact absurd ‹_› hunit
  · exact absurd ‹_› hnames
  · rfl

/-- The list has its items at consecutive numbers from `n` on. -/
def At {β : Type} (R : Nat → β → Prop) (n : Nat) (items : List β) : Prop :=
  ∀ i e, items[i]? = some e → R (n + i) e

theorem at_nil {β : Type} (R : Nat → β → Prop) (n : Nat) : At R n [] := by
  intro i e he
  cases he

/-- A single element has the first number. -/
theorem at_singleton {β : Type} {R : Nat → β → Prop} {n : Nat} {e : β} : At R n [e] ↔ R n e := by
  constructor
  · exact fun h => h 0 e rfl
  · intro h i e' he
    match i, he with
    | 0, he => exact Option.some.inj he ▸ h

/-- The elements behind others are numbered on. -/
theorem at_append {β : Type} {R : Nat → β → Prop} {n : Nat} {es es' : List β} :
    At R n (es ++ es') ↔ At R n es ∧ At R (n + es.length) es' := by
  constructor
  · refine fun h => ⟨fun i e he => h i e ?_, fun i e he => ?_⟩
    · rw [List.getElem?_append_left (List.getElem?_eq_some_iff.1 he).1, he]
    · rw [Nat.add_assoc]
      exact h _ e (by rw [List.getElem?_append_right (Nat.le_add_right ..), Nat.add_sub_cancel_left, he])
  · rintro ⟨h, h'⟩ i e he
    by_cases hi : i < es.length
    · exact h i e (by rwa [List.getElem?_append_left hi] at he)
    · rw [List.getElem?_append_right (Nat.le_of_not_lt hi)] at he
      have := h' _ e he
      rwa [Nat.add_assoc, Nat.add_sub_cancel' (Nat.le_of_not_lt hi)] at this

namespace Tree

/-! ### Lambdas that are met -/

mutual

/-- The bodies of the lambdas that are met in a tree outside of all lambdas. -/
def met : Tree Label → List (Tree Label)
  | node l ts =>
    match l.kind, ts with
    | .lambda, [_, e] => [e]
    | .conditional, [p, e₁, e₂] => met e₁ ++ met e₂ ++ met p
    | _, ts => metAll ts

/-- The bodies of the lambdas that are met in several trees. -/
def metAll : List (Tree Label) → List (Tree Label)
  | [] => []
  | t :: ts => met t ++ metAll ts

end

mutual

/-- The tree with the lambdas met numbered from `n` on, and with `bodies k` below lambda `k`. -/
def fill (bodies : Nat → Tree Numbered) (n : Nat) : Tree Label → Tree Numbered
  | node l ts =>
    match l.kind, ts with
    | .lambda, [x, _] => node ⟨l, n⟩ [x.map (⟨·, 0⟩), bodies n]
    | .conditional, [p, e₁, e₂] =>
      node ⟨l, 0⟩
        [fill bodies (n + (met e₁).length + (met e₂).length) p, fill bodies n e₁,
          fill bodies (n + (met e₁).length) e₂]
    | _, ts => node ⟨l, 0⟩ (fillAll bodies n ts)

/-- `fill` on a list of trees. -/
def fillAll (bodies : Nat → Tree Numbered) (n : Nat) : List (Tree Label) → List (Tree Numbered)
  | [] => []
  | t :: ts => fill bodies n t :: fillAll bodies (n + (met t).length) ts

end

section

variable {l : Label} {ts : List (Tree Label)} {x e p e₁ e₂ : Tree Label}
  {bodies : Nat → Tree Numbered} {n : Nat}

/-- A lambda is met itself, and what is in its body only later. -/
theorem met_lambda (hl : l.kind = .lambda) : met (node l [x, e]) = [e] := by
  cases l
  cases hl
  rfl

/-- The branches of a conditional are met before the condition. -/
theorem met_conditional (hl : l.kind = .conditional) :
    met (node l [p, e₁, e₂]) = met e₁ ++ met e₂ ++ met p := by
  cases l
  cases hl
  rfl

/-- In other constructs, lambdas are met child by child. -/
theorem met_plain (hlambda : l.kind ≠ .lambda) (hcond : l.kind ≠ .conditional) :
    met (node l ts) = metAll ts := by
  rw [met]
  · exact fun _ _ h _ => hlambda h
  · exact fun _ _ _ h _ => hcond h

/-- A lambda gets the next number and the numbered body that belongs to it. -/
theorem fill_lambda (hl : l.kind = .lambda) :
    fill bodies n (node l [x, e]) = node ⟨l, n⟩ [x.map (⟨·, 0⟩), bodies n] := by
  cases l
  cases hl
  rfl

/-- The branches of a conditional are filled before the condition, as they are met. -/
theorem fill_conditional (hl : l.kind = .conditional) :
    fill bodies n (node l [p, e₁, e₂]) =
      node ⟨l, 0⟩
        [fill bodies (n + (met e₁).length + (met e₂).length) p, fill bodies n e₁,
          fill bodies (n + (met e₁).length) e₂] := by
  cases l
  cases hl
  rfl

/-- Other constructs are filled child by child. -/
theorem fill_plain (hlambda : l.kind ≠ .lambda) (hcond : l.kind ≠ .conditional) :
    fill bodies n (node l ts) = node ⟨l, 0⟩ (fillAll bodies n ts) := by
  rw [fill]
  · exact fun _ _ h _ => hlambda h
  · exact fun _ _ _ h _ => hcond h

end

/-- What is met in a list is met tree by tree. -/
theorem metAll_eq_flatMap (ts : List (Tree Label)) : metAll ts = ts.flatMap met := by
  induction ts with
  | nil => rfl
  | cons t ts ih => rw [metAll, ih, List.flatMap_cons]

/-- The sizes of lists add up. -/
theorem sizeAll_append {α : Type} (ts us : List (Tree α)) :
    sizeAll (ts ++ us) = sizeAll ts + sizeAll us := by
  induction ts with
  | nil => rw [List.nil_append, sizeAll, Nat.zero_add]
  | cons t ts ih => rw [List.cons_append, sizeAll, sizeAll, ih, Nat.add_assoc]

/-- A tree is not larger than a list that it is in. -/
theorem size_le_sizeAll {α : Type} {t : Tree α} {ts : List (Tree α)} (h : t ∈ ts) :
    t.size ≤ sizeAll ts := by
  induction ts with
  | nil => exact nomatch h
  | cons s ts ih =>
    rw [sizeAll]
    rcases List.mem_cons.1 h with rfl | h
    · omega
    · have := ih h
      omega

/-- The bodies that are met are smaller than the tree. -/
theorem sizeAll_met_lt (t : Tree Label) : sizeAll (met t) < t.size := by
  refine met.induct (fun t => sizeAll (met t) < t.size)
    (fun ts => sizeAll (metAll ts) ≤ sizeAll ts) ?_ ?_ ?_ (Nat.le_refl 0) ?_ t
  · intro l x e hl
    simp only [met_lambda hl, size, sizeAll]
    omega
  · intro l p e₁ e₂ hl h₁ h₂ h
    simp only [met_conditional hl, size, sizeAll, sizeAll_append]
    omega
  · intro l ts hlambda hcond h
    rw [met, size]
    · omega
    · exact hlambda
    · exact hcond
  · intro t ts h hs
    rw [metAll, sizeAll_append, sizeAll]
    omega

/-- The bodies met in a list are smaller than the list. -/
theorem sizeAll_flatMap_met_lt {ts : List (Tree Label)} (h : ts ≠ []) :
    sizeAll (ts.flatMap met) < sizeAll ts := by
  obtain ⟨t, ts, rfl⟩ := List.exists_cons_of_ne_nil h
  rw [List.flatMap_cons, sizeAll_append, sizeAll]
  have hle : sizeAll (ts.flatMap met) ≤ sizeAll ts := by
    induction ts with
    | nil => exact Nat.le_refl 0
    | cons s ts ih =>
      have hs := sizeAll_met_lt s
      have ih := ih (List.cons_ne_nil t ts)
      rw [List.flatMap_cons, sizeAll_append, sizeAll]
      omega
  have ht := sizeAll_met_lt t
  omega

/-! ### Numbering by levels -/

/-- The trees with all lambdas numbered. The lambdas met in them have the numbers from `n` on, and
    those below follow behind. -/
def numberAll (n : Nat) (ts : List (Tree Label)) : List (Tree Numbered) :=
  if h : ts = [] then []
  else
    have := sizeAll_flatMap_met_lt h
    let bodies := numberAll (n + (ts.flatMap met).length) (ts.flatMap met)
    fillAll (fun k => bodies.getD (k - n) default) n ts
termination_by sizeAll ts

/-- The program with its lambdas numbered. -/
def numbered (t : Tree Label) : Tree Numbered :=
  (numberAll 1 [t]).headD default

/-- Filling changes no number of trees. -/
theorem length_fillAll (bodies : Nat → Tree Numbered) (n : Nat) (ts : List (Tree Label)) :
    (fillAll bodies n ts).length = ts.length := by
  induction ts generalizing n with
  | nil => rfl
  | cons t ts ih => rw [fillAll, List.length_cons, List.length_cons, ih]

/-- Numbering changes no number of trees. -/
theorem length_numberAll (n : Nat) (ts : List (Tree Label)) :
    (numberAll n ts).length = ts.length := by
  rw [numberAll]
  split
  · next h => simp [h]
  · exact length_fillAll ..

/-- The label at the root is mapped like the others. -/
theorem label_map {α β : Type} (f : α → β) (t : Tree α) : (t.map f).label = f t.label := by
  cases t with
  | node a ts => rfl

/-- Numbers that are added can be taken away. -/
theorem map_label_constant (n : Nat) (t : Tree Label) :
    (t.map fun l => (⟨l, n⟩ : Numbered)).map Numbered.label = t := by
  induction t using Tree.induct with
  | node l ts ih =>
    have hts : ts.map (Tree.map Numbered.label ∘ Tree.map fun l => (⟨l, n⟩ : Numbered)) = ts :=
      (List.map_congr_left ih).trans (List.map_id' ts)
    rw [Tree.map, Tree.map, mapAll_eq_map, mapAll_eq_map, List.map_map, hts]

/-- A parameter binds the same names when its labels say the same of constructs. -/
theorem boundNames_map {α β : Type} [Labelled α] [Labelled β] {f : α → β}
    (hf : ∀ a, Labelled.toLabel (f a) = Labelled.toLabel a) (t : Tree α) :
    (t.map f).boundNames = t.boundNames := by
  cases t with
  | node a ts =>
    have hts : (ts.map (Tree.map f)).map (fun t => (Labelled.toLabel t.label).content) =
        ts.map fun t => (Labelled.toLabel t.label).content := by
      rw [List.map_map]
      exact List.map_congr_left fun t _ => by rw [Function.comp_apply, label_map, hf]
    rw [Tree.map, mapAll_eq_map]
    simp only [boundNames, hf, hts]

/-- Numbers are only added to trees whose lambdas have the right bodies. -/
theorem map_label_fill {bodies : Nat → Tree Numbered} (t : Tree Label) : ∀ n,
    At (fun k e => (bodies k).map Numbered.label = e) n (met t) →
      (fill bodies n t).map Numbered.label = t := by
  refine met.induct
    (fun t => ∀ n, At (fun k e => (bodies k).map Numbered.label = e) n (met t) →
      (fill bodies n t).map Numbered.label = t)
    (fun ts => ∀ n, At (fun k e => (bodies k).map Numbered.label = e) n (metAll ts) →
      (fillAll bodies n ts).map (Tree.map Numbered.label) = ts) ?_ ?_ ?_ (fun _ _ => rfl) ?_ t
  · intro l x e hl n h
    rw [met_lambda hl, at_singleton] at h
    simp only [fill_lambda hl, Tree.map, mapAll, h, map_label_constant]
  · intro l p e₁ e₂ hl ih₁ ih₂ ih n h
    -- the lambdas in the branches have their numbers before those in the condition
    rw [met_conditional hl, at_append, at_append, List.length_append, ← Nat.add_assoc] at h
    simp only [fill_conditional hl, Tree.map, mapAll, ih₁ _ h.1.1, ih₂ _ h.1.2, ih _ h.2]
  · intro l ts hlambda hcond ih n h
    rw [met] at h
    · rw [fill]
      · rw [Tree.map, mapAll_eq_map, ih n h]
      · exact hlambda
      · exact hcond
    · exact hlambda
    · exact hcond
  · intro t ts ih ihs n h
    rw [metAll, at_append] at h
    rw [fillAll, List.map_cons, ih n h.1, ihs _ h.2]

/-- Without the numbers, a list that is filled with its bodies is the list as it was. -/
theorem map_label_fillAll {bodies : Nat → Tree Numbered} (n : Nat) (ts : List (Tree Label))
    (h : At (fun k e => (bodies k).map Numbered.label = e) n (ts.flatMap met)) :
    (fillAll bodies n ts).map (Tree.map Numbered.label) = ts := by
  induction ts generalizing n with
  | nil => rfl
  | cons t ts ih =>
    rw [List.flatMap_cons, at_append] at h
    rw [fillAll, List.map_cons, map_label_fill t n h.1, ih _ h.2]

/-- What holds of trees as soon as it holds of the bodies met in them holds of all trees. -/
theorem met_induction {motive : List (Tree Label) → Prop} (nil : motive [])
    (step : ∀ ts, ts ≠ [] → motive (ts.flatMap met) → motive ts) (ts : List (Tree Label)) :
    motive ts := by
  induction hs : sizeAll ts using Nat.strongRecOn generalizing ts with
  | ind s ih =>
    by_cases h : ts = []
    · exact h ▸ nil
    · exact step ts h (ih _ (hs ▸ sizeAll_flatMap_met_lt h) _ rfl)

/-- To number a list is to fill it with the numbered bodies that are met in it. -/
theorem numberAll_of_ne_nil (n : Nat) {ts : List (Tree Label)} (h : ts ≠ []) :
    numberAll n ts = fillAll (fun k => (numberAll (n + (ts.flatMap met).length)
      (ts.flatMap met)).getD (k - n) default) n ts := by
  rw [numberAll, dif_neg h]

/-- Numbers are only added. -/
theorem map_label_numberAll (n : Nat) (ts : List (Tree Label)) :
    (numberAll n ts).map (Tree.map Numbered.label) = ts := by
  induction ts using met_induction generalizing n with
  | nil => rw [numberAll, dif_pos rfl, List.map_nil]
  | step ts hne ih =>
    rw [numberAll_of_ne_nil n hne]
    refine map_label_fillAll n ts fun i e he => ?_
    rw [← ih (n + (ts.flatMap met).length), List.getElem?_map, Option.map_eq_some_iff] at he
    obtain ⟨u, hu, rfl⟩ := he
    rw [Nat.add_sub_cancel_left, List.getD_eq_getElem?_getD, hu]
    rfl

/-- Numbers are only added. -/
theorem map_label_numbered (t : Tree Label) : t.numbered.map Numbered.label = t := by
  have h := map_label_numberAll 1 [t]
  have hlen := length_numberAll 1 [t]
  rw [numbered]
  match numberAll 1 [t], h with
  | [u], h => exact List.singleton_inj.1 h

end Tree

end Rpal
