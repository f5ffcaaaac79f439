import Rpal.Program
import Rpal.Proofs.Control.Flatten

/-!
# The code of a program

`Codes` relates a tree with numbered lambdas to its code, and the deltas of its lambdas to the code
of their bodies. It holds of every program that is built from a tree.

## Key results

- `codes_numbered`: the delta of a program has the code of its numbered tree
- `Program.codes_of_ofTree`: a program has the code of its standardized tree
-/

namespace Rpal

namespace Control

open Rpal.Tree

/-! ### Numbered lambdas -/

mutual

/-- The code of a tree with numbered lambdas, whose deltas have the code of their bodies. -/
inductive Codes (a : Arena) (c : Control) : Tree Numbered → List ControlItem → Prop where
  | lambda {l k x e} : l.kind = .lambda → (c.delta k).index = k →
      (c.delta k).vars = x.boundNames → (c.delta k).line = e.label.label.line →
      Codes a c e (c.delta k).body.reverse → Codes a c (.node ⟨l, k⟩ [x, e]) [.delta k]
  | conditional {l n p e₁ e₂ j code code₁ code₂} : l.kind = .conditional →
      c.beta j = { line := l.line, whenTrue := code₁.reverse, whenFalse := code₂.reverse } →
      Codes a c e₁ code₁ → Codes a c e₂ code₂ → Codes a c p code →
      Codes a c (.node ⟨l, n⟩ [p, e₁, e₂]) (code ++ [.beta j])
  | plain {l n ts id codes} : l.kind ≠ .lambda → l.kind ≠ .conditional → a.label id = l →
      (a.children id).length = ts.length → CodesAll a c ts codes →
      Codes a c (.node ⟨l, n⟩ ts) (codes ++ [.node id])

/-- The code of several trees, that of the last tree first. -/
inductive CodesAll (a : Arena) (c : Control) : List (Tree Numbered) → List ControlItem → Prop where
  | nil : CodesAll a c [] []
  | cons {t ts code codes} : Codes a c t code → CodesAll a c ts codes →
      CodesAll a c (t :: ts) (codes ++ code)

end

variable {a : Arena} {c : Control} {bodies : Nat → Tree Numbered}

/-- The numbered tree is the body `e` of delta `k`. -/
def IsBody (a : Arena) (c : Control) (bodies : Nat → Tree Numbered) (k : Nat) (e : Tree Label) :
    Prop :=
  (bodies k).map Numbered.label = e ∧ Codes a c (bodies k) (c.delta k).body.reverse

mutual

/-- A tree is filled with the bodies of its deltas. -/
theorem Outlines.codes_fill : ∀ {t : Tree Label} {n : Nat} {code : List ControlItem},
    Outlines a c t n code → At (IsBody a c bodies) n (met t) → Codes a c (fill bodies n t) code
  | _, _, _, .lambda (x := x) (e := e) hl _ hindex hvars hline, h => by
    rw [met_lambda hl, at_singleton] at h
    rw [fill_lambda hl]
    have hnames := boundNames_map (f := (Numbered.mk · 0)) (fun _ => rfl) x
    refine .lambda hl hindex (hvars.trans hnames.symm) ?_ h.2
    rw [hline, ← h.1, label_map]
  | _, _, _, .conditional hl _ hbeta h₁ h₂ hp, h => by
    rw [met_conditional hl, at_append, at_append, List.length_append, ← Nat.add_assoc] at h
    rw [fill_conditional hl]
    exact .conditional hl hbeta (h₁.codes_fill h.1.1) (h₂.codes_fill h.1.2) (hp.codes_fill h.2)
  | _, _, _, .plain hlambda hcond hid hlen hs, h => by
    rw [met_plain hlambda hcond] at h
    rw [fill_plain hlambda hcond]
    exact .plain hlambda hcond hid (hlen.trans (length_fillAll ..).symm) (hs.codes_fillAll h)

/-- The outline of a list of trees becomes its code as soon as the bodies of the lambdas in it are
    known. -/
theorem OutlinesAll.codes_fillAll : ∀ {ts : List (Tree Label)} {n : Nat} {codes : List ControlItem},
    OutlinesAll a c ts n codes → At (IsBody a c bodies) n (metAll ts) →
      CodesAll a c (fillAll bodies n ts) codes
  | _, _, _, .nil, _ => .nil
  | _, _, _, .cons ht hs, h => by
    rw [metAll, at_append] at h
    exact .cons (ht.codes_fill h.1) (hs.codes_fillAll h.2)

end

/-- The trees of a level are numbered as the deltas of their bodies are. -/
theorem at_codes_fillAll {ts : List (Tree Label)} {s n : Nat}
    (hts : ∀ i t, ts[i]? = some t →
      Outlines a c t (n + ((ts.take i).flatMap met).length) (c.delta (s + i)).body.reverse)
    (h : At (IsBody a c bodies) n (ts.flatMap met)) :
    At (fun k u => Codes a c u (c.delta k).body.reverse) s (fillAll bodies n ts) := by
  induction ts generalizing n s with
  | nil => exact nofun
  | cons t ts ih =>
    rw [List.flatMap_cons, at_append] at h
    rw [fillAll, ← List.singleton_append, at_append, at_singleton]
    refine ⟨(hts 0 t rfl).codes_fill h.1, ih (fun i t' ht' => ?_) h.2⟩
    have := hts (i + 1) t' ht'
    rwa [List.take_succ_cons, List.flatMap_cons, List.length_append, ← Nat.add_assoc,
      ← Nat.add_assoc, Nat.add_right_comm s] at this

/-- Level by level, the numbered bodies have the code of their deltas. The induction is on the
    levels; the trees `ts` of a level are those of `src` from `s` on, and the bodies met in them
    follow. -/
theorem codes_numberAll {src : List (Tree Label)} (hsrc : Flattening.Sources a c src)
    {ts rest : List (Tree Label)} {s n : Nat} (hdrop : src.drop s = ts ++ rest)
    (hn : n = 1 + ((src.take s).flatMap met).length) (hs : n = s + ts.length) :
    At (fun k u => Codes a c u (c.delta k).body.reverse) s (numberAll n ts) := by
  induction ts using met_induction generalizing s n rest with
  | nil =>
    rw [numberAll, dif_pos rfl]
    exact at_nil _ _
  | step ts hne ih =>
    have hsplit : src = src.take s ++ (ts ++ rest) := by rw [← hdrop, List.take_append_drop]
    have htake (i) : src.take (s + i) = src.take s ++ (ts ++ rest).take i := by
      rw [List.take_add, hdrop]
    have htake_n : src.take n = src.take s ++ ts := by
      rw [hs, htake, List.take_left]
    -- the next level begins where this one ends
    have hnext : src.drop n = ts.flatMap met ++ rest.flatMap met := by
      have htail : src.drop 1 = (src.take s).flatMap met ++ (ts ++ rest).flatMap met := by
        rw [← List.flatMap_append, ← hsplit, List.drop_one, hsrc.tail_eq]
      rw [hn, ← List.drop_drop, htail, List.drop_left, List.flatMap_append]
    have hbodies := ih hnext (n := n + (ts.flatMap met).length) (by
      rw [htake_n, List.flatMap_append, List.length_append, hn, Nat.add_assoc]) rfl
    rw [numberAll_of_ne_nil n hne]
    refine at_codes_fillAll (fun i t ht => ?_) fun i e he => ?_
    · have hi : i < ts.length := (List.getElem?_eq_some_iff.1 ht).1
      have hsrc_i : src[s + i]? = some t := by
        rw [← List.getElem?_drop, hdrop, List.getElem?_append_left hi, ht]
      have hout := hsrc.outlines (s + i) t hsrc_i
      rwa [htake, List.take_append_of_le_length (Nat.le_of_lt hi), List.flatMap_append,
        List.length_append, ← Nat.add_assoc, ← hn] at hout
    · rw [← map_label_numberAll (n + (ts.flatMap met).length) (ts.flatMap met), List.getElem?_map,
        Option.map_eq_some_iff] at he
      obtain ⟨u, hu, rfl⟩ := he
      have hget : (numberAll (n + (ts.flatMap met).length) (ts.flatMap met)).getD (n + i - n)
          default = u := by
        rw [Nat.add_sub_cancel_left, List.getD_eq_getElem?_getD, hu]
        rfl
      simp only [IsBody, hget]
      exact ⟨trivial, hbodies i u hu⟩

/-- The delta of a program has the code of its numbered tree. -/
theorem codes_numbered {F : Set Nat} {root : Nat} {t : Tree Label} (hcontrol : a.control = .ok c)
    (hroot : a.root = some root) (h : a.Unfolds F t root) (ht : IsFlattenable t) :
    Codes a c t.numbered c.root.body.reverse := by
  obtain ⟨more, hsrc⟩ := Flattening.sources_of_control hcontrol hroot h ht
  have hdrop : (t :: more).drop 0 = [t] ++ more := rfl
  have hcodes := codes_numberAll hsrc hdrop (n := 1) rfl rfl
  have hlen := length_numberAll 1 [t]
  rw [numbered]
  obtain ⟨u, hall⟩ := List.length_eq_one_iff.1 hlen
  rw [hall, at_singleton] at hcodes
  rw [hall]
  exact hcodes

end Control

namespace Tree

/-- What maps to a pair is a pair. -/
theorem exists_of_map_eq_pair {α β : Type} {f : α → β} {as : List α} {x y : β}
    (h : as.map f = [x, y]) : ∃ a b, as = [a, b] ∧ f a = x ∧ f b = y := by
  obtain ⟨a, as, rfl, ha, h⟩ := List.map_eq_cons_iff.1 h
  obtain ⟨b, as, rfl, hb, h⟩ := List.map_eq_cons_iff.1 h
  obtain rfl := List.map_eq_nil_iff.1 h
  exact ⟨a, b, rfl, ha, hb⟩

/-- A tree with numbers is a node with a number and trees with numbers. -/
theorem exists_of_map_eq_node {l : Label} {ts : List (Tree Label)} {u : Tree Numbered}
    (h : u.map Numbered.label = node l ts) :
    ∃ n us, u = node ⟨l, n⟩ us ∧ us.map (Tree.map Numbered.label) = ts := by
  cases u with
  | node b us =>
    rw [Tree.map, mapAll_eq_map] at h
    obtain ⟨rfl, hus⟩ := node.inj h
    exact ⟨b.number, us, rfl, hus⟩

/-- A numbered tree over two trees has two numbered trees below it. -/
theorem exists_of_map_eq_two {l : Label} {x e : Tree Label} {u : Tree Numbered}
    (h : u.map Numbered.label = node l [x, e]) :
    ∃ n y v, u = node ⟨l, n⟩ [y, v] ∧ y.map Numbered.label = x ∧ v.map Numbered.label = e := by
  obtain ⟨n, us, rfl, hus⟩ := exists_of_map_eq_node h
  obtain ⟨y, v, rfl, hy, hv⟩ := exists_of_map_eq_pair hus
  exact ⟨n, y, v, rfl, hy, hv⟩

/-- The forms of a numbered tree in canonical form. -/
theorem IsStandard.numbered_cases {l : Numbered} {us : List (Tree Numbered)}
    (h : IsStandard ((node l us).map Numbered.label)) :
    (l.label.kind.takes us.length = true ∧ ∀ u ∈ us, IsStandard (u.map Numbered.label)) ∨
    (l.label.kind = .lambda ∧ ∃ x e, us = [x, e] ∧ IsStandard (e.map Numbered.label)) ∨
    (l.label.kind = .gamma ∧ ∃ ly lx x e, us = [leaf ly, node lx [x, e]] ∧
      ly.label.kind = .ystar ∧ lx.label.kind = .lambda ∧ IsStandard (e.map Numbered.label)) := by
  rw [Tree.map, mapAll_eq_map] at h
  generalize hts : us.map (Tree.map Numbered.label) = ts at h
  -- the numbers are on the labels, so that the tree has the form of its labels
  cases h with
  | plain htakes hall =>
    subst hts
    rw [List.length_map] at htakes
    exact .inl ⟨htakes, List.forall_mem_map.1 hall⟩
  | lambda hl _ he =>
    obtain ⟨x, e, rfl, -, rfl⟩ := exists_of_map_eq_pair hts
    exact .inr (.inl ⟨hl, x, e, rfl, he⟩)
  | fixpoint hl hly hlx _ he =>
    obtain ⟨y, f, rfl, hy, hf⟩ := exists_of_map_eq_pair hts
    obtain ⟨n, ys, rfl, hys⟩ := exists_of_map_eq_node hy
    obtain rfl := List.map_eq_nil_iff.1 hys
    obtain ⟨m, x, e, rfl, -, rfl⟩ := exists_of_map_eq_two hf
    exact .inr (.inr ⟨hl, ⟨_, n⟩, ⟨_, m⟩, x, e, rfl, hly, hlx, he⟩)

end Tree

open Rpal.Tree

/-- A program that is built from a well-formed tree has the tree's canonical form in its arena, and
    the control structures of this arena. -/
theorem Program.exists_of_isWellFormed {t : Tree Label} {p : Program} (ht : IsWellFormed t)
    (hp : (Arena.ofTree t).program = .ok p) : ∃ root F, p.arena.control = .ok p.control ∧
      p.arena.root = some root ∧ p.arena.Unfolds F t.standard root ∧
      p.arena.rootTree? = some t.standard := by
  obtain ⟨a, root, F, hform, -, hroot, -, hunfolds⟩ := Arena.unfolds_standardForm_of_isWellFormed ht
  simp only [Arena.program, hform, Except.mapError, bind, Except.bind] at hp
  cases hcontrol : a.control with
  | error e =>
    rw [hcontrol] at hp
    exact nomatch hp
  | ok c =>
    rw [hcontrol] at hp
    obtain rfl : { arena := a, control := c : Program } = p := Except.ok.inj hp
    exact ⟨root, F, hcontrol, hroot, hunfolds, hunfolds.rootTree?_eq hroot⟩

/-- A program that is built from a program's tree has the tree's canonical form in its arena, and the
    control structures of this arena. -/
theorem Program.exists_of_ofTree {t : Tree Label} {p : Program} (ht : IsPart t)
    (hp : (Arena.ofTree t).program = .ok p) : ∃ root F, p.arena.control = .ok p.control ∧
      p.arena.root = some root ∧ p.arena.Unfolds F t.standard root ∧
      p.arena.rootTree? = some t.standard :=
  exists_of_isWellFormed ht.isWellFormed hp

/-- That tokens are those of a program with a decidable property can be found out by building the
    program. -/
theorem Program.exists_of_tokens {tokens : List Token} {P : Tree Label → Prop} [DecidablePred P]
    (h : ((Tree.ofTokens tokens).toOption.any fun t =>
      (Arena.ofTree t).program.isOk && decide (P t)) = true) :
    ∃ t p, Tree.ofTokens tokens = .ok t ∧ (Arena.ofTree t).program = .ok p ∧ P t := by
  cases ht : Tree.ofTokens tokens with
  | error e =>
    rw [ht] at h
    cases h
  | ok t =>
    rw [ht] at h
    obtain ⟨hok, hP⟩ := Bool.and_eq_true_iff.1 h
    cases hp : (Arena.ofTree t).program with
    | error e =>
      rw [hp] at hok
      cases hok
    | ok p => exact ⟨t, p, rfl, hp, of_decide_eq_true hP⟩

/-- A program that is built from a tree has the code of the tree's canonical form. -/
theorem Program.codes_of_ofTree {t : Tree Label} {p : Program} (ht : IsPart t)
    (hstandard : IsStandard t.standard) (hp : (Arena.ofTree t).program = .ok p) :
    p.arena.rootTree? = some t.standard ∧
      p.control.Codes p.arena t.standard.numbered p.control.root.body.reverse := by
  obtain ⟨root, F, hcontrol, hroot, hunfolds, htree⟩ := Program.exists_of_ofTree ht hp
  exact ⟨htree, Control.codes_numbered hcontrol hroot hunfolds hstandard.isFlattenable⟩

/-- A program that is built from an expression has the code of the expression's canonical form. -/
theorem Program.codes_of_isExpression {t : Tree Label} {p : Program} (ht : t.IsExpression)
    (hp : (Arena.ofTree t).program = .ok p) :
    p.control.Codes p.arena t.standard.numbered p.control.root.body.reverse := by
  obtain ⟨root, F, hcontrol, hroot, hunfolds, -⟩ := Program.exists_of_isWellFormed ht.wellFormed hp
  exact Control.codes_numbered hcontrol hroot hunfolds ht.core.isFlattenable

end Rpal
