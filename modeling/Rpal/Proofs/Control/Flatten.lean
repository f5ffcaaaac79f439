import Rpal.Control.Flatten
import Rpal.Proofs.Arena.Unfold
import Rpal.Proofs.Control.Numbering

/-!
# The control structures of a tree

What the control sequences of a program have to do with its tree.

`Emits` relates a node to its code up to the bodies of the lambdas met below it, of which it says the
numbers and the places only. It holds as soon as the node is flattened. `Outlines` says the same of
the tree that the node unfolds to. A sequence is taken there in the order in which it is reduced, from
the last item to the first: the code of a node is the code of its children, from the right to the
left, before the item for the node itself.

## Key results

- `items_emits`: flattening makes the code of a tree, and notes the bodies met
- `bodies_emits`: when no body is pending, every delta has the code of its body
- `worklist_of_control`, `sources_of_control`: the deltas of a program have the code of its tree and
  of all bodies
-/

namespace Rpal

namespace Tree

/-- The tree has the constructs that can be flattened: a lambda has something to bind and a body,
    a conditional has a condition and two branches, and there is nothing that standardization
    removes. -/
inductive IsFlattenable : Tree Label → Prop where
  | lambda {l : Label} {x e} : l.kind = .lambda → IsFormal x → IsFlattenable e →
      IsFlattenable (.node l [x, e])
  | conditional {l : Label} {p e₁ e₂} : l.kind = .conditional → IsFlattenable p →
      IsFlattenable e₁ → IsFlattenable e₂ → IsFlattenable (.node l [p, e₁, e₂])
  | plain {l : Label} {ts} : l.kind ≠ .lambda → l.kind ≠ .conditional →
      Flattening.isRemoved l.kind = false → (∀ t ∈ ts, IsFlattenable t) →
      IsFlattenable (.node l ts)

/-- What is evaluated is not removed. -/
theorem isRemoved_of_admits {kind : Kind} {n : Nat} (h : kind.admits n = true) :
    Flattening.isRemoved kind = false := by
  cases kind <;> first | rfl | cases h

/-- An expression of the core language can be flattened. -/
theorem IsCore.isFlattenable {t : Tree Label} (h : IsCore t) : IsFlattenable t := by
  induction h with
  | @plain l ts hadmits _ ih =>
    by_cases hl : l.kind = .conditional
    · rw [hl] at hadmits
      match ts, hadmits, ih with
      | [p, e₁, e₂], _, ih =>
        simp only [List.forall_mem_cons] at ih
        exact .conditional hl ih.1 ih.2.1 ih.2.2.1
    · refine .plain ?_ hl (isRemoved_of_admits hadmits) ih
      intro hlambda
      rw [hlambda] at hadmits
      cases hadmits
  | lambda hl hx _ ih => exact .lambda hl hx ih

/-- A tree in canonical form can be flattened. -/
theorem IsStandard.isFlattenable {t : Tree Label} (h : IsStandard t) : IsFlattenable t :=
  h.isCore.isFlattenable

/-- The bodies that are met can be flattened. -/
theorem IsFlattenable.met {t : Tree Label} (h : IsFlattenable t) :
    ∀ e ∈ Tree.met t, IsFlattenable e := by
  induction h with
  | lambda hl _ he _ =>
    rw [met_lambda hl]
    exact List.forall_mem_singleton.2 he
  | conditional hl _ _ _ ih ih₁ ih₂ =>
    rw [met_conditional hl]
    exact List.forall_mem_append.2 ⟨List.forall_mem_append.2 ⟨ih₁, ih₂⟩, ih⟩
  | plain hlambda hcond _ _ ih =>
    rw [met_plain hlambda hcond, metAll_eq_flatMap]
    intro e he
    obtain ⟨t, ht, he⟩ := List.mem_flatMap.1 he
    exact ih t ht e he

end Tree

namespace Control

/-- The control structures have at least the deltas and betas of `c`. Bodies of deltas may be filled
    in. -/
structure Extends (c c' : Control) : Prop where
  deltas_le : c.deltas.size ≤ c'.deltas.size
  betas_le : c.betas.size ≤ c'.betas.size
  index_eq : ∀ k < c.deltas.size, (c'.delta k).index = (c.delta k).index
  vars_eq : ∀ k < c.deltas.size, (c'.delta k).vars = (c.delta k).vars
  line_eq : ∀ k < c.deltas.size, (c'.delta k).line = (c.delta k).line
  beta_eq : ∀ j < c.betas.size, c'.beta j = c.beta j

/-- What extends an extension extends the control structures. -/
theorem Extends.trans {c c' c'' : Control} (h : Extends c c') (h' : Extends c' c'') :
    Extends c c'' where
  deltas_le := Nat.le_trans h.deltas_le h'.deltas_le
  betas_le := Nat.le_trans h.betas_le h'.betas_le
  index_eq k hk :=
    (h'.index_eq k (Nat.lt_of_lt_of_le hk h.deltas_le)).trans (h.index_eq k hk)
  vars_eq k hk := (h'.vars_eq k (Nat.lt_of_lt_of_le hk h.deltas_le)).trans (h.vars_eq k hk)
  line_eq k hk := (h'.line_eq k (Nat.lt_of_lt_of_le hk h.deltas_le)).trans (h.line_eq k hk)
  beta_eq j hj := (h'.beta_eq j (Nat.lt_of_lt_of_le hj h.betas_le)).trans (h.beta_eq j hj)

mutual

/-- Flattening the node at place `id` makes the code, from the first item to the last. The lambdas met
    on the way have the deltas from `n` up to `n'`, whose bodies are at these `places`, and the
    conditionals have the betas from `b` up to `b'`. -/
inductive Emits (a : Arena) (c : Control) (places : List Nat) :
    Nat → Nat → Nat → List ControlItem → Nat → Nat → Prop where
  | lambda {id x e n b} : a.kind id = .lambda → a.children id = [x, e] → places[n]? = some e →
      n < c.deltas.size → (c.delta n).index = n →
      Flattening.boundNames a x = .ok (c.delta n).vars → (c.delta n).line = a.line e →
      Emits a c places id n b [.delta n] (n + 1) b
  -- the branches are numbered first, then the conditional, and then its condition
  | conditional {id p e₁ e₂ n b n₁ b₁ n₂ j n' b' code code₁ code₂} : a.kind id = .conditional →
      a.children id = [p, e₁, e₂] → Emits a c places e₁ n b code₁ n₁ b₁ →
      Emits a c places e₂ n₁ b₁ code₂ n₂ j → j < c.betas.size →
      c.beta j = { line := a.line id, whenTrue := code₁, whenFalse := code₂ } →
      Emits a c places p n₂ (j + 1) code n' b' → Emits a c places id n b (.beta j :: code) n' b'
  | plain {id n b codes n' b'} : a.kind id ≠ .lambda → a.kind id ≠ .conditional →
      EmitsAll a c places (a.children id) n b codes n' b' →
      Emits a c places id n b (.node id :: codes) n' b'

/-- Flattening several nodes makes their code, one after the other. -/
inductive EmitsAll (a : Arena) (c : Control) (places : List Nat) :
    List Nat → Nat → Nat → List ControlItem → Nat → Nat → Prop where
  | nil {n b} : EmitsAll a c places [] n b [] n b
  | cons {id ids n b code n₁ b₁ codes n' b'} : Emits a c places id n b code n₁ b₁ →
      EmitsAll a c places ids n₁ b₁ codes n' b' →
      EmitsAll a c places (id :: ids) n b (code ++ codes) n' b'

end

/-- The first `index` deltas have the code of their bodies, which were flattened in this order. The
    bodies met until then have the deltas before `n`, the conditionals the betas before `b`. -/
inductive EmitsBodies (a : Arena) (c : Control) (places : List Nat) : Nat → Nat → Nat → Prop where
  | zero {root} : places[0]? = some root → 0 < c.deltas.size → (c.delta 0).index = 0 →
      (c.delta 0).vars = [] → (c.delta 0).line = a.line root → EmitsBodies a c places 0 1 0
  | succ {index id n b n' b'} : EmitsBodies a c places index n b → index < n →
      places[index]? = some id → Emits a c places id n b (c.delta index).body n' b' →
      EmitsBodies a c places (index + 1) n' b'

variable {a : Arena} {c c' : Control} {places places' : List Nat}

/-- A place keeps its number when places are added behind. -/
theorem getElem?_mono (h : places <+: places') {k id : Nat} (hk : places[k]? = some id) :
    places'[k]? = some id := by
  obtain ⟨more, rfl⟩ := h
  rw [List.getElem?_append_left (List.getElem?_eq_some_iff.1 hk).1, hk]

mutual

/-- Code stays code when more is flattened. -/
theorem Emits.mono (hc : Extends c c') (hp : places <+: places') {id n b n' b' : Nat}
    {code : List ControlItem} : Emits a c places id n b code n' b' →
      Emits a c' places' id n b code n' b'
  | .lambda hl hchildren hplace hn hindex hvars hline =>
    .lambda hl hchildren (getElem?_mono hp hplace) (Nat.lt_of_lt_of_le hn hc.deltas_le)
      ((hc.index_eq _ hn).trans hindex) (hvars.trans (congrArg _ (hc.vars_eq _ hn).symm))
      ((hc.line_eq _ hn).trans hline)
  | .conditional hl hchildren h₁ h₂ hj hbeta h =>
    .conditional hl hchildren (h₁.mono hc hp) (h₂.mono hc hp) (Nat.lt_of_lt_of_le hj hc.betas_le)
      ((hc.beta_eq _ hj).trans hbeta) (h.mono hc hp)
  | .plain hlambda hcond hs => .plain hlambda hcond (hs.mono hc hp)

/-- Code stays code of its nodes in extended control structures. -/
theorem EmitsAll.mono (hc : Extends c c') (hp : places <+: places') {ids : List Nat}
    {n b n' b' : Nat} {codes : List ControlItem} : EmitsAll a c places ids n b codes n' b' →
      EmitsAll a c' places' ids n b codes n' b'
  | .nil => .nil
  | .cons h hs => .cons (h.mono hc hp) (hs.mono hc hp)

end

/-- Bodies that are filled in stay so when more is flattened. -/
theorem EmitsBodies.mono {index n b : Nat} (h : EmitsBodies a c places index n b)
    (hc : Extends c c') (hp : places <+: places')
    (hbody : ∀ k < index, (c'.delta k).body = (c.delta k).body) :
    EmitsBodies a c' places' index n b := by
  induction h with
  | zero hplace hpos hindex hvars hline =>
    exact .zero (getElem?_mono hp hplace) (Nat.lt_of_lt_of_le hpos hc.deltas_le)
      ((hc.index_eq 0 hpos).trans hindex) ((hc.vars_eq 0 hpos).trans hvars)
      ((hc.line_eq 0 hpos).trans hline)
  -- the body itself is not changed any more once it is filled in
  | @succ index id n b n' b' _ hlt hplace hemits ih =>
    refine .succ (ih fun k hk => hbody k (Nat.lt_succ_of_lt hk)) hlt
      (getElem?_mono hp hplace) ?_
    rw [hbody index (Nat.lt_succ_self index)]
    exact hemits.mono hc hp

mutual

/-- The code of a tree. The lambdas met in it have the deltas from `n` on. -/
inductive Outlines (a : Arena) (c : Control) : Tree Label → Nat → List ControlItem → Prop where
  | lambda {l x e n} : l.kind = .lambda → n < c.deltas.size → (c.delta n).index = n →
      (c.delta n).vars = x.boundNames → (c.delta n).line = e.label.line →
      Outlines a c (.node l [x, e]) n [.delta n]
  | conditional {l p e₁ e₂ n j code code₁ code₂} : l.kind = .conditional → j < c.betas.size →
      c.beta j = { line := l.line, whenTrue := code₁.reverse, whenFalse := code₂.reverse } →
      Outlines a c e₁ n code₁ → Outlines a c e₂ (n + (Tree.met e₁).length) code₂ →
      Outlines a c p (n + (Tree.met e₁).length + (Tree.met e₂).length) code →
      Outlines a c (.node l [p, e₁, e₂]) n (code ++ [.beta j])
  | plain {l ts n id codes} : l.kind ≠ .lambda → l.kind ≠ .conditional → a.label id = l →
      (a.children id).length = ts.length → OutlinesAll a c ts n codes →
      Outlines a c (.node l ts) n (codes ++ [.node id])

/-- The code of several trees, that of the last tree first. -/
inductive OutlinesAll (a : Arena) (c : Control) : List (Tree Label) → Nat → List ControlItem → Prop
    where
  | nil {n} : OutlinesAll a c [] n []
  | cons {t ts n code codes} : Outlines a c t n code →
      OutlinesAll a c ts (n + (Tree.met t).length) codes →
      OutlinesAll a c (t :: ts) n (codes ++ code)

end

end Control

namespace Flattening

open Control Rpal.Tree

variable {a : Arena} {F : Set Nat} {α β : Type} {t : Tree Label} {d d' d'' : ControlDraft}

/-! ### One tree -/

/-- A sequence succeeds if its first part does, and the second one behind it. -/
theorem bind_eq_ok {x : Flattening α} {f : α → Flattening β} {r : β × ControlDraft} :
    (x >>= f) d = .ok r ↔ ∃ v d', x d = .ok (v, d') ∧ f v d' = .ok r := by
  simp only [bind, StateT.bind, Except.bind]
  cases x d with
  | error e => simp
  | ok p =>
    obtain ⟨v, d'⟩ := p
    simp

/-- A check succeeds without a change. -/
theorem lift_eq_ok {x : Except BuildError α} {v : α} :
    (liftM x : Flattening α) d = .ok (v, d') ↔ x = .ok v ∧ d' = d := by
  cases x with
  | error e => exact ⟨nofun, nofun⟩
  | ok w =>
    constructor
    · intro h
      obtain ⟨rfl, rfl⟩ := Prod.mk.inj (Except.ok.inj h)
      exact ⟨rfl, rfl⟩
    · rintro ⟨h, rfl⟩
      rw [Except.ok.inj h]
      rfl

/-- The draft `d'` comes from `d` by flattening trees in which lambdas with the given bodies are
    met. -/
structure Flattened (a : Arena) (F : Set Nat) (d d' : ControlDraft) (bodies : List (Tree Label)) :
    Prop where
  size_eq : d'.control.deltas.size = d.control.deltas.size + bodies.length
  betas_le : d.control.betas.size ≤ d'.control.betas.size
  delta_eq : ∀ k < d.control.deltas.size, d'.control.delta k = d.control.delta k
  beta_eq : ∀ j < d.control.betas.size, d'.control.beta j = d.control.beta j
  pending : ∃ places, d'.pending = d.pending ++ places ∧ List.Forall₂ (a.Unfolds F) bodies places

theorem Flattened.refl (a : Arena) (F : Set Nat) (d : ControlDraft) : Flattened a F d d [] :=
  ⟨rfl, Nat.le_refl _, fun _ _ => rfl, fun _ _ => rfl, [], (List.append_nil _).symm, .nil⟩

/-- Flattening goes on where it stopped. -/
theorem Flattened.trans {es es' : List (Tree Label)} (h : Flattened a F d d' es)
    (h' : Flattened a F d' d'' es') : Flattened a F d d'' (es ++ es') := by
  obtain ⟨places, hpending, hes⟩ := h.pending
  obtain ⟨places', hpending', hes'⟩ := h'.pending
  refine ⟨?_, Nat.le_trans h.betas_le h'.betas_le, fun k hk => ?_, fun j hj => ?_,
    places ++ places', ?_, List.rel_append hes hes'⟩
  · rw [h'.size_eq, h.size_eq, List.length_append, Nat.add_assoc]
  · rw [h'.delta_eq k (by rw [h.size_eq]; omega), h.delta_eq k hk]
  · rw [h'.beta_eq j (Nat.lt_of_lt_of_le hj h.betas_le), h.beta_eq j hj]
  · rw [hpending', hpending, List.append_assoc]

/-- Flattening only adds control structures. -/
theorem Flattened.extends {es : List (Tree Label)} (h : Flattened a F d d' es) :
    Extends d.control d'.control where
  deltas_le := by rw [h.size_eq]; omega
  betas_le := h.betas_le
  index_eq k hk := by rw [h.delta_eq k hk]
  vars_eq k hk := by rw [h.delta_eq k hk]
  line_eq k hk := by rw [h.delta_eq k hk]
  beta_eq := h.beta_eq

/-- A new delta has the next number. -/
theorem delta_addDelta_self (d : ControlDraft) (vars : List String) (line body : Nat) :
    (d.addDelta vars line body).control.delta d.control.deltas.size =
      { index := d.control.deltas.size, vars, line, body := [] } := by
  simp [ControlDraft.addDelta, Control.delta, Array.getD]

/-- A new delta is seen at its number only. -/
theorem delta_addDelta_of_lt {k : Nat} (vars : List String) (line body : Nat)
    (hk : k < d.control.deltas.size) :
    (d.addDelta vars line body).control.delta k = d.control.delta k := by
  simp [ControlDraft.addDelta, Control.delta, Array.getD, hk, Nat.lt_succ_of_lt hk,
    Array.getElem_push_lt]

/-- A new beta has the next number. -/
theorem beta_addBeta_self (d : ControlDraft) (b : Beta) :
    (d.addBeta b).control.beta d.control.betas.size = b := by
  simp [ControlDraft.addBeta, Control.beta, Array.getD]

/-- A new beta is seen at its number only. -/
theorem beta_addBeta_of_lt {j : Nat} (b : Beta) (hj : j < d.control.betas.size) :
    (d.addBeta b).control.beta j = d.control.beta j := by
  simp [ControlDraft.addBeta, Control.beta, Array.getD, hj, Nat.lt_succ_of_lt hj,
    Array.getElem_push_lt]

/-- A lambda adds its delta. -/
theorem flattened_addDelta {e : Tree Label} {id : Nat} (vars : List String) (line : Nat)
    (h : a.Unfolds F e id) : Flattened a F d (d.addDelta vars line id) [e] where
  size_eq := by simp [ControlDraft.addDelta]
  betas_le := Nat.le_refl _
  delta_eq k hk := delta_addDelta_of_lt vars line id hk
  beta_eq _ _ := rfl
  pending := ⟨[id], rfl, .cons h .nil⟩

/-- A conditional adds its beta. -/
theorem flattened_addBeta (a : Arena) (F : Set Nat) (d : ControlDraft) (b : Beta) :
    Flattened a F d (d.addBeta b) [] where
  size_eq := rfl
  betas_le := by simp [ControlDraft.addBeta]
  delta_eq _ _ := rfl
  beta_eq _ hj := beta_addBeta_of_lt b hj
  pending := ⟨[], (List.append_nil _).symm, .nil⟩

/-- A name that can be bound is that of the node. -/
theorem eq_of_boundName {id : Nat} {name : String} (h : boundName a id = .ok name) :
    name = (a.label id).content := by
  simp only [boundName] at h
  split at h
  · exact (Except.ok.inj h).symm
  · exact nomatch h

/-- The names that can be bound are those of the nodes. -/
theorem eq_of_mapM_boundName {ts : List (Tree Label)} {ids : List Nat} {names : List String}
    (h : List.Forall₂ (a.Unfolds F) ts ids) (hnames : ids.mapM (boundName a) = .ok names) :
    names = ts.map (·.label.content) := by
  induction h generalizing names with
  | nil => exact (Except.ok.inj hnames).symm
  | @cons t id ts ids ht _ ih =>
    simp only [List.mapM_cons, bind, Except.bind] at hnames
    split at hnames
    · exact nomatch hnames
    next name hname =>
    split at hnames
    · exact nomatch hnames
    next rest hrest =>
    rw [← Except.ok.inj hnames, eq_of_boundName hname, ih hrest, List.map_cons, ht.label_eq]

/-- The names that can be bound are those of the parameter. -/
theorem eq_of_boundNames {id : Nat} {vars : List String} (h : a.Unfolds F t id)
    (hvars : boundNames a id = .ok vars) : vars = t.boundNames := by
  cases t with
  | node l ts =>
    have hl : a.label id = l := h.label_eq
    simp only [boundNames, Arena.kind, hl] at hvars
    split at hvars
    · next hk =>
      simp only [Tree.boundNames, Labelled.toLabel, id_eq, hk]
      exact (Except.ok.inj hvars).symm
    · next hk =>
      simp only [Tree.boundNames, Labelled.toLabel, id_eq, hk]
      exact eq_of_mapM_boundName h.children.2 hvars
    · -- anything else is one name, or cannot be bound
      next hunit hnames =>
      simp only [bind, Except.bind] at hvars
      split at hvars
      · cases hvars
      next name hname =>
      rw [← Except.ok.inj hvars, eq_of_boundName hname, hl]
      exact (Tree.boundNames_of_ne (a := l) hunit hnames).symm

/-- The item of a lambda is its delta, which has the next number. -/
theorem lambdaItem_emits {l : Label} {x e : Tree Label} {id : Nat} {item : ControlItem}
    {done : List Nat} (hl : l.kind = .lambda) (h : a.Unfolds F (.node l [x, e]) id)
    (hdone : (done ++ d.pending).length = d.control.deltas.size)
    (hrun : lambdaItem a id d = .ok (item, d')) :
    Emits a d'.control (done ++ d'.pending) id d.control.deltas.size d.control.betas.size [item]
      d'.control.deltas.size d'.control.betas.size ∧ Flattened a F d d' [e] := by
  obtain ⟨hchain, hids⟩ := h.children
  generalize hchildren : a.children id = ids at hchain hids
  obtain - | ⟨hux, - | ⟨hue, hnil⟩⟩ := hids
  cases hnil
  obtain ⟨hix, hie, -⟩ := hchain
  simp only [lambdaItem, hix, hie, bind_eq_ok, lift_eq_ok] at hrun
  -- the names are read, the delta is added, and the lambda becomes an item for it
  obtain ⟨vars, d₁, ⟨hvars, rfl⟩, index, d₂, hnew, hitem⟩ := hrun
  obtain ⟨rfl, rfl⟩ := Prod.mk.inj (Except.ok.inj hnew)
  obtain ⟨rfl, rfl⟩ := Prod.mk.inj (Except.ok.inj hitem)
  rename_i ix ie
  have hdelta := delta_addDelta_self d₁ vars (a.line ie) ie
  have hflat := flattened_addDelta vars (a.line ie) hue (d := d₁)
  -- the place of the body is noted where the number of the delta says
  have hplace : (done ++ (d₁.addDelta vars (a.line ie) ie).pending)[d₁.control.deltas.size]? =
      some ie := by
    show (done ++ (d₁.pending ++ [ie]))[d₁.control.deltas.size]? = some ie
    rw [← List.append_assoc, ← hdone, List.getElem?_concat_length]
  have hkind : a.kind id = .lambda := by rw [Arena.kind, h.label_eq]; exact hl
  refine ⟨?_, hflat⟩
  rw [hflat.size_eq]
  refine .lambda hkind hchildren hplace ?_ ?_ ?_ ?_
  · rw [hflat.size_eq]
    exact Nat.lt_succ_self _
  · rw [hdelta]
  · rw [hdelta, hvars]
  · rw [hdelta]

/-- A construct without code of its own is followed by its children. -/
theorem items_plain {depth id : Nat} {before : List ControlItem} (hlambda : a.kind id ≠ .lambda)
    (hcond : a.kind id ≠ .conditional) : items a (depth + 1) before id =
      if isRemoved (a.kind id) then throw (.unexpectedConstruct (a.kind id) (a.line id))
      else (a.children id).foldlM (items a depth) (.node id :: before) := by
  rw [items]
  split
  · exact absurd ‹_› hlambda
  · exact absurd ‹_› hcond
  · rfl

/-- The places of all deltas are noted. -/
theorem Flattened.length_done {es : List (Tree Label)} {done : List Nat}
    (h : Flattened a F d d' es) (hdone : (done ++ d.pending).length = d.control.deltas.size) :
    (done ++ d'.pending).length = d'.control.deltas.size := by
  obtain ⟨places, hpending, hes⟩ := h.pending
  rw [hpending, ← List.append_assoc, List.length_append, hdone, h.size_eq, hes.length_eq]

/-- Bodies that wait are not given up. -/
theorem Flattened.isPrefix {es : List (Tree Label)} (h : Flattened a F d d' es) (done : List Nat) :
    (done ++ d.pending) <+: (done ++ d'.pending) := by
  obtain ⟨places, hpending, -⟩ := h.pending
  exact ⟨places, by rw [hpending, List.append_assoc]⟩

/-- Flattening to this depth makes the code of a tree in front of what is there, and notes the bodies
    met. The bodies at the places `done` are flattened already, or are being flattened. -/
def EmitsTo (a : Arena) (F : Set Nat) (done : List Nat) (depth : Nat) : Prop :=
  ∀ {t : Tree Label} {id : Nat} {before code : List ControlItem} {d d' : ControlDraft},
    a.Unfolds F t id → IsFlattenable t → t.linkDepth < depth →
    (done ++ d.pending).length = d.control.deltas.size →
    items a depth before id d = .ok (code, d') →
    ∃ new, code = new ++ before ∧
      Emits a d'.control (done ++ d'.pending) id d.control.deltas.size d.control.betas.size
        new.reverse d'.control.deltas.size d'.control.betas.size ∧
      Flattened a F d d' (met t)

section

variable {depth id : Nat} {ids done : List Nat} {before code : List ControlItem} {l : Label}
  {ts : List (Tree Label)}

/-- Several trees are flattened one after the other. -/
theorem EmitsTo.foldlM (hitems : EmitsTo a F done depth) (hids : List.Forall₂ (a.Unfolds F) ts ids)
    (hts : ∀ t ∈ ts, IsFlattenable t) (hdepth : ∀ t ∈ ts, t.linkDepth < depth)
    (hdone : (done ++ d.pending).length = d.control.deltas.size)
    (hrun : ids.foldlM (items a depth) before d = .ok (code, d')) :
    ∃ new, code = new ++ before ∧
      EmitsAll a d'.control (done ++ d'.pending) ids d.control.deltas.size d.control.betas.size
        new.reverse d'.control.deltas.size d'.control.betas.size ∧
      Flattened a F d d' (metAll ts) := by
  induction hids generalizing before d with
  | nil =>
    obtain ⟨rfl, rfl⟩ := Prod.mk.inj (Except.ok.inj hrun)
    exact ⟨[], rfl, .nil, .refl a F _⟩
  | cons h _ ih =>
    obtain ⟨ht, hts⟩ := List.forall_mem_cons.1 hts
    obtain ⟨hd, hds⟩ := List.forall_mem_cons.1 hdepth
    rw [List.foldlM_cons, bind_eq_ok] at hrun
    obtain ⟨mid, d₁, hrun, hruns⟩ := hrun
    -- the code of the first tree is kept while the others add theirs in front
    obtain ⟨new, rfl, hnew, hflat⟩ := hitems h ht hd hdone hrun
    obtain ⟨more, rfl, hmore, hflat'⟩ := ih hts hds (hflat.length_done hdone) hruns
    refine ⟨more ++ new, (List.append_assoc ..).symm, ?_, hflat.trans hflat'⟩
    rw [List.reverse_append]
    exact .cons (hnew.mono hflat'.extends (hflat'.isPrefix done)) hmore

/-- The branches of a conditional are flattened, and then, behind its beta, the condition. -/
theorem EmitsTo.conditional {p e₁ e₂ : Tree Label} (hitems : EmitsTo a F done depth)
    (hl : l.kind = .conditional) (h : a.Unfolds F (.node l [p, e₁, e₂]) id)
    (ht : ∀ t ∈ [p, e₁, e₂], IsFlattenable t) (hdepth : ∀ t ∈ [p, e₁, e₂], t.linkDepth < depth)
    (hdone : (done ++ d.pending).length = d.control.deltas.size)
    (hrun : items a (depth + 1) before id d = .ok (code, d')) :
    ∃ new, code = new ++ before ∧
      Emits a d'.control (done ++ d'.pending) id d.control.deltas.size d.control.betas.size
        new.reverse d'.control.deltas.size d'.control.betas.size ∧
      Flattened a F d d' (met (.node l [p, e₁, e₂])) := by
  have hk : a.kind id = .conditional := by rw [Arena.kind, h.label_eq]; exact hl
  obtain ⟨-, hids⟩ := h.children
  simp only [List.forall_mem_cons] at ht hdepth
  obtain ⟨hp, h₁, h₂, -⟩ := ht
  obtain ⟨hdp, hd₁, hd₂, -⟩ := hdepth
  generalize hch : a.children id = ids at hids
  obtain - | ⟨hup, - | ⟨hu₁, - | ⟨hu₂, hnil⟩⟩⟩ := hids
  cases hnil
  simp only [items, hk, hch, bind_eq_ok] at hrun
  obtain ⟨code₁, d₁, hrun₁, code₂, d₂, hrun₂, j, d₃, hbeta, hrun₃⟩ := hrun
  obtain ⟨rfl, rfl⟩ := Prod.mk.inj (Except.ok.inj hbeta)
  obtain ⟨new₁, rfl, hnew₁, hflat₁⟩ := hitems hu₁ h₁ hd₁ hdone hrun₁
  have hdone₁ := hflat₁.length_done hdone
  obtain ⟨new₂, rfl, hnew₂, hflat₂⟩ := hitems hu₂ h₂ hd₂ hdone₁ hrun₂
  generalize hb : ({ line := _, whenTrue := _, whenFalse := _ } : Beta) = b at hrun₃
  have hflat₃ := flattened_addBeta a F d₂ b
  obtain ⟨new, rfl, hnew, hflat⟩ :=
    hitems hup hp hdp (hflat₃.length_done (hflat₂.length_done hdone₁)) hrun₃
  have hrest := hflat₃.trans hflat
  have hall := hflat₁.trans (hflat₂.trans hrest)
  have hsize : (d₂.addBeta b).control.deltas.size = d₂.control.deltas.size := rfl
  have hbetas : (d₂.addBeta b).control.betas.size = d₂.control.betas.size + 1 := by
    simp [ControlDraft.addBeta]
  rw [hsize, hbetas] at hnew
  refine ⟨new ++ [.beta d₂.control.betas.size], by simp, ?_, ?_⟩
  · rw [List.reverse_concat]
    -- the code of the branches is not changed by what is flattened after them
    refine .conditional hk hch
      (hnew₁.mono (hflat₂.trans hrest).extends ((hflat₂.trans hrest).isPrefix done))
      (hnew₂.mono hrest.extends (hrest.isPrefix done)) ?_ ?_ hnew
    · have hle := hflat.betas_le
      omega
    · rw [hflat.beta_eq _ (by omega), beta_addBeta_self, ← hb, List.append_nil, List.append_nil]
  · rwa [met_conditional hl, List.append_assoc]

end

/-- Flattening makes the code of a tree in front of what is there, and notes the bodies met. -/
theorem items_emits (a : Arena) (F : Set Nat) (done : List Nat) (depth : Nat) :
    EmitsTo a F done depth := by
  intro t id before code d d' h ht hdepth hdone hrun
  induction depth generalizing t id before code d d' with
  | zero => exact absurd hdepth (Nat.not_lt_zero _)
  | succ depth ih =>
    have hk : a.kind id = t.label.kind := by rw [Arena.kind, h.label_eq]
    -- the induction is on the depth, and a lambda is an item of its own, whatever is below it
    cases ht with
    | @lambda l x e hl _ _ =>
      have hk : a.kind id = .lambda := hk.trans hl
      simp only [items, hk, bind_eq_ok] at hrun
      obtain ⟨item, d₁, hitem, hrun⟩ := hrun
      obtain ⟨rfl, rfl⟩ := Prod.mk.inj (Except.ok.inj hrun)
      obtain ⟨hcode, hflat⟩ := lambdaItem_emits hl h hdone hitem
      exact ⟨[item], rfl, hcode, by rwa [met_lambda hl]⟩
    | @conditional l p e₁ e₂ hl hp h₁ h₂ =>
      have ht : ∀ t ∈ [p, e₁, e₂], IsFlattenable t := by simpa using ⟨hp, h₁, h₂⟩
      exact EmitsTo.conditional ih hl h ht (linkDepth_children_lt hdepth) hdone hrun
    | @plain l ts hlambda hcond _ hts =>
      obtain ⟨-, hids⟩ := h.children
      rw [items_plain (hk ▸ hlambda) (hk ▸ hcond)] at hrun
      split at hrun
      · cases hrun
      · obtain ⟨new, rfl, hnew, hflat⟩ :=
          EmitsTo.foldlM ih hids hts (linkDepth_children_lt hdepth) hdone hrun
        refine ⟨new ++ [.node id], by simp, ?_, by rwa [met_plain hlambda hcond]⟩
        rw [List.reverse_concat]
        exact .plain (hk ▸ hlambda) (hk ▸ hcond) hnew

end Flattening

/-! ### The code of the trees -/

namespace Control

open Rpal.Tree

variable {a : Arena} {F : Set Nat} {c : Control} {places : List Nat}

mutual

/-- The code of a node is that of the tree it unfolds to. -/
theorem Emits.outlines : ∀ {t : Tree Label} {id n b n' b' : Nat} {code : List ControlItem},
    Emits a c places id n b code n' b' → a.Unfolds F t id →
      Outlines a c t n code.reverse ∧ n' = n + (met t).length
  | .node l ts, _, _, _, _, _, _, .lambda hk hchildren _ hn hindex hvars hline, h => by
    have hl : l.kind = .lambda := by rw [← hk, Arena.kind, h.label_eq]; rfl
    obtain ⟨-, hids⟩ := h.children
    rw [hchildren] at hids
    obtain - | ⟨hux, - | ⟨hue, hnil⟩⟩ := hids
    cases hnil
    rw [met_lambda hl]
    refine ⟨.lambda hl hn hindex (Flattening.eq_of_boundNames hux hvars) ?_, rfl⟩
    rw [hline, Arena.line, hue.label_eq]
  | .node l ts, _, _, _, _, _, _, .conditional hk hchildren h₁ h₂ hj hbeta hp, h => by
    have hl : l.kind = .conditional := by rw [← hk, Arena.kind, h.label_eq]; rfl
    obtain ⟨-, hids⟩ := h.children
    rw [hchildren] at hids
    obtain - | ⟨hup, - | ⟨hu₁, - | ⟨hu₂, hnil⟩⟩⟩ := hids
    cases hnil
    -- the branches come first, and the condition goes on with the next number
    obtain ⟨hout₁, rfl⟩ := h₁.outlines hu₁
    obtain ⟨hout₂, rfl⟩ := h₂.outlines hu₂
    obtain ⟨hout, rfl⟩ := hp.outlines hup
    rw [List.reverse_cons, met_conditional hl, List.length_append, List.length_append]
    refine ⟨.conditional hl hj ?_ hout₁ hout₂ hout, by omega⟩
    rw [hbeta, List.reverse_reverse, List.reverse_reverse, Arena.line, h.label_eq]
    rfl
  | .node l ts, id, _, _, _, _, _, .plain hlambda hcond hs, h => by
    have hl : a.kind id = l.kind := by rw [Arena.kind, h.label_eq]; rfl
    obtain ⟨-, hids⟩ := h.children
    obtain ⟨hout, hn'⟩ := hs.outlines hids
    rw [hl] at hlambda hcond
    rw [List.reverse_cons, met_plain hlambda hcond]
    exact ⟨.plain hlambda hcond h.label_eq hids.length_eq.symm hout, hn'⟩

/-- Emitted code outlines its trees, and adds a delta for each lambda that is met. -/
theorem EmitsAll.outlines : ∀ {ts : List (Tree Label)} {ids : List Nat} {n b n' b' : Nat}
    {codes : List ControlItem}, EmitsAll a c places ids n b codes n' b' →
      List.Forall₂ (a.Unfolds F) ts ids →
      OutlinesAll a c ts n codes.reverse ∧ n' = n + (metAll ts).length
  | _, _, _, _, _, _, _, .nil, .nil => ⟨.nil, rfl⟩
  | _, _, _, _, _, _, _, .cons h hs, .cons hu hus => by
    obtain ⟨hout, rfl⟩ := h.outlines hu
    obtain ⟨houts, rfl⟩ := hs.outlines hus
    rw [List.reverse_append, metAll, List.length_append]
    exact ⟨.cons hout houts, Nat.add_assoc ..⟩

end

/-- The code of all bodies. -/
theorem EmitsBodies.outlines {src : List (Tree Label)} {index n b : Nat}
    (h : EmitsBodies a c places index n b) (hsrc : List.Forall₂ (a.Unfolds F) src places) :
    n = 1 + ((src.take index).flatMap met).length ∧ ∀ k < index, ∀ t, src[k]? = some t →
      Outlines a c t (1 + ((src.take k).flatMap met).length) (c.delta k).body.reverse := by
  induction h with
  | zero => exact ⟨rfl, fun k hk => absurd hk (Nat.not_lt_zero k)⟩
  | @succ index id n b n' b' _ _ hplace hemits ih =>
    obtain ⟨hn, hout⟩ := ih
    obtain ⟨hlt, rfl⟩ := List.getElem?_eq_some_iff.1 hplace
    have hlt' : index < src.length := hsrc.length_eq ▸ hlt
    have hu : a.Unfolds F src[index] places[index] := List.Forall₂.get hsrc hlt' hlt
    obtain ⟨hcode, hn'⟩ := hemits.outlines hu
    refine ⟨?_, fun k hk t ht => ?_⟩
    · rw [hn', hn, List.take_succ_eq_append_getElem hlt', List.flatMap_append, List.length_append,
        List.flatMap_singleton, Nat.add_assoc]
    · rcases Nat.lt_succ_iff_lt_or_eq.1 hk with hk | rfl
      · exact hout k hk t ht
      · obtain ⟨-, rfl⟩ := List.getElem?_eq_some_iff.1 ht
        rwa [hn] at hcode

end Control

namespace Flattening

open Control Rpal.Tree

variable {a : Arena} {F : Set Nat} {t : Tree Label} {d d' : ControlDraft}

/-! ### All bodies -/

/-- The draft has a delta for each of the trees `src`, the bodies met so far, which are at these
    `places`. Those before `index` are flattened, and the others are pending. -/
structure Worklist (a : Arena) (F : Set Nat) (src : List (Tree Label)) (places : List Nat)
    (index : Nat) (d : ControlDraft) : Prop where
  size_eq : d.control.deltas.size = src.length
  index_le : index ≤ src.length
  tail_eq : src.tail = (src.take index).flatMap met
  flattenable : ∀ t ∈ src, IsFlattenable t
  unfolds : List.Forall₂ (a.Unfolds F) src places
  pending_eq : d.pending = places.drop index
  emits : EmitsBodies a d.control places index d.control.deltas.size d.control.betas.size

/-- What is pending are the bodies that are not yet flattened. -/
theorem Worklist.pending {src : List (Tree Label)} {places : List Nat} {index : Nat}
    (h : Worklist a F src places index d) :
    List.Forall₂ (a.Unfolds F) (src.drop index) d.pending :=
  h.pending_eq ▸ List.forall₂_drop index h.unfolds

/-- The program itself is the first body. -/
theorem Worklist.start {root : Nat} (h : a.Unfolds F t root) (ht : IsFlattenable t) :
    Worklist a F [t] [root] 0 (ControlDraft.empty.addDelta [] (a.line root) root) :=
  ⟨rfl, Nat.zero_le _, rfl, List.forall_mem_singleton.2 ht, .cons h .nil, rfl,
    .zero rfl Nat.one_pos rfl rfl rfl⟩

/-- A body is set for the delta that was asked for. -/
theorem delta_setBody_self {index : Nat} (h : index < d.control.deltas.size)
    (body : List ControlItem) :
    (d.setBody index body).control.delta index = { d.control.delta index with body } := by
  simp [ControlDraft.setBody, Control.delta, Array.getD, h, Array.getElem_modify]

/-- Other deltas keep their bodies. -/
theorem delta_setBody_of_ne {index k : Nat} (h : index ≠ k) (body : List ControlItem) :
    (d.setBody index body).control.delta k = d.control.delta k := by
  by_cases hk : k < d.control.deltas.size
  · simp [ControlDraft.setBody, Control.delta, Array.getD, hk, Array.getElem_modify, h]
  · simp [ControlDraft.setBody, Control.delta, Array.getD, hk]

/-- Filling in a body keeps everything else. -/
theorem extends_setBody {index : Nat} (h : index < d.control.deltas.size)
    (body : List ControlItem) : Extends d.control (d.setBody index body).control := by
  have hdelta (k) : (d.setBody index body).control.delta k =
      if k = index then { d.control.delta index with body } else d.control.delta k := by
    split
    · next heq => rw [heq, delta_setBody_self h]
    · next hne => rw [delta_setBody_of_ne (Ne.symm hne)]
  refine ⟨by simp [ControlDraft.setBody], Nat.le_refl _, ?_, ?_, ?_, fun _ _ => rfl⟩ <;>
  · intro k _
    rw [hdelta]
    split
    · next heq => rw [heq]
    · rfl

/-- One more body is flattened. -/
theorem Worklist.step {src : List (Tree Label)} {places : List Nat} {index body : Nat}
    {more : List Nat} {last : List ControlItem} (h : Worklist a F src places index d)
    (hpending : d.pending = body :: more)
    (hrun : items a a.size [] body { d with pending := more } = .ok (last, d')) :
    ∃ t rest new, src.drop index = t :: rest ∧
      Worklist a F (src ++ met t) (places ++ new) (index + 1)
        (d'.setBody index last.reverse) := by
  have hsrc := h.pending
  rw [hpending] at hsrc
  generalize hdrop : src.drop index = trees at hsrc
  cases hsrc with
  | @cons t _ rest _ ht hrest =>
    have hindex : src[index]? = some t := by
      rw [← List.head?_drop, hdrop]
      rfl
    have hlt : index < src.length := (List.getElem?_eq_some_iff.1 hindex).1
    have hlen := h.unfolds.length_eq
    -- the places of all deltas are those that are done and those that are pending
    have hplaces : places.drop index = body :: more := h.pending_eq.symm.trans hpending
    have hsplit : places.take (index + 1) ++ more = places := by
      have htail : places.drop (index + 1) = more := by
        rw [← List.tail_drop, hplaces, List.tail_cons]
      rw [← htail, List.take_append_drop]
    have hbody : places[index]? = some body := by
      rw [← List.head?_drop, hplaces]
      rfl
    obtain ⟨new, hlast, hnew, hflat⟩ :=
      items_emits a F (places.take (index + 1)) a.size ht
        (h.flattenable t (List.mem_of_getElem? hindex)) ht.linkDepth_lt
        (show (places.take (index + 1) ++ more).length = _ by rw [hsplit, ← hlen, ← h.size_eq]) hrun
    obtain rfl : last = new := by rw [hlast, List.append_nil]
    obtain ⟨met', hmet', hmet⟩ := hflat.pending
    have hmet' : d'.pending = more ++ met' := hmet'
    have hall : places.take (index + 1) ++ d'.pending = places ++ met' := by
      rw [hmet', ← List.append_assoc, hsplit]
    rw [hall] at hnew
    have hsize : d'.control.deltas.size = src.length + (met t).length := by
      rw [hflat.size_eq, ← h.size_eq]
    have hext := extends_setBody (d := d') (by omega : index < d'.control.deltas.size) last.reverse
    have htake_succ : (src ++ met t).take (index + 1) = src.take index ++ [t] := by
      rw [List.take_append_of_le_length hlt, List.take_add_one, hindex]
      rfl
    -- the fields of the new worklist, in order; only the last is about code
    refine ⟨t, rest, met', rfl, ?_, ?_, ?_, ?_, List.rel_append h.unfolds hmet, ?_, ?_⟩
    · rw [List.length_append, ← hsize]
      simp [ControlDraft.setBody]
    · rw [List.length_append]
      omega
    · rw [htake_succ, List.flatMap_append, ← h.tail_eq, List.flatMap_singleton]
      exact List.tail_append_of_ne_nil (List.ne_nil_of_length_pos (by omega))
    · refine List.forall_mem_append.2 ⟨h.flattenable, ?_⟩
      exact (h.flattenable t (List.mem_of_getElem? hindex)).met
    · show d'.pending = _
      rw [List.drop_append_of_le_length (by omega), ← List.tail_drop, hplaces, List.tail_cons, hmet']
    · have hdeltas : (d'.setBody index last.reverse).control.deltas.size =
          d'.control.deltas.size := by simp [ControlDraft.setBody]
      have hbetas : (d'.setBody index last.reverse).control.betas.size =
          d'.control.betas.size := rfl
      rw [hdeltas, hbetas]
      refine .succ (h.emits.mono (hflat.extends.trans hext) ⟨met', rfl⟩ fun k hk => ?_) ?_
        (getElem?_mono ⟨met', rfl⟩ hbody) ?_
      · rw [delta_setBody_of_ne (Nat.ne_of_gt hk), hflat.delta_eq k (by rw [h.size_eq]; omega)]
      · rw [h.size_eq]
        exact hlt
      · rw [delta_setBody_self (by omega)]
        exact hnew.mono hext ⟨[], List.append_nil _⟩

/-- Without a body that waits, flattening is over. -/
theorem bodies_of_nil (h : d.pending = []) (n index : Nat) :
    bodies a (n + 1) index d = .ok ((), d) := by
  rw [bodies, show (get : Flattening ControlDraft) = fun d => .ok (d, d) from rfl]
  simp only [bind, StateT.bind, Except.bind, h]
  rfl

/-- A body that waits is flattened, and then those behind it. -/
theorem bodies_of_cons {body : Nat} {more : List Nat} (h : d.pending = body :: more)
    (n index : Nat) : bodies a (n + 1) index d =
      items a a.size [] body { d with pending := more } >>= fun r =>
        bodies a n (index + 1) (r.2.setBody index r.1.reverse) := by
  rw [bodies, show (get : Flattening ControlDraft) = fun d => .ok (d, d) from rfl]
  simp only [bind, StateT.bind, Except.bind, h]
  rfl

/-- The bodies met in a body are pending behind the others. -/
theorem drop_succ_append_met {src rest : List (Tree Label)} {index : Nat}
    (h : src.drop index = t :: rest) : (src ++ met t).drop (index + 1) = rest ++ met t := by
  have hlt : index < src.length := by
    rw [← Nat.not_le, ← List.drop_eq_nil_iff, h]
    exact List.cons_ne_nil t rest
  rw [List.drop_append_of_le_length hlt, ← List.tail_drop, h, List.tail_cons]

/-- What is pending gets smaller with every body, because the bodies met in it are smaller. -/
theorem sizeAll_drop_succ_lt {src rest : List (Tree Label)} {index : Nat}
    (h : src.drop index = t :: rest) :
    sizeAll ((src ++ met t).drop (index + 1)) < sizeAll (src.drop index) := by
  have hmet := sizeAll_met_lt t
  rw [drop_succ_append_met h, h, sizeAll_append, sizeAll]
  omega

/-- Enough bodies can be flattened for a program. -/
theorem sizeAll_start_le {root : Nat} (h : a.Unfolds F t root) :
    sizeAll ([t].drop 0) ≤ Nat.pow 2 a.size :=
  Nat.le_trans t.size_le_two_pow
    (Nat.pow_le_pow_right (by decide) (Nat.le_of_lt h.linkDepth_lt))

/-- When no body is pending, the work is done. -/
theorem Worklist.finished {n : Nat} {src : List (Tree Label)} {places : List Nat} {index : Nat}
    (h : Worklist a F src places index d) (hdrop : src.drop index = [])
    (hrun : bodies a n index d = .ok ((), d')) :
    ∃ more new, Worklist a F (src ++ more) (places ++ new) (src ++ more).length d' := by
  have hpending : d.pending = [] := by
    have hpending := h.pending
    rw [hdrop] at hpending
    exact List.forall₂_nil_left_iff.1 hpending
  have hd : d' = d := by
    cases n with
    | zero => exact (Prod.mk.inj (Except.ok.inj hrun)).2.symm
    | succ n =>
      rw [bodies_of_nil hpending] at hrun
      exact (Prod.mk.inj (Except.ok.inj hrun)).2.symm
  have hindex : index = src.length :=
    Nat.le_antisymm h.index_le (List.drop_eq_nil_iff.1 hdrop)
  refine ⟨[], [], ?_⟩
  rwa [hd, List.append_nil, List.append_nil, ← hindex]

/-- Flattening all bodies gives every delta the code of its body. The induction is on the number of
    bodies that can be flattened, which the size of what is pending bounds. -/
theorem bodies_emits {n index : Nat} {src : List (Tree Label)} {places : List Nat}
    (h : Worklist a F src places index d) (hn : sizeAll (src.drop index) ≤ n)
    (hrun : bodies a n index d = .ok ((), d')) :
    ∃ more new, Worklist a F (src ++ more) (places ++ new) (src ++ more).length d' := by
  induction n generalizing src places index d with
  | zero =>
    cases hdrop : src.drop index with
    | nil => exact h.finished hdrop hrun
    | cons t rest =>
      have hpos := t.size_pos
      rw [hdrop, sizeAll] at hn
      omega
  -- every body that is flattened makes less of what is pending
  | succ n ih =>
    cases hpending : d.pending with
    | nil =>
      have hdrop := h.pending
      rw [hpending] at hdrop
      exact h.finished (List.forall₂_nil_right_iff.1 hdrop) hrun
    | cons body more =>
      rw [bodies_of_cons hpending] at hrun
      cases hitems : items a a.size [] body { d with pending := more } with
      | error e =>
        rw [hitems] at hrun
        cases hrun
      | ok r =>
        rw [hitems] at hrun
        obtain ⟨t, rest, new, hdrop, hstep⟩ := h.step hpending hitems
        have hlt := sizeAll_drop_succ_lt hdrop
        obtain ⟨more', new', hwork⟩ := ih hstep (by omega) hrun
        refine ⟨met t ++ more', new ++ new', ?_⟩
        rwa [List.append_assoc, List.append_assoc] at hwork

/-- The control structures of a program come from its tree and all bodies met in it. -/
theorem worklist_of_control {root : Nat} {c : Control} (hcontrol : a.control = .ok c)
    (hroot : a.root = some root) (h : a.Unfolds F t root) (ht : IsFlattenable t) :
    ∃ more places d, d.control = c ∧
      Worklist a F (t :: more) (root :: places) (t :: more).length d := by
  simp only [Arena.control, hroot] at hcontrol
  split at hcontrol
  · cases hrun : program a root .empty with
    | error e =>
      simp only [StateT.run, hrun] at hcontrol
      exact nomatch hcontrol
    | ok r =>
      simp only [StateT.run, hrun] at hcontrol
      obtain rfl : r.2.control = c := Except.ok.inj hcontrol
      simp only [program, bind_eq_ok] at hrun
      obtain ⟨_, d, hnew, hrun⟩ := hrun
      obtain ⟨-, rfl⟩ := Prod.mk.inj (Except.ok.inj hnew)
      obtain ⟨more, places, hdone⟩ := bodies_emits (.start h ht) (sizeAll_start_le h) hrun
      exact ⟨more, places, r.2, rfl, hdone⟩
  · exact nomatch hcontrol

/-- The bodies `src` of a program's deltas, the first of which is the program itself. Every body is
    met in one before it. -/
structure Sources (a : Arena) (c : Control) (src : List (Tree Label)) : Prop where
  tail_eq : src.tail = src.flatMap met
  outlines : ∀ k t, src[k]? = some t →
    Outlines a c t (1 + ((src.take k).flatMap met).length) (c.delta k).body.reverse

/-- The control structures of a program have the code of its tree and of all bodies. -/
theorem sources_of_control {root : Nat} {c : Control} (hcontrol : a.control = .ok c)
    (hroot : a.root = some root) (h : a.Unfolds F t root) (ht : IsFlattenable t) :
    ∃ more, Sources a c (t :: more) := by
  obtain ⟨more, places, d, rfl, hdone⟩ := worklist_of_control hcontrol hroot h ht
  obtain ⟨-, hout⟩ := hdone.emits.outlines hdone.unfolds
  refine ⟨more, ?_, fun k t' ht' => hout k (List.getElem?_eq_some_iff.1 ht').1 t' ht'⟩
  exact hdone.tail_eq.trans (by rw [List.take_length])

end Flattening

end Rpal
