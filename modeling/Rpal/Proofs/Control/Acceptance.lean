import Rpal.Proofs.Control.Flatten
import Rpal.Proofs.Tree.Pattern

/-!
# Which programs have control structures

Of all that can go wrong when a tree is flattened, only one thing happens to the canonical form of a
program: a lambda has a nested list of names to bind. This is found out sooner or later, because
every lambda is either met on the way or in a body that is flattened later.

## Key results

- `Arena.control_decides`: the canonical form of an expression is flattened exactly if it has no
  nested list of names to bind
- `SourceFile.control_iff_isFlat`: which programs compile, and how the others fail
-/

namespace Rpal

namespace Flattening

open Rpal.Tree

variable {a : Arena} {F : Set Nat} {α β : Type} {t : Tree Label} {ts : List (Tree Label)}
  {d d' : ControlDraft} {P Q : Prop}

/-! ### Decisions -/

/-- The result tells whether `P` holds: it is an error exactly if not, and then the error is about a
    list of names that is bound as one name. -/
def Decides (x : Except BuildError α) (P : Prop) : Prop :=
  match x with
  | .ok _ => P
  | .error e => ¬P ∧ ∃ line, e = .badParameter .names line

/-- A condition can be said in another way. -/
theorem Decides.congr {x : Except BuildError α} (h : Decides x P) (hPQ : P ↔ Q) : Decides x Q := by
  rwa [← propext hPQ]

/-- Two steps, the second of which is taken only if the first succeeds. -/
theorem Decides.bind {x : Except BuildError α} {f : α → Except BuildError β} (hx : Decides x P)
    (hf : ∀ v, x = .ok v → Decides (f v) Q) : Decides (x >>= f) (P ∧ Q) := by
  cases x with
  | ok v => exact (hf v rfl).congr (and_iff_right hx).symm
  | error e => exact ⟨fun h => hx.1 h.1, hx.2⟩

/-- A step that is followed by one that succeeds. -/
theorem Decides.bind_ok {x : Except BuildError α} {f : α → Except BuildError β} (hx : Decides x P)
    (hf : ∀ v, ∃ w, f v = .ok w) : Decides (x >>= f) P := by
  refine (hx.bind (Q := True) fun v _ => ?_).congr (Iff.of_eq (and_true P))
  obtain ⟨w, hw⟩ := hf v
  rw [hw]
  trivial

/-- Two steps of a flattening. -/
theorem Decides.step {x : Flattening α} {f : α → Flattening β} (hx : Decides (x d) P)
    (hf : ∀ v d', x d = .ok (v, d') → Decides (f v d') Q) : Decides ((x >>= f) d) (P ∧ Q) :=
  hx.bind fun r hr => hf r.1 r.2 hr

/-! ### Parameters -/

/-- A tree of names has a name to bind if it is not a list. -/
theorem decides_boundName {id : Nat} (h : a.Unfolds F t id) (ht : IsNaming t) :
    Decides (boundName a id) (IsName t) := by
  have hk : a.kind id = t.label.kind := by rw [Arena.kind, h.label_eq]
  rw [boundName, hk]
  cases ht with
  | name ht =>
    obtain ⟨l, hl, rfl⟩ := ht
    rw [if_pos (show (leaf l).label.kind = .identifier from hl)]
    exact ⟨l, hl, rfl⟩
  | @names l ts hl hts =>
    have hkind : (node l ts).label.kind = .names := hl
    rw [hkind, if_neg (by decide)]
    refine ⟨fun hname => ?_, _, rfl⟩
    exact (IsNaming.names hl hts).isName_iff.1 hname hkind

/-- Flattening decides whether the members of a list of names are names. -/
theorem decides_mapM_boundName {ids : List Nat} (h : List.Forall₂ (a.Unfolds F) ts ids)
    (hts : ∀ t ∈ ts, IsNaming t) : Decides (ids.mapM (boundName a)) (∀ t ∈ ts, IsName t) := by
  induction h with
  | nil => exact List.forall_mem_nil _
  | cons ht _ ih =>
    obtain ⟨hnaming, hts⟩ := List.forall_mem_cons.1 hts
    rw [List.mapM_cons, List.forall_mem_cons]
    refine (decides_boundName ht hnaming).bind fun name _ => ?_
    exact (ih hts).bind_ok fun names => ⟨_, rfl⟩

/-- Flattening decides whether what a lambda has to bind can be bound. -/
theorem decides_boundNames {id : Nat} (h : a.Unfolds F t id) (ht : IsFormal t) :
    Decides (boundNames a id) (IsBindable t) := by
  have hk : a.kind id = t.label.kind := by rw [Arena.kind, h.label_eq]
  rw [boundNames, hk]
  -- what stands for a parameter is a name, a list of names or a unit
  cases ht with
  | naming ht =>
    cases ht with
    | name ht =>
      obtain ⟨l, hl, rfl⟩ := ht
      have hkind : (leaf l).label.kind = .identifier := hl
      rw [hkind]
      refine ((decides_boundName h (.name ⟨l, hl, rfl⟩)).bind_ok fun name => ⟨_, rfl⟩).congr ?_
      exact iff_of_true ⟨l, hl, rfl⟩ (.name ⟨l, hl, rfl⟩)
    | @names l ts hl hts =>
      have hkind : (node l ts).label.kind = .names := hl
      rw [hkind, isBindable_names_iff hl]
      exact decides_mapM_boundName h.children.2 hts
  | @unit l hl =>
    have hkind : (leaf l).label.kind = .unit := hl
    rw [hkind]
    exact .unit hl

/-- Flattening a lambda decides whether what it binds can be bound. -/
theorem decides_lambdaItem {l : Label} {x e : Tree Label} {id : Nat}
    (h : a.Unfolds F (node l [x, e]) id) (hx : IsFormal x) (d : ControlDraft) :
    Decides (lambdaItem a id d) (IsBindable x) := by
  obtain ⟨-, -, -, ix, hix, hux, ie, hie, -, -⟩ := h
  simp only [lambdaItem, hix, hie]
  have hvars : Decides ((liftM (boundNames a ix) : Flattening (List String)) d) (IsBindable x) :=
    (decides_boundNames hux hx).bind_ok fun vars => ⟨_, rfl⟩
  exact hvars.bind_ok fun r => ⟨_, rfl⟩

/-! ### One tree -/

/-- The result tells whether the lambdas of the trees bind parameters, as far as they are not in the
    bodies met. It does not depend on what was flattened before. -/
def Settles (x : List ControlItem → Flattening α) (ts : List (Tree Label)) : Prop :=
  ∃ P, (∀ before d, Decides (x before d) P) ∧
    ((∀ t ∈ ts, t.BindsParameters) ↔ P ∧ ∀ t ∈ ts, ∀ e ∈ met t, e.BindsParameters)

/-- There is nothing to settle without trees. -/
theorem Settles.nil : Settles (fun before => pure before) [] :=
  ⟨True, fun _ _ => trivial, by simp⟩

/-- Items that settle a tree, and more that settle those behind it, settle all of them. -/
theorem Settles.cons {x y : List ControlItem → Flattening (List ControlItem)}
    (hx : Settles x [t]) (hy : Settles y ts) :
    Settles (fun before => x before >>= y) (t :: ts) := by
  obtain ⟨P, hP, ht⟩ := hx
  obtain ⟨Q, hQ, hts⟩ := hy
  refine ⟨P ∧ Q, fun before d => (hP before d).step fun code d' _ => hQ code d', ?_⟩
  rw [List.forall_mem_singleton, List.forall_mem_singleton] at ht
  rw [List.forall_mem_cons, List.forall_mem_cons, ht, hts]
  tauto

/-- Flattening a tree settles its lambdas. -/
theorem settles_items {depth id : Nat} (h : a.Unfolds F t id) (ht : IsFlattenable t)
    (hdepth : t.linkDepth < depth) : Settles (fun before => items a depth before id) [t] := by
  induction depth generalizing t id with
  | zero => exact absurd hdepth (Nat.not_lt_zero _)
  | succ depth ih =>
    have hk : a.kind id = t.label.kind := by rw [Arena.kind, h.label_eq]
    cases ht with
    | @lambda l x e hl hx _ =>
      have hk : a.kind id = .lambda := hk.trans hl
      refine ⟨IsBindable x, fun before d => ?_, ?_⟩
      · simp only [items, hk]
        exact (decides_lambdaItem h hx d).bind_ok fun r => ⟨_, rfl⟩
      · simp only [List.forall_mem_singleton, bindsParameters_lambda hl hx, met_lambda hl]
    | @conditional l p e₁ e₂ hl hp h₁ h₂ =>
      have hk : a.kind id = .conditional := hk.trans hl
      obtain ⟨-, hids⟩ := h.children
      have hdepth := linkDepth_children_lt hdepth
      simp only [List.forall_mem_cons] at hdepth
      obtain ⟨hdp, hd₁, hd₂, -⟩ := hdepth
      generalize hch : a.children id = ids at hids
      obtain - | ⟨hup, - | ⟨hu₁, - | ⟨hu₂, hnil⟩⟩⟩ := hids
      cases hnil
      obtain ⟨P₁, hP₁, hb₁⟩ := ih hu₁ h₁ hd₁
      obtain ⟨P₂, hP₂, hb₂⟩ := ih hu₂ h₂ hd₂
      obtain ⟨P, hP, hb⟩ := ih hup hp hdp
      -- the branches come first, and the condition last
      refine ⟨P₁ ∧ P₂ ∧ P, fun before d => ?_, ?_⟩
      · simp only [items, hk, hch]
        refine (hP₁ [] d).step fun code₁ d₁ _ => (hP₂ [] d₁).step fun code₂ d₂ _ => ?_
        exact hP _ _
      · simp only [List.forall_mem_singleton] at hb hb₁ hb₂ ⊢
        rw [bindsParameters_node (by rw [hl]; decide), met_conditional hl]
        simp only [List.forall_mem_cons, List.forall_mem_append, hb, hb₁, hb₂]
        simp only [List.not_mem_nil, false_implies, implies_true, and_true]
        tauto
    | @plain l ts hlambda hcond hremoved hts =>
      have hbelow := linkDepth_children_lt hdepth
      obtain ⟨-, hids⟩ := h.children
      -- the children one after the other, each with all that came before it
      have hall : Settles (fun before => (a.children id).foldlM (items a depth) before) ts := by
        generalize a.children id = ids at hids
        clear h hk hdepth
        induction hids with
        | nil => exact .nil
        | cons h _ ihs =>
          obtain ⟨ht, hts⟩ := List.forall_mem_cons.1 hts
          obtain ⟨hd, hds⟩ := List.forall_mem_cons.1 hbelow
          simp only [List.foldlM_cons]
          exact (ih h ht hd).cons (ihs hts hds)
      obtain ⟨P, hP, hb⟩ := hall
      have hk : a.kind id = l.kind := hk
      refine ⟨P, fun before d => ?_, ?_⟩
      · change Decides (items a (depth + 1) before id d) P
        rw [items_plain (hk ▸ hlambda) (hk ▸ hcond), hk, hremoved, if_neg (by decide)]
        exact hP _ _
      · rw [List.forall_mem_singleton, List.forall_mem_singleton, bindsParameters_node hlambda, hb,
          met_plain hlambda hcond, metAll_eq_flatMap]
        simp only [List.mem_flatMap]
        grind

/-! ### All bodies -/

/-- Flattening the pending bodies decides whether all lambdas in them bind parameters. -/
theorem decides_bodies {n index : Nat} {src : List (Tree Label)} {places : List Nat}
    (h : Worklist a F src places index d) (hn : sizeAll (src.drop index) ≤ n) :
    Decides (bodies a n index d) (∀ t ∈ src.drop index, t.BindsParameters) := by
  induction n generalizing src places index d with
  | zero =>
    cases hdrop : src.drop index with
    | nil => exact List.forall_mem_nil _
    | cons t rest =>
      have hpos := t.size_pos
      rw [hdrop, sizeAll] at hn
      omega
  | succ n ih =>
    have hsrc := h.pending
    cases hpending : d.pending with
    | nil =>
      rw [hpending, List.forall₂_nil_right_iff] at hsrc
      rw [bodies_of_nil hpending, hsrc]
      exact List.forall_mem_nil _
    | cons body more =>
      rw [hpending, List.forall₂_cons_right_iff] at hsrc
      obtain ⟨t, rest, ht, -, hdrop⟩ := hsrc
      have hmem : t ∈ src := List.mem_of_mem_drop (hdrop ▸ List.mem_cons_self)
      obtain ⟨P, hP, hb⟩ := settles_items ht (h.flattenable t hmem) ht.linkDepth_lt
      rw [bodies_of_cons hpending]
      -- the bodies met in this one are pending behind the others
      have hrest : ∀ r, items a a.size [] body { d with pending := more } = .ok r →
          Decides (bodies a n (index + 1) (r.2.setBody index r.1.reverse))
            (∀ e ∈ rest ++ met t, e.BindsParameters) := by
        intro r hr
        obtain ⟨t', rest', new, hdrop', hwork⟩ := h.step hpending hr
        obtain ⟨rfl, rfl⟩ := List.cons.inj (hdrop.symm.trans hdrop')
        have hlt := sizeAll_drop_succ_lt hdrop
        rw [← drop_succ_append_met hdrop]
        exact ih hwork (by omega)
      refine ((hP [] _).bind hrest).congr ?_
      rw [List.forall_mem_singleton, List.forall_mem_singleton] at hb
      rw [hdrop, List.forall_mem_cons, hb, List.forall_mem_append]
      tauto

end Flattening

namespace Arena

open Rpal.Tree

/-- The control structures of an arena that unfolds to a tree that can be flattened. -/
theorem control_decides_of_isFlattenable {a : Arena} {F : Set Nat} {t : Tree Label} {root : Nat}
    (hmark : a.standardized = true) (hroot : a.root = some root) (h : a.Unfolds F t root)
    (ht : IsFlattenable t) : Flattening.Decides a.control t.BindsParameters := by
  have hwork := Flattening.Worklist.start h ht
  have hbodies := Flattening.decides_bodies hwork (Flattening.sizeAll_start_le h)
  rw [List.drop_zero, List.forall_mem_singleton] at hbodies
  simp only [Arena.control, hmark, if_true, hroot]
  exact hbodies.bind_ok fun r => ⟨_, rfl⟩

/-- The control structures of an arena that unfolds to an expression in canonical form. -/
theorem control_decides {a : Arena} {F : Set Nat} {t : Tree Label} {root : Nat}
    (hmark : a.standardized = true) (hroot : a.root = some root) (h : a.Unfolds F t root)
    (ht : IsStandard t) : Flattening.Decides a.control t.BindsParameters :=
  control_decides_of_isFlattenable hmark hroot h ht.isFlattenable

end Arena

/-- An expression is accepted as a program exactly if the lambdas of its canonical form bind
    parameters. -/
theorem Program.exists_iff_bindsParameters {t : Tree Label} (ht : t.IsExpression) :
    (∃ p, (Arena.ofTree t).program = .ok p) ↔ t.standard.BindsParameters := by
  obtain ⟨a, root, F, hform, -, hroot, hmark, hunfolds⟩ :=
    Arena.unfolds_standardForm_of_isWellFormed ht.wellFormed
  have hdecides := Arena.control_decides_of_isFlattenable hmark hroot hunfolds ht.core.isFlattenable
  simp only [Arena.program, hform, Except.mapError, bind, Except.bind]
  cases hcontrol : a.control with
  | ok c =>
    rw [hcontrol] at hdecides
    exact iff_of_true ⟨{ arena := a, control := c }, rfl⟩ hdecides
  | error e =>
    rw [hcontrol] at hdecides
    exact iff_of_false nofun hdecides.1

namespace SourceFile

variable {f : SourceFile} {t : Tree Label}

/-- The tree of a file comes into canonical form. A list of names is a member of another one there
    exactly if a definition binds a list of names where others hold at the same time, and exactly then
    there are no control structures. If there are none, the error is about such a list. -/
theorem control_iff_isFlat (h : f.tree = .ok t) : ∃ a, (Arena.ofTree t).standardForm = .ok a ∧
    a.rootTree? = some t.standard ∧ t.standard.IsStandard ∧
    (t.standard.BindsParameters ↔ t.IsFlat) ∧ ((∃ c, a.control = .ok c) ↔ t.IsFlat) ∧
    ∀ e, a.control = .error e → ∃ line, e = .badParameter .names line := by
  have hsource := isSource_of_tree h
  have hstandard : t.standard.IsStandard := hsource.standard
  obtain ⟨a, root, F, hform, -, hroot, hmark, hunfolds⟩ :=
    Arena.unfolds_standardForm (.inl ⟨_, hsource⟩)
  -- whether the tree is flat shows in the parameters of the canonical form
  have hflat : t.standard.BindsParameters ↔ t.IsFlat := hsource.bindsParameters_iff
  refine ⟨a, hform, hunfolds.rootTree?_eq hroot, hstandard, hflat, ?_⟩
  have hdecides := Arena.control_decides hmark hroot hunfolds hstandard
  rw [← hflat]
  cases hcontrol : a.control with
  | ok c =>
    rw [hcontrol] at hdecides
    refine ⟨iff_of_true ⟨c, rfl⟩ hdecides, fun e he => ?_⟩
    cases he
  | error e =>
    rw [hcontrol] at hdecides
    refine ⟨iff_of_false (fun ⟨c, hc⟩ => ?_) hdecides.1, fun e' he' => ?_⟩
    · cases hc
    · cases he'
      exact hdecides.2

/-- A definition that binds two names, beside another one. -/
theorem control_iff_isFlat_pair : ∃ t,
    SourceFile.tree ⟨"", 0, "let a, b = 1, 2 and c = 3 in c"⟩ = .ok t ∧
    ∃ a, (Arena.ofTree t).standardForm = .ok a ∧
      a.rootTree? = some t.standard ∧ t.standard.IsStandard ∧
      (t.standard.BindsParameters ↔ t.IsFlat) ∧ ((∃ c, a.control = .ok c) ↔ t.IsFlat) ∧
      ∀ e, a.control = .error e → ∃ line, e = .badParameter .names line := by
  generalize hf : SourceFile.mk _ _ _ = f
  have hok : f.tree.isOk = true := by
    subst hf
    decide +kernel
  cases h : f.tree with
  | error e =>
    rw [h] at hok
    cases hok
  | ok t => exact ⟨t, rfl, control_iff_isFlat h⟩

/-- Not every list of names in a canonical form is bound by a lambda: the same file has one that is
    a member of another. -/
theorem exists_nested_names : ∃ t a s,
    SourceFile.tree ⟨"", 0, "let a, b = 1, 2 and c = 3 in c"⟩ = .ok t ∧
    (Arena.ofTree t).standardForm = .ok a ∧ a.rootTree? = some s ∧
    ∃ p ∈ s.subtrees, p.label.kind ≠ .lambda ∧ ∃ x ∈ p.children, x.label.kind = .names := by
  generalize hf : SourceFile.mk _ _ _ = f
  have hnested : (f.tree.toOption.any fun t => decide (∃ p ∈ t.standard.subtrees,
      p.label.kind ≠ .lambda ∧ ∃ x ∈ p.children, x.label.kind = .names)) = true := by
    subst hf
    decide +kernel
  cases h : f.tree with
  | error e =>
    rw [h] at hnested
    cases hnested
  | ok t =>
    obtain ⟨a, root, F, hform, -, hroot, -, hunfolds⟩ :=
      Arena.unfolds_standardForm (.inl ⟨_, isSource_of_tree h⟩)
    rw [h] at hnested
    exact ⟨t, a, t.standard, rfl, hform, hunfolds.rootTree?_eq hroot, of_decide_eq_true hnested⟩

end SourceFile

end Rpal
