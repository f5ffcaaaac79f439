import Rpal.Proofs.Control.Codes
import Rpal.Proofs.Tree.Renaming

/-!
# Code that is the same up to the names of parameters

The trees of two programs can be the same up to the names of parameters and be kept in different
arenas. Their lambdas have the same numbers then, and their code is the same item by item, in the
sense that the nodes behind the items are.

## Key results

- `Program.ItemAlpha`, `Program.CodeAlpha`: items and deltas that are the same up to names
- `Control.items_alpha`: trees that are the same have such code
-/

namespace Rpal

namespace Program

/-- The items of two programs do the same in environments that bind the names in `bs`. -/
inductive ItemAlpha (p p' : Program) : Binders → ControlItem → ControlItem → Prop where
  | node {bs id id'} : (p.arena.label id).Alpha bs (p'.arena.label id') →
      (p.arena.children id).length = (p'.arena.children id').length →
      ItemAlpha p p' bs (.node id) (.node id')
  | delta {bs k k'} : (p.control.delta k).index = (p'.control.delta k').index →
      (p.control.delta k).line = (p'.control.delta k').line →
      (p.control.delta k).vars.length = (p'.control.delta k').vars.length →
      (p.control.delta k).body.length = (p'.control.delta k').body.length →
      (∀ i i', (i, i') ∈ (p.control.delta k).body.zip (p'.control.delta k').body →
        ItemAlpha p p' (bs.inside (p.control.delta k).vars (p'.control.delta k').vars) i i') →
      ItemAlpha p p' bs (.delta k) (.delta k')
  | beta {bs j j'} : (p.control.beta j).line = (p'.control.beta j').line →
      (p.control.beta j).whenTrue.length = (p'.control.beta j').whenTrue.length →
      (p.control.beta j).whenFalse.length = (p'.control.beta j').whenFalse.length →
      (∀ i i', (i, i') ∈ (p.control.beta j).whenTrue.zip (p'.control.beta j').whenTrue →
        ItemAlpha p p' bs i i') →
      (∀ i i', (i, i') ∈ (p.control.beta j).whenFalse.zip (p'.control.beta j').whenFalse →
        ItemAlpha p p' bs i i') →
      ItemAlpha p p' bs (.beta j) (.beta j')

/-- The functions of two programs do the same in environments that bind the names in `bs`. They have
    the same number and as many parameters. -/
structure CodeAlpha (p p' : Program) (bs : Binders) (d d' : Delta) : Prop where
  index_eq : d.index = d'.index
  line_eq : d.line = d'.line
  length_vars : d.vars.length = d'.vars.length
  body : List.Forall₂ (p.ItemAlpha p' (bs.inside d.vars d'.vars)) d.body d'.body

variable {p p' : Program} {bs : Binders} {k k' j j' : Nat}

/-- Deltas are the same if their code is. -/
theorem itemAlpha_delta_iff : p.ItemAlpha p' bs (.delta k) (.delta k') ↔
    p.CodeAlpha p' bs (p.control.delta k) (p'.control.delta k') := by
  constructor
  · intro h
    cases h with
    | delta hindex hline hvars hlen hbody =>
      exact ⟨hindex, hline, hvars, List.forall₂_iff_zip.2 ⟨hlen, hbody _ _⟩⟩
  · rintro ⟨hindex, hline, hvars, hbody⟩
    have hzip := List.forall₂_iff_zip.1 hbody
    exact .delta hindex hline hvars hzip.1 fun _ _ => hzip.2

/-- Betas are the same if they are on one line and their branches are the same, item by item. -/
theorem itemAlpha_beta_iff : p.ItemAlpha p' bs (.beta j) (.beta j') ↔
    (p.control.beta j).line = (p'.control.beta j').line ∧
      List.Forall₂ (p.ItemAlpha p' bs) (p.control.beta j).whenTrue (p'.control.beta j').whenTrue ∧
      List.Forall₂ (p.ItemAlpha p' bs) (p.control.beta j).whenFalse
        (p'.control.beta j').whenFalse := by
  constructor
  · intro h
    cases h with
    | beta hline hlenTrue hlenFalse htrue hfalse =>
      exact ⟨hline, List.forall₂_iff_zip.2 ⟨hlenTrue, htrue _ _⟩,
        List.forall₂_iff_zip.2 ⟨hlenFalse, hfalse _ _⟩⟩
  · rintro ⟨hline, htrue, hfalse⟩
    have htrue := List.forall₂_iff_zip.1 htrue
    have hfalse := List.forall₂_iff_zip.1 hfalse
    exact .beta hline htrue.1 hfalse.1 (fun _ _ => htrue.2) fun _ _ => hfalse.2

end Program

namespace Tree

/-- Parameters of the same constructs bind as many names. -/
theorem length_boundNames_of_kinds {t t' : Tree Label} (h : t.kinds = t'.kinds) :
    t.boundNames.length = t'.boundNames.length := by
  obtain ⟨l, ts⟩ := t
  obtain ⟨l', ts', rfl, hl, hts⟩ := kinds_node_eq h
  have hlen : ts.length = ts'.length := by simpa using congrArg List.length hts
  simp only [boundNames, Labelled.toLabel, id_eq, hl]
  split <;> simp [hlen]

/-- Trees that differ in the names of parameters only have labels that do. -/
theorem Alpha.label_alpha {bs : Binders} {t t' : Tree Label} (h : Alpha bs t t') :
    t.label.Alpha bs t'.label := by
  cases h with
  | lambda _ hlabel => exact hlabel
  | plain _ hlabel => exact hlabel

end Tree

namespace Control

open Rpal.Tree

variable {p p' : Program} {bs : Binders}

/-- The code of several trees is the same if that of each is. -/
theorem forall₂_of_codesAll {a a' : Arena} {c c' : Control}
    {R : ControlItem → ControlItem → Prop} {us us' : List (Tree Numbered)}
    {codes codes' : List ControlItem} (h : c.CodesAll a us codes) (h' : c'.CodesAll a' us' codes')
    (hlen : us.length = us'.length)
    (hR : ∀ u u', (u, u') ∈ us.zip us' → ∀ code code', c.Codes a u code → c'.Codes a' u' code' →
      List.Forall₂ R code code') : List.Forall₂ R codes codes' := by
  induction us generalizing us' codes codes' with
  | nil =>
    obtain rfl := List.length_eq_zero_iff.1 hlen.symm
    cases h
    cases h'
    exact .nil
  | cons u us ih =>
    cases us' with
    | nil => cases hlen
    | cons u' us' =>
      cases h with
      | cons hu hus =>
        cases h' with
        | cons hu' hus' =>
          -- the code of the first tree comes last, because it is reduced first
          refine List.rel_append (ih hus hus' (by simpa using hlen) fun v v' hmem => ?_) ?_
          · exact hR v v' (by simp [hmem])
          · exact hR u u' (by simp) _ _ hu hu'

/-- Trees that are the same up to the names of parameters, with the same numbers, have code that is
    the same. The induction is on the trees without numbers. -/
theorem items_alpha {t t' : Tree Label} (h : Alpha bs t t') {u u' : Tree Numbered}
    (ht : u.map Numbered.label = t) (ht' : u'.map Numbered.label = t')
    (hnumber : u.map Numbered.number = u'.map Numbered.number) {code code' : List ControlItem}
    (hcode : p.control.Codes p.arena u code) (hcode' : p'.control.Codes p'.arena u' code') :
    List.Forall₂ (p.ItemAlpha p' bs) code code' := by
  induction h generalizing u u' code code' with
  | @lambda bs l l' x x' e e' hl hlabel hx he ih =>
    have hl' : l'.kind = .lambda := hlabel.kind_eq ▸ hl
    obtain ⟨⟨m, k⟩, us⟩ := u
    obtain ⟨⟨m', k'⟩, us'⟩ := u'
    rw [Tree.map, mapAll_eq_map, node.injEq] at ht ht'
    obtain ⟨rfl, hus⟩ := ht
    obtain ⟨rfl, hus'⟩ := ht'
    obtain ⟨v, f, rfl, rfl, rfl⟩ := exists_of_map_eq_pair hus
    obtain ⟨v', f', rfl, rfl, rfl⟩ := exists_of_map_eq_pair hus'
    simp only [Tree.map, mapAll, node.injEq, List.cons.injEq, and_true] at hnumber
    obtain ⟨rfl, -, hf⟩ := hnumber
    cases hcode with
    | plain hlambda => exact absurd hl hlambda
    | lambda _ hindex hvars hline hbody =>
      cases hcode' with
      | plain hlambda => exact absurd hl' hlambda
      | lambda _ hindex' hvars' hline' hbody' =>
        have hnames (x : Tree Numbered) : (x.map Numbered.label).boundNames = x.boundNames :=
          boundNames_map (f := Numbered.label) (fun _ => rfl) x
        have hlen := length_boundNames_of_kinds hx
        have hlines := he.label_alpha.line_eq
        rw [label_map, label_map] at hlines
        rw [hnames, hnames] at hlen ih
        refine .cons (Program.itemAlpha_delta_iff.2 ⟨?_, ?_, ?_, ?_⟩) .nil
        · rw [hindex, hindex']
        · rw [hline, hline', hlines]
        · rw [hvars, hvars', hlen]
        · rw [hvars, hvars', ← List.forall₂_reverse_iff]
          exact ih rfl rfl hf hbody hbody'
  | @plain bs l l' ts ts' hl hlabel hlen hts ih =>
    have hl' : l'.kind ≠ .lambda := hlabel.kind_eq ▸ hl
    obtain ⟨⟨m, k⟩, us⟩ := u
    obtain ⟨⟨m', k'⟩, us'⟩ := u'
    rw [Tree.map, mapAll_eq_map, node.injEq] at ht ht'
    obtain ⟨rfl, rfl⟩ := ht
    obtain ⟨rfl, rfl⟩ := ht'
    rw [Tree.map, Tree.map, node.injEq, mapAll_eq_map, mapAll_eq_map] at hnumber
    -- what holds of two trees at the same place of the lists
    have hchild (v v' : Tree Numbered) (hmem : (v, v') ∈ us.zip us') (code code' : List ControlItem)
        (hv : p.control.Codes p.arena v code) (hv' : p'.control.Codes p'.arena v' code') :
        List.Forall₂ (p.ItemAlpha p' bs) code code' := by
      refine ih (v.map Numbered.label) (v'.map Numbered.label) ?_ rfl rfl ?_ hv hv'
      · rw [List.zip_map, List.mem_map]
        exact ⟨(v, v'), hmem, rfl⟩
      · have hzip : (v.map Numbered.number, v'.map Numbered.number) ∈
            (us.map (Tree.map Numbered.number)).zip (us'.map (Tree.map Numbered.number)) := by
          rw [List.zip_map, List.mem_map]
          exact ⟨(v, v'), hmem, rfl⟩
        rw [← hnumber.2, List.zip_eq_zipWith, List.zipWith_self, List.mem_map] at hzip
        obtain ⟨w, -, heq⟩ := hzip
        obtain ⟨rfl, hw⟩ := Prod.mk.injEq .. ▸ heq
        exact hw
    have hlen : us.length = us'.length := by simpa using hlen
    cases hcode with
    | lambda hlambda => exact absurd hlambda hl
    | @conditional _ _ c e₁ e₂ j code code₁ code₂ hcond hbeta h₁ h₂ hc =>
      have hcond' : m'.kind = .conditional := hlabel.kind_eq ▸ hcond
      cases hcode' with
      | lambda hlambda => exact absurd hlambda hl'
      | plain _ hne => exact absurd hcond' hne
      | conditional _ hbeta' h₁' h₂' hc' =>
        refine List.rel_append (hchild _ _ (by simp) _ _ hc hc') (.cons ?_ .nil)
        rw [Program.itemAlpha_beta_iff, hbeta, hbeta', List.forall₂_reverse_iff,
          List.forall₂_reverse_iff]
        exact ⟨hlabel.line_eq, hchild _ _ (by simp) _ _ h₁ h₁', hchild _ _ (by simp) _ _ h₂ h₂'⟩
    | plain _ hcond hid hchildren hcodes =>
      have hcond' : m'.kind ≠ .conditional := hlabel.kind_eq ▸ hcond
      cases hcode' with
      | lambda hlambda => exact absurd hlambda hl'
      | conditional hcond => exact absurd hcond hcond'
      | plain _ _ hid' hchildren' hcodes' =>
        refine List.rel_append (forall₂_of_codesAll hcodes hcodes' hlen hchild) (.cons ?_ .nil)
        refine .node ?_ (hchildren.trans (hlen.trans hchildren'.symm))
        rw [hid, hid']
        exact hlabel

end Control

end Rpal
