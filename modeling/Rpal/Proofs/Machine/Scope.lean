import Rpal.Proofs.Machine.Invariant
import Rpal.Proofs.Tree.Scope

/-!
# The scope of names

A machine reports a name as undeclared only if the name occurs in the program where no lambda binds
it, and is not built in. The invariant is that every environment binds the names that the items to
be reduced in it refer to, but for those that occur free in the program (`Program.scope`).

## Key results

- `Machine.Runs.scoped`: any number of runs keep the invariant
- `Program.undeclared_of_runs`: which names are reported as undeclared
-/

namespace Rpal

/-! ### Items and the names that they refer to -/

/-- Wherever reducing the item looks up a name, the name is among `bound`, or bound by a lambda on
    the way, or it is there one of the occurrences `free`. -/
inductive Program.Covers (p : Program) (free : List (String × Nat)) :
    (String → Prop) → ControlItem → Prop where
  | node {bound id} : (p.arena.kind id = .identifier → ¬bound (p.arena.label id).content →
      ((p.arena.label id).content, (p.arena.label id).line) ∈ free) → Covers p free bound (.node id)
  | delta {bound k} : (∀ i ∈ (p.control.delta k).body,
      Covers p free (fun n => n ∈ (p.control.delta k).vars ∨ bound n) i) →
      Covers p free bound (.delta k)
  | beta {bound j} : (∀ i ∈ (p.control.beta j).whenTrue, Covers p free bound i) →
      (∀ i ∈ (p.control.beta j).whenFalse, Covers p free bound i) → Covers p free bound (.beta j)

variable {p : Program} {free : List (String × Nat)} {ω : Type}

/-- More names can be bound. -/
theorem Program.Covers.mono {bound bound' : String → Prop} {i : ControlItem}
    (h : p.Covers free bound i) (hbound : ∀ n, bound n → bound' n) : p.Covers free bound' i := by
  induction h generalizing bound' with
  | node hid => exact .node fun hk hn => hid hk fun h => hn (hbound _ h)
  | delta _ ih => exact .delta fun i hi => ih i hi fun n => Or.imp_right (hbound n)
  | beta _ _ ih₁ ih₂ => exact .beta (fun i hi => ih₁ i hi hbound) fun i hi => ih₂ i hi hbound

namespace Control

open Rpal.Tree

mutual

/-- The code of a tree refers to the names that occur in the tree. -/
theorem Codes.covers : ∀ {t : Tree Numbered} {code : List ControlItem} {bound : List String},
    Codes p.arena p.control t code → (∀ o ∈ t.freeNames bound, o ∈ free) →
      ∀ i ∈ code, p.Covers free (· ∈ bound) i
  | _, _, bound, .lambda (l := l) (k := k) (x := x) (e := e) hl _ hvars _ he, hfree => by
    rw [freeNames_lambda (show (Labelled.toLabel (⟨l, k⟩ : Numbered)).kind = .lambda from hl)]
      at hfree
    rw [List.forall_mem_singleton]
    -- inside the lambda, its parameters are bound too
    refine .delta fun i hi => (he.covers hfree i (List.mem_reverse.2 hi)).mono fun n hn => ?_
    rw [hvars]
    exact List.mem_append.1 hn
  | _, _, bound, .conditional (l := l) (n := n) (j := j) hl hbeta h₁ h₂ hp, hfree => by
    have hlambda : (Labelled.toLabel (⟨l, n⟩ : Numbered)).kind ≠ .lambda := by
      rw [show (Labelled.toLabel (⟨l, n⟩ : Numbered)).kind = .conditional from hl]
      decide
    have hbelow := fun t ht o ho => hfree o (mem_freeNames_of_mem hlambda (t := t) ht ho)
    simp only [List.forall_mem_cons] at hbelow
    obtain ⟨hfree, hfree₁, hfree₂, -⟩ := hbelow
    rw [List.forall_mem_append, List.forall_mem_singleton]
    refine ⟨hp.covers hfree, .beta ?_ ?_⟩
    · rw [hbeta]
      exact fun i hi => h₁.covers hfree₁ i (List.mem_reverse.1 hi)
    · rw [hbeta]
      exact fun i hi => h₂.covers hfree₂ i (List.mem_reverse.1 hi)
  | _, _, bound, .plain (l := l) (n := n) hlambda _ hid _ hcodes, hfree => by
    rw [List.forall_mem_append, List.forall_mem_singleton]
    refine ⟨hcodes.covers fun t ht o ho => hfree o (mem_freeNames_of_mem hlambda ht ho), .node ?_⟩
    rw [Arena.kind, hid]
    exact fun hk hbound => hfree _ (mem_freeNames_identifier (a := (⟨l, n⟩ : Numbered)) hk hbound)

/-- The free names of some trees cover the items they are flattened to. -/
theorem CodesAll.covers : ∀ {ts : List (Tree Numbered)} {codes : List ControlItem}
    {bound : List String}, CodesAll p.arena p.control ts codes →
      (∀ t ∈ ts, ∀ o ∈ t.freeNames bound, o ∈ free) → ∀ i ∈ codes, p.Covers free (· ∈ bound) i
  | _, _, _, .nil, _ => List.forall_mem_nil _
  | _, _, _, .cons h hs, hfree => by
    obtain ⟨ht, hts⟩ := List.forall_mem_cons.1 hfree
    exact List.forall_mem_append.2 ⟨hs.covers hts, h.covers ht⟩

end

end Control

/-! ### Environments -/

namespace EnvOf

variable {φ : Type} {env inner : EnvOf φ} {names : List String} {n : String}

/-- The name stands for a value. -/
def Binds (env : EnvOf φ) (n : String) : Prop :=
  env.lookup? n ≠ none

/-- A binding binds its own name and keeps the others. -/
theorem binds_bind {v : ValueOf φ} {name : String} (h : n = name ∨ env.Binds n) :
    (bind name v env).Binds n := by
  rw [Binds, lookup?]
  split
  · exact Option.some_ne_none v
  · next hne => exact h.resolve_left hne

/-- Bindings for as many names as values bind all of them. -/
theorem binds_bindAll {vs : List (ValueOf φ)} (hlen : vs.length = names.length)
    (h : n ∈ names ∨ env.Binds n) : (env.bindAll names vs).Binds n := by
  induction names generalizing env vs with
  | nil =>
    rw [List.length_nil, List.length_eq_zero_iff] at hlen
    subst hlen
    exact h.resolve_left List.not_mem_nil
  | cons name names ih =>
    cases vs with
    | nil => cases hlen
    | cons v vs =>
      rw [List.mem_cons, or_comm (a := n = name), or_assoc] at h
      exact ih (Nat.succ.inj hlen) (h.imp_right binds_bind)

/-- The environment of a function's body binds the parameters, and what is bound around it. -/
theorem binds_of_enter? {v : ValueOf φ} (henter : env.enter? names v = some inner)
    (h : n ∈ names ∨ env.Binds n) : inner.Binds n := by
  rw [enter?.eq_def] at henter
  split at henter
  · cases henter
    exact h.resolve_left List.not_mem_nil
  · cases henter
    exact binds_bind (h.imp_left List.mem_singleton.1)
  · split at henter
    · split at henter
      · next hlen =>
        cases henter
        exact binds_bindAll hlen h
      · cases henter
    · cases henter

end EnvOf

/-! ### Machines -/

/-- Items are reduced where the names that they refer to are bound. -/
def Program.scope (p : Program) (free : List (String × Nat)) : p.Discipline where
  admits env i := p.Covers free env.Binds i
  code d env := ∀ i ∈ d.body, p.Covers free (fun n => n ∈ d.vars ∨ env.Binds n) i
  code_of_admits h := by
    cases h with
    | delta hbody => exact hbody
  admits_of_code hd hinner i hi := (hd i hi).mono fun _ => EnvOf.binds_of_enter? hinner
  admits_of_beta h := by
    cases h with
    | beta htrue hfalse => exact List.forall_mem_append.2 ⟨htrue, hfalse⟩

/-- An undeclared name is reported where it occurs free, and only if it is not built in. -/
def EvalErrorOf.Locates {φ : Type} (free : List (String × Nat)) : EvalErrorOf φ → Prop
  | .fault line (.undeclared name) => (name, line) ∈ free ∧ Builtin.ofName? name = none
  | _ => True

/-- A name that the environment does not bind occurs free. -/
theorem Program.Discipline.Explains.locates {e : EvalError} (h : (p.scope free).Explains e) :
    e.Locates free := by
  cases h with
  | @fault _ _ f _ hf =>
    cases f with
    | undeclared => exact hf.elim
    | _ => trivial
  | undeclared hadmits hid hlookup hbuiltin =>
    cases hadmits with
    | node hfree => exact ⟨hfree hid fun hbinds => hbinds hlookup, hbuiltin⟩
  | stackUnderflow | leftoverValues | outputFull => trivial

/-- Every run of a scoped machine reports undeclared names where they occur free. -/
theorem Machine.Runs.scoped [OutputWriter ω] {m m' : Machine ω}
    {results : List (Except EvalError (Option Value))}
    (hruns : Runs m results m') (h : m.Obeys (p.scope free)) :
    m'.Obeys (p.scope free) ∧ ∀ e, .error e ∈ results → e.Locates free :=
  ⟨(hruns.obeys h).1, fun e he => ((hruns.obeys h).2 e he).locates⟩

/-- A machine about to evaluate a program that is built from a tree is scoped. -/
theorem Program.start_scoped {t : Tree Label} (ht : Tree.IsSource .expression t)
    (hp : (Arena.ofTree t).program = .ok p) (sink : ω) :
    (Machine.start p sink).Obeys (p.scope (t.standard.freeNames [])) := by
  have hcodes := (Program.codes_of_ofTree (.inl ⟨_, ht⟩) ht.standard hp).2
  have hnames : t.standard.numbered.freeNames [] = t.standard.freeNames [] := by
    rw [← Tree.freeNames_map (f := Numbered.label) (fun _ => rfl), Tree.map_label_numbered]
  have hfree : ∀ o ∈ t.standard.numbered.freeNames [], o ∈ t.standard.freeNames [] :=
    fun o ho => hnames ▸ ho
  have hcovers := hcodes.covers hfree
  refine ⟨rfl, List.forall_mem_singleton.2 ⟨trivial, fun i hi => ?_⟩, List.forall_mem_nil _⟩
  exact (hcovers i hi).mono fun n hn => absurd hn List.not_mem_nil

/-- However often a program is run, with whatever errors: a name is reported as undeclared only at a
    line where it occurs outside of parameters and is bound by no lambda around it, and only if it
    is not built in. If there are no such names, none is reported. -/
theorem Program.undeclared_of_runs {tokens : List Token} {t : Tree Label}
    (ht : Tree.ofTokens tokens = .ok t) (hp : (Arena.ofTree t).program = .ok p) :
    ∃ s, p.arena.rootTree? = some s ∧
      ∀ {ω : Type} [OutputWriter ω] (sink : ω) results m,
        Machine.Runs (Machine.start p sink) results m →
        (∀ line name, .error (.fault line (.undeclared name)) ∈ results →
          (name, line) ∈ s.freeNames [] ∧ Builtin.ofName? name = none) ∧
        ((∀ o ∈ s.freeNames [], Builtin.ofName? o.1 ≠ none) →
          ∀ line name, .error (.fault line (.undeclared name)) ∉ results) := by
  have hsource := Tree.isSource_of_ofTokens ht
  refine ⟨t.standard, (Program.codes_of_ofTree (.inl ⟨_, hsource⟩) hsource.standard hp).1, ?_⟩
  intro ω _ sink results m hruns
  have hlocates := (hruns.scoped (Program.start_scoped hsource hp sink)).2
  refine ⟨fun line name he => hlocates _ he, fun hbuiltin line name he => ?_⟩
  obtain ⟨hfree, hnone⟩ := hlocates _ he
  exact hbuiltin _ hfree hnone

/-- The program `(fn x . y) 1`, with a name that nothing binds. -/
theorem Program.undeclared_of_runs_unbound : ∃ t p, Tree.ofTokens
      ([.symbol .lparen, .symbol .fnKw, .identifier "x", .symbol .dot, .identifier "y",
        .symbol .rparen, .integer "1", .symbol .endOfInput].map fun l =>
          { lexeme := l, span := ⟨0, 0⟩, line := 1 }) = .ok t ∧
    (Arena.ofTree t).program = .ok p ∧ ∃ s, p.arena.rootTree? = some s ∧
      ∀ {ω : Type} [OutputWriter ω] (sink : ω) results m,
        Machine.Runs (Machine.start p sink) results m →
        (∀ line name, .error (.fault line (.undeclared name)) ∈ results →
          (name, line) ∈ s.freeNames [] ∧ Builtin.ofName? name = none) ∧
        ((∀ o ∈ s.freeNames [], Builtin.ofName? o.1 ≠ none) →
          ∀ line name, .error (.fault line (.undeclared name)) ∉ results) := by
  generalize htokens : List.map _ _ = tokens
  have hok : ((Tree.ofTokens tokens).toOption.any fun t =>
      (Arena.ofTree t).program.isOk && decide True) = true := by
    subst htokens
    decide +kernel
  obtain ⟨t, p, h, hp, -⟩ := Program.exists_of_tokens (P := fun _ => True) hok
  exact ⟨t, p, h, hp, undeclared_of_runs h hp⟩

end Rpal
