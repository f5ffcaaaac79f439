import Rpal.Proofs.Evaluator.Refinement
import Rpal.Proofs.Evaluator.Relabeling
import Rpal.Proofs.Value.Alpha

/-!
# The same value in two programs

An expression can be a program of its own and a part of another program. Its functions have other
numbers there, and their code is elsewhere. What it comes to is the same apart from this: a value
with the same trees in place of the code of functions.

## Key results

- `Program.SameValue.eq_of_isData`: a value without functions is the same as itself only
- `Tree.Yields.exists_evaluate`: the evaluation of an expression that is a program of its own
- `Tree.exists_evaluate_of_map_label_eq`: the same expression with other numbers
-/

namespace Rpal

open Rpal.Tree

/-- The values, of one program and of another, are the same apart from the numbers of functions and
    the places of their code. -/
def Program.SameValue (p p' : Program) (v v' : Value) : Prop :=
  ∃ w w' : TreeValue Numbered, w.MadeOf p.codes ∧ w'.MadeOf p'.codes ∧ w.map p.deltaOf = v ∧
    w'.map p'.deltaOf = v' ∧ relabel Numbered.label w = relabel Numbered.label w'

section

variable {φ ψ : Type} {g : φ → ψ}

mutual

/-- A value that has no functions in it with other code has none. -/
theorem ValueOf.eq_of_map_eq_data : ∀ {v : ValueOf φ} {d : ValueOf Empty},
    v.map g = d.map Empty.elim → v = d.map Empty.elim
  | .integer _, .integer _, h | .string _, .string _, h | .truth _, .truth _, h
  | .builtin _, .builtin _, h => by
    cases h
    rfl
  | .dummy, .dummy, _ | .ystar, .ystar, _ => rfl
  | .tuple vs, .tuple ds, h => by
    rw [ValueOf.map, ValueOf.map] at h
    rw [ValueOf.map, ValueOf.eq_of_mapAll_eq_data (ValueOf.tuple.inj h)]
  | .closure _ _, .closure c _, _ | .closure _ _, .eta c _, _ | .eta _ _, .closure c _, _
  | .eta _ _, .eta c _, _ => c.elim

/-- Values without functions come from data alone. -/
theorem ValueOf.eq_of_mapAll_eq_data : ∀ {vs : List (ValueOf φ)} {ds : List (ValueOf Empty)},
    ValueOf.mapAll g vs = ValueOf.mapAll Empty.elim ds → vs = ValueOf.mapAll Empty.elim ds
  | [], [], _ => rfl
  | v :: vs, d :: ds, h => by
    rw [ValueOf.mapAll, ValueOf.mapAll] at h
    obtain ⟨hv, hvs⟩ := List.cons.inj h
    rw [ValueOf.mapAll, ← ValueOf.eq_of_map_eq_data hv, ← ValueOf.eq_of_mapAll_eq_data hvs]

end

end

/-- A value without functions is the same as itself only. -/
theorem Program.SameValue.eq_of_isData {p p' : Program} {v v' : Value} (h : p.SameValue p' v v')
    (hv : v.IsData) : v' = v := by
  obtain ⟨w, w', -, -, rfl, rfl, heq⟩ := h
  obtain ⟨d, hd⟩ := hv
  have hempty {φ : Type} (g : Empty → φ) : g = Empty.elim := funext fun c => c.elim
  have hw := ValueOf.eq_of_map_eq_data hd.symm
  rw [hw, relabel, ValueOf.map_map, hempty (_ ∘ _)] at heq
  have hw' := ValueOf.eq_of_map_eq_data heq.symm
  rw [hw, hw', ValueOf.map_map, ValueOf.map_map, hempty (p.deltaOf ∘ Empty.elim),
    hempty (p'.deltaOf ∘ Empty.elim)]

/-! ### Programs of their own -/

namespace Tree

/-- The expression is accepted as the program `p`, which halts with the value `v`. -/
def Yields (t : Tree Label) (p : Program) (v : Value) : Prop :=
  (Arena.ofTree t).program = .ok p ∧
    ∃ n m, (Machine.start p (Sink.withRoom none)).runFor n = .halted (.ok (some v)) m

variable {t : Tree Label} {p : Program} {v : Value} {limit : Nat}
  {printed : List (TreeValue Numbered)} {w : TreeValue Numbered}

/-- An expression that is a program of its own is evaluated to the value that the program halts with,
    whatever the limit is, as long as it is high enough. -/
theorem Yields.exists_evaluate (h : t.Yields p v) (ht : t.IsExpression) : ∃ n, ∀ limit, n ≤ limit →
    ∃ printed w, t.standard.numbered.evaluate limit = .ended printed (.ok w) ∧
      w.MadeOf p.codes ∧ w.map p.deltaOf = v := by
  obtain ⟨hp, n, m, hhalted⟩ := h
  refine ⟨n, fun limit hn => ?_⟩
  have hroom : (Sink.withRoom none).room = none := rfl
  have hfollows := follows_evaluate ht hp hroom limit
  cases heval : t.standard.numbered.evaluate limit with
  | unfinished =>
    -- the machine would still be running
    rw [heval] at hfollows
    cases hfollows with
    | runs hrun =>
      obtain ⟨m', hrunning⟩ := Machine.exists_running_of_le hn hrun
      cases hhalted.symm.trans hrunning
  | ended printed result =>
    rw [heval] at hfollows
    cases hfollows with
    | fails hrun _ => cases (Machine.halted_unique hhalted hrun).1
    | @returns _ w k m' hrun _ hleaves =>
      obtain ⟨k', m'', hhalted', -⟩ := hleaves.halts
      have hunique := Machine.halted_unique hhalted ((Machine.runFor_add k' hrun).trans hhalted')
      obtain rfl := Option.some.inj (Except.ok.inj hunique.1)
      exact ⟨printed, w, rfl, hleaves.1, rfl⟩

/-- A tree is evaluated to the same value whatever numbers its lambdas have. -/
theorem exists_evaluate_of_map_label_eq {u u' : Tree Numbered}
    (hlabel : u'.map Numbered.label = u.map Numbered.label)
    (h : u.evaluate limit = .ended printed (.ok w)) : ∃ printed' w',
      u'.evaluate limit = .ended printed' (.ok w') ∧
        relabel Numbered.label w = relabel Numbered.label w' := by
  have hmap (u : Tree Numbered) := evaluate_map (f := Numbered.label) (fun _ => rfl) limit u
  have heq := (hmap u').trans ((congrArg _ hlabel).trans (hmap u).symm)
  rw [h] at heq
  obtain ⟨printed', w', heval, hw⟩ := Evaluation.exists_of_map_eq_ended heq
  exact ⟨printed', w', heval, hw.symm⟩

end Tree

end Rpal
