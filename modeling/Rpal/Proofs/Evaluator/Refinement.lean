import Rpal.Proofs.Evaluator.Simulation

/-!
# The machine refines the evaluator

A program that is built from a parsed tree halts exactly if the evaluation of its standardized tree
ends, and then with the same value or error and the same output. Evaluation here is the recursive
one; nothing is said about steps, frames or stacks.

## Key results

- `follows_evaluate`: the machine follows the evaluation of the whole program, up to any limit
- `Program.halts_iff_evaluates`: ends of the machine are ends of the evaluation
-/

namespace Rpal

open Rpal.Tree

/-- What the machine comes to when the evaluation of its program ends with `result`: the same value
    or error, with the deltas of functions in place of their trees. -/
def Program.outcome (p : Program)
    (result : Except (EvalErrorOf (Abstraction Numbered)) (TreeValue Numbered)) :
    Except EvalError (Option Value) :=
  match result with
  | .ok v => .ok (some (v.map p.deltaOf))
  | .error e => .error (e.map p.deltaOf)

namespace Machine

variable {p : Program} {env : Env} {v : TreeValue Numbered} {m : Machine}

/-- A machine without frames halts with the value that is left. -/
theorem Has.finish (hm : m.Has p [] [v.map p.deltaOf]) :
    ∃ m', m.step = .halted (.ok (some (v.map p.deltaOf))) m' ∧ m'.sink = m.sink := by
  rw [step.eq_def, hm.frames_eq]
  simp only [Machine.finish, hm.values_eq]
  exact ⟨_, rfl, rfl⟩

/-- A machine that has left the value of the program halts with it. -/
theorem Leaves.halts (hm : m.Leaves p { control := [], env } [] [] v) :
    ∃ n m', m.runFor n = .halted (.ok (some (v.map p.deltaOf))) m' ∧ m'.sink = m.sink := by
  obtain ⟨-, frames, hm, rfl | ⟨-, rfl⟩⟩ := hm
  · -- the program's own frame goes first
    have hdrop : m.step = .running { m with frames := [] } := by
      rw [step.eq_def, hm.frames_eq]
    have hm' : Has p [] [v.map p.deltaOf] { m with frames := [] } :=
      ⟨hm.program_eq, hm.room_eq, rfl, hm.values_eq⟩
    obtain ⟨m', hstep, hsink⟩ := hm'.finish
    exact ⟨1 + 1, m', (runFor_add 1 ((m.runFor_one).trans hdrop)).trans
      ((runFor_one _).trans hstep), hsink⟩
  · obtain ⟨m', hstep, hsink⟩ := hm.finish
    exact ⟨1, m', (m.runFor_one).trans hstep, hsink⟩

end Machine

section

variable {p : Program} {t : Tree Label} {sink : Sink}

/-- The machine follows the evaluation of the whole program. -/
theorem follows_evaluate (ht : t.IsExpression) (hp : (Arena.ofTree t).program = .ok p)
    (hroom : sink.room = none) (limit : Nat) :
    Follows p limit (Machine.start p sink)
      (fun v m => m.Leaves p { control := [], env := .outermost } [] [] v)
      (t.standard.numbered.evaluate limit) := by
  have hcodes := Program.codes_of_isExpression ht hp
  have hshaped : t.standard.numbered.IsShaped := by
    refine IsCore.isShaped ?_
    rw [map_label_numbered]
    exact ht.core
  have hnone : p.Offers none [] [] := .none trivial
  let env : TreeEnv Numbered := .outermost
  have henv : env.MadeOf p.codes := trivial
  have hm : (Machine.start p sink).Has p
      [{ control := p.control.root.body.reverse ++ [], env := env.map p.deltaOf }] [] :=
    ⟨rfl, hroom, by rw [List.append_nil]; rfl, rfl⟩
  refine (follows_eval (applies_apply limit) henv hcodes hshaped hnone hm).andThen ?_
  rintro ⟨v, taken⟩ m ⟨htaken, hm⟩
  -- nothing is around the program, so that it is offered no operand
  obtain rfl : taken = false := by simpa using htaken
  exact .pure hm

/-- An evaluation that ends is the end of the machine. -/
theorem halts_of_evaluate (ht : IsSource .expression t) (hp : (Arena.ofTree t).program = .ok p)
    (hroom : sink.room = none) {limit : Nat} {printed : List (TreeValue Numbered)}
    {result : Except (EvalErrorOf (Abstraction Numbered)) (TreeValue Numbered)}
    (h : t.standard.numbered.evaluate limit = .ended printed result) :
    ∃ n m, (Machine.start p sink).runFor n = .halted (p.outcome result) m ∧
      m.sink.written = sink.written ++ output printed := by
  have hfollows := follows_evaluate ht.isExpression hp hroom limit
  rw [h] at hfollows
  cases hfollows with
  | fails hrun hsink => exact ⟨_, _, hrun, hsink⟩
  | returns hrun hsink hleaves =>
    obtain ⟨k, m', hhalts, hsink'⟩ := hleaves.halts
    exact ⟨_, m', (Machine.runFor_add k hrun).trans hhalts, (congrArg _ hsink').trans hsink⟩

/-- The evaluation has ended as soon as the machine has halted: beyond a limit the machine would
    have taken that many steps. -/
theorem exists_ended_of_halted (ht : IsSource .expression t) (hp : (Arena.ofTree t).program = .ok p)
    (hroom : sink.room = none) {n : Nat} {outcome : Except EvalError (Option Value)} {m : Machine}
    (h : (Machine.start p sink).runFor n = .halted outcome m) :
    ∃ printed result, t.standard.numbered.evaluate n = .ended printed result := by
  have hfollows := follows_evaluate ht.isExpression hp hroom n
  cases heval : t.standard.numbered.evaluate n with
  | ended printed result => exact ⟨printed, result, rfl⟩
  | unfinished =>
    rw [heval] at hfollows
    cases hfollows with
    | runs hrun => cases h.symm.trans hrun

/-- A program that is built from a parsed tree, with a sink that takes everything, halts with an
    outcome and some output exactly if the evaluation of its standardized tree in the empty
    environment ends with this outcome and this output. -/
theorem Program.halts_iff_evaluates {tokens : List Token} (ht : Tree.ofTokens tokens = .ok t)
    (hp : (Arena.ofTree t).program = .ok p) (hroom : sink.room = none) :
    p.arena.rootTree? = some t.standard ∧
      ∀ (outcome : Except EvalError (Option Value)) (bytes : ByteArray),
        (∃ n m, (Machine.start p sink).runFor n = .halted outcome m ∧
          m.sink.written = sink.written ++ bytes) ↔
        ∃ limit printed result, t.standard.numbered.evaluate limit = .ended printed result ∧
          p.outcome result = outcome ∧ output printed = bytes := by
  have hsource := isSource_of_ofTokens ht
  refine ⟨(codes_of_ofTree (.inl ⟨_, hsource⟩) hsource.standard hp).1, fun outcome bytes => ⟨?_, ?_⟩⟩
  · rintro ⟨n, m, hhalts, hwritten⟩
    obtain ⟨printed, result, hended⟩ := exists_ended_of_halted hsource hp hroom hhalts
    obtain ⟨k, m', hhalts', hwritten'⟩ := halts_of_evaluate hsource hp hroom hended
    -- the machine halts only once, so that what the evaluation predicts is what has happened
    obtain ⟨rfl, rfl⟩ := Machine.halted_unique hhalts hhalts'
    refine ⟨n, printed, result, hended, rfl, ?_⟩
    exact (ByteArray.append_right_inj _).1 (hwritten'.symm.trans hwritten)
  · rintro ⟨limit, printed, result, hended, rfl, rfl⟩
    exact halts_of_evaluate hsource hp hroom hended

/-- The program `Print (Conc 'a' 'b')`, in which `Conc` takes two operands. -/
theorem Program.halts_iff_evaluates_conc : ∃ t p, Tree.ofTokens
      ([.identifier "Print", .symbol .lparen, .identifier "Conc", .string "a", .string "b",
        .symbol .rparen, .symbol .endOfInput].map fun l =>
          { lexeme := l, span := ⟨0, 0⟩, line := 1 }) = .ok t ∧
    (Arena.ofTree t).program = .ok p ∧ (Sink.withRoom none).room = none ∧
    p.arena.rootTree? = some t.standard ∧
      ∀ (outcome : Except EvalError (Option Value)) (bytes : ByteArray),
        (∃ n m, (Machine.start p (Sink.withRoom none)).runFor n = .halted outcome m ∧
          m.sink.written = (Sink.withRoom none).written ++ bytes) ↔
        ∃ limit printed result, t.standard.numbered.evaluate limit = .ended printed result ∧
          p.outcome result = outcome ∧ output printed = bytes := by
  generalize htokens : List.map _ _ = tokens
  have hok : ((Tree.ofTokens tokens).toOption.any fun t =>
      (Arena.ofTree t).program.isOk && decide True) = true := by
    subst htokens
    decide +kernel
  obtain ⟨t, p, h, hp, -⟩ := Program.exists_of_tokens (P := fun _ => True) hok
  exact ⟨t, p, h, hp, rfl, halts_iff_evaluates h hp rfl⟩

end

end Rpal
