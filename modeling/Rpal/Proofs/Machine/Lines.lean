import Rpal.Proofs.Control.Lines
import Rpal.Proofs.Grammar.Yield
import Rpal.Proofs.Source.TokenLines

/-!
# Lines of errors

A line comes from a token, is handed on to the nodes of the tree, to the new nodes of the canonical
form, to the control structures and to the machine, and is reported at last. None of these makes up a
line: every error with a line reports one on which a token of the source starts.

## Key results

- `Program.OnLines.of_runs`: the errors of any number of runs are on the lines of the program
- `SourceFile.lines_of_tree`: from the tree of a file to the errors
-/

namespace Rpal

variable {ω : Type}

/-! ### Runs -/

namespace Control

variable {c : Control} {i : ControlItem}

/-- The items of a body are items of the control. -/
theorem mem_items_of_mem_body {k : Nat} (hi : i ∈ (c.delta k).body) : i ∈ c.items := by
  by_cases hk : k < c.deltas.size
  · rw [items, toList_deltas, List.mem_append, List.mem_flatMap]
    exact .inl ⟨c.delta k, List.mem_map_of_mem (List.mem_range.2 hk), hi⟩
  · -- a delta that is not there has no items
    have hnone : c.delta k = default := by simp [delta, Array.getD, hk]
    rw [hnone] at hi
    cases hi

/-- The items of a branch are items of the control. -/
theorem mem_items_of_mem_branches {j : Nat}
    (hi : i ∈ (c.beta j).whenTrue ++ (c.beta j).whenFalse) : i ∈ c.items := by
  by_cases hj : j < c.betas.size
  · rw [items, toList_betas, List.mem_append, List.mem_flatMap (l := List.map c.beta _)]
    exact .inr ⟨c.beta j, List.mem_map_of_mem (List.mem_range.2 hj), hi⟩
  · have hnone : c.beta j = default := by simp [beta, Array.getD, hj]
    rw [hnone] at hi
    cases hi

end Control

/-- The items of the control structures are reduced, in any environment. -/
def Program.itemsOnly (p : Program) : p.Discipline where
  admits _ i := i ∈ p.control.items
  code d _ := ∀ i ∈ d.body, i ∈ p.control.items
  code_of_admits _ _ hi := Control.mem_items_of_mem_body hi
  admits_of_code hd _ := hd
  admits_of_beta _ _ hi := Control.mem_items_of_mem_branches hi

/-- A program starts with items of its own control. -/
theorem Program.start_itemsOnly (p : Program) (sink : ω) :
    (Machine.start p sink).Obeys p.itemsOnly := by
  refine ⟨rfl, List.forall_mem_singleton.2 ⟨trivial, fun i hi => ?_⟩, List.forall_mem_nil _⟩
  exact Control.mem_items_of_mem_body (List.mem_reverse.1 hi)

/-- However often a program is run, its errors are on the lines of the program. -/
theorem Program.OnLines.of_runs [OutputWriter ω] {S : Nat → Prop} {p : Program} (h : p.OnLines S)
    {sink : ω} {results : List (Except EvalError (Option Value))} {m : Machine ω}
    (hruns : Machine.Runs (Machine.start p sink) results m) {line : Nat} {f : Fault}
    (hf : .error (.fault line f) ∈ results) : S line := by
  cases (hruns.obeys (p.start_itemsOnly sink)).2 _ hf with
  | fault hitem _ => exact h.items _ hitem
  | undeclared hitem _ _ _ => exact h.items _ hitem

/-- The line that is reported if the machine has stopped with an error. -/
def Progress.errorLine? : Progress ω → Option Nat
  | .halted (.error e) _ => e.line?
  | _ => none

/-- Among the errors, only faults have a line. -/
theorem Progress.eq_of_errorLine? {r : Progress ω} {line : Nat} (h : r.errorLine? = some line) :
    ∃ f m, r = .halted (.error (.fault line f)) m := by
  cases r with
  | running => cases h
  | halted result m =>
    cases result with
    | ok => cases h
    | error e =>
      cases e with
      | fault line f =>
        cases h
        exact ⟨f, m, rfl⟩
      | _ => cases h

/-! ### Tokens -/

namespace SourceFile

variable {f : SourceFile} {tokens : List Token} {t : Tree Label}

/-- A token other than the end of the input starts on the line. -/
def HasTokenOn (f : SourceFile) (tokens : List Token) (line : Nat) : Prop :=
  ∃ k ∈ tokens, k.type ≠ .symbol .endOfInput ∧ k.line = line ∧ f.lineNumber k.span.start = line

/-- A token that becomes a leaf starts on its line. -/
theorem hasTokenOn_of_mem_leavesOf (htokens : f.tokens = .ok tokens) {k : Token}
    (hk : k ∈ Grammar.leavesOf (Grammar.beforeEnd tokens)) : f.HasTokenOn tokens k.line := by
  have hbefore := (Grammar.leavesOf_sublist _).subset hk
  have hmem : k ∈ tokens := (List.takeWhile_sublist _).subset hbefore
  have hne : k.type ≠ .symbol .endOfInput := by simpa using List.mem_takeWhile_imp hbefore
  obtain ⟨before, taken, after, htext, hspan, hline⟩ := exists_between_of_mem_tokens htokens hmem
  exact ⟨k, hmem, hne, rfl, by rw [hspan, lineNumber_eq htext, hline]⟩

/-- A line with a token is a line of the file. -/
theorem HasTokenOn.bounds (htokens : f.tokens = .ok tokens) {line : Nat}
    (h : f.HasTokenOn tokens line) : 1 ≤ line ∧ line ≤ (f.chars.splitOn '\n').length := by
  obtain ⟨k, hk, -, rfl, -⟩ := h
  obtain ⟨before, taken, after, htext, -, hline⟩ := exists_between_of_mem_tokens htokens hk
  rw [Text.length_splitOn, htext, List.count_append]
  omega

/-- Every node of the tree of a file is on the line of the token of its leftmost leaf. Every node of the
    canonical form, and every delta and beta of the program made of it, is on a line on which a token
    starts, and so is every error with a line, however often the program is run. -/
theorem lines_of_tree (h : f.tree = .ok t) : ∃ tokens, f.tokens = .ok tokens ∧
    (Arena.ofTree t).rootTree? = some t ∧
    t.HasYield (Grammar.leavesOf (Grammar.beforeEnd tokens)) ∧
    (∀ id, (Arena.ofTree t).Reaches id → ∃ k ks, ((Arena.ofTree t).tree id).HasYield (k :: ks) ∧
      k :: ks <:+: Grammar.leavesOf (Grammar.beforeEnd tokens) ∧ (Arena.ofTree t).line id = k.line) ∧
    (∃ a, (Arena.ofTree t).standardForm = .ok a ∧
      ∀ id, a.Reaches id → f.HasTokenOn tokens (a.line id)) ∧
    ∀ p, (Arena.ofTree t).program = .ok p → p.OnLines (f.HasTokenOn tokens) ∧
      ∀ {ω : Type} [OutputWriter ω] (sink : ω) results m,
        Machine.Runs (Machine.start p sink) results m →
        ∀ line fault, .error (.fault line fault) ∈ results → f.HasTokenOn tokens line ∧
          1 ≤ line ∧ line ≤ (f.chars.splitOn '\n').length := by
  obtain ⟨tokens, htokens, ht⟩ := exists_tokens_of_tree h
  have hsource := Tree.isSource_of_ofTokens ht
  have hyield := Tree.hasYield_of_ofTokens ht
  have hlines : t.OnLines (f.HasTokenOn tokens) := by
    intro l hl
    obtain ⟨k, hk, hline⟩ := hyield.exists_line_eq l hl
    rw [hline]
    exact hasTokenOn_of_mem_leavesOf htokens hk
  obtain ⟨root, F, hroot, hunfolds⟩ := Arena.unfolds_ofTree t
  refine ⟨tokens, htokens, hunfolds.rootTree?_eq hroot, hyield, fun id hid => ?_, ?_,
    fun p hp => ?_⟩
  · -- the leaves of a part of the tree are next to each other
    obtain ⟨u, hu, ks, hks, hinfix⟩ := hid.exists_unfolds
      (P := fun u => ∃ ks, u.HasYield ks ∧ ks <:+: Grammar.leavesOf (Grammar.beforeEnd tokens))
      hroot hunfolds ⟨_, hyield, List.infix_refl _⟩ fun l ts ⟨ks, hks, hinfix⟩ u hu => by
        obtain ⟨ks', hks', hinfix'⟩ := hks.of_mem_children hu
        exact ⟨ks', hks', hinfix'.trans hinfix⟩
    obtain ⟨k, ks, rfl, hline⟩ := hks.exists_cons
    refine ⟨k, ks, ?_, hinfix, ?_⟩
    · rwa [hu.tree_eq]
    · rw [Arena.line, hu.label_eq, hline]
  · obtain ⟨a, root, F, hform, -, hroot, -, hunfolds⟩ :=
      Arena.unfolds_standardForm (.inl ⟨_, hsource⟩)
    exact ⟨a, hform, fun id hid => hid.onLine hroot hunfolds hlines.standard⟩
  · have honlines := Program.onLines_of_ofTree hsource hp hlines
    refine ⟨honlines, fun sink results m hruns line fault hfault => ?_⟩
    have htoken := honlines.of_runs hruns hfault
    exact ⟨htoken, htoken.bounds htokens⟩

/-- A division by zero on the second line of a file, inside a function that the last line applies. -/
theorem lines_of_tree_division :
    let f : SourceFile := { name := "", start := 0, content := "let f x =\n  x / 0 // fails\nin\n\nf 1" }
    ∃ t p m tokens fault, f.tree = .ok t ∧ f.tokens = .ok tokens ∧
      (Arena.ofTree t).program = .ok p ∧
      Machine.Runs (Machine.start p (Sink.withRoom none)) [.error (.fault 2 fault)] m ∧
      f.HasTokenOn tokens 2 ∧ 1 ≤ 2 ∧ 2 ≤ (f.chars.splitOn '\n').length := by
  intro f
  have hok : (f.tree.toOption.any fun t => (Arena.ofTree t).program.toOption.any fun p =>
      ((Machine.start p (Sink.withRoom none)).runFor 100).errorLine? = some 2) = true := by
    decide +kernel
  cases ht : f.tree with
  | error e =>
    rw [ht] at hok
    cases hok
  | ok t =>
    rw [ht, Except.toOption, Option.any_some] at hok
    cases hp : (Arena.ofTree t).program with
    | error e =>
      rw [hp] at hok
      cases hok
    | ok p =>
      rw [hp, Except.toOption, Option.any_some, decide_eq_true_iff] at hok
      obtain ⟨fault, m, hrun⟩ := Progress.eq_of_errorLine? hok
      obtain ⟨tokens, htokens, -, -, -, -, hprogram⟩ := lines_of_tree ht
      have hruns := Machine.Runs.cons hrun (.nil m)
      have herror := (hprogram p hp).2 _ _ _ hruns 2 fault List.mem_cons_self
      exact ⟨t, p, m, tokens, fault, rfl, htokens, hp, hruns, herror⟩

end SourceFile

end Rpal
