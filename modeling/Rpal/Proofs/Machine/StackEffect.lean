import Rpal.Proofs.Control.Codes

/-!
# The stack effect of control sequences

What reducing a control sequence does to the value stack, as far as it can be said before the
program is run. The stack is described by a list of slots: a slot holds a value, and sometimes it is
known that the value is a function of a lambda or the fixpoint finder. The fixpoint finder is only
ever on the stack right above a function, where an application comes next.

`Program.Nets` says that a sequence finds its operands whatever branches are taken, and what it
leaves. It includes the bodies of the lambdas met.

## Key results

- `Nets.frame`: what is below the operands does not matter
- `nets_of_codes`: the code of a tree in canonical form leaves exactly one value
-/

namespace Rpal

open Rpal.Tree

/-- What is known of a value on the stack. -/
inductive Slot where
  | value
  /-- The function of a lambda. -/
  | function
  /-- The fixpoint finder. -/
  | ystar
deriving DecidableEq

namespace Program

/-- The number of operands of the node at place `id`, if it can be reduced. The fixpoint finder is
    not among these nodes. -/
def arity? (p : Program) (id : Nat) : Option Nat :=
  match p.arena.kind id with
  | .identifier | .integer | .string | .truth _ | .nil | .dummy => some 0
  | .not | .neg => some 1
  | .binary _ | .gamma => some 2
  | .tau => some (p.arena.children id).length
  | _ => none

/-- Reducing the sequence takes a stack with the first slots to one with the second slots. -/
inductive Nets (p : Program) : List ControlItem → List Slot → List Slot → Prop where
  | nil {s} : Nets p [] s s
  | node {id ops rest s s'} : p.arity? id = some ops.length → Slot.ystar ∉ ops →
      Nets p rest (.value :: s) s' → Nets p (.node id :: rest) (ops ++ s) s'
  | ystar {id rest s s'} : p.arena.kind id = .ystar → Nets p rest (.ystar :: .function :: s) s' →
      Nets p (.node id :: rest) (.function :: s) s'
  | fixpoint {id rest s s'} : p.arena.kind id = .gamma → Nets p rest (.value :: s) s' →
      Nets p (.node id :: rest) (.ystar :: .function :: s) s'
  | delta {k o rest s s'} : o ≠ Slot.ystar →
      Nets p (p.control.delta k).body.reverse [] [.value] → Nets p rest (o :: s) s' →
      Nets p (.delta k :: rest) s s'
  | beta {j o rest s s'} : o ≠ Slot.ystar →
      Nets p (p.control.beta j).whenTrue.reverse [] [.value] →
      Nets p (p.control.beta j).whenFalse.reverse [] [.value] → Nets p rest (.value :: s) s' →
      Nets p (.beta j :: rest) (o :: s) s'

variable {p : Program} {code code' : List ControlItem} {s s' s'' : List Slot}

/-- What is below the operands does not matter. -/
theorem Nets.frame (h : p.Nets code s s') (below : List Slot) :
    p.Nets code (s ++ below) (s' ++ below) := by
  induction h with
  | nil => exact .nil
  | node harity hops _ ih =>
    rw [List.append_assoc]
    exact .node harity hops ih
  | ystar hk _ ih => exact .ystar hk ih
  | fixpoint hk _ ih => exact .fixpoint hk ih
  | delta ho hbody _ _ ih => exact .delta ho hbody ih
  | beta ho h₁ h₂ _ _ _ ih => exact .beta ho h₁ h₂ ih

/-- A sequence that leaves one value on an empty stack leaves one more value on any stack. -/
theorem Nets.frame_value (h : p.Nets code [] [.value]) (below : List Slot) :
    p.Nets code below (.value :: below) :=
  h.frame below

/-- One sequence is reduced after another. -/
theorem Nets.append (h : p.Nets code s s') (h' : p.Nets code' s' s'') :
    p.Nets (code ++ code') s s'' := by
  induction h with
  | nil => exact h'
  | node harity hops _ ih => exact .node harity hops (ih h')
  | ystar hk _ ih => exact .ystar hk (ih h')
  | fixpoint hk _ ih => exact .fixpoint hk (ih h')
  | delta ho hbody _ _ ih => exact .delta ho hbody (ih h')
  | beta ho h₁ h₂ _ _ _ ih => exact .beta ho h₁ h₂ (ih h')

/-- The node of a construct over expressions takes the values of its operands. -/
theorem arity?_of_takes {id n : Nat} (htakes : (p.arena.kind id).takes n = true)
    (hcond : p.arena.kind id ≠ .conditional) (hn : (p.arena.children id).length = n) :
    p.arity? id = some n := by
  unfold arity?
  cases hk : p.arena.kind id <;> simp only [hk, Kind.takes, decide_eq_true_eq] at htakes ⊢ <;>
    first
      | exact absurd hk hcond
      | rw [htakes]
      | rw [hn]
      | cases htakes

/-- The operands of a construct over expressions are values. -/
theorem Nets.operator {id n : Nat} (harity : p.arity? id = some n)
    (h : p.Nets code [] (List.replicate n .value)) : p.Nets (code ++ [.node id]) [] [.value] := by
  refine h.append ?_
  have hops : Slot.ystar ∉ List.replicate n Slot.value := by
    rw [List.mem_replicate]
    rintro ⟨-, h⟩
    exact nomatch h
  have hnode : p.Nets [.node id] (List.replicate n .value ++ []) [.value] :=
    .node (by rwa [List.length_replicate]) hops .nil
  rwa [List.append_nil] at hnode

/-! ### The code of a tree -/

variable {a : Arena} {c : Control}

/-- The code of several trees leaves one value for each. -/
theorem nets_of_codesAll {us : List (Tree Numbered)} (h : Control.CodesAll a c us code)
    (hus : ∀ u ∈ us, ∀ code, c.Codes a u code → Nets ⟨a, c⟩ code [] [.value]) :
    Nets ⟨a, c⟩ code [] (List.replicate us.length .value) := by
  induction us generalizing code with
  | nil =>
    cases h
    exact .nil
  | cons u us ih =>
    cases h with
    | cons hu hs =>
      obtain ⟨h, hus⟩ := List.forall_mem_cons.1 hus
      exact (ih hs hus).append ((h _ hu).frame_value _)

/-- The code of a tree in canonical form leaves exactly one value. -/
theorem nets_of_codes {u : Tree Numbered} (h : c.Codes a u code)
    (hu : IsStandard (u.map Numbered.label)) : Nets ⟨a, c⟩ code [] [.value] := by
  induction hn : u.size using Nat.strongRecOn generalizing u code with
  | ind n ih =>
    subst hn
    cases h with
    | @lambda l k x e hl _ _ _ he =>
      -- only one of the canonical forms has a lambda at its root
      rcases hu.numbered_cases with ⟨htakes, -⟩ | ⟨-, x', e', heq, he'⟩ | ⟨hgamma, -⟩
      · simp only [hl] at htakes
        cases htakes
      · simp only [List.cons.injEq, and_true] at heq
        obtain ⟨rfl, rfl⟩ := heq
        exact .delta (o := .value) (by decide)
          (ih e.size (by simp only [size, sizeAll]; omega) he he' rfl) .nil
      · cases hl.symm.trans hgamma
    | @conditional l k p e₁ e₂ j code code₁ code₂ hl hbeta h₁ h₂ hp =>
      rcases hu.numbered_cases with ⟨-, hus⟩ | ⟨hlambda, -⟩ | ⟨hgamma, -⟩
      · simp only [List.forall_mem_cons] at hus
        have hp' := ih p.size (by simp only [size, sizeAll]; omega) hp hus.1 rfl
        have h₁' := ih e₁.size (by simp only [size, sizeAll]; omega) h₁ hus.2.1 rfl
        have h₂' := ih e₂.size (by simp only [size, sizeAll]; omega) h₂ hus.2.2.1 rfl
        refine hp'.append (.beta (by decide) ?_ ?_ .nil)
        · simpa only [hbeta, List.reverse_reverse] using h₁'
        · simpa only [hbeta, List.reverse_reverse] using h₂'
      · cases hl.symm.trans hlambda
      · cases hl.symm.trans hgamma
    | @plain l k us id codes hlambda hcond hid hlen hcodes =>
      have hk : a.kind id = l.kind := by rw [Arena.kind, hid]
      rcases hu.numbered_cases with ⟨htakes, hus⟩ | ⟨hl, -⟩ | ⟨hl, ly, lx, x, e, rfl, hly, hlx, he⟩
      · refine .operator (n := us.length) ?_ (nets_of_codesAll hcodes fun u hmem code hu => ?_)
        · exact arity?_of_takes (p := ⟨a, c⟩) (by rwa [hk]) (by rwa [hk]) hlen
        · have hsize := size_le_sizeAll hmem
          exact ih u.size (by rw [size]; omega) hu (hus u hmem) rfl
      · exact absurd hl hlambda
      · -- the function, the fixpoint finder, and the application
        obtain - | ⟨hy, - | ⟨hx, - | -⟩⟩ := hcodes
        cases hx with
        | plain hlambda' _ _ _ _ => exact absurd hlx hlambda'
        | lambda _ _ _ _ hbody =>
          cases hy with
          | plain _ _ hidy _ hnone =>
            cases hnone
            refine .delta (o := .function) (by decide) ?_ (.ystar ?_ (.fixpoint ?_ .nil))
            · exact ih e.size (by simp only [leaf, size, sizeAll]; omega) hbody he rfl
            · rw [Arena.kind, hidy, hly]
            · exact hk.trans hl

end Program

end Rpal
