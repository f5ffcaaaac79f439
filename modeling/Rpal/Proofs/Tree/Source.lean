import Rpal.Program
import Rpal.Proofs.Grammar.Acceptance

/-!
# The trees of programs

The trees that the parser builds, as a predicate on trees: which constructs have which children.
Constructs that are evaluated with all their children alike are taken together: `Kind.takes` says
how many children they have.

## Key results

- `isSource_of_ofTokens`: the tree of a program's tokens is an expression
-/

namespace Rpal

/-- A construct whose children are all expressions can have `n` of them. -/
def Kind.takes : Kind → Nat → Bool
  | identifier, n | integer, n | string, n | truth _, n | nil, n | dummy, n => n = 0
  | not, n | neg, n => n = 1
  | binary _, n | gamma, n => n = 2
  | conditional, n => n = 3
  | tau, n => 2 ≤ n
  | _, _ => false

namespace Tree

/-- The tree is a single name. -/
def IsName (t : Tree Label) : Prop :=
  ∃ l : Label, l.kind = .identifier ∧ t = .leaf l

/-- The tree is the left side of an equation: a name or several. -/
inductive IsPattern : Tree Label → Prop where
  | name {t} : IsName t → IsPattern t
  | names {l : Label} {ts} : l.kind = .names → 2 ≤ ts.length → (∀ t ∈ ts, IsName t) →
      IsPattern (.node l ts)

/-- The tree is a parameter of a function: a pattern or nothing to bind. -/
inductive IsParameter : Tree Label → Prop where
  | pattern {t} : IsPattern t → IsParameter t
  | unit {l : Label} : l.kind = .unit → IsParameter (.leaf l)

/-- What a part of a program is there for. -/
inductive Role where
  | expression
  | definition

open Role in
/-- The tree is a part of a program as the parser builds it. -/
inductive IsSource : Role → Tree Label → Prop where
  | plain {l : Label} {ts} : l.kind.takes ts.length → (∀ t ∈ ts, IsSource expression t) →
      IsSource expression (.node l ts)
  | atName {l : Label} {e₁ n e₂} : l.kind = .atName → IsSource expression e₁ → IsName n →
      IsSource expression e₂ → IsSource expression (.node l [e₁, n, e₂])
  | letIn {l : Label} {d e} : l.kind = .letIn → IsSource definition d → IsSource expression e →
      IsSource expression (.node l [d, e])
  | whereIn {l : Label} {e d} : l.kind = .whereIn → IsSource expression e →
      IsSource definition d → IsSource expression (.node l [e, d])
  | lambda {l : Label} {vs e} : l.kind = .lambda → vs ≠ [] → (∀ v ∈ vs, IsParameter v) →
      IsSource expression e → IsSource expression (.node l (vs ++ [e]))
  | equation {l : Label} {x e} : l.kind = .equation → IsPattern x → IsSource expression e →
      IsSource definition (.node l [x, e])
  | functionForm {l : Label} {f vs e} : l.kind = .functionForm → IsName f → vs ≠ [] →
      (∀ v ∈ vs, IsParameter v) → IsSource expression e →
      IsSource definition (.node l (f :: (vs ++ [e])))
  | within {l : Label} {d₁ d₂} : l.kind = .within → IsSource definition d₁ →
      IsSource definition d₂ → IsSource definition (.node l [d₁, d₂])
  | simultaneous {l : Label} {ds} : l.kind = .simultaneous → 2 ≤ ds.length →
      (∀ d ∈ ds, IsSource definition d) → IsSource definition (.node l ds)
  | recursive {l : Label} {d} : l.kind = .recursive → IsSource definition d →
      IsSource definition (.node l [d])

end Tree

namespace Grammar

open Rpal.Tree (IsName IsPattern IsParameter IsSource)

/-- What the trees of a nonterminal's sentences are. -/
def Nonterminal.Shape : Nonterminal → Tree Label → Prop
  | nameList => IsPattern
  | parameter => IsParameter
  | definition | simultaneous | recursive | basic => IsSource .definition
  | _ => IsSource .expression

/-- The last alternative of a production has trees of the same shape. -/
theorem Nonterminal.shape_alternative {n m : Nonterminal} (h : n.alternative? = some m) :
    m.Shape = n.Shape := by
  cases n <;> cases h <;> rfl

/-- The operators that group from the left are constructs with two operands. -/
theorem Nonterminal.takes_of_leftOperators (n : Nonterminal) :
    ∀ i ∈ n.leftOperators, i.2.takes 2 = true := by
  cases n <;> decide

/-- Phrases between operators that group from the left are expressions. -/
theorem Nonterminal.shape_of_leftOperators {n : Nonterminal} {i : Symbol × Kind}
    (h : i ∈ n.leftOperators) : n.Shape = IsSource .expression := by
  cases n <;> first | rfl | exact nomatch h

/-- A comparison takes two children. -/
theorem takes_of_comparisonOperators : ∀ i ∈ comparisonOperators, i.2.takes 2 = true := by
  decide

/-- A leaf takes no children. -/
theorem takes_of_leafTokens : ∀ i ∈ leafTokens, i.2.takes 0 = true := by
  decide

/-- The leaf of an identifier is a name. -/
theorem isName_nameLeaf (x : Token) : IsName (nameLeaf x) :=
  ⟨_, rfl, rfl⟩

/-- A construct over expressions. -/
theorem isSource_branch {kind : Kind} {ts : List (Tree Label)} (hkind : kind.takes ts.length = true)
    (hts : ∀ t ∈ ts, IsSource .expression t) : IsSource .expression (.branch kind ts) :=
  .plain hkind hts

/-- A construct over two expressions. -/
theorem isSource_pair {kind : Kind} {l r : Tree Label} (hkind : kind.takes 2 = true)
    (hl : IsSource .expression l) (hr : IsSource .expression r) :
    IsSource .expression (.branch kind [l, r]) :=
  isSource_branch hkind (by simpa using ⟨hl, hr⟩)

/-- The tree of a sentence has the shape of its nonterminal's trees. -/
theorem Derives.shape {n : Nonterminal} {ts : List Token} {t : Tree Label} (h : Derives n ts t) :
    n.Shape t := by
  induction h with
  | only hm _ ih => rwa [← Nonterminal.shape_alternative hm]
  | left hop hm _ _ _ ihl ihr =>
    -- the right operand is a phrase of the alternative, whose trees have the same shape
    rw [Nonterminal.shape_alternative hm] at ihr
    rw [Nonterminal.shape_of_leftOperators hop] at ihl ihr ⊢
    exact isSource_pair (Nonterminal.takes_of_leftOperators _ _ hop) ihl ihr
  | comparison hop _ _ _ ihl ihr => exact isSource_pair (takes_of_comparisonOperators _ hop) ihl ihr
  | letIn _ _ _ _ ihd ihe => exact .letIn rfl ihd ihe
  | lambda _ hne _ _ _ ihv ihe =>
    exact .lambda rfl (by simpa using hne) (List.forall_mem_map.2 ihv) ihe
  | whereIn _ _ _ ihe ihd => exact .whereIn rfl ihe ihd
  | @tau ts t items _ hne _ _ iht ih =>
    -- with the first phrase there are two operands at least
    have hlen : 1 ≤ items.length := List.length_pos_iff.2 hne
    refine isSource_branch (by simpa [Kind.takes, trees] using hlen) ?_
    exact List.forall_mem_cons.2 ⟨iht, List.forall_mem_map.2 ih⟩
  | conditional _ _ _ _ _ ihc iht ihe =>
    exact isSource_branch rfl (by simpa using ⟨ihc, iht, ihe⟩)
  | not _ _ ih => exact isSource_branch rfl (List.forall_mem_singleton.2 ih)
  | plus _ _ ih => exact ih
  | minus _ _ ih => exact isSource_branch rfl (List.forall_mem_singleton.2 ih)
  | power _ _ _ ihl ihr => exact isSource_pair rfl ihl ihr
  | atName _ _ _ _ ihl ihr => exact .atName rfl ihl (isName_nameLeaf _) ihr
  | gamma _ _ ihl ihr => exact isSource_pair rfl ihl ihr
  | leaf hk => exact .plain (takes_of_leafTokens _ hk) (List.forall_mem_nil _)
  | parenthesized _ _ _ ih => exact ih
  | within _ _ _ ihl ihr => exact .within rfl ihl ihr
  | @simultaneous ts t items _ hne _ _ iht ih =>
    have hlen : 1 ≤ items.length := List.length_pos_iff.2 hne
    refine .simultaneous rfl (by simpa [trees] using hlen) ?_
    exact List.forall_mem_cons.2 ⟨iht, List.forall_mem_map.2 ih⟩
  | recursive _ _ ih => exact .recursive rfl ih
  | equation _ _ _ ihx ihe => exact .equation rfl ihx ihe
  | functionForm _ hne _ _ _ ihv ihe =>
    exact .functionForm rfl (isName_nameLeaf _) (by simpa using hne) (List.forall_mem_map.2 ihv)
      ihe
  | parenthesizedDefinition _ _ _ ih => exact ih
  | parameterName _ => exact .pattern (.name (isName_nameLeaf _))
  | parameterNames _ _ _ ih => exact .pattern ih
  | parameterUnit _ _ => exact .unit rfl
  | singleName _ => exact .name (isName_nameLeaf _)
  | @names x items _ hne _ hitems =>
    have hlen : 1 ≤ items.length := List.length_pos_iff.2 hne
    refine .names rfl (by simpa [trees] using hlen) ?_
    simp only [trees, List.forall_mem_cons, List.forall_mem_map]
    refine ⟨isName_nameLeaf _, fun i hi => ?_⟩
    obtain ⟨y, -, hname⟩ := hitems i hi
    rw [hname]
    exact isName_nameLeaf y

end Grammar

namespace Tree

/-- The tree of a program's tokens is an expression. -/
theorem isSource_of_ofTokens {tokens : List Token} {t : Tree Label}
    (h : Tree.ofTokens tokens = .ok t) : IsSource .expression t :=
  (Grammar.derives_of_ofTokens h).shape

end Tree

namespace SourceFile

variable {f : SourceFile} {t : Tree Label}

/-- The tree of a file is that of its tokens. -/
theorem exists_tokens_of_tree (h : f.tree = .ok t) :
    ∃ tokens, f.tokens = .ok tokens ∧ Tree.ofTokens tokens = .ok t := by
  simp only [SourceFile.tree, bind, Except.bind] at h
  cases htokens : f.tokens with
  | error e =>
    rw [htokens] at h
    cases h
  | ok tokens =>
    rw [htokens] at h
    cases ht : Tree.ofTokens tokens with
    | error e =>
      simp only [Except.mapError, ht] at h
      cases h
    | ok u =>
      simp only [Except.mapError, ht] at h
      exact ⟨tokens, rfl, Except.ok.inj h ▸ ht⟩

/-- The tree of a file is an expression. -/
theorem isSource_of_tree (h : f.tree = .ok t) : Tree.IsSource .expression t := by
  obtain ⟨tokens, -, ht⟩ := exists_tokens_of_tree h
  exact Tree.isSource_of_ofTokens ht

end SourceFile

end Rpal
