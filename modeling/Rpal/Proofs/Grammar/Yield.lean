import Rpal.Proofs.Grammar.Acceptance

/-!
# The leaves of a tree and their tokens

Which tokens of a sentence become leaves of its tree can be read off the tokens: names, operands that
are one token, and opening parentheses that are closed at once, for a parameter without a name. The
leaves of the tree stand in the order of these tokens, and every node above them is on the line of the
first token below it.

What a token becomes depends on the token behind it, so that the tokens of a phrase are related to its
tree with whatever follows them (`Grows`). A parenthesis around a phrase becomes nothing, because no
phrase starts with a closing parenthesis.

## Key results

- `Derives.grows`: the leaves of a sentence's tree
- `Tree.HasYield.exists_line_eq`: every node is on the line of a token that became a leaf
- `Tree.hasYield_of_ofTokens`: the tree of a token sequence
-/

namespace Rpal

/-! ### Leaves -/

/-- The label is that of a leaf for the token. An opening parenthesis stands for a parameter without a
    name. -/
def Label.IsLeafOf (l : Label) (k : Token) : Prop :=
  (k.type, l.kind) ∈ (.symbol .lparen, .unit) :: Grammar.leafTokens ∧
    l.text = k.lexeme.text? ∧ l.line = k.line

namespace Tree

mutual

/-- The leaves of the tree are leaves for the tokens, one after the other, and every other node is on
    the line of the token of its leftmost leaf. -/
inductive HasYield : Tree Label → List Token → Prop where
  | leaf {l k} : l.IsLeafOf k → HasYield (.leaf l) [k]
  | node {l ts k ks} : HaveYield ts (k :: ks) → l.line = k.line → HasYield (.node l ts) (k :: ks)

/-- `HasYield` for the leaves of several trees. -/
inductive HaveYield : List (Tree Label) → List Token → Prop where
  | nil : HaveYield [] []
  | cons {t ts ks ks'} : HasYield t ks → HaveYield ts ks' → HaveYield (t :: ts) (ks ++ ks')

end

/-- A tree has a leftmost leaf, and is on the line of the token of that leaf. -/
theorem HasYield.exists_cons {t : Tree Label} {ks : List Token} (h : t.HasYield ks) :
    ∃ k ks', ks = k :: ks' ∧ t.label.line = k.line := by
  cases h with
  | leaf hl => exact ⟨_, [], rfl, hl.2.2⟩
  | node _ hline => exact ⟨_, _, rfl, hline⟩

/-- The tokens of two lists of trees are those of the first, and then those of the second. -/
theorem HaveYield.append {ts us : List (Tree Label)} {ks ks' : List Token} (h : HaveYield ts ks)
    (h' : HaveYield us ks') : HaveYield (ts ++ us) (ks ++ ks') := by
  induction ts generalizing ks with
  | nil =>
    cases h
    exact h'
  | cons t ts ih =>
    cases h with
    | cons ht hts =>
      rw [List.append_assoc]
      exact .cons ht (ih hts)

/-- A node over trees is on the line of the first of them. -/
theorem HaveYield.branch {kind : Kind} {ts : List (Tree Label)} {ks : List Token}
    (h : HaveYield ts ks) (hts : ts ≠ []) : (branch kind ts).HasYield ks := by
  cases h with
  | nil => exact absurd rfl hts
  | cons ht hmore =>
    obtain ⟨k, ks', rfl, hline⟩ := ht.exists_cons
    exact .node (.cons ht hmore) hline

/-- The leaves of one of several trees are next to each other. -/
theorem HaveYield.of_mem {t : Tree Label} : ∀ {ts : List (Tree Label)} {ks : List Token},
    HaveYield ts ks → t ∈ ts → ∃ ks', t.HasYield ks' ∧ ks' <:+: ks
  | _, _, .nil, ht => absurd ht List.not_mem_nil
  | _, _, @HaveYield.cons _ _ ks more hu hts, ht => by
    rw [List.mem_cons] at ht
    obtain rfl | ht := ht
    · exact ⟨ks, hu, (List.prefix_append ks more).isInfix⟩
    · obtain ⟨ks', hyield, hks'⟩ := hts.of_mem ht
      exact ⟨ks', hyield, hks'.trans (List.suffix_append ks more).isInfix⟩

/-- So are those of a part of a tree. -/
theorem HasYield.of_mem_children {l : Label} {t : Tree Label} {ts : List (Tree Label)}
    {ks : List Token} (h : (Tree.node l ts).HasYield ks) (ht : t ∈ ts) :
    ∃ ks', t.HasYield ks' ∧ ks' <:+: ks := by
  cases h with
  | leaf => exact absurd ht List.not_mem_nil
  | node hts _ => exact hts.of_mem ht

mutual

/-- Every node is on the line of one of the tokens of the leaves. -/
theorem HasYield.exists_line_eq : ∀ {t : Tree Label} {ks : List Token}, t.HasYield ks →
    ∀ l ∈ t.preorder, ∃ k ∈ ks, l.line = k.line
  | _, _, .leaf hl, l, hmem => by
    obtain rfl := List.mem_singleton.1 hmem
    exact ⟨_, List.mem_singleton_self _, hl.2.2⟩
  | _, _, .node hts hline, l, hmem => by
    rw [preorder, List.mem_cons] at hmem
    obtain rfl | hmem := hmem
    · exact ⟨_, List.mem_cons_self, hline⟩
    · exact hts.exists_line_eq l hmem

/-- `HasYield.exists_line_eq` for several trees. -/
theorem HaveYield.exists_line_eq : ∀ {ts : List (Tree Label)} {ks : List Token}, HaveYield ts ks →
    ∀ l ∈ preorderAll ts, ∃ k ∈ ks, l.line = k.line
  | _, _, .nil, l, hmem => absurd hmem List.not_mem_nil
  | _, _, .cons ht hts, l, hmem => by
    rw [preorderAll, List.mem_append] at hmem
    obtain hmem | hmem := hmem
    · obtain ⟨k, hk, hline⟩ := ht.exists_line_eq l hmem
      exact ⟨k, List.mem_append_left _ hk, hline⟩
    · obtain ⟨k, hk, hline⟩ := hts.exists_line_eq l hmem
      exact ⟨k, List.mem_append_right _ hk, hline⟩

end

end Tree

namespace Grammar

open Rpal.Tree

/-- The token becomes a leaf if `rest` follows it. -/
def isLeafBefore (k : Token) (rest : List Token) : Bool :=
  leafTokens.any (·.1 = k.type) ||
    k.type = .symbol .lparen && rest.head?.any (·.type = .symbol .rparen)

/-- The tokens that become leaves. -/
def leavesOf : List Token → List Token
  | [] => []
  | k :: rest => if isLeafBefore k rest then k :: leavesOf rest else leavesOf rest

/-- The tokens of leaves are some of the tokens, in the same order. -/
theorem leavesOf_sublist (tokens : List Token) : (leavesOf tokens).Sublist tokens := by
  induction tokens with
  | nil => exact .slnil
  | cons k rest ih =>
    rw [leavesOf]
    split
    · exact ih.cons_cons k
    · exact ih.cons k

/-! ### Phrases -/

/-- Whatever follows the tokens, those of them that become leaves are those of the trees. -/
def Grows (tokens : List Token) (ts : List (Tree Label)) : Prop :=
  ∃ ks, HaveYield ts ks ∧ ∀ rest, leavesOf (tokens ++ rest) = ks ++ leavesOf rest

/-- The symbol never becomes a leaf. -/
def IsBare (s : Symbol) : Prop :=
  s ≠ .lparen ∧ ∀ i ∈ leafTokens, i.1 ≠ .symbol s

instance (s : Symbol) : Decidable (IsBare s) :=
  inferInstanceAs (Decidable (_ ∧ _))

/-- Operators that group from the left are no leaves. -/
theorem Nonterminal.isBare_of_leftOperators (n : Nonterminal) : ∀ i ∈ n.leftOperators, IsBare i.1 := by
  cases n <;> decide

/-- Comparison operators are no leaves. -/
theorem isBare_of_comparisonOperators : ∀ i ∈ comparisonOperators, IsBare i.1 := by
  decide

/-- Nothing starts with a closing parenthesis. -/
theorem Nonterminal.rparen_notMem_starts (n : Nonterminal) : .symbol .rparen ∉ n.starts := by
  cases n <;> decide

variable {k : Token} {tokens tokens' : List Token} {t : Tree Label} {ts ts' : List (Tree Label)}

/-- A token that is no leaf is left out. -/
theorem leavesOf_cons_of_isBare {s : Symbol} (hk : k.type = .symbol s) (hs : IsBare s)
    (rest : List Token) : leavesOf (k :: rest) = leavesOf rest := by
  have hleaf : isLeafBefore k rest = false := by
    rw [isLeafBefore, Bool.or_eq_false_iff, List.any_eq_false]
    refine ⟨fun i hi => ?_, ?_⟩
    · rw [hk]
      simpa using hs.2 i hi
    · rw [hk]
      simp [hs.1]
  rw [leavesOf, hleaf]
  rfl

/-- A token that is a leaf is kept. -/
theorem leavesOf_cons_of_mem_leafTokens {kind : Kind} (hk : (k.type, kind) ∈ leafTokens)
    (rest : List Token) : leavesOf (k :: rest) = k :: leavesOf rest := by
  have hleaf : isLeafBefore k rest = true := by
    rw [isLeafBefore, Bool.or_eq_true]
    exact .inl (List.any_eq_true.2 ⟨_, hk, by simp⟩)
  rw [leavesOf, hleaf, if_pos rfl]

/-- No tokens grow no trees. -/
theorem Grows.nil : Grows [] [] :=
  ⟨[], .nil, fun _ => rfl⟩

/-- Trees grow side by side. -/
theorem Grows.append (h : Grows tokens ts) (h' : Grows tokens' ts') :
    Grows (tokens ++ tokens') (ts ++ ts') := by
  obtain ⟨ks, hts, hks⟩ := h
  obtain ⟨ks', hts', hks'⟩ := h'
  refine ⟨ks ++ ks', hts.append hts', fun rest => ?_⟩
  rw [List.append_assoc, hks, hks', List.append_assoc]

/-- A symbol that becomes no leaf, in front of a phrase. -/
theorem Grows.behind {s : Symbol} (hk : k.type = .symbol s) (hs : IsBare s) (h : Grows tokens ts) :
    Grows (k :: tokens) ts := by
  obtain ⟨ks, hts, hks⟩ := h
  refine ⟨ks, hts, fun rest => ?_⟩
  rw [List.cons_append, leavesOf_cons_of_isBare hk hs, hks]

/-- A leaf grows from its token. -/
theorem Grows.leaf {kind : Kind} (hk : (k.type, kind) ∈ leafTokens) :
    Grows [k] [Grammar.leaf kind k] := by
  have hleaf : HasYield (Grammar.leaf kind k) [k] := .leaf ⟨List.mem_cons_of_mem _ hk, rfl, rfl⟩
  exact ⟨[k], .cons hleaf .nil, leavesOf_cons_of_mem_leafTokens hk⟩

/-- A name grows from its identifier. -/
theorem Grows.name (hk : k.type = .identifier) : Grows [k] [nameLeaf k] :=
  .leaf (by rw [hk]; decide)

/-- A branch grows from the tokens of its children. -/
theorem Grows.branch {kind : Kind} (h : Grows tokens ts) (hts : ts ≠ []) :
    Grows tokens [Tree.branch kind ts] := by
  obtain ⟨ks, hyield, hks⟩ := h
  refine ⟨ks ++ [], .cons (hyield.branch hts) .nil, fun rest => ?_⟩
  rw [hks, List.append_nil]

/-- The two sides of an operator. -/
theorem Grows.pair {kind : Kind} {l r : Tree Label} (hl : Grows tokens [l]) (hr : Grows tokens' [r]) :
    Grows (tokens ++ tokens') [Tree.branch kind [l, r]] :=
  (hl.append hr).branch nofun

/-- The trees of phrases grow from the phrases. -/
theorem Grows.joined {vs : List Phrase} (h : ∀ v ∈ vs, Grows v.tokens [v.tree]) :
    Grows (joined vs) (vs.map Phrase.tree) := by
  induction vs with
  | nil => exact .nil
  | cons v vs ih =>
    rw [List.forall_mem_cons] at h
    exact h.1.append (ih h.2)

/-- The trees of items grow from the items, whatever separates them. -/
theorem Grows.separated {items : List (Token × Phrase)} {s : Symbol} (hs : IsBare s)
    (hsep : ∀ i ∈ items, i.1.type = .symbol s) (h : ∀ i ∈ items, Grows i.2.tokens [i.2.tree]) :
    Grows (separated items) (trees items) := by
  induction items with
  | nil => exact .nil
  | cons i items ih =>
    rw [List.forall_mem_cons] at hsep h
    exact (h.1.append (ih hsep.2 h.2)).behind hsep.1 hs

/-- Parentheses around a phrase become nothing: the opening one does not stand before a closing
    one. -/
theorem Grows.parenthesized {n : Nonterminal} {k₁ k₂ : Token} (hphrase : Derives n tokens t)
    (h₁ : k₁.type = .symbol .lparen) (h₂ : k₂.type = .symbol .rparen) (h : Grows tokens [t]) :
    Grows (k₁ :: (tokens ++ [k₂])) [t] := by
  obtain ⟨ks, hts, hks⟩ := h
  obtain ⟨k, tokens, rfl, hk⟩ := hphrase.exists_cons
  refine ⟨ks, hts, fun rest => ?_⟩
  have hopening : isLeafBefore k₁ (k :: tokens ++ ([k₂] ++ rest)) = false := by
    have hne : k.type ≠ .symbol .rparen := fun heq => n.rparen_notMem_starts (heq ▸ hk)
    have hlparen : leafTokens.any (·.1 = .symbol .lparen) = false := by decide
    simp [isLeafBefore, h₁, hlparen, hne]
  have hclosing : leavesOf (k₂ :: rest) = leavesOf rest :=
    leavesOf_cons_of_isBare h₂ (by decide) rest
  rw [List.cons_append, List.append_assoc, leavesOf, hopening, if_neg (by decide), hks,
    List.singleton_append, hclosing]

/-- An opening parenthesis that is closed at once becomes a parameter without a name. -/
theorem Grows.unit {k₁ k₂ : Token} (h₁ : k₁.type = .symbol .lparen)
    (h₂ : k₂.type = .symbol .rparen) :
    Grows [k₁, k₂] [.leaf { kind := .unit, text := none, line := k₁.line }] := by
  have hleaf : HasYield (.leaf { kind := .unit, text := none, line := k₁.line }) [k₁] := by
    refine .leaf ⟨h₁ ▸ List.mem_cons_self, ?_, rfl⟩
    -- a token whose type is a parenthesis has no text
    obtain ⟨lexeme, span, line⟩ := k₁
    cases lexeme <;> cases h₁
    rfl
  refine ⟨[k₁], .cons hleaf .nil, fun rest => ?_⟩
  have hopening : isLeafBefore k₁ (k₂ :: rest) = true := by simp [isLeafBefore, h₁, h₂]
  have hclosing : leavesOf (k₂ :: rest) = leavesOf rest :=
    leavesOf_cons_of_isBare h₂ (by decide) rest
  show leavesOf (k₁ :: k₂ :: rest) = _
  rw [leavesOf, hopening, if_pos rfl, hclosing]
  rfl

/-- The tree of a sentence has the leaves of its tokens. -/
theorem Derives.grows {n : Nonterminal} (h : Derives n tokens t) : Grows tokens [t] := by
  induction h with
  | only _ _ ih => exact ih
  | left hop _ _ hk _ ihl ihr =>
    exact ihl.pair (ihr.behind hk (Nonterminal.isBare_of_leftOperators _ _ hop))
  | comparison hop _ hk _ ihl ihr =>
    exact ihl.pair (ihr.behind hk (isBare_of_comparisonOperators _ hop))
  | letIn h₁ _ h₂ _ ihd ihe =>
    -- keywords become no leaves
    exact (ihd.pair (ihe.behind h₂ (by decide))).behind h₁ (by decide)
  | whereIn _ hk _ ihl ihr | power _ hk _ ihl ihr | within _ hk _ ihl ihr
  | equation _ hk _ ihl ihr =>
    exact ihl.pair (ihr.behind hk (by decide))
  | gamma _ _ ihl ihr => exact ihl.pair ihr
  | not hk _ ih | minus hk _ ih | recursive hk _ ih =>
    exact (ih.branch nofun).behind hk (by decide)
  | plus hk _ ih => exact ih.behind hk (by decide)
  | parenthesized h₁ hphrase h₂ ih | parenthesizedDefinition h₁ hphrase h₂ ih
  | parameterNames h₁ hphrase h₂ ih => exact .parenthesized hphrase h₁ h₂ ih
  | leaf hk => exact .leaf hk
  | parameterName hx | singleName hx => exact .name hx
  | parameterUnit h₁ h₂ => exact .unit h₁ h₂
  | conditional _ h₁ _ h₂ _ ihc iht ihe =>
    have hbranches := (iht.append (ihe.behind h₂ (by decide))).behind h₁ (by decide)
    exact (ihc.append hbranches).branch nofun
  | atName _ hk hf _ ihl ihr =>
    have hoperands := ((Grows.name hf).append ihr).behind hk (by decide)
    exact (ihl.append hoperands).branch nofun
  | tau _ _ hsep _ iht ih | simultaneous _ _ hsep _ iht ih =>
    exact (iht.append (.separated (by decide) hsep ih)).branch nofun
  | lambda h₁ _ _ h₂ _ ihv ihe =>
    have hparts := (Grows.joined ihv).append (ihe.behind h₂ (by decide))
    exact (hparts.branch (by simp)).behind h₁ (by decide)
  | functionForm hf _ _ hk _ ihv ihe =>
    have hparts := (Grows.joined ihv).append (ihe.behind hk (by decide))
    exact ((Grows.name hf).append hparts).branch nofun
  | @names x items hx _ hsep hitems =>
    have hnames : ∀ i ∈ items, Grows i.2.tokens [i.2.tree] := by
      intro i hi
      obtain ⟨y, hy, hname⟩ := hitems i hi
      rw [hname]
      exact .name hy
    exact ((Grows.name hx).append (.separated (by decide) hsep hnames)).branch nofun

end Grammar

/-- The leaves of a program's tree are those for the tokens before the end of the input. -/
theorem Tree.hasYield_of_ofTokens {tokens : List Token} {t : Tree Label}
    (h : Tree.ofTokens tokens = .ok t) :
    t.HasYield (Grammar.leavesOf (Grammar.beforeEnd tokens)) := by
  obtain ⟨ks, hyield, hks⟩ := (Grammar.derives_of_ofTokens h).grows
  have htokens := hks []
  rw [List.append_nil] at htokens
  rw [htokens]
  cases hyield with
  | cons ht hmore =>
    cases hmore
    simpa [Grammar.leavesOf] using ht

end Rpal
