import Rpal.Proofs.Token.Spelling
import Rpal.Proofs.Tree.Standard

/-!
# Trees with texts from the source

In the tree of scanned tokens, the literals have the texts of tokens, and no other node has a text.
This holds for the canonical form too, in which nodes are rearranged and new ones have no text.

## Key results

- `Derives.built`: the tree of a sentence is built from leaves for its tokens
- `isLegible_of_ofTokens`: the tree of scanned tokens is legible
- `IsLegible.standard`: its canonical form is legible
-/

namespace Rpal

namespace Grammar

variable {p : Token → Prop}

/-- The tree is built from leaves for tokens with the property `p`. -/
inductive Built (p : Token → Prop) : Tree Label → Prop where
  | leaf {k kind} : p k → (k.type, kind) ∈ leafTokens → Built p (leaf kind k)
  | unit {k : Token} : p k → Built p (.leaf { kind := .unit, text := none, line := k.line })
  | branch {kind ts} : kind.isLiteral = false → (∀ t ∈ ts, Built p t) → Built p (.branch kind ts)

/-- A name is built from its token. -/
theorem Built.name {k : Token} (hk : p k) (h : k.type = .identifier) : Built p (nameLeaf k) :=
  .leaf hk (by rw [h]; decide)

/-- The operators that group from the left are no literals. -/
theorem Nonterminal.isLiteral_of_leftOperators (n : Nonterminal) :
    ∀ i ∈ n.leftOperators, i.2.isLiteral = false := by
  cases n <;> decide

/-- No comparison is a literal. -/
theorem isLiteral_of_comparisonOperators : ∀ i ∈ comparisonOperators, i.2.isLiteral = false := by
  decide

/-- An operator is built from its two sides. -/
theorem Built.pair {kind : Kind} {l r : Tree Label} (hkind : kind.isLiteral = false)
    (hl : Built p l) (hr : Built p r) : Built p (.branch kind [l, r]) :=
  .branch hkind (List.forall_mem_cons.2 ⟨hl, List.forall_mem_singleton.2 hr⟩)

/-- A prefix operator is built from its operand. -/
theorem Built.single {kind : Kind} {t : Tree Label} (hkind : kind.isLiteral = false)
    (ht : Built p t) : Built p (.branch kind [t]) :=
  .branch hkind (List.forall_mem_singleton.2 ht)

/-- The tree of a sentence is built from leaves for its tokens. -/
theorem Derives.built {n : Nonterminal} {ts : List Token} {t : Tree Label} (h : Derives n ts t)
    (hts : ∀ k ∈ ts, p k) : Built p t := by
  -- the tokens of a sentence are those of its parts
  induction h <;> try simp only [List.forall_mem_append, List.forall_mem_cons, forall_mem_joined,
      forall_mem_separated] at hts
  case only ih => exact ih hts
  case left hop _ _ _ _ ihl ihr =>
    exact .pair (Nonterminal.isLiteral_of_leftOperators _ _ hop) (ihl hts.1) (ihr hts.2.2)
  case comparison hop _ _ _ ihl ihr =>
    exact .pair (isLiteral_of_comparisonOperators _ hop) (ihl hts.1) (ihr hts.2.2)
  case letIn ihd ihe => exact .pair rfl (ihd hts.2.1) (ihe hts.2.2.2)
  case whereIn ihe ihd => exact .pair rfl (ihe hts.1) (ihd hts.2.2)
  case power ihl ihr | within ihl ihr | equation ihl ihr =>
    exact .pair rfl (ihl hts.1) (ihr hts.2.2)
  case gamma ihl ihr => exact .pair rfl (ihl hts.1) (ihr hts.2)
  case not ih | minus ih | recursive ih => exact .single rfl (ih hts.2)
  case plus ih => exact ih hts.2
  case parenthesized ih | parenthesizedDefinition ih | parameterNames ih => exact ih hts.2.1
  case leaf hk => exact .leaf hts.1 hk
  case parameterName hx | singleName hx => exact .name hts.1 hx
  case parameterUnit => exact .unit hts.1
  case conditional ihc iht ihe =>
    refine .branch rfl ?_
    simpa using ⟨ihc hts.1, iht hts.2.2.1, ihe hts.2.2.2.2⟩
  case atName hf _ ihl ihr =>
    refine .branch rfl ?_
    simpa using ⟨ihl hts.1, Built.name hts.2.2.1 hf, ihr hts.2.2.2⟩
  case tau iht ih | simultaneous iht ih =>
    refine .branch rfl (List.forall_mem_cons.2 ⟨iht hts.1, List.forall_mem_map.2 fun i hi => ?_⟩)
    exact ih i hi (hts.2 i hi).2
  case lambda ihv ihe =>
    refine .branch rfl (List.forall_mem_append.2 ⟨List.forall_mem_map.2 fun v hv => ?_, ?_⟩)
    · exact ihv v hv (hts.2.1 v hv)
    · exact List.forall_mem_singleton.2 (ihe hts.2.2.2)
  case functionForm hf _ _ _ _ ihv ihe =>
    refine .branch rfl (List.forall_mem_append.2 ⟨List.forall_mem_cons.2
      ⟨.name hts.1 hf, List.forall_mem_map.2 fun v hv => ?_⟩, ?_⟩)
    · exact ihv v hv (hts.2.1 v hv)
    · exact List.forall_mem_singleton.2 (ihe hts.2.2.2)
  case names hx _ _ hitems =>
    refine .branch rfl (List.forall_mem_cons.2
      ⟨.name hts.1 hx, List.forall_mem_map.2 fun i hi => ?_⟩)
    obtain ⟨y, hy, hname⟩ := hitems i hi
    have hitem := (hts.2 i hi).2
    rw [hname] at hitem ⊢
    exact .name (List.forall_mem_singleton.1 hitem) hy

end Grammar

/-! ### Legible trees -/

/-- The label is that of a leaf for the lexeme. -/
def Label.Spells (l : Label) (lexeme : Lexeme) : Prop :=
  Parser.leaf? lexeme = some (l.kind, l.text)

namespace Tree

/-- Literals are leaves with the text of a lexeme that can be in a program, and no other node has a
    text. -/
inductive IsLegible : Tree Label → Prop where
  | literal {l : Label} {lexeme} : l.Spells lexeme → lexeme.IsSpellable → IsLegible (.leaf l)
  | node {l : Label} {ts} : l.kind.isLiteral = false → l.text = none → (∀ t ∈ ts, IsLegible t) →
      IsLegible (.node l ts)

end Tree

/-- The token was found in some text. -/
def Token.IsScanned (k : Token) : Prop :=
  ∃ address text tokens, Token.scan address text = .ok tokens ∧ k ∈ tokens

/-- A lexeme that is read can be in a program. -/
theorem Segment.Munches.isSpellable {lexeme : Lexeme} {chars rest : List Char}
    (h : Segment.Munches ⟨some lexeme, chars⟩ rest) : lexeme.IsSpellable := by
  cases h with
  | keyword hs | operator hs | punctuation hs => exact ne_of_mem_of_not_mem hs (by decide)
  | identifier hnot hword _ => exact ⟨by rwa [String.toList_ofList], hnot⟩
  | integer hne hdigits _ => exact ⟨by rwa [String.toList_ofList], by rwa [String.toList_ofList]⟩
  | string hend hescapes =>
    exact ⟨by rwa [String.toList_ofList], by rwa [String.toList_ofList]⟩

/-- The lexemes among the segments of a text can be in a program. -/
theorem Splits.isSpellable {text rest : List Char} {segs : List Segment} (h : Splits text segs rest)
    {seg : Segment} (hseg : seg ∈ segs) {lexeme : Lexeme} (hlexeme : seg.lexeme? = some lexeme) :
    lexeme.IsSpellable := by
  induction h with
  | nil => cases hseg
  | @cons seg' follow segs rest hmunches _ ih =>
    rcases List.mem_cons.1 hseg with rfl | hseg
    · obtain ⟨lexeme?, chars⟩ := seg
      obtain rfl : lexeme? = some lexeme := hlexeme
      exact hmunches.isSpellable
    · exact ih hseg

/-- A token that was found is the end of the input, or its lexeme can be in a program. -/
theorem Token.IsScanned.isSpellable {k : Token} (h : k.IsScanned) :
    k.lexeme = .symbol .endOfInput ∨ k.lexeme.IsSpellable := by
  obtain ⟨address, text, tokens, hscan, hk⟩ := h
  obtain ⟨segs, hsplits, rfl⟩ := Token.exists_splits_of_scan hscan
  rcases List.mem_append.1 hk with hk | hk
  · have hlexeme := List.mem_map_of_mem (f := Token.lexeme) hk
    rw [Segment.map_lexeme_tokens] at hlexeme
    obtain ⟨seg, hseg, hlexeme⟩ := List.mem_filterMap.1 hlexeme
    exact .inr (hsplits.isSpellable hseg hlexeme)
  · rw [List.mem_singleton.1 hk]
    exact .inl rfl

namespace Tree

/-- A token that is an operand by itself is the lexeme of its leaf. -/
theorem spells_of_mem_leafTokens {k : Token} {kind : Kind}
    (h : (k.type, kind) ∈ Grammar.leafTokens) :
    Label.Spells { kind, text := k.lexeme.text?, line := k.line } k.lexeme ∧
      k.lexeme ≠ .symbol .endOfInput := by
  obtain ⟨lexeme, span, line⟩ := k
  simp only [Grammar.leafTokens, List.mem_cons, Prod.mk.injEq, List.not_mem_nil, or_false] at h
  obtain ⟨htype, rfl⟩ | ⟨htype, rfl⟩ | ⟨htype, rfl⟩ | ⟨htype, rfl⟩ | ⟨htype, rfl⟩ | ⟨htype, rfl⟩ |
    ⟨htype, rfl⟩ := h <;> cases lexeme <;> cases htype <;> refine ⟨rfl, fun h => ?_⟩ <;> cases h

/-- What is built from scanned tokens is legible. -/
theorem isLegible_of_built {t : Tree Label} (h : Grammar.Built Token.IsScanned t) :
    t.IsLegible := by
  induction h with
  | leaf hk hmem =>
    obtain ⟨hspells, hne⟩ := spells_of_mem_leafTokens hmem
    exact .literal hspells (hk.isSpellable.resolve_left hne)
  | unit => exact .node rfl rfl (List.forall_mem_nil _)
  | branch hkind _ ih => exact .node hkind rfl ih

/-- The tree of scanned tokens is legible. -/
theorem isLegible_of_ofTokens {tokens : List Token} {t : Tree Label}
    (htokens : ∀ k ∈ tokens, k.IsScanned) (h : Tree.ofTokens tokens = .ok t) : t.IsLegible := by
  obtain ⟨rest, hrest, -⟩ := Grammar.exists_eq_beforeEnd_append tokens
  refine isLegible_of_built ((Grammar.derives_of_ofTokens h).built fun k hk => htokens k ?_)
  rw [hrest]
  exact List.mem_append_left rest hk

/-! ### The canonical form -/

/-- The children of a legible tree are legible. -/
theorem IsLegible.children {l : Label} {ts : List (Tree Label)} (h : IsLegible (.node l ts)) :
    ∀ t ∈ ts, IsLegible t := by
  cases h with
  | literal => exact nofun
  | node _ _ hts => exact hts

/-- A node with children has no text. -/
theorem IsLegible.text_of_cons {l : Label} {t : Tree Label} {ts : List (Tree Label)}
    (h : IsLegible (.node l (t :: ts))) : l.text = none := by
  cases h with
  | node _ htext _ => exact htext

/-- A node that is no literal has no text. -/
theorem IsLegible.text_of_isLiteral {l : Label} {ts : List (Tree Label)}
    (h : IsLegible (.node l ts)) (hl : l.kind.isLiteral = false) : l.text = none := by
  cases h with
  | node _ htext _ => exact htext
  | @literal _ lexeme hspells =>
    obtain ⟨kind, text, line⟩ := l
    cases lexeme with
    | symbol s => cases s <;> cases hspells <;> rfl
    | _ =>
      cases hspells
      cases hl

/-- A nest of legible trees is legible. -/
theorem isLegible_nest : ∀ {ts : List (Tree Label)}, ts ≠ [] → (∀ t ∈ ts, IsLegible t) →
    IsLegible (nest ts)
  | [e], _, hts => hts e (.head _)
  | v :: e :: more, _, hts => by
    obtain ⟨hv, hmore⟩ := List.forall_mem_cons.1 hts
    refine .node rfl rfl (List.forall_mem_cons.2 ⟨hv, ?_⟩)
    exact List.forall_mem_singleton.2 (isLegible_nest nofun hmore)

/-- A construct with two legible sides is legible. -/
theorem isLegible_pair {l : Label} {t u : Tree Label} (hl : l.kind.isLiteral = false)
    (htext : l.text = none) (ht : IsLegible t) (hu : IsLegible u) : IsLegible (.node l [t, u]) :=
  .node hl htext (List.forall_mem_cons.2 ⟨ht, List.forall_mem_singleton.2 hu⟩)

/-- The sides of a legible tree are legible, and between them stands no text. -/
theorem IsLegible.sides {l : Label} {t u : Tree Label} (h : IsLegible (.node l [t, u])) :
    l.text = none ∧ IsLegible t ∧ IsLegible u :=
  ⟨h.text_of_cons, h.children t (.head _), h.children u (.tail _ (.head _))⟩

/-- The two sides of legible equations are legible. -/
theorem isLegible_of_mem_sides? {ds : List (Tree Label)} (hds : ∀ d ∈ ds, IsLegible d) :
    ∀ p ∈ ds.filterMap sides?, IsLegible p.1 ∧ IsLegible p.2 := by
  intro p hp
  obtain ⟨d, hd, hsides⟩ := List.mem_filterMap.1 hp
  unfold sides? at hsides
  split at hsides
  · split at hsides
    · cases hsides
      exact (hds _ hd).sides.2
    · cases hsides
  · cases hsides

/-- The rules keep trees legible. -/
theorem isLegible_rewrite {l : Label} {ts : List (Tree Label)} (h : IsLegible (.node l ts)) :
    IsLegible (rewrite l ts) := by
  have hts := h.children
  -- a rule is for a construct that is no literal
  have htext {kind : Kind} (hl : l.kind = kind) (hkind : kind.isLiteral = false) : l.text = none :=
    h.text_of_isLiteral (hl ▸ hkind)
  unfold rewrite
  split
  case h_1 hl =>
    obtain ⟨hd, he₂⟩ := List.forall_mem_cons.1 hts
    obtain ⟨heq, hx, he₁⟩ := hd.sides
    have hlambda := isLegible_pair (l := Label.turned _ .lambda) rfl heq hx
      (List.forall_mem_singleton.1 he₂)
    exact isLegible_pair rfl (htext hl rfl) hlambda he₁
  case h_2 hl =>
    obtain ⟨he₂, hd⟩ := List.forall_mem_cons.1 hts
    obtain ⟨heq, hx, he₁⟩ := (List.forall_mem_singleton.1 hd).sides
    have hlambda := isLegible_pair (l := Label.turned _ .lambda) rfl heq hx he₂
    exact isLegible_pair rfl (htext hl rfl) hlambda he₁
  case h_3 hl =>
    obtain ⟨hp, hmore⟩ := List.forall_mem_cons.1 hts
    exact isLegible_pair rfl (htext hl rfl) hp (isLegible_nest nofun hmore)
  case h_4 hl =>
    obtain ⟨hv, hmore⟩ := List.forall_mem_cons.1 hts
    exact isLegible_pair (hl ▸ rfl) (htext hl rfl) hv (isLegible_nest nofun hmore)
  case h_5 hl =>
    obtain ⟨he₁, hmore⟩ := List.forall_mem_cons.1 hts
    obtain ⟨hn, he₂⟩ := List.forall_mem_cons.1 hmore
    have hinner := isLegible_pair (l := l.beside .gamma) rfl rfl hn he₁
    exact isLegible_pair rfl (htext hl rfl) hinner (List.forall_mem_singleton.1 he₂)
  case h_6 hl =>
    obtain ⟨hd₁, hd₂⟩ := List.forall_mem_cons.1 hts
    obtain ⟨-, hx₁, he₁⟩ := hd₁.sides
    obtain ⟨-, hx₂, he₂⟩ := (List.forall_mem_singleton.1 hd₂).sides
    have hlambda := isLegible_pair (l := l.beside .lambda) rfl rfl hx₁ he₂
    have hgamma := isLegible_pair (l := l.beside .gamma) rfl rfl hlambda he₁
    exact isLegible_pair rfl (htext hl rfl) hx₂ hgamma
  case h_7 hl =>
    have hsides := isLegible_of_mem_sides? hts
    refine isLegible_pair rfl (htext hl rfl) (.node rfl rfl ?_) (.node rfl rfl ?_)
    · exact List.forall_mem_map.2 fun p hp => (hsides p hp).1
    · exact List.forall_mem_map.2 fun p hp => (hsides p hp).2
  case h_8 hl =>
    obtain ⟨-, hx, he⟩ := (List.forall_mem_singleton.1 hts).sides
    have hlambda := isLegible_pair (l := l.beside .lambda) rfl rfl hx he
    have hystar : IsLegible (leaf (l.beside .ystar)) := .node rfl rfl (List.forall_mem_nil _)
    have hgamma := isLegible_pair (l := l.beside .gamma) rfl rfl hystar hlambda
    exact isLegible_pair rfl (htext hl rfl) hx hgamma
  case h_9 => exact h

/-- The canonical form of a legible tree is legible. -/
theorem IsLegible.standard {t : Tree Label} (h : t.IsLegible) : t.standard.IsLegible := by
  induction h with
  | literal hl hlexeme => exact isLegible_rewrite (.literal hl hlexeme)
  | node hkind htext _ ih =>
    rw [Tree.standard, standardAll_eq_map]
    exact isLegible_rewrite (.node hkind htext (List.forall_mem_map.2 ih))

end Tree

end Rpal
