import Rpal.Proofs.Arena.Unfold
import Rpal.Proofs.Layout.Unplaced
import Rpal.Proofs.Tree.Legible

/-!
# Printed trees are read back

A tree is printed with one line for each node, although the text of a string, which is printed as it
is, may contain what looks like other lines. No tree is lost by this: the line of a string ends
behind its first quote that is not part of an escape, any other line at its end, and no line begins
with a dot of its own. So the lines of a text and their depths are known one after the other, and
these determine the tree.

## Key results

- `entriesAll_inj`: the labels of a tree with their depths determine it
- `Label.unplaced_eq_of_line`: a label is known from the beginning of a text
- `Arena.outline_eq_iff`: trees are printed alike exactly if they are the same up to lines
-/

namespace Rpal

namespace Tree

variable {α β : Type}

/-! ### Labels with their depths -/

mutual

/-- The labels of the nodes, each before its children, with their depths. -/
def entries (depth : Nat) : Tree α → List (Nat × α)
  | node a ts => (depth, a) :: entriesAll (depth + 1) ts

/-- `entries` on a list of trees. -/
def entriesAll (depth : Nat) : List (Tree α) → List (Nat × α)
  | [] => []
  | t :: ts => entries depth t ++ entriesAll depth ts

end

/-- No entry of trees at `depth` can follow: the next one is less deep. -/
def EndsAbove (depth : Nat) (rest : List (Nat × α)) : Prop :=
  ∀ e ∈ rest.head?, e.1 < depth

theorem endsAbove_nil (depth : Nat) : EndsAbove depth ([] : List (Nat × α)) := by
  rintro e ⟨⟩

/-- Entries one level deeper end above what follows them. -/
theorem EndsAbove.entriesAll {depth : Nat} {rest : List (Nat × α)} (h : EndsAbove depth rest)
    (ts : List (Tree α)) : EndsAbove (depth + 1) (entriesAll depth ts ++ rest) := by
  intro e he
  match ts, he with
  | [], he => exact Nat.lt_succ_of_lt (h e he)
  | node a ts :: ts', he =>
    obtain rfl := Option.some.inj he
    exact Nat.lt_succ_self depth

/-- The entries of a tree stand before those of the trees behind it. -/
theorem entriesAll_cons (depth : Nat) (a : α) (ts ts' : List (Tree α)) (rest : List (Nat × α)) :
    entriesAll depth (node a ts :: ts') ++ rest =
      (depth, a) :: (entriesAll (depth + 1) ts ++ (entriesAll depth ts' ++ rest)) := by
  rw [Tree.entriesAll, entries, List.cons_append, List.cons_append, List.append_assoc]

/-- The labels of trees with their depths determine the trees, up to an entry that is less deep. The
    induction is on the trees, with those below the first one and those behind it. -/
theorem entriesAll_inj : ∀ {depth : Nat} {ts us : List (Tree α)} {rest rest' : List (Nat × α)},
    EndsAbove depth rest → EndsAbove depth rest' →
      entriesAll depth ts ++ rest = entriesAll depth us ++ rest' → ts = us ∧ rest = rest'
  | _, [], [], _, _, _, _, h => ⟨rfl, h⟩
  | depth, [], node b us :: us', rest, rest', hrest, _, h => by
    rw [entriesAll_cons] at h
    exact absurd (hrest _ (congrArg List.head? h)) (Nat.lt_irrefl depth)
  | depth, node a ts :: ts', [], rest, rest', _, hrest', h => by
    rw [entriesAll_cons] at h
    exact absurd (hrest' _ (congrArg List.head? h.symm)) (Nat.lt_irrefl depth)
  | depth, node a ts :: ts', node b us :: us', rest, rest', hrest, hrest', h => by
    rw [entriesAll_cons, entriesAll_cons, List.cons.injEq] at h
    obtain ⟨hlabel, htail⟩ := h
    obtain ⟨rfl, hbehind⟩ := entriesAll_inj (hrest.entriesAll ts') (hrest'.entriesAll us') htail
    obtain ⟨rfl, rfl⟩ := entriesAll_inj hrest hrest' hbehind
    obtain rfl := (Prod.mk.inj hlabel).2
    exact ⟨rfl, rfl⟩

/-- The labels of a tree with their depths determine it. -/
theorem entries_inj {depth : Nat} {t u : Tree α} (h : entries depth t = entries depth u) : t = u := by
  have hall : entriesAll depth [t] ++ [] = entriesAll depth [u] ++ [] := by
    simp only [Tree.entriesAll, h]
  exact (List.cons.inj (entriesAll_inj (endsAbove_nil _) (endsAbove_nil _) hall).1).1

mutual

/-- Relabelling a tree relabels its entries. -/
theorem entries_map (f : α → β) : ∀ (depth : Nat) (t : Tree α),
    entries depth (t.map f) = (entries depth t).map (Prod.map id f)
  | depth, node a ts => by
    rw [map, entries, entries, entriesAll_map f (depth + 1) ts]
    rfl

/-- Relabelling trees relabels their entries. -/
theorem entriesAll_map (f : α → β) : ∀ (depth : Nat) (ts : List (Tree α)),
    Tree.entriesAll depth (mapAll f ts) = (Tree.entriesAll depth ts).map (Prod.map id f)
  | _, [] => rfl
  | depth, t :: ts => by
    rw [mapAll, Tree.entriesAll, Tree.entriesAll, entries_map f depth t, entriesAll_map f depth ts,
      List.map_append]

end

end Tree

/-! ### The beginning of a line -/

namespace Kind

/-- The constructs. -/
def all : List Kind :=
  [identifier, integer, string, truth true, truth false, nil, dummy, ystar, not, neg, tau, gamma,
    conditional, lambda, letIn, whereIn, within, simultaneous, recursive, functionForm, atName,
    equation, unit, names, binary .aug, binary (.logical .or), binary (.logical .and),
    binary (.equality .eq), binary (.equality .ne)] ++
  [IntegerOp.plus, .minus, .times, .divide, .power, .gr, .ge, .ls, .le].map (binary ∘ .integer)

/-- Every construct is in the list. -/
theorem mem_all (k : Kind) : k ∈ all := by
  cases k with
  | truth b => cases b <;> decide
  | binary op =>
    cases op with
    | integer op => cases op <;> decide
    | logical op => cases op <;> decide
    | equality op => cases op <;> decide
    | aug => decide
  | _ => decide

/-- How the line of a construct begins: a literal with its tag, any other construct with all of its
    line. -/
def opening : Kind → List Char
  | string => "<STR:'".toList
  | identifier => "<ID:".toList
  | integer => "<INT:".toList
  | k => k.symbol.toList ++ ['\n']

/-- No line begins as that of another construct does. -/
theorem eq_of_opening_prefix {k k' : Kind} (h : k.opening <+: k'.opening) : k = k' := by
  have hall : (all.all fun k => all.all fun k' =>
      decide (k.opening <+: k'.opening → k = k')) = true := by
    decide +kernel
  have hk := List.all_eq_true.1 hall k (mem_all k)
  exact of_decide_eq_true (List.all_eq_true.1 hk k' (mem_all k')) h

/-- A line begins with a character other than a dot. -/
theorem exists_opening_eq (k : Kind) : ∃ c cs, k.opening = c :: cs ∧ c ≠ '.' := by
  have hall : ∀ k ∈ all, k.opening.head?.any (· ≠ '.') = true :=
    forall_mem_of_all (by decide +kernel)
  have hk := hall k (mem_all k)
  cases hopening : k.opening with
  | nil =>
    rw [hopening] at hk
    cases hk
  | cons c cs =>
    rw [hopening] at hk
    exact ⟨c, cs, rfl, of_decide_eq_true hk⟩

end Kind

/-- A word consists of characters that can continue it. -/
theorem IsWord.isWordRest {word : List Char} (h : IsWord word) : ∀ c ∈ word, isWordRest c = true := by
  obtain ⟨c, cs, rfl, hc, hcs⟩ := h
  refine List.forall_mem_cons.2 ⟨?_, hcs⟩
  simp only [Rpal.isWordRest, Char.isAlphanum, show c.isAlpha = true from hc, Bool.true_or]

namespace Label

/-- The label is that of a node of a legible tree. -/
def IsLegible (l : Label) : Prop :=
  l.kind.isLiteral = false ∧ l.text = none ∨ ∃ lexeme, l.Spells lexeme ∧ lexeme.IsSpellable

/-- What stands behind the opening of the line of a label. -/
def closing (l : Label) : List Char :=
  match l.kind with
  | .string => l.content.toList ++ '\x27' :: ['>', '\n']
  | .identifier | .integer => l.content.toList ++ ['>', '\n']
  | _ => []

/-- The line of a label is an opening and a closing part. -/
theorem line_eq (l : Label) : l.render.toList ++ ['\n'] = l.kind.opening ++ l.closing := by
  obtain ⟨kind, text, line⟩ := l
  cases kind with
  | string | identifier | integer =>
    simp only [render, Kind.opening, closing, String.toList_append, List.append_assoc]
    rfl
  | _ => exact (List.append_nil _).symm

/-- A run of a class of characters and what follows the two characters behind it. -/
def readRun (class? : Char → Bool) (cs : List Char) : Option String × List Char :=
  (some (String.ofList (cs.takeWhile class?)), (cs.dropWhile class?).drop 2)

/-- A run is read up to the first character of another class. -/
theorem readRun_append {class? : Char → Bool} {run : List Char}
    (hrun : ∀ c ∈ run, class? c = true) {c : Char} (hc : class? c = false) (d : Char)
    (rest : List Char) : readRun class? (run ++ c :: d :: rest) = (some (String.ofList run), rest) := by
  obtain ⟨htake, hdrop⟩ := takeWhile_of_endsRun hrun (endsRun_cons hc (d :: rest))
  rw [readRun, htake, hdrop]
  rfl

/-- The text of a literal of the construct and what follows its line, read from behind the opening of
    the line. -/
def readClosing (k : Kind) (cs : List Char) : Option String × List Char :=
  match k with
  | .string =>
    match closeString 1 cs with
    | some s => (some (String.ofList s.text), s.rest.drop 2)
    | none => (none, cs)
  | .identifier => readRun isWordRest cs
  | .integer => readRun Char.isDigit cs
  | _ => (none, cs)

variable {l l' : Label} {rest rest' : List Char}

/-- The closing part of a line is read back, whatever follows it. -/
theorem readClosing_closing (hl : l.IsLegible) (rest : List Char) :
    readClosing l.kind (l.closing ++ rest) = (l.text, rest) := by
  obtain ⟨kind, text, line⟩ := l
  rcases hl with ⟨hkind, htext⟩ | ⟨lexeme, hspells, h⟩
  · -- a construct without text has nothing to read
    obtain rfl : text = none := htext
    cases kind <;> first | rfl | cases hkind
  · cases lexeme with
    | symbol s => cases s <;> cases hspells <;> rfl
    | identifier name =>
      cases hspells
      have hread := readRun_append h.1.isWordRest (c := '>') (by decide) '\n' rest
      simpa [readClosing, closing, content] using hread
    | integer digits =>
      cases hspells
      have hread := readRun_append h.2 (c := '>') (by decide) '\n' rest
      simpa [readClosing, closing, content] using hread
    | string text =>
      cases hspells
      -- a string ends at the first quote without a backslash in front, which is that of the line
      have hclose : closeString 1 (text.toList ++ '\x27' :: '>' :: '\n' :: rest) =
          some ⟨text.toList, '>' :: '\n' :: rest, 1 + text.toList.count '\n'⟩ :=
        closeString_eq_some_iff.2 ⟨rfl, h, rfl⟩
      simp [readClosing, closing, content, hclose]

/-- A label is known from a text that begins with its line. -/
theorem unplaced_eq_of_line (hl : l.IsLegible) (hl' : l'.IsLegible)
    (h : l.render.toList ++ '\n' :: rest = l'.render.toList ++ '\n' :: rest') :
    l.unplaced = l'.unplaced ∧ rest = rest' := by
  have hline : l.kind.opening ++ (l.closing ++ rest) = l'.kind.opening ++ (l'.closing ++ rest') := by
    rw [← List.append_assoc, ← line_eq, ← List.append_assoc, ← line_eq, List.append_assoc,
      List.append_assoc]
    exact h
  have hkind : l.kind = l'.kind := by
    rcases List.prefix_or_prefix_of_prefix (List.prefix_append l.kind.opening _)
      (hline ▸ List.prefix_append l'.kind.opening _) with hprefix | hprefix
    · exact Kind.eq_of_opening_prefix hprefix
    · exact (Kind.eq_of_opening_prefix hprefix).symm
  rw [hkind] at hline
  have hread := readClosing_closing hl rest
  rw [hkind, List.append_cancel_left hline, readClosing_closing hl'] at hread
  obtain ⟨htext, hrest⟩ := Prod.mk.inj hread
  refine ⟨?_, hrest.symm⟩
  rw [unplaced, unplaced, hkind, htext]

end Label

/-! ### Lines -/

/-- The line of a label at some depth. -/
def lineAt (e : Nat × Label) : List Char :=
  List.replicate e.1 '.' ++ (e.2.render.toList ++ ['\n'])

namespace Tree

mutual

/-- The outline of a tree has one line for each entry. -/
theorem toList_outlineAt : ∀ (depth : Nat) (t : Tree Label),
    (t.outlineAt depth).toList = (entries depth t).flatMap lineAt
  | depth, node l ts => by
    simp only [outlineAt, entries, String.toList_append, String.toList_ofList,
      toList_outlineAllAt (depth + 1) ts, List.flatMap_cons, lineAt, List.append_assoc]
    rfl

/-- The outline of trees has one line for each entry. -/
theorem toList_outlineAllAt : ∀ (depth : Nat) (ts : List (Tree Label)),
    (outlineAllAt depth ts).toList = (Tree.entriesAll depth ts).flatMap lineAt
  | _, [] => rfl
  | depth, t :: ts => by
    rw [outlineAllAt, Tree.entriesAll, String.toList_append, toList_outlineAt depth t,
      toList_outlineAllAt depth ts, List.flatMap_append]

end

end Tree

/-- The dots of a line end where its label begins. -/
theorem endsRun_line (l : Label) (rest : List Char) :
    EndsRun (· = '.') (l.render.toList ++ '\n' :: rest) := by
  obtain ⟨c, cs, hopening, hc⟩ := l.kind.exists_opening_eq
  have hline : l.render.toList ++ '\n' :: rest = c :: (cs ++ (l.closing ++ rest)) := by
    rw [← List.cons_append, ← hopening, ← List.append_assoc, ← l.line_eq, List.append_assoc]
    rfl
  rw [hline]
  exact endsRun_cons (decide_eq_false hc) _

/-- The depth and the label of a line are known from a text that begins with it. -/
theorem lineAt_inj {e e' : Nat × Label} {rest rest' : List Char} (he : e.2.IsLegible)
    (he' : e'.2.IsLegible) (h : lineAt e ++ rest = lineAt e' ++ rest') :
    Prod.map id Label.unplaced e = Prod.map id Label.unplaced e' ∧ rest = rest' := by
  obtain ⟨depth, l⟩ := e
  obtain ⟨depth', l'⟩ := e'
  have hdots (n : Nat) : ∀ c ∈ List.replicate n '.', decide (c = '.') = true :=
    fun c hc => decide_eq_true (List.eq_of_mem_replicate hc)
  obtain ⟨htake, hdrop⟩ := takeWhile_of_endsRun (hdots depth) (endsRun_line l rest)
  obtain ⟨htake', hdrop'⟩ := takeWhile_of_endsRun (hdots depth') (endsRun_line l' rest')
  simp only [lineAt, List.append_assoc, List.singleton_append] at h
  rw [h] at htake hdrop
  obtain ⟨hlabel, hrest⟩ := Label.unplaced_eq_of_line he he' (hdrop.symm.trans hdrop')
  have hdepth := congrArg List.length (htake.symm.trans htake')
  rw [List.length_replicate, List.length_replicate] at hdepth
  exact ⟨Prod.ext hdepth hlabel, hrest⟩

/-- The line of an entry is not empty. -/
theorem lineAt_ne_nil (e : Nat × Label) : lineAt e ≠ [] := by
  simp [lineAt]

/-- Lines are read back one after the other. -/
theorem flatMap_lineAt_inj {es es' : List (Nat × Label)} (hes : ∀ e ∈ es, e.2.IsLegible)
    (hes' : ∀ e ∈ es', e.2.IsLegible) (h : es.flatMap lineAt = es'.flatMap lineAt) :
    es.map (Prod.map id Label.unplaced) = es'.map (Prod.map id Label.unplaced) := by
  induction es generalizing es' with
  | nil =>
    cases es' with
    | nil => rfl
    | cons e' es' => exact absurd (List.append_eq_nil_iff.1 h.symm).1 (lineAt_ne_nil e')
  | cons e es ih =>
    cases es' with
    | nil => exact absurd (List.append_eq_nil_iff.1 h).1 (lineAt_ne_nil e)
    | cons e' es' =>
      obtain ⟨he, hes⟩ := List.forall_mem_cons.1 hes
      obtain ⟨he', hes'⟩ := List.forall_mem_cons.1 hes'
      obtain ⟨hentry, hrest⟩ := lineAt_inj he he' h
      rw [List.map_cons, List.map_cons, hentry, ih hes hes' hrest]

namespace Tree

/-- The label of a legible tree is legible. -/
theorem IsLegible.label {l : Label} {ts : List (Tree Label)} (h : IsLegible (.node l ts)) :
    l.IsLegible := by
  cases h with
  | literal hspells hlexeme => exact .inr ⟨_, hspells, hlexeme⟩
  | node hkind htext _ => exact .inl ⟨hkind, htext⟩

mutual

/-- The labels of a legible tree are legible. -/
theorem IsLegible.forall_mem_entries : ∀ {t : Tree Label}, t.IsLegible → ∀ depth,
    ∀ e ∈ entries depth t, e.2.IsLegible
  | .node _ _, h, depth => by
    rw [entries]
    exact List.forall_mem_cons.2 ⟨h.label, forall_mem_entriesAll h.children (depth + 1)⟩

/-- The labels in the entries of legible trees are legible. -/
theorem forall_mem_entriesAll : ∀ {ts : List (Tree Label)}, (∀ t ∈ ts, t.IsLegible) → ∀ depth,
    ∀ e ∈ Tree.entriesAll depth ts, e.2.IsLegible
  | [], _, _ => nofun
  | _ :: _, h, depth => by
    obtain ⟨ht, hts⟩ := List.forall_mem_cons.1 h
    exact List.forall_mem_append.2 ⟨ht.forall_mem_entries depth, forall_mem_entriesAll hts depth⟩

end

/-- Legible trees that are printed alike are the same up to lines. -/
theorem IsLegible.unplaced_eq_of_outline_eq {t t' : Tree Label} (h : t.IsLegible)
    (h' : t'.IsLegible) (heq : t.outline = t'.outline) : t.unplaced = t'.unplaced := by
  have hlines := congrArg String.toList heq
  rw [outline, outline, toList_outlineAt, toList_outlineAt] at hlines
  have hentries := flatMap_lineAt_inj (h.forall_mem_entries 0) (h'.forall_mem_entries 0) hlines
  rw [← entries_map, ← entries_map] at hentries
  exact entries_inj hentries

end Tree

/-! ### Arenas -/

namespace Arena

/-- The arena holds the tree of scanned tokens, as it was parsed or in canonical form. -/
inductive IsOfTokens : Arena → Prop where
  | parsed {tokens t} : (∀ k ∈ tokens, k.IsScanned) → Tree.ofTokens tokens = .ok t →
      IsOfTokens (ofTree t)
  | standardized {tokens t a} : (∀ k ∈ tokens, k.IsScanned) → Tree.ofTokens tokens = .ok t →
      (ofTree t).standardForm = .ok a → IsOfTokens a

variable {a a' : Arena}

/-- An arena for scanned tokens unfolds to a legible tree. -/
theorem IsOfTokens.exists_unfolds (h : a.IsOfTokens) : ∃ root t, a.root = some root ∧
    a.Unfolds Set.univ t root ∧ a.rootTree? = some t ∧ t.IsLegible := by
  cases h with
  | parsed htokens ht =>
    obtain ⟨root, F, hroot, hunfolds⟩ := unfolds_ofTree _
    exact ⟨root, _, hroot, hunfolds.univ, hunfolds.rootTree?_eq hroot,
      Tree.isLegible_of_ofTokens htokens ht⟩
  | standardized htokens ht ha =>
    obtain ⟨a', root, F, ha', -, hroot, -, hunfolds⟩ :=
      unfolds_standardForm (.inl ⟨_, Tree.isSource_of_ofTokens ht⟩)
    obtain rfl := Except.ok.inj (ha.symm.trans ha')
    exact ⟨root, _, hroot, hunfolds.univ, hunfolds.rootTree?_eq hroot,
      (Tree.isLegible_of_ofTokens htokens ht).standard⟩

/-- Trees of scanned tokens, parsed or in canonical form, are printed alike exactly if they unfold to
    the same tree up to lines. -/
theorem outline_eq_iff (h : a.IsOfTokens) (h' : a'.IsOfTokens) : ∃ root t root' t',
    a.root = some root ∧ a.Unfolds Set.univ t root ∧
    a'.root = some root' ∧ a'.Unfolds Set.univ t' root' ∧
    (a.outline = a'.outline ↔ t.unplaced = t'.unplaced) := by
  obtain ⟨root, t, hroot, hunfolds, htree, ht⟩ := h.exists_unfolds
  obtain ⟨root', t', hroot', hunfolds', htree', ht'⟩ := h'.exists_unfolds
  refine ⟨root, t, root', t', hroot, hunfolds, hroot', hunfolds', ?_⟩
  rw [outline, outline, htree, htree']
  refine ⟨ht.unplaced_eq_of_outline_eq ht', fun heq => ?_⟩
  have houtline := congrArg Tree.outline heq
  rwa [Tree.outline_unplaced, Tree.outline_unplaced] at houtline

/-- The tree of a text, as it was parsed and in canonical form, with a string that looks like two lines
    and has a quote in it. -/
theorem outline_eq_iff_string : ∃ tokens t a,
    Token.scan 0 "let x = 'a\\'>\n..<ID:x>\\'' in x".toList = .ok tokens ∧
    Tree.ofTokens tokens = .ok t ∧ (ofTree t).standardForm = .ok a ∧ ∃ root u root' u',
      (ofTree t).root = some root ∧ (ofTree t).Unfolds Set.univ u root ∧
      a.root = some root' ∧ a.Unfolds Set.univ u' root' ∧
      ((ofTree t).outline = a.outline ↔ u.unplaced = u'.unplaced) := by
  generalize htext : String.toList _ = text
  have hok : ((Token.scan 0 text).toOption.any fun tokens => (Tree.ofTokens tokens).toOption.any
      fun t => (ofTree t).standardForm.isOk) = true := by
    subst htext
    decide +kernel
  cases hscan : Token.scan 0 text with
  | error e =>
    rw [hscan] at hok
    cases hok
  | ok tokens =>
    rw [hscan] at hok
    cases ht : Tree.ofTokens tokens with
    | error e =>
      rw [Except.toOption, Option.any_some, ht] at hok
      cases hok
    | ok t =>
      have hscanned : ∀ k ∈ tokens, k.IsScanned := fun k hk => ⟨0, text, tokens, hscan, hk⟩
      obtain ⟨a, -, -, ha, -⟩ := unfolds_standardForm (.inl ⟨_, Tree.isSource_of_ofTokens ht⟩)
      exact ⟨tokens, t, a, rfl, ht, ha,
        outline_eq_iff (.parsed hscanned ht) (.standardized hscanned ht ha)⟩

end Arena

end Rpal
