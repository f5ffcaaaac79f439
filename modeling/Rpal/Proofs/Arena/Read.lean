import Rpal.Arena.Read
import Rpal.Proofs.Arena.Fills
import Rpal.Proofs.Arena.Standardize
import Rpal.Proofs.Grammar.Reading

/-!
# Parsing into an arena is parsing

The readers do what the parsers do: they take the same tokens, stop where these stop, and have put
into the arena what adding the finished trees would put there. Where a parser keeps trees for the
case that it stops, the reader has them in its arena already.

## Key results

- `Refines`: a reader does what a parser does, from an arena that holds the trees of the parser
- `Reader.reads_goal`: readers for productions do what the parsers do, if those for their parts do
- `Arena.read_eq`: reading tokens is to add their tree, or the trees that were complete
-/

namespace Rpal

variable {α β γ δ : Type}

namespace Arena

/-- The arena `a` comes from `a₀` by adding the trees, whose roots are at `ids`. -/
def Holds (ts : List (Tree Label)) (ids : List Nat) (a₀ a : Arena) : Prop :=
  a₀.graftAll ts = (ids, a)

variable {a₀ a₁ a : Arena} {t : Tree Label} {ts us : List (Tree Label)} {id : Nat} {ids js : List Nat}

/-- No trees have been added at first. -/
theorem Holds.nil (a : Arena) : Holds [] [] a a := rfl

/-- If no trees have been added, there are no places, and the arena is as it was. -/
theorem holds_nil : Holds [] ids a₀ a ↔ ids = [] ∧ a = a₀ := by
  simp only [Holds, graftAll, Prod.mk.injEq]
  exact and_congr eq_comm eq_comm

/-- The first of the trees was added before the others. -/
theorem holds_cons : Holds (t :: ts) ids a₀ a ↔
    ∃ id js a₁, ids = id :: js ∧ Holds [t] [id] a₀ a₁ ∧ Holds ts js a₁ a := by
  simp only [Holds, graftAll]
  constructor
  · intro h
    obtain ⟨rfl, rfl⟩ := Prod.mk.inj h
    exact ⟨_, _, _, rfl, rfl, rfl⟩
  · rintro ⟨id, js, a₁, rfl, ht, hts⟩
    obtain ⟨hid, rfl⟩ := Prod.mk.inj ht
    obtain rfl := List.singleton_inj.1 hid
    rw [hts]

/-- There is one root for each tree. -/
theorem Holds.length_eq (h : Holds ts ids a₀ a) : ids.length = ts.length := by
  induction ts generalizing ids a₀ with
  | nil =>
    rw [(holds_nil.1 h).1]
    rfl
  | cons t ts ih =>
    obtain ⟨id, js, a₁, rfl, -, hts⟩ := holds_cons.1 h
    rw [List.length_cons, List.length_cons, ih hts]

/-- Trees that were added one after the other were all added. -/
theorem Holds.append (h : Holds ts ids a₀ a₁) (h' : Holds us js a₁ a) :
    Holds (ts ++ us) (ids ++ js) a₀ a := by
  induction ts generalizing ids a₀ with
  | nil =>
    obtain ⟨rfl, rfl⟩ := holds_nil.1 h
    exact h'
  | cons t ts ih =>
    obtain ⟨id, is, a₂, rfl, ht, hts⟩ := holds_cons.1 h
    exact holds_cons.2 ⟨id, _, a₂, rfl, ht, ih hts⟩

/-- A leaf is added by its node. -/
theorem holds_leaf (l : Label) (a : Arena) : Holds [.leaf l] [a.nextId] a (a.alloc l) := by
  -- a new node has no children before it gets none
  have hself : (a.alloc l).setChild a.nextId none = a.alloc l := by
    simp only [setChild, modify, alloc, nextId]
    congr 1
    refine Array.ext (by simp) fun i hi hi' => ?_
    rw [Array.getElem_modify]
    split
    · next h =>
      subst h
      rw [Array.getElem_push_eq]
    · rfl
  simp only [Holds, Tree.leaf, graftAll, graft, setChildren, List.head?_nil, chain, hself]

/-- A new node over trees that were added makes a tree of them. -/
theorem Holds.branch (h : Holds ts ids a₀ a) (kind : Kind) :
    Holds [.branch kind ts] [a.nextId] a₀ (a.allocOver kind ids) := by
  obtain ⟨-, places, hspans, -⟩ := graftAll_spans a₀ ts
  rw [h] at hspans
  have hline : (ids.head?.map a.line).getD 0 = (ts.head?.map (·.label.line)).getD 0 := by
    match ts, ids, hspans with
    | [], [], _ => rfl
    | t :: _, id :: _, ⟨_, _, _, ht, _⟩ => exact congrArg Label.line ht.unfolds.label_eq
  have h : a₀.graftAll ts = (ids, a) := h
  simp only [Holds, Tree.branch, graftAll, graft, h, allocOver, hline]

end Arena

namespace Reader

open Arena (Holds)
open Rpal.Parser (Goal)

/-! ### Readers and parsers -/

/-- The outcomes of a parser and of a reader that started when the arena was `a₀`. If the parser
    stops, the arena is the one to which the trees that it has completed were added. -/
inductive Outcomes (R : α → β → Arena → Arena → Prop) (a₀ : Arena) :
    Except SyntaxError (α × Cursor) → Except SyntaxError (β × Cursor) × Arena → Prop where
  | ok {x y c a} : R x y a₀ a → Outcomes R a₀ (.ok (x, c)) (.ok (y, c), a)
  | error (e) : Outcomes R a₀ (.error e)
      (.error { e with pending := [] }, (a₀.graftAll e.pending).2)

/-- From arenas that are related by `C`, the reader does what the parser does, and leaves arenas that
    are related by `R`. -/
def Refines (C : Arena → Arena → Prop) (p : Parser α) (q : Reader β)
    (R : α → β → Arena → Arena → Prop) : Prop :=
  ∀ c a₀ a, C a₀ a → Outcomes R a₀ (p c) (q c a)

/-- The reader adds the tree that the parser returns. -/
abbrev Reads (p : Parser (Tree Label)) (q : Reader Nat) : Prop :=
  Refines (Holds [] []) p q fun t id => Holds [t] [id]

/-- A sequence of readers goes on with the arena that the first one leaves, also when it stops. -/
theorem bind_apply (q : Reader α) (g : α → Reader β) (c : Cursor) (a : Arena) :
    (q >>= g) c a =
      match q c a with
      | (.ok (y, c'), a') => g y c' a'
      | (.error e, a') => (.error e, a') := by
  simp only [bind, StateT.bind, ExceptT.bind, ExceptT.mk, ExceptT.bindCont]
  rcases q c a with ⟨_ | ⟨y, c'⟩, a'⟩ <;> rfl

section

variable {C : Arena → Arena → Prop} {p : Parser α} {q : Reader β} {f : α → Parser γ}
  {g : β → Reader δ} {R : α → β → Arena → Arena → Prop} {R' : γ → δ → Arena → Arena → Prop}

/-- A result that is there already is related to one without another node. -/
theorem Refines.pure {x : α} {y : β} (h : ∀ a₀ a, C a₀ a → R x y a₀ a) :
    Refines C (Pure.pure x) (Pure.pure y) R :=
  fun _ _ _ hC => .ok (h _ _ hC)

/-- What refines the parts of a sequence refines the sequence. -/
theorem Refines.bind (h : Refines C p q R) (h' : ∀ x y, Refines (R x y) (f x) (g y) R') :
    Refines C (p >>= f) (q >>= g) R' := by
  intro c a₀ a hC
  have h := h c a₀ a hC
  rw [bind_apply]
  generalize hp : p c = r at h
  generalize q c a = r' at h
  cases h with
  | ok hR =>
    rw [Parser.bind_of_eq_ok hp]
    exact h' _ _ _ _ _ hR
  | error e =>
    rw [Parser.bind_of_eq_error hp]
    exact .error e

/-- A parser that never stops may come first. -/
theorem Refines.ofParser_bind {g : α → Reader δ} (hp : ∀ c, ∃ r, p c = .ok r)
    (h : ∀ x, Refines C (f x) (g x) R') : Refines C (p >>= f) (ofParser p >>= g) R' := by
  intro c a₀ a hC
  obtain ⟨⟨x, c'⟩, hr⟩ := hp c
  rw [bind_apply, Parser.bind_of_eq_ok hr, ofParser, hr]
  exact h x c' a₀ a hC

/-! ### Tokens -/

/-- A token is accepted or not; the parser goes on in either case. -/
theorem accept?_eq_ok (tt : TokenType) (c : Cursor) : ∃ r, Parser.accept? tt c = .ok r := by
  unfold Parser.accept?
  split <;> exact ⟨_, rfl⟩

/-- A sequence that starts with accepting a token is refined case by case. -/
theorem Refines.accept?_bind (tt : TokenType) {f : Option Token → Parser γ}
    {g : Option Token → Reader δ} (hsome : ∀ k, Refines C (f (some k)) (g (some k)) R')
    (hnone : Refines C (f none) (g none) R') :
    Refines C (Parser.accept? tt >>= f) (accept? tt >>= g) R' := by
  refine ofParser_bind (accept?_eq_ok tt) fun o => ?_
  cases o with
  | none => exact hnone
  | some k => exact hsome k

/-- A sequence that starts with a look at the next token is refined case by case. -/
theorem Refines.startsWith_bind (set : TokenSet) {f : Bool → Parser γ} {g : Bool → Reader δ}
    (h : ∀ b, Refines C (f b) (g b) R') :
    Refines C (Parser.startsWith set >>= f) (startsWith set >>= g) R' := by
  refine ofParser_bind (fun c => ?_) h
  unfold Parser.startsWith
  split <;> exact ⟨_, rfl⟩

/-- An operator is found in the table or not; the parser goes on in either case. -/
theorem oneOf?_eq_ok (table : List (Symbol × α)) (c : Cursor) :
    ∃ r, Parser.oneOf? table c = .ok r := by
  induction table generalizing c with
  | nil => exact ⟨_, rfl⟩
  | cons entry more ih =>
    obtain ⟨⟨o, c'⟩, hr⟩ := accept?_eq_ok (.symbol entry.1) c
    rw [Parser.oneOf?, Parser.bind_of_eq_ok hr]
    cases o with
    | none => exact ih c'
    | some _ => exact ⟨_, rfl⟩

/-- A sequence that starts with an operator is refined case by case. -/
theorem Refines.oneOf?_bind (table : List (Symbol × Kind)) {f : Option Kind → Parser γ}
    {g : Option Kind → Reader δ} (hsome : ∀ kind, Refines C (f (some kind)) (g (some kind)) R')
    (hnone : Refines C (f none) (g none) R') :
    Refines C (Parser.oneOf? table >>= f) (oneOf? table >>= g) R' := by
  refine ofParser_bind (oneOf?_eq_ok table) fun o => ?_
  cases o with
  | none => exact hnone
  | some kind => exact hsome kind

end

section

variable {ts : List (Tree Label)} {ids : List Nat} {p : Parser (Tree Label)} {q : Reader Nat}
  {p' : Parser γ} {R : γ → δ → Arena → Arena → Prop}

/-- A parser that stops at once adds no nodes. -/
theorem Refines.unexpected :
    Refines (Holds [] []) Parser.unexpected (ofParser Parser.unexpected) R := by
  intro c a₀ a h
  obtain ⟨-, rfl⟩ := Arena.holds_nil.1 h
  exact .error { actual := c.current, expected := c.expected, pending := [] }

/-- A parser keeps nothing if there is nothing pending. -/
theorem keeping_nil (p : Parser γ) : Parser.keeping [] p = p := by
  funext c
  simp only [Parser.keeping, List.nil_append]
  cases p c <;> rfl

/-- Pending trees do not matter to a parser that succeeds. -/
theorem keeping_of_eq_ok {p : Parser γ} {c c' : Cursor} {x : γ} (h : p c = .ok (x, c')) :
    Parser.keeping ts p c = .ok (x, c') := by
  simp only [Parser.keeping, h]

/-- Pending trees stand before those of a parser that stops. -/
theorem keeping_of_eq_error {p : Parser γ} {c : Cursor} {e : SyntaxError} (h : p c = .error e) :
    Parser.keeping ts p c = .error { e with pending := ts ++ e.pending } := by
  simp only [Parser.keeping, h]

/-- A sequence that starts with a required token is refined if it goes on with every token. If the
    token is missing, the trees that were added stay. -/
theorem Refines.require_bind (tt : TokenType) {f : Token → Parser γ} {g : Token → Reader δ}
    (h : ∀ k, Refines (Holds ts ids) (f k) (g k) R) :
    Refines (Holds ts ids) (Parser.keeping ts (Parser.require tt) >>= f) (require tt >>= g) R := by
  intro c a₀ a hC
  have hgraft : a₀.graftAll ts = (ids, a) := hC
  rw [bind_apply, require, ofParser]
  by_cases htype : c.current.type = tt
  · have hrequire : Parser.require tt c = .ok (c.current, c.advance) := by
      rw [Parser.require, Parser.bind_of_eq_ok (if_pos htype)]
      rfl
    rw [Parser.bind_of_eq_ok (keeping_of_eq_ok hrequire), hrequire]
    exact h _ _ _ _ hC
  · have hrequire : Parser.require tt c =
        .error { actual := c.current, expected := c.expected.insert tt, pending := [] } := by
      rw [Parser.require, Parser.bind_of_eq_ok (if_neg htype)]
      rfl
    rw [Parser.bind_of_eq_error (keeping_of_eq_error hrequire), hrequire, List.append_nil]
    have harena : a = (a₀.graftAll ts).2 := (congrArg Prod.snd hgraft).symm
    rw [harena]
    exact .error _

/-- The tree that is read comes behind those that are there. -/
theorem Refines.keeping_bind (hpq : Reads p q) {f : Tree Label → Parser γ} {g : Nat → Reader δ}
    (h : ∀ t id, Refines (Holds (ts ++ [t]) (ids ++ [id])) (f t) (g id) R) :
    Refines (Holds ts ids) (Parser.keeping ts p >>= f) (q >>= g) R := by
  intro c a₀ a hC
  have hread := hpq c a a (.nil a)
  rw [bind_apply]
  generalize hp : p c = r at hread
  generalize q c a = r' at hread
  cases hread with
  | ok ht =>
    rw [Parser.bind_of_eq_ok (keeping_of_eq_ok hp)]
    exact h _ _ _ _ _ (hC.append ht)
  | error e =>
    rw [Parser.bind_of_eq_error (keeping_of_eq_error hp)]
    have hpending : (a₀.graftAll (ts ++ e.pending)).2 = (a.graftAll e.pending).2 := by
      rw [show a₀.graftAll (ts ++ e.pending) = _ from hC.append rfl]
    rw [← hpending]
    exact .error { e with pending := ts ++ e.pending }

/-- A sequence that starts with a production is refined if it goes on with every tree. -/
theorem Refines.reads_bind (hpq : Reads p q) {f : Tree Label → Parser γ} {g : Nat → Reader δ}
    (h : ∀ t id, Refines (Holds [t] [id]) (f t) (g id) R) :
    Refines (Holds [] []) (p >>= f) (q >>= g) R := by
  rw [← keeping_nil p]
  exact keeping_bind hpq h

/-- A node over the trees that are there makes one tree of them. -/
theorem Refines.branch_bind (kind : Kind) {g : Nat → Reader δ}
    (h : ∀ id, Refines (Holds [.branch kind ts] [id]) p' (g id) R) :
    Refines (Holds ts ids) p' (branch kind ids >>= g) R := by
  intro c a₀ a hC
  rw [bind_apply]
  exact h _ _ _ _ (hC.branch kind)

/-- A branch is added over the nodes of its children. -/
theorem Refines.branch (kind : Kind) : Refines (Holds ts ids) (Pure.pure (.branch kind ts))
    (branch kind ids) fun t id => Holds [t] [id] :=
  fun _ _ _ hC => .ok (hC.branch kind)

/-- A leaf is added. -/
theorem Refines.leaf (l : Label) :
    Refines (Holds [] []) (Pure.pure (.leaf l)) (leaf l) fun t id => Holds [t] [id] := by
  intro c a₀ a h
  obtain ⟨-, rfl⟩ := Arena.holds_nil.1 h
  exact .ok (Arena.holds_leaf l a)

end

/-! ### Loops -/

section

/-- What relates the arenas after a round of a loop: the loop goes on with new values, or ends with
    the old ones. -/
inductive Round (I : α → β → Arena → Arena → Prop) (x : α) (y : β) :
    Option α → Option β → Arena → Arena → Prop where
  | done {a₀ a} : I x y a₀ a → Round I x y none none a₀ a
  | next {x' y' a₀ a} : I x' y' a₀ a → Round I x y (some x') (some y') a₀ a

variable {I : α → β → Arena → Arena → Prop} {step : α → Parser (Option α)}
  {step' : β → Reader (Option β)}

/-- What every round keeps is kept by the loop. -/
theorem Refines.iterateAlong (h : ∀ x y, Refines (I x y) (step x) (step' y) (Round I x y))
    (bound : List Token) (x : α) (y : β) :
    Refines (I x y) (Parser.iterateAlong step bound x) (iterateAlong step' bound y) I := by
  induction bound generalizing x y with
  | nil => exact .pure fun _ _ hI => hI
  | cons _ bound ih =>
    refine (h x y).bind fun o o' c a₀ a hround => ?_
    cases hround with
    | done hI => exact .ok hI
    | next hI => exact ih _ _ c a₀ a hI

/-- A loop is refined if each of its rounds is. -/
theorem Refines.iterate (h : ∀ x y, Refines (I x y) (step x) (step' y) (Round I x y)) (x : α)
    (y : β) : Refines (I x y) (Parser.iterate step x) (iterate step' y) I :=
  fun c => iterateAlong h (c.current :: c.rest) x y c

end

section

variable {p : Parser (Tree Label)} {q : Reader Nat} {first : Tree Label} {id : Nat}

/-- The items behind the first, the last of them first, as a loop collects them. -/
theorem Refines.collect {step : List (Tree Label) → Parser (Option (List (Tree Label)))}
    {step' : List Nat → Reader (Option (List Nat))}
    (h : ∀ ts ids, Refines (Holds (first :: ts.reverse) (id :: ids.reverse)) (step ts) (step' ids)
      (Round (fun ts ids => Holds (first :: ts.reverse) (id :: ids.reverse)) ts ids)) :
    Refines (Holds [first] [id]) (Parser.iterate step [] >>= fun ts => Pure.pure ts.reverse)
      (Reader.iterate step' [] >>= fun ids => Pure.pure ids.reverse)
      fun ts ids => Holds (first :: ts) (id :: ids) :=
  (iterate h [] []).bind fun _ _ => .pure fun _ _ hI => hI

/-- One more item is read. -/
theorem Refines.item (h : Reads p q) (ts : List (Tree Label)) (ids : List Nat) :
    Refines (Holds (first :: ts.reverse) (id :: ids.reverse))
      (Parser.keepingFrom first ts p >>= fun t => Pure.pure (some (t :: ts)))
      (q >>= fun i => Pure.pure (some (i :: ids)))
      (Round (fun ts ids => Holds (first :: ts.reverse) (id :: ids.reverse)) ts ids) := by
  refine keeping_bind h fun t i => .pure fun a₀ a hC => .next ?_
  rwa [List.reverse_cons, List.reverse_cons]

/-- Items with separators between them are refined by items with separators between them. -/
theorem Refines.separated (separator : Symbol) (h : Reads p q) :
    Refines (Holds [first] [id]) (Parser.separated separator p first) (separated separator q)
      fun ts ids => Holds (first :: ts) (id :: ids) :=
  collect fun ts ids => accept?_bind _ (fun _ => item h ts ids) (.pure fun _ _ hC => .done hC)

/-- Items that follow each other are refined by items that follow each other. -/
theorem Refines.many (start : TokenSet) (h : Reads p q) :
    Refines (Holds [first] [id]) (Parser.many start p first) (many start q)
      fun ts ids => Holds (first :: ts) (id :: ids) := by
  refine collect fun ts ids => startsWith_bind _ fun found => ?_
  cases found with
  | false => exact .pure fun _ _ hC => .done hC
  | true => exact item h ts ids

/-- A chain that groups from the left adds a node for each operator. -/
theorem Refines.leftNested (operators : List (Symbol × Kind)) (h : Reads p q) :
    Refines (Holds [first] [id]) (Parser.leftNested operators p first) (leftNested operators q id)
      fun t id => Holds [t] [id] :=
  iterate (I := fun t id => Holds [t] [id]) (fun _ _ => oneOf?_bind _
    (fun kind => keeping_bind h fun _ _ => branch_bind kind fun _ => .pure fun _ _ hC => .next hC)
    (.pure fun _ _ hC => .done hC)) first id

/-- A chain that groups from the right adds its nodes from the last operator on. -/
theorem Refines.rightNested (kind : Kind) (ts : List (Tree Label)) (ids : List Nat) :
    Refines (Holds (first :: ts) (id :: ids)) (Pure.pure (Parser.rightNested kind first ts))
      (rightNested kind id ids) fun t id => Holds [t] [id] := by
  induction ts generalizing first id ids with
  | nil =>
    intro c a₀ a hC
    obtain rfl : ids = [] := List.length_eq_zero_iff.1 (Nat.succ.inj hC.length_eq)
    exact .ok hC
  | cons t ts ih =>
    intro c a₀ a hC
    obtain ⟨_, _, a₁, heq, hfirst, hts⟩ := Arena.holds_cons.1 hC
    obtain ⟨rfl, rfl⟩ := List.cons.inj heq
    obtain ⟨i, is, hids⟩ := List.exists_cons_of_length_eq_add_one hts.length_eq
    subst hids
    -- the trees behind the first are grouped in the arena that holds it already
    have h : Outcomes _ a₁ (.ok (Parser.rightNested kind t ts, c)) _ := ih is c a₁ a hts
    rw [Reader.rightNested, bind_apply]
    generalize Reader.rightNested kind i is c a = r at h
    cases h with
    | ok hnested => exact .ok ((hfirst.append hnested).branch kind)

/-- Items are gathered below one node, unless there is only one. -/
theorem Refines.gathered (kind : Kind) (ts : List (Tree Label)) (ids : List Nat) :
    Refines (Holds (first :: ts) (id :: ids)) (Pure.pure (Parser.gathered kind first ts))
      (gathered kind id ids) fun t id => Holds [t] [id] := by
  intro c a₀ a hC
  have hlen : ids.length = ts.length := Nat.succ.inj hC.length_eq
  match ts, ids, hlen with
  | [], [], _ => exact .ok hC
  | t :: ts, i :: ids, _ => exact .ok (hC.branch kind)

end

/-! ### Names and parameters -/

/-- A name is added as a leaf. -/
theorem reads_name : Reads Parser.name name := by
  rw [Parser.name, ← keeping_nil (Parser.require _)]
  exact .require_bind .identifier fun k => .leaf _

/-- Names are gathered behind the first one. -/
theorem refines_nameList {first : Tree Label} {id : Nat} :
    Refines (Holds [first] [id]) (Parser.nameList first) (nameList id) fun t id => Holds [t] [id] :=
  (Refines.separated .comma reads_name).bind fun ts ids => .gathered .names ts ids

/-- A parameter is added as the parser reads it. -/
theorem reads_parameter : Reads Parser.parameter parameter := by
  refine .accept?_bind _ (fun k => .leaf _) ?_
  rw [← keeping_nil (Parser.require _)]
  refine .require_bind _ fun paren => .accept?_bind _ (fun _ => .leaf _) ?_
  refine .reads_bind reads_name fun first id => refines_nameList.bind fun names id => ?_
  exact .require_bind _ fun _ => .pure fun _ _ hC => hC

/-! ### Productions -/

section

variable {self : Goal → Parser (Tree Label)} {self' : Goal → Reader Nat}
  (hself : ∀ g, Reads (self g) (self' g))
include hself

/-- What is in parentheses is added as the parser reads it. -/
theorem reads_parenthesized : Reads (Parser.parenthesized self) (parenthesized self') := by
  refine .accept?_bind _ (fun _ => .reads_bind (hself .expression) fun t id => ?_) ?_
  · exact .require_bind _ fun _ => .pure fun _ _ hC => hC
  · exact .startsWith_bind _ fun _ => .unexpected

/-- An operand is added as the parser reads it. -/
theorem reads_operand : Reads (Parser.operand self) (operand self') := by
  intro c a₀ a hC
  have hget : (get : Reader Cursor) c a = (.ok (c, c), a) := rfl
  rw [operand, bind_apply, hget]
  cases hleaf : Parser.leaf? c.current.lexeme with
  | none =>
    rw [Parser.operand_of_none self hleaf]
    simp only [hleaf]
    exact reads_parenthesized hself c a₀ a hC
  | some l =>
    rw [Parser.operand_of_leaf self hleaf]
    simp only [hleaf]
    exact Refines.leaf _ c.advance a₀ a hC

/-- An application is added as the parser reads it. -/
theorem reads_application : Reads (Parser.application self) (application self') := by
  refine .reads_bind (reads_operand hself) fun f id => .iterate (I := fun t id => Holds [t] [id])
    (fun f id => .startsWith_bind _ fun found => ?_) f id
  cases found with
  | false => exact .pure fun _ _ hC => .done hC
  | true =>
    exact .keeping_bind (reads_operand hself) fun _ _ =>
      .branch_bind _ fun _ => .pure fun _ _ hC => .next hC

/-- An application by name is added as the parser reads it. -/
theorem reads_applicationByName :
    Reads (Parser.applicationByName self) (applicationByName self') := by
  have happlication := reads_application hself
  refine .reads_bind happlication fun left id => .iterate (I := fun t id => Holds [t] [id])
    (fun left id => .accept?_bind _ (fun _ => ?_) (.pure fun _ _ hC => .done hC)) left id
  exact .keeping_bind reads_name fun _ _ => .keeping_bind happlication fun _ _ =>
    .branch_bind _ fun _ => .pure fun _ _ hC => .next hC

/-- A power is added as the parser reads it. -/
theorem reads_power : Reads (Parser.power self) (power self') := by
  have hbase := reads_applicationByName hself
  exact .reads_bind hbase fun _ _ => (Refines.separated _ hbase).bind fun ts ids =>
    .rightNested _ ts ids

/-- A product is added as the parser reads it. -/
theorem reads_product : Reads (Parser.product self) (product self') :=
  .reads_bind (reads_power hself) fun _ _ => .leftNested _ (reads_power hself)

/-- A sum that starts with a sign is added as the parser reads it. -/
theorem reads_signedProduct : Reads (Parser.signedProduct self) (signedProduct self') := by
  have hproduct := reads_product hself
  exact .accept?_bind _ (fun _ => hproduct)
    (.accept?_bind _ (fun _ => .reads_bind hproduct fun _ _ => .branch _) hproduct)

/-- A sum is added as the parser reads it. -/
theorem reads_sum : Reads (Parser.sum self) (sum self') :=
  .reads_bind (reads_signedProduct hself) fun _ _ => .leftNested _ (reads_product hself)

/-- A comparison is added as the parser reads it. -/
theorem reads_comparison : Reads (Parser.comparison self) (comparison self') :=
  .reads_bind (reads_sum hself) fun _ _ => .oneOf?_bind _
    (fun kind => .keeping_bind (reads_sum hself) fun _ _ => .branch kind)
    (.pure fun _ _ hC => hC)

/-- A negation is added as the parser reads it. -/
theorem reads_negation : Reads (Parser.negation self) (negation self') := by
  have hcomparison := reads_comparison hself
  exact .accept?_bind _ (fun _ => .reads_bind hcomparison fun _ _ => .branch _) hcomparison

/-- A conjunction is added as the parser reads it. -/
theorem reads_conjunction : Reads (Parser.conjunction self) (conjunction self') :=
  .reads_bind (reads_negation hself) fun _ _ => .leftNested _ (reads_negation hself)

/-- A disjunction is added as the parser reads it. -/
theorem reads_disjunction : Reads (Parser.disjunction self) (disjunction self') :=
  .reads_bind (reads_conjunction hself) fun _ _ => .leftNested _ (reads_conjunction hself)

/-- A conditional is added as the parser reads it. -/
theorem reads_conditional : Reads (Parser.conditional self) (conditional self') := by
  refine .reads_bind (reads_disjunction hself) fun _ _ => .accept?_bind _ (fun _ => ?_)
    (.pure fun _ _ hC => hC)
  refine .keeping_bind (hself .branch) fun _ _ => .require_bind _ fun _ => ?_
  exact .keeping_bind (hself .branch) fun _ _ => .branch _

/-- An augmentation is added as the parser reads it. -/
theorem reads_augmentation : Reads (Parser.augmentation self) (augmentation self') :=
  .reads_bind (reads_conditional hself) fun _ _ => .leftNested _ (reads_conditional hself)

/-- A tuple is added as the parser reads it. -/
theorem reads_tuple : Reads (Parser.tuple self) (tuple self') := by
  have haug := reads_augmentation hself
  exact .reads_bind haug fun _ _ => (Refines.separated _ haug).bind fun ts ids => .gathered _ ts ids

/-- A basic definition is added as the parser reads it. -/
theorem reads_basicDefinition : Reads (Parser.basicDefinition self) (basicDefinition self') := by
  refine .accept?_bind _ (fun _ => .reads_bind (hself .definition) fun _ _ => ?_) ?_
  · exact .require_bind _ fun _ => .pure fun _ _ hC => hC
  · refine .reads_bind reads_name fun first id =>
      (Refines.many _ reads_parameter).bind fun ts ids c a₀ a hC => ?_
    have hlen : ids.length = ts.length := Nat.succ.inj hC.length_eq
    match ts, ids, hlen with
    | [], [], _ =>
      refine Refines.bind refines_nameList (fun names id => ?_) c a₀ a hC
      refine .require_bind _ fun _ => ?_
      exact .keeping_bind (hself .expression) fun _ _ => .branch _
    | t :: ts, i :: ids, _ =>
      refine Refines.require_bind _ (fun _ => ?_) c a₀ a hC
      exact .keeping_bind (hself .expression) fun _ _ => .branch _

/-- A recursive definition is added as the parser reads it. -/
theorem reads_recursiveDefinition :
    Reads (Parser.recursiveDefinition self) (recursiveDefinition self') := by
  have hbasic := reads_basicDefinition hself
  exact .accept?_bind _ (fun _ => .reads_bind hbasic fun _ _ => .branch _) hbasic

/-- Simultaneous definitions are added as the parser reads them. -/
theorem reads_simultaneousDefinition :
    Reads (Parser.simultaneousDefinition self) (simultaneousDefinition self') := by
  have hrec := reads_recursiveDefinition hself
  exact .reads_bind hrec fun _ _ => (Refines.separated _ hrec).bind fun ts ids => .gathered _ ts ids

/-- A definition is added as the parser reads it. -/
theorem reads_definition : Reads (Parser.definition self) (definition self') := by
  have hand := reads_simultaneousDefinition hself
  exact .reads_bind hand fun _ _ => (Refines.separated _ hand).bind fun ts ids =>
    .rightNested _ ts ids

/-- A `where` clause is added as the parser reads it. -/
theorem reads_whereClause : Reads (Parser.whereClause self) (whereClause self') :=
  .reads_bind (reads_tuple hself) fun _ _ => .accept?_bind _
    (fun _ => .keeping_bind (reads_recursiveDefinition hself) fun _ _ => .branch _)
    (.pure fun _ _ hC => hC)

/-- An expression is added as the parser reads it. -/
theorem reads_expression : Reads (Parser.expression self) (expression self') := by
  refine .accept?_bind _ (fun _ => ?_) (.accept?_bind _ (fun _ => ?_) (reads_whereClause hself))
  · refine .reads_bind (hself .definition) fun _ _ => .require_bind _ fun _ => ?_
    exact .keeping_bind (hself .expression) fun _ _ => .branch _
  · refine .reads_bind reads_parameter fun _ _ => (Refines.many _ reads_parameter).bind fun _ _ => ?_
    refine .require_bind _ fun _ => .keeping_bind (hself .expression) fun _ _ => .branch _

/-- Readers for goals make readers for the productions. -/
theorem reads_goal : ∀ g, Reads (Parser.goal self g) (goal self' g)
  | .expression => reads_expression hself
  | .branch => reads_conditional hself
  | .definition => reads_definition hself

end

/-! ### Programs -/

/-- At every depth, every goal is added as the parser reads it. -/
theorem reads_nested (depth : Nat) (g : Goal) : Reads (Parser.nested depth g) (nested depth g) := by
  induction depth generalizing g with
  | zero => exact .unexpected
  | succ depth ih => exact reads_goal ih g

/-- A program is added as the parser reads it. -/
theorem reads_program : Reads Parser.program program := by
  intro c
  have h := Refines.reads_bind (R := fun t id => Holds [t] [id])
    (reads_nested (c.rest.length + 1) .expression) fun _ _ =>
      .require_bind (.symbol .endOfInput) fun _ => .pure fun _ _ hC => hC
  exact h c

end Reader

/-- To read tokens is to add their tree, or, where the parse stops, the trees that were complete. -/
theorem Arena.read_eq (a : Arena) (tokens : List Token) : a.read tokens =
    match Tree.ofTokens tokens with
    | .ok t => (.ok (a.graft t).1, (a.graft t).2)
    | .error e => (.error { e with pending := [] }, (a.graftAll e.pending).2) := by
  have h := Reader.reads_program (Cursor.ofTokens tokens) a a (.nil a)
  rw [Arena.read, Tree.ofTokens]
  generalize Parser.program (Cursor.ofTokens tokens) = r at h
  generalize Reader.program (Cursor.ofTokens tokens) a = r' at h
  cases h with
  | ok h =>
    obtain ⟨hid, rfl⟩ := Prod.mk.inj h
    obtain rfl := List.singleton_inj.1 hid
    rfl
  | error e => rfl

/-- Reading tokens into an arena leaves what is there as it is, also when the parse stops. If it does
    not, the new nodes are those of one tree, which is the tree of the tokens. -/
theorem Arena.read_isNewTree (a : Arena) (tokens : List Token) :
    Extends a (a.read tokens).2 ∧ (a.read tokens).2.root = a.root ∧
    (a.read tokens).2.standardized = a.standardized ∧
    ∀ root, (a.read tokens).1 = .ok root → IsNewTree a (a.read tokens).2 root ∧
      Tree.ofTokens tokens = .ok ((a.read tokens).2.tree root) := by
  rw [read_eq]
  cases Tree.ofTokens tokens with
  | error e =>
    exact ⟨(graftAll_spans a e.pending).1, root_graftAll a e.pending,
      standardized_graftAll a e.pending, nofun⟩
  | ok t =>
    refine ⟨(graft_spans a t).1, root_graft a t, standardized_graft a t, fun root hroot => ?_⟩
    obtain rfl := Except.ok.inj hroot
    exact ⟨isNewTree_graft a t, congrArg _ (tree_graft a t).symm⟩

/-- The tokens of `f (1, 2)` behind the node of another program. -/
theorem Arena.read_isNewTree_application :
    let token (l : Lexeme) : Token := { lexeme := l, span := default, line := 1 }
    let a := Arena.ofTree (.leaf { kind := .nil, text := none, line := 7 })
    let tokens := [.identifier "f", .symbol .lparen, .integer "1", .symbol .comma, .integer "2",
      .symbol .rparen, .symbol .endOfInput].map token
    (a.read tokens).1 = .ok 5 ∧ IsNewTree a (a.read tokens).2 5 := by
  intro token a tokens
  have hplace : (a.read tokens).1.toOption = some 5 := by
    decide +kernel
  have hread : (a.read tokens).1 = .ok 5 := by
    cases h : (a.read tokens).1 with
    | error e =>
      rw [h] at hplace
      cases hplace
    | ok id =>
      rw [h] at hplace
      rw [Option.some.inj hplace]
  exact ⟨hread, ((read_isNewTree a tokens).2.2.2 5 hread).1⟩

end Rpal
