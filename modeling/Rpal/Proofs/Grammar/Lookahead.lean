import Rpal.Proofs.Grammar.Basic

/-!
# What a parser takes, and what it looked for where it ends

A parser decides by the head of its input, so the place where it ends depends on that place's token
only through the types that it looked for there. `RunsTo p R ts rest missed r` says all that is to
know about one run: behind `ts` the parser `p` ends with `r` in front of any token with a type that
is not in `missed`; each type in `missed` is that of a token with which it would have gone on; and
what it took and its result are in `R`, or can still come to be.

`Consumes p R` says that every run of `p` is of this form. There is one lemma for each way to build
a parser. A parser that looks at the head twice, to decide whether something is there and then to
take it, is not of this form halfway; `Enters` is for these.

## Key results

- `Consumes.takes`: what a parser took and its result are in the relation
- `Consumes.bind`, `Consumes.iterate`: sequences and loops
- `Enters.consumes`, `Enters.orElse`: a parser in front of a set of tokens, or of any other
-/

namespace Rpal

/-- Every token type is that of a token. -/
theorem TokenType.exists_token (tt : TokenType) : ∃ k : Token, k.type = tt := by
  refine ⟨⟨.ofType tt "", default, 0⟩, ?_⟩
  cases tt <;> rfl

namespace TokenSet

@[simp] theorem union_empty (s : TokenSet) : s.union .empty = s := by
  ext tt
  simp

/-- Nothing is added to by the empty set but what is in the other. -/
@[simp] theorem empty_union (s : TokenSet) : TokenSet.empty.union s = s := by
  ext tt
  simp

/-- How unions are grouped does not matter. -/
theorem union_assoc (s t u : TokenSet) : (s.union t).union u = s.union (t.union u) := by
  ext tt
  simp [Bool.or_assoc]

end TokenSet

namespace Parser

variable {α β : Type}

/-! ### Sequencing -/

/-- After a first part that succeeds, a sequence goes on with the second. -/
theorem bind_of_eq_ok {p : Parser α} {f : α → Parser β} {c c₁ : Cursor} {a : α}
    (h : p c = .ok (a, c₁)) : (p >>= f) c = f a c₁ := by
  simp only [bind, StateT.bind, Except.bind, h]

/-- After a first part that stops, a sequence stops. -/
theorem bind_of_eq_error {p : Parser α} {f : α → Parser β} {c : Cursor} {e : SyntaxError}
    (h : p c = .error e) : (p >>= f) c = .error e := by
  simp only [bind, StateT.bind, Except.bind, h]

/-- The trees behind a first one are kept in order. -/
theorem keepingFrom_eq (first : Tree Label) (behind : List (Tree Label)) (p : Parser α) :
    keepingFrom first behind p = keeping (first :: behind.reverse) p :=
  rfl

/-- The type of the token at the head of the input. -/
def headType (ts : List Token) : TokenType :=
  (Cursor.ofTokens ts).current.type

@[simp] theorem headType_cons (k : Token) (ks : List Token) : headType (k :: ks) = k.type := rfl

/-- The tokens that were looked for in vain do not matter for the current one. -/
theorem current_type (ts : List Token) (expected : TokenSet) :
    (Cursor.mk ts expected).current.type = headType ts := rfl

/-- A token that is not the end of the input is there if its type is at the head. -/
theorem exists_cons_of_headType {ts : List Token} (h : headType ts ≠ .symbol .endOfInput) :
    ∃ k ks, ts = k :: ks ∧ k.type = headType ts := by
  cases ts with
  | nil => exact absurd rfl h
  | cons k ks => exact ⟨k, ks, rfl, rfl⟩

/-! ### Looking at the head -/

/-- A token of the type is taken, and what was expected before is forgotten. -/
theorem accept?_cons {tt : TokenType} {k : Token} (hk : k.type = tt) (rest : List Token)
    (expected : TokenSet) : accept? tt ⟨k :: rest, expected⟩ = .ok (some k, ⟨rest, .empty⟩) :=
  if_pos hk

/-- A token of another type stays, and the type is expected in addition. -/
theorem accept?_of_ne {tt : TokenType} {rest : List Token} (h : headType rest ≠ tt)
    (expected : TokenSet) :
    accept? tt ⟨rest, expected⟩ = .ok (none, ⟨rest, expected.insert tt⟩) :=
  if_neg h

/-- A required token is taken, and what was expected before is forgotten. -/
theorem require_cons {tt : TokenType} {k : Token} (hk : k.type = tt) (rest : List Token)
    (expected : TokenSet) : require tt ⟨k :: rest, expected⟩ = .ok (k, ⟨rest, .empty⟩) :=
  bind_of_eq_ok (accept?_cons hk rest expected)

/-- A required token that is missing is an error, which expects its type in addition. -/
theorem require_of_ne {tt : TokenType} {rest : List Token} (h : headType rest ≠ tt)
    (expected : TokenSet) : require tt ⟨rest, expected⟩ =
      .error { actual := (Cursor.ofTokens rest).current, expected := expected.insert tt, pending := [] } :=
  bind_of_eq_ok (accept?_of_ne h expected)

/-- Looking at a token that is in the set changes nothing. -/
theorem startsWith_of_contains {set : TokenSet} {rest : List Token}
    (h : set.contains (headType rest) = true) (expected : TokenSet) :
    startsWith set ⟨rest, expected⟩ = .ok (true, ⟨rest, expected⟩) :=
  if_pos h

/-- Looking at a token that is not in the set makes the whole set expected. -/
theorem startsWith_of_not_contains {set : TokenSet} {rest : List Token}
    (h : set.contains (headType rest) = false) (expected : TokenSet) :
    startsWith set ⟨rest, expected⟩ = .ok (false, ⟨rest, expected.union set⟩) :=
  if_neg (by rw [current_type, h]; exact Bool.false_ne_true)

/-! ### One run -/

/-- How a parser ends: with a result, or at a token that it cannot go on with. -/
inductive Ending (α : Type) where
  | done (a : α)
  | stopped (pending : List (Tree Label))

namespace Ending

/-- What a parser gives that ends at `c`. -/
def outcome : Ending α → Cursor → Except SyntaxError (α × Cursor)
  | done a, c => .ok (a, c)
  | stopped pending, c => .error { actual := c.current, expected := c.expected, pending }

/-- What was taken and the result are in `R`, or could still come to be. -/
def Fits (R : List Token → α → Prop) (ts : List Token) : Ending α → Prop
  | done a => R ts a
  | stopped _ => ∃ more a, R (ts ++ more) a

/-- The ending with more trees that were complete before. -/
def keeping (parts : List (Tree Label)) : Ending α → Ending α
  | done a => done a
  | stopped pending => stopped (parts ++ pending)

end Ending

/-- The token types that were looked for in vain behind `ts`: if nothing was taken, also those from
    before. -/
def missedBehind (expected : TokenSet) : List Token → TokenSet → TokenSet
  | [], missed => expected.union missed
  | _ :: _, missed => missed

/-- If nothing was taken, what was expected before still is. -/
@[simp] theorem missedBehind_nil (expected missed : TokenSet) :
    missedBehind expected [] missed = expected.union missed := rfl

/-- If something was taken, only what was missed behind it is expected. -/
@[simp] theorem missedBehind_cons (expected missed : TokenSet) (k : Token) (ks : List Token) :
    missedBehind expected (k :: ks) missed = missed := rfl

/-- What is missed behind two parts is what is missed behind the second, after what is missed behind
    the first. -/
theorem missedBehind_append (expected m₁ m₂ : TokenSet) (us vs : List Token) :
    missedBehind (missedBehind expected us m₁) vs m₂ =
      missedBehind expected (us ++ vs) (missedBehind m₁ vs m₂) := by
  cases us <;> cases vs <;> simp [TokenSet.union_assoc]

/-- Behind `ts`, the parser `p` ends with `r` in front of any token that is none of `missed`. -/
def Ends (p : Parser α) (ts : List Token) (missed : TokenSet) (r : Ending α) : Prop :=
  ∀ expected rest, missed.contains (headType rest) = false →
    p ⟨ts ++ rest, expected⟩ = r.outcome ⟨rest, missedBehind expected ts missed⟩

/-- With any token behind `ts` that has a type in `missed`, there is a way to something in `R`. -/
def Offers (R : List Token → α → Prop) (ts : List Token) (missed : TokenSet) : Prop :=
  ∀ k : Token, missed.contains k.type = true → ∃ more a, R (ts ++ k :: more) a

/-- On `ts ++ rest` the parser `p` takes `ts`, looks in vain for the types in `missed`, and ends
    with `r`. -/
structure RunsTo (p : Parser α) (R : List Token → α → Prop) (ts rest : List Token)
    (missed : TokenSet) (r : Ending α) : Prop where
  isMissed : missed.contains (headType rest) = false
  ends : Ends p ts missed r
  offers : Offers R ts missed
  fits : r.Fits R ts

/-- Whatever the input, `p` takes tokens and ends in a way that `R` tells. -/
def Consumes (p : Parser α) (R : List Token → α → Prop) : Prop :=
  ∀ input, ∃ ts rest missed r, input = ts ++ rest ∧ RunsTo p R ts rest missed r

/-- From everything in `R` there is a way to something in `S`. -/
def LeadsTo (R : List Token → α → Prop) (S : List Token → β → Prop) : Prop :=
  ∀ ts a, R ts a → ∃ more b, S (ts ++ more) b

/-- With no types, there is nothing to offer. -/
theorem offers_empty (R : List Token → α → Prop) (ts : List Token) : Offers R ts .empty := by
  intro k h
  simp at h

/-- A way to something can be followed further. -/
theorem Offers.mono {R : List Token → α → Prop} {S : List Token → β → Prop} {ts : List Token}
    {missed : TokenSet} (h : Offers R ts missed) (hRS : LeadsTo R S) : Offers S ts missed := by
  intro k hk
  obtain ⟨more, a, hR⟩ := h k hk
  obtain ⟨more', b, hS⟩ := hRS _ _ hR
  exact ⟨more ++ more', b, by simpa using hS⟩

/-- Offers can be joined. -/
theorem Offers.union {R : List Token → α → Prop} {ts : List Token} {m₁ m₂ : TokenSet}
    (h₁ : Offers R ts m₁) (h₂ : Offers R ts m₂) : Offers R ts (m₁.union m₂) := by
  intro k hk
  rw [TokenSet.contains_union, Bool.or_eq_true] at hk
  exact hk.elim (h₁ k) (h₂ k)

/-- What a parser gave on an input is what its ending gives. -/
theorem RunsTo.eq_outcome {p : Parser α} {R : List Token → α → Prop} {ts rest : List Token}
    {missed : TokenSet} {r : Ending α} (h : RunsTo p R ts rest missed r) (expected : TokenSet) :
    p ⟨ts ++ rest, expected⟩ = r.outcome ⟨rest, missedBehind expected ts missed⟩ :=
  h.ends expected rest h.isMissed

/-- A run is described by anything that holds of what was taken. -/
theorem RunsTo.mono {p : Parser α} {R S : List Token → α → Prop} {ts rest : List Token}
    {missed : TokenSet} {r : Ending α} (h : RunsTo p R ts rest missed r)
    (hRS : ∀ ts a, R ts a → S ts a) : RunsTo p S ts rest missed r where
  isMissed := h.isMissed
  ends := h.ends
  offers := h.offers.mono fun ts a hR => ⟨[], a, by simpa using hRS ts a hR⟩
  fits := by
    cases r with
    | done a => exact hRS ts a h.fits
    | stopped pending =>
      obtain ⟨more, a, hR⟩ := h.fits
      exact ⟨more, a, hRS _ a hR⟩

/-- A result takes no tokens, and misses none. -/
theorem RunsTo.pure {R : List Token → α → Prop} {a : α} (h : R [] a) (input : List Token) :
    RunsTo (Pure.pure a : Parser α) R [] input .empty (.done a) where
  isMissed := TokenSet.contains_empty _
  ends expected rest _ := by rw [missedBehind_nil, TokenSet.union_empty]; rfl
  offers := offers_empty R []
  fits := h

/-- A sequence stops where its first part does. -/
theorem RunsTo.bind_stopped {p : Parser α} {f : α → Parser β} {R : List Token → α → Prop}
    {S : List Token → β → Prop} {ts rest : List Token} {missed : TokenSet}
    {pending : List (Tree Label)} (h : RunsTo p R ts rest missed (.stopped pending))
    (hRS : LeadsTo R S) : RunsTo (p >>= f) S ts rest missed (.stopped pending) where
  isMissed := h.isMissed
  ends expected rest' hrest := bind_of_eq_error (h.ends expected rest' hrest)
  offers := h.offers.mono hRS
  fits := by
    obtain ⟨more, a, hR⟩ := h.fits
    obtain ⟨more', b, hS⟩ := hRS _ _ hR
    exact ⟨more ++ more', b, by simpa using hS⟩

/-- A sequence ends where its second part does. Where that takes nothing, both looked at one
    token. -/
theorem RunsTo.bind_done {p : Parser α} {f : α → Parser β} {R : List Token → α → Prop}
    {S : List Token → β → Prop} {us vs rest : List Token} {m₁ m₂ : TokenSet} {a : α}
    {r : Ending β} (hp : RunsTo p R us (vs ++ rest) m₁ (.done a)) (hRS : LeadsTo R S)
    (hf : RunsTo (f a) (fun vs b => S (us ++ vs) b) vs rest m₂ r) :
    RunsTo (p >>= f) S (us ++ vs) rest (missedBehind m₁ vs m₂) r where
  isMissed := by
    cases vs with
    | nil => simpa using ⟨hp.isMissed, hf.isMissed⟩
    | cons v vs => exact hf.isMissed
  ends expected rest' hrest := by
    -- a second part that takes nothing leaves its first token to the first part
    have hfirst : m₁.contains (headType (vs ++ rest')) = false ∧
        m₂.contains (headType rest') = false := by
      cases vs with
      | nil => simpa using hrest
      | cons v vs => exact ⟨hp.isMissed, hrest⟩
    have hpa := hp.ends expected _ hfirst.1
    rw [List.append_assoc, bind_of_eq_ok hpa, hf.ends _ _ hfirst.2, missedBehind_append]
  offers := by
    cases vs with
    | nil =>
      rw [List.append_nil]
      exact .union (hp.offers.mono hRS) hf.offers
    | cons v vs =>
      intro k hk
      obtain ⟨more, b, hS⟩ := hf.offers k hk
      exact ⟨more, b, by simpa using hS⟩
  fits := by
    cases r with
    | done b => exact hf.fits
    | stopped pending =>
      obtain ⟨more, b, hS⟩ := hf.fits
      exact ⟨more, b, by simpa using hS⟩

/-! ### All runs -/

namespace Consumes

/-- What a parser took and its result are in the relation. -/
theorem takes {p : Parser α} {R : List Token → α → Prop} (hp : Consumes p R) {c c' : Cursor}
    {a : α} (h : p c = .ok (a, c')) : ∃ ts, c.rest = ts ++ c'.rest ∧ R ts a := by
  obtain ⟨ts, rest, missed, r, hinput, hrun⟩ := hp c.rest
  have heq := hrun.eq_outcome c.expected
  rw [← hinput] at heq
  cases r with
  | done b =>
    cases h.symm.trans heq
    exact ⟨ts, hinput, hrun.fits⟩
  | stopped pending => cases h.symm.trans heq

/-- There is something that a parser can take. -/
theorem exists_taken {p : Parser α} {R : List Token → α → Prop} (hp : Consumes p R) :
    ∃ ts a, R ts a := by
  obtain ⟨ts, rest, missed, r, -, hrun⟩ := hp []
  cases r with
  | done a => exact ⟨ts, a, hrun.fits⟩
  | stopped pending =>
    obtain ⟨more, a, hR⟩ := hrun.fits
    exact ⟨ts ++ more, a, hR⟩

/-- What goes on to consume tokens leads to what these make of it. -/
theorem leadsTo {f : α → Parser β} {R : List Token → α → Prop} {S : List Token → β → Prop}
    (hf : ∀ us a, R us a → Consumes (f a) fun vs b => S (us ++ vs) b) : LeadsTo R S :=
  fun us a h => (hf us a h).exists_taken

/-- What is consumed can be described by less. -/
theorem mono {p : Parser α} {R S : List Token → α → Prop} (hp : Consumes p R)
    (h : ∀ ts a, R ts a → S ts a) : Consumes p S := by
  intro input
  obtain ⟨ts, rest, missed, r, hinput, hrun⟩ := hp input
  exact ⟨ts, rest, missed, r, hinput, hrun.mono h⟩

/-- A result consumes no tokens. -/
theorem pure {R : List Token → α → Prop} {a : α} (h : R [] a) :
    Consumes (Pure.pure a : Parser α) R :=
  fun input => ⟨[], input, .empty, .done a, rfl, .pure h input⟩

/-- A sequence consumes what its parts do, one behind the other. -/
theorem bind {p : Parser α} {f : α → Parser β} {R : List Token → α → Prop}
    {S : List Token → β → Prop} (hp : Consumes p R)
    (hf : ∀ us a, R us a → Consumes (f a) fun vs b => S (us ++ vs) b) :
    Consumes (p >>= f) S := by
  intro input
  obtain ⟨us, rest, m₁, r, rfl, hrun⟩ := hp input
  cases r with
  | stopped pending => exact ⟨us, rest, m₁, _, rfl, hrun.bind_stopped (leadsTo hf)⟩
  | done a =>
    obtain ⟨vs, rest, m₂, r, rfl, hrun₂⟩ := hf us a hrun.fits rest
    exact ⟨us ++ vs, rest, _, r, (List.append_assoc _ _ _).symm,
      hrun.bind_done (leadsTo hf) hrun₂⟩

/-- Trees that are kept do not change what is consumed. -/
theorem keeping {p : Parser α} {R : List Token → α → Prop} (parts : List (Tree Label))
    (hp : Consumes p R) : Consumes (keeping parts p) R := by
  intro input
  obtain ⟨ts, rest, missed, r, hinput, hrun⟩ := hp input
  refine ⟨ts, rest, missed, r.keeping parts, hinput, hrun.isMissed, ?_, hrun.offers, ?_⟩
  · intro expected rest' hrest
    simp only [Parser.keeping, hrun.ends expected rest' hrest]
    cases r <;> rfl
  · cases r with
    | done a => exact hrun.fits
    | stopped pending => exact hrun.fits

/-- Trees that are kept in front do not change what is consumed. -/
theorem keepingFrom {p : Parser α} {R : List Token → α → Prop} (first : Tree Label)
    (behind : List (Tree Label)) (hp : Consumes p R) : Consumes (keepingFrom first behind p) R :=
  keepingFrom_eq first behind p ▸ hp.keeping _

/-- A parser that stops does so where something could come. -/
theorem unexpected {R : List Token → α → Prop} (h : ∃ ts a, R ts a) :
    Consumes (unexpected : Parser α) R := by
  refine fun input => ⟨[], input, .empty, .stopped [], rfl, TokenSet.contains_empty _, ?_,
    offers_empty R [], h⟩
  intro expected rest _
  rw [missedBehind_nil, TokenSet.union_empty]
  rfl

end Consumes

/-- Nothing, or what is in `R`. -/
def Optionally (R : List Token → α → Prop) (ts : List Token) : Option α → Prop
  | none => ts = []
  | some a => R ts a

namespace Consumes

/-- Looking for a token takes the token or nothing. -/
theorem accept? {tt : TokenType} (htt : tt ≠ .symbol .endOfInput) :
    Consumes (accept? tt) (Optionally fun ts k => ts = [k] ∧ k.type = tt) := by
  intro input
  by_cases hhead : headType input = tt
  · obtain ⟨k, ks, rfl, hk⟩ := exists_cons_of_headType (hhead ▸ htt)
    refine ⟨[k], ks, .empty, .done (some k), rfl, TokenSet.contains_empty _, ?_,
      offers_empty _ _, rfl, hk.trans hhead⟩
    exact fun expected rest _ => accept?_cons hhead rest expected
  · refine ⟨[], input, TokenSet.empty.insert tt, .done none, rfl, by simpa using hhead, ?_, ?_, rfl⟩
    · intro expected rest hrest
      have hmiss : missedBehind expected [] (TokenSet.empty.insert tt) = expected.insert tt := by
        ext other
        simp [Bool.or_comm]
      rw [hmiss]
      exact accept?_of_ne (by simpa using hrest) expected
    · intro k hk
      exact ⟨[], some k, rfl, by simpa using hk⟩

/-- A required token is consumed. -/
theorem require {tt : TokenType} (htt : tt ≠ .symbol .endOfInput) :
    Consumes (require tt) fun ts k => ts = [k] ∧ k.type = tt := by
  refine (Consumes.accept? htt).bind fun us o hus => ?_
  cases o with
  | none =>
    obtain rfl := hus
    obtain ⟨k, hk⟩ := tt.exists_token
    exact .unexpected ⟨[k], k, rfl, hk⟩
  | some k =>
    obtain ⟨rfl, hk⟩ := hus
    exact .pure ⟨rfl, hk⟩

/-- Looking for an operator takes one of the table or nothing. -/
theorem oneOf? {table : List (Symbol × α)} (htable : ∀ i ∈ table, i.1 ≠ .endOfInput) :
    Consumes (oneOf? table) (Optionally fun ts a =>
      ∃ op k, (op, a) ∈ table ∧ ts = [k] ∧ k.type = .symbol op) := by
  induction table with
  | nil => exact .pure rfl
  | cons i more ih =>
    obtain ⟨op, a⟩ := i
    obtain ⟨hop, hmore⟩ := List.forall_mem_cons.1 htable
    refine (Consumes.accept? (by simpa using hop)).bind fun us o hus => ?_
    cases o with
    | none =>
      -- the first operator is not there, and the search goes on behind it
      obtain rfl := hus
      refine (ih hmore).mono fun ts o hts => ?_
      cases o with
      | none => exact hts
      | some b =>
        obtain ⟨op', k, hmem, hk⟩ := hts
        exact ⟨op', k, List.mem_cons_of_mem _ hmem, hk⟩
    | some k =>
      obtain ⟨rfl, hk⟩ := hus
      exact .pure ⟨op, k, List.mem_cons_self, rfl, hk⟩

/-- A loop takes what its steps take. The bound decides nothing, since every step but the last takes
    a token. -/
theorem iterateAlong {step : α → Parser (Option α)} {R : List Token → α → Prop}
    (hstep : ∀ us a, R us a →
      Consumes (step a) (Optionally fun vs b => vs ≠ [] ∧ R (us ++ vs) b))
    {us : List Token} {a : α} (h : R us a) (input : List Token) :
    ∃ ts rest missed r, input = ts ++ rest ∧ ∀ bound : List Token, ts.length < bound.length →
      RunsTo (iterateAlong step bound a) (fun vs b => R (us ++ vs) b) ts rest missed r := by
  induction hlen : input.length using Nat.strong_induction_on generalizing us a input with
  | _ len ih =>
    subst hlen
    obtain ⟨vs, rest, m₁, r, rfl, hrun⟩ := hstep us a h input
    -- a loop can end behind every step
    have hleads : LeadsTo (Optionally fun vs b => vs ≠ [] ∧ R (us ++ vs) b)
        fun vs b => R (us ++ vs) b := by
      intro ts o ho
      cases o with
      | none =>
        obtain rfl := ho
        exact ⟨[], a, by simpa using h⟩
      | some b => exact ⟨[], b, by simpa using ho.2⟩
    -- a bound is not used up before the step
    have hbound : ∀ {n : Nat} {bound : List Token}, n < bound.length → ∃ k ks, bound = k :: ks :=
      fun hn => List.exists_cons_of_length_pos (Nat.zero_lt_of_lt hn)
    cases r with
    | stopped pending =>
      refine ⟨vs, rest, m₁, .stopped pending, rfl, fun bound hlen => ?_⟩
      obtain ⟨k, ks, rfl⟩ := hbound hlen
      exact hrun.bind_stopped hleads
    | done o =>
      cases o with
      | none =>
        obtain rfl : vs = [] := hrun.fits
        refine ⟨[] ++ [], rest, missedBehind m₁ [] .empty, .done a, rfl, fun bound hlen => ?_⟩
        obtain ⟨k, ks, rfl⟩ := hbound hlen
        exact hrun.bind_done hleads (.pure (by simpa using h) rest)
      | some b =>
        obtain ⟨hne, hR⟩ : vs ≠ [] ∧ R (us ++ vs) b := hrun.fits
        have hpos := List.length_pos_iff.2 hne
        obtain ⟨ws, rest, m₂, r, rfl, hrun₂⟩ :=
          ih rest.length (by rw [List.length_append]; omega) hR rest rfl
        refine ⟨vs ++ ws, rest, missedBehind m₁ ws m₂, r, (List.append_assoc _ _ _).symm,
          fun bound hlen => ?_⟩
        obtain ⟨k, ks, rfl⟩ := hbound hlen
        rw [List.length_append, List.length_cons] at hlen
        refine hrun.bind_done hleads ((hrun₂ ks (by omega)).mono fun ts c hts => ?_)
        rwa [List.append_assoc] at hts

/-- A loop consumes what its rounds do, as long as each takes a token. -/
theorem iterate {step : α → Parser (Option α)} {R : List Token → α → Prop}
    (hstep : ∀ us a, R us a →
      Consumes (step a) (Optionally fun vs b => vs ≠ [] ∧ R (us ++ vs) b))
    (us : List Token) {a : α} (h : R us a) :
    Consumes (iterate step a) fun vs b => R (us ++ vs) b := by
  intro input
  obtain ⟨ts, rest, missed, r, hinput, hrun⟩ := iterateAlong hstep h input
  have hall : ∀ rest' : List Token, ts.length < ((Cursor.ofTokens (ts ++ rest')).current ::
      (ts ++ rest')).length := by
    intro rest'
    rw [List.length_cons, List.length_append]
    omega
  refine ⟨ts, rest, missed, r, hinput, ?_⟩
  have hrest := hrun _ (hall rest)
  exact ⟨hrest.isMissed, fun expected rest' hrest' => (hrun _ (hall rest')).ends expected rest' hrest',
    hrest.offers, hrest.fits⟩

end Consumes

/-! ### Parsers in front of a set of tokens -/

/-- In front of a token with a type in `set`, the parser `p` takes it and goes on to something in
    `R`. In front of any other it stops, and `set` is what it looked for. -/
structure Enters (p : Parser α) (set : TokenSet) (R : List Token → α → Prop) : Prop where
  ne_endOfInput : set.contains (.symbol .endOfInput) = false
  nonempty : ∃ tt, set.contains tt = true
  goesOn : ∀ k : Token, set.contains k.type = true → ∃ q, Consumes q (fun ts a => R (k :: ts) a) ∧
    ∀ rest expected, p ⟨k :: rest, expected⟩ = q ⟨rest, .empty⟩
  stops : ∃ pending, Ends p [] set (.stopped pending)

namespace Enters

variable {p : Parser α} {set : TokenSet} {R : List Token → α → Prop}

/-- A type in the set is that of a token which something in the relation starts with. -/
theorem offers (hp : Enters p set R) : Offers R [] set := by
  intro k hk
  obtain ⟨q, hq, -⟩ := hp.goesOn k hk
  exact hq.exists_taken

/-- In front of a token of the set, a parser takes the token. -/
theorem exists_runsTo (hp : Enters p set R) {input : List Token}
    (hhead : set.contains (headType input) = true) :
    ∃ k ts rest missed r, input = k :: ts ++ rest ∧ RunsTo p R (k :: ts) rest missed r := by
  have hne : headType input ≠ .symbol .endOfInput := by
    intro heq
    rw [heq, hp.ne_endOfInput] at hhead
    cases hhead
  obtain ⟨k, ks, rfl, -⟩ := exists_cons_of_headType hne
  obtain ⟨q, hq, heq⟩ := hp.goesOn k hhead
  obtain ⟨ts, rest, missed, r, rfl, hrun⟩ := hq ks
  refine ⟨k, ts, rest, missed, r, rfl, hrun.isMissed, fun expected rest' hrest => ?_, hrun.offers,
    hrun.fits⟩
  rw [List.cons_append, heq, hrun.ends _ _ hrest]
  cases ts with
  | nil => rw [missedBehind_nil, missedBehind_cons, TokenSet.empty_union]
  | cons => rfl

/-- What enters a phrase consumes it. -/
theorem consumes (hp : Enters p set R) : Consumes p R := by
  intro input
  cases hhead : set.contains (headType input) with
  | true =>
    obtain ⟨k, ts, rest, missed, r, hinput, hrun⟩ := hp.exists_runsTo hhead
    exact ⟨k :: ts, rest, missed, r, hinput, hrun⟩
  | false =>
    obtain ⟨pending, hstops⟩ := hp.stops
    obtain ⟨tt, htt⟩ := hp.nonempty
    obtain ⟨k, rfl⟩ := tt.exists_token
    obtain ⟨more, a, hR⟩ := hp.offers k htt
    exact ⟨[], input, set, .stopped pending, rfl, hhead, hstops, hp.offers, k :: more, a, hR⟩

/-- A parser that decides for `p` if `set` has the head of the input. -/
theorem orElse (hp : Enters p set R) {other : α} (hother : R [] other) :
    Consumes (startsWith set >>= fun found => if found then p else Pure.pure other) R := by
  intro input
  cases hhead : set.contains (headType input) with
  | true =>
    obtain ⟨k, ts, rest, missed, r, rfl, hrun⟩ := hp.exists_runsTo hhead
    refine ⟨k :: ts, rest, missed, r, rfl, hrun.isMissed, fun expected rest' hrest => ?_,
      hrun.offers, hrun.fits⟩
    have hfound : set.contains (headType (k :: ts ++ rest')) = true := hhead
    rw [bind_of_eq_ok (startsWith_of_contains hfound expected), if_pos rfl, hrun.ends _ _ hrest]
  | false =>
    refine ⟨[], input, set, .done other, rfl, hhead, fun expected rest hrest => ?_, hp.offers,
      hother⟩
    exact bind_of_eq_ok (startsWith_of_not_contains hrest expected)

/-- What is behind `p` knows that a token was taken. -/
theorem bind {f : α → Parser β} {S : List Token → β → Prop} (hp : Enters p set R)
    (hf : ∀ k us a, R (k :: us) a → Consumes (f a) fun vs b => S (k :: us ++ vs) b) :
    Enters (p >>= f) set S where
  ne_endOfInput := hp.ne_endOfInput
  nonempty := hp.nonempty
  goesOn k hk := by
    obtain ⟨q, hq, heq⟩ := hp.goesOn k hk
    refine ⟨q >>= f, hq.bind fun us a hR => hf k us a hR, fun rest expected => ?_⟩
    simp only [Bind.bind, StateT.bind, heq]
  stops := by
    obtain ⟨pending, hstops⟩ := hp.stops
    exact ⟨pending, fun expected rest hrest => bind_of_eq_error (hstops expected rest hrest)⟩

/-- Trees that are kept do not change how a phrase is entered. -/
theorem keeping (hp : Enters p set R) (parts : List (Tree Label)) :
    Enters (keeping parts p) set R where
  ne_endOfInput := hp.ne_endOfInput
  nonempty := hp.nonempty
  goesOn k hk := by
    obtain ⟨q, hq, heq⟩ := hp.goesOn k hk
    refine ⟨Parser.keeping parts q, hq.keeping parts, fun rest expected => ?_⟩
    simp only [Parser.keeping, heq]
  stops := by
    obtain ⟨pending, hstops⟩ := hp.stops
    refine ⟨parts ++ pending, fun expected rest hrest => ?_⟩
    simp only [Parser.keeping, hstops expected rest hrest]
    rfl

end Enters

end Parser

end Rpal
