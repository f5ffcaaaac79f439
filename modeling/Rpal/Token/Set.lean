import Rpal.Token.Basic

/-!
# Sets of token types

A set of token types has one bit for each type, at the type's place. It is known by its membership
test `contains`, and it is listed in the fixed order of the token types, whatever the order of the
insertions was.

* `ext`: sets with the same members are equal.
* `contains_empty`, `contains_insert`, `contains_union`, `contains_ofList`: the members that each
  operation gives.
* `toList_inj`: a set is determined by its listing.
-/

namespace Rpal

/-- A set of token types. -/
structure TokenSet where
  bits : BitVec TokenType.all.length
deriving DecidableEq

namespace TokenSet

/-- `tt` is a member of `s`. -/
def contains (s : TokenSet) (tt : TokenType) : Bool :=
  s.bits.getLsbD tt.index

/-- The set without members. -/
def empty : TokenSet :=
  ⟨0⟩

instance : Inhabited TokenSet := ⟨empty⟩

/-- `s` with `tt` added. -/
def insert (s : TokenSet) (tt : TokenType) : TokenSet :=
  ⟨s.bits ||| BitVec.twoPow _ tt.index⟩

/-- The members of `s` and those of `t`. -/
def union (s t : TokenSet) : TokenSet :=
  ⟨s.bits ||| t.bits⟩

/-- The set of the members of a list. -/
def ofList (types : List TokenType) : TokenSet :=
  types.foldl insert empty

/-- The members of `s`, in the order of the token types. -/
def toList (s : TokenSet) : List TokenType :=
  TokenType.all.filter s.contains

@[ext] theorem ext {s t : TokenSet} (h : ∀ tt, s.contains tt = t.contains tt) : s = t := by
  cases s; cases t
  simp only [mk.injEq]
  refine BitVec.eq_of_getLsbD_eq fun i hi => ?_
  have := h TokenType.all[i]
  rwa [contains, contains, TokenType.index_getElem_all hi] at this

@[simp] theorem contains_empty (tt : TokenType) : empty.contains tt = false := by
  simp [contains, empty]

/-- Inserting adds the inserted type. -/
@[simp] theorem contains_insert (s : TokenSet) (tt other : TokenType) :
    (s.insert tt).contains other = (decide (other = tt) || s.contains other) := by
  simp only [contains, insert, BitVec.getLsbD_or, BitVec.getLsbD_twoPow, TokenType.index_lt,
    decide_true, Bool.true_and, TokenType.index_inj, eq_comm (a := tt), Bool.or_comm]

/-- A union has the elements of both sets. -/
@[simp] theorem contains_union (s t : TokenSet) (tt : TokenType) :
    (s.union t).contains tt = (s.contains tt || t.contains tt) :=
  BitVec.getLsbD_or

/-- The members after the insertion of a list, one after the other. -/
theorem contains_foldl_insert (types : List TokenType) (s : TokenSet) (tt : TokenType) :
    (types.foldl insert s).contains tt = (types.contains tt || s.contains tt) := by
  induction types generalizing s with
  | nil => simp
  | cons t types ih => simp [ih, Bool.or_assoc, Bool.or_left_comm]

@[simp] theorem contains_ofList (types : List TokenType) (tt : TokenType) :
    (ofList types).contains tt = types.contains tt := by
  simp [ofList, contains_foldl_insert]

/-- A set is listed without anything missing or added. -/
@[simp] theorem mem_toList {s : TokenSet} {tt : TokenType} :
    tt ∈ s.toList ↔ s.contains tt = true := by
  simp [toList, TokenType.mem_all]

/-- A set is determined by its listing. -/
theorem toList_inj {s t : TokenSet} : s.toList = t.toList ↔ s = t := by
  refine ⟨fun h => ext fun tt => ?_, fun h => h ▸ rfl⟩
  rw [Bool.eq_iff_iff, ← mem_toList, ← mem_toList, h]

/-- The members as a diagnostic names them. -/
def describe (s : TokenSet) : String :=
  ", ".intercalate (s.toList.map TokenType.describe)

/-- The members as a listing between brackets. -/
def listing (s : TokenSet) : String :=
  "[" ++ ", ".intercalate (s.toList.map TokenType.label) ++ "]"

end TokenSet

end Rpal
