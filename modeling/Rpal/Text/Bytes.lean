/-!
# Byte positions

Addresses count the bytes of the UTF-8 encoding, while text is read character by character. This
file measures text in bytes and cuts it at a byte position.

- `byteLength_append`: the length of a concatenation is the sum of the lengths
- `byteLength_toList`: the length of a string's characters is the size of its encoding
- `splitAtByte?_eq_some`: the two parts of a cut are the text, and the first has the asked length
-/

namespace Rpal.Text

/-- The number of bytes that encode `cs`. -/
def byteLength : List Char → Nat
  | [] => 0
  | c :: cs => c.utf8Size + byteLength cs

@[simp] theorem byteLength_nil : byteLength [] = 0 := rfl

@[simp] theorem byteLength_cons (c : Char) (cs : List Char) :
    byteLength (c :: cs) = c.utf8Size + byteLength cs := rfl

@[simp] theorem byteLength_append (cs ds : List Char) :
    byteLength (cs ++ ds) = byteLength cs + byteLength ds := by
  induction cs with
  | nil => simp
  | cons c cs ih => simp [ih, Nat.add_assoc]

/-- The measure agrees with the size of the encoded string. -/
theorem byteLength_toList (s : String) : byteLength s.toList = s.utf8ByteSize := by
  have hsize (cs : List Char) : (String.ofList cs).utf8ByteSize = byteLength cs := by
    induction cs with
    | nil => rfl
    | cons c cs ih =>
      rw [String.ofList_cons, String.utf8ByteSize_append, String.utf8ByteSize_singleton, ih,
        byteLength_cons]
  rw [← hsize, String.ofList_toList]

/-- The characters of `cs` whose first byte is among the first `n` bytes. -/
def startingBefore : Nat → List Char → List Char
  | 0, _ => []
  | _ + 1, [] => []
  | n + 1, c :: cs => c :: startingBefore (n + 1 - c.utf8Size) cs

/-- `cs` cut after its first `n` bytes; `none` when that position is inside a character or past the
    end. -/
def splitAtByte? : Nat → List Char → Option (List Char × List Char)
  | 0, cs => some ([], cs)
  | _ + 1, [] => none
  | n + 1, c :: cs =>
    if c.utf8Size ≤ n + 1 then
      (splitAtByte? (n + 1 - c.utf8Size) cs).map fun parts => (c :: parts.1, parts.2)
    else
      none

/-- The two parts of a cut are the text, and the first has the asked length. -/
theorem splitAtByte?_eq_some {n : Nat} {cs before after : List Char}
    (h : splitAtByte? n cs = some (before, after)) :
    cs = before ++ after ∧ byteLength before = n := by
  induction cs generalizing n before with
  | nil => cases n <;> simp_all [splitAtByte?]
  | cons c cs ih =>
    cases n with
    | zero => simp_all [splitAtByte?]
    | succ n =>
      simp only [splitAtByte?] at h
      split at h
      · simp only [Option.map_eq_some_iff, Prod.mk.injEq, Prod.exists] at h
        obtain ⟨first, _, hcut, rfl, rfl⟩ := h
        obtain ⟨rfl, hlen⟩ := ih hcut
        simp only [List.cons_append, byteLength_cons, true_and]
        omega
      · simp at h

/-- At a cut, the characters that start before it are the first part. -/
theorem startingBefore_eq_of_split {n : Nat} {cs before after : List Char}
    (h : splitAtByte? n cs = some (before, after)) : startingBefore n cs = before := by
  induction cs generalizing n before with
  | nil => cases n <;> simp_all [splitAtByte?, startingBefore]
  | cons c cs ih =>
    cases n with
    | zero => simp_all [splitAtByte?, startingBefore]
    | succ n =>
      simp only [splitAtByte?] at h
      split at h
      · simp only [Option.map_eq_some_iff, Prod.mk.injEq, Prod.exists] at h
        obtain ⟨first, _, hcut, rfl, rfl⟩ := h
        rw [startingBefore, ih hcut]
      · cases h

end Rpal.Text
