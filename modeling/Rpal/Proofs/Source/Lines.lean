import Rpal.Diagnostic
import Rpal.Proofs.Token.Order

/-!
# Places in source files

Where an address is: in which file, on which line, and how far from the beginning of that line. The
files of a session occupy disjoint ranges, so that an address belongs to one file only, and at an
address between two characters the line that `SourceFile.line?` finds is one of the lines into which
newlines divide the text.

## Key results

- `SourceFiles.byAddress?_ofList`: a file is found again by any of its addresses
- `SourceFile.line?_eq_some`: the line at an address between two characters
- `Highlight.marks_point`, `Highlight.marks_span`: what stands below that line
-/

namespace Rpal

/-! ### Lines -/

namespace Text

/-- A text can be cut behind any of its characters. -/
theorem splitAtByte?_append (before after : List Char) :
    splitAtByte? (byteLength before) (before ++ after) = some (before, after) := by
  induction before with
  | nil => simp [splitAtByte?]
  | cons c cs ih =>
    obtain ⟨n, hn⟩ := Nat.exists_eq_succ_of_ne_zero (byteLength_pos (List.cons_ne_nil c cs)).ne'
    have hrest : n + 1 - c.utf8Size = byteLength cs := by
      rw [byteLength_cons] at hn
      omega
    rw [hn, List.cons_append, splitAtByte?, if_pos (by rw [byteLength_cons] at hn; omega), hrest, ih]
    rfl

/-- What `cs` has behind its last newline. -/
def lastLine (cs : List Char) : List Char :=
  (cs.reverse.takeWhile (· ≠ '\n')).reverse

/-- What `cs` has before its first newline. -/
def firstLine (cs : List Char) : List Char :=
  cs.takeWhile (· ≠ '\n')

/-- There is no newline in the last line. -/
theorem newline_notMem_lastLine (cs : List Char) : '\n' ∉ lastLine cs := by
  intro h
  simpa using List.mem_takeWhile_imp (List.mem_reverse.1 h)

/-- A text is one line, or its last line stands behind a newline. -/
theorem lastLine_eq_or (cs : List Char) :
    lastLine cs = cs ∨ ∃ earlier, cs = earlier ++ '\n' :: lastLine cs := by
  have hsplit : (cs.reverse.dropWhile (· ≠ '\n')).reverse ++ lastLine cs = cs := by
    rw [lastLine, ← List.reverse_append, List.takeWhile_append_dropWhile, List.reverse_reverse]
  cases hrest : cs.reverse.dropWhile (· ≠ '\n') with
  | nil =>
    rw [hrest, List.reverse_nil, List.nil_append] at hsplit
    exact .inl hsplit
  | cons c rest =>
    have hne : cs.reverse.dropWhile (· ≠ '\n') ≠ [] := hrest ▸ List.cons_ne_nil _ _
    have hc : c = '\n' := by
      have hhead := List.head_dropWhile_not _ hne
      simp only [hrest, List.head_cons] at hhead
      simpa using hhead
    rw [hrest, hc, List.reverse_cons, List.append_assoc] at hsplit
    exact .inr ⟨rest.reverse, hsplit.symm⟩

/-- The last line is no longer than the whole. -/
theorem byteLength_lastLine_le (cs : List Char) : byteLength (lastLine cs) ≤ byteLength cs := by
  obtain h | ⟨earlier, h⟩ := lastLine_eq_or cs
  · rw [h]
  · conv_rhs => rw [h]
    rw [byteLength_append, byteLength_cons]
    omega

/-- A text has one line more than it has newlines. -/
theorem length_splitOn (cs : List Char) : (cs.splitOn '\n').length = cs.count '\n' + 1 := by
  induction cs with
  | nil => rfl
  | cons c cs ih =>
    rw [List.splitOn_cons_eq_if_modifyHead, List.count_cons]
    split <;> simp [ih]

/-- The last line is the last of the lines. -/
theorem getLast?_splitOn (cs : List Char) : (cs.splitOn '\n').getLast? = some (lastLine cs) := by
  have hlast := List.splitOn_eq_singleton (newline_notMem_lastLine cs)
  obtain h | ⟨earlier, h⟩ := lastLine_eq_or cs
  · rw [h] at hlast ⊢
    rw [hlast]
    rfl
  · conv_lhs => rw [h]
    rw [List.splitOn_append_cons_self, hlast, List.getLast?_concat]

/-- The first line is the first of the lines. -/
theorem head?_splitOn (cs : List Char) : (cs.splitOn '\n').head? = some (firstLine cs) := by
  induction cs with
  | nil => rfl
  | cons c cs ih =>
    rw [List.splitOn_cons_eq_if_modifyHead]
    by_cases hc : c = '\n'
    · simp [hc, firstLine]
    · have hfirst : firstLine (c :: cs) = c :: firstLine cs := by simp [firstLine, hc]
      simp [hc, hfirst, List.head?_modifyHead, ih]

/-- The lines before the one in which a text is cut are those of what stands before its newline. -/
theorem splitOn_append_of_eq {before earlier : List Char}
    (h : before = earlier ++ '\n' :: lastLine before) (after : List Char) :
    (before ++ after).splitOn '\n' =
        earlier.splitOn '\n' ++ (lastLine before ++ after).splitOn '\n' ∧
      before.count '\n' = (earlier.splitOn '\n').length := by
  constructor
  · conv_lhs => rw [h]
    rw [List.append_assoc, List.cons_append, List.splitOn_append_cons_self]
  · conv_lhs => rw [h]
    rw [List.count_append, List.count_cons_self,
      List.count_eq_zero.2 (newline_notMem_lastLine before), length_splitOn]

/-- The line in which a text is cut, found by counting the newlines before the cut. -/
theorem getElem?_splitOn (before after : List Char) :
    ((before ++ after).splitOn '\n')[before.count '\n']? =
      some (lastLine before ++ firstLine after) := by
  have hfirst : ((lastLine before ++ after).splitOn '\n')[0]? =
      some (lastLine before ++ firstLine after) := by
    rw [← List.head?_eq_getElem?, head?_splitOn, firstLine, List.takeWhile_append_of_pos, firstLine]
    rintro c hc
    have hne : c ≠ '\n' := by
      rintro rfl
      exact newline_notMem_lastLine before hc
    simpa using hne
  obtain h | ⟨earlier, h⟩ := lastLine_eq_or before
  · have hcount : before.count '\n' = 0 := List.count_eq_zero.2 (h ▸ newline_notMem_lastLine before)
    rw [h] at hfirst
    rw [hcount, hfirst, h]
  · obtain ⟨hlines, hnumber⟩ := splitOn_append_of_eq h after
    rw [hlines, hnumber, List.getElem?_append_right (Nat.le_refl _), Nat.sub_self, hfirst]

end Text

namespace SourceFile

open Text (byteLength lastLine firstLine)

variable {f : SourceFile} {before after : List Char}

/-- A file can be cut at an address between two characters. -/
theorem splitAtByte?_position (h : f.chars = before ++ after) :
    f.position (f.start + byteLength before) = byteLength before ∧
      Text.splitAtByte? (byteLength before) f.chars = some (before, after) := by
  constructor
  · rw [position, size, h, Text.byteLength_append]
    omega
  · rw [h, Text.splitAtByte?_append]

/-- The number of the line at an address between two characters counts the newlines before it. -/
theorem lineNumber_eq (h : f.chars = before ++ after) :
    f.lineNumber (f.start + byteLength before) = 1 + before.count '\n' := by
  obtain ⟨hposition, hcut⟩ := splitAtByte?_position h
  rw [lineNumber, hposition, Text.startingBefore_eq_of_split hcut]

/-- The line at an address between two characters consists of what stands before and behind the
    address, up to the next newlines. -/
theorem line?_eq_some (h : f.chars = before ++ after) :
    f.line? (f.start + byteLength before) =
      some { number := 1 + before.count '\n'
             start := f.start + (byteLength before - byteLength (lastLine before))
             content := lastLine before ++ firstLine after } := by
  obtain ⟨hposition, hcut⟩ := splitAtByte?_position h
  rw [line?, hposition, hcut, Option.map_some, lineNumber_eq h]
  rfl

end SourceFile

/-! ### Files -/

namespace SourceFiles

/-- The files with these names and contents, added one after the other. -/
def ofList (entries : List (String × String)) : SourceFiles :=
  entries.foldl (fun s entry => s.add entry.1 entry.2) empty

/-- The files occupy ranges one behind the other, and the next file starts behind all of them. -/
structure Ordered (s : SourceFiles) : Prop where
  sorted : s.files.Pairwise fun f g => f.stop < g.start
  stop_lt : ∀ f ∈ s.files, f.stop < s.nextAddress

variable {s : SourceFiles} {f : SourceFile}

/-- There are no files to be out of order at first. -/
theorem ordered_empty : empty.Ordered where
  sorted := .nil
  stop_lt := nofun

/-- Adding a file keeps the files in order. -/
theorem Ordered.add (h : s.Ordered) (name content : String) : (s.add name content).Ordered where
  sorted := by
    refine List.pairwise_append.2 ⟨h.sorted, List.pairwise_singleton _ _, fun f hf g hg => ?_⟩
    rw [List.mem_singleton.1 hg]
    exact h.stop_lt f hf
  stop_lt := by
    intro f hf
    have hmoved : (s.add name content).nextAddress = (s.place name content).stop + 1 := rfl
    obtain hf | hf := List.mem_append.1 hf
    · have hlt := h.stop_lt f hf
      have hle : s.nextAddress ≤ (s.place name content).stop := Nat.le_add_right _ _
      omega
    · rw [List.mem_singleton.1 hf]
      omega

/-- The files of a session are in order. -/
theorem ordered_ofList (entries : List (String × String)) : (ofList entries).Ordered := by
  have hfold : ∀ (entries : List (String × String)) (s : SourceFiles), s.Ordered →
      (entries.foldl (fun s entry => s.add entry.1 entry.2) s).Ordered := by
    intro entries
    induction entries with
    | nil => exact fun _ h => h
    | cons entry entries ih => exact fun s h => ih _ (h.add _ _)
  exact hfold entries empty ordered_empty

/-- An address belongs to one file only. -/
theorem Ordered.eq_of_contains (h : s.Ordered) {g : SourceFile} (hf : f ∈ s.files)
    (hg : g ∈ s.files) {address : Nat} (hfa : f.contains address = true)
    (hga : g.contains address = true) : f = g := by
  simp only [SourceFile.contains, Bool.and_eq_true, decide_eq_true_eq] at hfa hga
  by_contra hne
  have : Std.Symm fun f g : SourceFile => f.stop < g.start ∨ g.stop < f.start := ⟨fun _ _ => Or.symm⟩
  have hpairwise : s.files.Pairwise fun f g => f.stop < g.start ∨ g.stop < f.start :=
    h.sorted.imp Or.inl
  have hdisjoint := hpairwise.forall hf hg hne
  omega

/-- A file is found again by any of its addresses. -/
theorem byAddress?_ofList {entries : List (String × String)} (hf : f ∈ (ofList entries).files)
    {address : Nat} (ha : f.contains address = true) :
    (ofList entries).byAddress? address = some f := by
  cases hfound : (ofList entries).byAddress? address with
  | none => exact absurd ha (by simpa using List.find?_eq_none.1 hfound f hf)
  | some g =>
    have hga : g.contains address = true :=
      List.find?_some (p := fun g : SourceFile => g.contains address) hfound
    rw [(ordered_ofList entries).eq_of_contains (List.mem_of_find?_eq_some hfound) hf hga ha]

end SourceFiles

/-! ### Marks -/

/-- The number of characters of `cs`, whose first byte is at `address`, of which all bytes lie in
    the range. -/
def Span.charCount (range : Span) : Nat → List Char → Nat
  | _, [] => 0
  | address, c :: cs =>
    (if range.start ≤ address ∧ address + c.utf8Size ≤ range.stop then 1 else 0) +
      charCount range (address + c.utf8Size) cs

namespace Span

open Text (byteLength)

/-- No character behind the range lies in it. -/
theorem charCount_of_stop_le {range : Span} {address : Nat} (h : range.stop ≤ address)
    (cs : List Char) : range.charCount address cs = 0 := by
  induction cs generalizing address with
  | nil => rfl
  | cons c cs ih =>
    have hc := c.utf8Size_pos
    rw [charCount, if_neg (by omega), ih (by omega)]

/-- The characters before the range do not count. -/
theorem charCount_append {range : Span} {address : Nat} {before : List Char}
    (h : address + byteLength before ≤ range.start) (cs : List Char) :
    range.charCount address (before ++ cs) = range.charCount (address + byteLength before) cs := by
  induction before generalizing address with
  | nil => rfl
  | cons c before ih =>
    rw [Text.byteLength_cons] at h ⊢
    have hc := c.utf8Size_pos
    rw [List.cons_append, charCount, if_neg (by omega), ih (by omega), Nat.zero_add, Nat.add_assoc]

end Span

namespace Highlight

open Text (byteLength)

/-- Up to a point there is a blank below every character. -/
theorem pointMarks_append (position : Nat) (head tail : List Char) :
    pointMarks (position + byteLength head) position (head ++ tail) =
      List.replicate head.length ' ' ++ ['^'] := by
  induction head generalizing position with
  | nil => cases tail <;> simp [pointMarks]
  | cons c head ih =>
    have hc := c.utf8Size_pos
    rw [Text.byteLength_cons, List.cons_append, pointMarks, if_neg (by omega), ← Nat.add_assoc, ih]
    rfl

/-- Up to a range there is a blank below every character. -/
theorem spanMarks_append {first last : Nat} (h : first ≤ last) (position : Nat)
    (head tail : List Char) (hfirst : position + byteLength head = first) :
    spanMarks first last position (head ++ tail) =
      List.replicate head.length ' ' ++ spanMarks first last first tail := by
  induction head generalizing position with
  | nil => rw [← hfirst]; rfl
  | cons c head ih =>
    have hc := c.utf8Size_pos
    rw [Text.byteLength_cons] at hfirst
    rw [List.cons_append, spanMarks, if_neg (by omega), if_neg (by omega), ih _ (by omega)]
    rfl

/-- Below a range there is a caret for each of its characters that are on the line. -/
theorem spanMarks_eq_replicate {first last base position : Nat} {tail marked rest : List Char}
    (htail : tail <+: marked ++ rest) (hfirst : first ≤ position)
    (hlast : last = position + byteLength marked) :
    spanMarks first last position tail = List.replicate
      (Span.charCount ⟨base + first, last - first⟩ (base + position) tail) '^' := by
  induction tail generalizing position marked with
  | nil => rfl
  | cons c tail ih =>
    -- the line goes on behind the range, or the next character is in it
    cases marked with
    | nil =>
      rw [Text.byteLength_nil] at hlast
      rw [spanMarks, if_pos (by omega), Span.charCount_of_stop_le (by simp only [Span.stop]; omega),
        List.replicate_zero]
    | cons d marked =>
      rw [List.cons_append, List.cons_prefix_cons] at htail
      obtain ⟨rfl, htail⟩ := htail
      have hc := c.utf8Size_pos
      rw [Text.byteLength_cons] at hlast
      rw [spanMarks, if_neg (by omega), if_pos hfirst, Span.charCount,
        if_pos (by simp only [Span.stop]; omega), ih htail (by omega) (by omega), Nat.add_comm 1,
        List.replicate_succ, Nat.add_assoc base]

variable {number start : Nat} {head tail : List Char}

/-- A point is marked by one caret, behind a blank for every character before it. -/
theorem marks_point : (point (start + byteLength head)).marks ⟨number, start, head ++ tail⟩ =
    List.replicate head.length ' ' ++ List.replicate 1 '^' := by
  rw [marks]
  simp only [Nat.add_sub_cancel_left]
  simpa using pointMarks_append 0 head tail

/-- A range that starts on a line is marked by one caret for each of its characters on that line,
    behind a blank for every character before it. -/
theorem marks_span {marked rest : List Char} {range : Span} (htail : tail <+: marked ++ rest)
    (hne : tail ≠ []) (hstart : range.start = start + byteLength head)
    (hlength : range.length = byteLength marked) :
    (span range).marks ⟨number, start, head ++ tail⟩ = List.replicate head.length ' ' ++
      List.replicate (range.charCount start (head ++ tail)) '^' := by
  have hfirst : range.start - start = byteLength head := by omega
  have hlast : range.stop - start = byteLength head + byteLength marked := by
    rw [Span.stop]
    omega
  have htailpos := Text.byteLength_pos hne
  simp only [marks, hfirst, hlast]
  rw [if_neg (by rw [Text.byteLength_append]; omega), List.append_nil,
    spanMarks_append (by omega) 0 head tail (by omega),
    spanMarks_eq_replicate htail (Nat.le_refl _) rfl,
    Span.charCount_append (Nat.le_of_eq hstart.symm)]
  have hrange : range = ⟨start + byteLength head,
      byteLength head + byteLength marked - byteLength head⟩ := by
    rw [Nat.add_sub_cancel_left, ← hstart, ← hlength]
  rw [← hrange]

end Highlight

end Rpal
