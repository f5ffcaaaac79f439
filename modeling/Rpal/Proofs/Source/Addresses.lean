import Rpal.Proofs.Source.Lines

/-!
# What an address belongs to

The files of a session are laid out one behind the other, and so are the lines of a file. Each file
has an address for the end of its text, and each line one for the newline or the end of the text
behind it. An address therefore belongs to one file and to one line of it, even where a file or a line
is empty.

## Key results

- `SourceFiles.files_ofList`: the files of a session are those that were added
- `Text.OnLine.index_eq`: a position is on one line only
- `SourceFile.line?_eq_onLine`: the line that is found is the one that the position is on
- `SourceFiles.address_resolves`: all of this for every address in use
-/

namespace Rpal

/-! ### Positions on lines -/

namespace Text

/-- The position at which the line with index `i` starts, where every line has one byte more for what
    is behind it. -/
def lineStart (lines : List (List Char)) (i : Nat) : Nat :=
  ((lines.take i).map fun l => byteLength l + 1).sum

/-- The position is among the bytes of the line with index `i` or directly behind them, where a
    newline or the end of the text is. -/
def OnLine (lines : List (List Char)) (i position : Nat) : Prop :=
  ∃ content, lines[i]? = some content ∧ lineStart lines i ≤ position ∧
    position ≤ lineStart lines i + byteLength content

/-- A line starts behind the newline that ends the line before. -/
theorem lineStart_succ {lines : List (List Char)} {i : Nat} {content : List Char}
    (h : lines[i]? = some content) :
    lineStart lines (i + 1) = lineStart lines i + byteLength content + 1 := by
  simp [lineStart, List.take_add_one, h, Nat.add_assoc]

/-- Later lines start later. -/
theorem lineStart_le {lines : List (List Char)} {i j : Nat} (h : i ≤ j) :
    lineStart lines i ≤ lineStart lines j := by
  obtain ⟨n, rfl⟩ := Nat.exists_eq_add_of_le h
  simp [lineStart, List.take_add]

/-- A position is on one line only. -/
theorem OnLine.index_eq {lines : List (List Char)} {i j position : Nat}
    (hi : OnLine lines i position) (hj : OnLine lines j position) : i = j := by
  -- a line that comes later starts behind what follows an earlier one
  have hbehind {i j : Nat} (hi : OnLine lines i position) (hj : OnLine lines j position) :
      ¬ i < j := by
    intro hlt
    obtain ⟨content, hcontent, -, hle⟩ := hi
    obtain ⟨-, -, hge, -⟩ := hj
    have hnext := lineStart_succ hcontent
    have hlater : lineStart lines (i + 1) ≤ lineStart lines j := lineStart_le hlt
    omega
  have hij := hbehind hi hj
  have hji := hbehind hj hi
  omega

/-- The lines of a text take up one byte more than the text, as there is no newline behind the last
    line. -/
theorem sum_splitOn (cs : List Char) :
    ((cs.splitOn '\n').map fun l => byteLength l + 1).sum = byteLength cs + 1 := by
  induction cs with
  | nil => rfl
  | cons c cs ih =>
    rw [List.splitOn_cons_eq_if_modifyHead]
    split
    · next hc =>
      have hsize : c.utf8Size = 1 := by
        rw [beq_iff_eq.1 hc]
        rfl
      simp only [List.map_cons, List.sum_cons, ih, byteLength_cons, byteLength_nil, hsize]
      omega
    · obtain ⟨line, lines, hlines⟩ := List.exists_cons_of_ne_nil (List.splitOn_ne_nil '\n' cs)
      rw [hlines, List.map_cons, List.sum_cons] at ih
      simp only [hlines, List.modifyHead_cons, List.map_cons, List.sum_cons, byteLength_cons]
      omega

/-- The line in which a text is cut starts where what stands on it before the cut starts. -/
theorem lineStart_splitOn (before after : List Char) :
    lineStart ((before ++ after).splitOn '\n') (before.count '\n') + byteLength (lastLine before) =
      byteLength before := by
  obtain h | ⟨earlier, h⟩ := lastLine_eq_or before
  · have hcount : before.count '\n' = 0 := List.count_eq_zero.2 (h ▸ newline_notMem_lastLine before)
    rw [hcount, h]
    simp [lineStart]
  · obtain ⟨hlines, hnumber⟩ := splitOn_append_of_eq h after
    rw [lineStart, hlines, hnumber, List.take_left, sum_splitOn]
    conv_rhs => rw [h]
    rw [byteLength_append, byteLength_cons]
    have hsize : '\n'.utf8Size = 1 := rfl
    omega

/-- There is no newline in the first line. -/
theorem newline_notMem_firstLine (cs : List Char) : '\n' ∉ firstLine cs := by
  intro h
  simpa using List.mem_takeWhile_imp h

end Text

namespace SourceFile

open Text (byteLength OnLine lineStart lastLine firstLine)

/-- The line found at an address between two characters is the line that the address is on. -/
theorem line?_eq_onLine {f : SourceFile} {before after : List Char}
    (h : f.chars = before ++ after) : ∃ i content, (f.chars.splitOn '\n')[i]? = some content ∧
      OnLine (f.chars.splitOn '\n') i (byteLength before) ∧ '\n' ∉ content ∧
      f.line? (f.start + byteLength before) = some
        { number := i + 1, start := f.start + lineStart (f.chars.splitOn '\n') i, content } := by
  have hstart := Text.lineStart_splitOn before after
  have hcontent := Text.getElem?_splitOn before after
  rw [← h] at hstart hcontent
  refine ⟨before.count '\n', lastLine before ++ firstLine after, hcontent, ?_, ?_, ?_⟩
  · refine ⟨_, hcontent, by omega, ?_⟩
    rw [Text.byteLength_append]
    omega
  · rw [List.mem_append, not_or]
    exact ⟨Text.newline_notMem_lastLine before, Text.newline_notMem_firstLine after⟩
  · rw [line?_eq_some h, Nat.add_comm 1, ← hstart, Nat.add_sub_cancel]

end SourceFile

/-! ### Addresses of a session -/

namespace SourceFiles

open Text (byteLength OnLine lineStart)

variable {entries : List (String × String)}

/-- The last file of a session is added to the files before it. -/
theorem ofList_concat (entries : List (String × String)) (entry : String × String) :
    ofList (entries ++ [entry]) = (ofList entries).add entry.1 entry.2 := by
  rw [ofList, List.foldl_append]
  rfl

/-- The files of a session are those that were added, in the same order. -/
theorem files_ofList (entries : List (String × String)) :
    (ofList entries).files.map (fun f => (f.name, f.content)) = entries := by
  induction entries using List.reverseRecOn with
  | nil => rfl
  | append_singleton entries entry ih =>
    rw [ofList_concat, add, List.map_append, ih]
    rfl

/-- The next file starts behind all bytes of the files and one more for each. -/
theorem nextAddress_ofList (entries : List (String × String)) :
    (ofList entries).nextAddress = (entries.map fun e => byteLength e.2.toList + 1).sum := by
  induction entries using List.reverseRecOn with
  | nil => rfl
  | append_singleton entries entry ih =>
    rw [ofList_concat, List.map_append, List.sum_append, ← ih, List.map_singleton,
      List.sum_singleton, add]

/-- As long as the files fit into the addresses, their ranges follow each other without overlap. Any
    address in the range of a file, its end included, leads to that file; if it is between two
    characters, it leads to the one line of the file that has it among its bytes or directly behind
    them. -/
theorem address_resolves
    (h : (entries.map fun e => byteLength e.2.toList + 1).sum < 2 ^ 32) :
    (ofList entries).files.map (fun f => (f.name, f.content)) = entries ∧
    (ofList entries).files.Pairwise (fun f g => f.stop < g.start) ∧
    ∀ f ∈ (ofList entries).files, f.stop < 2 ^ 32 ∧ ∀ address, f.contains address = true →
      (ofList entries).byAddress? address = some f ∧
      ∀ before after, f.chars = before ++ after → address = f.start + byteLength before →
        ∃ i content, (f.chars.splitOn '\n')[i]? = some content ∧
          OnLine (f.chars.splitOn '\n') i (address - f.start) ∧
          (∀ j, OnLine (f.chars.splitOn '\n') j (address - f.start) → j = i) ∧
          '\n' ∉ content ∧
          f.line? address = some
            { number := i + 1, start := f.start + lineStart (f.chars.splitOn '\n') i, content } := by
  have hordered := ordered_ofList entries
  refine ⟨files_ofList entries, hordered.sorted, fun f hf => ⟨?_, fun address ha => ?_⟩⟩
  · -- a file ends before the next free address, which is still in range
    have hlast := hordered.stop_lt f hf
    rw [nextAddress_ofList] at hlast
    omega
  · refine ⟨byAddress?_ofList hf ha, fun before after htext haddress => ?_⟩
    obtain ⟨i, content, hcontent, hline, hnewline, hfound⟩ := SourceFile.line?_eq_onLine htext
    have hposition : address - f.start = byteLength before := by omega
    rw [hposition, haddress]
    exact ⟨i, content, hcontent, hline, fun j hj => hj.index_eq hline, hnewline, hfound⟩

/-- The newline of a file that comes with the same name and text twice, with an empty file of that name
    in between. -/
theorem address_resolves_repeated :
    let entries := [("a", "Ä\n"), ("a", ""), ("a", "Ä\n")]
    let f : SourceFile := { name := "a", start := 5, content := "Ä\n" }
    (entries.map fun e => byteLength e.2.toList + 1).sum < 2 ^ 32 ∧
      f ∈ (ofList entries).files ∧ (ofList entries).byAddress? 7 = some f ∧
      f.line? 7 = some { number := 1, start := 5, content := ['Ä'] } := by
  intro entries f
  have htotal : (entries.map fun e => byteLength e.2.toList + 1).sum < 2 ^ 32 := by decide
  have hf : f ∈ (ofList entries).files := by decide
  obtain ⟨hfile, hline⟩ := ((address_resolves htotal).2.2 f hf).2 7 (by decide)
  obtain ⟨i, content, hcontent, -, hunique, -, hfound⟩ := hline ['Ä'] ['\n'] (by decide) rfl
  have hfirst : (f.chars.splitOn '\n')[0]? = some ['Ä'] := by decide +kernel
  -- the line is the first, since the newline is directly behind it
  obtain rfl : 0 = i := hunique 0 ⟨['Ä'], hfirst, by decide, by decide⟩
  obtain rfl : ['Ä'] = content := Option.some.inj (hfirst.symm.trans hcontent)
  exact ⟨htotal, hf, hfile, hfound⟩

end SourceFiles

end Rpal
