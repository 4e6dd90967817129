import Mathlib.Data.List.TakeWhile
import Isel.Source.Report

/-!
# The line shown in a report

The lines of a text are its segments between line ends (`List.splitOn`): a text without line ends
has one, and a line end at the very end is followed by an empty one.  The scan for the start of a
line passes whole lines one after the other (`lineStart_append`), so that what it finds is the
start of the segment with the number asked for, or of the last one (`splitOn_lineStart`).  What
is cut out of the text between that start and the end of the line is that segment
(`Sources.excerpt_segment`).
-/

namespace Isel.Source

/-! ## The start of a line -/

section Start

variable {place start : Nat} {line : Int} {front rest content : List Int32}

theorem scanStart_of_le (hline : line ≤ 1) : scanStart place start line content = start := by
  cases content with
  | nil => rfl
  | cons r rest => rw [scanStart, if_pos hline]

theorem scanStart_append (hline : 1 < line) (hfront : lineFeed ∉ front) :
    scanStart place start line (front ++ rest) =
      scanStart (place + front.length) start line rest := by
  induction front generalizing place with
  | nil => rfl
  | cons r front ih =>
    obtain ⟨hr, hfront⟩ := List.ne_and_not_mem_of_not_mem_cons hfront
    rw [List.cons_append, scanStart, if_neg (by omega), if_neg (Ne.symm hr), ih hfront,
      List.length_cons, Nat.add_right_comm, Nat.add_assoc]

theorem scanStart_add (n place start : Nat) (line : Int) (content : List Int32) :
    scanStart (n + place) (n + start) line content = n + scanStart place start line content := by
  induction content generalizing place start line with
  | nil => rfl
  | cons r content ih =>
    rw [scanStart, scanStart]
    split
    · rfl
    · split
      · exact ih (place + 1) (place + 1) (line - 1)
      · exact ih (place + 1) start line

theorem lineStart_of_le (hline : line ≤ 1) : lineStart content line = 0 := scanStart_of_le hline

theorem lineStart_of_notMem (hcontent : lineFeed ∉ content) : lineStart content line = 0 := by
  by_cases hline : line ≤ 1
  · exact lineStart_of_le hline
  · rw [lineStart, ← List.append_nil content, scanStart_append (by omega) hcontent, scanStart]

/-- **A line is passed as a whole**: the next one is looked for behind its line end. -/
theorem lineStart_append (hline : 1 < line) (hfront : lineFeed ∉ front) :
    lineStart (front ++ lineFeed :: rest) line =
      (front.length + 1) + lineStart rest (line - 1) := by
  rw [lineStart, scanStart_append hline hfront, scanStart, if_neg (by omega), if_pos rfl,
    Nat.zero_add]
  exact scanStart_add (front.length + 1) 0 0 (line - 1) rest

end Start

/-! ## Segments -/

theorem ne_lineFeed_of_notMem {front : List Int32} (hfront : lineFeed ∉ front) :
    ∀ r ∈ front, (r != lineFeed) = true := by
  intro r hr
  simpa using ne_of_mem_of_not_mem hr hfront

/-- **The scan finds the segment with the number asked for**, the first for a number below one and
the last for one that is too large. -/
theorem splitOn_lineStart (content : List Int32) (line : Int) :
    lineStart content line ≤ content.length ∧
    (content.splitOn lineFeed)[(min (max line 1) (content.splitOn lineFeed).length).toNat - 1]? =
      some ((content.drop (lineStart content line)).takeWhile (· != lineFeed)) := by
  induction hlength : content.length using Nat.strong_induction_on generalizing content line with
  | _ n ih =>
  by_cases hmem : lineFeed ∈ content
  · obtain ⟨front, rest, rfl, hfront⟩ := List.eq_append_cons_of_mem hmem
    rw [List.splitOn_append_cons_self_of_not_mem hfront, List.length_cons]
    by_cases hline : line ≤ 1
    · rw [lineStart_of_le hline, List.drop_zero,
        List.takeWhile_append_of_pos (ne_lineFeed_of_notMem hfront)]
      have hindex : (min (max line 1) (((rest.splitOn lineFeed).length + 1 : Nat) : Int)).toNat - 1
          = 0 := by omega
      rw [hindex]
      simp
    · have hshort : rest.length < n := by
        rw [← hlength, List.length_append, List.length_cons]
        omega
      obtain ⟨hle, hget⟩ := ih rest.length hshort rest (line - 1) rfl
      have hne : 0 < (rest.splitOn lineFeed).length :=
        List.length_pos_iff.mpr (List.splitOn_ne_nil lineFeed rest)
      -- One segment is passed, and one less is to be counted.
      have hindex : (min (max line 1) (((rest.splitOn lineFeed).length + 1 : Nat) : Int)).toNat - 1
          = (min (max (line - 1) 1) ((rest.splitOn lineFeed).length : Int)).toNat - 1 + 1 := by
        omega
      rw [lineStart_append (by omega) hfront, hindex, List.getElem?_cons_succ, hget]
      refine ⟨?_, ?_⟩
      · rw [← hlength, List.length_append, List.length_cons]
        omega
      · rw [Nat.add_assoc, ← List.drop_drop, List.drop_left, Nat.add_comm 1, List.drop_succ_cons]
  · have hsplit : content.splitOn lineFeed = [content] := List.splitOn_eq_singleton hmem
    have hindex : (min (max line 1) (([content].length : Nat) : Int)).toNat - 1 = 0 := by
      rw [List.length_singleton]
      omega
    rw [hsplit, hindex, lineStart_of_notMem hmem, List.drop_zero,
      List.takeWhile_eq_self_iff.mpr (ne_lineFeed_of_notMem hmem)]
    exact ⟨Nat.zero_le _, rfl⟩

/-! ## The end of a line -/

theorem idxOf?_append {front rest : List Int32} (hfront : lineFeed ∉ front) :
    (front ++ lineFeed :: rest).idxOf? lineFeed = some front.length := by
  induction front with
  | nil => rw [List.nil_append, List.idxOf?_cons, if_pos (beq_self_eq_true _), List.length_nil]
  | cons r front ih =>
    obtain ⟨hr, hfront⟩ := List.ne_and_not_mem_of_not_mem_cons hfront
    rw [List.cons_append, List.idxOf?_cons, if_neg (by simpa using Ne.symm hr), ih hfront]
    rfl

/-- The end of a line lies behind all characters up to the next line end. -/
theorem lineEnd_eq {content : List Int32} {start : Nat} (hstart : start ≤ content.length) :
    lineEnd content start =
      start + ((content.drop start).takeWhile (· != lineFeed)).length := by
  have hlength : (content.drop start).length = content.length - start := List.length_drop
  rw [lineEnd]
  generalize content.drop start = text at hlength ⊢
  by_cases hmem : lineFeed ∈ text
  · obtain ⟨front, rest, rfl, hfront⟩ := List.eq_append_cons_of_mem hmem
    rw [idxOf?_append hfront, List.takeWhile_append_of_pos (ne_lineFeed_of_notMem hfront)]
    simp
  · rw [List.idxOf?_eq_none_iff.mpr hmem,
      List.takeWhile_eq_self_iff.mpr (ne_lineFeed_of_notMem hmem), hlength]
    exact (Nat.add_sub_cancel' hstart).symm

/-- What is cut out of a text are the characters from the start up to the next line end. -/
theorem extract_lineEnd {content : List Int32} {start : Nat} (hstart : start ≤ content.length) :
    content.extract start (lineEnd content start) =
      (content.drop start).takeWhile (· != lineFeed) := by
  rw [List.extract_eq_take_drop, lineEnd_eq hstart, Nat.add_sub_cancel_left]
  exact (List.prefix_iff_eq_take.mp (List.takeWhile_prefix _)).symm

theorem lineEnd_le {content : List Int32} {start : Nat} (hstart : start ≤ content.length) :
    lineEnd content start ≤ content.length := by
  have hprefix := (List.takeWhile_prefix (l := content.drop start) (· != lineFeed)).length_le
  rw [List.length_drop] at hprefix
  rw [lineEnd_eq hstart]
  omega

/-! ## The excerpt -/

namespace Sources

theorem file?_eq_some {s : Sources} {pos : Position} {file : File} (hpos : 0 ≤ pos.file)
    (hfile : s.files[pos.file.toNat]? = some file) : s.file? pos = some file := by
  rw [file?, if_neg (by omega), hfile]

/-- **A report shows the right line.**  The two scans give places of the text in order, between
them stands the segment with the number of the line, counted from one and up to the last one, and
below it a caret stands under the column with a tilde for every further character. -/
theorem excerpt_segment (s : Sources) (pos : Position) (file : File) (hpos : 0 ≤ pos.file)
    (hfile : s.files[pos.file.toNat]? = some file) (hline : pos.line ≠ 0) :
    let start := lineStart file.content pos.line
    let stop := lineEnd file.content start
    let segments := file.content.splitOn lineFeed
    start ≤ stop ∧ stop ≤ file.content.length ∧
    segments[(min (max pos.line 1) segments.length).toNat - 1]? =
      some (file.content.extract start stop) ∧
    s.excerpt pos =
      "  " ++ shown (file.content.extract start stop) ++ "\n" ++
      "  " ++ String.ofList (List.replicate (max pos.column 1 - 1).toNat ' ') ++
        s.paint "32" (String.ofList ('^' :: List.replicate (max pos.length 1 - 1).toNat '~')) ++
        "\n" := by
  intro start stop segments
  obtain ⟨hstart, hsegment⟩ := splitOn_lineStart file.content pos.line
  refine ⟨?_, lineEnd_le hstart, ?_, ?_⟩
  · rw [show stop = _ from lineEnd_eq hstart]
    exact Nat.le_add_right ..
  · rw [extract_lineEnd hstart]
    exact hsegment
  · have hcount : ∀ n : Int, n.toNat - 1 = (max n 1 - 1).toNat := by
      intro n
      omega
    simp only [excerpt, file?_eq_some hpos hfile, if_neg hline, caretIndent, caret, hcount]
    rfl

/-- A file of three lines, the second of them empty. -/
def threeLines : File := ⟨"a.tos", [97, 98, 10, 10, 99, 100]⟩

/-- A line number behind the last line shows the last line, and a column in front of the first one
the first column. -/
theorem excerpt_threeLines :
    let s : Sources := { files := [threeLines] }
    let pos : Position := ⟨0, 9, -1, 2⟩
    s.files[pos.file.toNat]? = some threeLines ∧ pos.line ≠ 0 ∧
    lineStart threeLines.content 9 = 4 ∧ lineEnd threeLines.content 4 = 6 ∧
    (threeLines.content.splitOn lineFeed)[2]? = some [99, 100] ∧
    s.excerpt pos = "  cd\n  ^~\n" := by
  intro s pos
  obtain ⟨-, -, hsegment, hexcerpt⟩ :=
    excerpt_segment s pos threeLines (by decide) rfl (by decide)
  exact ⟨rfl, by decide, by decide, by decide, hsegment, hexcerpt.trans (by decide)⟩

end Sources

end Isel.Source
