/-
  Calculator/Proofs/Location.lean
  ===============================
  **A location is its offset.**  The text before an offset ends in the part of a
  line that is already read, and the text after it starts with the rest of that
  line.  So the two together are one of the lines of the source, as many line feeds
  come before it as lines, and the characters of those lines, their line feeds and
  the part that is read make up the offset again.

  In the text of a location the margin before the line and the blanks before the
  mark are of one length, the column apart, whatever the number of the line is.
  Neither has a line feed, so the mark stands under the character at the offset.
-/
import Calculator.Location
import Mathlib.Data.List.TakeWhile

namespace Calculator.Location

/-- The lines of a text.  Only a line feed ends a line. -/
def linesOf (text : List Char) : List (List Char) := text.splitOn '\n'

/-- The offset, brought into the range of the source. -/
def clamped (source : String) (offset : Int) : Nat :=
  (max 0 (min offset source.length)).toNat

/-- The number of characters of some lines, each with its line feed. -/
def spanOf : List (List Char) → Nat
  | [] => 0
  | line :: lines => line.length + 1 + spanOf lines

/-- The number of characters before a column of a line. -/
def charsBefore (lines : List (List Char)) (line column : Nat) : Nat :=
  spanOf (lines.take (line - 1)) + (column - 1)

/-! ### The lines of a text -/

theorem linesOf_cons (c : Char) (text : List Char) :
    ∃ line rest, linesOf text = line :: rest ∧
      linesOf (c :: text) = if c = '\n' then [] :: line :: rest else (c :: line) :: rest := by
  obtain ⟨line, rest, hlines⟩ := List.exists_cons_of_ne_nil (List.splitOn_ne_nil '\n' text)
  refine ⟨line, rest, hlines, ?_⟩
  rw [linesOf, List.splitOn_cons_eq_if_modifyHead, hlines]
  by_cases hc : c = '\n'
  · simp [hc]
  · simp [hc]

theorem length_linesOf (text : List Char) : (linesOf text).length = text.count '\n' + 1 := by
  induction text with
  | nil => rfl
  | cons c text ih =>
    obtain ⟨line, rest, hlines, hcons⟩ := linesOf_cons c text
    rw [hlines, List.length_cons] at ih
    rw [hcons]
    by_cases hc : c = '\n'
    · simp [hc, ih]
    · simp [hc, ih]

theorem spanOf_linesOf (text : List Char) : spanOf (linesOf text) = text.length + 1 := by
  induction text with
  | nil => rfl
  | cons c text ih =>
    obtain ⟨line, rest, hlines, hcons⟩ := linesOf_cons c text
    rw [hlines, spanOf] at ih
    rw [hcons, List.length_cons]
    by_cases hc : c = '\n'
    · rw [if_pos hc, spanOf, spanOf, List.length_nil]
      omega
    · rw [if_neg hc, spanOf, List.length_cons]
      omega

theorem takeWhile_cases (text : List Char) :
    ('\n' ∉ text ∧ text.takeWhile (· ≠ '\n') = text) ∨
      ∃ line rest, text = line ++ '\n' :: rest ∧ '\n' ∉ line ∧
        text.takeWhile (· ≠ '\n') = line := by
  have hall {line : List Char} (hline : '\n' ∉ line) :
      ∀ c ∈ line, decide (c ≠ '\n') = true := by
    intro c hc
    exact decide_eq_true fun heq => hline (heq ▸ hc)
  by_cases h : '\n' ∈ text
  · obtain ⟨line, rest, rfl, hline⟩ := List.eq_append_cons_of_mem h
    right
    refine ⟨line, rest, rfl, hline, ?_⟩
    rw [List.takeWhile_append_of_pos (hall hline)]
    simp
  · left
    exact ⟨h, List.takeWhile_eq_self_iff.mpr (hall h)⟩

theorem lastLine_cases (text : List Char) :
    ('\n' ∉ text ∧ lastLine text = text) ∨
      ∃ before start, text = before ++ '\n' :: start ∧ '\n' ∉ start ∧ lastLine text = start := by
  rcases takeWhile_cases text.reverse with ⟨hnone, htake⟩ | ⟨start, before, htext, hstart, htake⟩
  · left
    rw [List.mem_reverse] at hnone
    exact ⟨hnone, by rw [lastLine, htake, List.reverse_reverse]⟩
  · right
    refine ⟨before.reverse, start.reverse, ?_, ?_, ?_⟩
    · rw [← List.reverse_reverse text, htext]
      simp
    · rwa [List.mem_reverse]
    · rw [lastLine, htake]

theorem linesOf_start {start : List Char} (h : '\n' ∉ start) (after : List Char) :
    ∃ later, linesOf (start ++ after) = (start ++ after.takeWhile (· ≠ '\n')) :: later := by
  rcases takeWhile_cases after with ⟨hnone, htake⟩ | ⟨line, rest, rfl, hline, htake⟩
  · refine ⟨[], ?_⟩
    rw [htake]
    exact List.splitOn_eq_singleton (by simp [h, hnone])
  · refine ⟨linesOf rest, ?_⟩
    rw [htake, ← List.append_assoc]
    exact List.splitOn_append_cons_self_of_not_mem (by simp [h, hline]) rest

/-- The line around a place of a text, and what comes before it. -/
theorem exists_lines (before after : List Char) :
    ∃ earlier later, linesOf (before ++ after) =
        earlier ++ (lastLine before ++ after.takeWhile (· ≠ '\n')) :: later ∧
      earlier.length = before.count '\n' ∧
      spanOf earlier + (lastLine before).length = before.length := by
  rcases lastLine_cases before with ⟨hnone, hlast⟩ | ⟨finished, start, rfl, hstart, hlast⟩
  · obtain ⟨later, hlines⟩ := linesOf_start hnone after
    refine ⟨[], later, ?_, ?_, ?_⟩
    · rw [hlines, hlast]
      rfl
    · exact (List.count_eq_zero.mpr hnone).symm
    · rw [hlast]
      exact Nat.zero_add _
  · obtain ⟨later, hlines⟩ := linesOf_start hstart after
    refine ⟨linesOf finished, later, ?_, ?_, ?_⟩
    · rw [List.append_assoc, List.cons_append, hlast, ← hlines]
      exact List.splitOn_append_cons_self finished (start ++ after)
    · rw [length_linesOf, List.count_append, List.count_cons_self, List.count_eq_zero.mpr hstart]
    · rw [spanOf_linesOf, hlast, List.length_append, List.length_cons]
      omega

/-! ### The line of an offset -/

theorem not_mem_takeWhile (text : List Char) : '\n' ∉ text.takeWhile (· ≠ '\n') := by
  rcases takeWhile_cases text with ⟨hnone, htake⟩ | ⟨line, rest, -, hline, htake⟩
  · rwa [htake]
  · rwa [htake]

theorem not_mem_lastLine (text : List Char) : '\n' ∉ lastLine text := by
  rcases lastLine_cases text with ⟨hnone, hlast⟩ | ⟨before, start, -, hstart, hlast⟩
  · rwa [hlast]
  · rwa [hlast]

/-- The location is that of the cut of the source at the offset. -/
theorem exists_cut (source : String) (offset : Int) :
    ∃ before after, source.toList = before ++ after ∧ before.length = clamped source offset ∧
      ofOffset source offset = ⟨(before.count '\n' + 1 : ℕ), ((lastLine before).length + 1 : ℕ),
        some (String.ofList (lastLine before ++ after.takeWhile (· ≠ '\n')))⟩ := by
  refine ⟨source.toList.take offset.toNat, source.toList.drop offset.toNat,
    (List.take_append_drop _ _).symm, ?_, rfl⟩
  rw [List.length_take, String.length_toList, clamped]
  omega

/-- A line and a column of a source that stand for an offset, and the text of the line. -/
structure IsPlace (source : String) (i line column : Nat) (snippet : List Char) : Prop where
  line_pos : 1 ≤ line
  line_le : line ≤ (linesOf source.toList).length
  line_eq : (linesOf source.toList)[line - 1]? = some snippet
  column_pos : 1 ≤ column
  column_le : column ≤ snippet.length + 1
  offset_eq : charsBefore (linesOf source.toList) line column = i

/-- The place of an offset.  Its character is in the line, unless it is a line feed. -/
theorem exists_place (source : String) (offset : Int) :
    ∃ (line column : ℕ) (snippet : List Char),
      ofOffset source offset = ⟨line, column, some (String.ofList snippet)⟩ ∧
      IsPlace source (clamped source offset) line column snippet ∧ '\n' ∉ snippet ∧
      ∀ c, source.toList[clamped source offset]? = some c → c ≠ '\n' →
        snippet[column - 1]? = some c := by
  obtain ⟨before, after, hsource, hlength, hlocation⟩ := exists_cut source offset
  obtain ⟨earlier, later, hlines, hnumber, hspan⟩ := exists_lines before after
  refine ⟨_, _, _, hlocation, ?_, ?_, ?_⟩
  · rw [← hnumber]
    constructor
    · omega
    · rw [hsource, hlines]
      simp
    · rw [hsource, hlines]
      simp
    · omega
    · simp
    · rw [hsource, hlines, charsBefore, Nat.add_sub_cancel, Nat.add_sub_cancel, List.take_left,
        hspan, hlength]
  · rw [List.mem_append, not_or]
    exact ⟨not_mem_lastLine before, not_mem_takeWhile after⟩
  · intro c hc hne
    rw [hsource, ← hlength, List.getElem?_append_right (Nat.le_refl _), Nat.sub_self] at hc
    rw [Nat.add_sub_cancel, List.getElem?_append_right (Nat.le_refl _), Nat.sub_self]
    cases after with
    | nil => cases hc
    | cons d after =>
      obtain rfl : d = c := Option.some.inj hc
      simp [hne]

/-! ### The marked line -/

theorem toList_toString (n : ℕ) : (toString (n : Int)).toList = Nat.toDigits 10 n := by
  have htext : toString (n : Int) = String.ofList (Nat.toDigits 10 n) := rfl
  rw [htext, String.toList_ofList]

theorem not_mem_toString (n : ℕ) : '\n' ∉ (toString (n : Int)).toList := by
  rw [toList_toString]
  intro hmem
  have hdigit := Nat.isDigit_of_mem_toDigits (by decide) (by decide) hmem
  cases hdigit

theorem not_mem_margin (line : ℕ) : '\n' ∉ (margin line).toList := by
  simp only [margin, String.toList_append, String.toList_ofList, List.mem_append,
    List.mem_replicate, not_or]
  refine ⟨⟨?_, not_mem_toString line⟩, ?_⟩
  · rintro ⟨-, heq⟩
    cases heq
  · decide

theorem not_mem_marker (indent : ℕ) : '\n' ∉ List.replicate indent ' ' ++ "^^^".toList := by
  rw [List.mem_append, not_or]
  refine ⟨?_, by decide⟩
  intro hmem
  exact absurd (List.eq_of_mem_replicate hmem) (by decide)

theorem toList_text {line column : ℕ} (snippet : List Char) (hcolumn : 1 ≤ column) :
    (text ⟨line, column, some (String.ofList snippet)⟩).toList =
      (toString (line : Int) ++ ":" ++ toString (column : Int)).toList ++ '\n' ::
        ((margin line).toList ++ snippet ++ '\n' ::
          (List.replicate ((margin line).length + (column - 1)) ' ' ++ "^^^".toList)) := by
  have hindent : ((margin line).length + (column : Int) - 1).toNat =
      (margin line).length + (column - 1) := by omega
  have hparts : text ⟨line, column, some (String.ofList snippet)⟩ =
      toString (line : Int) ++ ":" ++ toString (column : Int) ++ "\n" ++
        marked line column (String.ofList snippet) := rfl
  have hfeed : "\n".toList = ['\n'] := by decide
  rw [hparts, marked, hindent]
  simp only [String.toList_append, String.toList_ofList, hfeed, List.append_assoc,
    List.cons_append, List.nil_append]

/-- The text of a location is its place, its line and the mark. -/
theorem linesOf_text {line column : ℕ} {snippet : List Char} (hcolumn : 1 ≤ column)
    (hsnippet : '\n' ∉ snippet) :
    linesOf (text ⟨line, column, some (String.ofList snippet)⟩).toList =
      [(toString (line : Int) ++ ":" ++ toString (column : Int)).toList,
        (margin line).toList ++ snippet,
        List.replicate ((margin line).length + (column - 1)) ' ' ++ "^^^".toList] := by
  have hplace : '\n' ∉ (toString (line : Int) ++ ":" ++ toString (column : Int)).toList := by
    simp only [String.toList_append, List.mem_append, not_or]
    exact ⟨⟨not_mem_toString line, by decide⟩, not_mem_toString column⟩
  have hmarked : '\n' ∉ (margin line).toList ++ snippet := by
    rw [List.mem_append, not_or]
    exact ⟨not_mem_margin line, hsnippet⟩
  rw [toList_text snippet hcolumn, linesOf, List.splitOn_append_cons_self_of_not_mem hplace,
    List.splitOn_append_cons_self_of_not_mem hmarked, List.splitOn_eq_singleton (not_mem_marker _)]

theorem idxOf_mark (indent : ℕ) : (List.replicate indent ' ' ++ "^^^".toList).idxOf '^' = indent := by
  simp [List.idxOf_append]

/-- **A location is its offset, and its mark is aligned.**  The line and the column of an offset
are in the range of the source, the snippet is that line, and the lines before it with the
columns before its own make up the offset, which the line and the column therefore determine.
The text of the location marks the character at the offset. -/
theorem ofOffset_inverts (source : String) (offset : Int) :
    ∃ (line column : ℕ) (snippet : List Char),
      ofOffset source offset = ⟨line, column, some (String.ofList snippet)⟩ ∧
      IsPlace source (clamped source offset) line column snippet ∧
      (∀ other, (ofOffset source other).line = line → (ofOffset source other).column = column →
        clamped source other = clamped source offset) ∧
      ∃ place marked marker,
        linesOf (ofOffset source offset).text.toList = [place, marked, marker] ∧
        place = (toString line ++ ":" ++ toString column).toList ∧
        marked = (margin line).toList ++ snippet ∧
        marker = List.replicate ((margin line).length + (column - 1)) ' ' ++ "^^^".toList ∧
        ∀ c, source.toList[clamped source offset]? = some c → c ≠ '\n' →
          marked[marker.idxOf '^']? = some c := by
  obtain ⟨line, column, snippet, hlocation, hplace, hsnippet, hunder⟩ := exists_place source offset
  refine ⟨line, column, snippet, hlocation, hplace, ?_, _, _, _, ?_, rfl, rfl, rfl, ?_⟩
  · intro other hline hcolumn
    obtain ⟨line', column', snippet', hlocation', hplace', -⟩ := exists_place source other
    rw [hlocation'] at hline hcolumn
    obtain rfl : line' = line := Int.ofNat.inj hline
    obtain rfl : column' = column := Int.ofNat.inj hcolumn
    exact hplace'.offset_eq.symm.trans hplace.offset_eq
  · rw [hlocation]
    exact linesOf_text hplace.column_pos hsnippet
  · intro c hc hne
    rw [idxOf_mark, ← String.length_toList, List.getElem?_append_right (Nat.le_add_right _ _),
      Nat.add_sub_cancel_left]
    exact hunder c hc hne

/-- An error in the second line of a source is marked there. -/
theorem ofOffset_secondLine :
    ofOffset "1 +\n2 $ 3" 6 = ⟨2, 3, some "2 $ 3"⟩ ∧
      (ofOffset "1 +\n2 $ 3" 6).text = "2:3\n   2 | 2 $ 3\n         ^^^" ∧
      clamped "1 +\n2 $ 3" 6 = 6 ∧
      ∃ place marked marker,
        linesOf (ofOffset "1 +\n2 $ 3" 6).text.toList = [place, marked, marker] ∧
        marked[marker.idxOf '^']? = some '$' := by
  have hoffset : clamped "1 +\n2 $ 3" 6 = 6 := by decide
  have hlocation : ofOffset "1 +\n2 $ 3" 6 = ⟨2, 3, some "2 $ 3"⟩ := by decide +kernel
  have htext : (ofOffset "1 +\n2 $ 3" 6).text = "2:3\n   2 | 2 $ 3\n         ^^^" := by
    decide +kernel
  have hchar : "1 +\n2 $ 3".toList[clamped "1 +\n2 $ 3" 6]? = some '$' := by decide +kernel
  obtain ⟨line, column, snippet, -, -, -, place, marked, marker, hlines, -, -, -, hunder⟩ :=
    ofOffset_inverts "1 +\n2 $ 3" 6
  exact ⟨hlocation, htext, hoffset, place, marked, marker, hlines, hunder '$' hchar (by decide)⟩

end Calculator.Location
