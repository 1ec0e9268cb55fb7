import Mathlib.Data.List.Basic
import Stencil.Proofs.LineBreaks

/-!
# Excerpts of a text

The lines of a text are its pieces between line feeds, except that nothing behind the last line feed
is no line, and that a carriage return in front of a line feed belongs to neither. So the line that
comes after `n` line feeds has the number `n + 1`, if there is such a line at all.

An excerpt around a line filters the numbered lines of the text. As the numbers are consecutive, it
shows an interval of them, and marks one of them if and only if there is a line of that number.

> `lines_eq_ended`: the lines of a text against its pieces between line feeds.
> `length_lines_concat`: there is a line for each line feed in front of the last character, and one
> more.
> `shows_window`: what an excerpt shows.
> `Shows.countP_marked`: it marks one line if the text has a line of that number, and none if not.
-/

namespace Stencil.Text

/-! ## Lines -/

/-- Pieces between line feeds as lines: an empty piece at the end is no line. -/
def ended : List (List Char) → List (List Char)
  | [] => []
  | [piece] => if piece.isEmpty then [] else [piece]
  | piece :: next :: pieces => dropReturn piece :: ended (next :: pieces)

/-- Lines are the pieces between line feeds, with what was read of the first one in front. -/
theorem linesFrom_eq_ended (current text : List Char) :
    linesFrom current text = ended ((text.splitOn '\n').modifyHead (current.reverse ++ ·)) := by
  induction text generalizing current with
  | nil => simp [linesFrom, ended]
  | cons c text ih =>
    obtain ⟨piece, pieces, hpieces⟩ := List.exists_cons_of_ne_nil (List.splitOn_ne_nil '\n' text)
    rw [linesFrom, List.splitOn_cons_eq_if_modifyHead]
    by_cases hc : c = '\n'
    · rw [if_pos hc, if_pos (beq_iff_eq.mpr hc), ih, hpieces]
      simp [ended]
    · rw [if_neg hc, if_neg (fun h => hc (beq_iff_eq.mp h)), ih, hpieces]
      simp

/-- **The lines of a text** are its pieces between line feeds. -/
theorem lines_eq_ended (text : List Char) : lines text = ended (text.splitOn '\n') := by
  obtain ⟨piece, pieces, hpieces⟩ := List.exists_cons_of_ne_nil (List.splitOn_ne_nil '\n' text)
  rw [lines, linesFrom_eq_ended, hpieces]
  rfl

/-- The line is the piece, or the piece without a carriage return at its end. -/
def IsLineOf (line piece : List Char) : Prop :=
  piece = line ∨ piece = line ++ ['\r']

theorem isLineOf_dropReturn (piece : List Char) : IsLineOf (dropReturn piece) piece := by
  unfold dropReturn
  split
  · next h =>
    obtain ⟨front, rfl⟩ := List.getLast?_eq_some_iff.mp h
    exact .inr (by rw [List.dropLast_concat])
  · exact .inl rfl

/-- The line of a number is the piece of this number. -/
theorem getElem?_ended {pieces : List (List Char)} {i : Nat} {line : List Char}
    (h : (ended pieces)[i]? = some line) :
    ∃ piece, pieces[i]? = some piece ∧ IsLineOf line piece := by
  induction pieces using ended.induct generalizing i with
  | case1 => cases h
  | case2 piece hempty =>
    rw [ended, if_pos hempty] at h
    cases h
  | case3 piece hempty =>
    rw [ended, if_neg hempty] at h
    exact ⟨line, h, .inl rfl⟩
  | case4 piece next pieces ih =>
    rw [ended] at h
    cases i with
    | zero =>
      cases h
      exact ⟨piece, rfl, isLineOf_dropReturn piece⟩
    | succ i => exact ih h

/-- A text that does not end in a line feed has one line more than line feeds. -/
theorem length_linesFrom_concat (current text : List Char) (c : Char) :
    (linesFrom current (text ++ [c])).length = text.count '\n' + 1 := by
  induction text generalizing current with
  | nil =>
    rw [List.nil_append, linesFrom]
    split <;> rfl
  | cons d text ih =>
    rw [List.cons_append, linesFrom, List.count_cons]
    by_cases hd : d = '\n'
    · rw [if_pos hd, if_pos (beq_iff_eq.mpr hd), List.length_cons, ih]
    · rw [if_neg hd, if_neg (fun h => hd (beq_iff_eq.mp h)), ih]

/-- **There is a line for each line feed** in front of the last character, and one more. -/
theorem length_lines_concat (text : List Char) (c : Char) :
    (lines (text ++ [c])).length = text.count '\n' + 1 :=
  length_linesFrom_concat [] text c

/-- The line of a place in front of the end of a text exists. -/
theorem count_lt_length_lines {before after : List Char} (h : after ≠ []) :
    before.count '\n' < (lines (before ++ after)).length := by
  rw [← List.dropLast_concat_getLast h, ← List.append_assoc, length_lines_concat, List.count_append]
  omega

/-- The line of the end of a text exists unless the text is empty or ends with a line feed. -/
theorem count_lt_length_lines_iff (text : List Char) :
    text.count '\n' < (lines text).length ↔ text ≠ [] ∧ text.getLast? ≠ some '\n' := by
  rcases List.eq_nil_or_concat' text with rfl | ⟨front, c, rfl⟩
  · simp [lines, linesFrom]
  · rw [length_lines_concat, List.count_append, List.count_singleton, List.getLast?_concat]
    by_cases hc : c = '\n'
    · simp [hc]
    · simp [hc]

/-! ## Excerpts -/

/-- The numbers of an interval, filtered by another interval. -/
theorem filter_range' (k n a b : Nat) :
    (List.range' k n).filter (fun i => decide (a ≤ i) && decide (i ≤ b)) =
      List.range' (max a k) (min (b + 1) (k + n) - max a k) := by
  induction n generalizing k with
  | zero =>
    have hnone : min (b + 1) (k + 0) - max a k = 0 := by omega
    rw [hnone]
    rfl
  | succ n ih =>
    rw [List.range'_succ, List.filter_cons, ih]
    split
    · next h =>
      rw [Bool.and_eq_true, decide_eq_true_iff, decide_eq_true_iff] at h
      have hfirst : max a k = k := by omega
      have hsecond : max a (k + 1) = k + 1 := by omega
      have hcount : min (b + 1) (k + (n + 1)) - k = min (b + 1) (k + 1 + n) - (k + 1) + 1 := by
        omega
      rw [hfirst, hsecond, hcount, List.range'_succ]
    · next h =>
      rw [Bool.and_eq_true, decide_eq_true_iff, decide_eq_true_iff] at h
      rcases Nat.lt_or_ge k a with hk | hk
      · have hfirst : max a (k + 1) = max a k := by omega
        have hlast : k + 1 + n = k + (n + 1) := by omega
        rw [hfirst, hlast]
      · -- behind the interval, both sides are empty
        have hnone : min (b + 1) (k + (n + 1)) - max a k = 0 := by omega
        have hnone' : min (b + 1) (k + 1 + n) - max a (k + 1) = 0 := by omega
        rw [hnone, hnone']
        rfl

/-- The numbered lines that the excerpt around a line shows. -/
def window (text : List Char) (line : Nat) : List (List Char × Nat) :=
  ((lines text).zipIdx 1).filter fun p => decide (line - 2 ≤ p.2) && decide (p.2 ≤ line + 2)

/-- What an excerpt of a text around a line shows. -/
structure Shows (text : List Char) (line : Nat) (shown : List (List Char × Nat)) : Prop where
  /-- Each line is shown with its number, and marked if the number is that of the line. -/
  excerpt_eq : excerpt text line =
    String.join (shown.map fun p => excerptLine (p.2 == line) p.2 p.1)
  /-- The numbers follow each other. -/
  consecutive : ∃ first, shown.map Prod.snd = List.range' first shown.length
  near : ∀ p ∈ shown, line ≤ p.2 + 2 ∧ p.2 ≤ line + 2
  numbered : ∀ p ∈ shown, 0 < p.2 ∧ (lines text)[p.2 - 1]? = some p.1
  /-- What is shown under a number stands in the text behind so many line feeds, less one. -/
  isLineOf : ∀ p ∈ shown,
    ∃ piece, (text.splitOn '\n')[p.2 - 1]? = some piece ∧ IsLineOf p.1 piece
  /-- No line of the text that is near is left out. -/
  complete : ∀ n, 0 < n → n ≤ (lines text).length → line ≤ n + 2 → n ≤ line + 2 →
    n ∈ shown.map Prod.snd

/-- The lines that are shown are those at most two away from the line of the error. -/
theorem map_snd_window (text : List Char) (line : Nat) :
    (window text line).map Prod.snd = (List.range' 1 (lines text).length).filter
      (fun n => decide (line - 2 ≤ n) && decide (n ≤ line + 2)) := by
  rw [← List.zipIdx_map_snd 1 (lines text), List.filter_map]
  rfl

/-- **What an excerpt shows.** -/
theorem shows_window (text : List Char) {line : Nat} (hline : 0 < line) :
    Shows text line (window text line) := by
  have hnumbered : ∀ p ∈ window text line, 0 < p.2 ∧ (lines text)[p.2 - 1]? = some p.1 :=
    fun p hp => List.mem_zipIdx_iff_le_and_getElem?_sub.mp (List.mem_of_mem_filter hp)
  have hmem : ∀ n, n ∈ (window text line).map Prod.snd ↔
      (0 < n ∧ n ≤ (lines text).length) ∧ line ≤ n + 2 ∧ n ≤ line + 2 := by
    intro n
    rw [map_snd_window, List.mem_filter, List.mem_range'_1, Bool.and_eq_true, decide_eq_true_iff,
      decide_eq_true_iff]
    omega
  refine ⟨?_, ?_, fun p hp => ((hmem p.2).mp (List.mem_map_of_mem hp)).2, hnumbered,
    fun p hp => ?_, fun n hpos hn hlow hhigh => (hmem n).mpr ⟨⟨hpos, hn⟩, hlow, hhigh⟩⟩
  · have habove : line - 1 + 1 = line := Nat.sub_add_cancel hline
    have hfilter : ∀ n, (decide (line - 1 ≤ n + 1) && decide (n ≤ line - 1 + 3)) =
        (decide (line - 2 ≤ n) && decide (n ≤ line + 2)) := by
      intro n
      congr 1 <;> (rw [decide_eq_decide]; omega)
    simp only [excerpt, habove, hfilter]
    rfl
  · have hnumbers := map_snd_window text line
    rw [filter_range'] at hnumbers
    have hlength := congrArg List.length hnumbers
    rw [List.length_map, List.length_range'] at hlength
    rw [hlength]
    exact ⟨_, hnumbers⟩
  · have hline' := (hnumbered p hp).2
    rw [lines_eq_ended] at hline'
    exact getElem?_ended hline'

/-- **The line is marked** if the text has it, and else none is. -/
theorem Shows.countP_marked {text : List Char} {line : Nat} {shown : List (List Char × Nat)}
    (h : Shows text line shown) (hline : 0 < line) :
    shown.countP (·.2 == line) = if line ≤ (lines text).length then 1 else 0 := by
  have hmem : line ∈ shown.map Prod.snd ↔ line ≤ (lines text).length := by
    constructor
    · intro hmem
      obtain ⟨p, hp, rfl⟩ := List.mem_map.mp hmem
      obtain ⟨hlt, -⟩ := List.getElem?_eq_some_iff.mp (h.numbered p hp).2
      omega
    · exact fun hle => h.complete line hline hle (by omega) (by omega)
  have hnodup : (shown.map Prod.snd).Nodup := by
    obtain ⟨first, hfirst⟩ := h.consecutive
    rw [hfirst]
    exact List.nodup_range'
  have hcount : shown.countP (·.2 == line) = (shown.map Prod.snd).count line := by
    rw [List.count, List.countP_map]
    rfl
  rw [hcount, hnodup.count]
  exact if_congr hmem rfl rfl

end Stencil.Text
