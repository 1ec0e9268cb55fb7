import Stencil.Proofs.Concatenation
import Stencil.Proofs.Excerpt
import Stencil.Proofs.Refusal

/-!
# The excerpt of an error

An error names the line of the token that was refused: one more than the line feeds in front of it.
The excerpt for this line shows consecutive lines of the source around it and marks it, if it is a
line of the source. A token stands on a line of the source, as it has a character, and so does the
end of a source that does not end with a line feed. But behind a line feed at the end of a source
there is no line any more, so that nothing is marked if the end is refused there.

> `lineAt_of_standsBehind`: the line of a token counts the line feeds in front of it.
> `Standard.excerpt_of_refused`: what the report of an error shows.
-/

namespace Stencil

open Text (byteLength)

/-- What stands in front of a token in a source. In front of the end stands all of it. -/
def Token.StandsBehind (t : Token) (before source : List Char) : Prop :=
  t = Token.eof ∧ before = source ∨
    t.text.toList ≠ [] ∧ t.offset = some (byteLength before + 1) ∧
      ∃ after, source = before ++ (t.text.toList ++ after)

namespace Text

theorem exists_standsBehind {t : Token} {source : List Char} (h : t.SliceOf source) :
    ∃ before, t.StandsBehind before source := by
  obtain ⟨hne, before, after, hsource, hoffset⟩ := h
  rw [List.append_assoc] at hsource
  exact ⟨before, .inr ⟨hne, hoffset, after, hsource⟩⟩

/-- The line of a token counts the line feeds in front of it. -/
theorem lineAt_of_standsBehind {t : Token} {before source : List Char}
    (h : t.StandsBehind before source) : lineAt source t.offset = before.count '\n' + 1 := by
  rcases h with ⟨rfl, rfl⟩ | ⟨-, hoffset, after, rfl⟩
  · exact lineAt_none before
  · rw [hoffset, lineAt_some]

/-- The source has the line of a token, unless that is the end behind a line feed. -/
theorem count_lt_length_lines_of_standsBehind {t : Token} {before source : List Char}
    (h : t.StandsBehind before source) (hsource : source ≠ []) :
    before.count '\n' < (lines source).length ↔
      ¬(t = Token.eof ∧ source.getLast? = some '\n') := by
  rcases h with ⟨rfl, rfl⟩ | ⟨hne, hoffset, after, rfl⟩
  · rw [count_lt_length_lines_iff]
    exact ⟨fun h hend => h.2 hend.2, fun h => ⟨hsource, fun hlast => h ⟨rfl, hlast⟩⟩⟩
  · refine iff_of_true (count_lt_length_lines (List.append_ne_nil_of_left_ne_nil hne after)) ?_
    rintro ⟨rfl, -⟩
    cases hoffset

end Text

namespace Standard

variable {l : Lexicon}

/-- An empty source is accepted. -/
theorem ne_nil_of_refused {source : String} {start : Context} {r : Rejection (List Token)}
    (h : Grammar.template.runTokens (l.scan (Place.start source start)) = .error r) :
    source.toList ≠ [] := by
  intro hempty
  have hend : (Place.start source start).rest.length = 0 := congrArg List.length hempty
  rw [Lexicon.scan_of_end hend] at h
  cases h

/-- **What the report of an error shows.** A source in the standard vocabulary that is not accepted
has a token that is refused, which may be its end. The line of the error counts the line feeds in
front of this token. The excerpt for it shows consecutive lines of the source, in order, not more
than two away from that line, and marks that line, except where the end of the source is refused
behind a line feed: then no line is marked. -/
theorem excerpt_of_refused (hl : lexicon = .ok l) {source : String} {start : Context} {f : Failure}
    (h : l.parseFrom source start = .error f) :
    ∃ e r before shown, f = .grammar e ∧
      Grammar.template.runTokens (l.scan (Place.start source start)) = .error r ∧
      e.expected = r.expected ∧ e.found = r.token.found ∧
      r.token.StandsBehind before source.toList ∧ e.line = before.count '\n' + 1 ∧
      Text.Shows source.toList e.line shown ∧
      shown.countP (·.2 == e.line) =
        if r.token = Token.eof ∧ source.toList.getLast? = some '\n' then 0 else 1 := by
  rw [Lexicon.parseFrom, Lexicon.parseWith_eq (checkStart_eq hl start) Parse.steady_template] at h
  cases hrun : Grammar.template.runTokens (l.scan (Place.start source start)) with
  | ok result =>
    rw [hrun] at h
    cases h
  | error r =>
    rw [hrun] at h
    cases h
    obtain ⟨expected, rest⟩ := r
    have hbehind : ∃ before,
        (Rejection.mk expected rest).token.StandsBehind before source.toList := by
      cases rest with
      | nil => exact ⟨source.toList, .inl ⟨rfl, rfl⟩⟩
      | cons t rest =>
        obtain ⟨us, hus⟩ := Parse.exists_append_of_refused hrun
        have hcovers := Lexicon.covers_scan l _ (Place.within_start source start)
        refine Text.exists_standsBehind (hcovers.slices t ?_)
        rw [hus]
        exact List.mem_append_right us List.mem_cons_self
    obtain ⟨before, hbefore⟩ := hbehind
    have hline := Text.lineAt_of_standsBehind hbefore
    have hpos := Nat.lt_of_lt_of_eq (Nat.succ_pos _) hline.symm
    have hshows := Text.shows_window source.toList hpos
    have hmarked := hshows.countP_marked hpos
    have hexists : before.count '\n' + 1 ≤ (Text.lines source.toList).length ↔ _ :=
      Text.count_lt_length_lines_of_standsBehind hbefore (ne_nil_of_refused hrun)
    refine ⟨_, _, before, _, rfl, rfl, rfl, rfl, hbefore, hline, hshows, hmarked.trans ?_⟩
    rw [hline]
    by_cases hend : (Rejection.mk expected rest).token = Token.eof ∧
        source.toList.getLast? = some '\n'
    · rw [if_pos hend, if_neg fun hle => hexists.mp hle hend]
    · rw [if_neg hend, if_pos (hexists.mpr hend)]

/-- A block with one number too many on the second of three lines. -/
def secondNumber : String :=
  "a\n\x7b\x7b1 2\x7d\x7d\nb"

/-- The tokens of `secondNumber`. -/
def secondNumberTokens : List Token := [
    ⟨.fragment, some 1, "a\n"⟩, ⟨.blockOpen, some 3, "\x7b\x7b"⟩, ⟨.int, some 5, "1"⟩,
    ⟨.int, some 7, "2"⟩, ⟨.blockClose, some 8, "\x7d\x7d"⟩, ⟨.fragment, some 10, "\nb"⟩]

/-- The second number is refused, and its line is marked among the three lines of the source. -/
theorem excerpt_of_refused_second :
    ∃ e shown, readLexicon.parseFrom secondNumber .template = .error (.grammar e) ∧
      e.line = 2 ∧ Text.Shows secondNumber.toList 2 shown ∧ shown.countP (·.2 == 2) = 1 := by
  have hscan : readLexicon.scan (Place.start secondNumber .template) = secondNumberTokens := by
    decide +kernel
  have hparse : readLexicon.parseFrom secondNumber .template =
      .error (.grammar ⟨2, "\"\x7d\x7d\"", "2"⟩) := by
    rw [Lexicon.parseFrom, Lexicon.parseWith_eq (checkStart_eq lexicon_eq .template)
      Parse.steady_template, hscan]
    rfl
  obtain ⟨e, r, before, shown, he, -, -, -, -, -, hshows, hmarked⟩ :=
    excerpt_of_refused lexicon_eq hparse
  cases he
  refine ⟨_, shown, hparse, rfl, hshows, hmarked.trans (if_neg ?_)⟩
  rintro ⟨-, hlast⟩
  revert hlast
  decide

/-- A block that is open at the end of a line, which is the end of the source. -/
def openBlock : String :=
  "\x7b\x7b\n"

/-- The error is on the second line, and no line is marked. -/
theorem excerpt_openBlock :
    readLexicon.parseFrom openBlock .template =
        .error (.grammar ⟨2, "expression", "end of input"⟩) ∧
      Text.excerpt openBlock.toList 2 = "     1 | \x7b\x7b\n" := by
  have hscan : readLexicon.scan (Place.start openBlock .template) =
      [⟨.blockOpen, some 1, "\x7b\x7b"⟩] := by
    decide +kernel
  constructor
  · rw [Lexicon.parseFrom, Lexicon.parseWith_eq (checkStart_eq lexicon_eq .template)
      Parse.steady_template, hscan]
    rfl
  · decide +kernel

end Standard

end Stencil
