import Stencil.Lexer.Cursor
import Stencil.Proofs.CompiledTable

/-!
# A cursor gives out the scanned tokens

`Lexicon.scan` lists the tokens of a source at once; a cursor finds them one by one, with a queue
for the match behind a fragment and a slot for the token that has been looked at. Here the two are
tied together: `Cursor.remaining` is the list of tokens that a cursor has yet to give out, and
`next` takes the first of them.

> `Cursor.next_spec`: `next` gives out the first remaining token and leaves the others.
> `Cursor.upcoming_peek`: looking at the next token changes nothing in the tokens to come.
> `Cursor.collect_eq_untilEof`: `collect` gives out all of them, up to the first that ends the
> source.
-/

namespace Stencil

/-! ## One step of the scan -/

namespace Lexicon

theorem scan_of_end {l : Lexicon} {p : Place} (h : p.rest.length = 0) : l.scan p = [] := by
  rw [scan, if_neg (by omega)]

/-- Where nothing matches any more, the rest of the source is one fragment. -/
theorem scan_of_none {l : Lexicon} {p : Place} (hpos : 0 < p.rest.length)
    (h : l.find? p = none) : l.scan p = [p.token .fragment p.rest.length] := by
  rw [scan, if_pos hpos]
  split
  · rfl
  · next hf => rw [h] at hf; cases hf

/-- A match gives the fragment in front of it, its token unless it is ignored, and then the scan
behind it. -/
theorem scan_of_some {l : Lexicon} {p : Place} {f : Found} (hpos : 0 < p.rest.length)
    (h : l.find? p = some f) :
    l.scan p = p.fragmentBefore f ++ p.matchTokens f ++ l.scan (p.afterMatch f) := by
  rw [scan, if_pos hpos]
  split
  · next hf => rw [h] at hf; cases hf
  · next hf =>
    rw [h] at hf
    cases hf
    rfl

/-- After a match there is less text than before it. -/
theorem length_rest_afterMatch_lt {l : Lexicon} {p : Place} {f : Found} (h : l.find? p = some f) :
    (p.afterMatch f).rest.length < p.rest.length := by
  have hpos := find?_length_pos h
  have hle := find?_le h
  rw [Place.length_rest_afterMatch]
  omega

/-- A token takes at least one character. -/
theorem length_scan_le (l : Lexicon) (p : Place) : (l.scan p).length ≤ p.rest.length := by
  rcases Nat.eq_zero_or_pos p.rest.length with hz | hpos
  · rw [scan_of_end hz, List.length_nil]
    omega
  · cases hf : l.find? p with
    | none =>
      rw [scan_of_none hpos hf, List.length_singleton]
      omega
    | some f =>
      have hlen := find?_length_pos hf
      have hle := find?_le hf
      have hrec := length_scan_le l (p.afterMatch f)
      have hfragment : (p.fragmentBefore f).length ≤ f.skipped := by
        unfold Place.fragmentBefore
        split
        · exact Nat.zero_le _
        · rw [List.length_singleton]; omega
      have hmatch : (p.matchTokens f).length ≤ 1 := by
        unfold Place.matchTokens
        split
        · exact Nat.zero_le _
        · exact Nat.le_refl _
      rw [Place.length_rest_afterMatch] at hrec
      rw [scan_of_some hpos hf, List.length_append, List.length_append]
      omega
termination_by p.rest.length
decreasing_by exact length_rest_afterMatch_lt ‹_›

end Lexicon

/-! ## What is left to give out -/

namespace Cursor

/-- The tokens behind a place and behind a token that waits there. -/
def behind (l : Lexicon) (p : Place) : Option Waiting → List Token
  | none => l.scan p
  | some w => w.token :: l.scan (p.enter w.transition)

/-- The tokens that a cursor has yet to give out, without the end of the source. -/
def remaining (c : Cursor) : List Token :=
  c.lookahead.toList ++ behind c.lexicon c.place c.waiting

theorem scanNext_of_end {l : Lexicon} {p : Place} (h : p.rest.length = 0) :
    scanNext l p = (Token.eof, p, none) := by
  rw [scanNext, if_neg (by omega)]

/-- The last fragment leaves nothing to scan. -/
theorem scanNext_of_none {l : Lexicon} {p : Place} (hpos : 0 < p.rest.length)
    (h : l.find? p = none) :
    scanNext l p = (p.token .fragment p.rest.length, p.advance p.rest.length, none) := by
  rw [scanNext, if_pos hpos]
  split
  · rfl
  · next hf => rw [h] at hf; cases hf

/-- Text before the match is given out first; the match waits, unless it is ignored. -/
theorem scanNext_of_ahead {l : Lexicon} {p : Place} {f : Found} (hpos : 0 < p.rest.length)
    (h : l.find? p = some f) (hs : 0 < f.skipped) :
    scanNext l p =
      if f.rule.definition.cls = .ignore then
        (p.token .fragment f.skipped, p.afterMatch f, none)
      else
        (p.token .fragment f.skipped, (p.atMatch f).advance f.length,
          some ⟨(p.atMatch f).token f.rule.definition.kind f.length,
            f.rule.definition.transition⟩) := by
  rw [scanNext, if_pos hpos]
  split
  · next hf => rw [h] at hf; cases hf
  · next hf =>
    rw [h] at hf
    cases hf
    rw [if_pos hs]
    rfl

/-- A match at the place itself is given out, or passed over if it is ignored. -/
theorem scanNext_of_here {l : Lexicon} {p : Place} {f : Found} (hpos : 0 < p.rest.length)
    (h : l.find? p = some f) (hs : f.skipped = 0) :
    scanNext l p =
      if f.rule.definition.cls = .ignore then scanNext l (p.afterMatch f)
      else ((p.atMatch f).token f.rule.definition.kind f.length, p.afterMatch f, none) := by
  rw [scanNext, if_pos hpos]
  split
  · next hf => rw [h] at hf; cases hf
  · next hf =>
    rw [h] at hf
    cases hf
    rw [if_neg (by omega)]

/-- Scanning for the next token finds the first token of the scan and leaves the others. -/
theorem scanNext_spec (l : Lexicon) (p : Place) :
    (scanNext l p).1 = (l.scan p).headD Token.eof ∧
      behind l (scanNext l p).2.1 (scanNext l p).2.2 = (l.scan p).tail := by
  rcases Nat.eq_zero_or_pos p.rest.length with hz | hpos
  · rw [scanNext_of_end hz]
    simp only [behind, Lexicon.scan_of_end hz]
    exact ⟨rfl, rfl⟩
  · cases hf : l.find? p with
    | none =>
      have hend : (p.advance p.rest.length).rest.length = 0 := by
        simp only [Place.advance, List.length_drop]
        omega
      rw [scanNext_of_none hpos hf, Lexicon.scan_of_none hpos hf]
      simp only [behind, Lexicon.scan_of_end hend]
      exact ⟨rfl, rfl⟩
    | some f =>
      rw [Lexicon.scan_of_some hpos hf]
      rcases Nat.eq_zero_or_pos f.skipped with hs | hs
      · -- the match is here: an ignored one makes the scan go on, any other is the next token
        have hfragment : p.fragmentBefore f = [] := by rw [Place.fragmentBefore, if_pos hs]
        rw [scanNext_of_here hpos hf hs, hfragment, List.nil_append, Place.matchTokens]
        split
        · exact scanNext_spec l (p.afterMatch f)
        · exact ⟨rfl, rfl⟩
      · -- the text before the match is the next token, and the match waits if it is a token
        have hfragment : p.fragmentBefore f = [p.token .fragment f.skipped] := by
          rw [Place.fragmentBefore, if_neg (by omega)]
        rw [scanNext_of_ahead hpos hf hs, hfragment, Place.matchTokens]
        split
        · exact ⟨rfl, rfl⟩
        · exact ⟨rfl, rfl⟩
termination_by p.rest.length
decreasing_by exact Lexicon.length_rest_afterMatch_lt ‹_›

/-- **`next` takes the first of the remaining tokens**, and the end once none is left. -/
theorem next_spec (c : Cursor) :
    c.next.1 = c.remaining.headD Token.eof ∧ c.next.2.remaining = c.remaining.tail := by
  unfold next
  cases hl : c.lookahead with
  | some t => simp [remaining, hl]
  | none =>
    unfold pull
    cases hw : c.waiting with
    | some w => simp [remaining, behind, hl, hw]
    | none =>
      obtain ⟨hhead, htail⟩ := scanNext_spec c.lexicon c.place
      simp only [remaining, hl, hw, Option.toList_none, List.nil_append]
      exact ⟨hhead, htail⟩

/-- The tokens to come, without end: those that remain and then the end of the source again and
again. -/
def upcoming (c : Cursor) (n : Nat) : Token :=
  c.remaining.getD n Token.eof

/-- Taking a token moves the tokens to come by one. -/
theorem upcoming_next (c : Cursor) :
    c.next.1 = c.upcoming 0 ∧ ∀ n, c.next.2.upcoming n = c.upcoming (n + 1) := by
  obtain ⟨hhead, htail⟩ := c.next_spec
  unfold upcoming
  rw [hhead, htail]
  cases c.remaining with
  | nil => exact ⟨rfl, fun n => rfl⟩
  | cons t ts => exact ⟨rfl, fun n => rfl⟩

theorem peek_of_none {c : Cursor} (h : c.lookahead = none) :
    c.peek = (c.next.1, { c.next.2 with lookahead := some c.next.1 }) := by
  simp only [peek, next, h]

/-- Behind a token that is taken nothing has been looked at yet. -/
theorem lookahead_next (c : Cursor) : c.next.2.lookahead = none := by
  unfold next
  cases hl : c.lookahead with
  | some t => rfl
  | none =>
    unfold pull
    cases c.waiting with
    | some w => exact hl
    | none => exact hl

/-- The token that was looked at is put back in front of those behind it. -/
theorem remaining_peek_of_none {c : Cursor} (h : c.lookahead = none) :
    c.peek.2.remaining = c.next.1 :: c.next.2.remaining := by
  rw [peek_of_none h]
  simp [remaining, c.lookahead_next]

/-- Looking at the next token changes nothing in the tokens to come. -/
theorem upcoming_peek (c : Cursor) :
    c.peek.1 = c.upcoming 0 ∧ ∀ n, c.peek.2.upcoming n = c.upcoming n := by
  cases hl : c.lookahead with
  | some t =>
    have hpeek : c.peek = (t, c) := by simp only [peek, hl]
    rw [hpeek]
    exact ⟨by simp [upcoming, remaining, hl], fun n => rfl⟩
  | none =>
    obtain ⟨hhead, htail⟩ := c.upcoming_next
    have hpeek : c.peek.1 = c.next.1 := by rw [peek_of_none hl]
    refine ⟨hpeek.trans hhead, fun n => ?_⟩
    have hremaining := remaining_peek_of_none hl
    unfold upcoming at hhead htail ⊢
    rw [hremaining]
    cases n with
    | zero => exact hhead
    | succ n => exact htail n

/-- Reading never changes the table. -/
theorem lexicon_next (c : Cursor) : c.next.2.lexicon = c.lexicon := by
  unfold next
  split
  · rfl
  · unfold pull
    split <;> rfl

/-- Nor does it change the source. -/
theorem source_next (c : Cursor) : c.next.2.source = c.source := by
  unfold next
  split
  · rfl
  · unfold pull
    split <;> rfl

theorem lexicon_peek (c : Cursor) : c.peek.2.lexicon = c.lexicon := by
  cases hl : c.lookahead with
  | some t => simp only [peek, hl]
  | none => rw [peek_of_none hl]; exact c.lexicon_next

theorem source_peek (c : Cursor) : c.peek.2.source = c.source := by
  cases hl : c.lookahead with
  | some t => simp only [peek, hl]
  | none => rw [peek_of_none hl]; exact c.source_next

/-- With enough fuel, `collect` gives out what remains up to the first end. -/
theorem collectWith_eq_untilEof : ∀ (fuel : Nat) (c : Cursor), c.remaining.length < fuel →
    (collectWith fuel c).1 = Lexicon.untilEof c.remaining := by
  intro fuel
  induction fuel with
  | zero => intro c h; omega
  | succ fuel ih =>
    intro c h
    obtain ⟨hhead, htail⟩ := c.next_spec
    unfold collectWith
    dsimp only
    rw [hhead]
    cases hr : c.remaining with
    | nil => rfl
    | cons t ts =>
      rw [hr, List.length_cons] at h
      rw [hr, List.tail_cons] at htail
      -- one token fewer remains behind the token that was taken
      have hrec := ih c.next.2 (by rw [htail]; omega)
      rw [List.headD_cons, Lexicon.untilEof]
      split
      · rfl
      · rw [hrec, htail]

/-- Each character gives at most one token to come, besides the one looked at and the one that
waits. -/
theorem length_remaining_le (c : Cursor) : c.remaining.length ≤ c.place.rest.length + 2 := by
  have hlook : c.lookahead.toList.length ≤ 1 := by cases c.lookahead <;> simp
  have hbehind : (behind c.lexicon c.place c.waiting).length ≤ c.place.rest.length + 1 := by
    cases c.waiting with
    | none => exact Nat.le_succ_of_le (Lexicon.length_scan_le _ _)
    | some w => exact Nat.succ_le_succ (Lexicon.length_scan_le _ (c.place.enter w.transition))
  rw [remaining, List.length_append]
  omega

/-- **`collect` gives out the remaining tokens up to the first end**, from any state. -/
theorem collect_eq_untilEof (c : Cursor) : c.collect.1 = Lexicon.untilEof c.remaining :=
  collectWith_eq_untilEof _ c (Nat.lt_succ_of_le c.length_remaining_le)

/-- A source that cannot be scanned from a context is refused. -/
theorem start_of_error {l : Lexicon} {source : String} {context : Context} {e : SetupError}
    (h : l.checkStart context = .error e) : start l source context = .error e := by
  unfold start
  rw [h]
  rfl

/-- A cursor starts at the first character, with nothing looked at. -/
theorem start_of_ok {l : Lexicon} {source : String} {context : Context}
    (h : l.checkStart context = .ok ()) :
    start l source context = .ok { lexicon := l, source, place := Place.start source context } := by
  unfold start
  rw [h]
  rfl

/-- A scan starts with nothing looked at, waiting or taken. -/
theorem eq_of_start {l : Lexicon} {source : String} {context : Context} {c : Cursor}
    (h : start l source context = .ok c) :
    c = { lexicon := l, source, place := Place.start source context } := by
  cases hs : l.checkStart context with
  | error e =>
    rw [start_of_error hs] at h
    cases h
  | ok u =>
    rw [start_of_ok hs] at h
    cases h
    rfl

/-- At the start of a source all tokens of its scan remain. -/
theorem remaining_start {l : Lexicon} {source : String} {context : Context} {c : Cursor}
    (h : start l source context = .ok c) : c.remaining = l.scan (Place.start source context) := by
  rw [eq_of_start h]
  rfl

end Cursor

end Stencil
