import Stencil.Lexer.Matcher
import Stencil.Text.Lines

/-!
# Scanning a source

Scanning finds the next match of the current context. Text before the match becomes a fragment, the
match becomes a token unless its definition ignores it, and the transition of the definition sets
the mode for the text that follows. Where nothing matches, the rest of the source is one fragment.

`Lexicon.scan` is that description as a recursion on the text that is left. It has no look-ahead and
no queue. `Stencil.Lexer.Cursor` gives out the same tokens one by one.
-/

namespace Stencil

/-- A place in a source together with the mode of the scanner. -/
structure Place where
  /-- The character before the place. -/
  before : Option Char
  /-- The text from the place on. -/
  rest : List Char
  /-- The number of bytes before the place. -/
  offset : Nat
  mode : Mode
  deriving Repr, DecidableEq

namespace Place

/-- The start of a source. -/
def start (source : String) (context : Context) : Place :=
  ⟨none, source.toList, 0, ⟨context, 0⟩⟩

/-- The next `n` characters. -/
def text (p : Place) (n : Nat) : List Char :=
  p.rest.take n

/-- The place `n` characters further on, in the same mode. -/
def advance (p : Place) (n : Nat) : Place :=
  { p with
    before := Pattern.beforeAt p.before p.rest n
    rest := p.rest.drop n
    offset := p.offset + Text.byteLength (p.rest.take n) }

/-- The place after a transition. -/
def enter (p : Place) (t : Transition) : Place :=
  { p with mode := t.apply p.mode }

/-- The token of the next `n` characters. -/
def token (p : Place) (kind : TokenKind) (n : Nat) : Token :=
  ⟨kind, some (p.offset + 1), String.ofList (p.text n)⟩

/-- The place where a match starts that was found from here. -/
def atMatch (p : Place) (f : Found) : Place :=
  p.advance f.skipped

/-- The place behind a match that was found from here, after its transition. -/
def afterMatch (p : Place) (f : Found) : Place :=
  ((p.atMatch f).advance f.length).enter f.rule.definition.transition

/-- The text before a match, as a fragment unless it is empty. -/
def fragmentBefore (p : Place) (f : Found) : List Token :=
  if f.skipped = 0 then [] else [p.token .fragment f.skipped]

/-- The token of a match, unless its definition ignores it. -/
def matchTokens (p : Place) (f : Found) : List Token :=
  if f.rule.definition.cls = .ignore then []
  else [(p.atMatch f).token f.rule.definition.kind f.length]

end Place

/-- A hit has at least one character. -/
theorem Rule.hit?_pos {before after} :
    ∀ {rules : List Rule} {r n}, hit? rules before after = some (r, n) → 0 < n := by
  intro rules
  induction rules with
  | nil => intro r n h; simp [hit?] at h
  | cons x later ih =>
    intro r n h
    rw [hit?] at h
    split at h
    · simp at h; omega
    · exact ih h

namespace Matcher

variable {m : Matcher}

theorem outcome_pos {before after r n} (h : m.outcome before after = .hit r n) : 0 < n := by
  unfold outcome at h
  split at h
  · cases h
  · split at h
    · cases h
    · split at h
      · next hpos => cases h; exact hpos
      · split at h
        · next hit => cases h; exact Rule.hit?_pos hit
        · cases h

/-- A match that is found has at least one character. -/
theorem find?_length_pos :
    ∀ {after : List Char} {before f}, m.find? before after = some f → 0 < f.length := by
  intro after
  induction after with
  | nil =>
    intro before f h
    rw [find?] at h
    split at h
    · next hit => cases h; exact outcome_pos hit
    · cases h
  | cons c rest ih =>
    intro before f h
    rw [find?] at h
    split at h
    · next hit => cases h; exact outcome_pos hit
    · cases h
    · simp only [Option.map_eq_some_iff] at h
      obtain ⟨g, hg, rfl⟩ := h
      have := ih hg
      exact this

end Matcher

theorem Place.length_rest_afterMatch (p : Place) (f : Found) :
    (p.afterMatch f).rest.length = p.rest.length - f.skipped - f.length := by
  simp [afterMatch, atMatch, advance, enter, Nat.sub_sub]

namespace Lexicon

/-- The next match in the current context. -/
def find? (l : Lexicon) (p : Place) : Option Found :=
  (l.matcher? p.mode.context).bind fun m => m.find? p.before p.rest

theorem find?_length_pos {l : Lexicon} {p : Place} {f : Found} (h : l.find? p = some f) :
    0 < f.length := by
  simp only [find?, Option.bind_eq_some_iff] at h
  obtain ⟨m, _, hm⟩ := h
  exact Matcher.find?_length_pos hm

/-- All tokens from a place to the end of the source, without the end itself. -/
def scan (l : Lexicon) (p : Place) : List Token :=
  if 0 < p.rest.length then
    match _hf : l.find? p with
    | none => [p.token .fragment p.rest.length]
    | some f => p.fragmentBefore f ++ p.matchTokens f ++ l.scan (p.afterMatch f)
  else []
termination_by p.rest.length
decreasing_by
  have := find?_length_pos _hf
  rw [Place.length_rest_afterMatch]
  omega

/-- Tokens up to the end: as many as come before the first token that ends the source, and that
token. A table may define tokens of that kind. -/
def untilEof : List Token → List Token
  | [] => [Token.eof]
  | t :: rest => if t.isEof then [t] else t :: untilEof rest

/-- The tokens of a source, the end included, for a scan that starts in the given context. -/
def tokens (l : Lexicon) (source : String) (start : Context) : Except SetupError (List Token) := do
  l.checkStart start
  return untilEof (l.scan (Place.start source start))

end Lexicon

end Stencil
