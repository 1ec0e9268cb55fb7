import Mathlib.Data.List.Forall2
import Stencil.Proofs.SourceRun

/-!
# Parsing is a function of the tokens

Whether a parser asks the scanner for each token when it needs it, or is handed the list of all
tokens beforehand, makes no difference. Nor do the table, the source and the start context, beyond
the kinds and the texts of the tokens that they lead to.

A table may define tokens of the kind that ends a source. The list of all tokens stops there, while
a scanner would go on, and so two lists are compared only up to the first such token
(`Parse.Paired`). No parser takes it.

> `Parse.runTokens_paired`: a parser ends alike on lists that are the same up to their end.
> `Lexicon.parse_collected`: parsing on demand is parsing the collected tokens.
-/

namespace Stencil

/-! ## Lists up to the end of the source -/

namespace Lexicon

theorem untilEof_cons {t : Token} (h : t.kind ≠ .eof) (ts : List Token) :
    untilEof (t :: ts) = t :: untilEof ts := by
  have ht : t.isEof = false := beq_eq_false_iff_ne.mpr h
  rw [untilEof, ht, if_neg Bool.false_ne_true]

/-- The list up to the end starts with the token that is next, be it the end. -/
theorem exists_untilEof_eq_cons (ts : List Token) :
    ∃ rest, untilEof ts = ts.headD Token.eof :: rest := by
  cases ts with
  | nil => exact ⟨[], rfl⟩
  | cons t ts =>
    rw [untilEof]
    split
    · exact ⟨[], rfl⟩
    · exact ⟨untilEof ts, rfl⟩

theorem length_untilEof_le (ts : List Token) : (untilEof ts).length ≤ ts.length + 1 := by
  induction ts with
  | nil => exact Nat.le_refl _
  | cons t ts ih =>
    rw [untilEof]
    split
    · simp
    · simpa using ih

/-- The last token of the list up to the end is the end. -/
theorem exists_getLast?_untilEof (ts : List Token) :
    ∃ t, (untilEof ts).getLast? = some t ∧ t.kind = .eof := by
  induction ts with
  | nil => exact ⟨Token.eof, rfl, rfl⟩
  | cons t ts ih =>
    by_cases ht : t.kind = .eof
    · have hend : t.isEof = true := beq_iff_eq.mpr ht
      exact ⟨t, by simp [untilEof, hend], ht⟩
    · obtain ⟨u, hlast, hu⟩ := ih
      exact ⟨u, by rw [untilEof_cons ht, List.getLast?_cons, hlast]; rfl, hu⟩

/-- Tokens up to the end are the same when they are cut there again. -/
theorem untilEof_untilEof (ts : List Token) : untilEof (untilEof ts) = untilEof ts := by
  induction ts with
  | nil => rfl
  | cons t ts ih =>
    by_cases ht : t.kind = .eof
    · have hend : t.isEof = true := beq_iff_eq.mpr ht
      simp [untilEof, hend]
    · rw [untilEof_cons ht, untilEof_cons ht, ih]

end Lexicon

namespace Parse

open Lexicon (untilEof)

/-- Two lists whose tokens are in the relation one by one, up to the first that ends the source. -/
structure Paired (R : Token → Token → Prop) (x : Position) (ts us : List Token) : Prop where
  pairs : List.Forall₂ R (untilEof ts) (untilEof us)
  seen : ∀ k, x.seen = some k → kindAhead ts = k
  left : (untilEof ts).length ≤ x.left + 1

section

variable {R : Token → Token → Prop} {x : Position} {ts us : List Token}

theorem Paired.head (h : Paired R x ts us) : R (ts.headD Token.eof) (us.headD Token.eof) := by
  obtain ⟨ts', hts⟩ := Lexicon.exists_untilEof_eq_cons ts
  obtain ⟨us', hus⟩ := Lexicon.exists_untilEof_eq_cons us
  have hpairs := h.pairs
  rw [hts, hus, List.forall₂_cons] at hpairs
  exact hpairs.1

/-- A token that does not end the source is taken from both lists. -/
theorem Paired.tail {t u : Token} (h : Paired R x (t :: ts) (u :: us)) (ht : t.kind ≠ .eof)
    (hu : u.kind ≠ .eof) (k : TokenKind) : 0 < x.left ∧ Paired R (x.take k) ts us := by
  have hpairs := h.pairs
  have hleft := h.left
  rw [Lexicon.untilEof_cons ht, Lexicon.untilEof_cons hu, List.forall₂_cons] at hpairs
  rw [Lexicon.untilEof_cons ht, List.length_cons] at hleft
  obtain ⟨ts', hts⟩ := Lexicon.exists_untilEof_eq_cons ts
  have hpos : 0 < (untilEof ts).length := by simp [hts]
  refine ⟨by omega, hpairs.2, nofun, ?_⟩
  rw [Position.left_take]
  omega

/-- Lists with tokens of one kind and text, pair by pair, are sources that can be compared. -/
theorem linked_paired (hR : ∀ t u, R t u → t.Same u) : Linked (Paired R) where
  peek := by
    intro x ts us h
    refine ⟨hR _ _ h.head, fun k hk => (h.seen k hk).symm, h.pairs, fun k hk => ?_, h.left⟩
    cases hk
    rfl
  next := by
    intro x ts us k h hseen htakes
    have hne := Stage.takes_ne_eof htakes
    have hsame := hR _ _ h.head
    have hkind : kindAhead ts = k := h.seen k hseen
    have hkind' : kindAhead us = k := hsame.1.symm.trans hkind
    obtain ⟨t, ts, rfl, ht⟩ := exists_cons_of_kindAhead_eq hkind hne
    obtain ⟨u, us, rfl, hu⟩ := exists_cons_of_kindAhead_eq hkind' hne
    obtain ⟨hpos, htail⟩ := h.tail (ht ▸ hne) (hu ▸ hne) k
    exact ⟨hpos, hsame, ht, htail⟩

/-- **A parser ends alike on paired lists**: with one value, or with one refusal in front of tokens
that are paired too. -/
theorem runTokens_paired {α : Type} {parser : Parse α} (hparser : parser.Steady)
    (hR : ∀ t u, R t u → t.Same u) (h : List.Forall₂ R (untilEof ts) (untilEof us)) :
    Ends (fun a _ b _ => a = b) (fun _ s t => R (s.headD Token.eof) (t.headD Token.eof))
      (parser.runTokens ts) (parser.runTokens us) := by
  obtain ⟨stage, halike⟩ := hparser
  have hpaired : Paired R ⟨stage, none, (untilEof ts).length - 1⟩ ts us :=
    ⟨h, nofun, by dsimp only; omega⟩
  have hlength := h.length_eq
  have hts := Lexicon.length_untilEof_le ts
  have hus := Lexicon.length_untilEof_le us
  have hl : (untilEof ts).length - 1 < ts.length + 1 := by omega
  have hl' : (untilEof ts).length - 1 < us.length + 1 := by omega
  have hends := run_alike (linked_paired hR) (halike _) hpaired hl hl'
  unfold runTokens
  generalize parser.run (ts.length + 1) ts = outcome at hends ⊢
  generalize parser.run (us.length + 1) us = outcome' at hends ⊢
  cases hends with
  | ok hy =>
    obtain ⟨y, hvalue, -⟩ := hy
    exact .ok hvalue
  | error hy =>
    obtain ⟨y, -, hrest⟩ := hy
    exact .error hrest.head

end

end Parse

/-! ## Parsing what was collected -/

/-- Two outcomes of parsing agree: they have the same value, or both are errors that expect and
find the same. Their lines may differ. -/
inductive Failure.Agree {α : Type} : Except Failure α → Except Failure α → Prop
  | value {a} : Agree (.ok a) (.ok a)
  | error {e e' : SyntaxError} : e.expected = e'.expected → e.found = e'.found →
      Agree (.error (.grammar e)) (.error (.grammar e'))

theorem Token.Same.found {t u : Token} (h : t.Same u) : t.found = u.found := by
  rw [Token.found, Token.found, Token.isEof, Token.isEof, h.1, h.2]

/-- A refusal that both runs end with is reported in the same words. -/
theorem Failure.agree_of_ends {α : Type} {source source' : String}
    {r r' : Except (Rejection (List Token)) (α × List Token)}
    (h : Parse.Ends (fun a _ b _ => a = b)
      (fun _ s t => (s.headD Token.eof).Same (t.headD Token.eof)) r r') :
    Agree (Parse.reported source r) (Parse.reported source' r') := by
  cases h with
  | ok hvalue =>
    subst hvalue
    exact .value
  | error hsame => exact .error rfl hsame.found

namespace Lexicon

variable {α : Type}

/-- Collects all tokens of a source and then runs a parser over the list of them. -/
def parseCollected (l : Lexicon) (parser : Parse α) (source : String) (start : Context) :
    Except Failure α := do
  let cursor ← (Cursor.start l source start).mapError .setup
  Parse.reported source (parser.runTokens cursor.collect.1)

theorem collect_of_start {l : Lexicon} {source : String} {start : Context} {c : Cursor}
    (h : Cursor.start l source start = .ok c) :
    c.collect.1 = untilEof (l.scan (Place.start source start)) := by
  rw [Cursor.collect_eq_untilEof, Cursor.remaining_start h]

/-- Parsing on demand is parsing the collected tokens, and so is the report of an error. -/
theorem parseWith_of_start {l : Lexicon} {parser : Parse α} (hparser : parser.Steady)
    {source : String} {start : Context} {c : Cursor} (hc : Cursor.start l source start = .ok c) :
    l.parseWith parser source start = Parse.reported source (parser.runTokens c.collect.1) := by
  have hcheck : l.checkStart start = .ok () := by
    cases hcheck : l.checkStart start with
    | error e =>
      rw [Cursor.start_of_error hcheck] at hc
      cases hc
    | ok u => rfl
  rw [parseWith_eq hcheck hparser, collect_of_start hc]
  have hpairs : List.Forall₂ Eq (untilEof (l.scan (Place.start source start)))
      (untilEof (untilEof (l.scan (Place.start source start)))) := by
    rw [untilEof_untilEof]
    exact List.forall₂_refl _
  have hsame : ∀ t u : Token, t = u → t.Same u := by
    rintro t _ rfl
    exact ⟨rfl, rfl⟩
  have hends := Parse.runTokens_paired hparser hsame hpairs
  generalize parser.runTokens (l.scan (Place.start source start)) = r at hends ⊢
  generalize parser.runTokens (untilEof (l.scan (Place.start source start))) = r' at hends ⊢
  cases hends with
  | ok hvalue =>
    subst hvalue
    rfl
  | @error e s t htoken =>
    -- the report shows nothing of the tokens that are left but the first
    show Except.error (Failure.grammar (.ofTokens source ⟨e, s⟩)) =
      .error (.grammar (.ofTokens source ⟨e, t⟩))
    have hblamed : (Rejection.mk e s).token = (Rejection.mk e t).token := htoken
    rw [SyntaxError.ofTokens, SyntaxError.ofTokens, hblamed]

/-- A parser that does not depend on its bound parses a source as it parses the list of its tokens.
-/
theorem parseWith_collected (l : Lexicon) {parser : Parse α} (hparser : parser.Steady)
    (source : String) (start : Context) :
    l.parseWith parser source start = l.parseCollected parser source start := by
  unfold parseCollected
  cases hc : Cursor.start l source start with
  | error e =>
    rw [parseWith, hc]
    rfl
  | ok c => exact parseWith_of_start hparser hc

/-- Two sources whose tokens have the same kinds and texts are parsed alike. -/
theorem agree_of_collect {l l' : Lexicon} {source source' : String} {start start' : Context}
    {c c' : Cursor} (hc : Cursor.start l source start = .ok c)
    (hc' : Cursor.start l' source' start' = .ok c')
    (hsame : List.Forall₂ Token.Same c.collect.1 c'.collect.1) {parser : Parse α}
    (hparser : parser.Steady) :
    Failure.Agree (l.parseWith parser source start) (l'.parseWith parser source' start') := by
  have hcollect : ∀ c : Cursor, untilEof c.collect.1 = c.collect.1 := by
    intro c
    rw [Cursor.collect_eq_untilEof, untilEof_untilEof]
  rw [parseWith_of_start hparser hc, parseWith_of_start hparser hc']
  rw [← hcollect c, ← hcollect c'] at hsame
  exact Failure.agree_of_ends (Parse.runTokens_paired hparser (fun _ _ h => h) hsame)

/-- **Parsing is a function of the tokens.** Parsing a source on demand gives the items, or the
error with its line, that parsing the collected tokens gives. So two sources whose tokens have the
same kinds and texts, whatever their tables and start contexts are, have the same items or errors
that agree. The same holds for expressions. -/
theorem parse_collected :
    (∀ (l : Lexicon) (source : String) (start : Context),
      l.parseFrom source start = l.parseCollected Grammar.template source start) ∧
    (∀ (l : Lexicon) (source : String),
      l.parseExpression source = l.parseCollected Grammar.bareExpression source .block) ∧
    ∀ (l l' : Lexicon) (source source' : String) (start start' : Context) (c c' : Cursor),
      Cursor.start l source start = .ok c → Cursor.start l' source' start' = .ok c' →
      List.Forall₂ Token.Same c.collect.1 c'.collect.1 →
      Failure.Agree (l.parseFrom source start) (l'.parseFrom source' start') ∧
        (start = .block → start' = .block →
          Failure.Agree (l.parseExpression source) (l'.parseExpression source')) := by
  refine ⟨fun l source start => ?_, fun l source => ?_, ?_⟩
  · exact parseWith_collected l Parse.steady_template source start
  · exact parseWith_collected l Parse.steady_bareExpression source .block
  · intro l l' source source' start start' c c' hc hc' hsame
    refine ⟨agree_of_collect hc hc' hsame Parse.steady_template, ?_⟩
    rintro rfl rfl
    exact agree_of_collect hc hc' hsame Parse.steady_bareExpression

/-- Numbers of any length with blanks between them. -/
def spacedTable : TokenTable := [
    ⟨.block, .int, .literal, "[0-9]+", .stay⟩,
    ⟨.block, .whitespace, .ignore, " +", .stay⟩]

/-- Single digits. -/
def digitTable : TokenTable := [
    ⟨.block, .int, .literal, "[0-9]", .stay⟩]

/-- A table that compiles and whose tokens are known has a cursor that collects them. -/
theorem exists_collect {table : TokenTable} {source : String} {start : Context} {ts : List Token}
    (h : ((compile table).bind fun l => l.tokens source start).toOption = some ts) :
    ∃ l c, compile table = .ok l ∧ Cursor.start l source start = .ok c ∧ c.collect.1 = ts := by
  cases hl : compile table with
  | error e => rw [hl] at h; cases h
  | ok l =>
    rw [hl] at h
    cases hcheck : l.checkStart start with
    | error e =>
      have htokens : l.tokens source start = .error e := by rw [tokens, hcheck]; rfl
      rw [Except.bind, htokens] at h
      cases h
    | ok u =>
      have hstart : Cursor.start l source start = .ok _ := Cursor.start_of_ok hcheck
      have htokens : l.tokens source start = .ok (untilEof (l.scan (.start source start))) := by
        rw [tokens, hcheck]
        rfl
      rw [Except.bind, htokens] at h
      cases h
      exact ⟨l, _, rfl, hstart, collect_of_start hstart⟩

/-- A number behind a blank and a digit are refused alike as templates and are the same
expression, though the tables, the sources and the offsets of the tokens differ. -/
theorem parse_collected_digit :
    ∃ l l' c c', compile spacedTable = .ok l ∧ compile digitTable = .ok l' ∧
      Cursor.start l " 7" .block = .ok c ∧ Cursor.start l' "7" .block = .ok c' ∧
      c.collect.1 ≠ c'.collect.1 ∧ List.Forall₂ Token.Same c.collect.1 c'.collect.1 ∧
      Failure.Agree (l.parseFrom " 7" .block) (l'.parseFrom "7" .block) ∧
      Failure.Agree (l.parseExpression " 7") (l'.parseExpression "7") := by
  have htokens : ((compile spacedTable).bind fun l => l.tokens " 7" .block).toOption =
      some [⟨.int, some 2, "7"⟩, Token.eof] := by decide +kernel
  have htokens' : ((compile digitTable).bind fun l => l.tokens "7" .block).toOption =
      some [⟨.int, some 1, "7"⟩, Token.eof] := by decide +kernel
  obtain ⟨l, c, hl, hc, hts⟩ := exists_collect htokens
  obtain ⟨l', c', hl', hc', hts'⟩ := exists_collect htokens'
  have hsame : List.Forall₂ Token.Same c.collect.1 c'.collect.1 := by
    simp [hts, hts', Token.Same]
  obtain ⟨-, -, hagree⟩ := parse_collected
  obtain ⟨htemplate, hexpression⟩ := hagree l l' " 7" "7" .block .block c c' hc hc' hsame
  exact ⟨l, l', c, c', hl, hl', hc, hc', by simp [hts, hts'], hsame, htemplate,
    hexpression rfl rfl⟩

end Lexicon

end Stencil
