import Stencil.Proofs.ExpressionExact
import Stencil.Proofs.SourceRun
import Stencil.Proofs.WordBoundary

/-!
# Scanning inside a block, token by token

Most patterns of the block context can be told apart by the character with which they start. So the
rule that makes the hit at a place is known as soon as the character there is: blanks, digits and
quotes belong to one rule or two, and a symbol to those of the symbols, where a longer one comes
before its beginnings.

> `Standard.rules_block`: the rules of the block context.
> `Standard.ScannedAs`: a text in a block, in front of another, is scanned to certain tokens.
> `Standard.scannedAs_symbol`, `Standard.scannedAs_int` and so on: the single tokens.
-/

namespace Stencil

namespace Standard

open Pattern (CharSet quoted)

/-! ## The rules of the block context -/

/-- The rule of blanks, which are dropped. -/
def blankRule : Rule :=
  ⟨⟨.block, .whitespace, .ignore, "\\s+", .stay⟩, .plus true (.one .blank)⟩

/-- The rule of the end of a block. -/
def closeRule : Rule :=
  ⟨⟨.block, .blockClose, .normal, "\\\x7d\\\x7d", .template⟩, closePattern⟩

/-- The rules of the words. -/
def wordRules : List Rule :=
  Matcher.readRules wordTable

/-- The text of a symbol. -/
def symbolText (d : TokenDef) : List Char :=
  d.pattern.toList.filter (· != '\\')

/-- The rule of a symbol. -/
def symbolRule (d : TokenDef) : Rule :=
  ⟨d, .fixed (symbolText d)⟩

/-- The rules of the symbols. -/
def symbolRules : List Rule :=
  symbolTable.map symbolRule

/-- One digit or more. -/
def digitsPattern : Pattern :=
  .plus true (.one .digit)

/-- The rule of numbers with a point. -/
def doubleRule : Rule :=
  ⟨value .double "\\d+\\.\\d+", .seq digitsPattern (.seq (.one (.single '.')) digitsPattern)⟩

/-- The rule of numbers without a point. -/
def intRule : Rule :=
  ⟨value .int "\\d+", digitsPattern⟩

/-- The rule of texts between two quotes of a kind. -/
def stringRule (quote : Char) : Rule :=
  ⟨value .string (String.ofList (quote :: '(' :: '?' :: ':' :: '[' :: '^' :: quote ::
    ("\\\\]|\\\\(?s:.))*".toList ++ [quote]))), quoted quote⟩

/-- The rules in front of those of the symbols. -/
def beforeSymbols : List Rule :=
  blankRule :: closeRule :: wordRules

/-- The rules in front of those of the numbers. -/
def beforeNumbers : List Rule :=
  beforeSymbols ++ symbolRules

/-- The rules in front of those of the strings. -/
def beforeStrings : List Rule :=
  beforeNumbers ++ [doubleRule, intRule]

theorem readRules_block : Matcher.readRules (table.filter (·.context == .block)) =
    beforeStrings ++ [stringRule '"', stringRule '\'', identifierRule] := by
  decide +kernel

/-- **The rules of the block context.** -/
theorem rules_block {l : Lexicon} (hl : lexicon = .ok l) {m : Matcher}
    (hm : l.matcher? .block = some m) :
    m.rules = beforeStrings ++ [stringRule '"', stringRule '\'', identifierRule] := by
  rw [rules_eq hl hm]
  exact readRules_block

/-- With which characters the rules open. Symbols are found by the first that stands at a place, so
none may come behind one of its beginnings. -/
theorem rules_open :
    (∀ d ∈ symbolTable, symbolText d ≠ [] ∧ d.cls ≠ .ignore ∧ d.transition = .stay ∧
      ∀ r ∈ beforeSymbols,
        (symbolText d).head?.all (fun c => !r.pattern.opens c) = true) ∧
    symbolTable.Pairwise (fun d e => ¬symbolText d <+: symbolText e) ∧
    (∀ r ∈ beforeNumbers, ∀ n < 10, r.pattern.opens (Char.ofNat (48 + n)) = false) ∧
    ∀ r ∈ beforeStrings, r.pattern.opens '"' = false ∧ r.pattern.opens '\'' = false := by
  decide +kernel

variable (before : Option Char) {x : List Char}

/-! ## Hits -/

/-- Among symbols, the longest that stands at a place makes the hit. -/
theorem hit?_symbols {ds : List TokenDef}
    (hpairwise : ds.Pairwise fun d e => ¬symbolText d <+: symbolText e) {d : TokenDef} (hd : d ∈ ds)
    (hpos : 0 < (symbolText d).length) (hx : symbolText d <+: x)
    (hlongest : ∀ e ∈ ds, symbolText e <+: x → symbolText e <+: symbolText d) (later : List Rule) :
    Rule.hit? (ds.map symbolRule ++ later) before x =
      some (symbolRule d, (symbolText d).length) := by
  induction ds with
  | nil => cases hd
  | cons e ds ih =>
    obtain ⟨hfirst, hpairwise⟩ := List.pairwise_cons.mp hpairwise
    obtain ⟨helongest, hlongest⟩ := List.forall_mem_cons.mp hlongest
    rcases List.mem_cons.mp hd with rfl | hd
    · refine Rule.hit?_cons_of_match ?_ hpos
      rw [symbolRule, Rule.matchAt?, Pattern.preferred?, Pattern.lengths_fixed, if_pos hx]
      rfl
    · -- a symbol in front of the one that stands here is none of its beginnings
      have hnot : ¬(symbolRule e).Matches before x := by
        rintro ⟨n, hn, -⟩
        have hn := List.mem_of_head? hn
        rw [symbolRule, Pattern.lengths_fixed] at hn
        split at hn
        next hex => exact hfirst d hd (helongest hex)
        next => cases hn
      rw [List.map_cons, List.cons_append, Rule.hit?_cons_of_not hnot]
      exact ih hpairwise hd hlongest

/-- Some symbol goes on with the character behind the text. -/
def continuesSymbol (w : List Char) (c : Char) : Bool :=
  symbolTable.any fun d => (w ++ [c]).isPrefixOf (symbolText d)

/-- Where no symbol goes on, those that stand here are beginnings of the text. -/
theorem prefix_of_leaves {w s : List Char} (hs : Text.Leaves (continuesSymbol w) s) {e : TokenDef}
    (he : e ∈ symbolTable) (hbegins : symbolText e <+: w ++ s) : symbolText e <+: w := by
  obtain ⟨u, hu⟩ := hbegins
  rcases List.append_eq_append_iff.mp hu with ⟨t, rfl, -⟩ | ⟨t, ht, rfl⟩
  · exact List.prefix_append _ t
  · cases t with
    | nil => exact ⟨[], by rw [ht, List.append_nil, List.append_nil]⟩
    | cons c t =>
      have hc : continuesSymbol w c = false := hs
      have hbegins : (w ++ [c]).isPrefixOf (symbolText e) = true := by
        rw [List.isPrefixOf_iff_prefix, ht]
        exact ⟨t, by simp⟩
      rw [continuesSymbol, List.any_eq_false] at hc
      exact absurd hbegins (hc e he)

/-- A number with a point has digits behind the point. -/
theorem not_matches_double {w s : List Char} (hw : ∀ c ∈ w, Text.isDigit c = true)
    (hs : Text.Leaves Text.isDigit s) (hpoint : ∀ t, s = '.' :: t → Text.Leaves Text.isDigit t) :
    ¬doubleRule.Matches before (w ++ s) := by
  rintro ⟨n, hn, -⟩
  obtain ⟨k, _, hk, hn, -⟩ := Pattern.of_mem_seq (List.mem_of_head? hn)
  obtain ⟨j, i, hj, hi, -⟩ := Pattern.of_mem_seq hn
  obtain ⟨rfl, t, ht⟩ := Pattern.of_mem_single hj
  have htaken : ∀ c ∈ (w ++ s).take k, Text.isDigit c = true := (Pattern.of_mem_plus_one hk).2.2
  -- the digits end at the point, so it is that behind all of them
  have hsplit : (w ++ s).take k ++ '.' :: t = w ++ s := by
    rw [← ht, List.take_append_drop]
  have hdot : Text.Leaves Text.isDigit ('.' :: t) := show Text.isDigit '.' = false by decide
  have hrest : '.' :: t = s := by
    have htake : (w ++ s).take k = w := by
      rw [← Text.takeWhile_append htaken hdot, hsplit, Text.takeWhile_append hw hs]
    rw [htake] at hsplit
    exact List.append_cancel_left hsplit
  rw [ht] at hi
  obtain ⟨hpos, hle, hdigits⟩ := Pattern.of_mem_plus_one hi
  cases t with
  | nil => exact absurd hle (Nat.not_le.mpr hpos)
  | cons c t =>
    obtain ⟨i, rfl⟩ := Nat.exists_eq_succ_of_ne_zero (Nat.ne_of_gt hpos)
    have hdigit : Text.isDigit c = true := hdigits c List.mem_cons_self
    have hnone : Text.isDigit c = false := hpoint _ hrest.symm
    rw [hnone] at hdigit
    cases hdigit

/-- The characters of a number with ASCII digits. -/
theorem isDigit_of_ascii {c : Char} (h : c.isDigit = true) :
    Text.isDigit c = true ∧ ∃ n < 10, c = Char.ofNat (48 + n) := by
  obtain ⟨hlow, hhigh⟩ := Char.isDigit_iff_toNat.mp h
  have hlow : 48 ≤ c.toNat := hlow
  have hhigh : c.toNat ≤ 57 := hhigh
  refine ⟨?_, c.toNat - 48, by omega, ?_⟩
  · rw [Text.isDigit, if_pos (by omega), h]
  · rw [Nat.add_sub_cancel' hlow, Char.ofNat_toNat]

section

variable {l : Lexicon} {m : Matcher} (hl : lexicon = .ok l) (hm : l.matcher? .block = some m)

include hl hm

/-- Blanks are taken together. -/
theorem hit?_blanks {w s : List Char} (hne : w ≠ []) (hw : ∀ c ∈ w, Text.isBlank c = true)
    (hs : Text.Leaves Text.isBlank s) :
    Rule.hit? m.rules before (w ++ s) = some (blankRule, w.length) := by
  have hall : (w ++ s).takeWhile CharSet.blank.has = w := Text.takeWhile_append hw hs
  have hmatch := Pattern.preferred?_plus_one (hall ▸ hne) before
  rw [hall] at hmatch
  rw [rules_block hl hm]
  exact Rule.hit?_cons_of_match hmatch (List.length_pos_iff.mpr hne)

/-- The end of a block. -/
theorem hit?_close (s : List Char) :
    Rule.hit? m.rules before ('\x7d' :: '\x7d' :: s) = some (closeRule, 2) := by
  have hmatch : closeRule.matchAt? before ('\x7d' :: '\x7d' :: s) = some 2 := by
    rw [Rule.matchAt?, Pattern.preferred?, closeRule, closePattern, Pattern.lengths_fixed,
      if_pos ⟨s, rfl⟩]
    rfl
  rw [rules_block hl hm]
  refine (Rule.hit?_cons_of_not (Rule.not_matches_of_opens ?_)).trans
    (Rule.hit?_cons_of_match hmatch Nat.two_pos)
  decide

/-- A symbol, up to where no symbol goes on. -/
theorem hit?_symbol {d : TokenDef} (hd : d ∈ symbolTable) {s : List Char}
    (hs : Text.Leaves (continuesSymbol (symbolText d)) s) :
    Rule.hit? m.rules before (symbolText d ++ s) =
      some (symbolRule d, (symbolText d).length) := by
  obtain ⟨hne, -, -, hfront⟩ := rules_open.1 d hd
  have hpos := List.length_pos_iff.mpr hne
  have hhit := hit?_symbols before rules_open.2.1 hd hpos
    (List.prefix_append _ s) (fun e he => prefix_of_leaves hs he)
  rw [rules_block hl hm, beforeStrings, beforeNumbers, symbolRules, List.append_assoc,
    List.append_assoc]
  cases hcons : symbolText d with
  | nil => exact absurd hcons hne
  | cons c w =>
    rw [hcons] at hhit hfront
    exact (Rule.hit?_append_of_opens (fun r hr => by simpa using hfront r hr) _).trans (hhit _)

/-- At a digit only the rules of the numbers come into question. -/
theorem hit?_number {c : Char} (hc : c.isDigit = true) : ∃ later, ∀ x,
    Rule.hit? m.rules before (c :: x) =
      Rule.hit? (doubleRule :: intRule :: later) before (c :: x) := by
  obtain ⟨-, n, hn, rfl⟩ := isDigit_of_ascii hc
  refine ⟨[stringRule '"', stringRule '\'', identifierRule], fun x => ?_⟩
  rw [rules_block hl hm, beforeStrings, List.append_assoc]
  exact Rule.hit?_append_of_opens (fun r hr => rules_open.2.2.1 r hr n hn) _

/-- Digits that stand in front of no point with digits behind it. -/
theorem hit?_int {w s : List Char} (hne : w ≠ []) (hw : ∀ c ∈ w, c.isDigit = true)
    (hs : Text.Leaves Text.isDigit s) (hpoint : ∀ t, s = '.' :: t → Text.Leaves Text.isDigit t) :
    Rule.hit? m.rules before (w ++ s) = some (intRule, w.length) := by
  have hdigits : ∀ c ∈ w, Text.isDigit c = true := fun c hc => (isDigit_of_ascii (hw c hc)).1
  have hall : (w ++ s).takeWhile CharSet.digit.has = w := Text.takeWhile_append hdigits hs
  have hmatch := Pattern.preferred?_plus_one (hall ▸ hne) before
  rw [hall] at hmatch
  have hnot := not_matches_double before hdigits hs hpoint
  cases w with
  | nil => exact absurd rfl hne
  | cons c w =>
    obtain ⟨later, hlater⟩ := hit?_number before hl hm (hw c List.mem_cons_self)
    rw [List.cons_append, hlater, ← List.cons_append, Rule.hit?_cons_of_not hnot]
    exact Rule.hit?_cons_of_match hmatch (Nat.succ_pos _)

/-- Digits on both sides of a point. -/
theorem hit?_double {w f s : List Char} (hwne : w ≠ []) (hw : ∀ c ∈ w, c.isDigit = true)
    (hfne : f ≠ []) (hf : ∀ c ∈ f, c.isDigit = true) (hs : Text.Leaves Text.isDigit s) :
    Rule.hit? m.rules before (w ++ '.' :: f ++ s) =
      some (doubleRule, (w ++ '.' :: f).length) := by
  have hleaves : Text.Leaves CharSet.digit.has ('.' :: (f ++ s)) :=
    show Text.isDigit '.' = false by decide
  have hwall : (w ++ '.' :: (f ++ s)).takeWhile CharSet.digit.has = w :=
    Text.takeWhile_append (fun c hc => (isDigit_of_ascii (hw c hc)).1) hleaves
  have hfall : (f ++ s).takeWhile CharSet.digit.has = f :=
    Text.takeWhile_append (fun c hc => (isDigit_of_ascii (hf c hc)).1) hs
  have hwmatch := Pattern.preferred?_plus_one (hwall ▸ hwne) before
  have hfmatch := Pattern.preferred?_plus_one (hfall ▸ hfne) (some '.')
  rw [hwall] at hwmatch
  rw [hfall] at hfmatch
  have hpoint : (Pattern.one (.single '.')).preferred?
      (Pattern.beforeAt before (w ++ '.' :: (f ++ s)) w.length)
      ((w ++ '.' :: (f ++ s)).drop w.length) = some 1 := by
    rw [List.drop_left, Pattern.preferred?, Pattern.lengths_single, if_pos rfl]
    rfl
  have hbehind : (Pattern.seq (.one (.single '.')) digitsPattern).preferred?
      (Pattern.beforeAt before (w ++ '.' :: (f ++ s)) w.length)
      ((w ++ '.' :: (f ++ s)).drop w.length) = some (1 + f.length) := by
    refine Pattern.preferred?_seq hpoint ?_
    rw [List.drop_left]
    exact hfmatch
  have hmatch : doubleRule.matchAt? before (w ++ '.' :: (f ++ s)) =
      some (w.length + (1 + f.length)) :=
    Pattern.preferred?_seq hwmatch hbehind
  have hlength : (w ++ '.' :: f).length = w.length + (1 + f.length) := by
    rw [List.length_append, List.length_cons, Nat.add_comm f.length]
  rw [List.append_assoc, List.cons_append, hlength]
  cases w with
  | nil => exact absurd rfl hwne
  | cons c w =>
    obtain ⟨later, hlater⟩ := hit?_number before hl hm (hw c List.mem_cons_self)
    rw [List.cons_append, hlater, ← List.cons_append]
    exact Rule.hit?_cons_of_match hmatch (by omega)

/-- A text in quotes that is closed. -/
theorem hit?_string {quote : Char} (hquote : IsQuote quote) {x : List Char} {n : Nat}
    (hclosing : Pattern.closing? quote x = some n) :
    Rule.hit? m.rules before (quote :: x) = some (stringRule quote, 1 + n) := by
  have hmatch : (stringRule quote).matchAt? before (quote :: x) = some (1 + n) := by
    rw [Rule.matchAt?, Pattern.preferred?, stringRule, Pattern.lengths_quoted hquote.ne, if_pos rfl,
      hclosing]
    rfl
  have hpos : 0 < 1 + n := by omega
  rw [rules_block hl hm]
  rcases hquote with rfl | rfl
  · rw [Rule.hit?_append_of_opens fun r hr => (rules_open.2.2.2 r hr).1]
    exact Rule.hit?_cons_of_match hmatch hpos
  · have hother : ¬(stringRule '"').Matches before ('\'' :: x) :=
      Rule.not_matches_of_opens (by decide)
    rw [Rule.hit?_append_of_opens fun r hr => (rules_open.2.2.2 r hr).2,
      Rule.hit?_cons_of_not hother]
    exact Rule.hit?_cons_of_match hmatch hpos

end

end Standard

/-! ## Texts that are scanned -/

/-- Going on by some characters and then by others is going on by all of them. -/
theorem Place.advance_add (p : Place) (m n : Nat) :
    (p.advance m).advance n = p.advance (m + n) := by
  have hbefore : Pattern.beforeAt (Pattern.beforeAt p.before p.rest m) (p.rest.drop m) n =
      Pattern.beforeAt p.before p.rest (m + n) := by
    unfold Pattern.beforeAt
    rcases Nat.eq_zero_or_pos n with rfl | hn
    · rfl
    · rw [if_neg (by omega), if_neg (by omega), List.getElem?_drop, Nat.add_sub_assoc hn]
  have hoffset : p.offset + Text.byteLength (p.rest.take m) +
      Text.byteLength ((p.rest.drop m).take n) =
      p.offset + Text.byteLength (p.rest.take (m + n)) := by
    rw [List.take_add, Text.byteLength_append, Nat.add_assoc]
  unfold Place.advance
  dsimp only
  rw [hbefore, List.drop_drop, hoffset]

namespace Standard

/-- The only token is one of a kind, with a text. -/
def IsToken (kind : TokenKind) (w : List Char) (us : List Token) : Prop :=
  ∃ offset, us = [⟨kind, offset, String.ofList w⟩]

/-- Wherever in a block the text stands in front of the other, it is scanned to tokens with a
property, and the scan goes on behind it in the block. -/
def ScannedAs (l : Lexicon) (w s : List Char) (holds : List Token → Prop) : Prop :=
  ∀ p : Place, p.mode.context = .block → p.rest = w ++ s →
    ∃ us, l.scan p = us ++ l.scan (p.advance w.length) ∧ holds us

section

variable {l : Lexicon} {w w' s : List Char} {holds holds' both : List Token → Prop}

theorem ScannedAs.imp (h : ScannedAs l w s holds) (himp : ∀ us, holds us → holds' us) :
    ScannedAs l w s holds' := by
  intro p hblock hrest
  obtain ⟨us, hscan, hus⟩ := h p hblock hrest
  exact ⟨us, hscan, himp us hus⟩

/-- Two texts, one behind the other. -/
theorem ScannedAs.append (h : ScannedAs l w (w' ++ s) holds) (h' : ScannedAs l w' s holds')
    (hboth : ∀ us vs, holds us → holds' vs → both (us ++ vs)) : ScannedAs l (w ++ w') s both := by
  intro p hblock hrest
  rw [List.append_assoc] at hrest
  obtain ⟨us, hscan, hus⟩ := h p hblock hrest
  have hbehind : (p.advance w.length).rest = w' ++ s := by
    show p.rest.drop w.length = w' ++ s
    rw [hrest, List.drop_left]
  obtain ⟨vs, hscan', hvs⟩ := h' (p.advance w.length) hblock hbehind
  refine ⟨us ++ vs, ?_, hboth us vs hus hvs⟩
  rw [hscan, hscan', Place.advance_add, List.length_append, List.append_assoc]

/-- The text that a rule takes at the place is a token. -/
theorem scannedAs_of_hit (hl : lexicon = .ok l) {r : Rule}
    (hhit : ∀ (m : Matcher) (before : Option Char), l.matcher? .block = some m →
      Rule.hit? m.rules before (w ++ s) = some (r, w.length))
    (hcls : r.definition.cls ≠ .ignore) (hstay : r.definition.transition = .stay) :
    ScannedAs l w s (IsToken r.definition.kind w) := by
  intro p hblock hrest
  obtain ⟨m, hm⟩ := exists_matcher hl .block
  have hat := hhit _ p.before hm
  rw [← hrest] at hat
  rw [← hblock] at hm
  exact ⟨[p.token r.definition.kind w.length], scan_of_hit hl hm hat hcls hstay, _,
    by rw [token_word hrest]⟩

/-- Blanks give no token. -/
theorem scannedAs_blanks (hl : lexicon = .ok l) (hne : w ≠ [])
    (hw : ∀ c ∈ w, Text.isBlank c = true) (hs : Text.Leaves Text.isBlank s) :
    ScannedAs l w s (· = []) := by
  intro p hblock hrest
  obtain ⟨m, hm⟩ := exists_matcher hl .block
  have hat := hit?_blanks p.before hl hm hne hw hs
  rw [← hrest] at hat
  rw [← hblock] at hm
  exact ⟨[], scan_hit hl hm hat, rfl⟩

/-- A symbol is its own token where the text does not go on with a longer symbol. -/
theorem scannedAs_symbol (hl : lexicon = .ok l) {d : TokenDef} (hd : d ∈ symbolTable)
    (hs : Text.Leaves (continuesSymbol (symbolText d)) s) :
    ScannedAs l (symbolText d) s (IsToken d.kind (symbolText d)) :=
  scannedAs_of_hit hl (fun _ before hm => hit?_symbol before hl hm hd hs) (rules_open.1 d hd).2.1
    (rules_open.1 d hd).2.2.1

/-- Digits are a whole number where neither a digit nor a point with a digit follows. -/
theorem scannedAs_int (hl : lexicon = .ok l) (hne : w ≠ []) (hw : ∀ c ∈ w, c.isDigit = true)
    (hs : Text.Leaves Text.isDigit s) (hpoint : ∀ t, s = '.' :: t → Text.Leaves Text.isDigit t) :
    ScannedAs l w s (IsToken .int w) :=
  scannedAs_of_hit hl (fun _ before hm => hit?_int before hl hm hne hw hs hpoint) nofun rfl

/-- Digits with a point between them are one token, up to the first character that is no digit. -/
theorem scannedAs_double (hl : lexicon = .ok l) {f : List Char} (hne : w ≠ [])
    (hw : ∀ c ∈ w, c.isDigit = true) (hfne : f ≠ []) (hf : ∀ c ∈ f, c.isDigit = true)
    (hs : Text.Leaves Text.isDigit s) :
    ScannedAs l (w ++ '.' :: f) s (IsToken .double (w ++ '.' :: f)) :=
  scannedAs_of_hit hl (fun _ before hm => hit?_double before hl hm hne hw hfne hf hs) nofun rfl

/-- The text between two quotes in which the first does not close early. -/
theorem scannedAs_string (hl : lexicon = .ok l) {quote : Char} (hquote : IsQuote quote)
    (hclosing : Pattern.closing? quote (w ++ quote :: s) = some (w.length + 1)) :
    ScannedAs l (quote :: (w ++ [quote])) s (IsToken .string (quote :: (w ++ [quote]))) := by
  refine scannedAs_of_hit hl (r := stringRule quote) (fun m before hm => ?_) nofun rfl
  have hhit := hit?_string before hl hm hquote hclosing
  rw [List.cons_append, List.append_assoc, List.singleton_append, hhit, List.length_cons,
    List.length_append, List.length_singleton, Nat.add_comm 1]

/-- A reserved word is its token where no word character follows. -/
theorem scannedAs_reserved (hl : lexicon = .ok l) {kind : TokenKind} (hw : Reserved kind w)
    (hs : Text.Leaves Text.isWord s) : ScannedAs l w s (IsToken kind w) :=
  fun _ hblock hrest => ⟨_, scan_of_reserved hl hblock hw hs hrest, _, rfl⟩

/-- An identifier is its token unless the word that it begins is reserved. -/
theorem scannedAs_identifier (hl : lexicon = .ok l) (hw : IsIdentifier w)
    (hs : Text.Leaves inIdentifier s)
    (hnot : ∀ kind, ¬Reserved kind ((w ++ s).takeWhile Text.isWord)) :
    ScannedAs l w s (IsToken .identifier w) :=
  fun _ hblock hrest => ⟨_, scan_of_not_reserved hl hblock hw hs hrest hnot, _, rfl⟩

/-- **A source that is scanned as a bare expression** is parsed as one. -/
theorem parseExpression_of_scannedAs (hl : lexicon = .ok l) {source : String} {n : Node}
    (h : ScannedAs l source.toList [] (Derives.BareExpression · n)) :
    l.parseExpression source = .ok n := by
  obtain ⟨us, hscan, hus⟩ := h (Place.start source .block) rfl (List.append_nil _).symm
  have hend : l.scan ((Place.start source .block).advance source.toList.length) = [] := by
    refine Lexicon.scan_of_end ?_
    show (source.toList.drop source.toList.length).length = 0
    rw [List.drop_length, List.length_nil]
  rw [hend, List.append_nil] at hscan
  have hrun : Grammar.bareExpression.runTokens (l.scan (Place.start source .block)) =
      .ok (n, []) :=
    (Derives.reads_bareExpression (Nat.lt_succ_self _)).mpr
      ⟨us, by rw [hscan, List.append_nil], hus, rfl⟩
  rw [Lexicon.parseExpression, Lexicon.parseWith_eq (checkStart_eq hl .block)
    Parse.steady_bareExpression, hrun]
  rfl

end

end Standard

end Stencil
