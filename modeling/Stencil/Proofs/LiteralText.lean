import Stencil.Proofs.BlockScan
import Stencil.Proofs.CommentText
import Stencil.Proofs.Concatenation
import Stencil.Proofs.ExpressionViable
import Stencil.Proofs.StringLiteral

/-!
# Texts as string literals

Every text can be written as a literal: between two quotes of a kind, with a backslash in front of
each backslash and each such quote. The scanner goes over a backslash and the character behind it in
one step, so that it finds no closing quote before the last one, whatever the text holds. The
backslashes go when the escapes are resolved, and since neither a backslash nor a quote is a letter
that means something else, just the text is left.

> `Grammar.unescape_literalBody`: resolving the escapes of a literal gives the text.
> `Pattern.closing?_literalBody`: the literal ends at its last quote.
> `Standard.parse_literal`: a literal is parsed to the text that it was made from.
-/

namespace Stencil

namespace Grammar

/-- How a literal writes one character. -/
def literalChar (quote c : Char) : List Char :=
  if c = '\\' ∨ c = quote then ['\\', c] else [c]

/-- How a literal writes characters, between its quotes. -/
def literalBody (quote : Char) (cs : List Char) : List Char :=
  cs.flatMap (literalChar quote)

/-- The literal of a text. -/
def literal (quote : Char) (text : String) : String :=
  String.ofList (quote :: (literalBody quote text.toList ++ [quote]))

theorem literalBody_cons (quote c : Char) (cs : List Char) :
    literalBody quote (c :: cs) = literalChar quote c ++ literalBody quote cs :=
  List.flatMap_cons

end Grammar

namespace Standard

open Grammar

theorem IsQuote.not_letter {quote : Char} (h : IsQuote quote) :
    quote ≠ 'u' ∧ quote ∉ letterEscapes.map Prod.fst := by
  rcases h with rfl | rfl <;> decide

section

variable {quote : Char} (hquote : IsQuote quote)

include hquote

/-- **Resolving the escapes of a literal** gives the text. -/
theorem unescape_literalBody (cs : List Char) : unescape (literalBody quote cs) = cs := by
  induction cs with
  | nil => rfl
  | cons c cs ih =>
    rw [literalBody_cons, literalChar]
    split
    · next hc =>
      -- a backslash or a quote, and no letter of an escape
      have hletter : c ≠ 'u' ∧ c ∉ letterEscapes.map Prod.fst := by
        rcases hc with rfl | rfl
        · decide
        · exact hquote.not_letter
      show unescape ('\\' :: c :: literalBody quote cs) = c :: cs
      rw [unescape_escaped hletter.1, escapedChar_of_not_mem hletter.2, ih]
    · next hc =>
      show unescape (c :: literalBody quote cs) = c :: cs
      rw [unescape_plain fun h => hc (.inl h), ih]

/-- **A literal ends at its last quote.** -/
theorem closing?_literalBody (cs rest : List Char) :
    Pattern.closing? quote (literalBody quote cs ++ quote :: rest) =
      some ((literalBody quote cs).length + 1) := by
  induction cs with
  | nil => exact Pattern.closing?_quote rest
  | cons c cs ih =>
    rw [literalBody_cons, literalChar]
    split
    · show Pattern.closing? quote ('\\' :: c :: (literalBody quote cs ++ quote :: rest)) = _
      rw [Pattern.closing?_escape hquote.ne.symm, ih, Option.map_some, List.length_append,
        List.length_cons, List.length_singleton, Nat.add_assoc]
    · next hc =>
      show Pattern.closing? quote (c :: (literalBody quote cs ++ quote :: rest)) = _
      rw [Pattern.closing?_plain (fun h => hc (.inr h)) (fun h => hc (.inl h)), ih,
        Option.map_some, List.length_append, List.length_singleton, Nat.add_assoc]

end

variable {l : Lexicon} {p : Place} {quote : Char}

/-- A literal is one token, which stands for its text. -/
theorem scannedAs_literal (hl : lexicon = .ok l) (hquote : IsQuote quote) (text : String)
    (s : List Char) :
    ScannedAs l (literal quote text).toList s fun us =>
      ∃ t, us = [t] ∧ Derives.Leaf t (.string text) := by
  have htoken : ScannedAs l (literal quote text).toList s
      (IsToken .string (literal quote text).toList) := by
    rw [literal, String.toList_ofList]
    exact scannedAs_string hl hquote (closing?_literalBody hquote text.toList s)
  refine htoken.imp fun us hus => ?_
  obtain ⟨offset, rfl⟩ := hus
  refine ⟨_, rfl, ?_⟩
  have htext : unquote (String.ofList (literal quote text).toList) = text := by
    rw [unquote, String.toList_ofList, literal, String.toList_ofList, unquoteChars_quoted hquote,
      unescape_literalBody hquote, String.ofList_toList]
  have hleaf := Derives.Leaf.string
    (t := ⟨.string, offset, String.ofList (literal quote text).toList⟩) rfl
  rw [htext] at hleaf
  exact hleaf

/-- A block opens where two braces stand in front of something else than a comment or a literal
block. -/
theorem scan_blockOpen (hl : lexicon = .ok l) (hcontext : p.mode.context = .template) {c : Char}
    {rest : List Char} (hrest : p.rest = blockText ++ c :: rest) (hstar : c ≠ '*')
    (hpercent : c ≠ '%') :
    l.scan p = p.token .blockOpen 2 :: l.scan ((p.advance 2).enter .block) := by
  obtain ⟨m, hm⟩ := exists_matcher hl .template
  have hspells : ∀ {i : Nat} {d : TokenDef},
      (table.filter (·.context == .template))[i]? = some d →
        Spells d d.kind (delimiterText d.kind) :=
    fun hd => spells_of_mem (c := .template) nofun (List.mem_of_getElem? hd)
  -- the definitions in front of that of blocks look for a third character
  have hearlier : ∀ j < 2, ∀ d ∈ (table.filter (·.context == .template))[j]?,
      d.kind = .commentOpen ∨ d.kind = .literalOpen := by
    decide
  have hhit : Rule.hit? m.rules p.before p.rest =
      some (⟨⟨.template, .blockOpen, .normal, "\\\x7b\\\x7b", .block⟩, .fixed blockText⟩, 2) := by
    rw [hrest]
    refine hit?_of_spells hl hm _ (i := 2) rfl (hspells (i := 2) rfl) Nat.two_pos ⟨_, rfl⟩
      fun j hj d hd => ⟨_, _, hspells hd, fun hprefix => ?_⟩
    rcases hearlier j hj d hd with hkind | hkind
    · rw [hkind, delimiterText, openText, blockText] at hprefix
      exact hstar (by simpa [eq_comm] using hprefix)
    · rw [hkind, delimiterText, literalOpenText, blockText] at hprefix
      exact hpercent (by simpa [eq_comm] using hprefix)
  rw [← hcontext] at hm
  exact scan_hit hl hm hhit

/-- At the end of a block the text goes on. -/
theorem scan_blockClose (hl : lexicon = .ok l) (hblock : p.mode.context = .block) {rest : List Char}
    (hrest : p.rest = '\x7d' :: '\x7d' :: rest) :
    l.scan p = p.token .blockClose 2 :: l.scan ((p.advance 2).enter .template) := by
  obtain ⟨m, hm⟩ := exists_matcher hl .block
  have hhit := hit?_close p.before hl hm rest
  rw [← hrest] at hhit
  rw [← hblock] at hm
  exact scan_hit hl hm hhit

/-- A block is scanned from its opening to its end, and the text behind it between blocks. -/
theorem scan_block (hl : lexicon = .ok l) (hcontext : p.mode.context = .template) {c : Char}
    (hstar : c ≠ '*') (hpercent : c ≠ '%') {w s : List Char} {holds : List Token → Prop}
    (h : ScannedAs l (c :: w) ('\x7d' :: '\x7d' :: s) holds)
    (hrest : p.rest = blockText ++ (c :: w ++ '\x7d' :: '\x7d' :: s)) :
    ∃ left us right q, l.scan p = left :: (us ++ right :: l.scan q) ∧ left.kind = .blockOpen ∧
      holds us ∧ right.kind = .blockClose ∧ q.rest = s ∧ q.mode.context = .template := by
  have hopen := scan_blockOpen hl hcontext hrest hstar hpercent
  have hinside : ((p.advance 2).enter .block).rest = c :: w ++ '\x7d' :: '\x7d' :: s := by
    show p.rest.drop 2 = _
    rw [hrest]
    rfl
  obtain ⟨us, hscan, hus⟩ := h _ rfl hinside
  have hend : (((p.advance 2).enter .block).advance (c :: w).length).rest =
      '\x7d' :: '\x7d' :: s := by
    show ((p.advance 2).enter .block).rest.drop (c :: w).length = _
    rw [hinside, List.drop_left]
  have hclose := scan_blockClose hl rfl hend
  rw [hscan, hclose] at hopen
  refine ⟨_, us, _, _, hopen, rfl, hus, rfl, ?_, rfl⟩
  show (((p.advance 2).enter .block).advance (c :: w).length).rest.drop 2 = s
  rw [hend]
  rfl

/-- **A block that is scanned as an expression** is parsed to its node, if it starts like neither a
comment nor a literal block. -/
theorem parseTemplate_of_scannedAs (hl : lexicon = .ok l) {c : Char} {w : List Char} {n : Node}
    (hstar : c ≠ '*') (hpercent : c ≠ '%')
    (h : ScannedAs l (c :: w) ['\x7d', '\x7d'] fun us => ∃ isOpen, Derives.Expression isOpen us n) :
    parseTemplate (String.ofList (blockText ++ (c :: w ++ ['\x7d', '\x7d']))) =
      .ok { items := [.node n] } := by
  obtain ⟨left, us, right, q, hscan, hleft, ⟨isOpen, hus⟩, hright, hq, -⟩ :=
    scan_block hl (p := Place.start _ .template) rfl hstar hpercent h String.toList_ofList
  have hend : l.scan q = [] := Lexicon.scan_of_end (by rw [hq]; rfl)
  rw [hend] at hscan
  have hahead : kindAhead (us ++ [right]) ∉ [] := List.not_mem_nil
  have helements : Derives.Elements Derives.Body (left :: (us ++ [right]) ++ [])
      ([.node n] ++ []) [] :=
    .cons (.block hleft hahead (.expression hus hright)) .nil
  rw [List.append_nil, ← hscan] at helements
  exact parseTemplate_of_body hl (.mk helements)

/-! ## Literals that are parsed -/

/-- **A text reads back from its literal,** which is an expression by itself and the only item of a
template where it stands in a block. -/
theorem parse_literal (hquote : IsQuote quote) (text : String) :
    ∃ l, lexicon = .ok l ∧ l.parseExpression (literal quote text) = .ok (.string text) ∧
      parseTemplate ("\x7b\x7b" ++ literal quote text ++ "\x7d\x7d") =
        .ok { items := [.node (.string text)] } := by
  have hscanned : ∀ s, ScannedAs readLexicon (literal quote text).toList s fun us =>
      Derives.Expression false us (.string text) := by
    refine fun s => (scannedAs_literal lexicon_eq hquote text s).imp fun us hus => ?_
    obtain ⟨t, rfl, ht⟩ := hus
    exact Derives.expression_of_unary (.primary (.plain (.simple (.leaf ht))))
  refine ⟨readLexicon, lexicon_eq, ?_, ?_⟩
  · exact parseExpression_of_scannedAs lexicon_eq ((hscanned []).imp fun _ hus => .plain hus)
  · have hne : quote ≠ '*' ∧ quote ≠ '%' := by
      rcases hquote with rfl | rfl <;> decide
    have hsource : "\x7b\x7b" ++ literal quote text ++ "\x7d\x7d" =
        String.ofList (blockText ++ ((literal quote text).toList ++ ['\x7d', '\x7d'])) := by
      have hopen : "\x7b\x7b".toList = blockText := by decide
      have hclose : "\x7d\x7d".toList = ['\x7d', '\x7d'] := by decide
      apply String.toList_inj.mp
      rw [String.toList_append, String.toList_append, hopen, hclose, String.toList_ofList,
        List.append_assoc]
    have hinside : ScannedAs readLexicon (literal quote text).toList ['\x7d', '\x7d'] fun us =>
        ∃ isOpen, Derives.Expression isOpen us (.string text) :=
      (hscanned _).imp fun _ hus => ⟨false, hus⟩
    rw [hsource]
    rw [literal, String.toList_ofList] at hinside ⊢
    exact parseTemplate_of_scannedAs lexicon_eq hne.1 hne.2 hinside

/-- A text with both quotes, the ends of a block, and what looks like an escape. -/
theorem parse_literal_tricky :
    IsQuote '"' ∧ literal '"' "\x7d\x7d\"'\\u0041\n\\" = "\"\x7d\x7d\\\"'\\\\u0041\n\\\\\"" ∧
      ∃ l, lexicon = .ok l ∧
        l.parseExpression "\"\x7d\x7d\\\"'\\\\u0041\n\\\\\"" =
          .ok (.string "\x7d\x7d\"'\\u0041\n\\") ∧
        parseTemplate "\x7b\x7b\"\x7d\x7d\\\"'\\\\u0041\n\\\\\"\x7d\x7d" =
          .ok { items := [.node (.string "\x7d\x7d\"'\\u0041\n\\")] } := by
  have hliteral : literal '"' "\x7d\x7d\"'\\u0041\n\\" =
      "\"\x7d\x7d\\\"'\\\\u0041\n\\\\\"" := by
    decide
  obtain ⟨l, hl, hexpression, htemplate⟩ :=
    parse_literal (.inl rfl : IsQuote '"') "\x7d\x7d\"'\\u0041\n\\"
  rw [hliteral] at hexpression htemplate
  exact ⟨.inl rfl, hliteral, l, hl, hexpression, htemplate⟩

end Standard

end Stencil
