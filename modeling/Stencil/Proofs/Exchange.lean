import Stencil.Proofs.ParsedShape
import Stencil.Proofs.RoundTrip

/-!
# What is parsed or read can be exchanged

The trees of templates come from two places: the parser, over a vocabulary of any kind, and the
exchange format itself. Both build only well-formed trees (`Stencil.Proofs.ParsedShape`,
`Stencil.Proofs.TreeShape`), and well-formed trees read back (`Stencil.Proofs.RoundTrip`).

> `exchange_roundTrip`: every tree from either place survives being written and read.
-/

namespace Stencil

/-- **The exchange loses nothing.** For every vocabulary and every start context, the items of a
parsed template read back, with any value in the envelope or with none, and so does the node of a
parsed expression. Whatever was read from the exchange format reads back as well. Numbers are
always written as numbers, and a bare template is never taken for an envelope. -/
theorem exchange_roundTrip (l : Lexicon) :
    (∀ source start items, l.parseFrom source start = .ok items → ∀ signature,
      Template.ofJson (Template.toJson ⟨items, signature⟩) = .ok ⟨items, signature⟩) ∧
    (∀ source n, l.parseExpression source = .ok n → Node.ofJson n.toJson = .ok n) ∧
    (∀ v t, Template.ofJson v = .ok t → Template.ofJson t.toJson = .ok t) ∧
    (∀ v n, Node.ofJson v = .ok n → Node.ofJson n.toJson = .ok n) ∧
    (∀ n : Int, Json.ofNumeral (Text.intText n) = .number (Text.intText n)) ∧
    (∀ d : Decimal, Json.ofNumeral d.text = .number d.text) ∧
    (∀ items, Template.openEnvelope (Template.toJson ⟨items, none⟩)
      = (none, Template.toJson ⟨items, none⟩)) := by
  refine ⟨?_, ?_, ?_, ?_, Json.ofNumeral_int, Json.ofNumeral_decimal, ?_⟩
  · intro source start items h signature
    have hitems : itemsWellFormed items := Lexicon.wellFormed_parseFrom h
    exact Template.ofJson_toJson hitems
  · intro source n h
    exact Node.ofJson_toJson n (Lexicon.wellFormed_parseExpression h)
  · intro v t h
    exact Template.ofJson_toJson (Template.wellFormed_ofJson h)
  · intro v n h
    exact Node.ofJson_toJson n (Node.wellFormed_ofJson h)
  · exact Template.openEnvelope_itemsToJson

/-- A small vocabulary: blocks with names, decimals, calls and maps. -/
def smallTable : TokenTable := [
    ⟨.template, .blockOpen, .normal, "\\\x7b\\\x7b", .block⟩,
    ⟨.block, .blockClose, .normal, "\\\x7d\\\x7d", .template⟩,
    ⟨.block, .whitespace, .ignore, " +", .stay⟩,
    ⟨.block, .double, .literal, "[0-9]+\\.[0-9]+", .stay⟩,
    ⟨.block, .identifier, .literal, "[a-z]+", .stay⟩,
    ⟨.block, .dot, .normal, "\\.", .stay⟩,
    ⟨.block, .leftParen, .normal, "\\(", .stay⟩,
    ⟨.block, .rightParen, .normal, "\\)", .stay⟩,
    ⟨.block, .leftBracket, .normal, "\\[", .stay⟩,
    ⟨.block, .rightBracket, .normal, "\\]", .stay⟩,
    ⟨.block, .colon, .normal, ":", .stay⟩]

/-- A template and an expression in a small vocabulary, an envelope and a node that were read. -/
theorem exchange_roundTrip_small :
    ∃ l items n t m, Lexicon.compile smallTable = .ok l ∧
      l.parseFrom "a\x7b\x7bx[1.50].y(z)\x7d\x7db" .template = .ok items ∧
      l.parseExpression "[b: 1.5]" = .ok n ∧
      Template.ofJson (.array [.array [.string "HISTONE"], .array [.string "a"]]) = .ok t ∧
      Node.ofJson (.array [.number "102", .number "15e-1"]) = .ok m ∧
      Template.ofJson (Template.toJson ⟨items, some (.string "v")⟩) =
        .ok ⟨items, some (.string "v")⟩ ∧
      Node.ofJson n.toJson = .ok n ∧
      Template.ofJson t.toJson = .ok t ∧
      Node.ofJson m.toJson = .ok m := by
  have hrun : (match Lexicon.compile smallTable with
      | .error _ => false
      | .ok l =>
        (l.parseFrom "a\x7b\x7bx[1.50].y(z)\x7d\x7db" .template).isOk &&
          (l.parseExpression "[b: 1.5]").isOk) = true := by
    decide +kernel
  have ht : Template.ofJson (.array [.array [.string "HISTONE"], .array [.string "a"]])
      = .ok ⟨[.text "a"], some .null⟩ := by
    rfl
  have hm : Node.ofJson (.array [.number "102", .number "15e-1"]) = .ok (.decimal ⟨15, 1⟩) := by
    rfl
  cases hl : Lexicon.compile smallTable with
  | error e => rw [hl] at hrun; cases hrun
  | ok l =>
    simp only [hl, Bool.and_eq_true] at hrun
    cases hp : l.parseFrom "a\x7b\x7bx[1.50].y(z)\x7d\x7db" .template with
    | error e => rw [hp] at hrun; cases hrun.1
    | ok items =>
      cases he : l.parseExpression "[b: 1.5]" with
      | error e => rw [he] at hrun; cases hrun.2
      | ok n =>
        have hround := exchange_roundTrip l
        exact ⟨l, items, n, _, _, rfl, hp, he, ht, hm, hround.1 _ _ _ hp _, hround.2.1 _ _ he,
          hround.2.2.1 _ _ ht, hround.2.2.2.1 _ _ hm⟩

end Stencil
