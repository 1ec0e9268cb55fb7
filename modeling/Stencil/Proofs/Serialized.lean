import Stencil.Output.Registry
import Stencil.Proofs.JsonReadBack
import Stencil.Proofs.ParsedShape
import Stencil.Tree.Document

/-!
# Templates as JSON texts

A template is stored as a JSON text, on one line or on many. The text is read as the value that was
written, unless this nests too deep for the reader, and the value is read as the template.

> `Template.serialize_readsBack`: both forms read back, up to the depth that the reader allows.
-/

namespace Stencil

namespace Notation

/-- Both forms of a canonical value read back from their texts, if it does not nest too deep. -/
theorem read_chars {layout : Json.Layout} (hlayout : layout.Lawful) {v : Json} (h : v.Canonical) :
    json.read (String.ofList (v.chars layout 0)) =
      if v.nesting ≤ Json.depthLimit then .ok v else .error .unreadable := by
  unfold read
  dsimp only
  rw [Json.read?_chars hlayout h]
  by_cases hdeep : v.nesting ≤ Json.depthLimit
  · rw [if_pos hdeep, if_pos hdeep]
  · rw [if_neg hdeep, if_neg hdeep]

theorem canonical_of_read {text : String} {v : Json} (h : json.read text = .ok v) :
    v.Canonical := by
  unfold read at h
  dsimp only at h
  split at h
  · next hv =>
    cases h
    exact Json.canonical_of_read? hv
  · cases h

end Notation

namespace Template

/-- The items of a template that was parsed, over any vocabulary, or that was read from a value. -/
def Built (items : List Item) : Prop :=
  (∃ (l : Lexicon) (source : String) (start : Context), l.parseFrom source start = .ok items) ∨
    ∃ v signature, ofJson v = .ok ⟨items, signature⟩

theorem Built.wellFormed {items : List Item} (h : Built items) : itemsWellFormed items := by
  rcases h with ⟨l, source, start, h⟩ | ⟨v, signature, h⟩
  · exact Lexicon.wellFormed_parseFrom h
  · exact wellFormed_ofJson h

/-- The formats that write JSON differ in their layout. -/
theorem serialize_json (t : Template) {name : String} (h : name = "ast-json" ∨
    name = "ast-json-pretty") : ∃ layout : Json.Layout, layout.Lawful ∧
      Registry.standard.serialize t name = .ok (String.ofList (t.toJson.chars layout 0)) := by
  rcases h with rfl | rfl
  · exact ⟨.compact, Json.Layout.lawful_compact, rfl⟩
  · exact ⟨.indented, Json.Layout.lawful_indented, rfl⟩

/-- **Both JSON forms read back.** A template whose items were parsed or read, and whose signature,
if it has one, was read from a JSON text, is written in either form. The text is read as the value
that was written if this nests at most 127 deep, and is refused otherwise. The value is read as the
template. -/
theorem serialize_readsBack {t : Template} (hitems : Built t.items)
    (hsignature : ∀ v, t.signature = some v → ∃ text, Notation.json.read text = .ok v)
    {name : String} (hname : name = "ast-json" ∨ name = "ast-json-pretty") :
    ∃ text, Registry.standard.serialize t name = .ok text ∧
      (t.toJson.nesting ≤ 127 → Notation.json.read text = .ok t.toJson) ∧
      (127 < t.toJson.nesting → Notation.json.read text = .error .unreadable) ∧
      ofJson t.toJson = .ok t := by
  have hcanonical : t.toJson.Canonical := by
    refine canonical_toJson fun v hv => ?_
    obtain ⟨text, hread⟩ := hsignature v hv
    exact Notation.canonical_of_read hread
  obtain ⟨layout, hlayout, hwrite⟩ := serialize_json t hname
  have hread := Notation.read_chars hlayout hcanonical
  refine ⟨_, hwrite, fun hdeep => ?_, fun hdeep => ?_, ofJson_toJson hitems.wellFormed⟩
  · exact hread.trans (if_pos hdeep)
  · exact hread.trans (if_neg (Nat.not_le_of_lt hdeep))

/-- Quotes, a control and a decimal, and a signature whose members come in another order than they
are written in. -/
theorem serialize_readsBack_signed :
    ∃ t signature, Built t.items ∧ t.signature = some signature ∧
      Notation.json.read "\x7b\"b\": \"\\u0001\\n\", \"a\": [1E5]\x7d" = .ok signature ∧
      t.toJson.nesting = 4 ∧
      ∃ text, Registry.standard.serialize t "ast-json-pretty" = .ok text ∧
        Notation.json.read text = .ok t.toJson ∧ ofJson t.toJson = .ok t := by
  have hread : Notation.json.read "\x7b\"b\": \"\\u0001\\n\", \"a\": [1E5]\x7d" =
      .ok (.object [("a", .array [.number "1e+5"]), ("b", .string "\x01\n")]) := by
    rfl
  have hbuilt : ofJson (.array [.string "\"\x7f\"", .array [.number "102", .number "-1.50"]]) =
      .ok ⟨[.text "\"\x7f\"", .node (.decimal ⟨-150, 2⟩)], none⟩ := by
    rfl
  let t : Template := ⟨[.text "\"\x7f\"", .node (.decimal ⟨-150, 2⟩)],
    some (.object [("a", .array [.number "1e+5"]), ("b", .string "\x01\n")])⟩
  have hitems : Built t.items := .inr ⟨_, _, hbuilt⟩
  have hsignature : ∀ v, t.signature = some v → ∃ text, Notation.json.read text = .ok v := by
    rintro _ ⟨⟩
    exact ⟨_, hread⟩
  have hnesting : t.toJson.nesting = 4 := by decide
  obtain ⟨text, hwrite, hback, -, htemplate⟩ := serialize_readsBack hitems hsignature (.inr rfl)
  exact ⟨t, _, hitems, rfl, hread, hnesting, text, hwrite, hback (by rw [hnesting]; decide),
    htemplate⟩

end Template

end Stencil
