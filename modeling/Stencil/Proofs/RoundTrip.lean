import Stencil.Proofs.TreeShape

/-!
# The exchange format reads back

Writing a well-formed tree and reading it again gives the tree. The encoder writes every number as
a number, never as a string, and the first element of an encoded node is a number, so a bare
template is not taken for an envelope.

> `Node.ofJson_toJson`: a well-formed node reads back.
> `Template.ofJson_toJson`: so does a template, with the value that travels along or without one.
-/

namespace Stencil

/-! ## What a node is written as -/

/-- The text of a whole number is a JSON number as it stands. -/
theorem Json.ofNumeral_int (n : Int) :
    Json.ofNumeral (Text.intText n) = .number (Text.intText n) := by
  unfold Json.ofNumeral
  rw [Json.Number.ofText?_int]
  rfl

/-- So is the text of a decimal. -/
theorem Json.ofNumeral_decimal (d : Decimal) : Json.ofNumeral d.text = .number d.text := by
  unfold Json.ofNumeral
  rw [Json.Number.ofText?_decimal]
  rfl

/-- The number of a tag names the tag. -/
theorem Tag.tag?_code (t : Tag) : (Json.number (Text.natText t.code)).tag? = some t := by
  cases t with
  | binary op => cases op <;> rfl
  | unary op => cases op <;> rfl
  | bool b => cases b <;> rfl
  | _ => rfl

/-- A node is an array that starts with the number of its tag. -/
theorem Node.toJson_eq_node (n : Node) : ∃ children, n.toJson = n.tag.node children := by
  cases n with
  | ternary a b c => cases c <;> exact ⟨_, by rw [Node.toJson]; rfl⟩
  | call target name args =>
    cases target <;> cases name <;> exact ⟨_, by rw [Node.toJson]; rfl⟩
  | loop names collection body otherwise =>
    cases otherwise <;> exact ⟨_, by rw [Node.toJson]; rfl⟩
  | _ => exact ⟨_, by rw [Node.toJson]; rfl⟩

/-- So it is an array, and neither null nor a string. -/
theorem Node.toJson_eq_array (n : Node) :
    ∃ children, n.toJson = .array (.number (Text.natText n.tag.code) :: children) :=
  n.toJson_eq_node

/-! ## Reading the parts of a node -/

/-- A whole number reads back from its numeral. -/
theorem Json.asInt_numeral (n : Int) : (Json.ofNumeral (Text.intText n)).asInt = .ok n := by
  rw [Json.ofNumeral_int]
  unfold asInt asNumeral
  simp only [Text.intText, String.toList_ofList, Text.grouped?_intChars, bind, Except.bind]
  rfl

/-- A decimal reads back from its numeral if its scale is within the limit. -/
theorem Json.asDecimal_numeral {d : Decimal} (h : d.scale ≤ Decimal.maxShift) :
    (Json.ofNumeral d.text).asDecimal = .ok d := by
  rw [Json.ofNumeral_decimal]
  unfold asDecimal asNumeral
  simp only [Decimal.ofText?_text h, bind, Except.bind]
  rfl

theorem Json.mapM_asText (tag : Tag) (expected : String) :
    ∀ texts : List String, (texts.map Json.string).mapM (asText tag expected) = .ok texts
  | [] => rfl
  | s :: texts => by
    rw [List.map_cons, List.mapM_cons, Json.mapM_asText tag expected texts]
    rfl

/-- A list of texts reads back. -/
theorem Json.asTexts_ofTexts (tag : Tag) (expected : String) (texts : List String) :
    (Json.ofTexts texts).asTexts tag expected = .ok texts :=
  Json.mapM_asText tag expected texts

theorem Json.asKey_ofText? (key : Option String) : (Json.ofText? key).asKey = .ok key := by
  cases key <;> rfl

/-- A path is written as at least one value. -/
theorem segmentsToJson_ne_nil {path : List Segment} (h : path ≠ []) :
    ∃ x xs, segmentsToJson path = x :: xs := by
  cases path with
  | nil => exact absurd rfl h
  | cons s ss =>
    cases s with
    | name s => exact ⟨_, _, by rw [segmentsToJson]⟩
    | expr n => exact ⟨_, _, by rw [segmentsToJson]⟩

/-- One or two names pass the check of a loop. -/
theorem loop_guard {names : List String} (h : names.length = 1 ∨ names.length = 2) :
    (names.isEmpty || decide (names.length > 2)) = false := by
  cases names with
  | nil => simp at h
  | cons n ns =>
    rw [Bool.or_eq_false_iff]
    exact ⟨rfl, decide_eq_false (by omega)⟩

/-! ## Reading a node back -/

mutual

/-- A well-formed node reads back from what it is written as. The recursion is that of the writer:
each kind of node has its own tag, which selects its own case of the reader. -/
theorem Node.ofJson_toJson : ∀ n : Node, n.WellFormed → Node.ofJson n.toJson = .ok n
  | .bool b, _ => by
    simp only [Node.toJson, Tag.node, Node.ofJson, Tag.tag?_code]
    rfl
  | .null, _ => by
    simp only [Node.toJson, Tag.node, Node.ofJson, Tag.tag?_code]
    rfl
  | .int n, _ => by
    simp only [Node.toJson, Tag.node, Node.ofJson, Tag.tag?_code, Json.asInt_numeral]
    rfl
  | .decimal d, h => by
    simp only [Node.toJson, Tag.node, Node.ofJson, Tag.tag?_code, Json.asDecimal_numeral h]
    rfl
  | .string s, _ => by
    simp only [Node.toJson, Tag.node, Node.ofJson, Tag.tag?_code]
    rfl
  | .unary op a, h => by
    simp only [Node.toJson, Tag.node, Node.ofJson, Tag.tag?_code, Node.ofJson_toJson a h]
    rfl
  | .binary op a b, h => by
    simp only [Node.toJson, Tag.node, Node.ofJson, Tag.tag?_code, Node.ofJson_toJson a h.1,
      Node.ofJson_toJson b h.2]
    rfl
  | .ternary a b none, h => by
    simp only [Node.toJson, Tag.node, Node.ofJson, Tag.tag?_code, Node.ofJson_toJson a h.1,
      Node.ofJson_toJson b h.2.1]
    rfl
  | .ternary a b (some c), h => by
    simp only [Node.toJson, Tag.node, Node.ofJson, Tag.tag?_code, Node.ofJson_toJson a h.1,
      Node.ofJson_toJson b h.2.1, Node.ofJson_toJson c h.2.2]
    rfl
  | .selector path, h => by
    obtain ⟨x, xs, hx⟩ := segmentsToJson_ne_nil h.1
    have hp := segmentsOfJson_toJson path h.2
    rw [hx] at hp
    simp only [Node.toJson, Tag.node, Node.ofJson, Tag.tag?_code, hx, hp]
    rfl
  | .call none (.name f) args, h => by
    simp only [Node.toJson, Tag.node, Node.ofJson, Tag.tag?_code, argsOfJson,
      nodesOfJson_toJson args h.2.2]
    rfl
  | .call none (.expr f) args, h => by
    -- a name that is a node is no string, so that the reader takes the branch for nodes
    obtain ⟨fs, hfs⟩ := f.toJson_eq_array
    have hf := Node.ofJson_toJson f h.2.1
    rw [hfs] at hf
    simp only [Node.toJson, Tag.node, hfs]
    rw [Node.ofJson]
    simp only [Tag.tag?_code, argsOfJson, nodesOfJson_toJson args h.2.2, Json.checkStep, hf]
    rfl
  | .call (some t) (.name f) args, h => by
    obtain ⟨ts, hts⟩ := t.toJson_eq_array
    have ht := Node.ofJson_toJson t h.1
    rw [hts] at ht
    simp only [Node.toJson, Tag.node, hts]
    rw [Node.ofJson]
    simp only [Tag.tag?_code, argsOfJson, nodesOfJson_toJson args h.2.2, ht]
    rfl
  | .call (some t) (.expr f) args, h => by
    obtain ⟨ts, hts⟩ := t.toJson_eq_array
    obtain ⟨fs, hfs⟩ := f.toJson_eq_array
    have ht := Node.ofJson_toJson t h.1
    have hf := Node.ofJson_toJson f h.2.1
    rw [hts] at ht
    rw [hfs] at hf
    simp only [Node.toJson, Tag.node, hts, hfs]
    rw [Node.ofJson]
    simp only [Tag.tag?_code, argsOfJson, nodesOfJson_toJson args h.2.2, Json.checkStep, ht, hf]
    rfl
  | .map entries, h => by
    simp only [Node.toJson, Tag.node, Node.ofJson, Tag.tag?_code,
      entriesOfJson_toJson entries h]
    rfl
  | .statements items, h => by
    simp only [Node.toJson, Tag.node, Node.ofJson, Tag.tag?_code, bodyOfJson,
      itemsOfJson_toJson items h]
    rfl
  | .importFile path, _ => by
    simp only [Node.toJson, Tag.node, Node.ofJson, Tag.tag?_code]
    rfl
  | .conditional arms, h => by
    simp only [Node.toJson, Tag.node, Node.ofJson, Tag.tag?_code, armsOfJson_toJson arms h]
    rfl
  | .binding name value, h => by
    simp only [Node.toJson, Tag.node, Node.ofJson, Tag.tag?_code, Node.ofJson_toJson value h]
    rfl
  | .loop names collection body none, h => by
    -- the reader checks the number of names before it reads the bodies
    have hg := loop_guard h.1
    simp only [Node.toJson, Tag.node, Node.ofJson, Tag.tag?_code, Json.asTexts_ofTexts, bodyOfJson,
      Node.ofJson_toJson collection h.2.1, itemsOfJson_toJson body h.2.2.1, bind, Except.bind, hg]
    rfl
  | .loop names collection body (some otherwise), h => by
    have hg := loop_guard h.1
    simp only [Node.toJson, Tag.node, Node.ofJson, Tag.tag?_code, Json.asTexts_ofTexts, bodyOfJson,
      Node.ofJson_toJson collection h.2.1, itemsOfJson_toJson body h.2.2.1,
      itemsOfJson_toJson otherwise h.2.2.2, bind, Except.bind, hg]
    rfl
  | .macroDef name params body, h => by
    simp only [Node.toJson, Tag.node, Node.ofJson, Tag.tag?_code, Json.asTexts_ofTexts, bodyOfJson,
      itemsOfJson_toJson body h]
    rfl

theorem nodesOfJson_toJson : ∀ ns : List Node, nodesWellFormed ns →
    nodesOfJson (nodesToJson ns) = .ok ns
  | [], _ => rfl
  | n :: ns, h => by
    simp only [nodesToJson, nodesOfJson, Node.ofJson_toJson n h.1, nodesOfJson_toJson ns h.2]
    rfl

/-- The steps of a path read back; no node is written as a string, so names and expressions are told
apart. -/
theorem segmentsOfJson_toJson : ∀ path : List Segment, pathWellFormed path →
    segmentsOfJson (segmentsToJson path) = .ok path
  | [], _ => rfl
  | .name s :: path, h => by
    simp only [segmentsToJson, segmentsOfJson, segmentsOfJson_toJson path h.2]
    rfl
  | .expr n :: path, h => by
    obtain ⟨xs, hxs⟩ := n.toJson_eq_array
    have hn := Node.ofJson_toJson n h.1
    rw [hxs] at hn
    simp only [segmentsToJson, hxs]
    rw [segmentsOfJson]
    · simp only [Json.checkStep, hn, segmentsOfJson_toJson path h.2]
      rfl
    · intro s hs
      cases hs

/-- The entries of a map read back, keyed or not. -/
theorem entriesOfJson_toJson : ∀ entries : List Entry, entriesWellFormed entries →
    entriesOfJson (entriesToJson entries) = .ok entries
  | [], _ => rfl
  | .mk key value :: entries, h => by
    simp only [entriesToJson, entriesOfJson, Json.asKey_ofText?, Node.ofJson_toJson value h.1,
      entriesOfJson_toJson entries h.2]
    rfl

/-- The arms of a condition read back. -/
theorem armsOfJson_toJson : ∀ arms : List Arm, armsWellFormed arms →
    armsOfJson (armsToJson arms) = .ok arms
  | [], _ => rfl
  | .mk condition body :: arms, h => by
    simp only [armsToJson, armsOfJson, bodyOfJson, Node.ofJson_toJson condition h.1,
      itemsOfJson_toJson body h.2.1, armsOfJson_toJson arms h.2.2]
    rfl

/-- Items read back; texts are strings and no node is. -/
theorem itemsOfJson_toJson : ∀ items : List Item, itemsWellFormed items →
    itemsOfJson (itemsToJson items) = .ok items
  | [], _ => rfl
  | .text s :: items, h => by
    simp only [itemsToJson, itemsOfJson, itemsOfJson_toJson items h]
    rfl
  | .node n :: items, h => by
    obtain ⟨xs, hxs⟩ := n.toJson_eq_array
    have hn := Node.ofJson_toJson n h.1
    rw [hxs] at hn
    simp only [itemsToJson, hxs]
    rw [itemsOfJson]
    · simp only [hn, itemsOfJson_toJson items h.2]
      rfl
    · intro s hs
      cases hs

end

/-! ## Templates -/

namespace Template

/-- A body is never taken for an envelope: what starts an encoded node is a number. -/
theorem openEnvelope_itemsToJson (items : List Item) :
    openEnvelope (.array (itemsToJson items)) = (none, .array (itemsToJson items)) := by
  unfold openEnvelope
  split
  · next s header root heq =>
    exfalso
    rw [Json.array.injEq] at heq
    cases items with
    | nil => rw [itemsToJson] at heq; cases heq
    | cons item items =>
      cases item with
      | text s => rw [itemsToJson] at heq; cases heq
      | node n =>
        obtain ⟨children, hn⟩ := n.toJson_eq_array
        rw [itemsToJson, hn] at heq
        cases heq
  · rfl

/-- An envelope opens to the signature and the root that were put in it. -/
theorem openEnvelope_envelope (carried root : Json) :
    openEnvelope (.array [.array [.string mark, carried], root]) = (some carried, root) :=
  rfl

/-- **Templates read back**, bare or in an envelope. -/
theorem ofJson_toJson {t : Template} (h : itemsWellFormed t.items) : ofJson t.toJson = .ok t := by
  obtain ⟨items, signature⟩ := t
  have hitems : itemsOfJson (itemsToJson items) = .ok items := itemsOfJson_toJson items h
  cases signature with
  | none =>
    unfold ofJson toJson
    dsimp only
    rw [openEnvelope_itemsToJson]
    simp only [bodyOfJson, hitems]
    rfl
  | some carried =>
    unfold ofJson toJson
    dsimp only
    rw [openEnvelope_envelope]
    simp only [bodyOfJson, hitems]
    rfl

end Template

end Stencil
