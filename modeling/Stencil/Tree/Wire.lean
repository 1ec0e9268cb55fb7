import Stencil.Json.Number
import Stencil.Json.Printer
import Stencil.Tree.Node

/-!
# The exchange format

A tree is exchanged as a JSON value. A node is an array that starts with the number of its tag and
goes on with its children; text of a template is a plain string. A whole template is an array of
items. It may stand in an envelope, `[["HISTONE", meta], items]`, which carries any value along.

`Node.toJson` writes a node and `Node.ofJson` reads it. Reading repairs nothing: the first thing
that is not as it should be is the error.
-/

namespace Stencil

/-! ## Writing -/

/-- A number by its text, or the text itself if it writes no number. -/
def Json.ofNumeral (text : String) : Json :=
  (Json.Number.ofText? text).getD (.string text)

/-- A list of texts. -/
def Json.ofTexts (texts : List String) : Json :=
  .array (texts.map .string)

/-- A text, or null if there is none. -/
def Json.ofText? : Option String → Json
  | none => .null
  | some s => .string s

/-- The array of a tag and its children. -/
def Tag.node (t : Tag) (children : List Json) : Json :=
  .array (.number (Text.natText t.code) :: children)

mutual

/-- A node in the exchange format. -/
def Node.toJson : Node → Json
  | .bool b => Tag.node (.bool b) []
  | .null => Tag.node .null []
  | .int n => Tag.node .int [.ofNumeral (Text.intText n)]
  | .decimal d => Tag.node .decimal [.ofNumeral d.text]
  | .string s => Tag.node .string [.string s]
  | .unary op a => Tag.node (.unary op) [a.toJson]
  | .binary op a b => Tag.node (.binary op) [a.toJson, b.toJson]
  | .ternary a b none => Tag.node .ternary [a.toJson, b.toJson]
  | .ternary a b (some c) => Tag.node .ternary [a.toJson, b.toJson, c.toJson]
  | .selector path => Tag.node .selector [.array (segmentsToJson path)]
  | .call none (.name f) args => Tag.node .call [.null, .string f, .array (nodesToJson args)]
  | .call none (.expr f) args => Tag.node .call [.null, f.toJson, .array (nodesToJson args)]
  | .call (some target) (.name f) args =>
    Tag.node .call [target.toJson, .string f, .array (nodesToJson args)]
  | .call (some target) (.expr f) args =>
    Tag.node .call [target.toJson, f.toJson, .array (nodesToJson args)]
  | .map entries => Tag.node .map [.array (entriesToJson entries)]
  | .statements items => Tag.node .statements [.array (itemsToJson items)]
  | .importFile path => Tag.node .importFile [.string path]
  | .conditional arms => Tag.node .conditional [.array (armsToJson arms)]
  | .binding name value => Tag.node .binding [.string name, value.toJson]
  | .loop names collection body none =>
    Tag.node .loop [.ofTexts names, collection.toJson, .array [.array (itemsToJson body)]]
  | .loop names collection body (some otherwise) =>
    Tag.node .loop
      [.ofTexts names, collection.toJson,
        .array [.array (itemsToJson body), .array (itemsToJson otherwise)]]
  | .macroDef name params body =>
    Tag.node .macroDef [.string name, .ofTexts params, .array (itemsToJson body)]
termination_by structural n => n

/-- Nodes in the exchange format. -/
def nodesToJson : List Node → List Json
  | [] => []
  | n :: ns => n.toJson :: nodesToJson ns
termination_by structural ns => ns

/-- A path in the exchange format. -/
def segmentsToJson : List Segment → List Json
  | [] => []
  | .name s :: ss => .string s :: segmentsToJson ss
  | .expr n :: ss => n.toJson :: segmentsToJson ss
termination_by structural ss => ss

/-- Map entries in the exchange format. -/
def entriesToJson : List Entry → List Json
  | [] => []
  | .mk key value :: es => .array [.ofText? key, value.toJson] :: entriesToJson es
termination_by structural es => es

/-- A chain of conditions in the exchange format. -/
def armsToJson : List Arm → List Json
  | [] => []
  | .mk condition body :: arms =>
    .array [condition.toJson, .array (itemsToJson body)] :: armsToJson arms
termination_by structural arms => arms

/-- The items of a body in the exchange format. -/
def itemsToJson : List Item → List Json
  | [] => []
  | .text s :: items => .string s :: itemsToJson items
  | .node n :: items => n.toJson :: itemsToJson items
termination_by structural items => items

end

/-! ## Reading -/

/-- Why a value is no tree. -/
inductive DecodeError where
  /-- A text that is neither JSON nor YAML. -/
  | unreadable
  | notAnArray (position : String) (found : Json)
  /-- An array that starts with no number of a tag. -/
  | unknownTag (found : Json)
  | arity (tag : Tag) (found : Nat)
  | invalidChild (tag : Tag) (expected : String) (found : Json)
  | invalidNumber (tag : Tag) (text : String)
  deriving Repr

namespace DecodeError

/-- How a message writes the numbers of children that a tag allows. -/
def childCountText (tag : Tag) : String :=
  String.intercalate " or " (tag.childCounts.map Text.natText)

/-- The text of an error. -/
def message : DecodeError → String
  | unreadable => "cannot read AST: neither JSON nor YAML"
  | notAnArray position found =>
    "expected an array for " ++ position ++ ", found " ++ found.compact
  | unknownTag found => "unknown node tag " ++ found.compact
  | arity tag found =>
    tag.name ++ " node expects " ++ childCountText tag ++ " children, found " ++ Text.natText found
  | invalidChild tag expected found =>
    tag.name ++ " node expects " ++ expected ++ ", found " ++ found.compact
  | invalidNumber tag text => tag.name ++ " node holds an invalid number '" ++ text ++ "'"

end DecodeError

/-- What reading a part of a tree gives. -/
abbrev Decoded := Except DecodeError

namespace Json

/-- The tag that the first element of a node names. -/
def tag? : Json → Option Tag
  | number text => (Text.int64? text.toList).bind Tag.ofCode?
  | _ => none

/-- A string in the place of a child. -/
def asText (tag : Tag) (expected : String) : Json → Decoded String
  | string s => .ok s
  | v => .error (.invalidChild tag expected v)

/-- The text of a number in the place of a child. -/
def asNumeral (tag : Tag) : Json → Decoded String
  | number text => .ok text
  | v => .error (.invalidChild tag "a number" v)

/-- A list of strings in the place of a child. -/
def asTexts (tag : Tag) (expected : String) : Json → Decoded (List String)
  | array xs => xs.mapM (asText tag expected)
  | v => .error (.notAnArray expected v)

/-- The key of a map entry, which may be missing. -/
def asKey : Json → Decoded (Option String)
  | null => .ok none
  | v => some <$> asText .map "a string or null map key" v

/-- A whole number in the place of a child. -/
def asInt (v : Json) : Decoded Int := do
  let text ← asNumeral .int v
  match Text.grouped? text.toList with
  | some n => return n
  | none => throw (.invalidNumber .int text)

/-- A decimal in the place of a child. -/
def asDecimal (v : Json) : Decoded Decimal := do
  let text ← asNumeral .decimal v
  match Decimal.ofText? text with
  | some d => return d
  | none => throw (.invalidNumber .decimal text)

/-- Refuses what can be neither a name nor a node in a path. -/
def checkStep (tag : Tag) : Json → Decoded Unit
  | string _ | array _ => .ok ()
  | v => .error (.invalidChild tag "a name or a node as path segment" v)

end Json

mutual

/-- The node that a value writes. -/
def Node.ofJson : Json → Decoded Node
  | .array (first :: children) =>
    match first.tag? with
    | none => throw (.unknownTag (.array (first :: children)))
    | some tag =>
      match tag, children with
      | .bool b, [] => return .bool b
      | .null, [] => return .null
      | .int, [x] => return .int (← x.asInt)
      | .decimal, [x] => return .decimal (← x.asDecimal)
      | .string, [x] => return .string (← x.asText .string "a string")
      | .unary op, [x] => return .unary op (← Node.ofJson x)
      | .binary op, [x, y] => do
        let a ← Node.ofJson x
        let b ← Node.ofJson y
        return .binary op a b
      | .ternary, [x, y] => do
        let a ← Node.ofJson x
        let b ← Node.ofJson y
        return .ternary a b none
      | .ternary, [x, y, z] => do
        let a ← Node.ofJson x
        let b ← Node.ofJson y
        let c ← Node.ofJson z
        return .ternary a b (some c)
      | .selector, [.array []] => throw (.invalidChild .selector "a non-empty path" (.array []))
      | .selector, [.array xs] => return .selector (← segmentsOfJson xs)
      | .selector, [x] => throw (.notAnArray "a selector path" x)
      | .call, [.null, .string f, args] => return .call none (.name f) (← argsOfJson args)
      | .call, [.null, f, args] => do
        let args ← argsOfJson args
        f.checkStep .call
        let f ← Node.ofJson f
        return .call none (.expr f) args
      | .call, [target, .string f, args] => do
        let target ← Node.ofJson target
        let args ← argsOfJson args
        return .call (some target) (.name f) args
      | .call, [target, f, args] => do
        let target ← Node.ofJson target
        let args ← argsOfJson args
        f.checkStep .call
        let f ← Node.ofJson f
        return .call (some target) (.expr f) args
      | .map, [.array xs] => return .map (← entriesOfJson xs)
      | .map, [x] => throw (.notAnArray "map entries" x)
      | .statements, [x] => return .statements (← bodyOfJson "statements" x)
      | .importFile, [x] => return .importFile (← x.asText .importFile "a path string")
      | .conditional, [.array xs] => return .conditional (← armsOfJson xs)
      | .conditional, [x] => throw (.notAnArray "if arms" x)
      | .binding, [x, y] => do
        let name ← x.asText .binding "a variable name"
        let value ← Node.ofJson y
        return .binding name value
      | .loop, [x, y, bodies] => do
        let names ← x.asTexts .loop "bound names"
        if names.isEmpty || names.length > 2 then
          throw (.invalidChild .loop "one or two bound names" x)
        match bodies with
        | .array [b] => do
          let body ← bodyOfJson "a loop body" b
          let collection ← Node.ofJson y
          return .loop names collection body none
        | .array [b, e] => do
          let body ← bodyOfJson "a loop body" b
          let otherwise ← bodyOfJson "an else body" e
          let collection ← Node.ofJson y
          return .loop names collection body (some otherwise)
        | .array xs => throw (.invalidChild .loop "one or two bodies" (.array xs))
        | v => throw (.notAnArray "loop bodies" v)
      | .macroDef, [x, y, z] => do
        let name ← x.asText .macroDef "a macro name"
        let params ← y.asTexts .macroDef "parameter names"
        let body ← bodyOfJson "a macro body" z
        return .macroDef name params body
      | tag, children => throw (.arity tag children.length)
  | .array [] => throw (.unknownTag (.array []))
  | v => throw (.notAnArray "a node" v)
termination_by structural v => v

/-- The arguments that a value writes. -/
def argsOfJson : Json → Decoded (List Node)
  | .array xs => nodesOfJson xs
  | v => throw (.notAnArray "call arguments" v)
termination_by structural v => v

/-- The nodes that values write. -/
def nodesOfJson : List Json → Decoded (List Node)
  | [] => return []
  | x :: xs => do
    let n ← Node.ofJson x
    let ns ← nodesOfJson xs
    return n :: ns
termination_by structural xs => xs

/-- The path that values write. -/
def segmentsOfJson : List Json → Decoded (List Segment)
  | [] => return []
  | .string s :: xs => do
    let ss ← segmentsOfJson xs
    return .name s :: ss
  | x :: xs => do
    x.checkStep .selector
    let n ← Node.ofJson x
    let ss ← segmentsOfJson xs
    return .expr n :: ss
termination_by structural xs => xs

/-- The map entries that values write. -/
def entriesOfJson : List Json → Decoded (List Entry)
  | [] => return []
  | .array [k, v] :: xs => do
    let key ← k.asKey
    let value ← Node.ofJson v
    let es ← entriesOfJson xs
    return .mk key value :: es
  | .array ys :: _ => throw (.invalidChild .map "a [key, value] pair" (.array ys))
  | v :: _ => throw (.notAnArray "a map entry" v)
termination_by structural xs => xs

/-- The chain of conditions that values write. -/
def armsOfJson : List Json → Decoded (List Arm)
  | [] => return []
  | .array [c, b] :: xs => do
    let condition ← Node.ofJson c
    let body ← bodyOfJson "an if body" b
    let arms ← armsOfJson xs
    return .mk condition body :: arms
  | .array ys :: _ => throw (.invalidChild .conditional "a [condition, body] pair" (.array ys))
  | v :: _ => throw (.notAnArray "an if arm" v)
termination_by structural xs => xs

/-- The body that a value writes; `position` says in messages what it is the body of. -/
def bodyOfJson (position : String) : Json → Decoded (List Item)
  | .array xs => itemsOfJson xs
  | v => throw (.notAnArray position v)
termination_by structural v => v

/-- The items that values write. -/
def itemsOfJson : List Json → Decoded (List Item)
  | [] => return []
  | .string s :: xs => do
    let items ← itemsOfJson xs
    return .text s :: items
  | x :: xs => do
    let n ← Node.ofJson x
    let items ← itemsOfJson xs
    return .node n :: items
termination_by structural xs => xs

end

/-! ## Templates -/

/-- A template: its items, and a value that travels along with them. -/
structure Template where
  items : List Item
  signature : Option Json := none

namespace Template

/-- The mark of an envelope. -/
def mark : String := "HISTONE"

/-- The value that an envelope carries and the value inside it. A value that is no envelope is
taken as a bare template. -/
def openEnvelope : Json → Option Json × Json
  | .array [.array (.string s :: header), root] =>
    if s = mark then (some (header.head?.getD .null), root)
    else (none, .array [.array (.string s :: header), root])
  | v => (none, v)

/-- A template in the exchange format. -/
def toJson (t : Template) : Json :=
  let root := Json.array (itemsToJson t.items)
  match t.signature with
  | none => root
  | some meta_ => .array [.array [.string mark, meta_], root]

/-- The template that a value writes. -/
def ofJson (v : Json) : Decoded Template := do
  let (signature, root) := openEnvelope v
  let items ← bodyOfJson "a template body" root
  return { items, signature }

end Template

end Stencil
