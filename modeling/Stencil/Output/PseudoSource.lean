import Stencil.Tree.Node

/-!
# Pseudo-source

A tree is shown as readable source. It need not parse again: strings lose their quotes, every
operation gets brackets, and each arm of a chain of conditions is a condition of its own.

A rendering is a list of pieces. A piece is a text with the number of indents that stand before it,
so the indent itself comes in only when the pieces are put together. There is one exception. Entries
of a map that look the same are shown once, and what an entry looks like may depend on the indent.
-/

namespace Stencil

/-- A text with a number of indents before it. -/
structure Piece where
  depth : Nat
  text : String
  deriving Repr, DecidableEq

namespace Piece

/-- A text without indents. -/
def plain (text : String) : Piece :=
  ⟨0, text⟩

/-- A piece with its indents written out. -/
def render (indent : String) (p : Piece) : String :=
  String.join (List.replicate p.depth indent) ++ p.text

/-- Pieces one after the other. -/
def renderAll (indent : String) (pieces : List Piece) : String :=
  String.join (pieces.map (render indent))

/-- Groups of pieces with a text between them. -/
def join (separator : String) : List (List Piece) → List Piece
  | [] => []
  | [group] => group
  | group :: groups => group ++ plain separator :: join separator groups

/-- The groups that look different from all groups before them; `seen` holds what the groups before
them look like. -/
def distinct (indent : String) (seen : List String) : List (List Piece) → List (List Piece)
  | [] => []
  | group :: groups =>
    let text := renderAll indent group
    if seen.contains text then distinct indent seen groups
    else group :: distinct indent (text :: seen) groups

end Piece

open Piece (plain)

/-- A header, a body and a closing brace, the first and the last at the given depth. -/
def blockPieces (depth : Nat) (header body : List Piece) : List Piece :=
  ⟨depth, ""⟩ :: header ++ plain " \x7b\n" :: body ++ [⟨depth, "\x7d"⟩]

/-- An expression, on a line of its own if it stands alone. -/
def linePieces (alone : Bool) (depth : Nat) (node : Node) (inner : List Piece) : List Piece :=
  if alone then
    ⟨depth, ""⟩ :: inner ++ [plain (if node.takesSemicolon then ";\n" else "\n")]
  else inner

mutual

/-- The rendering of a node at a depth, as a statement that stands alone or as a part of an
expression. Constructs with bodies look the same in both places. -/
def nodePieces (indent : String) (alone : Bool) (depth : Nat) : Node → List Piece
  | .bool b =>
    linePieces alone depth (.bool b) [plain (if b then "true" else "false")]
  | .null => linePieces alone depth .null [plain "null"]
  | .int n => linePieces alone depth (.int n) [plain (Text.intText n)]
  | .decimal d => linePieces alone depth (.decimal d) [plain d.text]
  | .string s => linePieces alone depth (.string s) [plain s]
  | .unary op a =>
    linePieces alone depth (.unary op a)
      (plain (op.symbol ++ "(") :: nodePieces indent false depth a ++ [plain ")"])
  | .binary op a b =>
    linePieces alone depth (.binary op a b)
      (plain "(" :: nodePieces indent false depth a ++ plain (" " ++ op.symbol ++ " ") ::
        nodePieces indent false depth b ++ [plain ")"])
  | .ternary a b none =>
    linePieces alone depth (.ternary a b none)
      (plain "(" :: nodePieces indent false depth a ++ plain ") ? (" ::
        nodePieces indent false depth b ++ [plain ")"])
  | .ternary a b (some c) =>
    linePieces alone depth (.ternary a b (some c))
      (plain "(" :: nodePieces indent false depth a ++ plain ") ? (" ::
        nodePieces indent false depth b ++ plain ") : (" ::
        nodePieces indent false depth c ++ [plain ")"])
  | .selector path =>
    linePieces alone depth (.selector path) (Piece.join "." (segmentPieces indent depth path))
  | .call none (.name f) args =>
    linePieces alone depth (.call none (.name f) args)
      (plain (f ++ "(") :: Piece.join ", " (argPieces indent depth args) ++ [plain ")"])
  | .call none (.expr f) args =>
    linePieces alone depth (.call none (.expr f) args)
      (nodePieces indent false depth f ++ plain "(" ::
        Piece.join ", " (argPieces indent depth args) ++ [plain ")"])
  | .call (some target) (.name f) args =>
    linePieces alone depth (.call (some target) (.name f) args)
      (nodePieces indent false depth target ++ plain ("." ++ f ++ "(") ::
        Piece.join ", " (argPieces indent depth args) ++ [plain ")"])
  | .call (some target) (.expr f) args =>
    linePieces alone depth (.call (some target) (.expr f) args)
      (nodePieces indent false depth target ++ plain "." ::
        nodePieces indent false depth f ++ plain "(" ::
        Piece.join ", " (argPieces indent depth args) ++ [plain ")"])
  | .map entries =>
    linePieces alone depth (.map entries)
      (plain "[" ::
        Piece.join ", " (Piece.distinct indent [] (entryPieces indent depth entries)) ++
        [plain "]"])
  | .statements items => itemPieces indent alone depth items
  | .importFile path =>
    linePieces alone depth (.importFile path) [plain ("import \"" ++ path ++ "\"")]
  | .conditional arms => armPieces indent depth arms
  | .binding name value =>
    linePieces alone depth (.binding name value)
      (plain (name ++ " = ") :: nodePieces indent false depth value)
  | .loop names collection body none =>
    blockPieces depth
      (plain ("for (" ++ String.intercalate "," names ++ " in ") ::
        nodePieces indent false depth collection ++ [plain ")"])
      (itemPieces indent true (depth + 1) body) ++ [plain "\n"]
  | .loop names collection body (some otherwise) =>
    blockPieces depth
      (plain ("for (" ++ String.intercalate "," names ++ " in ") ::
        nodePieces indent false depth collection ++ [plain ")"])
      (itemPieces indent true (depth + 1) body) ++
      plain " else \x7b\n" :: itemPieces indent true (depth + 1) otherwise ++
      [⟨depth, "\x7d"⟩, plain "\n"]
  | .macroDef name params body =>
    blockPieces depth
      [plain ("macro " ++ name ++ "(" ++ String.intercalate ", " params ++ ")")]
      (itemPieces indent true (depth + 1) body) ++ [plain "\n"]
termination_by structural n => n

/-- The rendering of the steps of a path, one group for each. -/
def segmentPieces (indent : String) (depth : Nat) : List Segment → List (List Piece)
  | [] => []
  | .name s :: path => [plain s] :: segmentPieces indent depth path
  | .expr n :: path => nodePieces indent false depth n :: segmentPieces indent depth path
termination_by structural path => path

/-- The rendering of arguments, one group for each. -/
def argPieces (indent : String) (depth : Nat) : List Node → List (List Piece)
  | [] => []
  | a :: args => nodePieces indent false depth a :: argPieces indent depth args
termination_by structural args => args

/-- The rendering of map entries, one group for each. -/
def entryPieces (indent : String) (depth : Nat) : List Entry → List (List Piece)
  | [] => []
  | .mk none v :: entries =>
    nodePieces indent false depth v :: entryPieces indent depth entries
  | .mk (some key) v :: entries =>
    (plain (key ++ " : ") :: nodePieces indent false depth v) :: entryPieces indent depth entries
termination_by structural entries => entries

/-- The rendering of a chain of conditions, arm by arm. -/
def armPieces (indent : String) (depth : Nat) : List Arm → List Piece
  | [] => []
  | .mk condition body :: arms =>
    blockPieces depth
      (plain "if (" :: nodePieces indent false depth condition ++ [plain ")"])
      (itemPieces indent true (depth + 1) body) ++ plain "\n" :: armPieces indent depth arms
termination_by structural arms => arms

/-- The rendering of items, as statements or as one value. -/
def itemPieces (indent : String) (alone : Bool) (depth : Nat) : List Item → List Piece
  | [] => []
  | .text s :: items => plain s :: itemPieces indent alone depth items
  | .node n :: items =>
    nodePieces indent alone depth n ++ itemPieces indent alone depth items
termination_by structural items => items

end

/-- The pseudo-source of items, with the given text for one indent. -/
def pseudoSource (indent : String) (items : List Item) : String :=
  Piece.renderAll indent (itemPieces indent true 0 items)

end Stencil
