import Stencil.Text.Quoted
import Stencil.Tree.Node

/-!
# Outlines

An outline draws a tree with one line for each element: items, nodes, and the parts of nodes such
as arms and map entries. A line starts with one cell for each level above it, a bar where more
siblings follow on that level, and with a connector that shows whether the element is the last of
its siblings.
-/

namespace Stencil

/-- An element to be drawn, with the elements inside it. -/
inductive Drawing where
  | mk (icon : String) (label : String) (children : List Drawing)
  deriving Repr

namespace Drawing

/-- Marks text. -/
def textIcon : String := "↵"

/-- Marks a part of a node. -/
def partIcon : String := "⋯"

/-- Marks a node: constructs and expressions look different. -/
def nodeIcon : Node → String
  | .conditional _ | .loop .. | .macroDef .. | .binding .. | .importFile _ | .statements _ => "§"
  | _ => "○"

/-- An element for a node; its label starts with the tag. -/
def ofNode (node : Node) (detail : String) (children : List Drawing) : Drawing :=
  mk (nodeIcon node) (node.tag.name ++ detail) children

/-- An element for a part of a node. -/
def part (label : String) (children : List Drawing) : Drawing :=
  mk partIcon label children

/-- The step of a path inside a label. Of an expression only the tag is shown. -/
def segmentLabel : Segment → String
  | .name s => s
  | .expr n => "[" ++ n.tag.name ++ "]"

/-- A path inside a label. -/
def pathLabel (path : List Segment) : String :=
  String.intercalate "." (path.map segmentLabel)

/-- A number of things in brackets. -/
def countLabel (n : Nat) (things : String) : String :=
  " (" ++ Text.natText n ++ " " ++ things ++ ")"

mutual

/-- The drawing of a node. -/
def node : Node → Drawing
  | .bool b => ofNode (.bool b) "" []
  | .null => ofNode .null "" []
  | .int n => ofNode (.int n) (" " ++ Text.intText n) []
  | .decimal d => ofNode (.decimal d) (" " ++ d.text) []
  | .string s => ofNode (.string s) (" " ++ Text.quoted s) []
  | .unary op a => ofNode (.unary op a) "" [node a]
  | .binary op a b => ofNode (.binary op a b) "" [node a, node b]
  | .ternary a b none => ofNode (.ternary a b none) "" [node a, node b]
  | .ternary a b (some c) => ofNode (.ternary a b (some c)) "" [node a, node b, node c]
  | .selector path => ofNode (.selector path) (" " ++ pathLabel path) (segments path)
  | .call none (.name f) args =>
    ofNode (.call none (.name f) args) (" " ++ f ++ countLabel args.length "args") (nodes args)
  | .call none (.expr f) args =>
    ofNode (.call none (.expr f) args)
      (" " ++ segmentLabel (.expr f) ++ countLabel args.length "args")
      (part "name" [node f] :: nodes args)
  | .call (some target) (.name f) args =>
    ofNode (.call (some target) (.name f) args) (" " ++ f ++ countLabel args.length "args")
      (part "target" [node target] :: nodes args)
  | .call (some target) (.expr f) args =>
    ofNode (.call (some target) (.expr f) args)
      (" " ++ segmentLabel (.expr f) ++ countLabel args.length "args")
      (part "target" [node target] :: part "name" [node f] :: nodes args)
  | .map es => ofNode (.map es) (countLabel es.length "entries") (entries es)
  | .statements is => ofNode (.statements is) "" (items is)
  | .importFile path => ofNode (.importFile path) (" " ++ Text.quoted path) []
  | .conditional as => ofNode (.conditional as) (countLabel as.length "arms") (arms as)
  | .binding name value => ofNode (.binding name value) (" " ++ name) [node value]
  | .loop names collection body none =>
    ofNode (.loop names collection body none) (" " ++ String.intercalate ", " names)
      [node collection, part "then" (items body)]
  | .loop names collection body (some otherwise) =>
    ofNode (.loop names collection body (some otherwise)) (" " ++ String.intercalate ", " names)
      [node collection, part "then" (items body), part "else" (items otherwise)]
  | .macroDef name params body =>
    ofNode (.macroDef name params body)
      (" " ++ name ++ "(" ++ String.intercalate ", " params ++ ")") (items body)
termination_by structural n => n

/-- The drawings of nodes. -/
def nodes : List Node → List Drawing
  | [] => []
  | n :: ns => node n :: nodes ns
termination_by structural ns => ns

/-- The drawings of the steps of a path that are no names. -/
def segments : List Segment → List Drawing
  | [] => []
  | .name _ :: path => segments path
  | .expr n :: path => node n :: segments path
termination_by structural path => path

/-- The drawings of map entries, under their keys. -/
def entries : List Entry → List Drawing
  | [] => []
  | .mk key value :: es => part (key.getD "-") [node value] :: entries es
termination_by structural es => es

/-- The drawings of the arms of a chain of conditions. -/
def arms : List Arm → List Drawing
  | [] => []
  | .mk condition body :: as => part "arm" (node condition :: items body) :: arms as
termination_by structural as => as

/-- The drawings of items. -/
def items : List Item → List Drawing
  | [] => []
  | .text s :: is => mk textIcon (Text.quoted s) [] :: items is
  | .node n :: is => node n :: items is
termination_by structural is => is

end

/-- The most characters of a label that are shown. -/
def labelWidth : Nat := 30

/-- A label, cut off if it is too long. -/
def cut (label : String) : String :=
  let cs := label.toList
  if cs.length > labelWidth then String.ofList (cs.take labelWidth) ++ "..." else label

/-- The line of an element behind the cells of the levels above it. -/
def line (margin : String) (isLast : Bool) (icon label : String) : String :=
  margin ++ (if isLast then "└─" else "├─") ++ " " ++ icon ++ " " ++ cut label ++ "\n"

/-- The cell of an element in the lines of the elements inside it. -/
def cell (isLast : Bool) : String :=
  if isLast then "  " else "│ "

mutual

/-- The lines of an element and of all elements inside it. -/
def lines (margin : String) (isLast : Bool) : Drawing → String
  | mk icon label children =>
    line margin isLast icon label ++ siblingLines (margin ++ cell isLast) children
termination_by structural d => d

/-- The lines of elements that are siblings. -/
def siblingLines (margin : String) : List Drawing → String
  | [] => ""
  | d :: ds => lines margin ds.isEmpty d ++ siblingLines margin ds
termination_by structural ds => ds

end

end Drawing

/-- The outline of a template: a header and the lines of its items. -/
def outline (items : List Item) : String :=
  "⧉ template" ++ Drawing.countLabel items.length "items" ++ "\n" ++
    Drawing.siblingLines "" (Drawing.items items)

end Stencil
