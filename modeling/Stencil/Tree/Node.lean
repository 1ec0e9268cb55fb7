import Stencil.Tree.Decimal
import Stencil.Tree.Tag

/-!
# Syntax trees

A template is a sequence of items: text that is copied as it stands, and the nodes that stand for
blocks. Expressions and block constructs are one type of node, because in the exchange format each
may stand in the place of the other.
-/

namespace Stencil

mutual

/-- What stands inside a block: an expression or a construct with bodies. -/
inductive Node where
  | bool (b : Bool)
  | null
  | int (n : Int)
  | decimal (d : Decimal)
  | string (s : String)
  | unary (op : UnaryOp) (operand : Node)
  | binary (op : BinaryOp) (left right : Node)
  /-- A choice by a condition. The second branch may be missing. -/
  | ternary (condition positive : Node) (negative : Option Node)
  /-- A path such as `a.b[0]`. -/
  | selector (path : List Segment)
  /-- A call of a named function, on a target if there is one. -/
  | call (target : Option Node) (name : Segment) (args : List Node)
  | map (entries : List Entry)
  /-- A body that stands in the place of a value. -/
  | statements (items : List Item)
  | importFile (path : String)
  /-- A chain of conditions, each with its body; an unconditional last arm has the condition
  true. -/
  | conditional (arms : List Arm)
  | binding (name : String) (value : Node)
  /-- A loop over a collection, with a body for the empty collection if there is one. -/
  | loop (names : List String) (collection : Node) (body : List Item)
      (otherwise : Option (List Item))
  | macroDef (name : String) (params : List String) (body : List Item)

/-- One step of a path. -/
inductive Segment where
  | name (s : String)
  | expr (n : Node)

/-- One entry of a map; the key may be missing. -/
inductive Entry where
  | mk (key : Option String) (value : Node)

/-- A condition with the body that it guards. -/
inductive Arm where
  | mk (condition : Node) (body : List Item)

/-- One element of a template or of the body of a construct. -/
inductive Item where
  /-- Text that is copied as it stands. -/
  | text (s : String)
  | node (n : Node)

end

deriving instance Repr for Node, Segment, Entry, Arm, Item

instance : Inhabited Node := ⟨.null⟩

namespace Node

/-- The kind of a node. -/
def tag : Node → Tag
  | bool b => .bool b
  | null => .null
  | int _ => .int
  | decimal _ => .decimal
  | string _ => .string
  | unary op _ => .unary op
  | binary op _ _ => .binary op
  | ternary .. => .ternary
  | selector _ => .selector
  | call .. => .call
  | map _ => .map
  | statements _ => .statements
  | importFile _ => .importFile
  | conditional _ => .conditional
  | binding .. => .binding
  | loop .. => .loop
  | macroDef .. => .macroDef

/-- The path of a single name. -/
def ofName (name : String) : Node :=
  selector [.name name]

/-- The node with one more step at the end of its path. A node that is no path becomes the first
step of one. -/
def step (n : Node) (s : Segment) : Node :=
  match n with
  | selector path => selector (path ++ [s])
  | other => selector [.expr other, s]

/-- Whether the node ends with a semicolon where it stands alone. -/
def takesSemicolon : Node → Bool
  | ternary .. | call .. | binding .. | importFile _ => true
  | _ => false

end Node

/-- The node of an item that is no text. -/
def Item.node? : Item → Option Node
  | text _ => none
  | node n => some n

mutual

/-- Whether two nodes are the same tree. -/
def Node.same : Node → Node → Bool
  | .bool a, .bool b => a == b
  | .null, .null => true
  | .int a, .int b => a == b
  | .decimal a, .decimal b => a == b
  | .string a, .string b => a == b
  | .unary o a, .unary p b => o == p && a.same b
  | .binary o a b, .binary p c d => o == p && a.same c && b.same d
  | .ternary a b none, .ternary c d none => a.same c && b.same d
  | .ternary a b (some x), .ternary c d (some y) => a.same c && b.same d && x.same y
  | .selector p, .selector q => sameSegments p q
  | .call none (.name n) xs, .call none (.name m) ys => n == m && sameNodes xs ys
  | .call none (.expr n) xs, .call none (.expr m) ys => n.same m && sameNodes xs ys
  | .call (some t) (.name n) xs, .call (some u) (.name m) ys =>
    t.same u && n == m && sameNodes xs ys
  | .call (some t) (.expr n) xs, .call (some u) (.expr m) ys =>
    t.same u && n.same m && sameNodes xs ys
  | .map p, .map q => sameEntries p q
  | .statements p, .statements q => sameItems p q
  | .importFile a, .importFile b => a == b
  | .conditional p, .conditional q => sameArms p q
  | .binding n a, .binding m b => n == m && a.same b
  | .loop ns a p none, .loop ms b q none => ns == ms && a.same b && sameItems p q
  | .loop ns a p (some e), .loop ms b q (some f) =>
    ns == ms && a.same b && sameItems p q && sameItems e f
  | .macroDef n ps p, .macroDef m qs q => n == m && ps == qs && sameItems p q
  | _, _ => false
termination_by structural n => n

/-- Whether two lists of nodes are the same. -/
def sameNodes : List Node → List Node → Bool
  | [], [] => true
  | a :: as, b :: bs => a.same b && sameNodes as bs
  | _, _ => false
termination_by structural ns => ns

/-- Whether two paths are the same. -/
def sameSegments : List Segment → List Segment → Bool
  | [], [] => true
  | .name a :: as, .name b :: bs => a == b && sameSegments as bs
  | .expr a :: as, .expr b :: bs => a.same b && sameSegments as bs
  | _, _ => false
termination_by structural ss => ss

/-- Whether two lists of map entries are the same. -/
def sameEntries : List Entry → List Entry → Bool
  | [], [] => true
  | .mk j a :: as, .mk k b :: bs => j == k && a.same b && sameEntries as bs
  | _, _ => false
termination_by structural es => es

/-- Whether two chains of conditions are the same. -/
def sameArms : List Arm → List Arm → Bool
  | [], [] => true
  | .mk a p :: as, .mk b q :: bs => a.same b && sameItems p q && sameArms as bs
  | _, _ => false
termination_by structural as => as

/-- Whether two bodies are the same. -/
def sameItems : List Item → List Item → Bool
  | [], [] => true
  | .text a :: as, .text b :: bs => a == b && sameItems as bs
  | .node a :: as, .node b :: bs => a.same b && sameItems as bs
  | _, _ => false
termination_by structural is => is

end

end Stencil
