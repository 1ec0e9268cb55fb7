import Stencil.Output.Outline
import Stencil.Proofs.Placement

/-!
# The rows of an outline

What an outline draws is an element: an item, a node, or a part of a node such as an arm, a body, a
map entry, or the target of a call. `Element.below` says which elements stand right below another
one. `rows` lists some siblings and all elements below them, each in front of those below it. A row
holds for every element above it whether that is the last of its siblings, and whether it is the
last one itself, and this is all that the front of its line shows.

> `Element.children_drawing`: what is drawn below an element is drawn for the elements below it.
> `toList_siblingLines`: the text of siblings is that of their rows, one after the other.
> `shapesOf_rows`: the depths of the rows determine the shape of the trees.
-/

namespace Stencil.Outline

/-! ## Elements -/

/-- What stands on a line of its own. -/
inductive Element where
  | text (s : String)
  | node (n : Node)
  | arm (a : Arm)
  /-- The body of a loop. -/
  | body (items : List Item)
  /-- The body of a loop for the empty collection. -/
  | otherwise (items : List Item)
  | entry (e : Entry)
  /-- The target of a call. -/
  | target (n : Node)
  /-- The name of a function that is no plain name. -/
  | callee (n : Node)

namespace Element

/-- The element of an item. -/
def ofItem : Item → Element
  | .text s => .text s
  | .node n => .node n

/-- The elements right below a node. -/
def belowNode : Node → List Element
  | .bool _ | .null | .int _ | .decimal _ | .string _ | .importFile _ => []
  | .unary _ a | .binding _ a => [.node a]
  | .binary _ a b => [.node a, .node b]
  | .ternary a b c => .node a :: .node b :: c.toList.map .node
  | .selector path => (path.filterMap Segment.node?).map .node
  | .call path? name args =>
    path?.toList.map .target ++ name.node?.toList.map .callee ++ args.map .node
  | .map entries => entries.map .entry
  | .statements items | .macroDef _ _ items => items.map ofItem
  | .conditional arms => arms.map .arm
  | .loop _ collection items other =>
    .node collection :: .body items :: other.toList.map .otherwise

/-- The elements right below an element. -/
def below : Element → List Element
  | .text _ => []
  | .node n => belowNode n
  | .arm (.mk condition items) => .node condition :: items.map ofItem
  | .body items | .otherwise items => items.map ofItem
  | .entry e => [.node e.value]
  | .target n | .callee n => [.node n]

/-- The drawing of an element. -/
def drawing : Element → Drawing
  | .text s => .mk Drawing.textIcon (Text.quoted s) []
  | .node n => Drawing.node n
  | .arm (.mk condition items) => Drawing.part "arm" (Drawing.node condition :: Drawing.items items)
  | .body items => Drawing.part "then" (Drawing.items items)
  | .otherwise items => Drawing.part "else" (Drawing.items items)
  | .entry (.mk key value) => Drawing.part (key.getD "-") [Drawing.node value]
  | .target n => Drawing.part "target" [Drawing.node n]
  | .callee n => Drawing.part "name" [Drawing.node n]

end Element

end Outline

namespace Drawing

open Outline (Element)

/-- What marks an element. -/
def icon : Drawing → String
  | mk icon _ _ => icon

/-- The label of an element. -/
def label : Drawing → String
  | mk _ label _ => label

/-- The elements right below an element. -/
def children : Drawing → List Drawing
  | mk _ _ children => children

theorem nodes_eq (ns : List Node) : nodes ns = (ns.map Element.node).map Element.drawing := by
  induction ns with
  | nil => rfl
  | cons n ns ih => rw [nodes, ih]; rfl

/-- Of a path, the expressions are drawn and the names are not. -/
theorem segments_eq (path : List Segment) :
    segments path = ((path.filterMap Segment.node?).map Element.node).map Element.drawing := by
  induction path with
  | nil => rfl
  | cons s path ih =>
    cases s with
    | name s => exact ih
    | expr n => rw [segments, ih]; rfl

theorem entries_eq (es : List Entry) : entries es = (es.map Element.entry).map Element.drawing := by
  induction es with
  | nil => rfl
  | cons e es ih =>
    cases e with
    | mk key value => rw [entries, ih]; rfl

theorem arms_eq (as : List Arm) : arms as = (as.map Element.arm).map Element.drawing := by
  induction as with
  | nil => rfl
  | cons a as ih =>
    cases a with
    | mk condition body => rw [arms, ih]; rfl

theorem items_eq (is : List Item) : items is = (is.map Element.ofItem).map Element.drawing := by
  induction is with
  | nil => rfl
  | cons i is ih => cases i <;> (rw [items, ih]; rfl)

end Drawing

namespace Outline

open Drawing (nodes_eq segments_eq entries_eq arms_eq items_eq)

/-- Below the drawing of a node stand the drawings of the elements below the node. -/
theorem Element.children_node (n : Node) :
    (Drawing.node n).children = (Element.belowNode n).map Element.drawing := by
  cases n with
  | bool | null | int | decimal | string | importFile | unary | binary | binding => rfl
  | ternary a b c => cases c <;> rfl
  | selector path => exact segments_eq path
  | call target name args =>
    cases target <;> cases name <;>
      simp only [Drawing.node, Drawing.ofNode, Drawing.children, nodes_eq, belowNode] <;> rfl
  | map entries => exact entries_eq entries
  | statements items => exact items_eq items
  | macroDef name params body => exact items_eq body
  | conditional arms => exact arms_eq arms
  | loop names collection body otherwise => cases otherwise <;> rfl

/-- **What is drawn below an element** is drawn for the elements below it. -/
theorem Element.children_drawing (e : Element) : e.drawing.children = e.below.map drawing := by
  cases e with
  | text | target | callee => rfl
  | node n => exact children_node n
  | entry e => cases e; rfl
  | arm a =>
    cases a with
    | mk condition items => exact congrArg (Drawing.node condition :: ·) (items_eq items)
  | body items | otherwise items => exact items_eq items

/-! ## Rows -/

/-- The line of an element. -/
structure Row where
  /-- For each element above, whether it is the last of its siblings. -/
  margin : List Bool
  isLast : Bool
  element : Element

/-- The elements below are smaller, so that the rows can be listed by recursion. -/
theorem sizeOf_below_lt (e : Element) (es : List Element) :
    sizeOf (e.below.map Element.drawing) < sizeOf ((e :: es).map Element.drawing) := by
  have hsize : sizeOf e.drawing.children < sizeOf e.drawing := by
    cases e.drawing with
    | mk icon label children => simp only [Drawing.children, Drawing.mk.sizeOf_spec]; omega
  rw [Element.children_drawing] at hsize
  simp only [List.map_cons, List.cons.sizeOf_spec]
  omega

/-- So are the siblings behind an element. -/
theorem sizeOf_rest_lt (e : Element) (es : List Element) :
    sizeOf (es.map Element.drawing) < sizeOf ((e :: es).map Element.drawing) := by
  simp only [List.map_cons, List.cons.sizeOf_spec]
  omega

/-- The rows of siblings and of all elements below them. -/
def rows (margin : List Bool) : List Element → List Row
  | [] => []
  | e :: es =>
    ⟨margin, es.isEmpty, e⟩ :: (rows (margin ++ [es.isEmpty]) e.below ++ rows margin es)
termination_by es => sizeOf (es.map Element.drawing)
decreasing_by
  · exact sizeOf_below_lt e es
  · exact sizeOf_rest_lt e es

/-- A tree of which nothing is left but how it branches. -/
inductive Shape where
  | mk (below : List Shape)

/-- The shapes of the trees below siblings. -/
def shapes : List Element → List Shape
  | [] => []
  | e :: es => .mk (shapes e.below) :: shapes es
termination_by es => sizeOf (es.map Element.drawing)
decreasing_by
  · exact sizeOf_below_lt e es
  · exact sizeOf_rest_lt e es

/-- The two characters for an element above: blank below the last of its siblings, else a bar. -/
def cell (isLast : Bool) : List Char :=
  if isLast then [' ', ' '] else ['│', ' ']

/-- The connector in front of an element. -/
def connector (isLast : Bool) : List Char :=
  if isLast then ['└', '─'] else ['├', '─']

/-- The icon and the label of an element, as far as it is shown. -/
def Element.caption (e : Element) : List Char :=
  e.drawing.icon.toList ++ ' ' :: (Drawing.cut e.drawing.label).toList

/-- The characters of a row without its line feed. -/
def Row.chars (r : Row) : List Char :=
  r.margin.flatMap cell ++ connector r.isLast ++ ' ' :: r.element.caption

theorem toList_cell (isLast : Bool) : (Drawing.cell isLast).toList = cell isLast := by
  cases isLast <;> rfl

/-- A line of the drawing is the row of its element. -/
theorem toList_line (r : Row) {margin : String} (hmargin : margin.toList = r.margin.flatMap cell) :
    (Drawing.line margin r.isLast r.element.drawing.icon r.element.drawing.label).toList =
      r.chars ++ ['\n'] := by
  have hconnector :
      (if r.isLast then "└─" else "├─").toList = connector r.isLast := by
    cases r.isLast <;> rfl
  simp only [Drawing.line, String.toList_append, hmargin, hconnector, Row.chars, Element.caption]
  simp

/-- **The text of siblings** and all elements below them is that of their rows. -/
theorem toList_siblingLines (margin : List Bool) (es : List Element) (front : String)
    (hfront : front.toList = margin.flatMap cell) :
    (Drawing.siblingLines front (es.map Element.drawing)).toList =
      (rows margin es).flatMap fun r => r.chars ++ ['\n'] := by
  induction margin, es using rows.induct generalizing front with
  | case1 margin => rw [rows]; rfl
  | case2 margin e es ihbelow ihrest =>
    have hinner : (front ++ Drawing.cell es.isEmpty).toList =
        (margin ++ [es.isEmpty]).flatMap cell := by
      rw [String.toList_append, hfront, toList_cell, List.flatMap_append, List.flatMap_singleton]
    have hline := toList_line ⟨margin, es.isEmpty, e⟩ hfront
    rw [rows, List.flatMap_cons, List.flatMap_append, ← hline, ← ihbelow _ hinner,
      ← ihrest _ hfront, ← Element.children_drawing, List.map_cons, Drawing.siblingLines,
      String.toList_append, ← List.append_assoc]
    congr 1
    cases hdrawing : e.drawing with
    | mk icon label children =>
      rw [Drawing.lines, String.toList_append, List.isEmpty_map]
      rfl

/-! ## The shape read from the margins -/

/-- The number of cells in front of the connector of a line, if the line has a connector. -/
def depth? : List Char → Option Nat
  | ' ' :: ' ' :: cs | '│' :: ' ' :: cs => (depth? cs).map (· + 1)
  | '└' :: '─' :: _ | '├' :: '─' :: _ => some 0
  | _ => none

/-- Puts an element in front of trees at their depths: those deeper than the element, up to the
first that is not, stand right below it. -/
def grow (depth : Nat) (pending : List (Nat × Shape)) : List (Nat × Shape) :=
  (depth, .mk ((pending.takeWhile (depth < ·.1)).map Prod.snd)) ::
    pending.dropWhile (depth < ·.1)

/-- The trees whose elements stand at these depths, in this order. -/
def shapesOf (depths : List Nat) : List Shape :=
  (depths.foldr grow []).map Prod.snd

/-- The trees that the lines of a text show. -/
def readShapes (text : List Char) : List Shape :=
  shapesOf ((text.splitOn '\n').filterMap depth?)

/-- The depth of a row can be read from its margin, since no cell looks like a connector. -/
theorem depth?_chars (r : Row) : depth? r.chars = some r.margin.length := by
  obtain ⟨margin, isLast, e⟩ := r
  rw [Row.chars, List.append_assoc]
  induction margin with
  | nil => cases isLast <;> rfl
  | cons b margin ih =>
    have hcell : ∀ cs, depth? (cell b ++ cs) = (depth? cs).map (· + 1) := by
      intro cs
      cases b <;> rfl
    rw [List.flatMap_cons, List.append_assoc, hcell, ih]
    rfl

/-- An element takes what is one deeper as its own, up to the first that is not. The induction is
over the elements below it. -/
theorem grow_append (depth : Nat) (below : List Shape) (pending : List (Nat × Shape))
    (hpending : ∀ p ∈ pending.head?, p.1 ≤ depth) :
    grow depth (below.map (depth + 1, ·) ++ pending) = (depth, .mk below) :: pending := by
  have hdeeper : ∀ p ∈ below.map (depth + 1, ·), decide (depth < p.1) = true := by
    intro p hp
    obtain ⟨shape, -, rfl⟩ := List.mem_map.mp hp
    exact decide_eq_true (Nat.lt_succ_self depth)
  have hfirst : ∀ p ∈ pending.head?, ¬ decide (depth < p.1) = true := fun p hp =>
    fun h => Nat.not_lt.mpr (hpending p hp) (of_decide_eq_true h)
  have hstop : pending.takeWhile (fun p => decide (depth < p.1)) = [] ∧
      pending.dropWhile (fun p => decide (depth < p.1)) = pending := by
    cases pending with
    | nil => exact ⟨rfl, rfl⟩
    | cons p more =>
      exact ⟨List.takeWhile_cons_of_neg (hfirst p rfl), List.dropWhile_cons_of_neg (hfirst p rfl)⟩
  rw [grow, List.takeWhile_append_of_pos hdeeper, List.dropWhile_append_of_pos hdeeper, hstop.1,
    hstop.2, List.append_nil, List.map_map]
  exact congrArg (fun ss => (depth, Shape.mk ss) :: pending) (List.map_id below)

/-- The trees of the elements are put in front of those at most as deep. -/
theorem foldr_grow_rows (margin : List Bool) (es : List Element) (pending : List (Nat × Shape))
    (hpending : ∀ p ∈ pending.head?, p.1 ≤ margin.length) :
    ((rows margin es).map (·.margin.length)).foldr grow pending =
      (shapes es).map (margin.length, ·) ++ pending := by
  induction margin, es using rows.induct generalizing pending with
  | case1 margin => rw [rows, shapes]; rfl
  | case2 margin e es ihbelow ihrest =>
    -- What is there when the elements below `e` are put in front: the trees of the siblings behind
    -- it, at its own depth, and the pending ones.
    have hrest : ∀ p ∈ ((shapes es).map (margin.length, ·) ++ pending).head?,
        p.1 ≤ margin.length := by
      cases shapes es with
      | nil => exact hpending
      | cons shape more =>
        intro p hp
        cases hp
        exact Nat.le_refl _
    have hbelow := ihbelow _ fun p hp => Nat.le_trans (hrest p hp) (by simp)
    rw [rows, shapes, List.map_cons, List.map_append, List.foldr_cons, List.foldr_append,
      ihrest pending hpending, hbelow, List.length_append, List.length_singleton,
      grow_append _ _ _ hrest]
    rfl

/-- **The depths of the rows determine the shape of the trees.** -/
theorem shapesOf_rows (es : List Element) :
    shapesOf ((rows [] es).map (·.margin.length)) = shapes es := by
  rw [shapesOf, foldr_grow_rows [] es [] (fun p hp => nomatch hp), List.append_nil, List.map_map]
  exact List.map_id _

end Outline

end Stencil
