import Mathlib.Data.List.Basic
import Stencil.Output.PseudoSource
import Stencil.Proofs.Placement

/-!
# The layout of pseudo-source

What is shown of a tree is a list of pieces, each with a depth. `Laid` says how deep the pieces
stand, along the tree. A construct with bodies opens and closes at the depth at which it stands, and
its bodies are one deeper. A line has its depth in front. Inside an expression nothing is indented
but the constructs in it, and text never is.

> `laid_nodePieces`: the pieces of every node are laid out along its tree, whatever the indent is.
> `Laid.flat`: nothing is indented in an expression that holds no construct.
-/

namespace Stencil

open Piece (plain)

/-! ## Constructs in trees -/

/-- Whether a node is a construct with bodies. -/
def Node.IsConstruct : Node → Prop
  | .conditional _ | .loop .. | .macroDef .. => True
  | _ => False

/-- A construct with bodies stands somewhere in the node; the node itself counts. -/
def Node.HoldsConstruct (n : Node) : Prop :=
  ∃ r role m, Occurs r m role n ∧ m.IsConstruct

/-- What stands in a node stands in it whatever the role of the node is. -/
theorem Occurs.exists_role {r role : Role} {m n : Node} (h : Occurs r m role n) (role' : Role) :
    ∃ r', Occurs r' m role' n := by
  cases h with
  | here => exact ⟨role', .here⟩
  | part hp hm => exact ⟨r, .part hp hm⟩

/-- A node holds a construct if it is one or if one of its parts holds one. -/
theorem Node.holdsConstruct_iff {n : Node} :
    n.HoldsConstruct ↔ n.IsConstruct ∨ ∃ p ∈ n.parts, p.2.HoldsConstruct := by
  constructor
  · rintro ⟨r, role, m, hm, hconstruct⟩
    cases hm with
    | here => exact .inl hconstruct
    | part hp hm => exact .inr ⟨_, hp, r, _, m, hm, hconstruct⟩
  · rintro (hconstruct | ⟨p, hp, r, role, m, hm, hconstruct⟩)
    · exact ⟨.item, .item, n, .here, hconstruct⟩
    · obtain ⟨r', hm⟩ := hm.exists_role p.1
      exact ⟨r', .item, m, .part hp hm, hconstruct⟩

/-! ## Parts in their order -/

/-- What holds of all nodes that stand in a role. -/
theorem Role.forall_mem_each {role : Role} {ns : List Node} {P : Node → Prop} :
    (∀ p ∈ role.each ns, P p.2) ↔ ∀ n ∈ ns, P n :=
  List.forall_mem_map

/-- What holds of all parts that are arguments. -/
theorem forall_args_of_argumentParts {target : Option Node} {args : List Node} {P : Node → Prop}
    (h : ∀ p ∈ argumentParts target args, P p.2) : ∀ a ∈ args, P a := by
  intro a ha
  obtain ⟨role, hrole⟩ := exists_role_of_mem_args target ha
  exact h _ hrole

theorem map_snd_each (role : Role) (ns : List Node) : (role.each ns).map Prod.snd = ns := by
  rw [Role.each, List.map_map]
  exact List.map_id ns

/-- The parts of the arguments are the arguments, in their order. -/
theorem map_snd_argumentParts (target : Option Node) (args : List Node) :
    (argumentParts target args).map Prod.snd = args := by
  cases target with
  | none =>
    rw [argumentParts, List.map_append, map_snd_each, map_snd_each]
    cases hlast : args.getLast? with
    | none =>
      obtain rfl := List.getLast?_eq_none_iff.mp hlast
      rfl
    | some a => exact List.dropLast_append_getLast? a hlast
  | some t => exact map_snd_each ..

/-! ## How pieces are laid out -/

/-- The node stands on one line, and `ns` is what is shown of its parts: all of them, in their
order. Of a map some entries may be left out. -/
def Node.IsLineOf (n : Node) (ns : List Node) : Prop :=
  match n with
  | .statements _ | .conditional _ | .loop .. | .macroDef .. => False
  | .map entries => ns.Sublist (entries.map Entry.value)
  | n => ns = n.parts.map Prod.snd

/-- A call shows its target, the node of its name and its arguments. -/
theorem isLineOf_call (target : Option Node) (name : Segment) (args : List Node) :
    (Node.call target name args).IsLineOf (target.toList ++ name.node?.toList ++ args) := by
  show _ = (Node.parts _).map Prod.snd
  rw [Node.parts, List.map_append, List.map_append, map_snd_each, map_snd_each,
    map_snd_argumentParts]

mutual

/-- `Laid alone depth n ps`: the pieces show the node at the depth, as a statement that stands alone
or inside an expression. Expressions, bindings, imports and calls stand on one line. Constructs with
bodies look the same in both places. -/
inductive Laid : Bool → Nat → Node → List Piece → Prop where
  | inside {depth : Nat} {n : Node} {ns : List Node} {ps : List Piece} :
      n.IsLineOf ns → LaidParts depth ns ps → Laid false depth n ps
  /-- A line has its depth in front. -/
  | line {depth : Nat} {n : Node} {ns : List Node} {ps : List Piece} :
      n.IsLineOf ns → LaidParts depth ns ps →
      Laid true depth n
        (⟨depth, ""⟩ :: ps ++ [⟨0, if n.takesSemicolon then ";\n" else "\n"⟩])
  | statements {alone : Bool} {depth : Nat} {items : List Item} {ps : List Piece} :
      LaidItems alone depth items ps → Laid alone depth (.statements items) ps
  | conditional {alone : Bool} {depth : Nat} {arms : List Arm} {ps : List Piece} :
      LaidArms depth arms ps → Laid alone depth (.conditional arms) ps
  | loop {alone : Bool} {depth : Nat} {names : List String} {collection : Node}
      {body : List Item} {ps qs : List Piece} :
      Laid false depth collection ps →
      LaidBlock depth
        (⟨0, "for (" ++ String.intercalate "," names ++ " in "⟩ :: ps ++ [⟨0, ")"⟩]) body qs →
      Laid alone depth (.loop names collection body none) (qs ++ [⟨0, "\n"⟩])
  /-- The second body of a loop is as deep as the first one. -/
  | loopOtherwise {alone : Bool} {depth : Nat} {names : List String} {collection : Node}
      {body otherwise : List Item} {ps qs rs : List Piece} :
      Laid false depth collection ps →
      LaidBlock depth
        (⟨0, "for (" ++ String.intercalate "," names ++ " in "⟩ :: ps ++ [⟨0, ")"⟩]) body qs →
      LaidItems true (depth + 1) otherwise rs →
      Laid alone depth (.loop names collection body (some otherwise))
        (qs ++ ⟨0, " else \x7b\n"⟩ :: rs ++ [⟨depth, "\x7d"⟩, ⟨0, "\n"⟩])
  | macroDef {alone : Bool} {depth : Nat} {name : String} {params : List String}
      {body : List Item} {ps : List Piece} :
      LaidBlock depth
        [⟨0, "macro " ++ name ++ "(" ++ String.intercalate ", " params ++ ")"⟩] body ps →
      Laid alone depth (.macroDef name params body) (ps ++ [⟨0, "\n"⟩])

/-- Nodes inside an expression, one after the other, with texts without indents between them. -/
inductive LaidParts : Nat → List Node → List Piece → Prop where
  | nil {depth : Nat} : LaidParts depth [] []
  | text {depth : Nat} {ns : List Node} {ps : List Piece} (s : String) :
      LaidParts depth ns ps → LaidParts depth ns (⟨0, s⟩ :: ps)
  | part {depth : Nat} {n : Node} {ns : List Node} {ps qs : List Piece} :
      Laid false depth n ps → LaidParts depth ns qs → LaidParts depth (n :: ns) (ps ++ qs)

/-- A header and a body. The opening and the closing line are at the depth, the body is one
deeper. -/
inductive LaidBlock : Nat → List Piece → List Item → List Piece → Prop where
  | mk {depth : Nat} {header ps : List Piece} {body : List Item} :
      LaidItems true (depth + 1) body ps →
      LaidBlock depth header body
        (⟨depth, ""⟩ :: header ++ ⟨0, " \x7b\n"⟩ :: ps ++ [⟨depth, "\x7d"⟩])

/-- Each arm of a chain of conditions is a block of its own. -/
inductive LaidArms : Nat → List Arm → List Piece → Prop where
  | nil {depth : Nat} : LaidArms depth [] []
  | cons {depth : Nat} {condition : Node} {body : List Item} {arms : List Arm}
      {ps qs rs : List Piece} :
      Laid false depth condition ps →
      LaidBlock depth (⟨0, "if ("⟩ :: ps ++ [⟨0, ")"⟩]) body qs →
      LaidArms depth arms rs →
      LaidArms depth (.mk condition body :: arms) (qs ++ ⟨0, "\n"⟩ :: rs)

/-- Items one after the other. Text is never indented. -/
inductive LaidItems : Bool → Nat → List Item → List Piece → Prop where
  | nil {alone : Bool} {depth : Nat} : LaidItems alone depth [] []
  | text {alone : Bool} {depth : Nat} {items : List Item} {ps : List Piece} (s : String) :
      LaidItems alone depth items ps → LaidItems alone depth (.text s :: items) (⟨0, s⟩ :: ps)
  | node {alone : Bool} {depth : Nat} {n : Node} {items : List Item} {ps qs : List Piece} :
      Laid alone depth n ps → LaidItems alone depth items qs →
      LaidItems alone depth (.node n :: items) (ps ++ qs)

end

namespace LaidParts

variable {depth : Nat}

/-- Parts laid out one behind the other are laid out together. -/
theorem append {ns ms : List Node} {ps qs : List Piece} :
    LaidParts depth ns ps → LaidParts depth ms qs → LaidParts depth (ns ++ ms) (ps ++ qs)
  | .nil, h => h
  | .text s h, h' => .text s (h.append h')
  | .part hn h, h' => by
    rw [List.append_assoc]
    exact .part hn (h.append h')

/-- A node by itself is one part. -/
theorem single {n : Node} {ps : List Piece} (h : Laid false depth n ps) :
    LaidParts depth [n] ps := by
  have hpart := part h nil
  rwa [List.append_nil] at hpart

/-- A text without indents behind what is shown. -/
theorem closed {ns : List Node} {ps : List Piece} (h : LaidParts depth ns ps) (s : String) :
    LaidParts depth ns (ps ++ [⟨0, s⟩]) := by
  have hall := h.append (text s nil)
  rwa [List.append_nil] at hall

/-- Groups with a text between them. -/
theorem join (separator : String) {α : Type} {nodes : α → List Node} {pieces : α → List Piece}
    {xs : List α} (h : ∀ x ∈ xs, LaidParts depth (nodes x) (pieces x)) :
    LaidParts depth (xs.flatMap nodes) (Piece.join separator (xs.map pieces)) := by
  induction xs with
  | nil => exact nil
  | cons x xs ih =>
    obtain ⟨hx, hxs⟩ := List.forall_mem_cons.mp h
    cases xs with
    | nil =>
      rw [List.flatMap_singleton]
      exact hx
    | cons y xs => exact hx.append (text separator (ih hxs))

end LaidParts

/-! ## What is shown of lists -/

/-- What is shown of a step of a path. -/
def Segment.pieces (showNode : Node → List Piece) : Segment → List Piece
  | .name s => [plain s]
  | .expr n => showNode n

/-- What is shown of an entry of a map. -/
def Entry.pieces (showNode : Node → List Piece) : Entry → List Piece
  | .mk none value => showNode value
  | .mk (some key) value => plain (key ++ " : ") :: showNode value

section

variable (indent : String) (depth : Nat)

/-- The pieces of a path are those of its steps. -/
theorem segmentPieces_eq_map (path : List Segment) :
    segmentPieces indent depth path =
      path.map (Segment.pieces (nodePieces indent false depth)) := by
  induction path with
  | nil => rfl
  | cons s path ih =>
    cases s with
    | name s => rw [segmentPieces, ih, List.map_cons, Segment.pieces]
    | expr n => rw [segmentPieces, ih, List.map_cons, Segment.pieces]

theorem argPieces_eq_map (args : List Node) :
    argPieces indent depth args = args.map (nodePieces indent false depth) := by
  induction args with
  | nil => rfl
  | cons a args ih => rw [argPieces, ih, List.map_cons]

/-- The pieces of the entries of a map are those of each entry. -/
theorem entryPieces_eq_map (entries : List Entry) :
    entryPieces indent depth entries =
      entries.map (Entry.pieces (nodePieces indent false depth)) := by
  induction entries with
  | nil => rfl
  | cons e entries ih =>
    obtain ⟨key, value⟩ := e
    cases key with
    | none => rw [entryPieces, ih, List.map_cons, Entry.pieces]
    | some key => rw [entryPieces, ih, List.map_cons, Entry.pieces]

end

/-- What is left when groups that look alike are shown once. -/
theorem Piece.distinct_sublist (indent : String) (seen : List String)
    (groups : List (List Piece)) : (distinct indent seen groups).Sublist groups := by
  induction groups generalizing seen with
  | nil => exact .slnil
  | cons group groups ih =>
    rw [distinct]
    split
    · exact (ih seen).cons group
    · exact (ih _).cons_cons group

/-! ## The pieces of a tree are laid out along it -/

/-- The pieces of the node are laid out along it, wherever it stands. -/
def Node.IsLaid (indent : String) (n : Node) : Prop :=
  ∀ alone depth, Laid alone depth n (nodePieces indent alone depth n)

section

variable {indent : String} {alone : Bool} {depth : Nat}

/-- A node on one line, alone or inside an expression. -/
theorem laid_linePieces {n : Node} {ns : List Node} {ps : List Piece} (hn : n.IsLineOf ns)
    (h : LaidParts depth ns ps) : Laid alone depth n (linePieces alone depth n ps) := by
  cases alone with
  | false => exact .inside hn h
  | true => exact .line hn h

/-- A path is laid out if the nodes in its steps are. -/
theorem laidParts_path {path : List Segment}
    (h : ∀ n ∈ path.filterMap Segment.node?, n.IsLaid indent) :
    LaidParts depth (path.filterMap Segment.node?)
      (Piece.join "." (segmentPieces indent depth path)) := by
  rw [segmentPieces_eq_map, List.filterMap_eq_flatMap_toList]
  refine .join "." fun s hs => ?_
  cases s with
  | name s => exact .text s .nil
  | expr n => exact .single (h n (mem_pathNodes.mpr hs) false depth)

/-- Arguments are laid out if each of them is. -/
theorem laidParts_args {args : List Node} (h : ∀ a ∈ args, a.IsLaid indent) :
    LaidParts depth args (Piece.join ", " (argPieces indent depth args)) := by
  have hall : LaidParts depth (args.flatMap fun a => [a])
      (Piece.join ", " (args.map (nodePieces indent false depth))) :=
    .join ", " fun a ha => .single (h a ha false depth)
  rwa [List.flatMap_singleton', ← argPieces_eq_map] at hall

/-- Entries that look alike are shown once. -/
theorem exists_laidParts_entries {entries : List Entry}
    (h : ∀ e ∈ entries, e.value.IsLaid indent) :
    ∃ ns, ns.Sublist (entries.map Entry.value) ∧ LaidParts depth ns
      (Piece.join ", " (Piece.distinct indent [] (entryPieces indent depth entries))) := by
  have hleft := Piece.distinct_sublist indent [] (entryPieces indent depth entries)
  rw [entryPieces_eq_map] at hleft
  obtain ⟨kept, hkept, heq⟩ := List.sublist_map_iff.mp hleft
  refine ⟨kept.map Entry.value, hkept.map Entry.value, ?_⟩
  rw [entryPieces_eq_map, heq, List.map_eq_flatMap]
  refine .join ", " fun e he => ?_
  have hvalue := h e (hkept.subset he) false depth
  obtain ⟨key, value⟩ := e
  cases key with
  | none => exact .single hvalue
  | some key => exact .text _ (.single hvalue)

/-- Items are laid out if the nodes among them are; text is shown as it stands. -/
theorem laidItems_itemPieces {items : List Item} (h : ∀ p ∈ bodyParts items, p.2.IsLaid indent) :
    LaidItems alone depth items (itemPieces indent alone depth items) := by
  induction items with
  | nil => exact .nil
  | cons i items ih =>
    cases i with
    | text s => exact .text s (ih h)
    | node n =>
      obtain ⟨hn, hitems⟩ := List.forall_mem_cons.mp h
      exact .node (hn alone depth) (ih hitems)

/-- A body in its block is laid out one deeper than its header. -/
theorem laidBlock_blockPieces (header : List Piece) {body : List Item}
    (h : ∀ p ∈ bodyParts body, p.2.IsLaid indent) :
    LaidBlock depth header body
      (blockPieces depth header (itemPieces indent true (depth + 1) body)) :=
  .mk (laidItems_itemPieces h)

/-- The arms of a condition are laid out, each with its condition on the line of its header. -/
theorem laidArms_armPieces {arms : List Arm}
    (h : ∀ p ∈ arms.flatMap Arm.parts, p.2.IsLaid indent) :
    LaidArms depth arms (armPieces indent depth arms) := by
  induction arms with
  | nil => exact .nil
  | cons a arms ih =>
    obtain ⟨condition, body⟩ := a
    rw [List.flatMap_cons, List.forall_mem_append, Arm.parts, List.forall_mem_cons] at h
    obtain ⟨⟨hcondition, hbody⟩, harms⟩ := h
    rw [armPieces]
    exact .cons (hcondition false depth) (laidBlock_blockPieces _ hbody) (ih harms)

/-- **The pieces of every node are laid out along its tree**, with any indent. -/
theorem laid_nodePieces (indent : String) (n : Node) : n.IsLaid indent := by
  induction n using Node.induction_parts with
  | h n ih =>
    intro alone depth
    cases n with
    | bool | null | int | decimal | string | importFile =>
      rw [nodePieces]
      exact laid_linePieces rfl (.text _ .nil)
    | unary op a =>
      have ha := LaidParts.single (List.forall_mem_singleton.mp ih false depth)
      rw [nodePieces]
      exact laid_linePieces rfl ((ha.text _).closed ")")
    | binary op a b =>
      rw [Node.parts, List.forall_mem_cons, List.forall_mem_singleton] at ih
      have ha := LaidParts.single (ih.1 false depth)
      have hb := LaidParts.single (ih.2 false depth)
      rw [nodePieces]
      exact laid_linePieces rfl (((ha.text "(").append (hb.text _)).closed ")")
    | ternary a b c =>
      rw [Node.parts, List.forall_mem_cons, List.forall_mem_cons] at ih
      have ha := LaidParts.single (ih.1 false depth)
      have hb := LaidParts.single (ih.2.1 false depth)
      have hboth := (ha.text "(").append (hb.text ") ? (")
      cases c with
      | none =>
        rw [nodePieces]
        exact laid_linePieces rfl (hboth.closed ")")
      | some c =>
        have hc := LaidParts.single (List.forall_mem_singleton.mp ih.2.2 false depth)
        rw [nodePieces]
        exact laid_linePieces rfl ((hboth.append (hc.text ") : (")).closed ")")
    | selector path =>
      have hline : (Node.selector path).IsLineOf (path.filterMap Segment.node?) :=
        (map_snd_each .expression _).symm
      rw [nodePieces]
      exact laid_linePieces hline (laidParts_path (Role.forall_mem_each.mp ih))
    | call target name args =>
      rw [Node.parts, List.forall_mem_append, List.forall_mem_append] at ih
      obtain ⟨⟨htarget, hname⟩, hargs⟩ := ih
      have hline := isLineOf_call target name args
      have hlist : LaidParts depth args (Piece.join ", " (argPieces indent depth args)) :=
        laidParts_args (forall_args_of_argumentParts hargs)
      cases target with
      | none =>
        cases name with
        | name f =>
          rw [nodePieces]
          exact laid_linePieces hline ((hlist.text _).closed ")")
        | expr f =>
          have hf := LaidParts.single (List.forall_mem_singleton.mp hname false depth)
          rw [nodePieces]
          exact laid_linePieces hline ((hf.append (hlist.text "(")).closed ")")
      | some t =>
        have ht := LaidParts.single (List.forall_mem_singleton.mp htarget false depth)
        cases name with
        | name f =>
          rw [nodePieces]
          exact laid_linePieces hline ((ht.append (hlist.text _)).closed ")")
        | expr f =>
          have hf := LaidParts.single (List.forall_mem_singleton.mp hname false depth)
          rw [nodePieces]
          exact laid_linePieces hline
            (((ht.append (hf.text ".")).append (hlist.text "(")).closed ")")
    | map entries =>
      have hvalues := List.forall_mem_map.mp (Role.forall_mem_each.mp ih)
      obtain ⟨ns, hns, hentries⟩ := exists_laidParts_entries hvalues
      have hline : (Node.map entries).IsLineOf ns := hns
      rw [nodePieces]
      exact laid_linePieces hline ((hentries.text "[").closed "]")
    | statements items =>
      rw [nodePieces]
      exact .statements (laidItems_itemPieces ih)
    | conditional arms =>
      rw [nodePieces]
      exact .conditional (laidArms_armPieces ih)
    | binding name value =>
      have hvalue := List.forall_mem_singleton.mp ih false depth
      rw [nodePieces]
      exact laid_linePieces rfl (.text _ (.single hvalue))
    | loop names collection body otherwise =>
      rw [Node.parts, List.forall_mem_cons, List.forall_mem_append] at ih
      obtain ⟨hcollection, hbody, hotherwise⟩ := ih
      cases otherwise with
      | none =>
        rw [nodePieces]
        exact .loop (hcollection false depth) (laidBlock_blockPieces _ hbody)
      | some otherwise =>
        rw [nodePieces]
        exact .loopOtherwise (hcollection false depth) (laidBlock_blockPieces _ hbody)
          (laidItems_itemPieces hotherwise)
    | macroDef name params body =>
      rw [nodePieces]
      exact .macroDef (laidBlock_blockPieces _ ih)

end

/-! ## What is indented -/

/-- What is shown of a node on one line are parts of the node. -/
theorem Node.IsLineOf.exists_part {n : Node} {ns : List Node} (h : n.IsLineOf ns) :
    ∀ m ∈ ns, ∃ p ∈ n.parts, p.2 = m := by
  have hparts : ns.Sublist (n.parts.map Prod.snd) := by
    cases n with
    | map entries => rwa [parts, map_snd_each]
    | statements | conditional | loop | macroDef => exact h.elim
    | _ =>
      have hall : ns = _ := h
      exact hall ▸ List.Sublist.refl _
  exact fun m hm => List.mem_map.mp (hparts.subset hm)

/-- No piece is indented. -/
def Flat (ps : List Piece) : Prop :=
  ∀ p ∈ ps, p.depth = 0

/-- Texts are not indented, so parts are flat if all their nodes are. -/
theorem LaidParts.flat {depth : Nat} {ns : List Node} {ps : List Piece}
    (hns : ∀ n ∈ ns, ∀ ps, Laid false depth n ps → Flat ps) : LaidParts depth ns ps → Flat ps
  | .nil => List.forall_mem_nil _
  | .text _ h => List.forall_mem_cons.mpr ⟨rfl, h.flat hns⟩
  | .part hn h => by
    obtain ⟨hfirst, hns⟩ := List.forall_mem_cons.mp hns
    exact List.forall_mem_append.mpr ⟨hfirst _ hn, h.flat hns⟩

/-- Inside an expression, items are flat if all their nodes are. -/
theorem LaidItems.flat {depth : Nat} {items : List Item} {ps : List Piece}
    (hitems : ∀ p ∈ bodyParts items, ∀ ps, Laid false depth p.2 ps → Flat ps) :
    LaidItems false depth items ps → Flat ps
  | .nil => List.forall_mem_nil _
  | @LaidItems.text _ _ items _ _ h => by
    have hrest : ∀ p ∈ bodyParts items, ∀ ps, Laid false depth p.2 ps → Flat ps := hitems
    exact List.forall_mem_cons.mpr ⟨rfl, h.flat hrest⟩
  | .node hn h => by
    obtain ⟨hfirst, hitems⟩ := List.forall_mem_cons.mp hitems
    exact List.forall_mem_append.mpr ⟨hfirst _ hn, h.flat hitems⟩

/-- **Nothing is indented** inside an expression that holds no construct. -/
theorem Laid.flat {n : Node} (hn : ¬n.HoldsConstruct) {depth : Nat} {ps : List Piece}
    (h : Laid false depth n ps) : Flat ps := by
  induction n using Node.induction_parts generalizing ps with
  | h n ih =>
    have hconstruct : ¬n.IsConstruct := fun h => hn (Node.holdsConstruct_iff.mpr (.inl h))
    have hparts : ∀ p ∈ n.parts, ∀ ps, Laid false depth p.2 ps → Flat ps := fun p hp ps h =>
      ih p hp (fun h => hn (Node.holdsConstruct_iff.mpr (.inr ⟨p, hp, h⟩))) h
    -- what is laid out inside an expression is a line or a body, as constructs are excluded
    cases h with
    | inside hline h =>
      refine h.flat fun m hm => ?_
      obtain ⟨p, hp, rfl⟩ := hline.exists_part m hm
      exact hparts p hp
    | statements h => exact h.flat hparts
    | conditional | loop | loopOtherwise | macroDef => exact absurd trivial hconstruct

end Stencil
