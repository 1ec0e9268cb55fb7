import Stencil.Proofs.TreeShape

/-!
# Where nodes stand in a tree

In the exchange format any node may stand in the place of any other. The trees that are parsed are
more regular: constructs stand in bodies only, the target of a call is a path, a path does not start
with another path. What is asked of a node depends on the role in which it stands, and on nothing
else. `Node.parts` lists the nodes directly below a node with their roles, and `Node.Fits` says what
a role asks of a node.

> `Node.placed_iff`: a tree is well placed if its root fits and the parts below it are well placed.
> `Node.wellFormed_of_placed`: such a tree can be exchanged.
-/

namespace Stencil

/-- The role in which a node stands in its tree. -/
inductive Role where
  /-- An element of a template or of a body. -/
  | item
  /-- A value to compute: an operand, a condition, an index, an argument and so on. -/
  | expression
  /-- The target of a call. -/
  | target
  /-- The last argument of a call that has no target. -/
  | lastArgument
  /-- The value of a binding. -/
  | boundValue
  deriving Repr, DecidableEq

/-- Some nodes in one role. -/
def Role.each (role : Role) (ns : List Node) : List (Role × Node) :=
  ns.map (role, ·)

/-- The node of a step that is no name. -/
def Segment.node? : Segment → Option Node
  | .name _ => none
  | .expr n => some n

/-- The value of a map entry. -/
def Entry.value : Entry → Node
  | .mk _ value => value

/-- The nodes of a body. -/
def bodyParts (items : List Item) : List (Role × Node) :=
  Role.item.each (items.filterMap Item.node?)

/-- The condition and the body of an arm. -/
def Arm.parts : Arm → List (Role × Node)
  | .mk condition body => (.expression, condition) :: bodyParts body

/-- The arguments of a call. The last one has a role of its own if there is no target. -/
def argumentParts : Option Node → List Node → List (Role × Node)
  | some _, args => Role.expression.each args
  | none, args => Role.expression.each args.dropLast ++ Role.lastArgument.each args.getLast?.toList

/-- The nodes directly below a node, with their roles. -/
def Node.parts : Node → List (Role × Node)
  | .bool _ | .null | .int _ | .decimal _ | .string _ | .importFile _ => []
  | .unary _ a => [(.expression, a)]
  | .binary _ a b => [(.expression, a), (.expression, b)]
  | .ternary a b c => (.expression, a) :: (.expression, b) :: Role.expression.each c.toList
  | .selector path => Role.expression.each (path.filterMap Segment.node?)
  | .call target name args =>
    Role.target.each target.toList ++ Role.expression.each name.node?.toList ++
      argumentParts target args
  | .map entries => Role.expression.each (entries.map Entry.value)
  | .statements items => bodyParts items
  | .conditional arms => arms.flatMap Arm.parts
  | .binding _ value => [(.boundValue, value)]
  | .loop _ collection body otherwise =>
    (.expression, collection) :: (bodyParts body ++ bodyParts (otherwise.getD []))
  | .macroDef _ _ body => bodyParts body

/-- `Occurs r m role n`: when `n` stands in `role`, then `m` stands in the role `r` somewhere in it;
`n` itself counts. -/
inductive Occurs (r : Role) (m : Node) : Role → Node → Prop where
  | here : Occurs r m r m
  | part {role : Role} {n : Node} {p : Role × Node} :
      p ∈ n.parts → Occurs r m p.1 p.2 → Occurs r m role n

/-- What a role asks of a node. -/
def Node.Fits (role : Role) : Node → Prop
  | .bool _ | .null | .int _ | .string _ | .unary .. | .binary .. | .ternary .. | .map _ => True
  | .decimal d => d.scale ≤ Decimal.maxShift
  -- a path that is no name alone and no target has two steps or more
  | .selector path =>
    path ≠ [] ∧ (∀ q, path.head? ≠ some (.expr (.selector q))) ∧
      ∀ n, path = [.expr n] → role = .target
  | .call target name _ =>
    (∀ t, target = some t → ∃ path, t = .selector path) ∧
      (target = none → ∃ f, name = .name f)
  | .statements _ => role = .boundValue ∨ role = .lastArgument
  | .importFile _ | .binding .. | .macroDef .. => role = .item
  | .conditional arms => role = .item ∧ arms ≠ []
  | .loop names .. => role = .item ∧ (names.length = 1 ∨ names.length = 2)

/-- Every node of the tree fits the role in which it stands. -/
def Node.Placed (role : Role) (n : Node) : Prop :=
  ∀ r m, Occurs r m role n → m.Fits r

/-- Every node of the body is well placed. -/
def itemsPlaced (items : List Item) : Prop :=
  ∀ n, .node n ∈ items → n.Placed .item

/-! ## From the parts to the tree -/

/-- Nodes in one role are the nodes with this role. -/
theorem Role.mem_each {role : Role} {ns : List Node} {p : Role × Node} :
    p ∈ role.each ns ↔ p.1 = role ∧ p.2 ∈ ns := by
  constructor
  · intro h
    obtain ⟨n, hn, rfl⟩ := List.mem_map.mp h
    exact ⟨rfl, hn⟩
  · intro h
    exact List.mem_map.mpr ⟨p.2, h.2, by rw [← h.1]⟩

theorem Segment.node?_eq_some {s : Segment} {n : Node} : s.node? = some n ↔ s = .expr n := by
  cases s with
  | name s => exact ⟨fun h => (nomatch h), fun h => (nomatch h)⟩
  | expr m =>
    constructor
    · intro h
      cases h
      rfl
    · intro h
      cases h
      rfl

theorem Item.node?_eq_some {i : Item} {n : Node} : i.node? = some n ↔ i = .node n := by
  cases i with
  | text s => exact ⟨fun h => (nomatch h), fun h => (nomatch h)⟩
  | node m =>
    constructor
    · intro h
      cases h
      rfl
    · intro h
      cases h
      rfl

theorem mem_pathNodes {path : List Segment} {n : Node} :
    n ∈ path.filterMap Segment.node? ↔ .expr n ∈ path := by
  simp only [List.mem_filterMap, Segment.node?_eq_some, exists_eq_right]

/-- The parts of a body are the nodes among its items. -/
theorem mem_bodyParts {items : List Item} {p : Role × Node} :
    p ∈ bodyParts items ↔ p.1 = .item ∧ .node p.2 ∈ items := by
  simp only [bodyParts, Role.mem_each, List.mem_filterMap, Item.node?_eq_some, exists_eq_right]

/-- Whatever their roles, the parts of arguments are the arguments. -/
theorem mem_of_mem_argumentParts {target : Option Node} {args : List Node} {p : Role × Node}
    (h : p ∈ argumentParts target args) : p.2 ∈ args := by
  cases target with
  | none =>
    rcases List.mem_append.mp h with h | h
    · exact List.dropLast_subset args (Role.mem_each.mp h).2
    · exact List.mem_of_getLast? (Option.mem_toList.mp (Role.mem_each.mp h).2)
  | some t => exact (Role.mem_each.mp h).2

/-- Every argument is a part of its call. -/
theorem exists_role_of_mem_args {args : List Node} {n : Node} (target : Option Node)
    (h : n ∈ args) : ∃ role, (role, n) ∈ argumentParts target args := by
  cases target with
  | none =>
    have hne := List.ne_nil_of_mem h
    have hlast := List.getLast?_eq_some_getLast hne
    rw [← List.dropLast_concat_getLast hne] at h
    rcases List.mem_append.mp h with h | h
    · exact ⟨.expression, List.mem_append_left _ (Role.mem_each.mpr ⟨rfl, h⟩)⟩
    · obtain rfl := List.mem_singleton.mp h
      exact ⟨.lastArgument,
        List.mem_append_right _ (Role.mem_each.mpr ⟨rfl, Option.mem_toList.mpr hlast⟩)⟩
  | some t => exact ⟨.expression, Role.mem_each.mpr ⟨rfl, h⟩⟩

namespace Node

/-- **A tree is well placed** if its root is and the parts below the root are. -/
theorem placed_iff {role : Role} {n : Node} :
    n.Placed role ↔ n.Fits role ∧ ∀ p ∈ n.parts, p.2.Placed p.1 := by
  constructor
  · intro h
    exact ⟨h role n .here, fun p hp r m hm => h r m (.part hp hm)⟩
  · intro h r m hm
    cases hm with
    | here => exact h.1
    | part hp hm => exact h.2 _ hp r m hm

/-- A node that fits as an expression fits everywhere. -/
theorem Fits.of_expression {n : Node} (h : n.Fits .expression) (role : Role) : n.Fits role := by
  cases n with
  | selector path => exact ⟨h.1, h.2.1, fun m hm => nomatch h.2.2 m hm⟩
  | statements items => exact h.elim (fun e => nomatch e) (fun e => nomatch e)
  | importFile path => exact nomatch h
  | conditional arms => exact nomatch h.1
  | binding name value => exact nomatch h
  | loop names collection body otherwise => exact nomatch h.1
  | macroDef name params body => exact nomatch h
  | _ => exact h

/-- So an expression may stand everywhere. -/
theorem Placed.of_expression {n : Node} (h : n.Placed .expression) (role : Role) :
    n.Placed role :=
  placed_iff.mpr ⟨(placed_iff.mp h).1.of_expression role, (placed_iff.mp h).2⟩

end Node

/-- Nodes that are well placed in one role are so with this role beside them. -/
theorem Role.placed_each {role : Role} {ns : List Node} (h : ∀ n ∈ ns, n.Placed role) :
    ∀ p ∈ role.each ns, p.2.Placed p.1 := by
  intro p hp
  obtain ⟨hrole, hn⟩ := Role.mem_each.mp hp
  exact hrole ▸ h p.2 hn

/-- The parts of a body are well placed if its nodes are. -/
theorem placed_bodyParts {items : List Item} (h : itemsPlaced items) :
    ∀ p ∈ bodyParts items, p.2.Placed p.1 := by
  intro p hp
  obtain ⟨hrole, hn⟩ := mem_bodyParts.mp hp
  exact hrole ▸ h p.2 hn

/-! ## Building well-placed trees -/

/-- The node of a step is well placed, if it has one. -/
def Segment.Placed (s : Segment) : Prop :=
  ∀ n, s = .expr n → n.Placed .expression

/-- The condition and the body of an arm are well placed. -/
def Arm.Placed (a : Arm) : Prop :=
  ∀ p ∈ a.parts, p.2.Placed p.1

theorem Segment.placed_name (s : String) : (Segment.name s).Placed := by
  intro n h
  cases h

theorem Segment.placed_expr {n : Node} (h : n.Placed .expression) : (Segment.expr n).Placed := by
  intro m hm
  cases hm
  exact h

theorem Arm.placed_mk {condition : Node} {body : List Item} (hc : condition.Placed .expression)
    (hb : itemsPlaced body) : (Arm.mk condition body).Placed :=
  List.forall_mem_cons.mpr ⟨hc, placed_bodyParts hb⟩

/-- Well-placed arguments without a body among them. -/
theorem placed_argumentParts {target : Option Node} {args : List Node}
    (h : ∀ n ∈ args, n.Placed .expression) :
    ∀ p ∈ argumentParts target args, p.2.Placed p.1 :=
  fun p hp => (h p.2 (mem_of_mem_argumentParts hp)).of_expression p.1

/-- The body of a call stands behind its arguments. -/
theorem placed_argumentParts_statements {args : List Node} {items : List Item}
    (hargs : ∀ n ∈ args, n.Placed .expression) (hitems : itemsPlaced items) :
    ∀ p ∈ argumentParts none (args ++ [.statements items]), p.2.Placed p.1 := by
  have hlast : (Node.statements items).Placed .lastArgument :=
    Node.placed_iff.mpr ⟨.inr rfl, placed_bodyParts hitems⟩
  rw [argumentParts, List.dropLast_concat, List.getLast?_concat]
  exact List.forall_mem_append.mpr
    ⟨Role.placed_each hargs, Role.placed_each (List.forall_mem_singleton.mpr hlast)⟩

namespace Node

/-- A node without parts. -/
theorem placed_leaf {role : Role} {n : Node} (hparts : n.parts = []) (h : n.Fits role) :
    n.Placed role := by
  rw [placed_iff, hparts]
  exact ⟨h, fun p hp => nomatch hp⟩

theorem placed_unary {op : UnaryOp} {a : Node} (h : a.Placed .expression) :
    (unary op a).Placed .expression :=
  placed_iff.mpr ⟨trivial, List.forall_mem_singleton.mpr h⟩

theorem placed_binary {op : BinaryOp} {a b : Node} (ha : a.Placed .expression)
    (hb : b.Placed .expression) : (binary op a b).Placed .expression :=
  placed_iff.mpr ⟨trivial, List.forall_mem_cons.mpr ⟨ha, List.forall_mem_singleton.mpr hb⟩⟩

/-- A choice is well placed if its parts are, the last one only if it is there. -/
theorem placed_ternary {a b : Node} {c : Option Node} (ha : a.Placed .expression)
    (hb : b.Placed .expression) (hc : ∀ n, c = some n → n.Placed .expression) :
    (ternary a b c).Placed .expression :=
  placed_iff.mpr ⟨trivial, List.forall_mem_cons.mpr ⟨ha, List.forall_mem_cons.mpr
    ⟨hb, Role.placed_each fun n hn => hc n (Option.mem_toList.mp hn)⟩⟩⟩

/-- A path is well placed if it fits its role and its steps are well placed. -/
theorem placed_selector {role : Role} {path : List Segment} :
    (selector path).Placed role ↔ (selector path).Fits role ∧ ∀ s ∈ path, s.Placed := by
  rw [placed_iff]
  refine and_congr_right fun _ => ⟨fun h s hs n hn => ?_, fun h => ?_⟩
  · exact h (.expression, n) (Role.mem_each.mpr ⟨rfl, mem_pathNodes.mpr (hn ▸ hs)⟩)
  · exact Role.placed_each fun n hn => h _ (mem_pathNodes.mp hn) n rfl

/-- A name by itself is a path of one step, and well placed. -/
theorem placed_ofName (name : String) : (ofName name).Placed .expression := by
  refine placed_selector.mpr ⟨⟨List.cons_ne_nil _ _, fun q hq => ?_, fun n hn => ?_⟩, ?_⟩
  · cases hq
  · cases hn
  · exact List.forall_mem_singleton.mpr (Segment.placed_name name)

/-- **One more step** at the end of a path. A path is extended and never becomes the first step of
another one, so no path starts with a path. -/
theorem placed_step {n : Node} {s : Segment} (hn : n.Placed .expression) (hs : s.Placed) :
    (n.step s).Placed .expression := by
  unfold step
  split
  · next path =>
    obtain ⟨⟨hne, hhead, -⟩, hsteps⟩ := placed_selector.mp hn
    refine placed_selector.mpr ⟨⟨by simp, fun q => ?_, fun m hm => ?_⟩, ?_⟩
    · rw [List.head?_append, List.head?_eq_some_head hne, Option.some_or]
      exact List.head?_eq_some_head hne ▸ hhead q
    · -- with the step there are two of them at least
      have hlen := congrArg List.length hm
      have hpos := List.length_pos_iff.mpr hne
      simp only [List.length_append, List.length_singleton] at hlen
      omega
    · exact List.forall_mem_append.mpr ⟨hsteps, List.forall_mem_singleton.mpr hs⟩
  · next hother =>
    refine placed_selector.mpr ⟨⟨List.cons_ne_nil _ _, fun q hq => ?_, fun m hm => ?_⟩, ?_⟩
    · cases hq
      exact hother q rfl
    · cases hm
    · exact List.forall_mem_cons.mpr
        ⟨Segment.placed_expr hn, List.forall_mem_singleton.mpr hs⟩

/-- **A call** of a path: its last step is the name and the steps before it are the target. -/
theorem placed_call {path : List Segment} {name : Segment} {args : List Node}
    (hpath : (selector path).Placed .expression) (hname : path.getLast? = some name)
    (hargs : ∀ n ∈ args, n.Placed .expression) :
    (call (if path.dropLast.isEmpty then none else some (.selector path.dropLast)) name
      args).Placed .expression := by
  obtain ⟨⟨-, hhead, hsingle⟩, hsteps⟩ := placed_selector.mp hpath
  have hlast : name.Placed := hsteps name (List.mem_of_getLast? hname)
  have hsplit : path = path.dropLast ++ [name] := by
    have hne : path ≠ [] := by
      rintro rfl
      cases hname
    rw [List.getLast?_eq_some_getLast hne] at hname
    cases hname
    exact (List.dropLast_concat_getLast hne).symm
  have hnameParts : ∀ p ∈ Role.expression.each name.node?.toList, p.2.Placed p.1 :=
    Role.placed_each fun n hn => hlast n (Segment.node?_eq_some.mp (Option.mem_toList.mp hn))
  by_cases hempty : path.dropLast = []
  · -- the path was a single step, and as an expression it is a name
    have hone : path = [name] := by
      rw [hempty] at hsplit
      exact hsplit
    rw [hempty, List.isEmpty_nil, if_pos rfl]
    refine placed_iff.mpr ⟨⟨fun t ht => (nomatch ht), fun _ => ?_⟩, ?_⟩
    · cases name with
      | name f => exact ⟨f, rfl⟩
      | expr n => exact nomatch hsingle n hone
    · exact List.forall_mem_append.mpr ⟨hnameParts, placed_argumentParts hargs⟩
  · have hisEmpty : path.dropLast.isEmpty = false := List.isEmpty_eq_false_iff.mpr hempty
    have htarget : (selector path.dropLast).Placed .target := by
      refine placed_selector.mpr ⟨⟨hempty, fun q hq => hhead q ?_, fun _ _ => rfl⟩, ?_⟩
      · rw [hsplit, List.head?_append, hq, Option.some_or]
      · exact fun s hs => hsteps s (List.dropLast_subset path hs)
    rw [hisEmpty, if_neg Bool.false_ne_true]
    refine placed_iff.mpr ⟨⟨fun t ht => ?_, fun h => (nomatch h)⟩, ?_⟩
    · cases ht
      exact ⟨_, rfl⟩
    · exact List.forall_mem_append.mpr ⟨List.forall_mem_append.mpr
        ⟨Role.placed_each (List.forall_mem_singleton.mpr htarget), hnameParts⟩,
        placed_argumentParts hargs⟩

end Node

/-! ## Well-placed trees can be exchanged -/

/-- The nodes of a body are smaller than the body. -/
theorem sizeOf_lt_of_mem_bodyParts {items : List Item} {p : Role × Node}
    (h : p ∈ bodyParts items) : sizeOf p.2 < sizeOf items := by
  have hsize := List.sizeOf_lt_of_mem (mem_bodyParts.mp h).2
  rw [Item.node.sizeOf_spec] at hsize
  omega

/-- The condition of an arm and the nodes of its body are smaller than the arm. -/
theorem Arm.sizeOf_lt_of_mem_parts {a : Arm} {p : Role × Node} (h : p ∈ a.parts) :
    sizeOf p.2 < sizeOf a := by
  cases a with
  | mk condition body =>
    rw [Arm.mk.sizeOf_spec]
    rcases List.mem_cons.mp h with rfl | h
    · show sizeOf condition < _
      omega
    · have hsize := sizeOf_lt_of_mem_bodyParts h
      omega

namespace Node

/-- The parts of a node are smaller than the node, so that a recursion over the parts ends. One case
for each kind of node with parts. -/
theorem sizeOf_lt_of_mem_parts {n : Node} {p : Role × Node} (h : p ∈ n.parts) :
    sizeOf p.2 < sizeOf n := by
  cases n with
  | bool | null | int | decimal | string | importFile => cases h
  | unary op a =>
    obtain rfl := List.mem_singleton.mp h
    simp only [unary.sizeOf_spec]
    omega
  | binary op a b =>
    simp only [parts, List.mem_cons, List.not_mem_nil, or_false] at h
    rcases h with rfl | rfl
    all_goals
      simp only [binary.sizeOf_spec]
      omega
  | ternary a b c =>
    simp only [parts, List.mem_cons, Role.mem_each, Option.mem_toList] at h
    rcases h with rfl | rfl | ⟨-, rfl⟩
    all_goals
      simp only [ternary.sizeOf_spec, Option.some.sizeOf_spec]
      omega
  | selector path =>
    have hsize := List.sizeOf_lt_of_mem (mem_pathNodes.mp (Role.mem_each.mp h).2)
    simp only [Segment.expr.sizeOf_spec, selector.sizeOf_spec] at hsize ⊢
    omega
  | call target name args =>
    simp only [parts, List.mem_append, Role.mem_each, Option.mem_toList,
      Segment.node?_eq_some] at h
    rcases h with (⟨-, rfl⟩ | ⟨-, rfl⟩) | h
    · simp only [call.sizeOf_spec, Option.some.sizeOf_spec]
      omega
    · simp only [call.sizeOf_spec, Segment.expr.sizeOf_spec]
      omega
    · have hsize := List.sizeOf_lt_of_mem (mem_of_mem_argumentParts h)
      simp only [call.sizeOf_spec]
      omega
  | map entries =>
    obtain ⟨e, he, hvalue⟩ := List.mem_map.mp (Role.mem_each.mp h).2
    have hsize := List.sizeOf_lt_of_mem he
    cases e with
    | mk key value =>
      simp only [Entry.value] at hvalue
      simp only [Entry.mk.sizeOf_spec, map.sizeOf_spec, ← hvalue] at hsize ⊢
      omega
  | statements items =>
    have hsize := sizeOf_lt_of_mem_bodyParts h
    simp only [statements.sizeOf_spec]
    omega
  | conditional arms =>
    obtain ⟨a, ha, h⟩ := List.mem_flatMap.mp h
    have hsize := List.sizeOf_lt_of_mem ha
    have hpart := Arm.sizeOf_lt_of_mem_parts h
    simp only [conditional.sizeOf_spec]
    omega
  | binding name value =>
    obtain rfl := List.mem_singleton.mp h
    simp only [binding.sizeOf_spec]
    omega
  | loop names collection body otherwise =>
    simp only [parts, List.mem_cons, List.mem_append] at h
    rcases h with rfl | h | h
    · simp only [loop.sizeOf_spec]
      omega
    · have hsize := sizeOf_lt_of_mem_bodyParts h
      simp only [loop.sizeOf_spec]
      omega
    · cases otherwise with
      | none => cases h
      | some items =>
        have hsize := sizeOf_lt_of_mem_bodyParts h
        simp only [loop.sizeOf_spec, Option.some.sizeOf_spec]
        simp only [Option.getD_some] at hsize
        omega
  | macroDef name params body =>
    have hsize := sizeOf_lt_of_mem_bodyParts h
    simp only [macroDef.sizeOf_spec]
    omega

/-- What holds of a node as soon as it holds of its parts holds of every node. -/
theorem induction_parts {P : Node → Prop} (h : ∀ n : Node, (∀ p ∈ n.parts, P p.2) → P n)
    (n : Node) : P n :=
  h n fun p _ => induction_parts h p.2
termination_by sizeOf n
decreasing_by exact sizeOf_lt_of_mem_parts ‹_›

/-- The parts of a node decide whether it can be exchanged, once it fits its role. -/
theorem wellFormed_of_parts {role : Role} {n : Node} (hn : n.Fits role)
    (h : ∀ p ∈ n.parts, p.2.WellFormed) : n.WellFormed := by
  have hbody : ∀ items : List Item, (∀ p ∈ bodyParts items, p.2.WellFormed) →
      itemsWellFormed items := by
    intro items hitems
    refine itemsWellFormed_iff.mpr fun i hi => ?_
    cases i with
    | text s => trivial
    | node m => exact hitems (.item, m) (mem_bodyParts.mpr ⟨rfl, hi⟩)
  cases n with
  | bool | null | int | string | importFile => trivial
  | decimal d => exact hn
  | unary op a => exact h (.expression, a) (List.mem_cons_self ..)
  | binary op a b =>
    exact ⟨h (.expression, a) (List.mem_cons_self ..),
      h (.expression, b) (List.mem_cons_of_mem _ (List.mem_cons_self ..))⟩
  | ternary a b c =>
    simp only [parts, List.forall_mem_cons] at h
    refine ⟨h.1, h.2.1, ?_⟩
    cases c with
    | none => trivial
    | some c => exact h.2.2 (.expression, c) (List.mem_cons_self ..)
  | selector path =>
    refine ⟨hn.1, pathWellFormed_iff.mpr fun s hs => ?_⟩
    cases s with
    | name s => trivial
    | expr m => exact h (.expression, m) (Role.mem_each.mpr ⟨rfl, mem_pathNodes.mpr hs⟩)
  | call target name args =>
    simp only [parts, List.forall_mem_append] at h
    obtain ⟨⟨htarget, hname⟩, hargs⟩ := h
    refine ⟨?_, ?_, nodesWellFormed_iff.mpr fun n hn => ?_⟩
    · cases target with
      | none => trivial
      | some t => exact htarget (.target, t) (List.mem_cons_self ..)
    · cases name with
      | name s => trivial
      | expr m => exact hname (.expression, m) (List.mem_cons_self ..)
    · obtain ⟨role, hrole⟩ := exists_role_of_mem_args target hn
      exact hargs _ hrole
  | map entries =>
    refine entriesWellFormed_iff.mpr fun e he => ?_
    cases e with
    | mk key value =>
      exact h (.expression, value) (Role.mem_each.mpr ⟨rfl, List.mem_map.mpr ⟨_, he, rfl⟩⟩)
  | statements items => exact hbody items h
  | conditional arms =>
    refine armsWellFormed_iff.mpr fun a ha => ?_
    have hparts : ∀ p ∈ a.parts, p.2.WellFormed := fun p hp =>
      h p (List.mem_flatMap.mpr ⟨a, ha, hp⟩)
    cases a with
    | mk condition body =>
      obtain ⟨hcondition, hitems⟩ := List.forall_mem_cons.mp hparts
      exact ⟨hcondition, hbody body hitems⟩
  | binding name value => exact h (.boundValue, value) (List.mem_cons_self ..)
  | loop names collection body otherwise =>
    simp only [parts, List.forall_mem_cons, List.forall_mem_append] at h
    refine ⟨hn.2, h.1, hbody body h.2.1, ?_⟩
    cases otherwise with
    | none => trivial
    | some items => exact hbody items h.2.2
  | macroDef name params body => exact hbody body h

/-- **Well-placed trees can be exchanged.** -/
theorem wellFormed_of_placed {role : Role} {n : Node} (h : n.Placed role) : n.WellFormed := by
  induction n using induction_parts generalizing role with
  | h n ih =>
    obtain ⟨hfits, hparts⟩ := placed_iff.mp h
    exact wellFormed_of_parts hfits fun p hp => ih p hp (hparts p hp)

end Node

/-- Items whose nodes are well placed can be exchanged. -/
theorem itemsWellFormed_of_placed {items : List Item} (h : itemsPlaced items) :
    itemsWellFormed items := by
  refine itemsWellFormed_iff.mpr fun i hi => ?_
  cases i with
  | text s => trivial
  | node n => exact Node.wellFormed_of_placed (h n hi)

end Stencil
