import Stencil.Proofs.DerivedTree

/-!
# The text in a tree

Text stands between the blocks of a template and of the bodies inside it. `Node.texts` collects the
texts of a node in the order of the source: the arms of a condition one by one, the body of a loop
before the body for the empty collection, and bodies that stand in the place of a value where this
value stands. An expression has no body, and so no text.

> `itemsTexts`: the texts of the items of a template.
> `Derives.Expression.texts_eq`: there is no text in an expression.
-/

namespace Stencil

mutual

/-- The texts in a node. -/
def Node.texts : Node → List String
  | .bool _ | .null | .int _ | .decimal _ | .string _ | .importFile _ => []
  | .unary _ a => a.texts
  | .binary _ a b => a.texts ++ b.texts
  | .ternary a b c => a.texts ++ (b.texts ++ branchTexts c)
  | .selector path => pathTexts path
  | .call target name args => branchTexts target ++ (name.texts ++ nodesTexts args)
  | .map entries => entriesTexts entries
  | .statements items => itemsTexts items
  | .conditional arms => armsTexts arms
  | .binding _ value => value.texts
  | .loop _ collection body otherwise =>
    collection.texts ++ (itemsTexts body ++ bodyTexts otherwise)
  | .macroDef _ _ body => itemsTexts body
termination_by structural n => n

/-- The texts in a step of a path. -/
def Segment.texts : Segment → List String
  | .name _ => []
  | .expr n => n.texts
termination_by structural s => s

/-- The texts in a part that may be missing. -/
def branchTexts : Option Node → List String
  | none => []
  | some n => n.texts
termination_by structural n => n

/-- The texts in nodes. -/
def nodesTexts : List Node → List String
  | [] => []
  | n :: ns => n.texts ++ nodesTexts ns
termination_by structural ns => ns

/-- The texts in a path. -/
def pathTexts : List Segment → List String
  | [] => []
  | s :: ss => s.texts ++ pathTexts ss
termination_by structural ss => ss

/-- The texts in map entries. -/
def entriesTexts : List Entry → List String
  | [] => []
  | .mk _ value :: es => value.texts ++ entriesTexts es
termination_by structural es => es

/-- The texts in a chain of conditions, arm by arm. -/
def armsTexts : List Arm → List String
  | [] => []
  | .mk condition body :: arms => condition.texts ++ (itemsTexts body ++ armsTexts arms)
termination_by structural arms => arms

/-- The texts of items: their own, and those in their nodes. -/
def itemsTexts : List Item → List String
  | [] => []
  | .text s :: items => s :: itemsTexts items
  | .node n :: items => n.texts ++ itemsTexts items
termination_by structural items => items

/-- The texts in a body that may be missing. -/
def bodyTexts : Option (List Item) → List String
  | none => []
  | some items => itemsTexts items
termination_by structural items => items

end

attribute [simp] Node.texts Segment.texts branchTexts nodesTexts pathTexts entriesTexts armsTexts
  itemsTexts bodyTexts

/-! ## Lists of parts -/

theorem nodesTexts_append (ns ms : List Node) :
    nodesTexts (ns ++ ms) = nodesTexts ns ++ nodesTexts ms := by
  induction ns with
  | nil => rfl
  | cons n ns ih => simp [ih]

theorem pathTexts_append (path path' : List Segment) :
    pathTexts (path ++ path') = pathTexts path ++ pathTexts path' := by
  induction path with
  | nil => rfl
  | cons s path ih => simp [ih]

theorem armsTexts_append (arms arms' : List Arm) :
    armsTexts (arms ++ arms') = armsTexts arms ++ armsTexts arms' := by
  induction arms with
  | nil => rfl
  | cons arm arms ih =>
    cases arm with
    | mk condition body => simp [ih]

theorem itemsTexts_append (items items' : List Item) :
    itemsTexts (items ++ items') = itemsTexts items ++ itemsTexts items' := by
  induction items with
  | nil => rfl
  | cons item items ih => cases item <;> simp [ih]

theorem nodesTexts_eq_nil {ns : List Node} (h : ∀ n ∈ ns, n.texts = []) : nodesTexts ns = [] := by
  induction ns with
  | nil => rfl
  | cons n ns ih =>
    obtain ⟨hn, hns⟩ := List.forall_mem_cons.mp h
    rw [nodesTexts, hn, ih hns]
    rfl

/-- Entries without text in their values have none. -/
theorem entriesTexts_eq_nil {entries : List Entry} (h : ∀ e ∈ entries, e.value.texts = []) :
    entriesTexts entries = [] := by
  induction entries with
  | nil => rfl
  | cons entry entries ih =>
    obtain ⟨hentry, hentries⟩ := List.forall_mem_cons.mp h
    cases entry with
    | mk key value =>
      rw [entriesTexts, ih hentries, List.append_nil]
      exact hentry

/-- One more step adds its texts. -/
theorem Node.texts_step (n : Node) (s : Segment) : (n.step s).texts = n.texts ++ s.texts := by
  unfold step
  split
  · next path => simp [pathTexts_append]
  · simp

/-! ## Expressions -/

namespace Derives

/-- The rules of expressions add no text. -/
theorem passedOn_texts : PassedOn (fun _ => True) fun n => n.texts = [] where
  leaf h _ := by cases h <;> rfl
  map h := entriesTexts_eq_nil h
  property hn _ := by
    rw [Node.texts_step, hn]
    rfl
  index hn hi := by
    rw [Node.texts_step, hn]
    exact hi
  call {path name args} hpath hargs := by
    rw [Node.texts, pathTexts_append, List.append_eq_nil_iff, pathTexts, pathTexts,
      List.append_nil] at hpath
    have htarget : branchTexts (target path) = [] := by
      unfold target
      split
      · rfl
      · exact hpath.1
    rw [Node.texts, htarget, hpath.2, nodesTexts_eq_nil hargs]
    rfl
  unary ha := ha
  binary ha hb := by
    rw [Node.texts, ha, hb]
    rfl
  ternary {a b c} ha hb hc := by
    have hbranch : branchTexts c = [] := by
      cases c with
      | none => rfl
      | some n => exact hc n rfl
    rw [Node.texts, ha, hb, hbranch]
    rfl

/-- **There is no text in an expression.** -/
theorem Expression.texts_eq {isOpen : Bool} {us : List Token} {n : Node}
    (h : Expression isOpen us n) : n.texts = [] :=
  h.holds passedOn_texts fun _ _ _ => trivial

end Derives

end Stencil
