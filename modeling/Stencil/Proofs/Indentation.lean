import Stencil.Proofs.PieceLayout

/-!
# The indent of pseudo-source

Another indent changes the layout of pseudo-source and nothing else. The indent comes in when the
pieces are put together. It could come in earlier at one place only: entries of a map that look the
same are shown once, and what an entry looks like depends on the indent if a construct with bodies
stands in it. Where no map has such an entry, all indents have the pieces in common.

> `nodePieces_eq`: two indents have the pieces of a node in common.
> `pseudoSource_layout`: the same pieces, laid out along the items, serve all indents.
-/

namespace Stencil

open Piece (plain)

/-! ## Maps without constructs in them -/

/-- Wherever a map stands in the node, no value of it holds a construct. -/
def Node.PlainMaps (n : Node) : Prop :=
  ∀ r role entries, Occurs r (.map entries) role n → ∀ e ∈ entries, ¬e.value.HoldsConstruct

/-- Wherever a map stands in the items, no value of it holds a construct. -/
def itemsPlainMaps (items : List Item) : Prop :=
  ∀ n, .node n ∈ items → n.PlainMaps

namespace Node

/-- A node has plain maps if its own entries, should it be a map, hold no construct and its parts
have plain maps. -/
theorem plainMaps_iff {n : Node} : n.PlainMaps ↔
    (∀ entries, n = .map entries → ∀ e ∈ entries, ¬e.value.HoldsConstruct) ∧
      ∀ p ∈ n.parts, p.2.PlainMaps := by
  constructor
  · intro h
    refine ⟨fun entries hn => h .item .item entries (hn ▸ .here), ?_⟩
    intro p hp r role entries hm
    obtain ⟨r', hm⟩ := hm.exists_role p.1
    exact h r' .item entries (.part hp hm)
  · intro h r role entries hm
    cases hm with
    | here => exact h.1 entries rfl
    | part hp hm => exact h.2 _ hp r _ entries hm

/-- A node that is no map. -/
theorem PlainMaps.of_parts {n : Node} (hn : ∀ entries, n ≠ .map entries)
    (h : ∀ p ∈ n.parts, p.2.PlainMaps) : n.PlainMaps :=
  plainMaps_iff.mpr ⟨fun entries he => absurd he (hn entries), h⟩

end Node

/-! ## Pieces for all indents -/

namespace Piece

/-- Pieces without an indent look the same with every indent. -/
theorem renderAll_of_flat {ps : List Piece} (h : Flat ps) (indent indent' : String) :
    renderAll indent ps = renderAll indent' ps := by
  have hrender : ∀ p ∈ ps, render indent p = render indent' p := by
    intro p hp
    rw [render, render, h p hp, List.replicate_zero, List.replicate_zero]
  rw [renderAll, renderAll, List.map_congr_left hrender]

/-- Groups without indents look alike with one indent if they do with another. -/
theorem distinct_of_flat {groups : List (List Piece)} (h : ∀ group ∈ groups, Flat group)
    (indent indent' : String) (seen : List String) :
    distinct indent seen groups = distinct indent' seen groups := by
  induction groups generalizing seen with
  | nil => rfl
  | cons group groups ih =>
    obtain ⟨hgroup, hgroups⟩ := List.forall_mem_cons.mp h
    rw [distinct, distinct, renderAll_of_flat hgroup indent indent', ih hgroups, ih hgroups]

end Piece

/-- Two indents have the pieces of the node in common, wherever it stands. -/
def Node.SamePieces (indent indent' : String) (n : Node) : Prop :=
  ∀ alone depth, nodePieces indent alone depth n = nodePieces indent' alone depth n

section

variable {indent indent' : String}

theorem segmentPieces_congr {path : List Segment}
    (h : ∀ n ∈ path.filterMap Segment.node?, n.SamePieces indent indent') (depth : Nat) :
    segmentPieces indent depth path = segmentPieces indent' depth path := by
  rw [segmentPieces_eq_map, segmentPieces_eq_map]
  refine List.map_congr_left fun s hs => ?_
  cases s with
  | name s => rfl
  | expr n => exact h n (mem_pathNodes.mpr hs) false depth

theorem argPieces_congr {args : List Node} (h : ∀ a ∈ args, a.SamePieces indent indent')
    (depth : Nat) : argPieces indent depth args = argPieces indent' depth args := by
  rw [argPieces_eq_map, argPieces_eq_map]
  exact List.map_congr_left fun a ha => h a ha false depth

theorem entryPieces_congr {entries : List Entry}
    (h : ∀ e ∈ entries, e.value.SamePieces indent indent') (depth : Nat) :
    entryPieces indent depth entries = entryPieces indent' depth entries := by
  rw [entryPieces_eq_map, entryPieces_eq_map]
  refine List.map_congr_left fun e he => ?_
  have hvalue := h e he false depth
  obtain ⟨key, value⟩ := e
  cases key with
  | none => exact hvalue
  | some key => exact congrArg (plain (key ++ " : ") :: ·) hvalue

/-- Items whose nodes are shown by the same pieces are so themselves. -/
theorem itemPieces_congr {items : List Item}
    (h : ∀ p ∈ bodyParts items, p.2.SamePieces indent indent') (alone : Bool) (depth : Nat) :
    itemPieces indent alone depth items = itemPieces indent' alone depth items := by
  induction items with
  | nil => rfl
  | cons i items ih =>
    cases i with
    | text s => rw [itemPieces, itemPieces, ih h]
    | node n =>
      obtain ⟨hn, hitems⟩ := List.forall_mem_cons.mp h
      rw [itemPieces, itemPieces, hn alone depth, ih hitems]

theorem armPieces_congr {arms : List Arm}
    (h : ∀ p ∈ arms.flatMap Arm.parts, p.2.SamePieces indent indent') (depth : Nat) :
    armPieces indent depth arms = armPieces indent' depth arms := by
  induction arms with
  | nil => rfl
  | cons a arms ih =>
    obtain ⟨condition, body⟩ := a
    rw [List.flatMap_cons, List.forall_mem_append, Arm.parts, List.forall_mem_cons] at h
    obtain ⟨⟨hcondition, hbody⟩, harms⟩ := h
    rw [armPieces, armPieces, hcondition false depth, itemPieces_congr hbody, ih harms]

/-- The entries of a map have no indents in them, so that the same ones are shown. -/
theorem distinct_entryPieces {entries : List Entry}
    (h : ∀ e ∈ entries, ¬e.value.HoldsConstruct) (depth : Nat) :
    Piece.distinct indent [] (entryPieces indent depth entries) =
      Piece.distinct indent' [] (entryPieces indent depth entries) := by
  refine Piece.distinct_of_flat (fun group hgroup => ?_) indent indent' []
  rw [entryPieces_eq_map] at hgroup
  obtain ⟨e, he, rfl⟩ := List.mem_map.mp hgroup
  have hvalue := (laid_nodePieces indent e.value false depth).flat (h e he)
  obtain ⟨key, value⟩ := e
  cases key with
  | none => exact hvalue
  | some key => exact List.forall_mem_cons.mpr ⟨rfl, hvalue⟩

/-- **Two indents have the pieces in common** if no value of a map holds a construct. -/
theorem nodePieces_eq (indent indent' : String) {n : Node} (hn : n.PlainMaps) :
    n.SamePieces indent indent' := by
  induction n using Node.induction_parts with
  | h n ih =>
    obtain ⟨hmaps, hplain⟩ := Node.plainMaps_iff.mp hn
    have hparts : ∀ p ∈ n.parts, p.2.SamePieces indent indent' := fun p hp =>
      ih p hp (hplain p hp)
    clear ih hplain
    intro alone depth
    cases n with
    | bool | null | int | decimal | string | importFile => rw [nodePieces, nodePieces]
    | unary op a =>
      rw [nodePieces, nodePieces, List.forall_mem_singleton.mp hparts]
    | binary op a b =>
      rw [Node.parts, List.forall_mem_cons, List.forall_mem_singleton] at hparts
      rw [nodePieces, nodePieces, hparts.1, hparts.2]
    | ternary a b c =>
      rw [Node.parts, List.forall_mem_cons, List.forall_mem_cons] at hparts
      cases c with
      | none => rw [nodePieces, nodePieces, hparts.1, hparts.2.1]
      | some c =>
        rw [nodePieces, nodePieces, hparts.1, hparts.2.1,
          List.forall_mem_singleton.mp hparts.2.2]
    | selector path =>
      rw [nodePieces, nodePieces, segmentPieces_congr (Role.forall_mem_each.mp hparts)]
    | call target name args =>
      rw [Node.parts, List.forall_mem_append, List.forall_mem_append] at hparts
      obtain ⟨⟨htarget, hname⟩, hargs⟩ := hparts
      have hlist := argPieces_congr (forall_args_of_argumentParts hargs)
      cases target with
      | none =>
        cases name with
        | name f => rw [nodePieces, nodePieces, hlist]
        | expr f => rw [nodePieces, nodePieces, hlist, List.forall_mem_singleton.mp hname]
      | some t =>
        have ht := List.forall_mem_singleton.mp htarget
        cases name with
        | name f => rw [nodePieces, nodePieces, hlist, ht]
        | expr f => rw [nodePieces, nodePieces, hlist, ht, List.forall_mem_singleton.mp hname]
    | map entries =>
      have hvalues := List.forall_mem_map.mp (Role.forall_mem_each.mp hparts)
      -- only here the pieces themselves could depend on the indent
      rw [nodePieces, nodePieces, distinct_entryPieces (hmaps entries rfl),
        entryPieces_congr hvalues]
    | statements items => rw [nodePieces, nodePieces, itemPieces_congr hparts]
    | conditional arms => rw [nodePieces, nodePieces, armPieces_congr hparts]
    | binding name value =>
      rw [nodePieces, nodePieces, List.forall_mem_singleton.mp hparts]
    | loop names collection body otherwise =>
      rw [Node.parts, List.forall_mem_cons, List.forall_mem_append] at hparts
      obtain ⟨hcollection, hbody, hotherwise⟩ := hparts
      cases otherwise with
      | none => rw [nodePieces, nodePieces, hcollection, itemPieces_congr hbody]
      | some otherwise =>
        rw [Option.getD_some] at hotherwise
        rw [nodePieces, nodePieces, hcollection, itemPieces_congr hbody,
          itemPieces_congr hotherwise]
    | macroDef name params body => rw [nodePieces, nodePieces, itemPieces_congr hparts]

end

/-- **The indent is layout only.** If no value of a map holds a construct with bodies, then the
pseudo-source with any indent is made of the same pieces, and these are laid out along the items:
constructs open and close at their depth, their bodies are one deeper, and text is not indented. -/
theorem pseudoSource_layout {items : List Item} (h : itemsPlainMaps items) :
    ∃ pieces, (∀ indent, pseudoSource indent items = Piece.renderAll indent pieces) ∧
      LaidItems true 0 items pieces := by
  refine ⟨itemPieces "" true 0 items, fun indent => ?_, ?_⟩
  · rw [pseudoSource]
    refine congrArg (Piece.renderAll indent) (itemPieces_congr (fun p hp => ?_) true 0)
    exact nodePieces_eq indent "" (h p.2 (mem_bodyParts.mp hp).2)
  · exact laidItems_itemPieces fun p _ => laid_nodePieces "" p.2

/-- A map with two entries that look the same. -/
def twinMap : Node :=
  .map [.mk (some "k") (.int 1), .mk none (.string "k : 1")]

/-- A condition in the value of a binding. -/
def boundCondition : Node :=
  .binding "x" (.statements [.text "b", .node (.conditional [.mk (.bool true) [.node .null]])])

/-- A map, and behind it a condition inside an expression, both in a loop. -/
def nestedItems : List Item :=
  [.text "a", .node (.loop ["v"] (.ofName "w") [.node twinMap, .node boundCondition] none)]

/-- A text and a loop, whose body holds a map and a condition inside an expression. -/
theorem pseudoSource_layout_nested : itemsPlainMaps nestedItems ∧
    ∃ pieces, (∀ indent, pseudoSource indent nestedItems = Piece.renderAll indent pieces) ∧
      LaidItems true 0 nestedItems pieces := by
  have hleaf : ∀ n : Node, n.parts = [] → ¬n.IsConstruct → ¬n.HoldsConstruct := by
    intro n hparts hconstruct h
    rw [Node.holdsConstruct_iff, hparts] at h
    rcases h with h | ⟨p, hp, -⟩
    · exact hconstruct h
    · cases hp
  have hmap : twinMap.PlainMaps := by
    refine Node.plainMaps_iff.mpr ⟨fun entries h => ?_, ?_⟩
    · cases h
      exact List.forall_mem_cons.mpr ⟨hleaf _ rfl not_false,
        List.forall_mem_singleton.mpr (hleaf _ rfl not_false)⟩
    · exact List.forall_mem_cons.mpr ⟨.of_parts (by simp [Entry.value]) (List.forall_mem_nil _),
        List.forall_mem_singleton.mpr (.of_parts (by simp [Entry.value]) (List.forall_mem_nil _))⟩
  have hbinding : boundCondition.PlainMaps := by
    refine .of_parts (by simp [boundCondition]) (List.forall_mem_singleton.mpr ?_)
    refine .of_parts (by simp) (List.forall_mem_singleton.mpr ?_)
    refine .of_parts (by simp) (List.forall_mem_cons.mpr ⟨?_, List.forall_mem_singleton.mpr ?_⟩)
    · exact .of_parts (by simp) (List.forall_mem_nil _)
    · exact .of_parts (by simp) (List.forall_mem_nil _)
  have hplain : itemsPlainMaps nestedItems := by
    intro n hn
    simp only [nestedItems, List.mem_cons, reduceCtorEq, Item.node.injEq, false_or,
      List.not_mem_nil, or_false] at hn
    subst hn
    refine .of_parts (by simp) (List.forall_mem_cons.mpr ⟨?_, List.forall_mem_cons.mpr
      ⟨hmap, List.forall_mem_singleton.mpr hbinding⟩⟩)
    exact .of_parts (by simp [Node.ofName]) (List.forall_mem_nil _)
  exact ⟨hplain, pseudoSource_layout hplain⟩

/-- The body of a macro with a map in it: a macro, and a text that looks like that macro where the
indent is a blank. -/
def lookalikeItems : List Item := [.node (.macroDef "m" [] [.node (.map [
    .mk none (.macroDef "n" [] []), .mk none (.string " macro n() \x7b\n \x7d\n")])])]

/-- With a blank the map is shown with one entry, with a tab it is shown with two. -/
example : itemPieces " " true 0 lookalikeItems ≠ itemPieces "\t" true 0 lookalikeItems := by
  decide +kernel

end Stencil
