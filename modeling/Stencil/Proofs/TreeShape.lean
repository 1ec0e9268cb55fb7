import Stencil.Proofs.DecimalText
import Stencil.Tree.Wire

/-!
# Well-formed trees

Not every tree can be exchanged. A path needs a step, a loop binds one or two names, and the scale
of a decimal is bounded. `Node.WellFormed` says so of a node and of everything below it. The parser
and the decoder build nothing else; here this is shown of the decoder.

> `Node.wellFormed_ofJson`: a value that is read gives a well-formed node.
-/

namespace Stencil

mutual

/-- The node can be exchanged, with all its parts. -/
def Node.WellFormed : Node → Prop
  | .bool _ | .null | .int _ | .string _ | .importFile _ => True
  | .decimal d => d.scale ≤ Decimal.maxShift
  | .unary _ a => a.WellFormed
  | .binary _ a b => a.WellFormed ∧ b.WellFormed
  | .ternary a b c => a.WellFormed ∧ b.WellFormed ∧ branchWellFormed c
  | .selector path => path ≠ [] ∧ pathWellFormed path
  | .call target name args => branchWellFormed target ∧ name.WellFormed ∧ nodesWellFormed args
  | .map entries => entriesWellFormed entries
  | .statements items => itemsWellFormed items
  | .conditional arms => armsWellFormed arms
  | .binding _ value => value.WellFormed
  | .loop names collection body otherwise =>
    (names.length = 1 ∨ names.length = 2) ∧ collection.WellFormed ∧ itemsWellFormed body ∧
      bodyWellFormed otherwise
  | .macroDef _ _ body => itemsWellFormed body
termination_by structural n => n

/-- A step of a path can be exchanged. -/
def Segment.WellFormed : Segment → Prop
  | .name _ => True
  | .expr n => n.WellFormed
termination_by structural s => s

/-- A part that may be missing can be exchanged. -/
def branchWellFormed : Option Node → Prop
  | none => True
  | some n => n.WellFormed
termination_by structural n => n

/-- Nodes that can be exchanged. -/
def nodesWellFormed : List Node → Prop
  | [] => True
  | n :: ns => n.WellFormed ∧ nodesWellFormed ns
termination_by structural ns => ns

/-- A path that can be exchanged. -/
def pathWellFormed : List Segment → Prop
  | [] => True
  | s :: ss => s.WellFormed ∧ pathWellFormed ss
termination_by structural ss => ss

/-- Map entries that can be exchanged. -/
def entriesWellFormed : List Entry → Prop
  | [] => True
  | .mk _ value :: es => value.WellFormed ∧ entriesWellFormed es
termination_by structural es => es

/-- Arms that can be exchanged. -/
def armsWellFormed : List Arm → Prop
  | [] => True
  | .mk condition body :: arms =>
    condition.WellFormed ∧ itemsWellFormed body ∧ armsWellFormed arms
termination_by structural arms => arms

/-- Items that can be exchanged. -/
def itemsWellFormed : List Item → Prop
  | [] => True
  | .text _ :: items => itemsWellFormed items
  | .node n :: items => n.WellFormed ∧ itemsWellFormed items
termination_by structural items => items

/-- A body that may be missing can be exchanged. -/
def bodyWellFormed : Option (List Item) → Prop
  | none => True
  | some items => itemsWellFormed items
termination_by structural items => items

end

/-- The value of an entry can be exchanged. -/
def Entry.WellFormed : Entry → Prop
  | .mk _ value => value.WellFormed

/-- An arm can be exchanged. -/
def Arm.WellFormed : Arm → Prop
  | .mk condition body => condition.WellFormed ∧ itemsWellFormed body

/-- An item can be exchanged. -/
def Item.WellFormed : Item → Prop
  | .text _ => True
  | .node n => n.WellFormed

/-! ## Lists of parts, element by element -/

/-- The conditions on lists, spelled out for their elements. -/
theorem nodesWellFormed_iff {ns : List Node} : nodesWellFormed ns ↔ ∀ n ∈ ns, n.WellFormed := by
  induction ns with
  | nil => simp [nodesWellFormed]
  | cons n ns ih => simp [nodesWellFormed, ih]

theorem pathWellFormed_iff {path : List Segment} :
    pathWellFormed path ↔ ∀ s ∈ path, s.WellFormed := by
  induction path with
  | nil => simp [pathWellFormed]
  | cons s path ih => simp [pathWellFormed, ih]

theorem entriesWellFormed_iff {entries : List Entry} :
    entriesWellFormed entries ↔ ∀ e ∈ entries, e.WellFormed := by
  induction entries with
  | nil => simp [entriesWellFormed]
  | cons e entries ih =>
    cases e with
    | mk key value => simp [entriesWellFormed, Entry.WellFormed, ih]

theorem armsWellFormed_iff {arms : List Arm} : armsWellFormed arms ↔ ∀ a ∈ arms, a.WellFormed := by
  induction arms with
  | nil => simp [armsWellFormed]
  | cons a arms ih =>
    cases a with
    | mk condition body => simp [armsWellFormed, Arm.WellFormed, ih, and_assoc]

theorem itemsWellFormed_iff {items : List Item} :
    itemsWellFormed items ↔ ∀ i ∈ items, i.WellFormed := by
  induction items with
  | nil => simp [itemsWellFormed]
  | cons i items ih =>
    cases i with
    | text s => simp [itemsWellFormed, Item.WellFormed, ih]
    | node n => simp [itemsWellFormed, Item.WellFormed, ih]

/-! ## The decoder builds well-formed trees -/

/-- Whatever the reader gives satisfies `P`. -/
def Decoded.Yields {α : Type} (x : Decoded α) (P : α → Prop) : Prop :=
  ∀ a, x = .ok a → P a

namespace Decoded

variable {α β : Type}

theorem yields_pure {a : α} {P : α → Prop} (h : P a) : Yields (pure a) P := by
  intro b hb
  cases hb
  exact h

theorem yields_throw {e : DecodeError} {P : α → Prop} : Yields (throw e) P := by
  intro b hb
  cases hb

/-- Readers in a row: what the first one gives may be used for the second. -/
theorem yields_bind {x : Decoded α} {f : α → Decoded β} {P : α → Prop} {Q : β → Prop}
    (hx : x.Yields P) (hf : ∀ a, P a → (f a).Yields Q) : Yields (x >>= f) Q := by
  intro b hb
  cases x with
  | error e => cases hb
  | ok a => exact hf a (hx a rfl) b hb

/-- Nothing is asked of the first result. -/
theorem yields_bind_any {x : Decoded α} {f : α → Decoded β} {Q : β → Prop}
    (hf : ∀ a, (f a).Yields Q) : Yields (x >>= f) Q :=
  yields_bind (P := fun _ => True) (fun _ _ => trivial) fun a _ => hf a

/-- A guard that refuses leaves the case in which it does not hold. -/
theorem yields_guard {c : Bool} {e : DecodeError} {f : PUnit → Decoded β} {Q : β → Prop}
    (hf : c = false → (f ⟨⟩).Yields Q) : Yields (if c = true then throw e >>= f else f ⟨⟩) Q := by
  cases c with
  | true => intro b hb; cases hb
  | false => exact hf rfl

end Decoded

open Decoded in
/-- A decimal that is read has a scale within the limit. -/
theorem Json.yields_asDecimal (v : Json) :
    v.asDecimal.Yields fun d => d.scale ≤ Decimal.maxShift := by
  refine yields_bind_any fun text => ?_
  split
  · next h => exact yields_pure (Decimal.scale_le_of_ofText? h)
  · exact yields_throw

open Decoded

mutual

/-- Every node that is read is well formed. The recursion is that of the decoder, with one case for
each tag; a path without steps and a loop without names are refused there. -/
theorem Node.yields_ofJson : ∀ v : Json, (Node.ofJson v).Yields Node.WellFormed
  | .array (first :: children) => by
    unfold Node.ofJson
    split
    · exact yields_throw
    · split
      -- constants and literals
      · exact yields_pure trivial
      · exact yields_pure trivial
      · exact yields_bind_any fun _ => yields_pure trivial
      · next x _ => exact yields_bind x.yields_asDecimal fun _ hd => yields_pure hd
      · exact yields_bind_any fun _ => yields_pure trivial
      -- operators
      · next x _ => exact yields_bind (Node.yields_ofJson x) fun _ ha => yields_pure ha
      · next x y _ =>
        exact yields_bind (Node.yields_ofJson x) fun _ ha =>
          yields_bind (Node.yields_ofJson y) fun _ hb => yields_pure ⟨ha, hb⟩
      · next x y _ =>
        exact yields_bind (Node.yields_ofJson x) fun _ ha =>
          yields_bind (Node.yields_ofJson y) fun _ hb => yields_pure ⟨ha, hb, trivial⟩
      · next x y z _ =>
        exact yields_bind (Node.yields_ofJson x) fun _ ha =>
          yields_bind (Node.yields_ofJson y) fun _ hb =>
            yields_bind (Node.yields_ofJson z) fun _ hc => yields_pure ⟨ha, hb, hc⟩
      -- paths and calls
      · exact yields_throw
      · -- the empty path has been refused, and a path has as many steps as values
        next xs hne _ =>
        exact yields_bind (yields_segmentsOfJson xs) fun _ hp => yields_pure ⟨hp.2 hne, hp.1⟩
      · exact yields_throw
      · next args _ =>
        exact yields_bind (yields_argsOfJson args) fun _ hs => yields_pure ⟨trivial, trivial, hs⟩
      · next f args _ _ =>
        exact yields_bind (yields_argsOfJson args) fun _ hs =>
          yields_bind_any fun _ =>
            yields_bind (Node.yields_ofJson f) fun _ hf => yields_pure ⟨trivial, hf, hs⟩
      · next target f args _ _ =>
        exact yields_bind (Node.yields_ofJson target) fun _ ht =>
          yields_bind (yields_argsOfJson args) fun _ hs => yields_pure ⟨ht, trivial, hs⟩
      · next target f args _ _ _ _ =>
        exact yields_bind (Node.yields_ofJson target) fun _ ht =>
          yields_bind (yields_argsOfJson args) fun _ hs =>
            yields_bind_any fun _ =>
              yields_bind (Node.yields_ofJson f) fun _ hf => yields_pure ⟨ht, hf, hs⟩
      -- maps, bodies and blocks
      · next xs _ => exact yields_bind (yields_entriesOfJson xs) fun _ hs => yields_pure hs
      · exact yields_throw
      · next x _ => exact yields_bind (yields_bodyOfJson _ x) fun _ hs => yields_pure hs
      · exact yields_bind_any fun _ => yields_pure trivial
      · next xs _ => exact yields_bind (yields_armsOfJson xs) fun _ hs => yields_pure hs
      · exact yields_throw
      · next y _ =>
        exact yields_bind_any fun _ =>
          yields_bind (Node.yields_ofJson y) fun _ hv => yields_pure hv
      · next y bodies _ =>
        refine yields_bind_any fun names => yields_guard fun hg => ?_
        -- the guard in front of the bodies refuses all other numbers of names
        have hnames : names.length = 1 ∨ names.length = 2 := by
          simp only [Bool.or_eq_false_iff, List.isEmpty_eq_false_iff_exists_mem,
            decide_eq_false_iff_not] at hg
          obtain ⟨⟨_, hm⟩, hle⟩ := hg
          have hpos := List.length_pos_of_mem hm
          omega
        split
        · next b =>
          exact yields_bind (yields_bodyOfJson _ b) fun _ hb =>
            yields_bind (Node.yields_ofJson y) fun _ hc => yields_pure ⟨hnames, hc, hb, trivial⟩
        · next b e =>
          exact yields_bind (yields_bodyOfJson _ b) fun _ hb =>
            yields_bind (yields_bodyOfJson _ e) fun _ he =>
              yields_bind (Node.yields_ofJson y) fun _ hc => yields_pure ⟨hnames, hc, hb, he⟩
        · exact yields_throw
        · exact yields_throw
      · next z _ =>
        exact yields_bind_any fun _ => yields_bind_any fun _ =>
          yields_bind (yields_bodyOfJson _ z) fun _ hb => yields_pure hb
      · exact yields_throw
  | .array [] => by unfold Node.ofJson; exact yields_throw
  | .null => by unfold Node.ofJson; exact yields_throw
  | .bool _ => by unfold Node.ofJson; exact yields_throw
  | .number _ => by unfold Node.ofJson; exact yields_throw
  | .string _ => by unfold Node.ofJson; exact yields_throw
  | .object _ => by unfold Node.ofJson; exact yields_throw
termination_by v => sizeOf v
decreasing_by
  all_goals (subst_vars; simp; omega)

theorem yields_argsOfJson : ∀ v : Json, (argsOfJson v).Yields nodesWellFormed
  | .array xs => yields_nodesOfJson xs
  | .null | .bool _ | .number _ | .string _ | .object _ => yields_throw
termination_by v => sizeOf v

/-- The nodes in an array, one by one. -/
theorem yields_nodesOfJson : ∀ xs : List Json, (nodesOfJson xs).Yields nodesWellFormed
  | [] => yields_pure trivial
  | x :: xs =>
    yields_bind (Node.yields_ofJson x) fun _ hn =>
      yields_bind (yields_nodesOfJson xs) fun _ hs => yields_pure ⟨hn, hs⟩
termination_by xs => sizeOf xs

/-- A path that is read has as many steps as there are values. -/
theorem yields_segmentsOfJson : ∀ xs : List Json,
    (segmentsOfJson xs).Yields fun path => pathWellFormed path ∧ (xs ≠ [] → path ≠ [])
  | [] => yields_pure ⟨trivial, fun h => absurd rfl h⟩
  | x :: xs => by
    unfold segmentsOfJson
    split
    · contradiction
    · next h =>
      cases h
      exact yields_bind (yields_segmentsOfJson xs) fun _ hs =>
        yields_pure ⟨⟨trivial, hs.1⟩, fun _ => List.cons_ne_nil _ _⟩
    · next h =>
      cases h
      exact yields_bind_any fun _ =>
        yields_bind (Node.yields_ofJson x) fun _ hn =>
          yields_bind (yields_segmentsOfJson xs) fun _ hs =>
            yields_pure ⟨⟨hn, hs.1⟩, fun _ => List.cons_ne_nil _ _⟩
termination_by xs => sizeOf xs

/-- The entries of a map: a key says nothing about the value. -/
theorem yields_entriesOfJson : ∀ xs : List Json, (entriesOfJson xs).Yields entriesWellFormed
  | [] => yields_pure trivial
  | x :: xs => by
    unfold entriesOfJson
    split
    · contradiction
    · next h =>
      cases h
      exact yields_bind_any fun _ =>
        yields_bind (Node.yields_ofJson _) fun _ hv =>
          yields_bind (yields_entriesOfJson xs) fun _ hs => yields_pure ⟨hv, hs⟩
    · exact yields_throw
    · exact yields_throw
termination_by xs => sizeOf xs

/-- The arms of a condition, with their conditions and bodies. -/
theorem yields_armsOfJson : ∀ xs : List Json, (armsOfJson xs).Yields armsWellFormed
  | [] => yields_pure trivial
  | x :: xs => by
    unfold armsOfJson
    split
    · contradiction
    · next h =>
      cases h
      exact yields_bind (Node.yields_ofJson _) fun _ hc =>
        yields_bind (yields_bodyOfJson _ _) fun _ hb =>
          yields_bind (yields_armsOfJson xs) fun _ hs => yields_pure ⟨hc, hb, hs⟩
    · exact yields_throw
    · exact yields_throw
termination_by xs => sizeOf xs

theorem yields_bodyOfJson (position : String) :
    ∀ v : Json, (bodyOfJson position v).Yields itemsWellFormed
  | .array xs => yields_itemsOfJson xs
  | .null | .bool _ | .number _ | .string _ | .object _ => yields_throw
termination_by v => sizeOf v

/-- Items are texts, which are always well formed, and nodes. -/
theorem yields_itemsOfJson : ∀ xs : List Json, (itemsOfJson xs).Yields itemsWellFormed
  | [] => yields_pure trivial
  | x :: xs => by
    unfold itemsOfJson
    split
    · contradiction
    · next h =>
      cases h
      exact yields_bind (yields_itemsOfJson xs) fun _ hs => yields_pure hs
    · next h =>
      cases h
      exact yields_bind (Node.yields_ofJson x) fun _ hn =>
        yields_bind (yields_itemsOfJson xs) fun _ hs => yields_pure ⟨hn, hs⟩
termination_by xs => sizeOf xs

end

/-- **What is read can be exchanged.** -/
theorem Node.wellFormed_ofJson {v : Json} {n : Node} (h : Node.ofJson v = .ok n) : n.WellFormed :=
  Node.yields_ofJson v n h

/-- The items of a template that is read are well formed, in an envelope or without one. -/
theorem Template.wellFormed_ofJson {v : Json} {t : Template} (h : Template.ofJson v = .ok t) :
    itemsWellFormed t.items := by
  unfold Template.ofJson at h
  split at h
  cases hb : bodyOfJson "a template body" _ with
  | error e => rw [hb] at h; cases h
  | ok items =>
    rw [hb] at h
    cases h
    exact yields_bodyOfJson _ _ _ hb

end Stencil
