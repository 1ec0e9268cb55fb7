import Stencil.Output.Fingerprint
import Stencil.Proofs.RoundTrip

/-!
# Fingerprints ignore the order of siblings

A fingerprint is made of sums over the elements of arrays, and in a sum the order of the terms does
not count. So a value may be rearranged at every depth at once. Only at the root the order matters:
an envelope is known by its first element, and is left aside.

> `Json.Rearranged`: some arrays of a value, at any depth, have their elements in another order.
> `Json.sameSums_of_rearranged`: the sums over a value and over a rearranged one.
> `Fingerprint.ignores_order`: fingerprints of templates, of bare values and of envelopes.
-/

namespace Stencil

namespace Json

/-- A value and the same value with the elements of some of its arrays in another order. Arrays may
stand at any depth, in arrays and in objects; the members of objects stay in their order. -/
inductive Rearranged : Json → Json → Prop
  | refl (v : Json) : Rearranged v v
  | trans {u v w : Json} : Rearranged u v → Rearranged v w → Rearranged u w
  | elements {xs ys : List Json} : xs.Perm ys → Rearranged (.array xs) (.array ys)
  | element {v w : Json} (front back : List Json) : Rearranged v w →
      Rearranged (.array (front ++ v :: back)) (.array (front ++ w :: back))
  | member {v w : Json} (name : String) (front back : List (String × Json)) : Rearranged v w →
      Rearranged (.object (front ++ (name, v) :: back)) (.object (front ++ (name, w) :: back))

/-- The shape of an envelope: two elements, the first of them an array that starts with the mark. -/
def IsEnvelope (v : Json) : Prop :=
  ∃ header root, v = .array [.array (.string Template.mark :: header), root]

/-! ## Sums over siblings -/

/-- The order of the elements does not count. -/
theorem elementSums_of_perm {xs ys : List Json} (h : xs.Perm ys) :
    elementHashSum xs = elementHashSum ys ∧ elementCount xs = elementCount ys := by
  induction h with
  | nil => exact ⟨rfl, rfl⟩
  | cons x _ ih =>
    simp only [elementHashSum, elementCount]
    rw [ih.1, ih.2]
    exact ⟨rfl, rfl⟩
  | swap x y xs =>
    simp only [elementHashSum, elementCount]
    constructor
    · rw [← Int32.add_assoc, Int32.add_comm y.hashSum, Int32.add_assoc]
    · exact Nat.add_left_comm ..
  | trans _ _ ih ih' => exact ⟨ih.1.trans ih'.1, ih.2.trans ih'.2⟩

/-- The sums over members are those over their values. -/
theorem memberSums_eq (ms : List (String × Json)) :
    memberHashSum ms = elementHashSum (ms.map Prod.snd) ∧
      memberCount ms = elementCount (ms.map Prod.snd) := by
  induction ms with
  | nil => exact ⟨rfl, rfl⟩
  | cons m ms ih =>
    simp only [memberHashSum, memberCount, List.map_cons, elementHashSum, elementCount]
    rw [ih.1, ih.2]
    exact ⟨rfl, rfl⟩

/-! ## Sums over values -/

/-- Both sums over two values are the same. -/
def SameSums (v w : Json) : Prop :=
  v.hashSum = w.hashSum ∧ v.count = w.count

/-- One element may be replaced by one with the same sums, wherever it stands. -/
theorem SameSums.element {v w : Json} (h : SameSums v w) (front back : List Json) :
    elementHashSum (front ++ v :: back) = elementHashSum (front ++ w :: back) ∧
      elementCount (front ++ v :: back) = elementCount (front ++ w :: back) := by
  obtain ⟨hhash, hcount⟩ := elementSums_of_perm (@List.perm_middle _ v front back)
  obtain ⟨hhash', hcount'⟩ := elementSums_of_perm (@List.perm_middle _ w front back)
  rw [hhash, hcount, hhash', hcount', elementHashSum, elementHashSum, elementCount, elementCount,
    h.1, h.2]
  exact ⟨rfl, rfl⟩

/-- **Rearranging a value changes no sum.** The induction is on the single steps: each reorders the
elements of one array, or goes on inside one element or member. -/
theorem sameSums_of_rearranged {v w : Json} (h : Rearranged v w) : SameSums v w := by
  induction h with
  | refl v => exact ⟨rfl, rfl⟩
  | trans _ _ ih ih' => exact ⟨ih.1.trans ih'.1, ih.2.trans ih'.2⟩
  | elements hperm =>
    obtain ⟨hhash, hcount⟩ := elementSums_of_perm hperm
    exact ⟨hhash, congrArg (1 + ·) hcount⟩
  | element front back _ ih =>
    obtain ⟨hhash, hcount⟩ := ih.element front back
    exact ⟨hhash, congrArg (1 + ·) hcount⟩
  | @member v w name front back _ ih =>
    obtain ⟨hhash, hcount⟩ := ih.element (front.map Prod.snd) (back.map Prod.snd)
    simp only [SameSums, hashSum, count, memberSums_eq, List.map_append, List.map_cons]
    exact ⟨hhash, congrArg (1 + ·) hcount⟩

/-! ## Envelopes -/

/-- What has not the shape of an envelope is taken as it stands. -/
theorem openEnvelope_of_not_isEnvelope {v : Json} (h : ¬v.IsEnvelope) :
    Template.openEnvelope v = (none, v) := by
  unfold Template.openEnvelope
  split
  · next s header root =>
    by_cases hs : s = Template.mark
    · exact absurd ⟨header, root, by rw [hs]⟩ h
    · exact if_neg hs
  · rfl

end Json

namespace Fingerprint

/-- The fingerprint of a bare value. -/
theorem ofJson_of_bare {v : Json} (h : ¬v.IsEnvelope) : ofJson v = ⟨v.hashSum, v.count⟩ := by
  rw [ofJson, Json.openEnvelope_of_not_isEnvelope h]

/-- The items of a template are a bare value, whatever their order is. -/
theorem ofItems_eq (items : List Item) :
    ofItems items =
      ⟨Json.elementHashSum (itemsToJson items), 1 + Json.elementCount (itemsToJson items)⟩ := by
  rw [ofItems, ofJson, Template.openEnvelope_itemsToJson]
  rfl

end Fingerprint

/-- Items are written one by one. -/
theorem itemsToJson_perm {xs ys : List Item} (h : xs.Perm ys) :
    (itemsToJson xs).Perm (itemsToJson ys) := by
  induction h with
  | nil => exact .nil
  | cons x _ ih => cases x <;> exact ih.cons _
  | swap x y xs => cases x <;> cases y <;> exact .swap ..
  | trans _ _ ih ih' => exact ih.trans ih'

namespace Fingerprint

/-- **Fingerprints ignore the order of siblings.** Items of a template may change places. So may the
elements of the arrays of a value, at any depth, as long as neither the value nor what it becomes is
an envelope. An envelope around a bare value adds nothing, whatever it carries along. -/
theorem ignores_order :
    (∀ xs ys : List Item, xs.Perm ys → ofItems xs = ofItems ys) ∧
    (∀ v w : Json, v.Rearranged w → ¬v.IsEnvelope → ¬w.IsEnvelope → ofJson v = ofJson w) ∧
    ∀ v carried : Json, ¬v.IsEnvelope →
      ofJson (.array [.array [.string Template.mark, carried], v]) = ofJson v := by
  refine ⟨fun xs ys hperm => ?_, fun v w hvw hv hw => ?_, fun v carried hv => ?_⟩
  · obtain ⟨hhash, hcount⟩ := Json.elementSums_of_perm (itemsToJson_perm hperm)
    rw [ofItems_eq, ofItems_eq, hhash, hcount]
  · obtain ⟨hhash, hcount⟩ := Json.sameSums_of_rearranged hvw
    rw [ofJson_of_bare hv, ofJson_of_bare hw, hhash, hcount]
  · rw [ofJson_of_bare hv]
    rfl

/-- A value with an array and an object, each with arrays inside. -/
def shelf : Json :=
  .array [.array [.null, .array [.number "9", .string "a"]],
    .object [("k", .array [.bool true, .string "HISTONE"])]]

/-- The same value with the elements of all its arrays in reverse order. -/
def shelfReversed : Json :=
  .array [.object [("k", .array [.string "HISTONE", .bool true])],
    .array [.array [.string "a", .number "9"], .null]]

theorem shelf_rearranged : shelf.Rearranged shelfReversed := by
  have hinner : Json.Rearranged (.array [.null, .array [.number "9", .string "a"]])
      (.array [.array [.string "a", .number "9"], .null]) :=
    .trans (.element [.null] [] (.elements (.swap ..))) (.elements (.swap ..))
  have hmember : Json.Rearranged (.object [("k", .array [.bool true, .string "HISTONE"])])
      (.object [("k", .array [.string "HISTONE", .bool true])]) :=
    .member "k" [] [] (.elements (.swap ..))
  exact .trans (.element [] _ hinner) (.trans (.element [_] [] hmember) (.elements (.swap ..)))

/-- Two items, a value with arrays at three depths, and an envelope around it. -/
theorem ignores_order_shelf :
    [Item.text "a", .node .null].Perm [.node .null, .text "a"] ∧
      ofItems [.text "a", .node .null] = ofItems [.node .null, .text "a"] ∧
      shelf.Rearranged shelfReversed ∧ ¬shelf.IsEnvelope ∧ ¬shelfReversed.IsEnvelope ∧
      ofJson shelf = ofJson shelfReversed ∧
      ofJson (.array [.array [.string Template.mark, .null], shelf]) = ofJson shelf := by
  have hbare : ¬shelf.IsEnvelope ∧ ¬shelfReversed.IsEnvelope := by
    constructor
    · rintro ⟨header, root, h⟩
      cases h
    · rintro ⟨header, root, h⟩
      cases h
  have hperm : [Item.text "a", .node .null].Perm [.node .null, .text "a"] := .swap ..
  obtain ⟨hitems, hvalues, henvelope⟩ := ignores_order
  exact ⟨hperm, hitems _ _ hperm, shelf_rearranged, hbare.1, hbare.2,
    hvalues _ _ shelf_rearranged hbare.1 hbare.2, henvelope _ .null hbare.1⟩

end Fingerprint

end Stencil
