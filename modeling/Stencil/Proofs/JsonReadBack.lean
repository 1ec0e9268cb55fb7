import Stencil.Json.Printer
import Stencil.Proofs.JsonCanonical

/-!
# JSON texts read back

Both layouts of a JSON text differ in blanks only, so the reader takes them alike. A value in
canonical form is read back from its text as long as it does not nest too deep. Behind a value there
stands nothing in a text that goes on with a number, and a gap in front of one is skipped; so the
parts of a text can be read one by one, whatever the layout puts between them.

A value that nests too deep is refused: what is read nests within the limit, and with more depth
nothing else would be read than the value itself.

> `Json.stringBody?_escaped`: strings read back.
> `Json.list?_separated`: lists read back if their items do.
> `Json.readsBack_chars`: values read back in either layout.
> `Json.read?_chars`: whole texts are read back, or refused for their depth.
-/

namespace Stencil.Json

/-! ## Nesting -/

mutual

/-- How deep arrays and objects nest. -/
def nesting : Json → Nat
  | null | bool _ | number _ | string _ => 0
  | array elements => elementsNesting elements + 1
  | object members => membersNesting members + 1
termination_by structural v => v

/-- How deep the deepest of some elements nests. -/
def elementsNesting : List Json → Nat
  | [] => 0
  | x :: xs => max x.nesting (elementsNesting xs)
termination_by structural xs => xs

/-- How deep the value of the deepest of some members nests. -/
def membersNesting : List (String × Json) → Nat
  | [] => 0
  | (_, x) :: ms => max x.nesting (membersNesting ms)
termination_by structural ms => ms

end

/-- An element nests no deeper than the deepest one. -/
theorem nesting_le_of_mem : ∀ {elements : List Json}, ∀ x ∈ elements,
    x.nesting ≤ elementsNesting elements := by
  intro elements
  induction elements with
  | nil => exact List.forall_mem_nil _
  | cons x xs ih =>
    rw [elementsNesting]
    exact List.forall_mem_cons.mpr ⟨Nat.le_max_left _ _,
      fun y hy => Nat.le_trans (ih y hy) (Nat.le_max_right _ _)⟩

/-- Nor does the value of a member. -/
theorem nesting_le_of_mem_members : ∀ {members : List (String × Json)}, ∀ m ∈ members,
    m.2.nesting ≤ membersNesting members := by
  intro members
  induction members with
  | nil => exact List.forall_mem_nil _
  | cons m ms ih =>
    obtain ⟨name, x⟩ := m
    rw [membersNesting]
    exact List.forall_mem_cons.mpr ⟨Nat.le_max_left _ _,
      fun y hy => Nat.le_trans (ih y hy) (Nat.le_max_right _ _)⟩

/-! ## Strings -/

/-- The four digits of an escaped control character read back as its code point. -/
theorem control_digits : ∀ n < 32,
    Text.naturalIn? 16 ['0', '0', if n < 16 then '0' else '1', Nat.digitChar (n % 16)] =
      some n := by
  decide

/-- A control is read from its code. -/
theorem stringBody?_control {c : Char} (hc : c.toNat < 32) (more : List Char) :
    stringBody? (['\\', 'u', '0', '0', if c.toNat < 16 then '0' else '1',
      Nat.digitChar (c.toNat % 16)] ++ more) = Text.withChar (some c) (stringBody? more) := by
  have hunit : unitChar? c.toNat = some c := by
    rw [unitChar?, if_pos (by simp; omega), Char.ofNat_toNat]
  show stringBody? ('\\' :: 'u' :: '0' :: '0' :: _ :: _ :: more) = _
  rw [stringBody?, control_digits _ hc]
  dsimp only
  rw [hunit]

/-- A character that needs no escape stands for itself. -/
theorem stringBody?_plain {c : Char} (hquote : c ≠ '"') (hescape : c ≠ '\\') (hc : ¬ c.toNat < 32)
    (more : List Char) : stringBody? (c :: more) = Text.withChar (some c) (stringBody? more) := by
  rw [stringBody?.eq_def]
  split
  · contradiction
  · next heq => cases heq; exact absurd rfl hquote
  · next heq => cases heq; exact absurd rfl hescape
  · next heq => cases heq; exact absurd rfl hescape
  · next heq =>
    cases heq
    rw [if_neg (by simp [hc, hescape])]

/-- **One character reads back.** -/
theorem stringBody?_escapedChar (c : Char) (more : List Char) :
    stringBody? (escapedChar c ++ more) = Text.withChar (some c) (stringBody? more) := by
  unfold escapedChar
  split
  · next h => subst h; rfl
  split
  · next h => subst h; rfl
  split
  · next h => subst h; rfl
  split
  · next h => subst h; rfl
  split
  · next h => subst h; rfl
  split
  · next h => subst h; rfl
  split
  · next h => subst h; rfl
  split
  · next h => exact stringBody?_control h more
  · next hquote hescape _ _ _ _ _ hc => exact stringBody?_plain hquote hescape hc more

/-- **Strings read back.** -/
theorem stringBody?_escaped (s rest : List Char) :
    stringBody? (s.flatMap escapedChar ++ '"' :: rest) = some (s, rest) := by
  induction s with
  | nil => rfl
  | cons c s ih =>
    rw [List.flatMap_cons, List.append_assoc, stringBody?_escapedChar, ih]
    rfl

/-! ## Gaps -/

/-- A gap in front of another text is skipped. -/
theorem skipGap_append {gap : List Char} (h : ∀ c ∈ gap, isGap c = true) (cs : List Char) :
    skipGap (gap ++ cs) = skipGap cs :=
  List.dropWhile_append_of_pos h

theorem skipGap_cons {c : Char} (h : isGap c = false) (cs : List Char) :
    skipGap (c :: cs) = c :: cs :=
  List.dropWhile_cons_of_neg (by simp [h])

/-- What may stand behind a value in a text: nothing, a gap, a comma or a closing bracket. -/
def Ends (rest : List Char) : Prop :=
  ∀ c ∈ rest.head?, isGap c = true ∨ c = ',' ∨ c = ']' ∨ c = '}'

theorem ends_nil : Ends [] := by
  intro c hc
  cases hc

theorem ends_comma (rest : List Char) : Ends (',' :: rest) := by
  intro c hc
  cases hc
  exact .inr (.inl rfl)

/-- A bracket may close behind a gap. -/
theorem ends_close {gap : List Char} (hgap : ∀ c ∈ gap, isGap c = true) {close : Char}
    (hclose : close = ']' ∨ close = '}') (rest : List Char) : Ends (gap ++ close :: rest) := by
  intro c hc
  cases gap with
  | nil =>
    cases hc
    exact .inr (.inr hclose)
  | cons d gap =>
    cases hc
    exact .inl (hgap _ List.mem_cons_self)

/-- None of this goes on with a number. -/
theorem Ends.apart {rest : List Char} (h : Ends rest) : Number.Apart rest := by
  intro c hc
  have hgap : isGap c = true → c = ' ' ∨ c = '\n' ∨ c = '\t' ∨ c = '\r' := by
    intro hgap
    simpa [isGap, or_assoc] using hgap
  rcases h c hc with h | rfl | rfl | rfl
  · rcases hgap h with rfl | rfl | rfl | rfl <;> decide
  · decide
  · decide
  · decide

/-! ## Lists -/

/-- The text is read as the item, whatever may stand behind it. -/
def ReadsBack {α : Type} (item? : List Char → Option (α × List Char)) (text : List Char)
    (x : α) : Prop :=
  ∀ rest, Ends rest → item? (text ++ rest) = some (x, rest)

/-- The reader takes no notice of a gap in front of an item. -/
def SkipsGaps {α : Type} (item? : List Char → Option (α × List Char)) : Prop :=
  ∀ gap cs, (∀ c ∈ gap, isGap c = true) → item? (gap ++ cs) = item? cs

/-- The parts of a layout that stand between the items are gaps, but for the colon itself. -/
structure Layout.Lawful (layout : Layout) : Prop where
  lineBreak : ∀ depth, ∀ c ∈ layout.lineBreak depth, isGap c = true
  colon : ∃ gap, layout.colon = ':' :: gap ∧ ∀ c ∈ gap, isGap c = true

theorem Layout.lawful_compact : Layout.compact.Lawful where
  lineBreak _ := List.forall_mem_nil _
  colon := ⟨[], rfl, List.forall_mem_nil _⟩

theorem Layout.lawful_indented : Layout.indented.Lawful where
  lineBreak depth := by
    refine List.forall_mem_cons.mpr ⟨rfl, fun c hc => ?_⟩
    rw [List.eq_of_mem_replicate hc]
    rfl
  colon := ⟨[' '], rfl, List.forall_mem_singleton.mpr rfl⟩

/-- Items behind the first one. -/
def separated {α : Type} (layout : Layout) (depth : Nat) (text : α → List Char)
    (items : List α) : List Char :=
  items.flatMap fun x => ',' :: (layout.lineBreak depth ++ text x)

section

variable {α : Type} {item? : List Char → Option (α × List Char)} {layout : Layout} (depth : Nat)
  {text : α → List Char} {items : List α} {gap : List Char} {close : Char}

theorem separated_cons (x : α) (items : List α) :
    separated layout depth text (x :: items) =
      ',' :: (layout.lineBreak depth ++ (text x ++ separated layout depth text items)) := by
  rw [separated, List.flatMap_cons, List.cons_append, List.append_assoc]
  rfl

/-- Every item has at least its comma, so the text bounds the number of items. -/
theorem length_le_separated (items : List α) :
    items.length ≤ (separated layout depth text items).length := by
  induction items with
  | nil => exact Nat.zero_le _
  | cons x items ih =>
    simp only [separated_cons, List.length_cons, List.length_append]
    omega

/-- An item of a list is followed by a comma or by the end of the list. -/
theorem ends_separated (hclose : close = ']' ∨ close = '}') (hgap : ∀ c ∈ gap, isGap c = true)
    (items : List α) (rest : List Char) :
    Ends (separated layout depth text items ++ (gap ++ close :: rest)) := by
  cases items with
  | nil => exact ends_close hgap hclose rest
  | cons x items => exact ends_comma _

theorem isGap_close (hclose : close = ']' ∨ close = '}') : isGap close = false := by
  rcases hclose with rfl | rfl <;> rfl

/-- The rest of a list reads back if each of its items does. -/
theorem listTail?_separated (hlayout : layout.Lawful) (hskips : SkipsGaps item?)
    (hclose : close = ']' ∨ close = '}') (hgap : ∀ c ∈ gap, isGap c = true)
    (hitems : ∀ x ∈ items, ReadsBack item? (text x) x) (rest : List Char) :
    ∀ {fuel : Nat}, items.length < fuel →
      listTail? item? close fuel
        (separated layout depth text items ++ (gap ++ close :: rest)) = some (items, rest) := by
  induction items with
  | nil =>
    intro fuel hfuel
    obtain ⟨fuel, rfl⟩ := Nat.exists_eq_succ_of_ne_zero (Nat.ne_of_gt hfuel)
    show listTail? item? close (fuel + 1) (gap ++ close :: rest) = some ([], rest)
    rw [listTail?, skipGap_append hgap, skipGap_cons (isGap_close hclose)]
    exact if_pos rfl
  | cons x items ih =>
    intro fuel hfuel
    obtain ⟨fuel, rfl⟩ := Nat.exists_eq_succ_of_ne_zero (Nat.ne_of_gt (Nat.zero_lt_of_lt hfuel))
    obtain ⟨hx, hitems⟩ := List.forall_mem_cons.mp hitems
    have hcomma : ',' ≠ close := by
      rcases hclose with rfl | rfl <;> decide
    have hends : Ends (separated layout depth text items ++ (gap ++ close :: rest)) :=
      ends_separated depth hclose hgap items rest
    have hread := hx _ hends
    have hlater := ih hitems (Nat.lt_of_succ_lt_succ hfuel)
    simp only [separated_cons, List.cons_append, List.append_assoc]
    rw [listTail?, skipGap_cons (by decide)]
    dsimp only
    rw [if_neg hcomma, if_pos rfl, hskips _ _ (hlayout.lineBreak depth), hread,
      Option.bind_eq_bind, Option.bind_some]
    dsimp only
    rw [hlater]
    rfl

/-- **A list reads back** if each of its items does and the first is not taken for the end. -/
theorem list?_separated (hlayout : layout.Lawful) (hskips : SkipsGaps item?)
    (hclose : close = ']' ∨ close = '}') {x : α}
    (hstart : ∃ c cs, text x = c :: cs ∧ isGap c = false ∧ c ≠ close)
    (hitems : ∀ y ∈ x :: items, ReadsBack item? (text y) y) {front : List Char}
    (hfront : ∀ c ∈ front, isGap c = true) (hgap : ∀ c ∈ gap, isGap c = true)
    (rest : List Char) :
    list? item? close (front ++ (text x ++
        (separated layout depth text items ++ (gap ++ close :: rest)))) =
      some (x :: items, rest) := by
  obtain ⟨c, cs, htext, hc, hne⟩ := hstart
  obtain ⟨hx, hitems⟩ := List.forall_mem_cons.mp hitems
  have hends : Ends (separated layout depth text items ++ (gap ++ close :: rest)) :=
    ends_separated depth hclose hgap items rest
  have hread := hx _ hends
  have hfuel : items.length <
      (separated layout depth text items ++ (gap ++ close :: rest)).length + 1 := by
    have hle : items.length ≤ (separated layout depth text items).length :=
      length_le_separated depth items
    rw [List.length_append]
    omega
  have hlater := listTail?_separated depth hlayout hskips hclose hgap hitems rest hfuel
  rw [htext, List.cons_append] at hread ⊢
  rw [list?, skipGap_append hfront, skipGap_cons hc]
  dsimp only
  rw [if_neg hne, hread, Option.bind_eq_bind, Option.bind_some]
  dsimp only
  rw [hlater]
  rfl

end

/-! ## Values -/

/-- Values are read behind any gap. -/
theorem skipsGaps_value? (depth : Nat) : SkipsGaps (value? depth) := by
  intro gap cs hgap
  unfold value?
  rw [skipGap_append hgap]

/-- So are members, whose names stand first. -/
theorem skipsGaps_member? (read? : List Char → Option (Json × List Char)) :
    SkipsGaps (member? read?) := by
  intro gap cs hgap
  rw [member?, member?, skipGap_append hgap]

theorem isGap_number {c : Char} (hc : c.isDigit = true ∨ c = '-') : isGap c = false := by
  simp only [isGap, Bool.or_eq_false_iff, beq_eq_false_iff_ne]
  refine ⟨⟨⟨?_, ?_⟩, ?_⟩, ?_⟩ <;> (rintro rfl; exact absurd hc (by decide))

/-- A value that starts with a digit or a minus sign is a number. -/
theorem value?_number (depth : Nat) {c : Char} (hc : c.isDigit = true ∨ c = '-') (cs : List Char) :
    value? depth (c :: cs) =
      (Number.scan? (c :: cs)).map fun (text, rest) => (.number (String.ofList text), rest) := by
  unfold value?
  rw [skipGap_cons (isGap_number hc)]
  split
  case h_7 => rfl
  all_goals
    next heq =>
    cases heq
    exact absurd hc (by decide)

theorem value?_string (depth : Nat) (cs : List Char) :
    value? depth ('"' :: cs) =
      (stringBody? cs).map fun (s, rest) => (.string (String.ofList s), rest) := by
  unfold value?
  rfl

theorem value?_array (depth : Nat) (cs : List Char) :
    value? (depth + 1) ('[' :: cs) =
      (list? (value? depth) ']' cs).map fun (xs, rest) => (.array xs, rest) := by
  unfold value?
  rfl

theorem value?_object (depth : Nat) (cs : List Char) :
    value? (depth + 1) ('{' :: cs) =
      (list? (member? (value? depth)) '}' cs).map fun (ms, rest) => (.ofMembers ms, rest) := by
  unfold value?
  rfl

/-! ### The texts of arrays and objects -/

/-- The text of a member inside brackets of the given depth. -/
def memberText (layout : Layout) (depth : Nat) (m : String × Json) : List Char :=
  stringChars m.1 ++ (layout.colon ++ m.2.chars layout depth)

/-- Elements are written as items with a comma in front of each. -/
theorem elementChars_eq (layout : Layout) (depth : Nat) (xs : List Json) :
    elementChars layout depth xs = separated layout depth (chars layout depth) xs := by
  induction xs with
  | nil => rfl
  | cons x xs ih =>
    rw [elementChars, ih, separated_cons]
    simp only [List.cons_append, List.append_assoc]

/-- So are members, with the colon of the layout between name and value. -/
theorem memberChars_eq (layout : Layout) (depth : Nat) (ms : List (String × Json)) :
    memberChars layout depth ms = separated layout depth (memberText layout depth) ms := by
  induction ms with
  | nil => rfl
  | cons m ms ih =>
    obtain ⟨name, x⟩ := m
    rw [memberChars, ih, separated_cons, memberText]
    simp only [List.cons_append, List.append_assoc]

/-- The text of an array that is not empty: the first element stands without a comma. -/
theorem chars_array (layout : Layout) (depth : Nat) (x : Json) (xs : List Json) :
    (array (x :: xs)).chars layout depth =
      '[' :: (layout.lineBreak (depth + 1) ++ (x.chars layout (depth + 1) ++
        (separated layout (depth + 1) (chars layout (depth + 1)) xs ++
          (layout.lineBreak depth ++ [']'])))) := by
  rw [chars, elementChars_eq]
  simp only [List.cons_append, List.append_assoc]

/-- The text of an object that is not empty: the first member stands without a comma. -/
theorem chars_object (layout : Layout) (depth : Nat) (m : String × Json)
    (ms : List (String × Json)) :
    (object (m :: ms)).chars layout depth =
      '{' :: (layout.lineBreak (depth + 1) ++ (memberText layout (depth + 1) m ++
        (separated layout (depth + 1) (memberText layout (depth + 1)) ms ++
          (layout.lineBreak depth ++ ['}'])))) := by
  obtain ⟨name, x⟩ := m
  rw [chars, memberChars_eq, memberText]
  simp only [List.cons_append, List.append_assoc]

/-- A number starts with a digit or a minus sign. -/
theorem Number.Uniform.exists_cons {cs : List Char} (h : Number.Uniform cs) :
    ∃ c rest, cs = c :: rest ∧ (c.isDigit = true ∨ c = '-') := by
  cases h with
  | positive h =>
    obtain ⟨c, rest, rfl, hc⟩ := h.exists_cons
    exact ⟨c, rest, rfl, .inl hc⟩
  | negative h => exact ⟨'-', _, rfl, .inr rfl⟩

/-- The first character of a value is neither a gap nor taken for the end of an array. -/
theorem Canonical.exists_cons {v : Json} (h : v.Canonical) (layout : Layout) (depth : Nat) :
    ∃ c cs, v.chars layout depth = c :: cs ∧ isGap c = false ∧ c ≠ ']' := by
  cases h with
  | null => exact ⟨_, _, rfl, by decide⟩
  | bool b => cases b <;> exact ⟨_, _, rfl, by decide⟩
  | @number text h =>
    obtain ⟨c, cs, htext, hc⟩ := h.exists_cons
    refine ⟨c, cs, htext, isGap_number hc, ?_⟩
    rintro rfl
    exact absurd hc (by decide)
  | string s => exact ⟨_, _, rfl, by decide⟩
  | @array elements _ =>
    cases elements with
    | nil => exact ⟨_, _, rfl, by decide⟩
    | cons x xs => exact ⟨_, _, chars_array layout depth x xs, by decide⟩
  | @object members _ _ =>
    cases members with
    | nil => exact ⟨_, _, rfl, by decide⟩
    | cons m ms => exact ⟨_, _, chars_object layout depth m ms, by decide⟩

/-! ### Reading them back -/

section

variable {layout : Layout} (hlayout : layout.Lawful)

include hlayout

/-- A member reads back if its value does. -/
theorem readsBack_member {read? : List Char → Option (Json × List Char)} (hskips : SkipsGaps read?)
    {depth : Nat} {m : String × Json} (h : ReadsBack read? (m.2.chars layout depth) m.2) :
    ReadsBack (member? read?) (memberText layout depth m) m := by
  intro rest hrest
  obtain ⟨name, x⟩ := m
  obtain ⟨gap, hcolon, hgap⟩ := hlayout.colon
  have hvalue := h rest hrest
  have hname := stringBody?_escaped name.toList (':' :: (gap ++ (x.chars layout depth ++ rest)))
  have hmember : member? read? ('"' :: (name.toList.flatMap escapedChar ++
      '"' :: ':' :: (gap ++ (x.chars layout depth ++ rest)))) =
      (read? (gap ++ (x.chars layout depth ++ rest))).bind fun p =>
        some ((String.ofList name.toList, p.1), p.2) := by
    unfold member?
    show (stringBody? _).bind _ = _
    rw [hname]
    rfl
  rw [memberText, stringChars, hcolon]
  simp only [List.cons_append, List.append_assoc, List.nil_append]
  rw [hmember, hskips _ _ hgap, hvalue, Option.bind_some, String.ofList_toList]

/-- **Values read back** in either layout, if they do not nest too deep. -/
theorem readsBack_chars {v : Json} (h : v.Canonical) : ∀ (limit depth : Nat), v.nesting ≤ limit →
    ReadsBack (value? limit) (v.chars layout depth) v := by
  induction h with
  | null =>
    intro limit depth _ rest _
    unfold value?
    rfl
  | bool b =>
    intro limit depth _ rest _
    unfold value?
    cases b <;> rfl
  | @number text h =>
    intro limit depth _ rest hrest
    obtain ⟨c, cs, htext, hc⟩ := h.exists_cons
    have hscan := h.scan?_append hrest.apart
    show value? limit (text.toList ++ rest) = _
    rw [htext, List.cons_append] at hscan ⊢
    rw [value?_number limit hc, hscan, ← htext, Option.map_some]
    dsimp only
    rw [String.ofList_toList]
  | string s =>
    intro limit depth _ rest _
    show value? limit ('"' :: (s.toList.flatMap escapedChar ++ ['"'] ++ rest)) = _
    rw [value?_string, List.append_assoc]
    show (stringBody? (s.toList.flatMap escapedChar ++ '"' :: rest)).map _ = _
    rw [stringBody?_escaped, Option.map_some]
    dsimp only
    rw [String.ofList_toList]
  | @array elements h ih =>
    intro limit depth hlimit rest _
    rw [nesting] at hlimit
    obtain ⟨limit, rfl⟩ := Nat.exists_eq_succ_of_ne_zero (Nat.ne_of_gt (Nat.zero_lt_of_lt hlimit))
    have hlimit := Nat.le_of_succ_le_succ hlimit
    have hread : ∀ x ∈ elements, ReadsBack (value? limit) (x.chars layout (depth + 1)) x :=
      fun x hx => ih x hx limit (depth + 1) (Nat.le_trans (nesting_le_of_mem x hx) hlimit)
    cases elements with
    | nil =>
      show value? (limit + 1) ('[' :: ']' :: rest) = _
      rw [value?_array]
      rfl
    | cons x xs =>
      have hstart := (h x List.mem_cons_self).exists_cons layout (depth + 1)
      have hlist := list?_separated (depth + 1) hlayout (skipsGaps_value? limit) (.inl rfl) hstart
        hread (hlayout.lineBreak (depth + 1)) (hlayout.lineBreak depth) rest
      rw [chars_array]
      simp only [List.cons_append, List.append_assoc, List.nil_append]
      rw [value?_array, hlist]
      rfl
  | @object members hsorted h ih =>
    intro limit depth hlimit rest _
    rw [nesting] at hlimit
    obtain ⟨limit, rfl⟩ := Nat.exists_eq_succ_of_ne_zero (Nat.ne_of_gt (Nat.zero_lt_of_lt hlimit))
    have hlimit := Nat.le_of_succ_le_succ hlimit
    have hread : ∀ m ∈ members,
        ReadsBack (member? (value? limit)) (memberText layout (depth + 1) m) m := by
      intro m hm
      have hnesting := Nat.le_trans (nesting_le_of_mem_members m hm) hlimit
      exact readsBack_member hlayout (skipsGaps_value? limit) (ih m hm limit (depth + 1) hnesting)
    cases members with
    | nil =>
      show value? (limit + 1) ('{' :: '}' :: rest) = _
      rw [value?_object]
      rfl
    | cons m ms =>
      have hstart : ∃ c cs, memberText layout (depth + 1) m = c :: cs ∧ isGap c = false ∧ c ≠ '}' :=
        ⟨'"', _, rfl, by decide⟩
      have hlist := list?_separated (depth + 1) hlayout (skipsGaps_member? (value? limit))
        (.inr rfl) hstart hread (hlayout.lineBreak (depth + 1)) (hlayout.lineBreak depth) rest
      rw [chars_object]
      simp only [List.cons_append, List.append_assoc, List.nil_append]
      rw [value?_object, hlist, Option.map_some]
      dsimp only
      rw [ofMembers_of_sorted hsorted]

end

/-! ## Values that nest too deep -/

/-- A bound for all elements bounds the deepest. -/
theorem elementsNesting_le {limit : Nat} : ∀ {elements : List Json},
    (∀ x ∈ elements, x.nesting ≤ limit) → elementsNesting elements ≤ limit := by
  intro elements
  induction elements with
  | nil => exact fun _ => Nat.zero_le _
  | cons x xs ih =>
    intro h
    obtain ⟨hx, hxs⟩ := List.forall_mem_cons.mp h
    rw [elementsNesting]
    exact Nat.max_le.mpr ⟨hx, ih hxs⟩

/-- A bound for all values bounds that of the deepest member. -/
theorem membersNesting_le {limit : Nat} : ∀ {members : List (String × Json)},
    (∀ m ∈ members, m.2.nesting ≤ limit) → membersNesting members ≤ limit := by
  intro members
  induction members with
  | nil => exact fun _ => Nat.zero_le _
  | cons m ms ih =>
    intro h
    obtain ⟨name, x⟩ := m
    obtain ⟨hx, hms⟩ := List.forall_mem_cons.mp h
    rw [membersNesting]
    exact Nat.max_le.mpr ⟨hx, ih hms⟩

/-- What is read nests no deeper than brackets may. -/
theorem passedOn_nesting : PassedOn fun limit v => v.nesting ≤ limit where
  null _ := Nat.zero_le _
  bool _ _ := Nat.zero_le _
  number _ _ _ := Nat.zero_le _
  string _ _ := Nat.zero_le _
  array _ _ h := Nat.succ_le_succ (elementsNesting_le h)
  object _ members h := by
    obtain ⟨sorted, hobject, -, hmem⟩ := exists_of_ofMembers members
    rw [hobject]
    exact Nat.succ_le_succ (membersNesting_le fun m hm => h m (hmem m hm))

/-- One reader reads whatever the other does, and as the other does. -/
def Extends {α : Type} (item?' item? : List Char → Option α) : Prop :=
  ∀ cs x, item? cs = some x → item?' cs = some x

section

variable {α : Type} {item?' item? : List Char → Option (α × List Char)} {close : Char}

/-- A reader that reads more items reads more lists, by induction over the items that are still to
come. -/
theorem extends_listTail? (h : Extends item?' item?) :
    ∀ fuel, Extends (listTail? item?' close fuel) (listTail? item? close fuel) := by
  intro fuel
  induction fuel with
  | zero =>
    intro cs x hx
    cases hx
  | succ fuel ih =>
    intro cs x hx
    rw [listTail?] at hx ⊢
    split at hx
    · cases hx
    · split at hx
      · next hclose => rw [if_pos hclose, hx]
      · next hclose =>
        split at hx
        · next hcomma =>
          obtain ⟨⟨y, behind⟩, hy, hx⟩ := Option.bind_eq_some_iff.mp hx
          obtain ⟨⟨ys, behind⟩, hys, hx⟩ := Option.bind_eq_some_iff.mp hx
          rw [if_neg hclose, if_pos hcomma, h _ _ hy, Option.bind_eq_bind, Option.bind_some]
          dsimp only
          rw [ih _ _ hys]
          exact hx
        · cases hx

/-- So it does of whole lists, where the first item has no comma. -/
theorem extends_list? (h : Extends item?' item?) :
    Extends (list? item?' close) (list? item? close) := by
  intro cs x hx
  rw [list?] at hx ⊢
  split at hx
  · cases hx
  · split at hx
    · next hclose => rw [if_pos hclose, hx]
    · next hclose =>
      obtain ⟨⟨y, behind⟩, hy, hx⟩ := Option.bind_eq_some_iff.mp hx
      obtain ⟨⟨ys, behind⟩, hys, hx⟩ := Option.bind_eq_some_iff.mp hx
      rw [if_neg hclose, h _ _ hy, Option.bind_eq_bind, Option.bind_some]
      dsimp only
      rw [extends_listTail? h _ _ _ hys]
      exact hx

end

/-- A reader of values that reads more gives a reader of members that reads more. -/
theorem extends_member? {read?' read? : List Char → Option (Json × List Char)}
    (h : Extends read?' read?) : Extends (member? read?') (member? read?) := by
  intro cs x hx
  unfold member? at hx ⊢
  split at hx
  · obtain ⟨⟨name, behind⟩, hname, hx⟩ := Option.bind_eq_some_iff.mp hx
    rw [hname, Option.bind_eq_bind, Option.bind_some]
    dsimp only at hx ⊢
    split at hx
    · obtain ⟨⟨v, behind⟩, hv, hx⟩ := Option.bind_eq_some_iff.mp hx
      rw [h _ _ hv]
      exact hx
    · cases hx
  · cases hx

/-- More depth changes nothing of what is read. -/
theorem extends_value? {limit limit' : Nat} (hle : limit ≤ limit') :
    Extends (value? limit') (value? limit) := by
  induction limit using Nat.strongRecOn generalizing limit' with
  | _ limit ih =>
    intro cs x hx
    unfold value? at hx ⊢
    split at hx
    · exact hx
    · exact hx
    · exact hx
    · exact hx
    · split at hx
      · cases hx
      · next limit =>
        obtain ⟨limit', rfl⟩ := Nat.exists_eq_succ_of_ne_zero (Nat.ne_of_gt (Nat.zero_lt_of_lt hle))
        have hless := ih limit (Nat.lt_succ_self limit) (Nat.le_of_succ_le_succ hle)
        obtain ⟨_, hxs, heq⟩ := Option.map_eq_some_iff.mp hx
        exact Option.map_eq_some_iff.mpr ⟨_, extends_list? hless _ _ hxs, heq⟩
    · split at hx
      · cases hx
      · next limit =>
        obtain ⟨limit', rfl⟩ := Nat.exists_eq_succ_of_ne_zero (Nat.ne_of_gt (Nat.zero_lt_of_lt hle))
        have hless := ih limit (Nat.lt_succ_self limit) (Nat.le_of_succ_le_succ hle)
        obtain ⟨_, hms, heq⟩ := Option.map_eq_some_iff.mp hx
        exact Option.map_eq_some_iff.mpr ⟨_, extends_list? (extends_member? hless) _ _ hms, heq⟩
    · exact hx

/-! ## Whole texts -/

/-- **A canonical value reads back from its text** in either layout if it nests no deeper than
brackets may, and its text is no value otherwise. -/
theorem read?_chars {layout : Layout} (hlayout : layout.Lawful) {v : Json} (h : v.Canonical) :
    read? (String.ofList (v.chars layout 0)) = if v.nesting ≤ depthLimit then some v else none := by
  have hback : ∀ limit, v.nesting ≤ limit → value? limit (v.chars layout 0) = some (v, []) := by
    intro limit hlimit
    have hread := readsBack_chars hlayout h limit 0 hlimit [] ends_nil
    rwa [List.append_nil] at hread
  unfold read?
  rw [String.toList_ofList]
  split
  · next w rest hw =>
    -- a reader with more depth reads the same, and that is the value itself
    have hmore := extends_value? (Nat.le_max_left depthLimit v.nesting) _ _ hw
    rw [hback _ (Nat.le_max_right _ _)] at hmore
    cases hmore
    rw [if_pos (passedOn_nesting.of_value? hw)]
    rfl
  · next hnone =>
    rw [if_neg fun hlimit => ?_]
    rw [hback _ hlimit] at hnone
    cases hnone

end Stencil.Json
