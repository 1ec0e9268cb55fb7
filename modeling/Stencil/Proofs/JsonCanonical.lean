import Stencil.Json.Reader
import Stencil.Proofs.NumberText
import Stencil.Proofs.RoundTrip

/-!
# JSON values in canonical form

A value is in canonical form if its numbers are spelled as the reader leaves them and the members of
its objects are sorted by name, each name once. Whatever is read is in this form, and so is whatever
a tree is written as.

> `Number.Uniform.scan?_append`: numbers in the one spelling are read as they stand.
> `Json.PassedOn.of_value?`: what the reader passes on from the parts of a value to the value.
> `Json.canonical_of_read?`: what is read is in canonical form.
> `Node.canonical_toJson`: so is what a tree is written as.
-/

namespace Stencil.Json

/-! ## Numbers -/

namespace Number

/-- No exponent, or one with a small mark and a sign. -/
inductive IsUniformExponent : List Char → Prop where
  | none : IsUniformExponent []
  | plus {ds : List Char} (h : IsDigits ds) : IsUniformExponent ('e' :: '+' :: ds)
  | minus {ds : List Char} (h : IsDigits ds) : IsUniformExponent ('e' :: '-' :: ds)

/-- A number without its sign in the spelling that the reader leaves. -/
inductive UniformUnsigned : List Char → Prop where
  | mk {whole fraction digits exponent : List Char} (hw : IsWhole whole)
    (hf : IsFraction fraction digits) (he : IsUniformExponent exponent) :
    UniformUnsigned (whole ++ fraction ++ exponent)

/-- A number in the spelling that the reader leaves. -/
inductive Uniform : List Char → Prop where
  | positive {cs : List Char} (h : UniformUnsigned cs) : Uniform cs
  | negative {cs : List Char} (h : UniformUnsigned cs) : Uniform ('-' :: cs)

/-! ### What is read -/

/-- Digits are read at the front of a text. -/
theorem eq_append_of_digits1? {cs ds rest : List Char} (h : digits1? cs = some (ds, rest)) :
    IsDigits ds ∧ cs = ds ++ rest := by
  unfold digits1? at h
  split at h
  · cases h
  · next hne =>
    cases h
    exact ⟨⟨hne, List.all_takeWhile⟩, List.takeWhile_append_dropWhile.symm⟩

/-- The whole part that is read has no zeros in front of other digits. -/
theorem isWhole_of_integer? {cs ds rest : List Char} (h : integer? cs = some (ds, rest)) :
    IsWhole ds := by
  unfold integer? at h
  split at h
  · cases h
    exact .zero
  · next hzero =>
    obtain ⟨⟨hne, hall⟩, rfl⟩ := eq_append_of_digits1? h
    obtain ⟨c, ds, rfl⟩ := List.exists_cons_of_ne_nil hne
    refine .digits ?_ hall
    rintro rfl
    exact hzero _ rfl

/-- A fraction that is read is a point with digits behind it, or nothing. -/
theorem isFraction_of_fraction? {cs t rest : List Char} (h : fraction? cs = some (t, rest)) :
    ∃ ds, IsFraction t ds := by
  unfold fraction? at h
  split at h
  · obtain ⟨⟨ds, rest⟩, hds, heq⟩ := Option.map_eq_some_iff.mp h
    cases heq
    exact ⟨ds, .digits (eq_append_of_digits1? hds).1⟩
  · cases h
    exact ⟨[], .none⟩

/-- Behind its mark an exponent is left with a sign, which is a plus where none was written. -/
theorem isUniformExponent_of_exponentTail? {cs t rest : List Char}
    (h : exponentTail? cs = some (t, rest)) : IsUniformExponent ('e' :: t) := by
  unfold exponentTail? at h
  split at h <;> obtain ⟨⟨ds, rest⟩, hds, heq⟩ := Option.map_eq_some_iff.mp h <;> cases heq
  · exact .plus (eq_append_of_digits1? hds).1
  · exact .minus (eq_append_of_digits1? hds).1
  · exact .plus (eq_append_of_digits1? hds).1

/-- So exponents are left with a small mark and a sign. -/
theorem isUniformExponent_of_exponent? {cs t rest : List Char}
    (h : exponent? cs = some (t, rest)) : IsUniformExponent t := by
  unfold exponent? at h
  split at h
  · obtain ⟨⟨t, rest⟩, ht, heq⟩ := Option.map_eq_some_iff.mp h
    cases heq
    exact isUniformExponent_of_exponentTail? ht
  · obtain ⟨⟨t, rest⟩, ht, heq⟩ := Option.map_eq_some_iff.mp h
    cases heq
    exact isUniformExponent_of_exponentTail? ht
  · cases h
    exact .none

/-- A number that is read without its sign is left in the one spelling. -/
theorem uniform_of_unsigned? {cs t rest : List Char} (h : unsigned? cs = some (t, rest)) :
    UniformUnsigned t := by
  obtain ⟨⟨whole, cs⟩, hw, h⟩ := Option.bind_eq_some_iff.mp h
  obtain ⟨⟨fraction, cs⟩, hf, h⟩ := Option.bind_eq_some_iff.mp h
  obtain ⟨⟨exponent, cs⟩, he, h⟩ := Option.bind_eq_some_iff.mp h
  obtain ⟨digits, hf⟩ := isFraction_of_fraction? hf
  cases h
  exact .mk (isWhole_of_integer? hw) hf (isUniformExponent_of_exponent? he)

/-- **What is read as a number** is in the one spelling. -/
theorem uniform_of_scan? {cs t rest : List Char} (h : scan? cs = some (t, rest)) : Uniform t := by
  unfold scan? at h
  split at h
  · obtain ⟨⟨t, rest⟩, ht, heq⟩ := Option.map_eq_some_iff.mp h
    cases heq
    exact .negative (uniform_of_unsigned? ht)
  · exact .positive (uniform_of_unsigned? h)

/-! ### Reading numbers as they stand -/

/-- The text does not go on with a number. -/
def Apart (rest : List Char) : Prop :=
  ∀ c ∈ rest.head?, c.isDigit = false ∧ c ≠ '.' ∧ c ≠ 'e' ∧ c ≠ 'E'

/-- A fraction is read to its end where neither a digit nor a point follows. -/
theorem fraction?_append {fraction digits rest : List Char} (hf : IsFraction fraction digits)
    (hrest : ∀ c ∈ rest.head?, c.isDigit = false ∧ c ≠ '.') :
    fraction? (fraction ++ rest) = some (fraction, rest) := by
  cases hf with
  | none =>
    rw [List.nil_append]
    unfold fraction?
    split
    · exact absurd rfl (hrest '.' rfl).2
    · rfl
  | digits hds =>
    show (digits1? (digits ++ rest)).map _ = _
    rw [digits1?_append hds.1 hds.2 fun c hc => (hrest c hc).1]
    rfl

/-- An exponent in the one spelling is read as it stands. -/
theorem exponent?_append {exponent rest : List Char} (he : IsUniformExponent exponent)
    (hrest : Apart rest) : exponent? (exponent ++ rest) = some (exponent, rest) := by
  cases he with
  | none =>
    rw [List.nil_append]
    unfold exponent?
    split
    · exact absurd rfl (hrest 'e' rfl).2.2.1
    · exact absurd rfl (hrest 'E' rfl).2.2.2
    · rfl
  | @plus ds hds =>
    show ((digits1? (ds ++ rest)).map _).map _ = _
    rw [digits1?_append hds.1 hds.2 fun c hc => (hrest c hc).1]
    rfl
  | @minus ds hds =>
    show ((digits1? (ds ++ rest)).map _).map _ = _
    rw [digits1?_append hds.1 hds.2 fun c hc => (hrest c hc).1]
    rfl

/-- An exponent starts with its mark. -/
theorem IsUniformExponent.head?_append {exponent rest : List Char} (he : IsUniformExponent exponent)
    (hrest : Apart rest) : ∀ c ∈ (exponent ++ rest).head?, c.isDigit = false ∧ c ≠ '.' := by
  intro c hc
  cases he with
  | none => exact ⟨(hrest c hc).1, (hrest c hc).2.1⟩
  | plus _ => cases hc; decide
  | minus _ => cases hc; decide

/-- A number in the one spelling is read as it stands, part by part. -/
theorem UniformUnsigned.unsigned?_append {cs rest : List Char} (h : UniformUnsigned cs)
    (hrest : Apart rest) : unsigned? (cs ++ rest) = some (cs, rest) := by
  cases h with
  | @mk whole fraction digits exponent hw hf he =>
    have hexponent := he.head?_append hrest
    have hfraction : ∀ c ∈ (fraction ++ (exponent ++ rest)).head?, c.isDigit = false := by
      intro c hc
      cases hf with
      | none => exact (hexponent c hc).1
      | digits _ => cases hc; decide
    have hstart : whole = ['0'] ∨ ∃ c cs, whole = c :: cs ∧ c ≠ '0' := by
      cases hw with
      | zero => exact .inl rfl
      | digits hc _ => exact .inr ⟨_, _, rfl, hc⟩
    simp only [List.append_assoc]
    unfold unsigned?
    simp only [integer?_append hw.all_isDigit hstart hfraction, fraction?_append hf hexponent,
      exponent?_append he hrest, Option.bind_eq_bind, Option.bind_some, Option.pure_def,
      List.append_assoc]

/-- A number without its sign starts with a digit. -/
theorem UniformUnsigned.exists_cons {cs : List Char} (h : UniformUnsigned cs) :
    ∃ c rest, cs = c :: rest ∧ c.isDigit = true := by
  cases h with
  | @mk whole fraction _ exponent hw _ _ =>
    obtain ⟨c, ds, rfl⟩ := List.exists_cons_of_ne_nil hw.ne_nil
    exact ⟨c, ds ++ fraction ++ exponent, by simp, hw.isDigits.head? c rfl⟩

/-- **Numbers in the one spelling** are read as they stand. -/
theorem Uniform.scan?_append {cs rest : List Char} (h : Uniform cs) (hrest : Apart rest) :
    scan? (cs ++ rest) = some (cs, rest) := by
  cases h with
  | positive h =>
    have hread := h.unsigned?_append hrest
    obtain ⟨c, ds, rfl, hc⟩ := h.exists_cons
    rw [← hread]
    exact scan?_of_isDigit hc (ds ++ rest)
  | negative h =>
    show (unsigned? (_ ++ rest)).map _ = _
    rw [h.unsigned?_append hrest]
    rfl

end Number

/-! ## Objects -/

/-- The members are sorted by name, and each name stands once. -/
def Sorted (members : List (String × Json)) : Prop :=
  members.Pairwise fun a b => a.1 < b.1

/-- Putting in a member adds no other one. -/
theorem mem_insertMember {name : String} {value : Json} :
    ∀ {members : List (String × Json)}, ∀ m ∈ insertMember name value members,
      m = (name, value) ∨ m ∈ members := by
  intro members
  induction members with
  | nil =>
    intro m hm
    exact .inl (List.mem_singleton.mp hm)
  | cons first rest ih =>
    intro m hm
    obtain ⟨n, v⟩ := first
    rw [insertMember] at hm
    split at hm
    · exact (List.mem_cons.mp hm).imp_right (List.mem_cons_of_mem _)
    · split at hm
      · exact List.mem_cons.mp hm
      · rcases List.mem_cons.mp hm with rfl | hm
        · exact .inr List.mem_cons_self
        · exact (ih m hm).imp_right (List.mem_cons_of_mem _)

/-- A member that is put in its place leaves the members sorted. -/
theorem sorted_insertMember {name : String} {value : Json} :
    ∀ {members : List (String × Json)}, Sorted members →
      Sorted (insertMember name value members) := by
  intro members
  induction members with
  | nil =>
    intro _
    exact List.pairwise_singleton _ _
  | cons first rest ih =>
    intro h
    obtain ⟨n, v⟩ := first
    obtain ⟨hfirst, hrest⟩ := List.pairwise_cons.mp h
    rw [insertMember]
    split
    · next heq =>
      subst heq
      exact List.pairwise_cons.mpr ⟨hfirst, hrest⟩
    · next hne =>
      split
      · next hlt =>
        refine List.pairwise_cons.mpr ⟨fun m hm => ?_, h⟩
        rcases List.mem_cons.mp hm with rfl | hm
        · exact hlt
        · exact String.lt_trans hlt (hfirst m hm)
      · next hnot =>
        have hlater : n < name := by
          by_cases hlt : n < name
          · exact hlt
          · exact absurd (String.le_antisymm (String.not_lt.mp hlt) (String.not_lt.mp hnot)) hne
        refine List.pairwise_cons.mpr ⟨fun m hm => ?_, ih hrest⟩
        rcases mem_insertMember m hm with rfl | hm
        · exact hlater
        · exact hfirst m hm

/-- A member behind all others is put at the end. -/
theorem insertMember_last {name : String} {value : Json} :
    ∀ {members : List (String × Json)}, (∀ m ∈ members, m.1 < name) →
      insertMember name value members = members ++ [(name, value)] := by
  intro members
  induction members with
  | nil =>
    intro _
    rfl
  | cons first rest ih =>
    intro h
    obtain ⟨n, v⟩ := first
    obtain ⟨hfirst, hrest⟩ := List.forall_mem_cons.mp h
    have hfirst : n < name := hfirst
    rw [insertMember, if_neg (String.ne_of_lt hfirst).symm, if_neg (String.lt_asymm hfirst),
      ih hrest, List.cons_append]

/-- Members put in their places one by one. -/
def insertAll (members sorted : List (String × Json)) : List (String × Json) :=
  members.foldl (fun sorted m => insertMember m.1 m.2 sorted) sorted

/-- The reader's objects are built by putting in one member after the other. -/
theorem ofMembers_eq (members : List (String × Json)) :
    ofMembers members = .object (insertAll members []) :=
  rfl

/-- Members that are sorted are put one behind the other. -/
theorem insertAll_of_sorted : ∀ {members sorted : List (String × Json)},
    Sorted (sorted ++ members) → insertAll members sorted = sorted ++ members := by
  intro members
  induction members with
  | nil =>
    intro sorted _
    exact (List.append_nil sorted).symm
  | cons m members ih =>
    intro sorted h
    have hlast : ∀ k ∈ sorted, k.1 < m.1 :=
      fun k hk => (List.pairwise_append.mp h).2.2 k hk m List.mem_cons_self
    show insertAll members (insertMember m.1 m.2 sorted) = _
    rw [insertMember_last hlast, ih (by rwa [List.append_assoc]), List.append_assoc]
    rfl

/-- **Members that are sorted** make up an object as they stand. -/
theorem ofMembers_of_sorted {members : List (String × Json)} (h : Sorted members) :
    ofMembers members = .object members := by
  have hall : insertAll members [] = [] ++ members := insertAll_of_sorted h
  rw [ofMembers_eq, hall, List.nil_append]

/-- Putting members in their places leaves them sorted and adds no others. -/
theorem insertAll_spec : ∀ (members : List (String × Json)) {sorted : List (String × Json)},
    Sorted sorted →
    Sorted (insertAll members sorted) ∧
      ∀ k ∈ insertAll members sorted, k ∈ sorted ∨ k ∈ members := by
  intro members
  induction members with
  | nil => exact fun h => ⟨h, fun k hk => .inl hk⟩
  | cons m members ih =>
    intro sorted h
    obtain ⟨hsorted, hmem⟩ := ih (sorted_insertMember h)
    refine ⟨hsorted, fun k hk => ?_⟩
    rcases hmem k hk with hk | hk
    · rcases mem_insertMember k hk with rfl | hk
      · exact .inr List.mem_cons_self
      · exact .inl hk
    · exact .inr (List.mem_cons_of_mem _ hk)

/-- Members in any order make up an object of some of them, which is sorted. -/
theorem exists_of_ofMembers (members : List (String × Json)) :
    ∃ sorted, ofMembers members = .object sorted ∧ Sorted sorted ∧ ∀ m ∈ sorted, m ∈ members := by
  obtain ⟨hsorted, hmem⟩ := insertAll_spec members List.Pairwise.nil
  exact ⟨_, ofMembers_eq members, hsorted,
    fun m hm => (hmem m hm).resolve_left List.not_mem_nil⟩

/-! ## Canonical values -/

/-- The value is in canonical form. -/
inductive Canonical : Json → Prop where
  | null : Canonical null
  | bool (b : Bool) : Canonical (bool b)
  | number {text : String} (h : Number.Uniform text.toList) : Canonical (number text)
  | string (s : String) : Canonical (string s)
  | array {elements : List Json} (h : ∀ x ∈ elements, Canonical x) : Canonical (array elements)
  | object {members : List (String × Json)} (hsorted : Sorted members)
    (h : ∀ m ∈ members, Canonical m.2) : Canonical (object members)

theorem Canonical.pair {v w : Json} (hv : v.Canonical) (hw : w.Canonical) :
    (Json.array [v, w]).Canonical :=
  .array (List.forall_mem_cons.mpr ⟨hv, List.forall_mem_singleton.mpr hw⟩)

/-- An object built from members in any order is sorted, and so canonical if their values are. -/
theorem canonical_ofMembers {members : List (String × Json)} (h : ∀ m ∈ members, Canonical m.2) :
    Canonical (ofMembers members) := by
  obtain ⟨sorted, hobject, hsorted, hmem⟩ := exists_of_ofMembers members
  rw [hobject]
  exact .object hsorted fun m hm => h m (hmem m hm)

/-! ### What is read -/

section

variable {α : Type} {item? : List Char → Option (α × List Char)} {close : Char} {P : α → Prop}

/-- What holds of every item that is read holds of all items of a list. -/
theorem forall_of_listTail? (hitem : ∀ cs x rest, item? cs = some (x, rest) → P x) :
    ∀ {fuel : Nat} {cs : List Char} {xs : List α} {rest : List Char},
      listTail? item? close fuel cs = some (xs, rest) → ∀ x ∈ xs, P x := by
  intro fuel
  induction fuel with
  | zero =>
    intro cs xs rest h
    cases h
  | succ fuel ih =>
    intro cs xs rest h
    unfold listTail? at h
    split at h
    · cases h
    · split at h
      · cases h
        exact List.forall_mem_nil _
      · split at h
        · obtain ⟨⟨x, behind⟩, hx, h⟩ := Option.bind_eq_some_iff.mp h
          obtain ⟨⟨later, behind⟩, hlater, h⟩ := Option.bind_eq_some_iff.mp h
          cases h
          exact List.forall_mem_cons.mpr ⟨hitem _ _ _ hx, ih hlater⟩
        · cases h

/-- What holds of each item that is read holds of all items of a list. -/
theorem forall_of_list? (hitem : ∀ cs x rest, item? cs = some (x, rest) → P x)
    {cs : List Char} {xs : List α} {rest : List Char} (h : list? item? close cs = some (xs, rest)) :
    ∀ x ∈ xs, P x := by
  unfold list? at h
  split at h
  · cases h
  · split at h
    · cases h
      exact List.forall_mem_nil _
    · obtain ⟨⟨x, behind⟩, hx, h⟩ := Option.bind_eq_some_iff.mp h
      obtain ⟨⟨later, behind⟩, hlater, h⟩ := Option.bind_eq_some_iff.mp h
      cases h
      exact List.forall_mem_cons.mpr ⟨hitem _ _ _ hx, forall_of_listTail? hitem hlater⟩

end

/-- The value of a member that is read was read as a value. -/
theorem exists_of_member? {read? : List Char → Option (Json × List Char)} {cs rest : List Char}
    {m : String × Json} (h : member? read? cs = some (m, rest)) :
    ∃ cs', read? cs' = some (m.2, rest) := by
  unfold member? at h
  split at h
  · obtain ⟨⟨name, behind⟩, -, h⟩ := Option.bind_eq_some_iff.mp h
    dsimp only at h
    split at h
    · obtain ⟨⟨v, behind⟩, hv, h⟩ := Option.bind_eq_some_iff.mp h
      cases h
      exact ⟨_, hv⟩
    · cases h
  · cases h

/-- A property that a value has if its parts do, for each depth to which brackets may still
open. -/
structure PassedOn (P : Nat → Json → Prop) : Prop where
  null : ∀ depth, P depth .null
  bool : ∀ depth b, P depth (.bool b)
  number : ∀ depth text, Number.Uniform text → P depth (.number (String.ofList text))
  string : ∀ depth s, P depth (.string s)
  array : ∀ depth elements, (∀ x ∈ elements, P depth x) → P (depth + 1) (.array elements)
  object : ∀ depth members, (∀ m ∈ members, P depth m.2) → P (depth + 1) (ofMembers members)

/-- **What the reader passes on** holds of all it reads. -/
theorem PassedOn.of_value? {P : Nat → Json → Prop} (hP : PassedOn P) {depth : Nat}
    {cs rest : List Char} {v : Json} (h : value? depth cs = some (v, rest)) : P depth v := by
  induction depth using Nat.strongRecOn generalizing cs v rest with
  | _ depth ih =>
    unfold value? at h
    split at h
    · cases h
      exact hP.null depth
    · cases h
      exact hP.bool depth true
    · cases h
      exact hP.bool depth false
    · obtain ⟨⟨s, behind⟩, -, heq⟩ := Option.map_eq_some_iff.mp h
      cases heq
      exact hP.string depth _
    · split at h
      · cases h
      · next depth =>
        obtain ⟨⟨xs, behind⟩, hxs, heq⟩ := Option.map_eq_some_iff.mp h
        cases heq
        refine hP.array depth xs (forall_of_list? (fun _ _ _ hx => ?_) hxs)
        exact ih depth (Nat.lt_succ_self depth) hx
    · split at h
      · cases h
      · next depth =>
        obtain ⟨⟨ms, behind⟩, hms, heq⟩ := Option.map_eq_some_iff.mp h
        cases heq
        refine hP.object depth ms (forall_of_list? (fun _ _ _ hm => ?_) hms)
        obtain ⟨_, hv⟩ := exists_of_member? hm
        exact ih depth (Nat.lt_succ_self depth) hv
    · obtain ⟨⟨text, behind⟩, htext, heq⟩ := Option.map_eq_some_iff.mp h
      cases heq
      exact hP.number depth text (Number.uniform_of_scan? htext)

/-- Being in canonical form is passed on from the parts of a value. -/
theorem passedOn_canonical : PassedOn fun _ v => v.Canonical where
  null _ := .null
  bool _ b := .bool b
  number _ text h := .number (by rwa [String.toList_ofList])
  string _ s := .string s
  array _ _ h := .array h
  object _ _ h := canonical_ofMembers h

/-- **What is read is in canonical form.** -/
theorem canonical_of_read? {text : String} {v : Json} (h : read? text = some v) : v.Canonical := by
  unfold read? at h
  split at h
  · next hv =>
    split at h
    · cases h
      exact passedOn_canonical.of_value? hv
    · cases h
  · cases h

/-! ### What trees are written as -/

/-- A number text that reads as itself is in the one spelling. -/
theorem uniform_of_ofText? {text : String} (h : Number.ofText? text = some (.number text)) :
    Canonical (number text) := by
  unfold Number.ofText? at h
  split at h
  · next cs hscan =>
    simp only [Option.some.injEq, number.injEq] at h
    refine .number ?_
    rw [← h, String.toList_ofList]
    exact Number.uniform_of_scan? hscan
  · cases h

theorem canonical_int (n : Int) : (ofNumeral (Text.intText n)).Canonical := by
  rw [ofNumeral_int]
  exact uniform_of_ofText? (Number.ofText?_int n)

/-- The text of a decimal has no exponent, and is in the one spelling as it stands. -/
theorem canonical_decimal (d : Decimal) : (ofNumeral d.text).Canonical := by
  rw [ofNumeral_decimal]
  exact uniform_of_ofText? (Number.ofText?_decimal d)

theorem canonical_ofTexts (texts : List String) : (ofTexts texts).Canonical := by
  refine .array fun x hx => ?_
  obtain ⟨s, -, rfl⟩ := List.mem_map.mp hx
  exact .string s

theorem canonical_ofText? (text : Option String) : (ofText? text).Canonical := by
  cases text with
  | none => exact .null
  | some s => exact .string s

end Stencil.Json

namespace Stencil

open Json (Canonical)

/-- A tagged list is canonical if what it holds is; the tag is a number. -/
theorem Tag.canonical_node {t : Tag} {children : List Json} (h : ∀ x ∈ children, x.Canonical) :
    (t.node children).Canonical := by
  have hcode := Json.canonical_int t.code
  have htext : Text.intText t.code = Text.natText t.code := by
    rw [Text.intText, Text.intChars, if_neg (by omega), Int.natAbs_natCast]
    rfl
  rw [Json.ofNumeral_int, htext] at hcode
  exact .array (List.forall_mem_cons.mpr ⟨hcode, h⟩)

mutual

/-- **What a node is written as** is in canonical form. -/
theorem Node.canonical_toJson : ∀ n : Node, n.toJson.Canonical
  | .bool _ => Tag.canonical_node (List.forall_mem_nil _)
  | .null => Tag.canonical_node (List.forall_mem_nil _)
  | .int n => by
    have hn := Json.canonical_int n
    exact Tag.canonical_node (by simp [hn])
  | .decimal d => by
    have hd := Json.canonical_decimal d
    exact Tag.canonical_node (by simp [hd])
  | .string s => Tag.canonical_node (by simp [Canonical.string])
  | .unary op a => by
    have ha := a.canonical_toJson
    exact Tag.canonical_node (by simp [ha])
  | .binary op a b => by
    have ha := a.canonical_toJson
    have hb := b.canonical_toJson
    exact Tag.canonical_node (by simp [ha, hb])
  | .ternary a b none => by
    have ha := a.canonical_toJson
    have hb := b.canonical_toJson
    exact Tag.canonical_node (by simp [ha, hb])
  | .ternary a b (some c) => by
    have ha := a.canonical_toJson
    have hb := b.canonical_toJson
    have hc := c.canonical_toJson
    exact Tag.canonical_node (by simp [ha, hb, hc])
  | .selector path => by
    have hpath := Canonical.array (canonical_segmentsToJson path)
    exact Tag.canonical_node (by simp [hpath])
  | .call none (.name f) args => by
    have hargs := Canonical.array (canonical_nodesToJson args)
    exact Tag.canonical_node (by simp [Canonical.null, Canonical.string, hargs])
  | .call none (.expr f) args => by
    have hf := f.canonical_toJson
    have hargs := Canonical.array (canonical_nodesToJson args)
    exact Tag.canonical_node (by simp [Canonical.null, hf, hargs])
  | .call (some t) (.name f) args => by
    have ht := t.canonical_toJson
    have hargs := Canonical.array (canonical_nodesToJson args)
    exact Tag.canonical_node (by simp [Canonical.string, ht, hargs])
  | .call (some t) (.expr f) args => by
    have ht := t.canonical_toJson
    have hf := f.canonical_toJson
    have hargs := Canonical.array (canonical_nodesToJson args)
    exact Tag.canonical_node (by simp [ht, hf, hargs])
  | .map entries => by
    have hentries := Canonical.array (canonical_entriesToJson entries)
    exact Tag.canonical_node (by simp [hentries])
  | .statements items => by
    have hitems := Canonical.array (canonical_itemsToJson items)
    exact Tag.canonical_node (by simp [hitems])
  | .importFile path => Tag.canonical_node (by simp [Canonical.string])
  | .conditional arms => by
    have harms := Canonical.array (canonical_armsToJson arms)
    exact Tag.canonical_node (by simp [harms])
  | .binding name value => by
    have hvalue := value.canonical_toJson
    exact Tag.canonical_node (by simp [Canonical.string, hvalue])
  | .loop names collection body none => by
    have hnames := Json.canonical_ofTexts names
    have hcollection := collection.canonical_toJson
    have hbody := Canonical.array (canonical_itemsToJson body)
    have hbodies := Canonical.array (List.forall_mem_singleton.mpr hbody)
    exact Tag.canonical_node (by simp [hnames, hcollection, hbodies])
  | .loop names collection body (some otherwise) => by
    have hnames := Json.canonical_ofTexts names
    have hcollection := collection.canonical_toJson
    have hbody := Canonical.array (canonical_itemsToJson body)
    have hotherwise := Canonical.array (canonical_itemsToJson otherwise)
    have hbodies := hbody.pair hotherwise
    exact Tag.canonical_node (by simp [hnames, hcollection, hbodies])
  | .macroDef name params body => by
    have hparams := Json.canonical_ofTexts params
    have hbody := Canonical.array (canonical_itemsToJson body)
    exact Tag.canonical_node (by simp [Canonical.string, hparams, hbody])
termination_by structural n => n

theorem canonical_nodesToJson : ∀ ns : List Node, ∀ x ∈ nodesToJson ns, x.Canonical
  | [] => List.forall_mem_nil _
  | n :: ns => List.forall_mem_cons.mpr ⟨n.canonical_toJson, canonical_nodesToJson ns⟩
termination_by structural ns => ns

theorem canonical_segmentsToJson : ∀ path : List Segment, ∀ x ∈ segmentsToJson path, x.Canonical
  | [] => List.forall_mem_nil _
  | .name s :: path =>
    List.forall_mem_cons.mpr ⟨.string s, canonical_segmentsToJson path⟩
  | .expr n :: path =>
    List.forall_mem_cons.mpr ⟨n.canonical_toJson, canonical_segmentsToJson path⟩
termination_by structural path => path

/-- The entries of a map are pairs, of which the key may be null. -/
theorem canonical_entriesToJson : ∀ es : List Entry, ∀ x ∈ entriesToJson es, x.Canonical
  | [] => List.forall_mem_nil _
  | .mk key value :: es => by
    have hkey := Json.canonical_ofText? key
    have hvalue := value.canonical_toJson
    have hentry := hkey.pair hvalue
    exact List.forall_mem_cons.mpr ⟨hentry, canonical_entriesToJson es⟩
termination_by structural es => es

/-- The arms of a condition are pairs of the condition and the items of the body. -/
theorem canonical_armsToJson : ∀ arms : List Arm, ∀ x ∈ armsToJson arms, x.Canonical
  | [] => List.forall_mem_nil _
  | .mk condition body :: arms => by
    have hcondition := condition.canonical_toJson
    have hbody := Canonical.array (canonical_itemsToJson body)
    have harm := hcondition.pair hbody
    exact List.forall_mem_cons.mpr ⟨harm, canonical_armsToJson arms⟩
termination_by structural arms => arms

theorem canonical_itemsToJson : ∀ items : List Item, ∀ x ∈ itemsToJson items, x.Canonical
  | [] => List.forall_mem_nil _
  | .text s :: items => List.forall_mem_cons.mpr ⟨.string s, canonical_itemsToJson items⟩
  | .node n :: items =>
    List.forall_mem_cons.mpr ⟨n.canonical_toJson, canonical_itemsToJson items⟩
termination_by structural items => items

end

/-- A template is written in canonical form if what it carries along is. -/
theorem Template.canonical_toJson {t : Template} (h : ∀ v ∈ t.signature, v.Canonical) :
    t.toJson.Canonical := by
  obtain ⟨items, signature⟩ := t
  have hitems := Canonical.array (canonical_itemsToJson items)
  cases signature with
  | none => exact hitems
  | some carried => exact ((Canonical.string _).pair (h carried rfl)).pair hitems

end Stencil
