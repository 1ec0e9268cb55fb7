import Stencil.Proofs.NumberText
import Stencil.Proofs.RoundTrip

/-!
# Reading drops nothing

A value that is read as a tree is, number for number and text for text, what the tree is written
as. Only the number in a node for a whole number or a decimal may be spelled in another way, and
then both spellings denote the same rational number. So the decoder neither patches a value nor
passes over a part of it: every position of the value is one that the tree keeps.

> `respelled_ofJson`: a value and what is written for its tree differ in spelling at most, and so
> do two values of one tree.
-/

namespace Stencil

/-! ## Values up to spelling -/

/-- Two texts that denote the same number. -/
def SameNumber (a b : String) : Prop :=
  ∃ q, Json.Number.Denotes a.toList q ∧ Json.Number.Denotes b.toList q

mutual

/-- Two values that differ at most in how the numbers of numeral nodes are spelled. In a value that
is read, an array starts with the number of a tag only where it is a node. -/
inductive Respelled : Json → Json → Prop where
  | same (v : Json) : Respelled v v
  | array {xs ys : List Json} (h : RespelledAll xs ys) : Respelled (.array xs) (.array ys)
  | numeral {t : Tag} {a b : String} (ht : t = .int ∨ t = .decimal) (h : SameNumber a b) :
    Respelled (t.node [.number a]) (t.node [.number b])

/-- Values that differ at most in spelling, one by one. -/
inductive RespelledAll : List Json → List Json → Prop where
  | nil : RespelledAll [] []
  | cons {x y : Json} {xs ys : List Json} (h : Respelled x y) (hs : RespelledAll xs ys) :
    RespelledAll (x :: xs) (y :: ys)

end

/-- The two texts can be exchanged. -/
theorem SameNumber.symm {a b : String} (h : SameNumber a b) : SameNumber b a := by
  obtain ⟨q, ha, hb⟩ := h
  exact ⟨q, hb, ha⟩

/-- A text denotes one number, so that the two middle numbers are the same. -/
theorem SameNumber.trans {a b c : String} (h : SameNumber a b) (h' : SameNumber b c) :
    SameNumber a c := by
  obtain ⟨q, ha, hb⟩ := h
  obtain ⟨r, hb', hc⟩ := h'
  obtain rfl := hb.unique hb'
  exact ⟨q, ha, hc⟩

mutual

/-- Two values that differ in spelling do so the other way round. -/
theorem Respelled.symm {v w : Json} : Respelled v w → Respelled w v
  | .same v => .same v
  | .array h => .array h.symm
  | .numeral ht h => .numeral ht h.symm

theorem RespelledAll.symm {xs ys : List Json} : RespelledAll xs ys → RespelledAll ys xs
  | .nil => .nil
  | .cons h hs => .cons h.symm hs.symm

end

/-- Alone, a number keeps its spelling. -/
theorem Respelled.eq_of_number {text : String} {v : Json} (h : Respelled (.number text) v) :
    v = .number text := by
  cases h with
  | same => rfl

/-- The two elements of a numeral node, each alone, keep their spelling. -/
theorem RespelledAll.eq_of_numeral {a b : String} {xs : List Json}
    (h : RespelledAll [.number a, .number b] xs) : xs = [.number a, .number b] := by
  cases h with
  | cons h hs =>
    cases hs with
    | cons h' hs =>
      cases hs with
      | nil => rw [h.eq_of_number, h'.eq_of_number]

mutual

/-- Spelling can change twice. In a numeral node the middle number is one text, which denotes one
number. -/
theorem Respelled.trans {u v w : Json} : Respelled u v → Respelled v w → Respelled u w
  | .same _, h => h
  | .array hs, h => by
    generalize hv : Json.array _ = v at h
    cases h with
    | same => exact hv ▸ .array hs
    | array hs' =>
      cases hv
      exact .array (hs.trans hs')
    | numeral ht h =>
      cases hv
      have hu := hs.symm.eq_of_numeral
      subst hu
      exact .numeral ht h
  | .numeral ht h, h' => by
    generalize hv : Tag.node _ _ = v at h'
    cases h' with
    | same => exact hv ▸ .numeral ht h
    | array hs' =>
      cases hv
      rw [hs'.eq_of_numeral]
      exact .numeral ht h
    | numeral ht' h' =>
      simp only [Tag.node, Json.array.injEq, List.cons.injEq, Json.number.injEq] at hv
      obtain ⟨hcode, rfl, -⟩ := hv
      unfold Tag.node
      rw [← hcode]
      exact .numeral ht (h.trans h')

theorem RespelledAll.trans {xs ys zs : List Json} :
    RespelledAll xs ys → RespelledAll ys zs → RespelledAll xs zs
  | .nil, h => h
  | .cons h hs, .cons h' hs' => .cons (h.trans h') (hs.trans hs')

end

/-! ## The numbers of a value -/

mutual

/-- Every number in the value follows the grammar of JSON. -/
def Json.WellSpelled : Json → Prop
  | .number text => ∃ q, Json.Number.Denotes text.toList q
  | .array xs => allWellSpelled xs
  | .object members => membersWellSpelled members
  | .null | .bool _ | .string _ => True
termination_by structural v => v

/-- Every number in the elements of an array follows the grammar. -/
def allWellSpelled : List Json → Prop
  | [] => True
  | x :: xs => x.WellSpelled ∧ allWellSpelled xs
termination_by structural xs => xs

/-- Every number in the members of an object follows the grammar. -/
def membersWellSpelled : List (String × Json) → Prop
  | [] => True
  | (_, x) :: xs => x.WellSpelled ∧ membersWellSpelled xs
termination_by structural xs => xs

end

/-! ## Reading the parts of a node -/

/-- No tag has the code zero. -/
theorem Tag.code_pos (t : Tag) : 0 < t.code := by
  cases t with
  | binary op => cases op <;> decide
  | unary op => cases op <;> decide
  | bool b => cases b <;> decide
  | _ => decide

/-- The number of a tag is spelled in one way. -/
theorem Json.eq_number_of_tag? {v : Json} {t : Tag} (hv : v.WellSpelled) (h : v.tag? = some t) :
    v = .number (Text.natText t.code) := by
  cases v with
  | number text =>
    obtain ⟨q, hq⟩ := hv
    obtain ⟨n, hn, hcode⟩ := Option.bind_eq_some_iff.mp h
    have htag : (t.code : Int) = n := by simpa using List.find?_some hcode
    rw [← htag] at hn
    rw [Number.eq_natText_of_int64? hq t.code_pos hn]
  | _ => cases h

open Decoded

/-- A text of a number is taken from a number only. -/
theorem Json.yields_asNumeral (tag : Tag) (v : Json) :
    (v.asNumeral tag).Yields fun text => v = .number text := by
  cases v with
  | number text => exact yields_pure rfl
  | _ => exact yields_throw

/-- A whole number that is read denotes what its text denotes. -/
theorem Json.respelled_asInt {v : Json} (hv : v.WellSpelled) :
    v.asInt.Yields fun n => Respelled (Tag.int.node [v]) (Node.int n).toJson := by
  refine yields_bind (v.yields_asNumeral .int) fun text htext => ?_
  subst htext
  obtain ⟨q, hq⟩ := hv
  split
  · next n hn =>
    refine yields_pure ?_
    rw [Node.toJson, Json.ofNumeral_int]
    refine .numeral (.inl rfl) ⟨q, hq, ?_⟩
    rw [Number.eq_of_grouped? hq hn]
    exact Decimal.denotes_intText n
  · exact yields_throw

/-- So does a decimal, whose text may have an exponent. -/
theorem Json.respelled_asDecimal {v : Json} (hv : v.WellSpelled) :
    v.asDecimal.Yields fun d => Respelled (Tag.decimal.node [v]) (Node.decimal d).toJson := by
  refine yields_bind (v.yields_asNumeral .decimal) fun text htext => ?_
  subst htext
  obtain ⟨q, hq⟩ := hv
  split
  · next d hd =>
    refine yields_pure ?_
    rw [Node.toJson, Json.ofNumeral_decimal]
    refine .numeral (.inr rfl) ⟨q, hq, ?_⟩
    rw [← Decimal.value_of_ofChars? hq hd]
    exact d.denotes_text
  · exact yields_throw

/-- A text is taken from a string only. -/
theorem Json.yields_asText (tag : Tag) (expected : String) (v : Json) :
    (v.asText tag expected).Yields fun s => v = .string s := by
  cases v with
  | string s => exact yields_pure rfl
  | _ => exact yields_throw

theorem Json.yields_mapM_asText (tag : Tag) (expected : String) (xs : List Json) :
    (xs.mapM (asText tag expected)).Yields fun texts => xs = texts.map .string := by
  induction xs with
  | nil => exact yields_pure rfl
  | cons x xs ih =>
    rw [List.mapM_cons]
    refine yields_bind (yields_asText tag expected x) fun s hs => ?_
    exact yields_bind ih fun texts ht => yields_pure (by rw [hs, ht, List.map_cons])

/-- A list of texts is taken from an array of strings only. -/
theorem Json.yields_asTexts (tag : Tag) (expected : String) (v : Json) :
    (v.asTexts tag expected).Yields fun texts => v = .ofTexts texts := by
  cases v with
  | array xs =>
    intro texts h
    rw [Json.yields_mapM_asText tag expected xs texts h]
    rfl
  | _ => exact yields_throw

/-- A key is taken from a string or from null. -/
theorem Json.yields_asKey (v : Json) : v.asKey.Yields fun key => v = .ofText? key := by
  cases v with
  | null => exact yields_pure rfl
  | string s => exact yields_pure rfl
  | _ => exact yields_throw

/-! ## Reading a node -/

/-- A node keeps its tag, and its children up to spelling. -/
theorem Respelled.node {t : Tag} {xs ys : List Json} (h : RespelledAll xs ys) :
    Respelled (t.node xs) (t.node ys) :=
  .array (.cons (.same _) h)

/-- A child that is kept as it is. -/
theorem RespelledAll.keep {x : Json} {xs ys : List Json} (h : RespelledAll xs ys) :
    RespelledAll (x :: xs) (x :: ys) :=
  .cons (.same x) h

mutual

/-- A value that is read as a node differs in spelling at most from what the node is written as. The
recursion is that of the decoder: one case for each tag, and in each the parts of the value are the
parts of the node. -/
theorem Node.yields_respelled : ∀ v : Json, v.WellSpelled →
    (Node.ofJson v).Yields fun n => Respelled v n.toJson
  | .array (first :: children), hv => by
    obtain ⟨hfirst, hs⟩ : first.WellSpelled ∧ allWellSpelled children := hv
    unfold Node.ofJson
    split
    · exact yields_throw
    · next tag htag =>
      obtain rfl := Json.eq_number_of_tag? hfirst htag
      clear hfirst htag
      split
      -- constants and literals
      · exact yields_pure (.same _)
      · exact yields_pure (.same _)
      · exact yields_bind (Json.respelled_asInt hs.1) fun _ h => yields_pure h
      · exact yields_bind (Json.respelled_asDecimal hs.1) fun _ h => yields_pure h
      · next x =>
        exact yields_bind (x.yields_asText _ _) fun s h => yields_pure (by rw [h]; exact .same _)
      -- operators
      · next x =>
        exact yields_bind (Node.yields_respelled x hs.1) fun a ha =>
          yields_pure (.node (.cons ha .nil))
      · next x y =>
        exact yields_bind (Node.yields_respelled x hs.1) fun a ha =>
          yields_bind (Node.yields_respelled y hs.2.1) fun b hb =>
            yields_pure (.node (.cons ha (.cons hb .nil)))
      · next x y =>
        exact yields_bind (Node.yields_respelled x hs.1) fun a ha =>
          yields_bind (Node.yields_respelled y hs.2.1) fun b hb =>
            yields_pure (.node (.cons ha (.cons hb .nil)))
      · next x y z =>
        exact yields_bind (Node.yields_respelled x hs.1) fun a ha =>
          yields_bind (Node.yields_respelled y hs.2.1) fun b hb =>
            yields_bind (Node.yields_respelled z hs.2.2.1) fun c hc =>
              yields_pure (.node (.cons ha (.cons hb (.cons hc .nil))))
      -- paths and calls
      · exact yields_throw
      · next xs _ =>
        exact yields_bind (yields_respelled_segments xs hs.1) fun path h =>
          yields_pure (.node (.cons (.array h) .nil))
      · exact yields_throw
      · next f args =>
        exact yields_bind (yields_respelled_args args hs.2.2.1) fun ns h =>
          yields_pure (.node (.keep (.keep (.cons h .nil))))
      · next f args _ =>
        exact yields_bind (yields_respelled_args args hs.2.2.1) fun ns h =>
          yields_bind_any fun _ =>
            yields_bind (Node.yields_respelled f hs.2.1) fun n hn =>
              yields_pure (.node (.keep (.cons hn (.cons h .nil))))
      · next target f args _ =>
        exact yields_bind (Node.yields_respelled target hs.1) fun t ht =>
          yields_bind (yields_respelled_args args hs.2.2.1) fun ns h =>
            yields_pure (.node (.cons ht (.keep (.cons h .nil))))
      · next target f args _ _ _ =>
        exact yields_bind (Node.yields_respelled target hs.1) fun t ht =>
          yields_bind (yields_respelled_args args hs.2.2.1) fun ns h =>
            yields_bind_any fun _ =>
              yields_bind (Node.yields_respelled f hs.2.1) fun n hn =>
                yields_pure (.node (.cons ht (.cons hn (.cons h .nil))))
      -- maps, bodies and blocks
      · next xs =>
        exact yields_bind (yields_respelled_entries xs hs.1) fun es h =>
          yields_pure (.node (.cons (.array h) .nil))
      · exact yields_throw
      · next x =>
        exact yields_bind (yields_respelled_body _ x hs.1) fun items h =>
          yields_pure (.node (.cons h .nil))
      · next x =>
        exact yields_bind (x.yields_asText _ _) fun s h => yields_pure (by rw [h]; exact .same _)
      · next xs =>
        exact yields_bind (yields_respelled_arms xs hs.1) fun arms h =>
          yields_pure (.node (.cons (.array h) .nil))
      · exact yields_throw
      · next x y =>
        exact yields_bind (x.yields_asText _ _) fun name h =>
          yields_bind (Node.yields_respelled y hs.2.1) fun n hn =>
            yields_pure (by rw [h]; exact .node (.keep (.cons hn .nil)))
      · next x y bodies =>
        refine yields_bind (x.yields_asTexts _ _) fun names h => yields_guard fun _ => ?_
        split
        · next b =>
          obtain ⟨-, hy, ⟨hb, -⟩, -⟩ := hs
          exact yields_bind (yields_respelled_body _ b hb) fun body hbody =>
            yields_bind (Node.yields_respelled y hy) fun n hn =>
              yields_pure (by rw [h]; exact .node (.keep (.cons hn
                (.cons (.array (.cons hbody .nil)) .nil))))
        · next b e =>
          obtain ⟨-, hy, ⟨hb, he, -⟩, -⟩ := hs
          exact yields_bind (yields_respelled_body _ b hb) fun body hbody =>
            yields_bind (yields_respelled_body _ e he) fun otherwise helse =>
              yields_bind (Node.yields_respelled y hy) fun n hn =>
                yields_pure (by rw [h]; exact .node (.keep (.cons hn
                  (.cons (.array (.cons hbody (.cons helse .nil))) .nil))))
        · exact yields_throw
        · exact yields_throw
      · next x y z =>
        exact yields_bind (x.yields_asText _ _) fun name hname =>
          yields_bind (y.yields_asTexts _ _) fun params hparams =>
            yields_bind (yields_respelled_body _ z hs.2.2.1) fun body hbody =>
              yields_pure (by rw [hname, hparams]; exact .node (.keep (.keep (.cons hbody .nil))))
      · exact yields_throw
  | .array [], _ => by unfold Node.ofJson; exact yields_throw
  | .null, _ => by unfold Node.ofJson; exact yields_throw
  | .bool _, _ => by unfold Node.ofJson; exact yields_throw
  | .number _, _ => by unfold Node.ofJson; exact yields_throw
  | .string _, _ => by unfold Node.ofJson; exact yields_throw
  | .object _, _ => by unfold Node.ofJson; exact yields_throw
termination_by v => sizeOf v
decreasing_by
  all_goals (subst_vars; simp; omega)

/-- The arguments of a call, which are an array of nodes. -/
theorem yields_respelled_args : ∀ v : Json, v.WellSpelled →
    (argsOfJson v).Yields fun ns => Respelled v (.array (nodesToJson ns))
  | .array xs, hs => fun ns h => .array (yields_respelled_nodes xs hs ns h)
  | .null, _ | .bool _, _ | .number _, _ | .string _, _ | .object _, _ => yields_throw
termination_by v => sizeOf v

theorem yields_respelled_nodes : ∀ xs : List Json, allWellSpelled xs →
    (nodesOfJson xs).Yields fun ns => RespelledAll xs (nodesToJson ns)
  | [], _ => yields_pure .nil
  | x :: xs, hs =>
    yields_bind (Node.yields_respelled x hs.1) fun _ hn =>
      yields_bind (yields_respelled_nodes xs hs.2) fun _ h => yields_pure (.cons hn h)
termination_by xs => sizeOf xs

/-- The steps of a path: a name is kept as its text. -/
theorem yields_respelled_segments : ∀ xs : List Json, allWellSpelled xs →
    (segmentsOfJson xs).Yields fun path => RespelledAll xs (segmentsToJson path)
  | [], _ => yields_pure .nil
  | x :: xs, hs => by
    unfold segmentsOfJson
    split
    · contradiction
    · next h =>
      cases h
      exact yields_bind (yields_respelled_segments xs hs.2) fun _ h => yields_pure h.keep
    · next h =>
      cases h
      exact yields_bind_any fun _ =>
        yields_bind (Node.yields_respelled x hs.1) fun _ hn =>
          yields_bind (yields_respelled_segments xs hs.2) fun _ h => yields_pure (.cons hn h)
termination_by xs => sizeOf xs

/-- The entries of a map: a key is kept as its text, or as null. -/
theorem yields_respelled_entries : ∀ xs : List Json, allWellSpelled xs →
    (entriesOfJson xs).Yields fun es => RespelledAll xs (entriesToJson es)
  | [], _ => yields_pure .nil
  | x :: xs, hs => by
    unfold entriesOfJson
    split
    · contradiction
    · next h =>
      cases h
      obtain ⟨⟨-, hv, -⟩, hrest⟩ := hs
      exact yields_bind (Json.yields_asKey _) fun key hkey =>
        yields_bind (Node.yields_respelled _ hv) fun _ hn =>
          yields_bind (yields_respelled_entries xs hrest) fun _ h =>
            yields_pure (by rw [hkey]; exact .cons (.array (.keep (.cons hn .nil))) h)
    · exact yields_throw
    · exact yields_throw
termination_by xs => sizeOf xs

/-- The arms of a condition, each with its condition and its body. -/
theorem yields_respelled_arms : ∀ xs : List Json, allWellSpelled xs →
    (armsOfJson xs).Yields fun arms => RespelledAll xs (armsToJson arms)
  | [], _ => yields_pure .nil
  | x :: xs, hs => by
    unfold armsOfJson
    split
    · contradiction
    · next h =>
      cases h
      obtain ⟨⟨hc, hb, -⟩, hrest⟩ := hs
      exact yields_bind (Node.yields_respelled _ hc) fun _ hn =>
        yields_bind (yields_respelled_body _ _ hb) fun _ hbody =>
          yields_bind (yields_respelled_arms xs hrest) fun _ h =>
            yields_pure (.cons (.array (.cons hn (.cons hbody .nil))) h)
    · exact yields_throw
    · exact yields_throw
termination_by xs => sizeOf xs

/-- A body, which is an array of items wherever it stands. -/
theorem yields_respelled_body (position : String) : ∀ v : Json, v.WellSpelled →
    (bodyOfJson position v).Yields fun items => Respelled v (.array (itemsToJson items))
  | .array xs, hs => fun items h => .array (yields_respelled_items xs hs items h)
  | .null, _ | .bool _, _ | .number _, _ | .string _, _ | .object _, _ => yields_throw
termination_by v => sizeOf v

theorem yields_respelled_items : ∀ xs : List Json, allWellSpelled xs →
    (itemsOfJson xs).Yields fun items => RespelledAll xs (itemsToJson items)
  | [], _ => yields_pure .nil
  | x :: xs, hs => by
    unfold itemsOfJson
    split
    · contradiction
    · next h =>
      cases h
      exact yields_bind (yields_respelled_items xs hs.2) fun _ h => yields_pure h.keep
    · next h =>
      cases h
      exact yields_bind (Node.yields_respelled x hs.1) fun _ hn =>
        yields_bind (yields_respelled_items xs hs.2) fun _ h => yields_pure (.cons hn h)
termination_by xs => sizeOf xs

end

/-! ## Templates -/

namespace Template

/-- A value that is no envelope is taken whole. -/
theorem openEnvelope_eq_of_none {v : Json} (h : (openEnvelope v).1 = none) :
    openEnvelope v = (none, v) := by
  unfold openEnvelope at h ⊢
  split
  · next s header root =>
    by_cases hs : s = mark
    · simp [hs] at h
    · rw [if_neg hs]
  · rfl

/-- A template without a signature is written as it was read, but for the spelling of numbers. -/
theorem respelled_of_bare {v : Json} {t : Template} (hv : v.WellSpelled) (h : ofJson v = .ok t)
    (hbare : t.signature = none) : Respelled v t.toJson := by
  unfold ofJson at h
  dsimp only at h
  cases hb : bodyOfJson "a template body" (openEnvelope v).2 with
  | error e => rw [hb] at h; cases h
  | ok items =>
    rw [hb] at h
    cases h
    have hopen := openEnvelope_eq_of_none hbare
    rw [hopen] at hb ⊢
    exact yields_respelled_body _ v hv items hb

end Template

/-- **Reading drops nothing.** Let every number of a value follow the grammar of JSON. If the value
is read as a node, then it differs from what is written for the node in the spelling of numeral
nodes at most, and these denote the same numbers; so it is with a template outside an envelope. Two
values that are read as the same tree differ in the same way at most. -/
theorem respelled_ofJson :
    (∀ v n, v.WellSpelled → Node.ofJson v = .ok n → Respelled v n.toJson) ∧
    (∀ v t, v.WellSpelled → Template.ofJson v = .ok t → t.signature = none →
      Respelled v t.toJson) ∧
    (∀ v w n, v.WellSpelled → w.WellSpelled → Node.ofJson v = .ok n → Node.ofJson w = .ok n →
      Respelled v w) ∧
    (∀ v w t, v.WellSpelled → w.WellSpelled → Template.ofJson v = .ok t →
      Template.ofJson w = .ok t → t.signature = none → Respelled v w) := by
  refine ⟨?_, ?_, ?_, ?_⟩
  · intro v n hv h
    exact Node.yields_respelled v hv n h
  · intro v t hv h hbare
    exact Template.respelled_of_bare hv h hbare
  · intro v w n hv hw h h'
    exact (Node.yields_respelled v hv n h).trans (Node.yields_respelled w hw n h').symm
  · intro v w t hv hw h h' hbare
    exact (Template.respelled_of_bare hv h hbare).trans
      (Template.respelled_of_bare hw h' hbare).symm

/-- Three halves with an exponent and without one, as a node; a negative zero in a template. -/
theorem respelled_ofJson_halves :
    Respelled (.array [.number "102", .number "15e-1"]) (Node.decimal ⟨15, 1⟩).toJson ∧
    Respelled (.array [.string "a", .array [.number "101", .number "-0"]])
      (Template.toJson ⟨[.text "a", .node (.int 0)], none⟩) ∧
    Respelled (.array [.number "102", .number "15e-1"]) (.array [.number "102", .number "1.5"]) ∧
    Respelled (.array [.string "a", .array [.number "101", .number "-0"]])
      (.array [.string "a", .array [.number "101", .number "0"]]) := by
  have hcode : (Json.number "102").WellSpelled := ⟨_, Decimal.denotes_intText 102⟩
  have hint : (Json.number "101").WellSpelled := ⟨_, Decimal.denotes_intText 101⟩
  have hzero : (Json.number "0").WellSpelled := ⟨_, Decimal.denotes_intText 0⟩
  have hplain : (Json.number "1.5").WellSpelled := ⟨_, Decimal.denotes_text ⟨15, 1⟩⟩
  have hmarked : Json.Number.Denotes
      ([] ++ (['1', '5'] ++ ([] ++ ('e' :: (['-'] ++ ['1']))))) _ :=
    .mk .none (by decide) (.digits (by decide) (by decide)) .none
      (.digits (.inl rfl) .minus ⟨by decide, by decide⟩)
  have hminus : Json.Number.Denotes (['-'] ++ (['0'] ++ ([] ++ []))) _ :=
    .mk .minus (by decide) .zero .none .none
  have hhalves : (Json.array [.number "102", .number "15e-1"]).WellSpelled :=
    ⟨hcode, ⟨_, hmarked⟩, trivial⟩
  have hitems : (Json.array [.string "a", .array [.number "101", .number "-0"]]).WellSpelled :=
    ⟨trivial, ⟨hint, ⟨_, hminus⟩, trivial⟩, trivial⟩
  exact ⟨respelled_ofJson.1 _ _ hhalves rfl,
    respelled_ofJson.2.1 _ _ hitems rfl rfl,
    respelled_ofJson.2.2.1 _ _ (.decimal ⟨15, 1⟩) hhalves ⟨hcode, hplain, trivial⟩ rfl rfl,
    respelled_ofJson.2.2.2 _ _ ⟨[.text "a", .node (.int 0)], none⟩ hitems
      ⟨trivial, ⟨hint, hzero, trivial⟩, trivial⟩ rfl rfl rfl⟩

end Stencil
