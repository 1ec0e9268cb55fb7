import Stencil.Json.Number
import Stencil.Proofs.Numeral
import Stencil.Tree.Decimal

/-!
# Decimals read back

The text of a decimal is a sign, the digits before the point, and the digits after it. Read back as
a decimal it gives the decimal itself, scale included, as long as the scale is one that a literal
may have. It is also the text of a JSON number, whatever the scale is, and a JSON number keeps it
letter for letter.

> `ofText?_text`: a decimal of an admissible scale reads back from its text.
> `scale_le_of_ofText?`: every decimal that is read has an admissible scale.
> `ofText?_decimal`, `ofText?_int`: a JSON number keeps the text of a decimal and of a whole number.
-/

namespace Stencil.Decimal

open Stencil.Text

/-! ## The parts of the text -/

/-- The digits of a decimal, with zeros in front where the point needs them. -/
def allDigits (d : Decimal) : List Char :=
  padded (decimalDigits d.unscaled.natAbs) d.scale

/-- The digits before the point. -/
def wholeDigits (d : Decimal) : List Char :=
  d.allDigits.take (d.allDigits.length - d.scale)

/-- The digits after the point. -/
def fractionDigits (d : Decimal) : List Char :=
  d.allDigits.drop (d.allDigits.length - d.scale)

/-- The sign of the text. -/
def signChars (d : Decimal) : List Char :=
  if d.unscaled < 0 then ['-'] else []

/-- What follows the digits before the point. -/
def fractionText (d : Decimal) : List Char :=
  if d.scale = 0 then [] else '.' :: d.fractionDigits

theorem chars_eq (d : Decimal) : d.chars = d.signChars ++ d.wholeDigits ++ d.fractionText := by
  unfold chars fractionText
  by_cases h : d.scale = 0
  · simp only [h, if_true, List.append_nil]
    simp only [signChars, wholeDigits, allDigits, h]
  · simp only [h, if_false]
    rfl

/-- There is always a digit in front of the point. -/
theorem scale_lt_length_allDigits (d : Decimal) : d.scale < d.allDigits.length := by
  have hpos := length_decimalDigits_pos d.unscaled.natAbs
  simp only [allDigits, padded, List.length_append, List.length_replicate]
  omega

theorem all_isDigit_allDigits (d : Decimal) : d.allDigits.all Char.isDigit = true := by
  simp only [allDigits, padded, List.all_append, all_isDigit_decimalDigits, Bool.and_true]
  rw [List.all_eq_true]
  intro c hc
  rw [List.eq_of_mem_replicate hc]
  decide

/-- The digits in front of the point and those behind it are all digits. -/
theorem whole_append_fraction (d : Decimal) :
    d.wholeDigits ++ d.fractionDigits = d.allDigits :=
  List.take_append_drop _ _

/-- What stands in front of the point are digits only. -/
theorem all_isDigit_wholeDigits (d : Decimal) : d.wholeDigits.all Char.isDigit = true := by
  have h := d.all_isDigit_allDigits
  rw [← whole_append_fraction, List.all_append, Bool.and_eq_true] at h
  exact h.1

theorem all_isDigit_fractionDigits (d : Decimal) : d.fractionDigits.all Char.isDigit = true := by
  have h := d.all_isDigit_allDigits
  rw [← whole_append_fraction, List.all_append, Bool.and_eq_true] at h
  exact h.2

/-- At least one digit stands in front of the point. -/
theorem wholeDigits_ne_nil (d : Decimal) : d.wholeDigits ≠ [] := by
  intro h
  have hlen : d.wholeDigits.length = d.allDigits.length - d.scale := by
    unfold wholeDigits
    rw [List.length_take]
    omega
  have hlt := d.scale_lt_length_allDigits
  rw [h, List.length_nil] at hlen
  omega

/-- As many digits stand behind the point as the scale says. -/
theorem length_fractionDigits (d : Decimal) : d.fractionDigits.length = d.scale := by
  have hlt := d.scale_lt_length_allDigits
  unfold fractionDigits
  rw [List.length_drop]
  omega

/-- Without a scale there are no digits after the point. -/
theorem fractionDigits_eq_nil {d : Decimal} (h : d.scale = 0) : d.fractionDigits = [] :=
  List.length_eq_zero_iff.mp (d.length_fractionDigits.trans h)

/-- Zeros in front do not change the value of the digits. -/
theorem digitsValue_allDigits (d : Decimal) : digitsValue d.allDigits = d.unscaled.natAbs := by
  unfold allDigits padded
  rw [digitsValue_replicate_zero_append, digitsValue_decimalDigits]

/-- The part before the point is a zero alone or starts with no zero. -/
theorem wholeDigits_zero_or (d : Decimal) :
    d.wholeDigits = ['0'] ∨ ∃ c cs, d.wholeDigits = c :: cs ∧ c ≠ '0' := by
  have hpos := length_decimalDigits_pos d.unscaled.natAbs
  by_cases hpad : (decimalDigits d.unscaled.natAbs).length ≤ d.scale
  · -- the point stands behind the first of the zeros in front
    left
    have hlen : d.allDigits.length - d.scale = 1 := by
      simp only [allDigits, padded, List.length_append, List.length_replicate]
      omega
    obtain ⟨k, hk⟩ : ∃ k, d.scale + 1 - (decimalDigits d.unscaled.natAbs).length = k + 1 :=
      ⟨d.scale - (decimalDigits d.unscaled.natAbs).length, by omega⟩
    unfold wholeDigits
    rw [hlen]
    unfold allDigits padded
    rw [hk, List.replicate_succ]
    rfl
  · have hdigits : d.allDigits = decimalDigits d.unscaled.natAbs := by
      unfold allDigits padded
      rw [show d.scale + 1 - (decimalDigits d.unscaled.natAbs).length = 0 by omega]
      rfl
    rcases Nat.eq_zero_or_pos d.unscaled.natAbs with hz | hnz
    · -- the number zero has one digit, so nothing stands behind the point
      left
      have hone : d.allDigits = ['0'] := by rw [hdigits, hz]; rfl
      have hs : d.scale = 0 := by
        have hlt := d.scale_lt_length_allDigits
        rw [hone, List.length_singleton] at hlt
        omega
      unfold wholeDigits
      rw [hone, hs]
      rfl
    · right
      obtain ⟨c, cs, hc⟩ := List.exists_cons_of_ne_nil d.wholeDigits_ne_nil
      refine ⟨c, cs, hc, fun he => head?_decimalDigits_of_pos hnz ?_⟩
      rw [← hdigits, ← whole_append_fraction, hc, he]
      rfl

/-! ## Reading the text as a decimal -/

/-- Neither an exponent mark nor a point. -/
theorem isDigit_plain {c : Char} (h : c.isDigit = true) :
    (c == 'e' || c == 'E') = false ∧ c ≠ '.' := by
  constructor
  · rw [Bool.or_eq_false_iff, beq_eq_false_iff_ne, beq_eq_false_iff_ne]
    constructor <;> (intro he; subst he; exact absurd h (by decide))
  · intro he; subst he; exact absurd h (by decide)

/-- A text without an exponent mark is a mantissa. -/
theorem splitExponent?_of_all {cs : List Char}
    (h : ∀ c ∈ cs, (c == 'e' || c == 'E') = false) : splitExponent? cs = some (cs, 0) := by
  have hall : ∀ c ∈ cs, (!(c == 'e' || c == 'E')) = true := fun c hc => by rw [h c hc]; rfl
  unfold splitExponent?
  dsimp only
  rw [← List.append_nil cs, List.takeWhile_append_of_pos hall, List.dropWhile_append_of_pos hall]
  simp

/-- A mantissa is cut at its point. -/
theorem splitPoint_append {whole tail : List Char} (hw : ∀ c ∈ whole, c ≠ '.')
    (ht : tail = [] ∨ ∃ fraction, tail = '.' :: fraction) :
    splitPoint (whole ++ tail) = (whole, tail.drop 1) := by
  have hall : ∀ c ∈ whole, (c != '.') = true := fun c hc => bne_iff_ne.mpr (hw c hc)
  unfold splitPoint
  rw [List.takeWhile_append_of_pos hall, List.dropWhile_append_of_pos hall]
  rcases ht with rfl | ⟨fraction, rfl⟩
  · simp
  · simp

/-- Without an exponent the scale is the number of digits behind the point. -/
theorem shifted?_zero {u : Int} {n : Nat} (h : n ≤ maxShift) : shifted? u n 0 = some ⟨u, n⟩ := by
  unfold shifted?
  have hn : ((n : Int) - 0).natAbs = n := by omega
  dsimp only
  rw [hn, if_neg (by omega), if_pos (by omega)]

/-- Every character of the text but a sign is a digit or the point. -/
theorem mem_text_cases {d : Decimal} {c : Char}
    (h : c ∈ d.signChars ++ d.wholeDigits ++ d.fractionText) :
    c = '-' ∨ c = '.' ∨ c.isDigit = true := by
  have hw := List.all_eq_true.mp d.all_isDigit_wholeDigits
  have hf := List.all_eq_true.mp d.all_isDigit_fractionDigits
  simp only [List.mem_append] at h
  rcases h with (h | h) | h
  · unfold signChars at h
    split at h
    · left; simpa using h
    · simp at h
  · exact Or.inr (Or.inr (hw c h))
  · unfold fractionText at h
    split at h
    · simp at h
    · rcases List.mem_cons.mp h with h | h
      · exact Or.inr (Or.inl h)
      · exact Or.inr (Or.inr (hf c h))

theorem drop_one_fractionText (d : Decimal) : d.fractionText.drop 1 = d.fractionDigits := by
  unfold fractionText
  split
  · next h => rw [fractionDigits_eq_nil h]; rfl
  · rfl

/-- The minus sign in front of the digits is split off again. -/
theorem splitSign_signChars (d : Decimal) :
    splitSign (d.signChars ++ d.wholeDigits) = (decide (d.unscaled < 0), d.wholeDigits) := by
  unfold signChars
  by_cases h : d.unscaled < 0
  · rw [if_pos h, decide_eq_true h]; rfl
  · rw [if_neg h, decide_eq_false h, List.nil_append]
    exact splitSign_of_all_isDigit d.all_isDigit_wholeDigits

/-- The text of a decimal reads back, part by part: sign, digits, point and digits. There is no
exponent. -/
theorem ofChars?_chars {d : Decimal} (h : d.scale ≤ maxShift) : ofChars? d.chars = some d := by
  have hmark : ∀ c ∈ d.signChars ++ d.wholeDigits ++ d.fractionText,
      (c == 'e' || c == 'E') = false := by
    intro c hc
    rcases mem_text_cases hc with rfl | rfl | hd
    · decide
    · decide
    · exact (isDigit_plain hd).1
  have hsign : ∀ c ∈ d.signChars ++ d.wholeDigits, c ≠ '.' := by
    intro c hc
    rcases List.mem_append.mp hc with hc | hc
    · unfold signChars at hc
      split at hc
      · rw [List.mem_singleton.mp hc]; decide
      · simp at hc
    · exact (isDigit_plain (List.all_eq_true.mp d.all_isDigit_wholeDigits c hc)).2
  have htail : d.fractionText = [] ∨ ∃ fraction, d.fractionText = '.' :: fraction := by
    unfold fractionText
    split
    · exact Or.inl rfl
    · exact Or.inr ⟨_, rfl⟩
  have hvalue : withSign (decide (d.unscaled < 0)) (digitsValue (d.wholeDigits ++ d.fractionDigits))
      = d.unscaled := by
    rw [whole_append_fraction, digitsValue_allDigits, withSign_natAbs]
  unfold ofChars?
  rw [chars_eq, splitExponent?_of_all hmark]
  -- the text is taken apart as it was put together: exponent, point, sign, digits
  rw [Option.bind_eq_bind, Option.bind_some]
  dsimp only
  rw [splitPoint_append hsign htail, drop_one_fractionText]
  dsimp only
  rw [splitSign_signChars]
  dsimp only
  rw [Option.bind_eq_bind, natural?_eq_some d.wholeDigits_ne_nil d.all_isDigit_wholeDigits,
    Option.bind_some, d.all_isDigit_fractionDigits, hvalue, length_fractionDigits]
  exact shifted?_zero h

/-- **Decimals read back.** -/
theorem ofText?_text {d : Decimal} (h : d.scale ≤ maxShift) : ofText? d.text = some d := by
  unfold ofText? text
  rw [String.toList_ofList]
  exact ofChars?_chars h

/-- Shifting the point keeps the scale in its range. -/
theorem scale_le_of_shifted? {u : Int} {n : Nat} {x : Int} {d : Decimal}
    (h : shifted? u n x = some d) : d.scale ≤ maxShift := by
  unfold shifted? at h
  dsimp only at h
  split at h
  · cases h
  · split at h
    · cases h; dsimp only; omega
    · cases h; exact Nat.zero_le _

/-- A decimal that is read has an admissible scale. -/
theorem scale_le_of_ofText? {s : String} {d : Decimal} (h : ofText? s = some d) :
    d.scale ≤ maxShift := by
  unfold ofText? ofChars? at h
  obtain ⟨⟨mantissa, exponent⟩, _, h⟩ := Option.bind_eq_some_iff.mp h
  obtain ⟨_, _, h⟩ := Option.bind_eq_some_iff.mp h
  obtain ⟨_, _, hd⟩ := Option.bind_eq_some_iff.mp h
  exact scale_le_of_shifted? hd

end Stencil.Decimal

/-! ## The text as a JSON number -/

namespace Stencil.Json.Number

open Stencil.Text

/-- Digits are read up to the first character that is none. -/
theorem digits1?_append {ds rest : List Char} (hne : ds ≠ []) (hall : ds.all Char.isDigit = true)
    (hrest : ∀ c ∈ rest.head?, c.isDigit = false) : digits1? (ds ++ rest) = some (ds, rest) := by
  have hmem : ∀ c ∈ ds, c.isDigit = true := List.all_eq_true.mp hall
  -- what follows starts with no digit, so that all digits taken are those of `ds`
  have hstop : rest.takeWhile Char.isDigit = [] ∧ rest.dropWhile Char.isDigit = rest := by
    cases rest with
    | nil => exact ⟨rfl, rfl⟩
    | cons c cs =>
      have hc := hrest c rfl
      exact ⟨List.takeWhile_cons_of_neg (by simp [hc]), List.dropWhile_cons_of_neg (by simp [hc])⟩
  unfold digits1?
  rw [List.takeWhile_append_of_pos hmem, List.dropWhile_append_of_pos hmem, hstop.1, hstop.2,
    List.append_nil]
  cases ds with
  | nil => exact absurd rfl hne
  | cons c cs => rfl

/-- The integer part of a number: a zero alone, or digits that start with none. -/
theorem integer?_append {whole rest : List Char} (hall : whole.all Char.isDigit = true)
    (hw : whole = ['0'] ∨ ∃ c cs, whole = c :: cs ∧ c ≠ '0')
    (hrest : ∀ c ∈ rest.head?, c.isDigit = false) :
    integer? (whole ++ rest) = some (whole, rest) := by
  rcases hw with rfl | ⟨c, cs, rfl, hc⟩
  · rfl
  · unfold integer?
    split
    · next heq => cases heq; exact absurd rfl hc
    · exact digits1?_append (List.cons_ne_nil _ _) hall hrest

/-- A number with no exponent: its integer part and what is left of the text of a fraction. -/
theorem unsigned?_append {whole fraction : List Char} (hall : whole.all Char.isDigit = true)
    (hw : whole = ['0'] ∨ ∃ c cs, whole = c :: cs ∧ c ≠ '0')
    (hf : fraction = [] ∨ ∃ ds, fraction = '.' :: ds ∧ ds ≠ [] ∧ ds.all Char.isDigit = true) :
    unsigned? (whole ++ fraction) = some (whole ++ fraction, []) := by
  have hhead : ∀ c ∈ fraction.head?, c.isDigit = false := by
    rcases hf with rfl | ⟨ds, rfl, _, _⟩
    · intro c hc; cases hc
    · intro c hc; cases hc; decide
  have hfraction : fraction? fraction = some (fraction, []) := by
    rcases hf with rfl | ⟨ds, rfl, hne, hds⟩
    · rfl
    · have hd : digits1? (ds ++ []) = some (ds, []) := digits1?_append hne hds (by simp)
      rw [List.append_nil] at hd
      simp only [fraction?, hd, Option.map_some]
  unfold unsigned?
  simp only [integer?_append hall hw hhead, Option.bind_eq_bind, Option.bind_some, hfraction,
    exponent?, List.append_nil]
  rfl

/-- A digit at the front is no sign. -/
theorem scan?_of_isDigit {c : Char} (h : c.isDigit = true) (cs : List Char) :
    scan? (c :: cs) = unsigned? (c :: cs) := by
  unfold scan?
  split
  · next heq => cases heq; exact absurd h (by decide)
  · rfl

/-- A sign and a number without one. -/
theorem scan?_append {sign cs : List Char} (hs : sign = [] ∨ sign = ['-'])
    (hc : ∃ c rest, cs = c :: rest ∧ c.isDigit = true) (h : unsigned? cs = some (cs, [])) :
    scan? (sign ++ cs) = some (sign ++ cs, []) := by
  rcases hs with rfl | rfl
  · obtain ⟨c, rest, rfl, hd⟩ := hc
    rw [List.nil_append, scan?_of_isDigit hd]
    exact h
  · show (unsigned? cs).map _ = _
    rw [h]
    rfl

/-- A number text that is scanned to its end as it stands is that number. -/
theorem ofText?_of_scan? {s : String} (h : scan? s.toList = some (s.toList, [])) :
    ofText? s = some (.number s) := by
  unfold ofText?
  rw [h]
  simp only [String.ofList_toList]

/-- **A JSON number keeps the text of a decimal**, whatever its scale. -/
theorem ofText?_decimal (d : Decimal) : ofText? d.text = some (.number d.text) := by
  apply ofText?_of_scan?
  unfold Decimal.text
  rw [String.toList_ofList, Decimal.chars_eq, List.append_assoc]
  apply scan?_append
  · unfold Decimal.signChars
    split
    · exact Or.inr rfl
    · exact Or.inl rfl
  · obtain ⟨c, cs, hc⟩ := List.exists_cons_of_ne_nil d.wholeDigits_ne_nil
    refine ⟨c, cs ++ d.fractionText, by rw [hc]; rfl, ?_⟩
    exact List.all_eq_true.mp d.all_isDigit_wholeDigits c (by rw [hc]; exact List.mem_cons_self ..)
  · apply unsigned?_append d.all_isDigit_wholeDigits d.wholeDigits_zero_or
    unfold Decimal.fractionText
    split
    · exact Or.inl rfl
    · next h =>
      refine Or.inr ⟨_, rfl, fun he => h ?_, d.all_isDigit_fractionDigits⟩
      rw [← d.length_fractionDigits, he, List.length_nil]

/-- The text of a whole number is that of the decimal without digits after the point. -/
theorem intText_eq_text (n : Int) : intText n = Decimal.text ⟨n, 0⟩ := by
  have hlen := length_decimalDigits_pos n.natAbs
  have hpad : Decimal.padded (decimalDigits n.natAbs) 0 = decimalDigits n.natAbs := by
    unfold Decimal.padded
    rw [show 0 + 1 - (decimalDigits n.natAbs).length = 0 by omega]
    rfl
  unfold intText Decimal.text intChars Decimal.chars
  dsimp only
  rw [hpad, if_pos rfl, Nat.sub_zero, List.take_length]
  split <;> rfl

/-- **A JSON number keeps the text of a whole number.** -/
theorem ofText?_int (n : Int) : ofText? (intText n) = some (.number (intText n)) := by
  rw [intText_eq_text]
  exact ofText?_decimal ⟨n, 0⟩

end Stencil.Json.Number
