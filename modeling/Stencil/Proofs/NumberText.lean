import Mathlib.Algebra.Field.Rat
import Mathlib.Tactic.FieldSimp
import Mathlib.Tactic.NormNum
import Mathlib.Tactic.Ring
import Stencil.Proofs.DecimalText

/-!
# What a number text denotes

The grammar of JSON numbers, with the rational number that each text of it denotes: a sign, an
integer part, a fraction and an exponent. The relation knows nothing of the readers. Each reader of
the program takes some of these texts, and gives the number that the text denotes.

> `Denotes.unique`: a text denotes one number at most.
> `ofChars?_of_writes`: what is read of a text in the format of decimals.
> `value_of_ofChars?`: a decimal that is read is the number that its text denotes.
> `eq_of_grouped?`: so is a whole number that is read.
> `denotes_text`: the text of a decimal denotes the decimal.
-/

namespace Stencil.Json.Number

open Stencil.Text

/-! ## The grammar -/

/-- One digit or more. -/
def IsDigits (ds : List Char) : Prop :=
  ds ≠ [] ∧ ds.all Char.isDigit = true

/-- The integer part: a zero alone, or digits with no zero in front. -/
inductive IsWhole : List Char → Prop where
  | zero : IsWhole ['0']
  | digits {c : Char} {ds : List Char} (hc : c ≠ '0') (h : (c :: ds).all Char.isDigit = true) :
    IsWhole (c :: ds)

/-- A sign, which may be missing. -/
inductive IsSign : List Char → Int → Prop where
  | none : IsSign [] 1
  | plus : IsSign ['+'] 1
  | minus : IsSign ['-'] (-1)

/-- A fraction and its digits. -/
inductive IsFraction : List Char → List Char → Prop where
  | none : IsFraction [] []
  | digits {ds : List Char} (h : IsDigits ds) : IsFraction ('.' :: ds) ds

/-- An exponent and its value. -/
inductive IsExponent : List Char → Int → Prop where
  | none : IsExponent [] 0
  | digits {mark : Char} {sign ds : List Char} {s : Int} (hm : mark = 'e' ∨ mark = 'E')
    (hs : IsSign sign s) (h : IsDigits ds) :
    IsExponent (mark :: (sign ++ ds)) (s * digitsValue ds)

/-- The number with a sign, digits before and after the point, and an exponent. -/
def value (sign : Int) (whole fraction : List Char) (exponent : Int) : ℚ :=
  sign * (digitsValue whole + digitsValue fraction / 10 ^ fraction.length) * 10 ^ exponent

/-- A number of the grammar, and the rational number that it denotes. No plus stands in front of
it. -/
inductive Denotes : List Char → ℚ → Prop where
  | mk {sign whole fraction digits exponent : List Char} {s x : Int} (hs : IsSign sign s)
    (hplus : sign ≠ ['+']) (hw : IsWhole whole) (hf : IsFraction fraction digits)
    (he : IsExponent exponent x) :
    Denotes (sign ++ (whole ++ (fraction ++ exponent))) (value s whole digits x)

/-! ## The parts of a number -/

theorem IsWhole.all_isDigit {cs : List Char} (h : IsWhole cs) : cs.all Char.isDigit = true := by
  cases h with
  | zero => decide
  | digits _ h => exact h

theorem IsWhole.ne_nil {cs : List Char} (h : IsWhole cs) : cs ≠ [] := by
  cases h <;> exact List.cons_ne_nil _ _

/-- The whole part of a number is at least one digit. -/
theorem IsWhole.isDigits {cs : List Char} (h : IsWhole cs) : IsDigits cs :=
  ⟨h.ne_nil, h.all_isDigit⟩

/-- A number begins with a digit. -/
theorem IsWhole.head?_append {whole rest : List Char} (h : IsWhole whole) :
    ∀ c ∈ (whole ++ rest).head?, c.isDigit = true := by
  intro c hc
  cases h with
  | zero => cases hc; decide
  | digits _ h =>
    cases hc
    rw [List.all_cons, Bool.and_eq_true] at h
    exact h.1

/-- What follows the integer part starts with no digit. -/
theorem IsFraction.head?_append {fraction digits exponent : List Char} {x : Int}
    (hf : IsFraction fraction digits) (he : IsExponent exponent x) :
    ∀ c ∈ (fraction ++ exponent).head?, c.isDigit = false := by
  intro c hc
  cases hf with
  | digits _ => cases hc; decide
  | none =>
    cases he with
    | none => cases hc
    | digits hm _ _ =>
      cases hc
      rcases hm with rfl | rfl <;> decide

/-- An exponent does not begin with a digit, so the digits in front of it end there. -/
theorem IsExponent.head? {exponent : List Char} {x : Int} (he : IsExponent exponent x) :
    ∀ c ∈ exponent.head?, c.isDigit = false :=
  IsFraction.none.head?_append he

/-- A fraction has a point, which is neither a digit nor an underscore. -/
theorem IsFraction.eq_nil {fraction digits : List Char} (hf : IsFraction fraction digits)
    (h : ∀ c ∈ fraction, c ≠ '_' → c.isDigit = true) : fraction = [] ∧ digits = [] := by
  cases hf with
  | none => exact ⟨rfl, rfl⟩
  | digits _ => exact absurd (h '.' (List.mem_cons_self ..) (by decide)) (by decide)

/-- An exponent has a mark, which is neither a digit nor an underscore. -/
theorem IsExponent.eq_nil {exponent : List Char} {x : Int} (he : IsExponent exponent x)
    (h : ∀ c ∈ exponent, c ≠ '_' → c.isDigit = true) : exponent = [] ∧ x = 0 := by
  cases he with
  | none => exact ⟨rfl, rfl⟩
  | digits hm _ _ =>
    have hmark := h _ (List.mem_cons_self ..)
    rcases hm with rfl | rfl <;> exact absurd (hmark (by decide)) (by decide)

/-! ## A text denotes one number -/

/-- Digits in front of something that starts with none are cut off in one way. -/
theorem append_inj_of_digits {ds es rest tail : List Char} (hd : IsDigits ds) (he : IsDigits es)
    (hrest : ∀ c ∈ rest.head?, c.isDigit = false) (htail : ∀ c ∈ tail.head?, c.isDigit = false)
    (h : ds ++ rest = es ++ tail) : ds = es ∧ rest = tail := by
  have hread := digits1?_append hd.1 hd.2 hrest
  rw [h, digits1?_append he.1 he.2 htail, Option.some.injEq, Prod.mk.injEq] at hread
  exact ⟨hread.1.symm, hread.2.symm⟩

theorem IsDigits.head? {ds : List Char} (h : IsDigits ds) :
    ∀ c ∈ ds.head?, c.isDigit = true := by
  intro c hc
  exact List.all_eq_true.mp h.2 c (List.mem_of_head? hc)

/-- A sign is followed by a digit, and is none itself. -/
theorem sign_append_inj {sign sign' cs cs' : List Char} {s s' : Int} (hs : IsSign sign s)
    (hs' : IsSign sign' s') (hc : ∀ c ∈ cs.head?, c.isDigit = true)
    (hc' : ∀ c ∈ cs'.head?, c.isDigit = true) (h : sign ++ cs = sign' ++ cs') :
    s = s' ∧ cs = cs' := by
  have hsign : ∀ {ds es : List Char} {c : Char}, (∀ d ∈ ds.head?, d.isDigit = true) →
      ds = c :: es → c.isDigit = true := by
    intro ds es c hd he
    exact hd c (by rw [he]; rfl)
  cases hs <;> cases hs' <;>
    first
    | exact ⟨rfl, by simpa using h⟩
    | exact absurd (hsign hc h) (by decide)
    | exact absurd (hsign hc' h.symm) (by decide)
    | exact absurd (List.cons.injEq .. ▸ h).1 (by decide)

/-- An exponent has one value: its sign is the part in front of the digits. -/
theorem IsExponent.unique {exponent : List Char} {x y : Int} (hx : IsExponent exponent x)
    (hy : IsExponent exponent y) : x = y := by
  generalize hcs : exponent = cs at hy
  cases hx with
  | none =>
    cases hy with
    | none => rfl
    | digits _ _ _ => cases hcs
  | digits _ hs h =>
    cases hy with
    | none => cases hcs
    | digits _ hs' h' =>
      obtain ⟨rfl, rfl⟩ := sign_append_inj hs hs' h.head? h'.head? (List.cons.injEq .. ▸ hcs).2
      rfl

/-- A fraction and an exponent can be told apart in what stands behind the whole part. -/
theorem IsFraction.append_inj {fraction fraction' digits digits' exponent exponent' : List Char}
    {x y : Int} (hf : IsFraction fraction digits) (hf' : IsFraction fraction' digits')
    (hx : IsExponent exponent x) (hy : IsExponent exponent' y)
    (h : fraction ++ exponent = fraction' ++ exponent') :
    digits = digits' ∧ exponent = exponent' := by
  -- a point is no mark of an exponent
  have hpoint : ∀ {cs e : List Char} {z : Int}, IsExponent e z → e ≠ '.' :: cs := by
    intro cs e z he heq
    cases he with
    | none => cases heq
    | digits hm _ _ =>
      rcases hm with rfl | rfl <;> cases heq
  cases hf with
  | none =>
    cases hf' with
    | none => exact ⟨rfl, h⟩
    | digits _ => exact absurd h (hpoint hx)
  | digits hd =>
    cases hf' with
    | none => exact absurd h.symm (hpoint hy)
    | digits hd' => exact
      append_inj_of_digits hd hd' hx.head? hy.head? (List.cons.injEq .. ▸ h).2

/-- **A text denotes one number at most.** -/
theorem Denotes.unique {cs : List Char} {p q : ℚ} (hp : Denotes cs p) (hq : Denotes cs q) :
    p = q := by
  generalize hcs : cs = ds at hq
  obtain ⟨hs, _, hw, hf, he⟩ := hp
  obtain ⟨hs', _, hw', hf', he'⟩ := hq
  obtain ⟨rfl, hunsigned⟩ := sign_append_inj hs hs' hw.head?_append hw'.head?_append hcs
  obtain ⟨rfl, htail⟩ := append_inj_of_digits hw.isDigits hw'.isDigits (hf.head?_append he)
    (hf'.head?_append he') hunsigned
  obtain ⟨rfl, rfl⟩ := hf.append_inj hf' he he' htail
  rw [he.unique he']

/-! ## Digits under a sign -/

/-- Digits in two groups. -/
theorem digitsValue_append (ds es : List Char) :
    digitsValue (ds ++ es) = digitsValue ds * 10 ^ es.length + digitsValue es := by
  simp only [digitsValue_eq_ofDigitChars, Nat.ofDigitChars_append]
  rw [Nat.ofDigitChars_eq_ofDigitChars_zero, Nat.mul_comm]

/-- The digits of the whole and of the fraction as those of one number. -/
theorem value_eq (s : Int) (whole fraction : List Char) (x : Int) :
    value s whole fraction x =
      (s * (digitsValue (whole ++ fraction) : Int) : Int) / 10 ^ fraction.length * 10 ^ x := by
  have hpow : (10 : ℚ) ^ fraction.length ≠ 0 := pow_ne_zero _ (by norm_num)
  unfold value
  rw [digitsValue_append]
  push_cast
  field_simp

/-- The sign in front of digits is split off, and gives its factor. -/
theorem splitSign_append {sign cs : List Char} {s : Int} (hs : IsSign sign s)
    (hc : ∀ c ∈ cs.head?, c.isDigit = true) :
    ∃ negative, splitSign (sign ++ cs) = (negative, cs) ∧ ∀ n, withSign negative n = s * n := by
  cases hs with
  | plus => exact ⟨false, rfl, fun n => by simp [withSign]⟩
  | minus => exact ⟨true, rfl, fun n => by simp [withSign]⟩
  | none =>
    cases cs with
    | nil => exact ⟨false, rfl, fun n => by simp [withSign]⟩
    | cons c cs =>
      exact ⟨false, splitSign_of_isDigit (hc c rfl) cs, fun n => by simp [withSign]⟩

/-- A sign and digits read back as their value. -/
theorem signed?_append {sign ds : List Char} {s : Int} (hs : IsSign sign s) (h : IsDigits ds) :
    signed? (sign ++ ds) = some (s * digitsValue ds) := by
  obtain ⟨negative, hsplit, hsign⟩ := splitSign_append hs h.head?
  unfold signed?
  rw [hsplit]
  dsimp only
  rw [natural?_eq_some h.1 h.2, Option.map_some, hsign]

/-! ## Whole numbers -/

/-- A text with digits behind its sign, and underscores if any, is a sign and an integer part. -/
theorem Denotes.of_digits {cs : List Char} {q : ℚ} (h : Denotes cs q)
    (hd : ∀ c ∈ (splitSign cs).2, c ≠ '_' → c.isDigit = true) :
    ∃ sign whole s negative, cs = sign ++ whole ∧ IsSign sign s ∧ sign ≠ ['+'] ∧ IsWhole whole ∧
      splitSign cs = (negative, whole) ∧ (∀ n, withSign negative n = s * n) ∧
      q = (s * digitsValue whole : Int) := by
  obtain ⟨hs, hplus, hw, hf, he⟩ := h
  obtain ⟨negative, hsplit, hsign⟩ := splitSign_append hs hw.head?_append
  rw [hsplit] at hd ⊢
  obtain ⟨rfl, rfl⟩ := hf.eq_nil fun c hc => hd c (by simp [hc])
  obtain ⟨rfl, rfl⟩ := he.eq_nil fun c hc => hd c (by simp [hc])
  simp only [List.append_nil]
  refine ⟨_, _, _, negative, rfl, hs, hplus, hw, rfl, hsign, ?_⟩
  simp [value, digitsValue]

/-- **A whole number that is read is the number that its text denotes.** -/
theorem eq_of_grouped? {cs : List Char} {q : ℚ} {n : Int} (h : Denotes cs q)
    (hn : grouped? cs = some n) : q = n := by
  unfold grouped? at hn
  dsimp only at hn
  split at hn
  · cases hn
  · obtain ⟨k, hk, rfl⟩ := Option.map_eq_some_iff.mp hn
    obtain ⟨-, hall, rfl⟩ := natural?_eq_some_iff.mp hk
    obtain ⟨sign, whole, s, negative, -, -, -, hw, hsplit, hsign, rfl⟩ := h.of_digits
      fun c hc hu => List.all_eq_true.mp hall c (List.mem_filter.mpr ⟨hc, bne_iff_ne.mpr hu⟩)
    rw [hsplit, filter_underscore hw.all_isDigit, hsign]

/-- A positive number of 64 bits is written in one way. -/
theorem eq_natText_of_int64? {text : String} {q : ℚ} {n : Nat} (h : Denotes text.toList q)
    (hpos : 0 < n) (hn : int64? text.toList = some (n : Int)) : text = natText n := by
  obtain ⟨hsigned, -⟩ := Option.filter_eq_some_iff.mp hn
  unfold signed? at hsigned
  dsimp only at hsigned
  obtain ⟨k, hk, hsign⟩ := Option.map_eq_some_iff.mp hsigned
  obtain ⟨-, hall, rfl⟩ := natural?_eq_some_iff.mp hk
  obtain ⟨sign, whole, s, negative, htext, hs, hplus, hw, hsplit, hfactor, -⟩ :=
    h.of_digits fun c hc _ => List.all_eq_true.mp hall c hc
  rw [hsplit, hfactor] at hsign
  -- neither a minus nor a zero alone writes a positive number
  cases hs with
  | plus => exact absurd rfl hplus
  | minus => omega
  | none =>
    rw [one_mul, Nat.cast_inj] at hsign
    cases hw with
    | zero => exact absurd hsign (Nat.ne_of_lt hpos)
    | digits hc hds =>
      apply String.toList_inj.mp
      rw [natText, String.toList_ofList, ← hsign, (decimalDigits_digitsValue hc hds).2, htext]
      rfl

end Stencil.Json.Number

/-! ## Decimals -/

namespace Stencil.Decimal

open Stencil.Text Stencil.Json.Number

/-- The rational number that a decimal is. -/
def value (d : Decimal) : ℚ :=
  d.unscaled / 10 ^ d.scale

/-- Shifting the point is exact. -/
theorem value_of_shifted? {u : Int} {n : Nat} {x : Int} {d : Decimal}
    (h : shifted? u n x = some d) : d.value = u / 10 ^ n * 10 ^ x := by
  have hten : (10 : ℚ) ≠ 0 := by norm_num
  unfold shifted? at h
  dsimp only at h
  split at h
  · cases h
  · split at h
    · next hle =>
      cases h
      have hpow : (10 : ℚ) ^ ((n : Int) - x).natAbs = 10 ^ n / 10 ^ x := by
        rw [← zpow_natCast, Int.natAbs_of_nonneg hle, zpow_sub₀ hten, zpow_natCast]
      rw [value, hpow]
      field_simp
    · next hlt =>
      cases h
      have hpow : (10 : ℚ) ^ ((n : Int) - x).natAbs = 10 ^ x / 10 ^ n := by
        rw [← zpow_natCast, Int.ofNat_natAbs_of_nonpos (by omega), neg_sub, zpow_sub₀ hten,
          zpow_natCast]
      rw [value, Nat.pow_eq]
      push_cast
      rw [hpow]
      field_simp

/-! ## The format of decimals -/

/-- What may stand behind the whole digits: a point and digits, of which there may be none. -/
inductive IsTail : List Char → List Char → Prop where
  | none : IsTail [] []
  | digits {ds : List Char} (h : ds.all Char.isDigit = true) : IsTail ('.' :: ds) ds

/-- The format of decimals, with the parts of a text in it: the sign, the digits before and after
the point, and the exponent. It has more texts than the grammar of JSON numbers, with plus signs,
zeros in front, and points without digits behind them. -/
inductive Writes : List Char → Int → List Char → List Char → Int → Prop where
  | mk {sign whole tail fraction exponent : List Char} {s x : Int} (hs : IsSign sign s)
    (hw : IsDigits whole) (ht : IsTail tail fraction) (he : IsExponent exponent x) :
    Writes (sign ++ (whole ++ (tail ++ exponent))) s whole fraction x

/-- A fraction of the grammar is a tail of the format. -/
theorem isTail_of_isFraction {fraction digits : List Char} (h : IsFraction fraction digits) :
    IsTail fraction digits := by
  cases h with
  | none => exact .none
  | digits h => exact .digits h.2

/-- A mantissa has no exponent mark, so that the exponent is what its digits say. -/
theorem splitExponent?_append {mantissa exponent : List Char} {x : Int}
    (hm : ∀ c ∈ mantissa, (c == 'e' || c == 'E') = false) (he : IsExponent exponent x) :
    splitExponent? (mantissa ++ exponent) =
      if fitsInt64 x = true then some (mantissa, x) else none := by
  cases he with
  | none =>
    rw [List.append_nil, splitExponent?_of_all hm]
    rfl
  | digits hmark hs hd =>
    have hall : ∀ c ∈ mantissa, (!(c == 'e' || c == 'E')) = true :=
      fun c hc => by rw [hm c hc]; rfl
    unfold splitExponent?
    dsimp only
    rw [List.takeWhile_append_of_pos hall, List.dropWhile_append_of_pos hall,
      List.takeWhile_cons_of_neg (by rcases hmark with rfl | rfl <;> decide),
      List.dropWhile_cons_of_neg (by rcases hmark with rfl | rfl <;> decide),
      List.append_nil]
    dsimp only
    rw [int64?, signed?_append hs hd, Option.filter_some]
    split <;> rfl

/-- A sign is neither an exponent mark nor a point. -/
theorem isSign_plain {sign : List Char} {s : Int} (hs : IsSign sign s) :
    ∀ c ∈ sign, (c == 'e' || c == 'E') = false ∧ c ≠ '.' := by
  cases hs <;> simp

/-- No mark of an exponent stands among the digits behind the point. -/
theorem isTail_plain {tail fraction : List Char} (ht : IsTail tail fraction) :
    ∀ c ∈ tail, (c == 'e' || c == 'E') = false := by
  intro c hc
  cases ht with
  | none => cases hc
  | digits h =>
    rcases List.mem_cons.mp hc with rfl | hc
    · decide
    · exact (isDigit_plain (List.all_eq_true.mp h c hc)).1

/-- **What is read of a text in the format**: its digits as one number under its sign, with the
point shifted by the exponent, unless that takes more than a word. -/
theorem ofChars?_of_writes {cs whole fraction : List Char} {s x : Int}
    (h : Writes cs s whole fraction x) :
    ofChars? cs = if fitsInt64 x = true
      then shifted? (s * digitsValue (whole ++ fraction)) fraction.length x else none := by
  obtain ⟨hs, hw, ht, he⟩ := h
  rename_i sign tail exponent
  have hdigits : ∀ c ∈ whole, c.isDigit = true := List.all_eq_true.mp hw.2
  have hfront : ∀ c ∈ sign ++ whole, (c == 'e' || c == 'E') = false ∧ c ≠ '.' := by
    intro c hc
    rcases List.mem_append.mp hc with hc | hc
    · exact isSign_plain hs c hc
    · exact isDigit_plain (hdigits c hc)
  have hmantissa : ∀ c ∈ sign ++ whole ++ tail, (c == 'e' || c == 'E') = false := by
    intro c hc
    rcases List.mem_append.mp hc with hc | hc
    · exact (hfront c hc).1
    · exact isTail_plain ht c hc
  have hpoint : splitPoint (sign ++ whole ++ tail) = (sign ++ whole, fraction) := by
    have htail : tail = [] ∨ ∃ ds, tail = '.' :: ds := by
      cases ht with
      | none => exact Or.inl rfl
      | digits _ => exact Or.inr ⟨_, rfl⟩
    rw [splitPoint_append (fun c hc => (hfront c hc).2) htail]
    cases ht <;> rfl
  have hfraction : fraction.all Char.isDigit = true := by
    cases ht with
    | none => rfl
    | digits h => exact h
  obtain ⟨negative, hsign, hfactor⟩ := splitSign_append hs hw.head?
  -- the text is taken apart as the format puts it together: exponent, point, sign
  unfold ofChars?
  rw [← List.append_assoc, ← List.append_assoc, splitExponent?_append hmantissa he]
  by_cases hfits : fitsInt64 x = true
  · rw [if_pos hfits, if_pos hfits, Option.bind_eq_bind, Option.bind_some]
    dsimp only
    rw [hpoint]
    dsimp only
    rw [hsign]
    dsimp only
    rw [natural?_eq_some hw.1 hw.2, Option.bind_eq_bind, Option.bind_some, hfraction, hfactor]
    rfl
  · rw [if_neg hfits, if_neg hfits]
    rfl

/-- **A decimal that is read is the number that its text denotes.** -/
theorem value_of_ofChars? {cs : List Char} {q : ℚ} {d : Decimal} (h : Denotes cs q)
    (hd : ofChars? cs = some d) : d.value = q := by
  obtain ⟨hs, -, hw, hf, he⟩ := h
  rw [ofChars?_of_writes (.mk hs hw.isDigits (isTail_of_isFraction hf) he)] at hd
  split at hd
  · rw [value_of_shifted? hd, value_eq]
  · cases hd

/-- The digits in front of the point have no zero in front of others. -/
theorem isWhole_wholeDigits (d : Decimal) : IsWhole d.wholeDigits := by
  have hall := d.all_isDigit_wholeDigits
  rcases d.wholeDigits_zero_or with h | ⟨c, cs, h, hc⟩
  · rw [h]
    exact .zero
  · rw [h] at hall ⊢
    exact .digits hc hall

/-- **The text of a decimal denotes the decimal.** -/
theorem denotes_text (d : Decimal) : Denotes d.text.toList d.value := by
  obtain ⟨s, hs, hplus, hunscaled⟩ : ∃ s, IsSign d.signChars s ∧ d.signChars ≠ ['+'] ∧
      s * d.unscaled.natAbs = d.unscaled := by
    unfold signChars
    by_cases h : d.unscaled < 0
    · rw [if_pos h]
      exact ⟨-1, .minus, by decide, by omega⟩
    · rw [if_neg h]
      exact ⟨1, .none, by decide, by omega⟩
  have hf : IsFraction d.fractionText d.fractionDigits := by
    unfold fractionText
    by_cases h : d.scale = 0
    · rw [if_pos h, fractionDigits_eq_nil h]
      exact .none
    · rw [if_neg h]
      refine .digits ⟨fun he => h ?_, d.all_isDigit_fractionDigits⟩
      rw [← d.length_fractionDigits, he, List.length_nil]
  have hvalue : Json.Number.value s d.wholeDigits d.fractionDigits 0 = d.value := by
    rw [value_eq, whole_append_fraction, digitsValue_allDigits, length_fractionDigits, hunscaled,
      zpow_zero, mul_one, value]
  have h := Denotes.mk hs hplus d.isWhole_wholeDigits hf .none
  rw [hvalue, List.append_nil, ← List.append_assoc, ← chars_eq] at h
  rw [text, String.toList_ofList]
  exact h

/-- **The text of a whole number denotes the number.** -/
theorem denotes_intText (n : Int) : Denotes (intText n).toList n := by
  have h := denotes_text ⟨n, 0⟩
  rw [← intText_eq_text] at h
  simpa [value] using h

end Stencil.Decimal
