import Stencil.Proofs.NumberText

/-!
# Decimals keep their digits

The text of a decimal has as many digits after the point as its scale says, and reads back as the
decimal. The other way round, digits with a point between them are read and shown again digit by
digit, up to zeros in front: a list of digits is determined by its length and the number that it
writes, and a number without needless zeros by what it writes alone. So nothing of a literal is lost
between its source and the exchange format.

> `eq_of_digitsValue`: digits of one length that write one number are the same.
> `decimalDigits_of_isWhole`: a number without needless zeros is written by its digits.
> `text_keepsDigits`: decimals read back, and show the digits that were read.
-/

namespace Stencil.Decimal

open Stencil.Text Stencil.Json.Number

/-! ## What digits write -/

theorem digitsValue_cons (c : Char) (ds : List Char) :
    digitsValue (c :: ds) = digitValue c * 10 ^ ds.length + digitsValue ds := by
  have hone : digitsValue [c] = digitValue c := by simp [digitsValue]
  rw [← List.singleton_append, digitsValue_append, hone]

/-- Digits write a number below the power of ten with as many zeros. -/
theorem digitsValue_lt {ds : List Char} (h : ds.all Char.isDigit = true) :
    digitsValue ds < 10 ^ ds.length := by
  induction ds with
  | nil => exact Nat.zero_lt_one
  | cons c ds ih =>
    rw [List.all_cons, Bool.and_eq_true] at h
    have hc := (digitChar_digitValue h.1).1
    have hds := ih h.2
    rw [digitsValue_cons, List.length_cons, pow_succ]
    have hmul : digitValue c * 10 ^ ds.length ≤ 9 * 10 ^ ds.length :=
      Nat.mul_le_mul_right _ (Nat.le_of_lt_succ hc)
    omega

/-- A number splits in one way into a multiple of a power and what is less than the power. -/
theorem eq_of_mul_add_eq {a b a' b' p : Nat} (hb : b < p) (hb' : b' < p)
    (h : a * p + b = a' * p + b') : a = a' ∧ b = b' := by
  have hp : 0 < p := by omega
  have hdiv := congrArg (· / p) h
  have hmod := congrArg (· % p) h
  simp only [Nat.mul_comm _ p, Nat.mul_add_div hp, Nat.div_eq_of_lt hb, Nat.div_eq_of_lt hb',
    Nat.add_zero] at hdiv
  simp only [Nat.mul_add_mod_self_right, Nat.mod_eq_of_lt hb, Nat.mod_eq_of_lt hb'] at hmod
  exact ⟨hdiv, hmod⟩

/-- **Digits of one length** that write one number are the same. -/
theorem eq_of_digitsValue {ds es : List Char} (hd : ds.all Char.isDigit = true)
    (he : es.all Char.isDigit = true) (hlength : ds.length = es.length)
    (hvalue : digitsValue ds = digitsValue es) : ds = es := by
  induction ds generalizing es with
  | nil => exact (List.length_eq_zero_iff.mp hlength.symm).symm
  | cons c ds ih =>
    cases es with
    | nil => cases hlength
    | cons e es =>
      rw [List.all_cons, Bool.and_eq_true] at hd he
      have hlength : ds.length = es.length := Nat.succ.inj hlength
      rw [digitsValue_cons, digitsValue_cons, hlength] at hvalue
      obtain ⟨hfirst, hrest⟩ :=
        eq_of_mul_add_eq (hlength ▸ digitsValue_lt hd.2) (digitsValue_lt he.2) hvalue
      rw [ih hd.2 he.2 hlength hrest, ← (digitChar_digitValue hd.1).2, hfirst,
        (digitChar_digitValue he.1).2]

/-- **A number without needless zeros** is written by the digits of its value. -/
theorem decimalDigits_of_isWhole {whole : List Char} (h : IsWhole whole) :
    decimalDigits (digitsValue whole) = whole := by
  cases h with
  | zero => rfl
  | digits hc hall => exact (decimalDigits_digitsValue hc hall).2

/-! ## Zeros in front -/

/-- Digits without the zeros in front that are not needed. -/
def withoutZeros : List Char → List Char
  | '0' :: d :: ds => withoutZeros (d :: ds)
  | ds => ds

/-- Without the zeros in front, digits are a whole part of the grammar. -/
theorem isWhole_withoutZeros {ds : List Char} (h : IsDigits ds) : IsWhole (withoutZeros ds) := by
  obtain ⟨hne, hall⟩ := h
  induction ds using withoutZeros.induct with
  | case1 d ds ih =>
    rw [withoutZeros]
    exact ih (List.cons_ne_nil _ _) (by simpa using hall)
  | case2 ds hzero =>
    cases ds with
    | nil => exact absurd rfl hne
    | cons c ds =>
      by_cases hc : c = '0'
      · subst hc
        cases ds with
        | nil => exact .zero
        | cons d ds => exact absurd rfl (hzero d ds)
      · rw [withoutZeros]
        · exact .digits hc hall
        · exact hzero

theorem digitsValue_withoutZeros (ds : List Char) :
    digitsValue (withoutZeros ds) = digitsValue ds := by
  induction ds using withoutZeros.induct with
  | case1 d ds ih =>
    rw [withoutZeros, ih]
    exact (digitsValue_replicate_zero_append 1 (d :: ds)).symm
  | case2 ds hzero =>
    rw [withoutZeros]
    exact hzero

/-! ## Decimals -/

/-- What is read of digits with a point between them. -/
theorem ofText?_digits {whole fraction : List Char} (hw : IsDigits whole) (hf : IsDigits fraction)
    (hlength : fraction.length ≤ maxShift) :
    ofText? (String.ofList (whole ++ '.' :: fraction)) =
      some ⟨digitsValue (whole ++ fraction), fraction.length⟩ := by
  have hwrites : Writes (whole ++ '.' :: fraction) 1 whole fraction 0 := by
    have h := Writes.mk .none hw (.digits hf.2) .none
    rwa [List.append_nil] at h
  have hfits : fitsInt64 0 = true := by decide
  rw [ofText?, String.toList_ofList, ofChars?_of_writes hwrites, if_pos hfits, one_mul,
    shifted?_zero hlength]

/-- What is shown of a number whose digits are known. Before and after the point stand as many
digits as there were, and they write the same numbers. -/
theorem text_digits {whole fraction : List Char} (hw : IsDigits whole) (hf : IsDigits fraction) :
    Decimal.text ⟨digitsValue (whole ++ fraction), fraction.length⟩ =
      String.ofList (withoutZeros whole ++ '.' :: fraction) := by
  generalize hd : Decimal.mk (digitsValue (whole ++ fraction)) fraction.length = d
  have hunscaled : d.unscaled = digitsValue (whole ++ fraction) := by rw [← hd]
  have hscale : d.fractionDigits.length = fraction.length := by
    rw [length_fractionDigits, ← hd]
  have hvalue : digitsValue (d.wholeDigits ++ d.fractionDigits) =
      digitsValue (whole ++ fraction) := by
    rw [whole_append_fraction, digitsValue_allDigits, hunscaled, Int.natAbs_natCast]
  rw [digitsValue_append, digitsValue_append, hscale] at hvalue
  obtain ⟨hwhole, hfraction⟩ := eq_of_mul_add_eq
    (hscale ▸ digitsValue_lt d.all_isDigit_fractionDigits) (digitsValue_lt hf.2) hvalue
  have hfront : d.wholeDigits = withoutZeros whole := by
    rw [← decimalDigits_of_isWhole d.isWhole_wholeDigits, hwhole, ← digitsValue_withoutZeros,
      decimalDigits_of_isWhole (isWhole_withoutZeros hw)]
  have hbehind : d.fractionDigits = fraction :=
    eq_of_digitsValue d.all_isDigit_fractionDigits hf.2 hscale hfraction
  have hsign : d.signChars = [] := by
    rw [signChars, hunscaled, if_neg (Int.not_lt.mpr (Int.natCast_nonneg _))]
  have hpoint : d.scale ≠ 0 := by
    rw [← d.length_fractionDigits, hbehind]
    exact fun h => hf.1 (List.length_eq_zero_iff.mp h)
  rw [text, chars_eq, hsign, hfront, fractionText, if_neg hpoint, hbehind, List.nil_append]

/-- The text shows so many digits after the point, and no point if that is none. -/
def ShowsScale (cs : List Char) (scale : Nat) : Prop :=
  (scale = 0 → '.' ∉ cs) ∧ (0 < scale → ∃ front fraction, cs = front ++ '.' :: fraction ∧
    '.' ∉ front ∧ IsDigits fraction ∧ fraction.length = scale)

/-- The text of a decimal shows as many digits behind the point as its scale says. -/
theorem showsScale_text (d : Decimal) : ShowsScale d.text.toList d.scale := by
  have hfront : '.' ∉ d.signChars ++ d.wholeDigits := by
    intro h
    rcases List.mem_append.mp h with h | h
    · unfold signChars at h
      split at h
      · cases List.mem_singleton.mp h
      · cases h
    · exact absurd (List.all_eq_true.mp d.all_isDigit_wholeDigits _ h) (by decide)
  rw [text, String.toList_ofList, chars_eq, fractionText]
  refine ⟨fun hz => ?_, fun hpos => ?_⟩
  · rw [if_pos hz, List.append_nil]
    exact hfront
  · rw [if_neg (Nat.ne_of_gt hpos)]
    refine ⟨_, _, rfl, hfront, ⟨fun h => ?_, d.all_isDigit_fractionDigits⟩,
      d.length_fractionDigits⟩
    rw [← d.length_fractionDigits, h] at hpos
    exact absurd hpos (Nat.lt_irrefl 0)

/-- **Decimals keep their digits.** The text of a decimal is a JSON number, which denotes the
decimal and is kept letter for letter, and it shows as many digits after the point as the scale
says. If the scale is one that a literal may have, the decimal reads back from it. Digits with a
point between them are read, and shown again without the zeros in front that are not needed. -/
theorem text_keepsDigits :
    (∀ d : Decimal, Denotes d.text.toList d.value ∧
      Json.Number.ofText? d.text = some (.number d.text) ∧ ShowsScale d.text.toList d.scale) ∧
    (∀ d : Decimal, d.scale ≤ 4096 → ofText? d.text = some d) ∧
    ∀ whole fraction, IsDigits whole → IsDigits fraction → fraction.length ≤ 4096 →
      ∃ d, ofText? (String.ofList (whole ++ '.' :: fraction)) = some d ∧
        d.text = String.ofList (withoutZeros whole ++ '.' :: fraction) := by
  refine ⟨fun d => ⟨denotes_text d, ofText?_decimal d, showsScale_text d⟩, fun d h => ?_, ?_⟩
  · exact ofText?_text h
  · intro whole fraction hw hf hlength
    exact ⟨_, ofText?_digits hw hf hlength, text_digits hw hf⟩

/-- A negative number below one, and a literal with zeros in front and at the end. -/
theorem text_keepsDigits_small :
    Decimal.text ⟨-5, 2⟩ = "-0.05" ∧ ofText? "-0.05" = some ⟨-5, 2⟩ ∧
      IsDigits "007".toList ∧ IsDigits "50".toList ∧
      ∃ d, ofText? "007.50" = some d ∧ d.text = "7.50" := by
  have htext : Decimal.text ⟨-5, 2⟩ = "-0.05" := by decide
  have hdigits : IsDigits "007".toList ∧ IsDigits "50".toList := by
    unfold IsDigits
    decide
  obtain ⟨-, hread, hshown⟩ := text_keepsDigits
  have hback := hread ⟨-5, 2⟩ (by decide)
  rw [htext] at hback
  have hsource : String.ofList ("007".toList ++ '.' :: "50".toList) = "007.50" := by decide
  have hresult : String.ofList (withoutZeros "007".toList ++ '.' :: "50".toList) = "7.50" := by
    decide
  have hliteral := hshown _ _ hdigits.1 hdigits.2 (by decide)
  rw [hsource, hresult] at hliteral
  exact ⟨htext, hback, hdigits.1, hdigits.2, hliteral⟩

end Stencil.Decimal
