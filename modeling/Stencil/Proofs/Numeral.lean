import Mathlib.Data.List.Induction
import Stencil.Text.Numeral

/-!
# Numerals read back

`decimalDigits` writes a number and `digitsValue` reads it. This file proves that the two are
inverse, also below a sign, and says what the digits of a number look like: there is at least one,
all are ASCII digits, and a zero stands in front only if it stands alone.

> `grouped?_intChars`: reading the text of a whole number gives the number.
-/

namespace Stencil.Text

/-! ## The digits of a number -/

theorem decimalDigits_ne_nil (n : Nat) : decimalDigits n ≠ [] :=
  Nat.toDigits_ne_nil

theorem length_decimalDigits_pos (n : Nat) : 0 < (decimalDigits n).length :=
  Nat.length_toDigits_pos

theorem isDigit_of_mem_decimalDigits {n : Nat} {c : Char} (h : c ∈ decimalDigits n) :
    c.isDigit = true :=
  Nat.isDigit_of_mem_toDigits (by decide) (by decide) h

/-- Numerals are made of digits. -/
theorem all_isDigit_decimalDigits (n : Nat) : (decimalDigits n).all Char.isDigit = true :=
  List.all_eq_true.mpr fun _ h => isDigit_of_mem_decimalDigits h

/-- Only the number zero is written with a zero in front. -/
theorem head?_decimalDigits_of_pos {n : Nat} (h : 0 < n) : (decimalDigits n).head? ≠ some '0' := by
  induction n using Nat.strongRecOn with
  | ind n ih =>
    unfold decimalDigits
    rw [Nat.toDigits_eq_if (by decide)]
    split
    · next hlt =>
      intro hz
      have hdigit : n.digitChar = '0' := by simpa using hz
      have hall : ∀ m < 10, 0 < m → m.digitChar ≠ '0' := by decide
      exact hall n hlt h hdigit
    · next hge =>
      obtain ⟨c, cs, hcs⟩ :=
        List.exists_cons_of_ne_nil (Nat.toDigits_ne_nil (n := n / 10) (b := 10))
      have hrec := ih (n / 10) (by omega) (by omega)
      unfold decimalDigits at hrec
      rw [hcs] at hrec ⊢
      exact hrec

/-! ## Reading digits -/

theorem digitsValue_eq_ofDigitChars (ds : List Char) :
    digitsValue ds = Nat.ofDigitChars 10 ds 0 :=
  rfl

/-- The digits of a number have its value. -/
theorem digitsValue_decimalDigits (n : Nat) : digitsValue (decimalDigits n) = n := by
  rw [digitsValue_eq_ofDigitChars]
  exact Nat.ofDigitChars_ten_toDigits

/-- Zeros in front of digits change nothing. -/
theorem digitsValue_replicate_zero_append (k : Nat) (ds : List Char) :
    digitsValue (List.replicate k '0' ++ ds) = digitsValue ds := by
  simp only [digitsValue_eq_ofDigitChars, Nat.ofDigitChars_append,
    Nat.ofDigitChars_replicate_zero, Nat.mul_zero]

theorem natural?_eq_some {ds : List Char} (hne : ds ≠ []) (hall : ds.all Char.isDigit = true) :
    natural? ds = some (digitsValue ds) := by
  have he : ds.isEmpty = false := by cases ds with
    | nil => exact absurd rfl hne
    | cons c cs => rfl
  simp [natural?, he, hall]

/-- A text is read as a natural number if and only if it is digits, at least one, with this value.
-/
theorem natural?_eq_some_iff {ds : List Char} {n : Nat} :
    natural? ds = some n ↔ ds ≠ [] ∧ ds.all Char.isDigit = true ∧ digitsValue ds = n := by
  unfold natural?
  cases ds with
  | nil => simp
  | cons c cs => simp [and_assoc]

/-- The digits of a number read back as the number. -/
theorem natural?_decimalDigits (n : Nat) : natural? (decimalDigits n) = some n := by
  rw [natural?_eq_some (decimalDigits_ne_nil n) (all_isDigit_decimalDigits n),
    digitsValue_decimalDigits]

/-- A digit is below ten and is the character of its value. -/
theorem digitChar_digitValue {c : Char} (h : c.isDigit = true) :
    digitValue c < 10 ∧ (digitValue c).digitChar = c := by
  obtain ⟨hlow, hhigh⟩ := Char.isDigit_iff_toNat.mp h
  have hzero : '0'.toNat = 48 := rfl
  have hnine : '9'.toNat = 57 := rfl
  have hchar : ∀ k < 10, (Nat.digitChar k).toNat = k + 48 := by decide
  unfold digitValue
  refine ⟨by omega, Char.toNat_inj.mp ?_⟩
  rw [hchar _ (by omega)]
  omega

/-- Digits that start with no zero are those of their number. -/
theorem decimalDigits_digitsValue {c : Char} (hc : c ≠ '0') {ds : List Char}
    (hall : (c :: ds).all Char.isDigit = true) :
    0 < digitsValue (c :: ds) ∧ decimalDigits (digitsValue (c :: ds)) = c :: ds := by
  -- the last digit is the remainder by ten, so that the digits are taken from the end
  induction ds using List.reverseRecOn with
  | nil =>
    simp only [List.all_cons, List.all_nil, Bool.and_true] at hall
    obtain ⟨hlt, hchar⟩ := digitChar_digitValue hall
    have hvalue : digitsValue [c] = digitValue c := by simp [digitsValue]
    rw [hvalue]
    refine ⟨Nat.pos_of_ne_zero fun hz => hc ?_, ?_⟩
    · rw [← hchar, hz]
      rfl
    · unfold decimalDigits
      rw [Nat.toDigits_of_lt_base hlt, hchar]
  | append_singleton ds d ih =>
    rw [← List.cons_append, List.all_append, Bool.and_eq_true] at hall
    obtain ⟨hpos, hdigits⟩ := ih hall.1
    have hd : d.isDigit = true := by simpa using hall.2
    obtain ⟨hlt, hchar⟩ := digitChar_digitValue hd
    have hvalue : digitsValue (c :: ds ++ [d]) = 10 * digitsValue (c :: ds) + digitValue d := by
      simp [digitsValue]
    rw [← List.cons_append, hvalue]
    refine ⟨by omega, ?_⟩
    unfold decimalDigits at hdigits ⊢
    rw [← Nat.toDigits_append_toDigits (by decide) hpos hlt, hdigits, Nat.toDigits_of_lt_base hlt,
      hchar]

/-! ## Signs -/

/-- A digit is no sign. -/
theorem splitSign_of_isDigit {c : Char} (h : c.isDigit = true) (cs : List Char) :
    splitSign (c :: cs) = (false, c :: cs) := by
  unfold splitSign
  split
  · next heq => cases heq; exact absurd h (by decide)
  · next heq => cases heq; exact absurd h (by decide)
  · rfl

/-- Digits have no sign in front. -/
theorem splitSign_of_all_isDigit {ds : List Char} (hall : ds.all Char.isDigit = true) :
    splitSign ds = (false, ds) := by
  cases ds with
  | nil => rfl
  | cons c cs => exact splitSign_of_isDigit (by simp at hall; exact hall.1) cs

theorem splitSign_minus (cs : List Char) : splitSign ('-' :: cs) = (true, cs) :=
  rfl

/-- A whole number is its absolute value under its sign. -/
theorem withSign_natAbs (n : Int) : withSign (decide (n < 0)) n.natAbs = n := by
  unfold withSign
  by_cases h : n < 0
  · rw [if_pos (by simpa using h)]; omega
  · rw [if_neg (by simpa using h)]; omega

/-! ## Whole numbers -/

/-- A whole number has a minus sign if and only if it is negative. -/
theorem splitSign_intChars (n : Int) :
    splitSign (intChars n) = (decide (n < 0), decimalDigits n.natAbs) := by
  unfold intChars
  by_cases h : n < 0
  · rw [if_pos h, splitSign_minus, decide_eq_true h]
  · rw [if_neg h, splitSign_of_all_isDigit (all_isDigit_decimalDigits _), decide_eq_false h]

/-- Digits alone are read the same whether underscores are allowed or not. -/
theorem filter_underscore {ds : List Char} (hall : ds.all Char.isDigit = true) :
    ds.filter (· != '_') = ds := by
  rw [List.filter_eq_self]
  intro c hc
  have hd := List.all_eq_true.mp hall c hc
  rw [bne_iff_ne]
  intro he
  subst he
  exact absurd hd (by decide)

/-- Numerals do not begin with the character that may stand between digits. -/
theorem head?_decimalDigits_ne_underscore (n : Nat) : (decimalDigits n).head? ≠ some '_' := by
  intro h
  have hd := isDigit_of_mem_decimalDigits (List.mem_of_head? h)
  exact absurd hd (by decide)

/-- **Whole numbers read back.** -/
theorem grouped?_intChars (n : Int) : grouped? (intChars n) = some n := by
  unfold grouped?
  rw [splitSign_intChars]
  dsimp only
  rw [if_neg (head?_decimalDigits_ne_underscore _), filter_underscore (all_isDigit_decimalDigits _),
    natural?_decimalDigits, Option.map_some, withSign_natAbs]

end Stencil.Text
