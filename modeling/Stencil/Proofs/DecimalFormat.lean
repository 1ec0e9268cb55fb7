import Stencil.Proofs.NumberText
import Stencil.Proofs.Tiling

/-!
# The format of decimals

A text is read as a decimal if and only if it is in the format of decimals, its exponent fits in a
word, and the point does not shift too far. The decimal is then exactly the number that the text
denotes, and its scale is what the exponent leaves of the digits after the point.

A machine takes the steps of the reader in words, and `readInWords` stops with a fault where a
result does not fit in its word. It never does: the words are checked where the text decides about
them, and everything else fits.

> `writes_of_ofChars?`: only texts in the format are read.
> `readInWords_eq`: reading in words gives what reading without them gives.
> `ofText?_format`: the format, the value, and that no word overflows.
-/

namespace Stencil.Decimal

open Stencil.Text Stencil.Json.Number

/-! ## Texts that are read -/

/-- What is split off in front of a number is its sign, or nothing where there is none. -/
theorem splitSign_spec {cs ds : List Char} {negative : Bool} (h : splitSign cs = (negative, ds)) :
    ∃ sign s, cs = sign ++ ds ∧ IsSign sign s ∧ ∀ n, withSign negative n = s * n := by
  unfold splitSign at h
  split at h
  · cases h
    exact ⟨['-'], -1, rfl, .minus, fun n => by simp [withSign]⟩
  · cases h
    exact ⟨['+'], 1, rfl, .plus, fun n => by simp [withSign]⟩
  · cases h
    exact ⟨[], 1, rfl, .none, fun n => by simp [withSign]⟩

/-- Exponents that are read are a sign and at least one digit, and have the value of these. -/
theorem signed?_spec {cs : List Char} {n : Int} (h : signed? cs = some n) :
    ∃ sign ds s, cs = sign ++ ds ∧ IsSign sign s ∧ IsDigits ds ∧ s * digitsValue ds = n := by
  unfold signed? at h
  rcases hsplit : splitSign cs with ⟨negative, ds⟩
  rw [hsplit] at h
  obtain ⟨k, hk, rfl⟩ := Option.map_eq_some_iff.mp h
  obtain ⟨hne, hall, rfl⟩ := natural?_eq_some_iff.mp hk
  obtain ⟨sign, s, hcs, hs, hfactor⟩ := splitSign_spec hsplit
  exact ⟨sign, ds, s, hcs, hs, ⟨hne, hall⟩, (hfactor _).symm⟩

/-- The exponent behind a mantissa fits in a word. -/
theorem splitExponent?_spec {cs mantissa : List Char} {x : Int}
    (h : splitExponent? cs = some (mantissa, x)) :
    ∃ exponent, cs = mantissa ++ exponent ∧ IsExponent exponent x := by
  unfold splitExponent? at h
  dsimp only at h
  split at h
  · next hnil =>
    obtain ⟨rfl, rfl⟩ := Prod.mk.inj (Option.some.inj h)
    refine ⟨[], ?_, .none⟩
    rw [← hnil, List.takeWhile_append_dropWhile]
  · next mark rest hcons =>
    obtain ⟨y, hy, hpair⟩ := Option.map_eq_some_iff.mp h
    obtain ⟨rfl, rfl⟩ := Prod.mk.inj hpair
    obtain ⟨sign, ds, s, rfl, hs, hd, rfl⟩ := signed?_spec (Option.filter_eq_some_iff.mp hy).1
    have hmark : mark = 'e' ∨ mark = 'E' := by
      have hnot := List.head?_dropWhile_not (fun c => !(c == 'e' || c == 'E')) cs
      rw [hcons] at hnot
      simpa [or_iff_not_imp_left] using hnot
    refine ⟨mark :: (sign ++ ds), ?_, .digits hmark hs hd⟩
    rw [← hcons, List.takeWhile_append_dropWhile]

/-- If only digits follow the point, the split leaves a tail in the format. -/
theorem splitPoint_spec (cs : List Char) (h : (splitPoint cs).2.all Char.isDigit = true) :
    ∃ tail, cs = (splitPoint cs).1 ++ tail ∧ IsTail tail (splitPoint cs).2 := by
  have hsplit : cs = (splitPoint cs).1 ++ cs.dropWhile (· != '.') :=
    (List.takeWhile_append_dropWhile ..).symm
  refine ⟨cs.dropWhile (· != '.'), hsplit, ?_⟩
  unfold splitPoint at h ⊢
  dsimp only at h ⊢
  cases hcons : cs.dropWhile (· != '.') with
  | nil => exact .none
  | cons c rest =>
    have hnot := List.head?_dropWhile_not (· != '.') cs
    rw [hcons] at hnot h
    obtain rfl : c = '.' := by simpa using hnot
    exact .digits h

/-- **Only texts in the format are read.** -/
theorem writes_of_ofChars? {cs : List Char} {d : Decimal} (h : ofChars? cs = some d) :
    ∃ s whole fraction x, Writes cs s whole fraction x := by
  unfold ofChars? at h
  obtain ⟨⟨mantissa, x⟩, hmantissa, h⟩ := Option.bind_eq_some_iff.mp h
  dsimp only at h
  obtain ⟨k, hk, h⟩ := Option.bind_eq_some_iff.mp h
  obtain ⟨_, hfraction, _⟩ := Option.bind_eq_some_iff.mp h
  obtain ⟨hne, hall, -⟩ := natural?_eq_some_iff.mp hk
  have hfraction : (splitPoint mantissa).2.all Char.isDigit = true := by
    by_contra hnot
    simp [hnot] at hfraction
  obtain ⟨exponent, rfl, he⟩ := splitExponent?_spec hmantissa
  obtain ⟨tail, hm, ht⟩ := splitPoint_spec mantissa hfraction
  obtain ⟨sign, s, hw, hs, -⟩ := splitSign_spec (Prod.mk.eta (p := splitSign _)).symm
  have hwrites := Writes.mk hs ⟨hne, hall⟩ ht he
  rw [← List.append_assoc, ← hw, ← List.append_assoc, ← hm] at hwrites
  exact ⟨_, _, _, _, hwrites⟩

/-- The point can be shifted as far as the limit and no further. -/
theorem isSome_shifted?_iff {u : Int} {n : Nat} {x : Int} :
    (shifted? u n x).isSome = true ↔ ((n : Int) - x).natAbs ≤ maxShift := by
  unfold shifted?
  dsimp only
  split
  · next h => exact iff_of_false nofun (Nat.not_le.mpr h)
  · next h =>
    split <;> exact iff_of_true rfl (Nat.not_lt.mp h)

/-- The exponent takes digits off those after the point, until none is left. -/
theorem scale_of_shifted? {u : Int} {n : Nat} {x : Int} {d : Decimal}
    (h : shifted? u n x = some d) : (d.scale : Int) = max 0 (n - x) := by
  unfold shifted? at h
  dsimp only at h
  split at h
  · cases h
  · split at h
    · cases h
      dsimp only
      omega
    · cases h
      dsimp only
      omega

/-! ## Reading in words -/

/-- A missing result as a refusal. -/
def orRefused {α : Type} : Option α → Except Stop α
  | some a => .ok a
  | none => .error .refused

theorem ok_bind {α β : Type} (a : α) (f : α → Except Stop β) : Except.ok a >>= f = f a :=
  rfl

theorem refused_bind {α β : Type} (f : α → Except Stop β) :
    Except.error .refused >>= f = .error .refused :=
  rfl

/-- A number that fits goes through a word unchanged. -/
theorem inWord_of_fits {fits : Int → Bool} {n : Int} (h : fits n = true) :
    inWord fits n = .ok n :=
  if_pos h

theorem checked_of_fits {fits : Int → Bool} {n : Int} (h : fits n = true) :
    checked fits n = .ok n :=
  if_pos h

theorem checked_of_not {fits : Int → Bool} {n : Int} (h : ¬fits n = true) :
    checked fits n = .error .refused :=
  if_neg h

/-- A small scale fits in 32 bits, and so does a small negative one that is turned round. -/
theorem fits_of_small {scale : Int} (h : scale.natAbs ≤ maxShift) :
    (0 ≤ scale → fitsUInt32 scale = true) ∧
      (¬0 ≤ scale → fitsInt64 (-scale) = true ∧ fitsUInt32 (-scale) = true) := by
  have h : scale.natAbs ≤ 4096 := h
  simp only [fitsUInt32, fitsInt64, Bool.and_eq_true, decide_eq_true_eq]
  omega

/-- Scaling in words refuses where scaling does, and overflows nowhere: the differences are within
the limit when they are used. -/
theorem scaledInWords_eq (u : Int) (n : Nat) (x : Int) :
    scaledInWords u (n - x) = orRefused (shifted? u n x) := by
  unfold scaledInWords shifted?
  dsimp only
  split
  · rfl
  · next hbig =>
    obtain ⟨hfits, hfits'⟩ := fits_of_small (Nat.not_lt.mp hbig)
    split
    · next hle =>
      have hnat : ((n : Int) - x).toNat = ((n : Int) - x).natAbs := by omega
      rw [inWord_of_fits (hfits hle), ok_bind, hnat]
      rfl
    · next hlt =>
      have hnat : (-((n : Int) - x)).toNat = ((n : Int) - x).natAbs := by omega
      rw [inWord_of_fits (hfits' hlt).1, ok_bind, inWord_of_fits (hfits' hlt).2, ok_bind, hnat]
      rfl

/-- The checks refuse no scale that is not too large anyway. -/
theorem shiftedInWords_eq (u : Int) {n : Nat} (hn : fitsInt64 n = true) (x : Int) :
    shiftedInWords u n x = orRefused (shifted? u n x) := by
  unfold shiftedInWords
  rw [checked_of_fits hn, ok_bind]
  by_cases hx : fitsInt64 ((n : Int) - x) = true
  · rw [checked_of_fits hx, ok_bind, scaledInWords_eq]
  · have hbig : ¬((n : Int) - x).natAbs ≤ maxShift := by
      intro h
      have h : ((n : Int) - x).natAbs ≤ 4096 := h
      simp only [fitsInt64, Bool.and_eq_true, decide_eq_true_eq] at hx
      omega
    have hnone : shifted? u n x = none := by
      rw [← Option.not_isSome_iff_eq_none, isSome_shifted?_iff]
      exact hbig
    rw [checked_of_not hx, hnone, refused_bind, orRefused]

/-- A reader without words has no overflow to report. -/
theorem orRefused_ne_overflow {α : Type} (a? : Option α) :
    orRefused a? ≠ .error .overflow := by
  cases a? <;> (intro h; cases h)

/-- Shifting in words never overflows, however many digits there are. -/
theorem shiftedInWords_ne_overflow (u : Int) (n : Nat) (x : Int) :
    shiftedInWords u n x ≠ .error .overflow := by
  by_cases hn : fitsInt64 n = true
  · rw [shiftedInWords_eq u hn]
    exact orRefused_ne_overflow _
  · unfold shiftedInWords
    rw [checked_of_not hn]
    intro h
    cases h

/-! ### The signs -/

theorem isSignChar_iff {c : Char} : isSignChar c = true ↔ c = '-' ∨ c = '+' := by
  simp [isSignChar]

theorem isSignChar_of_isDigit {c : Char} (h : c.isDigit = true) : isSignChar c = false := by
  rw [Bool.eq_false_iff, ne_eq, isSignChar_iff]
  rintro (rfl | rfl) <;> cases h

theorem byteLength_cons_sign {c : Char} (h : isSignChar c = true) (cs : List Char) :
    byteLength (c :: cs) = byteLength cs + 1 := by
  show c.utf8Size + byteLength cs = _
  rcases isSignChar_iff.mp h with rfl | rfl <;> exact Nat.add_comm ..

/-- Digits have one byte each, so that bytes and characters are the same number. -/
theorem byteLength_digits {ds : List Char} (h : ds.all Char.isDigit = true) :
    byteLength ds = ds.length := by
  induction ds with
  | nil => rfl
  | cons c ds ih =>
    rw [List.all_cons, Bool.and_eq_true] at h
    have hsize : c.utf8Size = 1 := by
      have hhigh : c.toNat ≤ 57 := (Char.isDigit_iff_toNat.mp h.1).2
      rw [Char.utf8Size_eq_one_iff, UInt32.le_iff_toNat_le]
      exact Nat.le_trans hhigh (by decide)
    show c.utf8Size + byteLength ds = _
    rw [hsize, ih h.2, Nat.add_comm]
    rfl

theorem splitSign_of_isSignChar {c : Char} (h : isSignChar c = true) (cs : List Char) :
    splitSign (c :: cs) = (c == '-', cs) := by
  rcases isSignChar_iff.mp h with rfl | rfl <;> rfl

theorem splitSign_of_not {c : Char} (h : isSignChar c = false) (cs : List Char) :
    splitSign (c :: cs) = (false, c :: cs) := by
  unfold splitSign
  split
  · next heq => cases heq; cases h
  · next heq => cases heq; cases h
  · rfl

/-- A number is negative if it begins with a minus sign. -/
theorem fst_splitSign (cs : List Char) : (splitSign cs).1 = (cs.head? == some '-') := by
  cases cs with
  | nil => rfl
  | cons c cs =>
    cases h : isSignChar c with
    | true => rw [splitSign_of_isSignChar h]; rfl
    | false =>
      have hne : c ≠ '-' := by
        rintro rfl
        cases h
      rw [splitSign_of_not h]
      simpa using hne

/-- There is no sign among digits. -/
theorem dropWhile_digits {ds : List Char} (h : IsDigits ds) : ds.dropWhile isSignChar = ds := by
  cases ds with
  | nil => rfl
  | cons c ds =>
    have hc := isSignChar_of_isDigit (h.head? c rfl)
    rw [List.dropWhile_cons_of_neg (by rw [hc]; exact Bool.false_ne_true)]

/-- Digits behind at most one sign are what is left when all signs are taken off. -/
theorem unsignedInWords_of_digits {whole fraction ds : List Char} {negative : Bool}
    (hsplit : splitSign whole = (negative, ds)) (hd : IsDigits ds)
    (hf : fraction.all Char.isDigit = true) : unsignedInWords whole fraction = .ok ds := by
  obtain ⟨sign, s, rfl, hs, -⟩ := splitSign_spec hsplit
  have hdrop : (sign ++ ds).dropWhile isSignChar = ds := by
    have hsigns : ∀ c ∈ sign, isSignChar c = true := by
      cases hs <;> simp [isSignChar]
    rw [List.dropWhile_append_of_pos hsigns, dropWhile_digits hd]
  have hdifference : lengthDifference (byteLength (sign ++ ds)) (byteLength ds) =
      .ok (byteLength sign) := by
    rw [byteLength_append, lengthDifference, if_pos (Nat.le_add_left _ _), Nat.add_sub_cancel]
  have hone : ¬1 < byteLength sign := by
    cases hs <;> decide
  have hempty : ds.isEmpty = false := by
    cases ds with
    | nil => exact absurd rfl hd.1
    | cons c ds => rfl
  unfold unsignedInWords
  dsimp only
  rw [hdrop, hempty, hd.2, hf, hdifference, if_neg (by decide), ok_bind, if_neg hone]

/-- Behind two signs or more there is no number, however it goes on. -/
theorem unsignedInWords_of_not {whole fraction ds : List Char} {negative : Bool}
    (hsplit : splitSign whole = (negative, ds))
    (hnot : ¬(IsDigits ds ∧ fraction.all Char.isDigit = true)) :
    unsignedInWords whole fraction = .error .refused := by
  unfold unsignedInWords
  dsimp only
  split
  · rfl
  · next hgood =>
    simp only [Bool.or_eq_true, not_or, Bool.not_eq_true, Bool.not_eq_false',
      List.isEmpty_eq_false_iff] at hgood
    obtain ⟨⟨hne, hdigits⟩, hf⟩ := hgood
    have hsigns : ∀ c ∈ whole.takeWhile isSignChar, isSignChar c = true :=
      List.all_eq_true.mp List.all_takeWhile
    have hwhole : whole.takeWhile isSignChar ++ whole.dropWhile isSignChar = whole :=
      List.takeWhile_append_dropWhile
    generalize whole.takeWhile isSignChar = signs at hsigns hwhole
    generalize whole.dropWhile isSignChar = digits at hne hdigits hwhole ⊢
    subst hwhole
    have hbad : ∀ {neg : Bool}, splitSign (signs ++ digits) ≠ (neg, digits) := by
      intro neg h
      rw [h, Prod.mk.injEq] at hsplit
      exact hnot ⟨hsplit.2 ▸ ⟨hne, hdigits⟩, hf⟩
    cases signs with
    | nil => exact absurd (splitSign_of_all_isDigit hdigits) hbad
    | cons c signs =>
      obtain ⟨hc, hsigns⟩ := List.forall_mem_cons.mp hsigns
      cases signs with
      | nil => exact absurd (splitSign_of_isSignChar hc digits) hbad
      | cons c' signs =>
        -- at least two signs have been taken off
        have hc' := hsigns c' List.mem_cons_self
        have hlength : byteLength (c :: c' :: signs ++ digits) =
            byteLength signs + 2 + byteLength digits := by
          rw [byteLength_append, byteLength_cons_sign hc, byteLength_cons_sign hc']
        rw [hlength, lengthDifference, if_pos (Nat.le_add_left _ _), Nat.add_sub_cancel]
        exact (ok_bind _ _).trans (if_pos (by omega))

/-! ### The whole text -/

/-- What stands in front of the exponent is no longer than the text. -/
theorem length_splitExponent? {cs mantissa : List Char} {x : Int}
    (h : splitExponent? cs = some (mantissa, x)) : mantissa.length ≤ cs.length := by
  obtain ⟨exponent, rfl, -⟩ := splitExponent?_spec h
  rw [List.length_append]
  exact Nat.le_add_right _ _

/-- Nor are the digits behind the point. -/
theorem length_splitPoint (cs : List Char) : (splitPoint cs).2.length ≤ cs.length := by
  have hsplit : cs.takeWhile (· != '.') ++ cs.dropWhile (· != '.') = cs :=
    List.takeWhile_append_dropWhile
  have hlength := congrArg List.length hsplit
  rw [List.length_append] at hlength
  unfold splitPoint
  dsimp only
  rw [List.length_drop]
  omega

/-- Reading in words: the digits are found without a fault, and then the point is shifted. -/
theorem readInWords_cases (cs : List Char) :
    readInWords cs = .error .refused ∧ ofChars? cs = none ∨
      ∃ u n x, n ≤ cs.length ∧ readInWords cs = shiftedInWords u n x ∧
        ofChars? cs = shifted? u n x := by
  unfold readInWords ofChars?
  cases hsplit : splitExponent? cs with
  | none => exact .inl ⟨rfl, rfl⟩
  | some p =>
    obtain ⟨mantissa, exponent⟩ := p
    have hlength := Nat.le_trans (length_splitPoint mantissa) (length_splitExponent? hsplit)
    rw [Option.bind_eq_bind, Option.bind_some]
    dsimp only
    generalize (splitPoint mantissa).2 = fraction at hlength ⊢
    generalize (splitPoint mantissa).1 = whole
    rw [← fst_splitSign]
    rcases hsign : splitSign whole with ⟨negative, ds⟩
    dsimp only
    by_cases hd : IsDigits ds
    · by_cases hf : fraction.all Char.isDigit = true
      · refine .inr ⟨withSign negative (digitsValue (ds ++ fraction)), fraction.length, exponent,
          hlength, ?_, ?_⟩
        · rw [unsignedInWords_of_digits hsign hd hf, byteLength_digits hf, ok_bind]
        · rw [natural?_eq_some hd.1 hd.2, Option.bind_eq_bind, Option.bind_some, hf]
          rfl
      · refine .inl ⟨?_, ?_⟩
        · rw [unsignedInWords_of_not hsign fun h => hf h.2, refused_bind]
        · rw [natural?_eq_some hd.1 hd.2, Option.bind_eq_bind, Option.bind_some]
          simp [hf]
    · refine .inl ⟨?_, ?_⟩
      · rw [unsignedInWords_of_not hsign fun h => hd h.1, refused_bind]
      · have hnone : natural? ds = none := by
          cases hn : natural? ds with
          | none => rfl
          | some n =>
            obtain ⟨hne, hall, -⟩ := natural?_eq_some_iff.mp hn
            exact absurd ⟨hne, hall⟩ hd
        rw [hnone, Option.bind_eq_bind, Option.bind_none]

/-- **Reading in words never overflows.** -/
theorem readInWords_ne_overflow (cs : List Char) : readInWords cs ≠ .error .overflow := by
  rcases readInWords_cases cs with ⟨h, -⟩ | ⟨u, n, x, -, h, -⟩
  · rw [h]
    intro h
    cases h
  · rw [h]
    exact shiftedInWords_ne_overflow u n x

/-- **Reading in words gives the same,** for a text whose length is a number of 64 bits. -/
theorem readInWords_eq {cs : List Char} (h : cs.length < 0x8000000000000000) :
    readInWords cs = orRefused (ofChars? cs) := by
  rcases readInWords_cases cs with ⟨hread, hchars⟩ | ⟨u, n, x, hn, hread, hchars⟩
  · rw [hread, hchars]
    rfl
  · have hfits : fitsInt64 n = true := by
      simp only [fitsInt64, Bool.and_eq_true, decide_eq_true_eq]
      omega
    rw [hread, hchars, shiftedInWords_eq u hfits]

/-! ## The format -/

/-- A text in the format is read if its exponent fits in a word and the point does not shift too
far. -/
theorem isSome_ofChars?_iff {cs whole fraction : List Char} {s x : Int}
    (h : Writes cs s whole fraction x) : (ofChars? cs).isSome = true ↔
      fitsInt64 x = true ∧ ((fraction.length : Int) - x).natAbs ≤ maxShift := by
  rw [ofChars?_of_writes h]
  by_cases hx : fitsInt64 x = true
  · rw [if_pos hx, isSome_shifted?_iff, and_iff_right hx]
  · rw [if_neg hx]
    exact iff_of_false Bool.false_ne_true fun h => hx h.1

/-- **The format of decimals.** A text is read if and only if it is in the format, its exponent fits
in 64 bits, and the difference between the number of digits after the point and the exponent is no
more than 4096. The decimal that is read has that difference as its scale, or no scale if it is
negative, and is exactly the number that the text denotes. In words, no step of the reader
overflows, and for texts whose length is a number of 64 bits it gives the same. -/
theorem ofText?_format (text : String) :
    ((ofText? text).isSome = true ↔ ∃ s whole fraction x, Writes text.toList s whole fraction x ∧
      fitsInt64 x = true ∧ ((fraction.length : Int) - x).natAbs ≤ 4096) ∧
    (∀ d s whole fraction x, ofText? text = some d → Writes text.toList s whole fraction x →
      (d.scale : Int) = max 0 (fraction.length - x) ∧
        d.value = Json.Number.value s whole fraction x) ∧
    readInWords text.toList ≠ .error .overflow ∧
    (text.length < 0x8000000000000000 → readInWords text.toList = orRefused (ofText? text)) := by
  refine ⟨⟨fun h => ?_, ?_⟩, ?_, readInWords_ne_overflow _, fun h => ?_⟩
  · obtain ⟨d, hd⟩ := Option.isSome_iff_exists.mp h
    obtain ⟨s, whole, fraction, x, hwrites⟩ := writes_of_ofChars? hd
    exact ⟨s, whole, fraction, x, hwrites, (isSome_ofChars?_iff hwrites).mp h⟩
  · rintro ⟨s, whole, fraction, x, hwrites, hread⟩
    exact (isSome_ofChars?_iff hwrites).mpr hread
  · intro d s whole fraction x hd hwrites
    rw [ofText?, ofChars?_of_writes hwrites] at hd
    split at hd
    · exact ⟨scale_of_shifted? hd, by rw [value_of_shifted? hd, value_eq]⟩
    · cases hd
  · exact readInWords_eq (String.length_toList ▸ h)

/-- A sign, a fraction and a negative exponent. -/
theorem ofText?_format_shifted :
    ofText? "-12.50e-1" = some ⟨-1250, 3⟩ ∧
      Writes "-12.50e-1".toList (-1) ['1', '2'] ['5', '0'] (-1) ∧
      (3 : Int) = max 0 ((['5', '0'].length : Int) - -1) ∧
      Decimal.value ⟨-1250, 3⟩ = Json.Number.value (-1) ['1', '2'] ['5', '0'] (-1) ∧
      readInWords "-12.50e-1".toList = .ok ⟨-1250, 3⟩ := by
  have hread : ofText? "-12.50e-1" = some ⟨-1250, 3⟩ := by decide
  have hdigits : IsDigits ['1', '2'] ∧ IsDigits ['1'] := by
    unfold IsDigits
    decide
  have htail : IsTail ['.', '5', '0'] ['5', '0'] := .digits (by decide)
  have hexponent : IsExponent ['e', '-', '1'] (-1) := .digits (.inl rfl) .minus hdigits.2
  have htext : "-12.50e-1".toList = ['-', '1', '2', '.', '5', '0', 'e', '-', '1'] := by decide
  have hwrites : Writes "-12.50e-1".toList (-1) ['1', '2'] ['5', '0'] (-1) :=
    htext ▸ .mk .minus hdigits.1 htail hexponent
  obtain ⟨-, hexact, -, hwords⟩ := ofText?_format "-12.50e-1"
  obtain ⟨hscale, hvalue⟩ := hexact _ _ _ _ _ hread hwrites
  have hlength : "-12.50e-1".length < 0x8000000000000000 := by decide
  rw [hread] at hwords
  exact ⟨hread, hwrites, hscale, hvalue, hwords hlength⟩

/-- Two signs are too many, and so is an exponent beyond 64 bits. -/
example : ofText? "--1" = none ∧ ofText? "1e9223372036854775808" = none := by
  decide

end Stencil.Decimal
