import Mathlib.Data.List.Forall2
import Stencil.Grammar.Literal

/-!
# What a string literal stands for

The text of a string literal is read from left to right, one character or one escape at a time.
`Spells` says so without a program. It leaves open which four characters write the code of a
character, and there are two answers. Four hexadecimal digits do (`FourDigits`). But a plus sign may
also stand in the place of the first digit (`SignedDigits`), since the digits are read as a number
that may have a sign.

> `Grammar.unescape_iff`: what the escapes of a text are resolved to.
> `Grammar.unquote_iff`: what a string literal stands for, and that the signed codes are the
> only ones besides those of four digits.
-/

namespace Stencil.Grammar

/-! ## Codes of characters -/

/-- The character is a hexadecimal digit of this value, in either case. -/
def HexDigit (c : Char) (v : Nat) : Prop :=
  v < 16 ∧ (c = Nat.digitChar v ∨ c = (Nat.digitChar v).toUpper)

/-- Four hexadecimal digits that write the code point of a character. Surrogates are no
characters. -/
inductive FourDigits : List Char → Char → Prop where
  | mk {a b c d u : Char} {i j k l : Nat} : HexDigit a i → HexDigit b j → HexDigit c k →
      HexDigit d l → u.toNat = 16 * (16 * (16 * i + j) + k) + l → FourDigits [a, b, c, d] u

/-- A plus sign and three hexadecimal digits. -/
inductive SignedDigits : List Char → Char → Prop where
  | mk {b c d u : Char} {j k l : Nat} : HexDigit b j → HexDigit c k → HexDigit d l →
      u.toNat = 16 * (16 * j + k) + l → SignedDigits ['+', b, c, d] u

/-- Whatever is taken for the code of a character. -/
def Coded (ds : List Char) (u : Char) : Prop :=
  FourDigits ds u ∨ SignedDigits ds u

/-! ## Texts -/

/-- The escapes of one letter that stand for another character. -/
def letterEscapes : List (Char × Char) :=
  [('n', '\n'), ('t', '\t'), ('r', '\r'), ('b', '\x08'), ('f', '\x0c')]

/-- What the inside of a literal stands for, when `code` says which characters write the code of a
character. -/
inductive Spells (code : List Char → Char → Prop) : List Char → List Char → Prop where
  | done : Spells code [] []
  /-- Any other character stands for itself. -/
  | plain {c : Char} {body text : List Char} : c ≠ '\\' → Spells code body text →
      Spells code (c :: body) (c :: text)
  | letter {e c : Char} {body text : List Char} : (e, c) ∈ letterEscapes → Spells code body text →
      Spells code ('\\' :: e :: body) (c :: text)
  | coded {ds : List Char} {u : Char} {body text : List Char} : code ds u →
      Spells code body text → Spells code ('\\' :: 'u' :: (ds ++ body)) (u :: text)
  /-- Where no code follows, the letter stands for itself. -/
  | uncoded {body text : List Char} : (∀ ds u, code ds u → ¬ ds <+: body) →
      Spells code body text → Spells code ('\\' :: 'u' :: body) ('u' :: text)
  /-- Any other escape stands for the character behind the backslash. -/
  | escaped {e : Char} {body text : List Char} : e ≠ 'u' → e ∉ letterEscapes.map Prod.fst →
      Spells code body text → Spells code ('\\' :: e :: body) (e :: text)
  /-- A backslash at the very end, where a literal that is closed has none. -/
  | last : Spells code ['\\'] ['\\']

/-! ## Reading codes -/

/-- The digits of base sixteen among ASCII characters, in both cases. -/
theorem digitIn?_of_ascii : ∀ n < 128, ∀ v < 16,
    (Text.digitIn? 16 (Char.ofNat n) = some v ↔
      Char.ofNat n = Nat.digitChar v ∨ Char.ofNat n = (Nat.digitChar v).toUpper) := by
  decide +kernel

theorem digitIn?_lt {c : Char} {v : Nat} (h : Text.digitIn? 16 c = some v) : v < 16 := by
  simp only [Text.digitIn?, Option.ite_none_right_eq_some, Option.some.injEq] at h
  exact h.2 ▸ h.1

/-- No character beyond ASCII is a digit of base sixteen. -/
theorem digitIn?_beyond_ascii {c : Char} (h : 128 ≤ c.toNat) : Text.digitIn? 16 c = none := by
  have hdigit : c.isDigit ≠ true := by
    intro hc
    have hle : c.toNat ≤ '9'.toNat := (Char.isDigit_iff_toNat.mp hc).2
    have hnine : '9'.toNat = 57 := rfl
    omega
  have hbelow : ∀ d : Char, d.toNat < 128 → ¬ c ≤ d := by
    intro d hd hle
    have hle : c.toNat ≤ d.toNat := hle
    omega
  have hlower := hbelow 'f' (by decide)
  have hupper := hbelow 'F' (by decide)
  simp [Text.digitIn?, hdigit, hlower, hupper]

/-- The digits of base sixteen. -/
theorem digitIn?_eq_some_iff {c : Char} {v : Nat} :
    Text.digitIn? 16 c = some v ↔ HexDigit c v := by
  have hofNat : Char.ofNat c.toNat = c := Char.ofNat_toNat c
  by_cases hc : c.toNat < 128
  · constructor
    · intro h
      have hlt := digitIn?_lt h
      rw [← hofNat] at h ⊢
      exact ⟨hlt, (digitIn?_of_ascii _ hc v hlt).mp h⟩
    · intro h
      rw [← hofNat] at h ⊢
      exact (digitIn?_of_ascii _ hc v h.1).mpr h.2
  · rw [digitIn?_beyond_ascii (Nat.le_of_not_lt hc)]
    constructor
    · intro h
      cases h
    · intro h
      exfalso
      have hascii : ∀ v < 16, (Nat.digitChar v).toNat < 128 ∧
          (Nat.digitChar v).toUpper.toNat < 128 := by decide
      rcases h.2 with h' | h'
      · exact hc (h' ▸ (hascii v h.1).1)
      · exact hc (h' ▸ (hascii v h.1).2)

/-- A plus sign is no digit, so four digits are never a sign and three. -/
theorem not_hexDigit_plus (v : Nat) : ¬ HexDigit '+' v := by
  rw [← digitIn?_eq_some_iff]
  have hnone : Text.digitIn? 16 '+' = none := by decide
  rw [hnone]
  intro h
  cases h

/-- Without a plus sign in the text there are no signed digits. -/
theorem mem_of_signedDigits {ds : List Char} {u : Char} (h : SignedDigits ds u) : '+' ∈ ds := by
  cases h
  exact List.mem_cons_self

/-- The digits of a text, one by one. -/
theorem mapM_digitIn? : ∀ {cs : List Char} {vs : List Nat},
    cs.mapM (Text.digitIn? 16) = some vs ↔ List.Forall₂ HexDigit cs vs := by
  intro cs
  induction cs with
  | nil => simp [List.forall₂_nil_left_iff, eq_comm]
  | cons c cs ih =>
    intro vs
    simp only [List.mapM_cons, Option.bind_eq_bind, Option.bind_eq_some_iff, Option.pure_def,
      Option.some.injEq, digitIn?_eq_some_iff, ih, List.forall₂_cons_left_iff, exists_and_left,
      @eq_comm _ vs]

/-- **The code point of a character** is what its digits write. -/
theorem codePoint?_eq_some_iff {cs : List Char} (hne : cs ≠ []) {u : Char} :
    Text.codePoint? cs = some u ↔
      ∃ vs, List.Forall₂ HexDigit cs vs ∧ u.toNat = vs.foldl (fun n d => 16 * n + d) 0 := by
  have hnatural : ∀ n, Text.naturalIn? 16 cs = some n ↔
      ∃ vs, List.Forall₂ HexDigit cs vs ∧ n = vs.foldl (fun n d => 16 * n + d) 0 := by
    intro n
    rw [Text.naturalIn?, if_neg (by simpa using hne), Option.map_eq_some_iff]
    simp only [mapM_digitIn?, @eq_comm _ n]
  rw [Text.codePoint?, Option.map_eq_some_iff, ← hnatural]
  constructor
  · rintro ⟨n, hn, rfl⟩
    obtain ⟨hn, hvalid⟩ := Option.filter_eq_some_iff.mp hn
    have htoNat : (Char.ofNat n).toNat = n := by
      rw [Char.ofNat, dif_pos (of_decide_eq_true hvalid)]
      rfl
    rw [hn, htoNat]
  · intro h
    exact ⟨u.toNat, Option.filter_eq_some_iff.mpr ⟨h, decide_eq_true u.valid⟩, Char.ofNat_toNat u⟩

/-- Four digits write a code point as base sixteen does. -/
theorem fourDigits_iff {a b c d u : Char} :
    FourDigits [a, b, c, d] u ↔ Text.codePoint? [a, b, c, d] = some u := by
  rw [codePoint?_eq_some_iff (List.cons_ne_nil _ _)]
  constructor
  · rintro ⟨ha, hb, hc, hd, hu⟩
    exact ⟨_, .cons ha (.cons hb (.cons hc (.cons hd .nil))), by simpa using hu⟩
  · rintro ⟨_, ha | ⟨ha, hb | ⟨hb, hc | ⟨hc, hd | ⟨hd, hnil⟩⟩⟩⟩, hu⟩
    cases hnil
    exact ⟨ha, hb, hc, hd, by simpa using hu⟩

/-- Behind the plus sign three digits do. -/
theorem signedDigits_iff {b c d u : Char} :
    SignedDigits ['+', b, c, d] u ↔ Text.codePoint? [b, c, d] = some u := by
  rw [codePoint?_eq_some_iff (List.cons_ne_nil _ _)]
  constructor
  · rintro ⟨hb, hc, hd, hu⟩
    exact ⟨_, .cons hb (.cons hc (.cons hd .nil)), by simpa using hu⟩
  · rintro ⟨_, hb | ⟨hb, hc | ⟨hc, hd | ⟨hd, hnil⟩⟩⟩, hu⟩
    cases hnil
    exact ⟨hb, hc, hd, by simpa using hu⟩

/-- **Codes of characters** are four characters, and these are read as a code. -/
theorem coded_iff {ds : List Char} {u : Char} :
    Coded ds u ↔ ∃ a b c d, ds = [a, b, c, d] ∧ escapedCode? a b c d = some u := by
  constructor
  · rintro (h | h)
    · cases h with
      | @mk a b c d _ i _ _ _ ha hb hc hd hu =>
        have hne : a ≠ '+' := by
          rintro rfl
          exact not_hexDigit_plus i ha
        refine ⟨a, b, c, d, rfl, ?_⟩
        rw [escapedCode?, if_neg hne]
        exact fourDigits_iff.mp ⟨ha, hb, hc, hd, hu⟩
    · cases h with
      | @mk b c d _ _ _ _ hb hc hd hu =>
        refine ⟨'+', b, c, d, rfl, ?_⟩
        rw [escapedCode?, if_pos rfl]
        exact signedDigits_iff.mp ⟨hb, hc, hd, hu⟩
  · rintro ⟨a, b, c, d, rfl, h⟩
    rw [escapedCode?] at h
    split at h
    · next hplus =>
      subst hplus
      exact .inr (signedDigits_iff.mpr h)
    · exact .inl (fourDigits_iff.mpr h)

/-! ## Resolving escapes -/

/-- A character that is no backslash stands for itself. -/
theorem unescape_plain {c : Char} (hc : c ≠ '\\') (body : List Char) :
    unescape (c :: body) = c :: unescape body := by
  rw [unescape.eq_def]
  split
  · contradiction
  · next heq =>
    cases heq
    exact absurd rfl hc
  · next heq =>
    cases heq
    exact absurd rfl hc
  · next heq =>
    cases heq
    rfl

/-- Any escape but that of a code point is one character. -/
theorem unescape_escaped {e : Char} (he : e ≠ 'u') (body : List Char) :
    unescape ('\\' :: e :: body) = escapedChar e :: unescape body := by
  rw [unescape.eq_def]
  split
  · contradiction
  · next heq =>
    cases heq
    exact absurd rfl he
  · next heq =>
    cases heq
    rfl
  · next hother heq =>
    cases heq
    exact absurd rfl (hother _ _ rfl)

/-- The code of a character stands for the character. -/
theorem unescape_coded {ds : List Char} {u : Char} (h : Coded ds u) (body : List Char) :
    unescape ('\\' :: 'u' :: (ds ++ body)) = u :: unescape body := by
  obtain ⟨a, b, c, d, rfl, hcode⟩ := coded_iff.mp h
  show unescape ('\\' :: 'u' :: a :: b :: c :: d :: body) = _
  rw [unescape, hcode]

/-- Without a code behind it, the letter stands for itself and what follows is read on. -/
theorem unescape_uncoded {body : List Char} (h : ∀ ds u, Coded ds u → ¬ ds <+: body) :
    unescape ('\\' :: 'u' :: body) = 'u' :: unescape body := by
  rw [unescape.eq_def]
  split
  · contradiction
  · next a b c d rest heq =>
    cases heq
    cases hcode : escapedCode? a b c d with
    | none => rfl
    | some u => exact absurd ⟨rest, rfl⟩ (h [a, b, c, d] u (coded_iff.mpr ⟨a, b, c, d, rfl, hcode⟩))
  · next heq =>
    cases heq
    rfl
  · next hother heq =>
    cases heq
    exact absurd rfl (hother _ _ rfl)

/-- An escape of one letter. -/
theorem escapedChar_of_mem {e c : Char} (h : (e, c) ∈ letterEscapes) :
    e ≠ 'u' ∧ escapedChar e = c := by
  simp only [letterEscapes, List.mem_cons, Prod.mk.injEq, List.not_mem_nil, or_false] at h
  rcases h with ⟨rfl, rfl⟩ | ⟨rfl, rfl⟩ | ⟨rfl, rfl⟩ | ⟨rfl, rfl⟩ | ⟨rfl, rfl⟩
  all_goals exact ⟨by decide, rfl⟩

/-- All other escapes stand for the character itself. -/
theorem escapedChar_of_not_mem {e : Char} (h : e ∉ letterEscapes.map Prod.fst) :
    escapedChar e = e := by
  unfold escapedChar
  split
  case h_6 => rfl
  all_goals exact absurd (by decide) h

/-- The text that the escapes of a body are resolved to is one that the body spells. -/
theorem spells_unescape (body : List Char) : Spells Coded body (unescape body) := by
  induction body using unescape.induct with
  | case1 => exact .done
  | case2 a b c d rest u hcode ih =>
    have hcoded : Coded [a, b, c, d] u := coded_iff.mpr ⟨a, b, c, d, rfl, hcode⟩
    rw [unescape, hcode]
    exact .coded hcoded ih
  | case3 a b c d rest hcode ih =>
    rw [unescape, hcode]
    refine .uncoded (fun ds u hcoded hprefix => ?_) ih
    obtain ⟨a', b', c', d', rfl, hcode'⟩ := coded_iff.mp hcoded
    simp only [List.cons_prefix_cons, List.nil_prefix, and_true] at hprefix
    obtain ⟨rfl, rfl, rfl, rfl⟩ := hprefix
    rw [hcode] at hcode'
    cases hcode'
  | case4 e rest hshort ih =>
    by_cases he : e = 'u'
    · subst he
      -- fewer than four characters follow, too few for a code
      have huncoded : ∀ ds u, Coded ds u → ¬ ds <+: rest := by
        rintro ds u hcoded ⟨more, rfl⟩
        obtain ⟨a, b, c, d, rfl, -⟩ := coded_iff.mp hcoded
        exact hshort a b c d more rfl rfl
      rw [unescape_uncoded huncoded]
      exact .uncoded huncoded ih
    · rw [unescape_escaped he]
      by_cases hletter : e ∈ letterEscapes.map Prod.fst
      · obtain ⟨⟨e, c⟩, hmem, rfl⟩ := List.mem_map.mp hletter
        rw [(escapedChar_of_mem hmem).2]
        exact .letter hmem ih
      · rw [escapedChar_of_not_mem hletter]
        exact .escaped he hletter ih
  | case5 c rest hcode hescape ih =>
    by_cases hc : c = '\\'
    · subst hc
      cases rest with
      | nil => exact .last
      | cons e rest => exact absurd rfl (hescape e rest rfl)
    · rw [unescape_plain hc]
      exact .plain hc ih

/-- **What the escapes of a text are resolved to.** -/
theorem unescape_iff {body text : List Char} : unescape body = text ↔ Spells Coded body text := by
  constructor
  · rintro rfl
    exact spells_unescape body
  · intro h
    induction h with
    | done => rfl
    | plain hc _ ih => rw [unescape_plain hc, ih]
    | letter hmem _ ih =>
      obtain ⟨he, hchar⟩ := escapedChar_of_mem hmem
      rw [unescape_escaped he, hchar, ih]
    | coded hcode _ ih => rw [unescape_coded hcode, ih]
    | uncoded huncoded _ ih => rw [unescape_uncoded huncoded, ih]
    | escaped he hother _ ih => rw [unescape_escaped he, escapedChar_of_not_mem hother, ih]
    | last => rfl

/-- The codes behind the escapes of a body are the same under both ideas of a code. -/
def AgreeIn (body : List Char) (code code' : List Char → Char → Prop) : Prop :=
  ∀ ds u, '\\' :: 'u' :: ds <:+: body → (code ds u ↔ code' ds u)

theorem AgreeIn.tail (front : List Char) {body : List Char} {code code' : List Char → Char → Prop}
    (h : AgreeIn (front ++ body) code code') : AgreeIn body code code' :=
  fun ds u hin => h ds u (hin.trans (List.suffix_append front body).isInfix)

/-- Two ideas of a code that agree on what stands behind an escape read a body alike. -/
theorem Spells.congr {code code' : List Char → Char → Prop} {body text : List Char}
    (hsame : AgreeIn body code code') (h : Spells code body text) : Spells code' body text := by
  induction h with
  | done => exact .done
  | @plain c body _ hc _ ih => exact .plain hc (ih (AgreeIn.tail [c] hsame))
  | @letter e _ _ _ hmem _ ih => exact .letter hmem (ih (AgreeIn.tail ['\\', e] hsame))
  | @coded ds u body _ hcode _ ih =>
    have hfront : '\\' :: 'u' :: ds <+: '\\' :: 'u' :: (ds ++ body) := ⟨body, rfl⟩
    exact .coded ((hsame ds u hfront.isInfix).mp hcode)
      (ih (AgreeIn.tail ('\\' :: 'u' :: ds) hsame))
  | @uncoded body _ huncoded _ ih =>
    refine .uncoded (fun ds u hcode hprefix => ?_)
      (ih (AgreeIn.tail ['\\', 'u'] hsame))
    have hfront : '\\' :: 'u' :: ds <+: '\\' :: 'u' :: body :=
      (List.prefix_append_right_inj ['\\', 'u']).mpr hprefix
    exact huncoded ds u ((hsame ds u hfront.isInfix).mpr hcode) hprefix
  | @escaped e _ _ he hother _ ih =>
    exact .escaped he hother (ih (AgreeIn.tail ['\\', e] hsame))
  | last => exact .last

/-! ## Literals -/

/-- The quotes around a literal are taken off. -/
theorem unquoteChars_quoted {quote : Char} (hquote : quote = '"' ∨ quote = '\'')
    (body : List Char) : unquoteChars (quote :: (body ++ [quote])) = unescape body := by
  rw [unquoteChars, List.getLast?_concat, if_pos ⟨hquote, rfl⟩, List.dropLast_concat]

/-- **What a string literal stands for.** Between two quotes of one kind the body spells exactly one
text, where the code of a character is four hexadecimal digits or a plus sign and three of them. A
body without codes of the second kind is read as if only the first kind existed. -/
theorem unquote_iff {quote : Char} (hquote : quote = '"' ∨ quote = '\'') (body : List Char)
    (text : String) :
    (unquote (String.ofList (quote :: (body ++ [quote]))) = text ↔
      Spells Coded body text.toList) ∧
    ((∀ ds u, SignedDigits ds u → ¬ '\\' :: 'u' :: ds <:+: body) →
      (unquote (String.ofList (quote :: (body ++ [quote]))) = text ↔
        Spells FourDigits body text.toList)) := by
  have hcoded : unquote (String.ofList (quote :: (body ++ [quote]))) = text ↔
      Spells Coded body text.toList := by
    rw [unquote, String.toList_ofList, unquoteChars_quoted hquote, ← unescape_iff]
    constructor
    · rintro rfl
      rw [String.toList_ofList]
    · intro h
      rw [h, String.ofList_toList]
  refine ⟨hcoded, fun hunsigned => hcoded.trans ?_⟩
  have hsame : AgreeIn body Coded FourDigits :=
    fun ds u hin => ⟨fun h => h.resolve_right fun hs => hunsigned ds u hs hin, .inl⟩
  exact ⟨Spells.congr hsame, Spells.congr fun ds u hin => (hsame ds u hin).symm⟩

/-- An escaped quote, a line feed, a code point, and a code that is too short. -/
theorem unquote_iff_escapes :
    (∀ ds u, SignedDigits ds u → ¬ '\\' :: 'u' :: ds <:+: "it\\'s\\n\\u0041\\u00".toList) ∧
      unquote "'it\\'s\\n\\u0041\\u00'" = "it's\nAu00" ∧
      Spells FourDigits "it\\'s\\n\\u0041\\u00".toList "it's\nAu00".toList := by
  have hunsigned : ∀ ds u, SignedDigits ds u →
      ¬ '\\' :: 'u' :: ds <:+: "it\\'s\\n\\u0041\\u00".toList := by
    intro ds u hsigned hin
    have hmem : '+' ∈ '\\' :: 'u' :: ds := by simp [mem_of_signedDigits hsigned]
    exact absurd (hin.subset hmem) (by decide)
  have hvalue : unquote "'it\\'s\\n\\u0041\\u00'" = "it's\nAu00" := by decide
  exact ⟨hunsigned, hvalue, ((unquote_iff (.inr rfl) _ _).2 hunsigned).mp hvalue⟩

/-- A plus sign in front of three digits is taken for a code. With codes of four digits alone the
letter would stand for itself. -/
theorem unquote_signed_code :
    unquote "'\\u+041'" = "A" ∧ Spells FourDigits "\\u+041".toList "u+041".toList := by
  refine ⟨by decide, .uncoded (fun ds u hcode hprefix => ?_) ?_⟩
  · cases hcode with
    | @mk a _ _ _ _ _ _ _ _ ha =>
      obtain rfl : a = '+' := (List.cons_prefix_cons.mp hprefix).1
      exact not_hexDigit_plus _ ha
  · have hplain : ∀ c ∈ ['+', '0', '4', '1'], c ≠ '\\' := by simp
    simp only [List.forall_mem_cons] at hplain
    obtain ⟨h₁, h₂, h₃, h₄, -⟩ := hplain
    exact .plain h₁ (.plain h₂ (.plain h₃ (.plain h₄ .done)))

end Stencil.Grammar
