import Mathlib.Algebra.BigOperators.Fin
import Mathlib.Data.Int.ModEq
import Mathlib.Tactic.Ring
import Stencil.Proofs.SiblingOrder

/-!
# The fingerprint as a residue

The hash of a text is a polynomial over its code units, and a fingerprint adds up such hashes. Both
are computed in words of 32 bits, where every product and every sum may wrap. `polynomial` and
`Json.leafSum` are the same numbers computed without a bound. Taking an integer to its word respects
sums and products, so however often the arithmetic wraps on the way, the word that comes out is that
of the exact number.

> `foldl_horner`: the loop over the code units computes the polynomial.
> `stringHash_eq`, `Json.hashSum_eq`: the hashes are the words of the exact numbers.
> `Fingerprint.hash_residue`: what the fingerprint is as an integer, and the hash of two texts one
> after the other.
-/

namespace Stencil

/-! ## Texts -/

/-- The UTF-16 code units of a text. -/
def codeUnits (s : String) : List Nat :=
  s.toList.flatMap utf16Units

/-- The polynomial at 31 with the numbers as its coefficients, the last one with the lowest
power. -/
def polynomial (us : List Nat) : ℤ :=
  ∑ i : Fin us.length, (us[i] : ℤ) * 31 ^ (us.length - 1 - i)

/-- The first coefficient has the highest power. -/
theorem polynomial_cons (u : Nat) (us : List Nat) :
    polynomial (u :: us) = u * 31 ^ us.length + polynomial us := by
  refine (Fin.sum_univ_succ (n := us.length) _).trans ?_
  congr 1
  refine Finset.sum_congr rfl fun i _ => ?_
  have hexponent : us.length + 1 - 1 - (i + 1) = us.length - 1 - i := by omega
  show (us[i] : ℤ) * 31 ^ (us.length + 1 - 1 - (i + 1)) = _
  rw [hexponent]

/-- One turn of the loop over the coefficients. -/
def horner (z : ℤ) (u : Nat) : ℤ :=
  z * 31 + u

/-- **The loop over the coefficients**, from any number on. -/
theorem foldl_horner (us : List Nat) (z : ℤ) :
    us.foldl horner z = z * 31 ^ us.length + polynomial us := by
  induction us generalizing z with
  | nil => simp [polynomial]
  | cons u us ih =>
    rw [List.foldl_cons, ih, polynomial_cons, List.length_cons, horner]
    ring

theorem polynomial_eq_foldl (us : List Nat) : polynomial us = us.foldl horner 0 := by
  rw [foldl_horner, zero_mul, zero_add]

theorem polynomial_append (us vs : List Nat) :
    polynomial (us ++ vs) = polynomial us * 31 ^ vs.length + polynomial vs := by
  rw [polynomial_eq_foldl, List.foldl_append, foldl_horner, ← polynomial_eq_foldl]

/-- **The hash of a text** is the word of its polynomial. -/
theorem stringHash_eq (s : String) : stringHash s = Int32.ofInt (polynomial (codeUnits s)) := by
  have hstep : ∀ (z : ℤ) (u : Nat),
      Int32.ofInt z * 31 + Int32.ofNat u = Int32.ofInt (horner z u) := by
    intro z u
    rw [horner, Int32.ofInt_add, Int32.ofInt_mul, Int32.ofInt_eq_ofNat]
    rfl
  have hloop : (codeUnits s).foldl (fun hash u => hash * 31 + Int32.ofNat u) (Int32.ofInt 0) =
      Int32.ofInt ((codeUnits s).foldl horner 0) :=
    List.foldl_hom Int32.ofInt hstep
  rw [polynomial_eq_foldl]
  exact hloop

/-- The code units of two texts, one after the other. -/
theorem codeUnits_append (a b : String) : codeUnits (a ++ b) = codeUnits a ++ codeUnits b := by
  unfold codeUnits
  rw [String.toList_append, List.flatMap_append]

/-! ## Values -/

namespace Json

mutual

/-- The leaves of a value, at any depth. Names of members are none. -/
def leaves : Json → List Json
  | array xs => elementLeaves xs
  | object ms => memberLeaves ms
  | leaf => [leaf]
termination_by structural v => v

/-- The leaves of the elements of an array. -/
def elementLeaves : List Json → List Json
  | [] => []
  | x :: xs => x.leaves ++ elementLeaves xs
termination_by structural xs => xs

/-- The leaves of the members of an object. -/
def memberLeaves : List (String × Json) → List Json
  | [] => []
  | (_, x) :: ms => x.leaves ++ memberLeaves ms
termination_by structural ms => ms

end

/-- The exact sum of the polynomials of some texts. -/
def sumOver (leaves : List Json) : ℤ :=
  (leaves.map fun leaf => polynomial (codeUnits leaf.leafText)).sum

/-- The exact sum of the polynomials of all leaves. -/
def leafSum (v : Json) : ℤ :=
  sumOver v.leaves

theorem sumOver_append (vs ws : List Json) : sumOver (vs ++ ws) = sumOver vs + sumOver ws := by
  unfold sumOver
  rw [List.map_append, List.sum_append]

/-- The hash of a single leaf. -/
theorem hash_leaf (v : Json) : stringHash v.leafText = Int32.ofInt (sumOver [v]) := by
  rw [stringHash_eq, sumOver, List.map_singleton, List.sum_singleton]

mutual

/-- **The sum over a value** is the word of the exact sum. -/
theorem hashSum_eq : ∀ v : Json, v.hashSum = Int32.ofInt v.leafSum
  | .null => hash_leaf .null
  | .bool b => hash_leaf (.bool b)
  | .number text => hash_leaf (.number text)
  | .string s => hash_leaf (.string s)
  | .array xs => elementHashSum_eq xs
  | .object ms => memberHashSum_eq ms

/-- The sum over elements wraps around like the one over their leaves. -/
theorem elementHashSum_eq : ∀ xs : List Json,
    elementHashSum xs = Int32.ofInt (sumOver (elementLeaves xs))
  | [] => rfl
  | x :: xs => by
    rw [elementHashSum, elementLeaves, sumOver_append, Int32.ofInt_add, hashSum_eq x,
      elementHashSum_eq xs, leafSum]

theorem memberHashSum_eq : ∀ ms : List (String × Json),
    memberHashSum ms = Int32.ofInt (sumOver (memberLeaves ms))
  | [] => rfl
  | (_, x) :: ms => by
    rw [memberHashSum, memberLeaves, sumOver_append, Int32.ofInt_add, hashSum_eq x,
      memberHashSum_eq ms, leafSum]

end

end Json

/-! ## Words as integers -/

theorem toInt_ofInt (z : ℤ) : (Int32.ofInt z).toInt = z.bmod (2 ^ 32) :=
  Int32.toInt_ofInt

/-- The word of an exact number, as an integer, is the one signed number of 32 bits that differs
from it by a multiple of `2 ^ 32`. -/
theorem eq_toInt_ofInt_iff {x z : ℤ} :
    x = (Int32.ofInt z).toInt ↔ -2 ^ 31 ≤ x ∧ x < 2 ^ 31 ∧ x ≡ z [ZMOD 2 ^ 32] := by
  rw [toInt_ofInt, eq_comm, Int.bmod_eq_iff (by decide), Int.modEq_comm, Int.modEq_iff_dvd]
  omega

/-- **The hash of two texts**, one after the other, as a word. -/
theorem stringHash_append (a b : String) :
    stringHash (a ++ b) =
      stringHash a * Int32.ofInt (31 ^ (codeUnits b).length) + stringHash b := by
  rw [stringHash_eq, codeUnits_append, polynomial_append, Int32.ofInt_add, Int32.ofInt_mul,
    ← stringHash_eq, ← stringHash_eq]

namespace Fingerprint

/-- **The fingerprint is a residue.** That of a bare value is the one signed number of 32 bits which
differs from the exact sum over its leaves by a multiple of `2 ^ 32`. The hash of two texts, one
after the other, is made of their hashes: that of the first is moved up by as many powers of 31 as
the second has code units. -/
theorem hash_residue :
    (∀ v : Json, ¬v.IsEnvelope → ∀ x : ℤ,
      x = (ofJson v).hash.toInt ↔
        -2 ^ 31 ≤ x ∧ x < 2 ^ 31 ∧ x ≡ v.leafSum [ZMOD 2 ^ 32]) ∧
    ∀ a b : String, (stringHash (a ++ b)).toInt =
      ((stringHash a).toInt * 31 ^ (codeUnits b).length + (stringHash b).toInt).bmod (2 ^ 32) := by
  refine ⟨fun v hv x => ?_, fun a b => ?_⟩
  · rw [ofJson_of_bare hv]
    show x = v.hashSum.toInt ↔ _
    rw [Json.hashSum_eq]
    exact eq_toInt_ofInt_iff
  · rw [← toInt_ofInt, Int32.ofInt_add, Int32.ofInt_mul, Int32.ofInt_toInt, Int32.ofInt_toInt,
      stringHash_append]

/-- A text whose hash is the least number of a word, and one of two code units under a name. -/
def wrapped : Json :=
  .array [.string "polygenelubricants", .object [("k", .string "😀")]]

/-- The exact sum does not fit in a word, and the fingerprint is its residue. -/
theorem hash_residue_wrapped :
    ¬wrapped.IsEnvelope ∧ 2 ^ 31 ≤ wrapped.leafSum ∧ (ofJson wrapped).hash.toInt = -2145710749 ∧
      -2145710749 ≡ wrapped.leafSum [ZMOD 2 ^ 32] := by
  have hbare : ¬wrapped.IsEnvelope := by
    rintro ⟨header, root, h⟩
    cases h
  have hlarge : 2 ^ 31 ≤ wrapped.leafSum := by decide +kernel
  have hhash : (ofJson wrapped).hash.toInt = -2145710749 := by decide +kernel
  exact ⟨hbare, hlarge, hhash, ((hash_residue.1 wrapped hbare _).mp hhash.symm).2.2⟩

end Fingerprint

end Stencil
