import Stencil.Proofs.Settled

/-!
# How a match starts

The first character of a match that is not empty is read off the pattern. Rules that do not open
with the character at a place leave the hit there to the rules behind them. And what a greedy
repetition of single characters takes first is all of them that follow.

> `Pattern.opens_of_mem`: which characters a match can start with.
> `Rule.hit?_append_of_opens`: rules that cannot match at a place.
> `Pattern.preferred?_star_one`, `Pattern.preferred?_plus_one`: runs of characters.
-/

namespace Stencil

namespace Pattern

/-! ## The first character -/

theorem ne_zero_of_mem_one {s : CharSet} {before : Option Char} {x : List Char} :
    ∀ n ∈ (one s).lengths before x, n ≠ 0 := by
  intro n hn
  rw [eq_of_width (p := one s) rfl hn]
  exact Nat.one_ne_zero

/-- A match of two patterns, one behind the other. -/
theorem of_mem_seq {p q : Pattern} {before : Option Char} {x : List Char} {n : Nat}
    (h : n ∈ (seq p q).lengths before x) : ∃ k m, k ∈ p.lengths before x ∧
      m ∈ q.lengths (beforeAt before x k) (x.drop k) ∧ n = k + m := by
  obtain ⟨k, hk, h⟩ := List.mem_flatMap.mp h
  obtain ⟨m, hm, hsum⟩ := List.mem_map.mp h
  exact ⟨k, m, hk, hm, hsum.symm⟩

theorem of_mem_single {c : Char} {before : Option Char} {x : List Char} {n : Nat}
    (h : n ∈ (one (.single c)).lengths before x) : n = 1 ∧ ∃ t, x = c :: t := by
  cases x with
  | nil => cases h
  | cons d t =>
    rw [lengths_single] at h
    split at h
    next hd => exact ⟨List.mem_singleton.mp h, t, by rw [hd]⟩
    next => cases h

/-- Whether the pattern may match the empty text. -/
def nullable : Pattern → Bool
  | empty => true
  | one _ => false
  | edge _ => true
  | seq p q => p.nullable && q.nullable
  | alt p q => p.nullable || q.nullable
  | plus _ p | group _ p => p.nullable

/-- Whether a match that is not empty may start with the character. -/
def opens (c : Char) : Pattern → Bool
  | empty => false
  | one s => s.has c
  | edge _ => false
  | seq p q => p.opens c || (p.nullable && q.opens c)
  | alt p q => p.opens c || q.opens c
  | plus _ p | group _ p => p.opens c

/-- Only a pattern that is nullable matches the empty text. The induction is on the pattern. -/
theorem nullable_of_mem {p : Pattern} :
    ∀ {before : Option Char} {after : List Char}, 0 ∈ p.lengths before after →
      p.nullable = true := by
  induction p with
  | empty => intro _ _ _; rfl
  | one s =>
    intro before after h
    exact absurd rfl (ne_zero_of_mem_one 0 h)
  | edge e => intro _ _ _; rfl
  | seq p q ihp ihq =>
    intro before after h
    obtain ⟨k, m, hk, hm, hsum⟩ := of_mem_seq h
    obtain ⟨rfl, rfl⟩ : k = 0 ∧ m = 0 := by omega
    rw [nullable, ihp hk, ihq hm]
    rfl
  | alt p q ihp ihq =>
    intro before after h
    rw [nullable]
    rcases List.mem_append.mp h with h | h
    · rw [ihp h, Bool.true_or]
    · rw [ihq h, Bool.or_true]
  | plus greedy p ih =>
    intro before after h
    obtain ⟨k, hk, h⟩ := List.mem_flatMap.mp h
    split at h
    next hz =>
      subst hz
      exact ih hk
    next hne =>
      obtain ⟨m, -, hsum⟩ := List.mem_map.mp h
      omega
  | group number p ih => exact ih

/-- **A match that is not empty** starts with a character that the pattern opens with. -/
theorem opens_of_mem {p : Pattern} {c : Char} {rest : List Char} :
    ∀ {before : Option Char} {n : Nat}, n ∈ p.lengths before (c :: rest) → 0 < n →
      p.opens c = true := by
  induction p with
  | empty =>
    intro before n hn hpos
    rw [List.mem_singleton.mp hn] at hpos
    exact absurd hpos (Nat.lt_irrefl 0)
  | one s =>
    intro before n hn _
    rw [lengths] at hn
    split at hn
    next hs => exact hs
    next => cases hn
  | edge e =>
    intro before n hn hpos
    rw [lengths] at hn
    split at hn
    · rw [List.mem_singleton.mp hn] at hpos
      exact absurd hpos (Nat.lt_irrefl 0)
    · cases hn
  | seq p q ihp ihq =>
    intro before n hn hpos
    obtain ⟨k, m, hk, hm, rfl⟩ := of_mem_seq hn
    rw [opens]
    rcases Nat.eq_zero_or_pos k with rfl | hk0
    · -- the first pattern matches nothing here, so the match is that of the second
      rw [Nat.zero_add] at hpos
      rw [nullable_of_mem hk, ihq hm hpos, Bool.and_self, Bool.or_true]
    · rw [ihp hk hk0, Bool.true_or]
  | alt p q ihp ihq =>
    intro before n hn hpos
    rw [opens]
    rcases List.mem_append.mp hn with hn | hn
    · rw [ihp hn hpos, Bool.true_or]
    · rw [ihq hn hpos, Bool.or_true]
  | plus greedy p ih =>
    intro before n hn hpos
    obtain ⟨k, hk, hn⟩ := List.mem_flatMap.mp hn
    split at hn
    next =>
      rw [List.mem_singleton.mp hn] at hpos
      exact absurd hpos (Nat.lt_irrefl 0)
    next hne => exact ih hk (Nat.pos_of_ne_zero hne)
  | group number p ih => exact ih

/-! ## Runs of characters -/

/-- A greedy repetition takes all characters of the set that follow. -/
theorem head?_rounds_one (s : CharSet) : ∀ {x : List Char} {fuel : Nat} (before : Option Char),
    x.length ≤ fuel →
      (rounds (one s).lengths true fuel before x).head? = some (x.takeWhile s.has).length := by
  intro x
  induction x with
  | nil =>
    intro fuel before _
    cases fuel <;> rfl
  | cons c x ih =>
    intro fuel before hfuel
    cases fuel with
    | zero => exact absurd hfuel (Nat.not_succ_le_zero _)
    | succ fuel =>
      rw [rounds, lengths]
      by_cases hc : s.has c = true
      · have hrest := ih (some c) (Nat.le_of_succ_le_succ hfuel)
        have hbefore : beforeAt before (c :: x) 1 = some c := rfl
        rw [if_pos rfl, if_pos hc, List.flatMap_singleton, if_neg (by decide), hbefore,
          List.head?_append, List.head?_map, List.drop_one, List.tail_cons, hrest,
          List.takeWhile_cons_of_pos hc, Option.map_some, Option.some_or, List.length_cons,
          Nat.add_comm]
      · rw [if_pos rfl, if_neg hc, List.takeWhile_cons_of_neg hc]
        rfl

theorem preferred?_star_one (s : CharSet) (before : Option Char) (x : List Char) :
    (star true (one s)).preferred? before x = some (x.takeWhile s.has).length := by
  rw [preferred?, lengths_star ne_zero_of_mem_one]
  exact head?_rounds_one s before (Nat.le_succ x.length)

/-- One or more characters of a set: all that follow are taken. -/
theorem preferred?_plus_one {s : CharSet} {x : List Char} (hx : x.takeWhile s.has ≠ [])
    (before : Option Char) :
    (plus true (one s)).preferred? before x = some (x.takeWhile s.has).length := by
  have hstar := preferred?_star_one s before x
  have hpos := List.length_pos_iff.mpr hx
  have hlengths : (star true (one s)).lengths before x =
      (plus true (one s)).lengths before x ++ [0] :=
    rfl
  rw [preferred?, hlengths, List.head?_append] at hstar
  rw [preferred?]
  cases hplus : ((plus true (one s)).lengths before x).head? with
  | none =>
    rw [hplus, Option.none_or] at hstar
    have hzero := Option.some.inj hstar
    omega
  | some n =>
    rw [hplus, Option.some_or] at hstar
    exact hstar

/-- A repetition matches characters of its set only, and at least one. -/
theorem of_mem_plus_one {s : CharSet} {before : Option Char} {x : List Char} {n : Nat}
    (hn : n ∈ (plus true (one s)).lengths before x) :
    0 < n ∧ n ≤ x.length ∧ ∀ c ∈ x.take n, s.has c = true := by
  refine ⟨Nat.pos_of_ne_zero ?_, le_length_of_mem_lengths _ n hn, fun c hc => ?_⟩
  · rintro rfl
    cases nullable_of_mem hn
  · cases hs : s.has c with
    | true => rfl
    | false =>
      have havoids : (plus true (one s)).avoids c = true := by
        rw [avoids, avoids, hs]
        rfl
      exact absurd hc (not_mem_take_of_avoids havoids before x n hn)

/-- The first choice of two patterns, one behind the other, is that of the second behind that of the
first, if it has one. -/
theorem preferred?_seq {p q : Pattern} {before : Option Char} {x : List Char} {m n : Nat}
    (hp : p.preferred? before x = some m)
    (hq : q.preferred? (beforeAt before x m) (x.drop m) = some n) :
    (seq p q).preferred? before x = some (m + n) := by
  rw [preferred?] at hp hq ⊢
  rw [lengths]
  cases hlengths : p.lengths before x with
  | nil =>
    rw [hlengths] at hp
    cases hp
  | cons k ks =>
    rw [hlengths] at hp
    cases hp
    rw [List.flatMap_cons, List.head?_append, List.head?_map, hq]
    rfl

/-- A character of one set and all that follow of another. -/
theorem preferred?_run {s t : CharSet} {c : Char} (hc : s.has c = true) (before : Option Char)
    (x : List Char) : (seq (one s) (star true (one t))).preferred? before (c :: x) =
      some (1 + (x.takeWhile t.has).length) := by
  have hfirst : (one s).preferred? before (c :: x) = some 1 := by
    rw [preferred?, lengths, if_pos hc]
    rfl
  exact preferred?_seq hfirst (preferred?_star_one t (some c) x)

end Pattern

/-! ## Hits of lists of rules -/

namespace Rule

/-- The rules of one list come before those of the other. -/
theorem hit?_append (rules later : List Rule) (before : Option Char) (after : List Char) :
    hit? (rules ++ later) before after =
      (hit? rules before after).or (hit? later before after) := by
  induction rules with
  | nil => rfl
  | cons r rules ih =>
    rw [List.cons_append, hit?, hit?]
    split
    · rfl
    · exact ih

variable {r : Rule} {rules : List Rule} {before : Option Char} {x : List Char} {n : Nat}

/-- The first rule makes the hit if it matches some text. -/
theorem hit?_cons_of_match (h : r.matchAt? before x = some n) (hpos : 0 < n) :
    hit? (r :: rules) before x = some (r, n) :=
  hit?_eq_some_iff.mpr ⟨hpos, 0, rfl, h, fun j hj => absurd hj (Nat.not_lt_zero j)⟩

theorem hit?_cons_of_not (h : ¬r.Matches before x) :
    hit? (r :: rules) before x = hit? rules before x := by
  have hnone : hit? [r] before x = none :=
    hit?_eq_none_iff.mpr (List.forall_mem_singleton.mpr h)
  have happend := hit?_append [r] rules before x
  rw [hnone, Option.none_or] at happend
  exact happend

theorem not_matches_of_opens {c : Char} (h : r.pattern.opens c = false) :
    ¬r.Matches before (c :: x) := by
  rintro ⟨n, hn, hpos⟩
  have hopens := Pattern.opens_of_mem (List.mem_of_head? hn) hpos
  rw [h] at hopens
  cases hopens

/-- Rules that do not open with the character at a place leave the hit there to the later ones. -/
theorem hit?_append_of_opens {c : Char} (h : ∀ r ∈ rules, r.pattern.opens c = false)
    (later : List Rule) : hit? (rules ++ later) before (c :: x) = hit? later before (c :: x) := by
  rw [hit?_append, hit?_eq_none_iff.mpr fun r hr => not_matches_of_opens (h r hr), Option.none_or]

end Rule

end Stencil
