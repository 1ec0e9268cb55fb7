import Stencil.Lexer.Scan
import Stencil.Proofs.Captures

/-!
# Rules tried one by one

The plain way to find the next match is to try every rule on its own at every place, and to take the
first place where one of them matches some text, there the earliest rule. That is the match at the
leftmost place which is not empty, and at one place that of the first definition.

The scanner searches with all patterns joined to one; `Stencil.Proofs.JoinedPattern` says when it
finds the same.

> `Rule.hit?_eq_some_iff`, `Rule.hit?_eq_none_iff`: the first rule that matches any text at a place
> makes the hit.
> `Found.search?_eq_some`, `Found.search?_of_hits`: the first place with a hit is found.
-/

namespace Stencil

/-! ## Matches lie within the text -/

namespace Pattern

/-- A length of a repetition adds no round, or one round and those behind it. Greedy or not, the
same lengths are tried, only in another order. -/
theorem mem_rounds_succ {body : Option Char → List Char → List Nat} {greedy : Bool} {fuel : Nat}
    {before : Option Char} {after : List Char} {n : Nat}
    (h : n ∈ rounds body greedy (fuel + 1) before after) :
    n = 0 ∨ ∃ k ∈ body before after, k ≠ 0 ∧ ∃ m ∈ rounds body greedy fuel (beforeAt before after k)
      (after.drop k), n = k + m := by
  have hmem : n = 0 ∨ n ∈ (body before after).flatMap fun k =>
      if k = 0 then []
      else (rounds body greedy fuel (beforeAt before after k) (after.drop k)).map (k + ·) := by
    cases greedy with
    | true => simpa [rounds, or_comm] using h
    | false => simpa [rounds] using h
  rcases hmem with hz | hmem
  · exact .inl hz
  · obtain ⟨k, hk, hnk⟩ := List.mem_flatMap.mp hmem
    split at hnk
    · cases hnk
    · next hne =>
      obtain ⟨m, hm, rfl⟩ := List.mem_map.mp hnk
      exact .inr ⟨k, hk, hne, m, hm, rfl⟩

/-- Rounds that each stay within the text do so together. -/
theorem le_length_of_mem_rounds {body : Option Char → List Char → List Nat} {greedy : Bool}
    (hbody : ∀ before after, ∀ n ∈ body before after, n ≤ after.length) :
    ∀ (fuel : Nat) {before : Option Char} {after : List Char},
      ∀ n ∈ rounds body greedy fuel before after, n ≤ after.length := by
  intro fuel
  induction fuel with
  | zero =>
    intro before after n hn
    rw [rounds, List.mem_singleton] at hn
    omega
  | succ fuel ih =>
    intro before after n hn
    rcases mem_rounds_succ hn with rfl | ⟨k, hk, -, m, hm, rfl⟩
    · exact Nat.zero_le _
    · have hkle := hbody before after k hk
      have hmle := ih m hm
      rw [List.length_drop] at hmle
      omega

/-- A match uses up no more than there is. -/
theorem le_length_of_mem_lengths : ∀ (p : Pattern) {before : Option Char} {after : List Char},
    ∀ n ∈ p.lengths before after, n ≤ after.length := by
  intro p
  induction p with
  | empty =>
    intro before after n hn
    rw [lengths, List.mem_singleton] at hn
    omega
  | one s =>
    intro before after n hn
    cases after with
    | nil => cases hn
    | cons c rest =>
      rw [lengths] at hn
      split at hn
      · rw [List.mem_singleton] at hn
        rw [List.length_cons]
        omega
      · cases hn
  | edge e =>
    intro before after n hn
    rw [lengths] at hn
    split at hn
    · rw [List.mem_singleton] at hn
      omega
    · cases hn
  | seq p q ihp ihq =>
    intro before after n hn
    obtain ⟨k, hk, hnk⟩ := List.mem_flatMap.mp hn
    obtain ⟨m, hm, rfl⟩ := List.mem_map.mp hnk
    have hkle := ihp k hk
    have hmle := ihq m hm
    rw [List.length_drop] at hmle
    omega
  | alt p q ihp ihq =>
    intro before after n hn
    rcases List.mem_append.mp hn with hn | hn
    · exact ihp n hn
    · exact ihq n hn
  | plus greedy p ih =>
    intro before after n hn
    obtain ⟨k, hk, hnk⟩ := List.mem_flatMap.mp hn
    have hkle := ih k hk
    split at hnk
    · rw [List.mem_singleton] at hnk
      omega
    · obtain ⟨m, hm, rfl⟩ := List.mem_map.mp hnk
      have hmle := le_length_of_mem_rounds (fun _ _ => ih) after.length m hm
      rw [List.length_drop] at hmle
      omega
  | group number p ih =>
    intro before after n hn
    exact ih n hn

/-- The set of one character holds this character only. -/
theorem has_single (c d : Char) : (CharSet.single c).has d = decide (d = c) := by
  simp only [CharSet.single, CharSet.has]
  by_cases h : d = c
  · subst h
    simp
  · rw [decide_eq_false h, Bool.and_eq_false_iff, decide_eq_false_iff_not, decide_eq_false_iff_not]
    by_cases hle : c ≤ d
    · exact .inr fun hge => h (Char.le_antisymm hge hle)
    · exact .inl hle

theorem lengths_single (before : Option Char) (c d : Char) (rest : List Char) :
    (one (.single c)).lengths before (d :: rest) = if d = c then [1] else [] := by
  simp [lengths, has_single]

theorem preferred?_le {p : Pattern} {before : Option Char} {after : List Char} {n : Nat}
    (h : p.preferred? before after = some n) : n ≤ after.length :=
  p.le_length_of_mem_lengths n (List.mem_of_head? h)

/-- What stands before the end of a prefix of the text. -/
theorem beforeAt_eq_getLast? {before : Option Char} {after read : List Char} {n : Nat}
    (hb : before = read.getLast?) (hn : n ≤ after.length) :
    beforeAt before after n = (read ++ after.take n).getLast? := by
  unfold beforeAt
  split
  · next h => rw [h, List.take_zero, List.append_nil, hb]
  · next h =>
    rw [List.getLast?_append, List.getLast?_take, if_neg h,
      List.getElem?_eq_getElem (show n - 1 < after.length by omega)]
    rfl

end Pattern

/-! ## The rule that matches -/

namespace Rule

variable {before : Option Char} {after : List Char} {rules : List Rule}

/-- A rule matches some text at a place. -/
def Matches (r : Rule) (before : Option Char) (after : List Char) : Prop :=
  ∃ n, r.matchAt? before after = some n ∧ 0 < n

theorem not_matches_of_forall_ne {r : Rule}
    (h : ∀ n, r.matchAt? before after = some (n + 1) → False) : ¬r.Matches before after := by
  rintro ⟨n, hn, hpos⟩
  obtain ⟨k, rfl⟩ := Nat.exists_eq_succ_of_ne_zero (Nat.ne_of_gt hpos)
  exact h k hn

/-- There is no hit if and only if no rule matches any text. -/
theorem hit?_eq_none_iff :
    hit? rules before after = none ↔ ∀ r ∈ rules, ¬r.Matches before after := by
  induction rules with
  | nil => exact iff_of_true rfl (List.forall_mem_nil _)
  | cons s later ih =>
    rw [hit?, List.forall_mem_cons]
    split
    · next n hs =>
      constructor
      · intro h
        cases h
      · intro h
        exact absurd ⟨n + 1, hs, Nat.succ_pos n⟩ h.1
    · next hs =>
      rw [ih]
      exact ⟨fun h => ⟨not_matches_of_forall_ne hs, h⟩, fun h => h.2⟩

/-- The hit is that of the first rule that matches some text. -/
theorem hit?_eq_some_iff {r : Rule} {n : Nat} :
    hit? rules before after = some (r, n) ↔ 0 < n ∧ ∃ i : Nat, rules[i]? = some r ∧
      r.matchAt? before after = some n ∧
      ∀ j < i, ∀ t : Rule, rules[j]? = some t → ¬t.Matches before after := by
  induction rules with
  | nil =>
    constructor
    · intro h
      cases h
    · rintro ⟨-, i, hr, -⟩
      cases hr
  | cons s later ih =>
    rw [hit?]
    split
    · next k hs =>
      constructor
      · intro h
        cases h
        exact ⟨Nat.succ_pos k, 0, rfl, hs, fun j hj => absurd hj (Nat.not_lt_zero j)⟩
      · rintro ⟨-, i, hr, hn, hfirst⟩
        cases i with
        | zero =>
          cases hr
          rw [hs] at hn
          cases hn
          rfl
        | succ i => exact absurd ⟨k + 1, hs, Nat.succ_pos k⟩ (hfirst 0 (Nat.succ_pos i) s rfl)
    · next hs =>
      rw [ih]
      have hnot := not_matches_of_forall_ne hs
      constructor
      · rintro ⟨hpos, i, hr, hn, hfirst⟩
        refine ⟨hpos, i + 1, hr, hn, fun j hj t ht => ?_⟩
        cases j with
        | zero =>
          cases ht
          exact hnot
        | succ j => exact hfirst j (Nat.lt_of_succ_lt_succ hj) t ht
      · rintro ⟨hpos, i, hr, hn, hfirst⟩
        cases i with
        | zero =>
          cases hr
          exact absurd ⟨n, hn, hpos⟩ hnot
        | succ i =>
          exact ⟨hpos, i, hr, hn, fun j hj t ht => hfirst (j + 1) (Nat.succ_lt_succ hj) t ht⟩

/-- A hit is the preferred match of one of the rules, tried on its own. -/
theorem hit?_spec {r : Rule} {n : Nat} (h : hit? rules before after = some (r, n)) :
    r ∈ rules ∧ r.matchAt? before after = some n := by
  obtain ⟨-, i, hr, hn, -⟩ := hit?_eq_some_iff.mp h
  exact ⟨List.mem_of_getElem? hr, hn⟩

/-- Rules that match alike hit alike. -/
theorem hit?_congr {before' : Option Char} {after' : List Char}
    (h : ∀ r ∈ rules, r.pattern.lengths before after = r.pattern.lengths before' after') :
    hit? rules before after = hit? rules before' after' := by
  induction rules with
  | nil => rfl
  | cons r rules ih =>
    obtain ⟨hr, hrules⟩ := List.forall_mem_cons.mp h
    rw [hit?, hit?, ih hrules]
    simp only [matchAt?, Pattern.preferred?, hr]

end Rule

/-! ## The place of the match -/

/-- The first hit of the rules at a place or after it. -/
def Found.search? (rules : List Rule) : Option Char → List Char → Option Found
  | before, [] => (Rule.hit? rules before []).map fun (r, n) => ⟨0, n, r⟩
  | before, c :: rest =>
    match Rule.hit? rules before (c :: rest) with
    | some (r, n) => some ⟨0, n, r⟩
    | none => (search? rules (some c) rest).map fun f => { f with skipped := f.skipped + 1 }

namespace Found

variable {rules : List Rule}

/-- The character before a place behind the first one does not depend on what stands before the
first one. -/
theorem beforeAt_succ (before : Option Char) (c : Char) (rest : List Char) (k : Nat) :
    Pattern.beforeAt before (c :: rest) (k + 1) = Pattern.beforeAt (some c) rest k := by
  unfold Pattern.beforeAt
  cases k <;> rfl

/-- Nothing is found where no place has a hit. -/
theorem search?_eq_none : ∀ {after : List Char} {before : Option Char},
    search? rules before after = none → ∀ k ≤ after.length,
      Rule.hit? rules (Pattern.beforeAt before after k) (after.drop k) = none := by
  intro after
  induction after with
  | nil =>
    intro before h k hk
    rw [search?, Option.map_eq_none_iff] at h
    rw [Nat.le_zero.mp hk]
    exact h
  | cons c rest ih =>
    intro before h k hk
    rw [search?] at h
    split at h
    · cases h
    · next hhere =>
      cases k with
      | zero => exact hhere
      | succ k =>
        rw [beforeAt_succ]
        exact ih (Option.map_eq_none_iff.mp h) k (Nat.le_of_succ_le_succ hk)

/-- What is found is the hit at its place, and the places before it have none. -/
theorem search?_eq_some : ∀ {after : List Char} {before : Option Char} {f : Found},
    search? rules before after = some f → f.skipped ≤ after.length ∧
      Rule.hit? rules (Pattern.beforeAt before after f.skipped) (after.drop f.skipped) =
        some (f.rule, f.length) ∧
      ∀ k < f.skipped,
        Rule.hit? rules (Pattern.beforeAt before after k) (after.drop k) = none := by
  intro after
  induction after with
  | nil =>
    intro before f h
    rw [search?, Option.map_eq_some_iff] at h
    obtain ⟨⟨r, n⟩, hit, rfl⟩ := h
    exact ⟨Nat.le_refl _, hit, fun k hk => absurd hk (Nat.not_lt_zero k)⟩
  | cons c rest ih =>
    intro before f h
    rw [search?] at h
    split at h
    · next hit =>
      cases h
      exact ⟨Nat.zero_le _, hit, fun k hk => absurd hk (Nat.not_lt_zero k)⟩
    · next hhere =>
      obtain ⟨g, hg, rfl⟩ := Option.map_eq_some_iff.mp h
      obtain ⟨hle, hit, hfirst⟩ := ih hg
      refine ⟨Nat.succ_le_succ hle, ?_, fun k hk => ?_⟩
      · show Rule.hit? rules (Pattern.beforeAt before (c :: rest) (g.skipped + 1)) _ = _
        rw [beforeAt_succ]
        exact hit
      · cases k with
        | zero => exact hhere
        | succ k =>
          rw [beforeAt_succ]
          exact hfirst k (Nat.lt_of_succ_lt_succ hk)

/-- The first place with a hit is found. -/
theorem search?_of_hits {r : Rule} {n : Nat} :
    ∀ {k : Nat} {before : Option Char} {after : List Char}, k ≤ after.length →
      Rule.hit? rules (Pattern.beforeAt before after k) (after.drop k) = some (r, n) →
      (∀ j < k, Rule.hit? rules (Pattern.beforeAt before after j) (after.drop j) = none) →
      search? rules before after = some ⟨k, n, r⟩ := by
  intro k
  induction k with
  | zero =>
    intro before after _ hit _
    have hit : Rule.hit? rules before after = some (r, n) := hit
    cases after with
    | nil => rw [search?, hit]; rfl
    | cons c rest => rw [search?, hit]
  | succ k ih =>
    intro before after hle hit hnone
    cases after with
    | nil => exact absurd hle (Nat.not_succ_le_zero _)
    | cons c rest =>
      have hfirst : Rule.hit? rules before (c :: rest) = none := hnone 0 (Nat.succ_pos k)
      have hlater : search? rules (some c) rest = some ⟨k, n, r⟩ := by
        refine ih (Nat.le_of_succ_le_succ hle) ?_ fun j hj => ?_
        · rw [← beforeAt_succ before]
          exact hit
        · rw [← beforeAt_succ before]
          exact hnone (j + 1) (Nat.succ_lt_succ hj)
      rw [search?, hfirst, hlater]
      rfl

/-- A match that is found starts within the text and is made there by one of the rules. -/
theorem search?_spec {after : List Char} {before : Option Char} {f : Found}
    (h : search? rules before after = some f) : f.skipped ≤ after.length ∧ f.rule ∈ rules ∧
      f.rule.matchAt? (Pattern.beforeAt before after f.skipped) (after.drop f.skipped) =
        some f.length := by
  obtain ⟨hle, hit, -⟩ := search?_eq_some h
  exact ⟨hle, Rule.hit?_spec hit⟩

/-- The whole match lies within the text. -/
theorem search?_le {after : List Char} {before : Option Char} {f : Found}
    (h : search? rules before after = some f) : f.skipped + f.length ≤ after.length := by
  obtain ⟨hle, -, hm⟩ := search?_spec h
  have hlen := Pattern.preferred?_le hm
  rw [List.length_drop] at hlen
  omega

end Found

end Stencil
