import Stencil.Proofs.CompiledTable

/-!
# The match that is found is the first

The definitions of a context are searched together, with a second try where the winner matches
nothing and a new start one character further. What comes out is what a search without these turns
would find: try every definition on its own at every place, and take the leftmost match that is not
empty, at one place that of the earliest definition.

This needs the groups of the joined pattern to be looked up under their numbers. They are not where
a definition repeats a group zero times, and then the match can go to a definition that does not
match at all (`Matcher.find?_dropped_group`).

Places in a source are counted in characters; every character boundary is such a place.

> `Matcher.matchesAt_iff`: a rule matches at a place if and only if it does, seen from further back.
> `Matcher.find?_first`: the match that is found is the first one.
-/

namespace Stencil

namespace Rule

/-- Rule `i` of a list, tried on its own at place `p` of a source, prefers a match that is not empty
and ends at `e`. -/
def MatchesAt (rules : List Rule) (source : List Char) (p i e : Nat) : Prop :=
  ∃ r n, rules[i]? = some r ∧ p ≤ source.length ∧
    r.matchAt? (source.take p).getLast? (source.drop p) = some n ∧ 0 < n ∧ e = p + n

/-- Of all matches from a place on that are not empty, this one is leftmost, and no earlier rule has
one there. -/
structure FirstMatch (rules : List Rule) (source : List Char) (start p i e : Nat) : Prop where
  behind : start ≤ p
  matchesAt : MatchesAt rules source p i e
  least : ∀ p' i' e', start ≤ p' → MatchesAt rules source p' i' e' → p < p' ∨ p = p' ∧ i ≤ i'

variable {rules : List Rule} {source : List Char} {offset : Nat}

/-- A rule matches at a place behind `offset` if and only if it does, seen from there. -/
theorem matchesAt_iff (hoffset : offset ≤ source.length) {k i e : Nat} :
    MatchesAt rules source (offset + k) i e ↔
      k ≤ (source.drop offset).length ∧ ∃ r n, rules[i]? = some r ∧
        r.matchAt? (Pattern.beforeAt (source.take offset).getLast? (source.drop offset) k)
          ((source.drop offset).drop k) = some n ∧ 0 < n ∧ e = offset + k + n := by
  have hplace : offset + k ≤ source.length ↔ k ≤ (source.drop offset).length := by
    rw [List.length_drop]
    omega
  have hbefore : k ≤ (source.drop offset).length →
      Pattern.beforeAt (source.take offset).getLast? (source.drop offset) k =
        (source.take (offset + k)).getLast? := by
    intro hk
    rw [Pattern.beforeAt_eq_getLast? rfl hk, List.take_add]
  unfold MatchesAt
  constructor
  · rintro ⟨r, n, hr, hp, hmatch, hpos, he⟩
    have hk := hplace.mp hp
    refine ⟨hk, r, n, hr, ?_, hpos, he⟩
    rw [hbefore hk, List.drop_drop]
    exact hmatch
  · rintro ⟨hk, r, n, hr, hmatch, hpos, he⟩
    refine ⟨r, n, hr, hplace.mpr hk, ?_, hpos, he⟩
    rw [hbefore hk, List.drop_drop] at hmatch
    exact hmatch

/-- Where there is no hit, no rule matches any text. -/
private theorem not_matchesAt (hoffset : offset ≤ source.length) {k : Nat}
    (hnone : hit? rules (Pattern.beforeAt (source.take offset).getLast? (source.drop offset) k)
      ((source.drop offset).drop k) = none) (i e : Nat) :
    ¬MatchesAt rules source (offset + k) i e := by
  intro hmatch
  obtain ⟨_, r, n, hr, hn, hpos, _⟩ := (matchesAt_iff hoffset).mp hmatch
  exact hit?_eq_none_iff.mp hnone r (List.mem_of_getElem? hr) ⟨n, hn, hpos⟩

theorem not_matchesAt_of_none (hoffset : offset ≤ source.length)
    (hnone : Found.search? rules (source.take offset).getLast? (source.drop offset) = none)
    {p : Nat} (hp : offset ≤ p) (i e : Nat) : ¬MatchesAt rules source p i e := by
  obtain ⟨k, rfl⟩ := Nat.exists_eq_add_of_le hp
  intro hmatch
  have hk := ((matchesAt_iff hoffset).mp hmatch).1
  exact not_matchesAt hoffset (Found.search?_eq_none hnone k hk) i e hmatch

/-- What the rules find one by one is their first match. -/
theorem firstMatch_of_some (hoffset : offset ≤ source.length) {f : Found}
    (hf : Found.search? rules (source.take offset).getLast? (source.drop offset) = some f) :
    ∃ i, rules[i]? = some f.rule ∧
      FirstMatch rules source offset (offset + f.skipped) i (offset + f.skipped + f.length) := by
  obtain ⟨hle, hit, hbefore⟩ := Found.search?_eq_some hf
  obtain ⟨hpos, i, hi, hmatch, hfirst⟩ := hit?_eq_some_iff.mp hit
  refine ⟨i, hi, Nat.le_add_right _ _, ?_, fun p' i' e' hp' hmatch' => ?_⟩
  · exact (matchesAt_iff hoffset).mpr ⟨hle, f.rule, f.length, hi, hmatch, hpos, rfl⟩
  · obtain ⟨k, rfl⟩ := Nat.exists_eq_add_of_le hp'
    rcases Nat.lt_trichotomy k f.skipped with hk | rfl | hk
    · exact absurd hmatch' (not_matchesAt hoffset (hbefore k hk) i' e')
    · -- the same place: an earlier rule matches no text there
      refine .inr ⟨rfl, Nat.le_of_not_lt fun hlt => ?_⟩
      obtain ⟨_, r, n, hr, hn, hn0, _⟩ := (matchesAt_iff hoffset).mp hmatch'
      exact hfirst i' hlt r hr ⟨n, hn, hn0⟩
    · exact .inl (by omega)

/-- There is only one first match, and it determines what is found. -/
theorem FirstMatch.unique {start p p' i i' e e' : Nat} (h : FirstMatch rules source start p i e)
    (h' : FirstMatch rules source start p' i' e') : p = p' ∧ i = i' ∧ e = e' := by
  have hplace : p = p' ∧ i = i' := by
    have hle := h.least p' i' e' h'.behind h'.matchesAt
    have hge := h'.least p i e h.behind h.matchesAt
    omega
  obtain ⟨rfl, rfl⟩ := hplace
  obtain ⟨r, n, hr, _, hn, _, rfl⟩ := h.matchesAt
  obtain ⟨r', n', hr', _, hn', _, rfl⟩ := h'.matchesAt
  -- the same rule at the same place has one preferred match
  rw [hr] at hr'
  cases hr'
  rw [hn] at hn'
  cases hn'
  exact ⟨rfl, rfl, rfl⟩

/-- A match at the start is the first one if no rule before its own matches there. -/
theorem FirstMatch.at_start {i n : Nat} (hmatch : MatchesAt rules source 0 i n)
    (hbefore : ∀ r ∈ rules.take i, r.matchAt? none source = none) :
    FirstMatch rules source 0 0 i n := by
  refine ⟨Nat.le_refl 0, hmatch, fun p' i' e' _ hmatch' => ?_⟩
  rcases Nat.eq_zero_or_pos p' with rfl | hpos
  · refine .inr ⟨rfl, Nat.le_of_not_lt fun hlt => ?_⟩
    obtain ⟨r, k, hr, -, hk, -⟩ := hmatch'
    have hmem : r ∈ rules.take i := by
      refine List.mem_of_getElem? (i := i') ?_
      rw [List.getElem?_take_of_lt hlt]
      exact hr
    cases hk.symm.trans (hbefore r hmem)
  · exact .inl hpos

end Rule

namespace Matcher

open Rule (MatchesAt FirstMatch)

/-- **The match that is found is the first one** of those that the definitions of the context have
when each is tried on its own, at every place from the given one on; and nothing is found only if
there are none. The joined pattern is taken to be the alternation of the definitions' patterns, each
in a group, and the numbers of these groups to be counted right. -/
theorem find?_first {m : Matcher} {numbers : List Nat} (hwhole : m.Joins numbers)
    (hcounted : m.groups = numbers) {source : List Char} {offset : Nat}
    (hoffset : offset ≤ source.length) :
    (∀ f, m.find? (source.take offset).getLast? (source.drop offset) = some f ↔
      ∃ i, m.rules[i]? = some f.rule ∧
        FirstMatch m.rules source offset (offset + f.skipped) i
          (offset + f.skipped + f.length)) ∧
    (m.find? (source.take offset).getLast? (source.drop offset) = none ↔
      ∀ p i e, offset ≤ p → ¬MatchesAt m.rules source p i e) := by
  subst hcounted
  rw [find?_eq_search? hwhole]
  refine ⟨fun f => ⟨Rule.firstMatch_of_some hoffset, ?_⟩, fun hnone p i e hp => ?_, fun hno => ?_⟩
  · rintro ⟨i, hi, hfirst⟩
    cases hfind : Found.search? m.rules (source.take offset).getLast? (source.drop offset) with
    | none =>
      exact absurd hfirst.matchesAt (Rule.not_matchesAt_of_none hoffset hfind hfirst.behind i _)
    | some g =>
      obtain ⟨i', hi', hfirst'⟩ := Rule.firstMatch_of_some hoffset hfind
      obtain ⟨hp, rfl, he⟩ := hfirst.unique hfirst'
      obtain ⟨skipped, length, r⟩ := f
      obtain ⟨skipped', length', r'⟩ := g
      dsimp only at hi hp he hi' ⊢
      rw [hi] at hi'
      cases hi'
      obtain rfl : skipped = skipped' := by omega
      obtain rfl : length = length' := by omega
      rfl
  · exact Rule.not_matchesAt_of_none hoffset hnone hp i e
  · cases hfind : Found.search? m.rules (source.take offset).getLast? (source.drop offset) with
    | none => rfl
    | some f =>
      obtain ⟨i, _, hfirst⟩ := Rule.firstMatch_of_some hoffset hfind
      exact absurd hfirst.matchesAt (hno _ _ _ hfirst.behind)

/-- Definitions with groups of their own, two of which also match the empty text. -/
def groupedDefinitions : List TokenDef := [
    ⟨.block, .int, .literal, "([0-9])*", .stay⟩,
    ⟨.block, .identifier, .literal, "(?:(x)|(y))*?", .stay⟩,
    ⟨.block, .plus, .normal, "(\\+)+", .stay⟩]

/-- Behind the first character, which has two bytes, two definitions win with nothing at the first
place; the third one matches at the next. -/
theorem find?_first_grouped :
    ∃ m f, compile .block groupedDefinitions = .ok m ∧ m.Joins [1, 3, 6] ∧
      m.groups = [1, 3, 6] ∧ 1 ≤ "éy++7".toList.length ∧
      m.find? ("éy++7".toList.take 1).getLast? ("éy++7".toList.drop 1) = some f ∧
      (f.skipped, f.length, f.rule.definition.kind) = (1, 2, .plus) ∧
      ∃ i, m.rules[i]? = some f.rule ∧
        FirstMatch m.rules "éy++7".toList 1 (1 + f.skipped) i (1 + f.skipped + f.length) := by
  have hgroups : (compile .block groupedDefinitions).toOption.map (·.groups) = some [1, 3, 6] := by
    decide +kernel
  have hwhole : (compile .block groupedDefinitions).toOption.map (·.whole) =
      (compile .block groupedDefinitions).toOption.map
        (fun m => Rule.alternation [1, 3, 6] m.rules) := by
    decide +kernel
  have hfind : ((compile .block groupedDefinitions).toOption.bind fun m =>
      m.find? ("éy++7".toList.take 1).getLast? ("éy++7".toList.drop 1)).map
        (fun f => (f.skipped, f.length, f.rule.definition.kind)) = some (1, 2, .plus) := by
    decide +kernel
  cases hm : compile .block groupedDefinitions with
  | error e => rw [hm] at hgroups; cases hgroups
  | ok m =>
    rw [hm] at hgroups hwhole hfind
    obtain ⟨f, hf, hparts⟩ := Option.map_eq_some_iff.mp hfind
    have hgroups : m.groups = [1, 3, 6] := Option.some.inj hgroups
    have hjoins : m.Joins [1, 3, 6] :=
      joins_of_eq (hgroups ▸ Rule.length_groupsFrom 1 m.rules) (Option.some.inj hwhole)
    have hlen : 1 ≤ "éy++7".toList.length := by decide
    obtain ⟨i, hi, hfirst⟩ := ((find?_first hjoins hgroups hlen).1 f).mp hf
    exact ⟨m, f, rfl, hjoins, hgroups, hlen, hf, hparts, i, hi, hfirst⟩

/-- The first definition repeats a group zero times, so the groups of the two behind it are looked
up under numbers that are too low. -/
def droppedGroupDefinitions : List TokenDef := [
    ⟨.block, .int, .literal, "x(a){0}", .stay⟩,
    ⟨.block, .identifier, .literal, "y(b)", .stay⟩,
    ⟨.block, .plus, .normal, "z", .stay⟩]

/-- The patterns of these definitions as they are read, one by one and together. -/
def droppedGroup : Matcher :=
  let rules := droppedGroupDefinitions.zipWith Rule.mk [
    .seq (.one (.single 'x')) .empty,
    .seq (.one (.single 'y')) (.group 1 (.one (.single 'b'))),
    .one (.single 'z')]
  ⟨.block, rules, Rule.alternation [1, 3, 5] rules⟩

theorem compile_droppedGroup : compile .block droppedGroupDefinitions = .ok droppedGroup := by
  have hrun : (compile .block droppedGroupDefinitions).toOption = some droppedGroup := by
    decide +kernel
  cases hm : compile .block droppedGroupDefinitions with
  | error e => rw [hm] at hrun; cases hrun
  | ok m => rw [hm] at hrun; cases hrun; rfl

/-- **A match can go to a definition that does not match.** The joined pattern is the alternation of
the three patterns, in the groups 1, 3 and 5. On `yb` only the second definition matches, from the
first character to the end. But the groups looked up are 1, 2 and 4, and the fourth is the one
inside the second definition, so the match goes to the third. On `z` no group that is looked up
takes part, and nothing is found although the third definition matches. -/
theorem find?_dropped_group :
    compile .block droppedGroupDefinitions = .ok droppedGroup ∧ droppedGroup.Joins [1, 3, 5] ∧
      droppedGroup.groups = [1, 2, 4] ∧ FirstMatch droppedGroup.rules "yb".toList 0 0 1 2 ∧
      (droppedGroup.find? none "yb".toList).map
        (fun f => (f.skipped, f.length, f.rule.definition.kind)) = some (0, 2, .plus) ∧
      FirstMatch droppedGroup.rules "z".toList 0 0 2 1 ∧
      droppedGroup.find? none "z".toList = none := by
  refine ⟨compile_droppedGroup, joins_of_eq rfl rfl, rfl, ?_, by decide +kernel, ?_,
    by decide +kernel⟩
  · exact .at_start ⟨_, 2, rfl, by decide, by decide +kernel, by decide, rfl⟩ (by decide +kernel)
  · exact .at_start ⟨_, 1, rfl, by decide, by decide +kernel, by decide, rfl⟩ (by decide +kernel)

end Matcher

end Stencil
