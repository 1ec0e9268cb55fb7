import Stencil.Proofs.Matching

/-!
# Patterns joined to one

The scanner matches the patterns of a context as one alternation, each in a group of its own, and
asks which of these groups took part to know which definition matched. Which numbers they have is
counted from the patterns read one by one.

What goes wrong: a group that a definition repeats zero times is left out of its pattern, but its
bracket still counts in the alternation. The groups behind it are then looked up under numbers that
are too low, and a match goes to another definition or to none. So the numbers have to be those of
the alternation; then the search with the joined pattern finds what the search with one rule after
the other finds.

> `Rule.exists_wins`: the match of an alternation is that of the first rule that matches, and its
> group is the first of all that took part.
> `Matcher.find?_eq_search?`: with the right numbers the joined search is the plain one.
> `Matcher.find?_spec`: with any numbers a match goes to one of the rules and lies within the text.
-/

namespace Stencil

/-! ## Alternations -/

/-- A choice takes the match of its first pattern, or else that of the others. -/
theorem Pattern.capture?_choice_cons (p : Pattern) (ps : List Pattern) (before : Option Char)
    (after : List Char) :
    (choice (p :: ps)).capture? before after =
      (p.capture? before after).or ((choice ps).capture? before after) := by
  cases ps with
  | nil =>
    have hnone : (choice []).capture? before after = none := by cases after <;> rfl
    rw [hnone, Option.or_none]
    rfl
  | cons q ps =>
    show (p.captures before after ++ (choice (q :: ps)).captures before after).head? = _
    rw [List.head?_append]
    rfl

namespace Rule

variable {before : Option Char} {after : List Char}

/-- The ordered alternation of the patterns of rules. Each is a group of the number given for it,
with its own groups numbered on from there. -/
def alternation (numbers : List Nat) (rules : List Rule) : Pattern :=
  Pattern.choice (List.zipWith (fun k r => .group k (r.pattern.shift k)) numbers rules)

/-- An alternation takes the match of its first rule, inside the group of that rule, or else that of
the others. -/
theorem capture?_alternation_cons (k : Nat) (ks : List Nat) (r : Rule) (later : List Rule) :
    (alternation (k :: ks) (r :: later)).capture? before after =
      (((r.pattern.shift k).capture? before after).map (.inGroup k)).or
        ((alternation ks later).capture? before after) := by
  unfold alternation
  rw [List.zipWith_cons_cons, Pattern.capture?_choice_cons]
  congr 1
  exact List.head?_map

/-- A shifted pattern matches where the pattern does. -/
theorem matchAt?_eq_map_shift (r : Rule) (k : Nat) :
    r.matchAt? before after =
      ((r.pattern.shift k).capture? before after).map (·.length) := by
  rw [← Pattern.preferred?_eq_map, Pattern.preferred?, Pattern.lengths_shift]
  rfl

/-- The first rule that matches at a place at all is number `i`, and its match has length `n`. -/
structure Wins (rules : List Rule) (before : Option Char) (after : List Char) (i : Nat) (r : Rule)
    (n : Nat) : Prop where
  getElem? : rules[i]? = some r
  matchAt? : r.matchAt? before after = some n
  first : ∀ j < i, ∀ t : Rule, rules[j]? = some t → t.matchAt? before after = none

/-- A win that is not empty is the hit; an empty one gives way to the later rules. -/
theorem hit?_of_wins {rules : List Rule} {i : Nat} {r : Rule} {n : Nat}
    (h : Wins rules before after i r n) :
    hit? rules before after =
      if 0 < n then some (r, n) else hit? (rules.drop (i + 1)) before after := by
  induction rules generalizing i with
  | nil => cases h.getElem?
  | cons t later ih =>
    cases i with
    | zero =>
      obtain rfl : t = r := Option.some.inj h.getElem?
      rw [hit?, h.matchAt?]
      cases n with
      | zero => rfl
      | succ n => rfl
    | succ i =>
      have hnone : t.matchAt? before after = none := h.first 0 (Nat.succ_pos i) t rfl
      rw [hit?, hnone, List.drop_succ_cons]
      exact ih ⟨h.getElem?, h.matchAt?, fun j hj u hu => h.first (j + 1) (Nat.succ_lt_succ hj) u hu⟩

theorem length_groupsFrom (next : Nat) (rules : List Rule) :
    (groupsFrom next rules).length = rules.length := by
  induction rules generalizing next with
  | nil => rfl
  | cons r later ih => rw [groupsFrom, List.length_cons, List.length_cons, ih]

/-- Where no rule matches, neither does the alternation. -/
theorem matchAt?_eq_none_of_capture? {numbers : List Nat} {rules : List Rule}
    (hlength : numbers.length = rules.length)
    (h : (alternation numbers rules).capture? before after = none) :
    ∀ r ∈ rules, r.matchAt? before after = none := by
  induction rules generalizing numbers with
  | nil => exact List.forall_mem_nil _
  | cons r later ih =>
    cases numbers with
    | nil => cases hlength
    | cons k ks =>
      rw [capture?_alternation_cons, Option.or_eq_none_iff, Option.map_eq_none_iff] at h
      refine List.forall_mem_cons.mpr ⟨?_, ih (Nat.succ.inj hlength) h.2⟩
      rw [matchAt?_eq_map_shift r k, h.1]
      rfl

/-- **The match of an alternation** is that of the first rule that matches. Of all groups that are
looked up, the one of this rule is the first that took part: the numbers grow from rule to rule, and
none below the rule's own is noted. -/
theorem exists_wins {next : Nat} {rules : List Rule} {c : Pattern.Captures}
    (h : (alternation (groupsFrom next rules) rules).capture? before after = some c) :
    c.From next ∧ ∃ i r, Wins rules before after i r c.length ∧
      (groupsFrom next rules).findIdx? c.groups.contains = some i := by
  induction rules generalizing next with
  | nil => cases after <;> cases h
  | cons r later ih =>
    rw [groupsFrom, capture?_alternation_cons] at h
    have hmatch : r.matchAt? before after =
        ((r.pattern.shift next).capture? before after).map (·.length) :=
      matchAt?_eq_map_shift r next
    cases hr : (r.pattern.shift next).capture? before after with
    | some d =>
      rw [hr] at h hmatch
      cases h
      have hfrom : (Pattern.Captures.inGroup next d).From next :=
        List.forall_mem_cons.mpr ⟨Nat.le_refl _,
          Pattern.from_of_mem_captures_shift next r.pattern d (List.mem_of_head? hr)⟩
      refine ⟨hfrom, 0, r, ⟨rfl, hmatch, fun j hj => absurd hj (Nat.not_lt_zero j)⟩, ?_⟩
      have hown : (Pattern.Captures.inGroup next d).groups.contains next = true :=
        List.contains_iff_mem.mpr List.mem_cons_self
      rw [groupsFrom, List.findIdx?_cons, hown]
      rfl
    | none =>
      rw [hr] at h hmatch
      obtain ⟨hfrom, i, t, hwins, hindex⟩ := ih h
      have hnot : c.groups.contains next = false := by
        refine Bool.eq_false_iff.mpr fun hmem => ?_
        have hle := hfrom next (List.contains_iff_mem.mp hmem)
        omega
      refine ⟨fun number hn => ?_, i + 1, t,
        ⟨hwins.getElem?, hwins.matchAt?, fun j hj u hu => ?_⟩, ?_⟩
      · have hle := hfrom number hn
        omega
      · cases j with
        | zero =>
          cases hu
          exact hmatch
        | succ j => exact hwins.first j (Nat.lt_of_succ_lt_succ hj) u hu
      · rw [groupsFrom, List.findIdx?_cons, hnot, hindex]
        rfl

end Rule

/-! ## The search with the joined pattern -/

namespace Matcher

variable {m : Matcher} {before : Option Char} {after : List Char}

/-- The whole stands for the ordered alternation of the patterns, in groups of the given numbers:
its matches capture what those of the alternation do. -/
structure Joins (m : Matcher) (numbers : List Nat) : Prop where
  length_eq : numbers.length = m.rules.length
  capture?_eq : ∀ before after, m.whole.capture? before after =
    (Rule.alternation numbers m.rules).capture? before after

theorem joins_of_eq {numbers : List Nat} (hlength : numbers.length = m.rules.length)
    (h : m.whole = Rule.alternation numbers m.rules) : m.Joins numbers :=
  ⟨hlength, fun before after => congrArg (·.capture? before after) h⟩

/-- At one place the joined pattern leads to the hit of the rules tried one by one. -/
theorem outcome_eq (h : m.Joins m.groups) (before : Option Char) (after : List Char) :
    m.outcome before after =
      match Rule.hit? m.rules before after with
      | some (r, n) => .hit r n
      | none => .nothing := by
  unfold outcome
  rw [h.capture?_eq]
  cases hc : (Rule.alternation m.groups m.rules).capture? before after with
  | none =>
    have hnone : Rule.hit? m.rules before after = none := by
      refine Rule.hit?_eq_none_iff.mpr fun r hr hmatches => ?_
      obtain ⟨n, hn, -⟩ := hmatches
      rw [Rule.matchAt?_eq_none_of_capture? h.length_eq hc r hr] at hn
      cases hn
    rw [hnone]
  | some c =>
    obtain ⟨-, i, r, hwins, hindex⟩ := Rule.exists_wins hc
    have hwinner : m.winner? c = some (r, m.rules.drop (i + 1)) := by
      unfold winner?
      rw [show m.groups.findIdx? c.groups.contains = some i from hindex, Option.bind_some,
        hwins.getElem?]
      rfl
    dsimp only
    rw [hwinner, Rule.hit?_of_wins hwins]
    dsimp only
    split
    · rfl
    · cases Rule.hit? (m.rules.drop (i + 1)) before after <;> rfl

/-- **The joined search is the plain one** if the groups are looked up under their numbers in the
alternation. -/
theorem find?_eq_search? (h : m.Joins m.groups) : m.find? = Found.search? m.rules := by
  funext before after
  induction after generalizing before with
  | nil =>
    rw [find?, Found.search?, outcome_eq h]
    cases Rule.hit? m.rules before [] <;> rfl
  | cons c rest ih =>
    rw [find?, Found.search?, outcome_eq h]
    cases Rule.hit? m.rules before (c :: rest) with
    | none => rw [ih]
    | some hit => rfl

/-! ## Any numbers -/

/-- Whatever the numbers of the groups are, a match goes to one of the rules and lies in the text.
-/
theorem outcome_hit {r : Rule} {n : Nat} (h : m.outcome before after = .hit r n) :
    r ∈ m.rules ∧ n ≤ after.length := by
  unfold outcome at h
  split at h
  · cases h
  next c hc =>
    split at h
    · cases h
    next r' later hwinner =>
      obtain ⟨i, -, hi⟩ := Option.bind_eq_some_iff.mp hwinner
      obtain ⟨t, ht, heq⟩ := Option.map_eq_some_iff.mp hi
      cases heq
      split at h
      · cases h
        refine ⟨List.mem_of_getElem? ht, ?_⟩
        have hlength : m.whole.preferred? before after = some c.length := by
          rw [Pattern.preferred?_eq_map, hc]
          rfl
        exact Pattern.preferred?_le hlength
      · split at h
        · next hit =>
          cases h
          obtain ⟨hmem, hmatch⟩ := Rule.hit?_spec hit
          exact ⟨List.mem_of_mem_drop hmem, Pattern.preferred?_le hmatch⟩
        · cases h

/-- A match that is found goes to a rule of the context and lies within the text. -/
theorem find?_spec : ∀ {after : List Char} {before : Option Char} {f : Found},
    m.find? before after = some f →
      f.rule ∈ m.rules ∧ f.skipped + f.length ≤ after.length := by
  intro after
  induction after with
  | nil =>
    intro before f h
    rw [find?] at h
    split at h
    next hit =>
      cases h
      obtain ⟨hr, hn⟩ := outcome_hit hit
      exact ⟨hr, by dsimp only; omega⟩
    next => cases h
  | cons c rest ih =>
    intro before f h
    rw [find?] at h
    split at h
    next hit =>
      cases h
      obtain ⟨hr, hn⟩ := outcome_hit hit
      exact ⟨hr, by dsimp only; omega⟩
    next => cases h
    next =>
      obtain ⟨g, hg, rfl⟩ := Option.map_eq_some_iff.mp h
      obtain ⟨hr, hle⟩ := ih hg
      refine ⟨hr, ?_⟩
      rw [List.length_cons]
      dsimp only
      omega

end Matcher

end Stencil
