import Stencil.Proofs.Matching

/-!
# Matches that more text cannot change

What a pattern matches at a place may depend on all the text that follows. Three kinds of patterns
are settled early. A pattern of fixed width looks at that many characters and no others. A pattern
that avoids a character never gets past the next occurrence of it. And a quoted text ends at its
closing quote. Text that is appended behind such a point leaves the matches as they are.

> `Pattern.lengths_append_of_width`: patterns of fixed width.
> `Pattern.lengths_append_of_avoids`: patterns that avoid a character.
> `Pattern.lengths_fixed`: fixed texts.
> `Pattern.lengths_quoted_append`: quoted texts.
-/

namespace Stencil.Pattern

/-! ## Fixed width -/

/-- The number of characters of all matches, for a pattern that looks at these characters only and
matches no more and no fewer of them. -/
def width? : Pattern → Option Nat
  | empty => some 0
  | one _ => some 1
  | edge _ => none
  | seq p q =>
    match p.width?, q.width? with
    | some m, some n => some (m + n)
    | _, _ => none
  | alt p q => if p.width? = q.width? then p.width? else none
  | plus _ _ => none
  | group _ p => p.width?

/-- The width of a sequence is that of its parts together. -/
theorem width?_seq {p q : Pattern} {w : Nat} (h : (seq p q).width? = some w) :
    ∃ m n, p.width? = some m ∧ q.width? = some n ∧ w = m + n := by
  rw [width?] at h
  split at h
  next m n hp hq =>
    cases h
    exact ⟨m, n, hp, hq, rfl⟩
  next => cases h

/-- Both sides of an alternative have its width. -/
theorem width?_alt {p q : Pattern} {w : Nat} (h : (alt p q).width? = some w) :
    p.width? = some w ∧ q.width? = some w := by
  rw [width?] at h
  split at h
  next heq => exact ⟨h, heq ▸ h⟩
  next => cases h

/-- Every match of a pattern with a width has this width. The induction is on the pattern. -/
theorem eq_of_width {p : Pattern} {w : Nat} (hw : p.width? = some w) {before : Option Char}
    {x : List Char} {n : Nat} (hn : n ∈ p.lengths before x) : n = w := by
  induction p generalizing w before x n with
  | empty =>
    cases hw
    exact List.mem_singleton.mp hn
  | one s =>
    cases hw
    cases x with
    | nil => cases hn
    | cons c rest =>
      rw [lengths] at hn
      split at hn
      · exact List.mem_singleton.mp hn
      · cases hn
  | edge e => cases hw
  | seq p q ihp ihq =>
    obtain ⟨m, n, hp, hq, rfl⟩ := width?_seq hw
    obtain ⟨i, hi, hn⟩ := List.mem_flatMap.mp hn
    obtain ⟨j, hj, rfl⟩ := List.mem_map.mp hn
    rw [ihp hp hi, ihq hq hj]
  | alt p q ihp ihq =>
    obtain ⟨hp, hq⟩ := width?_alt hw
    rcases List.mem_append.mp hn with hn | hn
    · exact ihp hp hn
    · exact ihq hq hn
  | plus greedy p ih => cases hw
  | group number p ih => exact ih hw hn

/-- **A pattern of fixed width** does not look at the character before its match. -/
theorem lengths_before_of_width {p : Pattern} {w : Nat} (hw : p.width? = some w)
    (before before' : Option Char) (x : List Char) : p.lengths before x = p.lengths before' x := by
  induction p generalizing w before before' x with
  | empty => rfl
  | one s => cases x <;> rfl
  | edge e => cases hw
  | seq p q ihp ihq =>
    obtain ⟨m, n, hp, hq, -⟩ := width?_seq hw
    rw [lengths, lengths, ihp hp before before']
    refine List.flatMap_congr fun k _ => ?_
    rw [ihq hq]
  | alt p q ihp ihq =>
    obtain ⟨hp, hq⟩ := width?_alt hw
    rw [lengths, lengths, ihp hp before before', ihq hq before before']
  | plus greedy p ih => cases hw
  | group number p ih => exact ih hw before before' x

/-- **A pattern of fixed width** does not look at more characters than that. -/
theorem lengths_append_of_width {p : Pattern} {w : Nat} (hw : p.width? = some w)
    (before : Option Char) {x : List Char} (hx : w ≤ x.length) (y : List Char) :
    p.lengths before (x ++ y) = p.lengths before x := by
  induction p generalizing w before x with
  | empty => rfl
  | one s =>
    cases hw
    cases x with
    | nil => exact absurd hx (Nat.not_succ_le_zero _)
    | cons c rest => rfl
  | edge e => cases hw
  | seq p q ihp ihq =>
    obtain ⟨m, n, hp, hq, rfl⟩ := width?_seq hw
    rw [lengths, lengths, ihp hp before (Nat.le_trans (Nat.le_add_right _ _) hx)]
    refine List.flatMap_congr fun k hk => ?_
    obtain rfl := eq_of_width hp hk
    have hbehind : n ≤ (x.drop k).length := by
      rw [List.length_drop]
      omega
    rw [List.drop_append_of_le_length (by omega), ihq hq _ hbehind,
      lengths_before_of_width hq _ (beforeAt before x k)]
  | alt p q ihp ihq =>
    obtain ⟨hp, hq⟩ := width?_alt hw
    rw [lengths, lengths, ihp hp before hx, ihq hq before hx]
  | plus greedy p ih => cases hw
  | group number p ih => exact ih hw before hx

/-! ## A character that is avoided -/

/-- Whether no set of the pattern holds the character. -/
def avoids (c : Char) : Pattern → Bool
  | empty => true
  | one s => !s.has c
  | edge _ => true
  | seq p q => p.avoids c && q.avoids c
  | alt p q => p.avoids c && q.avoids c
  | plus _ p | group _ p => p.avoids c

/-- The character before a place within a text does not depend on what follows the text. -/
theorem beforeAt_append {before : Option Char} {x y : List Char} {n : Nat} (h : n ≤ x.length) :
    beforeAt before (x ++ y) n = beforeAt before x n := by
  unfold beforeAt
  split
  · rfl
  · rw [List.getElem?_append_left (by omega)]

/-- A character in neither of two stretches in a row is not in both together. -/
theorem not_mem_take_add {c : Char} {x : List Char} {m n : Nat} (hm : c ∉ x.take m)
    (hn : c ∉ (x.drop m).take n) : c ∉ x.take (m + n) := by
  rw [List.take_add, List.mem_append]
  exact fun h => h.elim hm hn

theorem mem_drop_of_not_mem_take {c : Char} {x : List Char} {n : Nat} (hc : c ∈ x)
    (hn : c ∉ x.take n) : c ∈ x.drop n := by
  rw [← List.take_append_drop n x, List.mem_append] at hc
  exact hc.resolve_left hn

section

variable {c : Char} {body : Option Char → List Char → List Nat} {greedy : Bool}

/-- Rounds that avoid a character avoid it together, by induction over how many there are. -/
theorem not_mem_take_of_mem_rounds
    (hbody : ∀ before after, ∀ n ∈ body before after, c ∉ after.take n) :
    ∀ (fuel : Nat) {before : Option Char} {after : List Char},
      ∀ n ∈ rounds body greedy fuel before after, c ∉ after.take n := by
  intro fuel
  induction fuel with
  | zero =>
    intro before after n hn
    rw [rounds, List.mem_singleton] at hn
    subst hn
    exact List.not_mem_nil
  | succ fuel ih =>
    intro before after n hn
    rcases mem_rounds_succ hn with rfl | ⟨k, hk, -, m, hm, rfl⟩
    · exact List.not_mem_nil
    · exact not_mem_take_add (hbody before after k hk) (ih m hm)

/-- Rounds that avoid a character need no more fuel than there are characters, and do not get past
the next occurrence of it. -/
theorem rounds_append (hbody : ∀ before after, ∀ n ∈ body before after, c ∉ after.take n)
    (hsame : ∀ before {x : List Char}, c ∈ x → ∀ y, body before (x ++ y) = body before x) :
    ∀ {fuel fuel' : Nat} {before : Option Char} {x : List Char}, c ∈ x → x.length ≤ fuel →
      x.length ≤ fuel' → ∀ y, rounds body greedy fuel before (x ++ y) =
        rounds body greedy fuel' before x := by
  intro fuel
  induction fuel with
  | zero =>
    intro fuel' before x hc hfuel
    rw [List.eq_nil_of_length_eq_zero (Nat.le_zero.mp hfuel)] at hc
    cases hc
  | succ fuel ih =>
    intro fuel' before x hc hfuel hfuel' y
    cases fuel' with
    | zero =>
      rw [List.eq_nil_of_length_eq_zero (Nat.le_zero.mp hfuel')] at hc
      cases hc
    | succ fuel' =>
      have hmore : ((body before (x ++ y)).flatMap fun n => if n = 0 then [] else
            (rounds body greedy fuel (beforeAt before (x ++ y) n) ((x ++ y).drop n)).map (n + ·)) =
          (body before x).flatMap fun n => if n = 0 then [] else
            (rounds body greedy fuel' (beforeAt before x n) (x.drop n)).map (n + ·) := by
        rw [hsame before hc y]
        refine List.flatMap_congr fun n hn => ?_
        split
        · rfl
        next hne =>
          have hdrop := mem_drop_of_not_mem_take hc (hbody before x n hn)
          have hpos := List.length_pos_of_mem hdrop
          rw [List.length_drop] at hpos
          have hrest : rounds body greedy fuel (beforeAt before x n) (x.drop n ++ y) =
              rounds body greedy fuel' (beforeAt before x n) (x.drop n) := by
            refine ih hdrop ?_ ?_ y <;>
              (rw [List.length_drop]; omega)
          rw [beforeAt_append (by omega), List.drop_append_of_le_length (by omega), hrest]
      rw [rounds, rounds, hmore]

end

/-- A pattern that avoids a character matches no text with it. -/
theorem not_mem_take_of_avoids {p : Pattern} {c : Char} (h : p.avoids c = true) :
    ∀ (before : Option Char) (after : List Char), ∀ n ∈ p.lengths before after,
      c ∉ after.take n := by
  induction p with
  | empty =>
    intro before after n hn
    rw [List.mem_singleton.mp hn]
    exact List.not_mem_nil
  | one s =>
    intro before after n hn
    cases after with
    | nil => cases hn
    | cons d rest =>
      rw [lengths] at hn
      split at hn
      next hs =>
        rw [List.mem_singleton.mp hn, List.take_one, List.head?_cons, Option.toList_some,
          List.mem_singleton]
        rintro rfl
        rw [avoids, hs] at h
        cases h
      next => cases hn
  | edge e =>
    intro before after n hn
    rw [lengths] at hn
    split at hn
    · rw [List.mem_singleton.mp hn]
      exact List.not_mem_nil
    · cases hn
  | seq p q ihp ihq =>
    intro before after n hn
    obtain ⟨hp, hq⟩ := Bool.and_eq_true_iff.mp h
    obtain ⟨k, hk, hn⟩ := List.mem_flatMap.mp hn
    obtain ⟨m, hm, rfl⟩ := List.mem_map.mp hn
    exact not_mem_take_add (ihp hp _ _ k hk) (ihq hq _ _ m hm)
  | alt p q ihp ihq =>
    intro before after n hn
    obtain ⟨hp, hq⟩ := Bool.and_eq_true_iff.mp h
    rcases List.mem_append.mp hn with hn | hn
    · exact ihp hp _ _ n hn
    · exact ihq hq _ _ n hn
  | plus greedy p ih =>
    intro before after n hn
    obtain ⟨k, hk, hn⟩ := List.mem_flatMap.mp hn
    split at hn
    · rw [List.mem_singleton.mp hn]
      exact List.not_mem_nil
    · obtain ⟨m, hm, rfl⟩ := List.mem_map.mp hn
      exact not_mem_take_add (ih h _ _ k hk) (not_mem_take_of_mem_rounds (ih h) _ m hm)
  | group number p ih => exact ih h

/-- **A pattern that avoids a character** does not look past the next occurrence of it. -/
theorem lengths_append_of_avoids {p : Pattern} {c : Char} (h : p.avoids c = true) :
    ∀ (before : Option Char) {x : List Char}, c ∈ x → ∀ y,
      p.lengths before (x ++ y) = p.lengths before x := by
  induction p with
  | empty => intro before x _ y; rfl
  | one s =>
    intro before x hc y
    cases x with
    | nil => cases hc
    | cons d rest => rfl
  | edge e =>
    intro before x hc y
    cases x with
    | nil => cases hc
    | cons d rest => rfl
  | seq p q ihp ihq =>
    intro before x hc y
    obtain ⟨hp, hq⟩ := Bool.and_eq_true_iff.mp h
    rw [lengths, lengths, ihp hp before hc y]
    refine List.flatMap_congr fun n hn => ?_
    have hdrop := mem_drop_of_not_mem_take hc (not_mem_take_of_avoids hp before x n hn)
    have hle := p.le_length_of_mem_lengths n hn
    rw [beforeAt_append hle, List.drop_append_of_le_length hle, ihq hq _ hdrop y]
  | alt p q ihp ihq =>
    intro before x hc y
    obtain ⟨hp, hq⟩ := Bool.and_eq_true_iff.mp h
    rw [lengths, lengths, ihp hp before hc y, ihq hq before hc y]
  | plus greedy p ih =>
    intro before x hc y
    have hp : p.avoids c = true := h
    rw [lengths, lengths, ih hp before hc y]
    refine List.flatMap_congr fun n hn => ?_
    split
    · rfl
    · have hdrop := mem_drop_of_not_mem_take hc (not_mem_take_of_avoids hp before x n hn)
      have hle := p.le_length_of_mem_lengths n hn
      have hrest : rounds p.lengths greedy (x ++ y).length (beforeAt before x n) (x.drop n ++ y) =
          rounds p.lengths greedy x.length (beforeAt before x n) (x.drop n) := by
        refine rounds_append (not_mem_take_of_avoids hp) (ih hp) hdrop ?_ ?_ y
        · rw [List.length_append, List.length_drop]
          omega
        · rw [List.length_drop]
          omega
      rw [beforeAt_append hle, List.drop_append_of_le_length hle, hrest]
  | group number p ih => exact ih h

/-- Where a character stands that a pattern avoids, it matches the empty text at most. -/
theorem eq_zero_of_avoids {p : Pattern} {c : Char} (h : p.avoids c = true) {before : Option Char}
    {rest : List Char} {n : Nat} (hn : n ∈ p.lengths before (c :: rest)) : n = 0 := by
  have hnot := not_mem_take_of_avoids h before (c :: rest) n hn
  cases n with
  | zero => rfl
  | succ n => exact absurd (List.mem_cons_self ..) hnot

/-! ## Fixed texts -/

/-- A pattern that matches a text. -/
def fixed (w : List Char) : Pattern :=
  sequence (w.map fun c => one (.single c))

/-- A text is matched where it stands. -/
theorem lengths_fixed : ∀ (w : List Char) (before : Option Char) (x : List Char),
    (fixed w).lengths before x = if w <+: x then [w.length] else [] := by
  intro w
  induction w with
  | nil => intro before x; simp [fixed, sequence, lengths]
  | cons c w ih =>
    intro before x
    cases w with
    | nil =>
      show (one (.single c)).lengths before x = if [c] <+: x then [1] else []
      cases x with
      | nil => rfl
      | cons d rest => simp [lengths_single, List.cons_prefix_cons, eq_comm]
    | cons d w =>
      show ((one (.single c)).lengths before x).flatMap (fun n =>
        ((fixed (d :: w)).lengths (beforeAt before x n) (x.drop n)).map (n + ·)) = _
      cases x with
      | nil => simp [lengths]
      | cons e x =>
        rw [lengths_single]
        by_cases he : e = c
        · subst he
          rw [if_pos rfl, List.flatMap_singleton, ih, List.drop_one, List.tail_cons]
          by_cases hx : d :: w <+: x
          · rw [if_pos hx, if_pos (List.cons_prefix_cons.mpr ⟨rfl, hx⟩)]
            simp [Nat.add_comm]
          · rw [if_neg hx, if_neg fun h => hx (List.cons_prefix_cons.mp h).2]
            rfl
        · rw [if_neg he, if_neg fun h => he (List.cons_prefix_cons.mp h).1.symm]
          rfl

/-! ## Quoted texts -/

/-- The characters that stand for themselves inside quotes. -/
def plainSet (quote : Char) : CharSet :=
  .compl (.union (.union .nothing (.single quote)) (.single '\\'))

/-- A character inside quotes, or an escaped one. -/
def quotedStep (quote : Char) : Pattern :=
  alt (one (plainSet quote)) (seq (one (.single '\\')) (one .anything))

/-- A text in quotes. -/
def quoted (quote : Char) : Pattern :=
  seq (one (.single quote)) (seq (star true (quotedStep quote)) (one (.single quote)))

/-- The number of characters up to and with the closing quote. -/
def closing? (quote : Char) : List Char → Option Nat
  | [] => none
  | c :: rest =>
    if c = quote then some 1
    else if c = '\\' then
      match rest with
      | [] => none
      | _ :: rest => (closing? quote rest).map (2 + ·)
    else (closing? quote rest).map (1 + ·)

section

variable {quote : Char}

/-- One step inside quotes: an escape takes two characters, anything but the quote takes one. -/
theorem lengths_quotedStep (hquote : quote ≠ '\\') (before : Option Char) (c : Char)
    (rest : List Char) :
    (quotedStep quote).lengths before (c :: rest) =
      if c = quote then [] else if c = '\\' then (if rest = [] then [] else [2]) else [1] := by
  have hplain : (plainSet quote).has c = (!decide (c = quote) && !decide (c = '\\')) := by
    simp only [plainSet, CharSet.has, has_single, Bool.false_or, Bool.not_or]
  have hescaped : ∀ d, CharSet.anything.has d = true := fun _ => rfl
  by_cases hc : c = quote
  · subst hc
    simp [quotedStep, lengths, hplain, has_single, hquote]
  · by_cases hescape : c = '\\'
    · subst hescape
      cases rest with
      | nil => simp [quotedStep, lengths, hplain, has_single, hc]
      | cons d rest => simp [quotedStep, lengths, hplain, has_single, hc, hescaped]
    · simp [quotedStep, lengths, hplain, has_single, hc, hescape]

theorem closing?_quote (rest : List Char) : closing? quote (quote :: rest) = some 1 := by
  unfold closing?
  rw [if_pos rfl]

/-- An escaped character does not close a text in quotes. -/
theorem closing?_escape (hne : '\\' ≠ quote) (d : Char) (rest : List Char) :
    closing? quote ('\\' :: d :: rest) = (closing? quote rest).map (2 + ·) := by
  rw [closing?.eq_def]
  dsimp only
  rw [if_neg hne, if_pos rfl]

theorem closing?_plain {c : Char} (hne : c ≠ quote) (hescape : c ≠ '\\') (rest : List Char) :
    closing? quote (c :: rest) = (closing? quote rest).map (1 + ·) := by
  rw [closing?.eq_def]
  dsimp only
  rw [if_neg hne, if_neg hescape]

/-- Rounds behind a first one, and the closing quote behind them. -/
private theorem flatMap_shifted (ns : List Nat) (k : Nat) (x : List Char) :
    (ns.map (k + ·)).flatMap
      (fun n => ((one (.single quote)).lengths none (x.drop n)).map (n + ·)) =
      (ns.flatMap fun n =>
        ((one (.single quote)).lengths none ((x.drop k).drop n)).map (n + ·)).map (k + ·) := by
  rw [List.flatMap_map, List.map_flatMap]
  refine List.flatMap_congr fun n _ => ?_
  rw [List.map_map, List.drop_drop]
  refine List.map_congr_left fun m _ => ?_
  exact Nat.add_assoc k n m

/-- The characters inside quotes end at the first quote that is not escaped, however many rounds
are tried. -/
private theorem rounds_quoted (hquote : quote ≠ '\\') (x : List Char) :
    ∀ {fuel : Nat} (before : Option Char), x.length ≤ fuel →
      (rounds (quotedStep quote).lengths true fuel before x).flatMap
        (fun n => ((one (.single quote)).lengths none (x.drop n)).map (n + ·)) =
        (closing? quote x).toList := by
  induction x using closing?.induct quote with
  | case1 =>
    intro fuel before _
    cases fuel <;> rfl
  | case2 rest =>
    intro fuel before hfuel
    cases fuel with
    | zero => exact absurd hfuel (Nat.not_succ_le_zero _)
    | succ fuel =>
      rw [rounds, lengths_quotedStep hquote, if_pos rfl, closing?_quote]
      simp [lengths_single]
  | case3 hne =>
    intro fuel before hfuel
    cases fuel with
    | zero => exact absurd hfuel (Nat.not_succ_le_zero _)
    | succ fuel =>
      rw [rounds, lengths_quotedStep hquote, if_neg hne, if_pos rfl, if_pos rfl]
      simp [closing?, lengths_single, hne]
  | case4 d rest hne ih =>
    intro fuel before hfuel
    cases fuel with
    | zero => exact absurd hfuel (Nat.not_succ_le_zero _)
    | succ fuel =>
      rw [List.length_cons, List.length_cons] at hfuel
      have hlen : rest.length ≤ fuel := by omega
      -- no quote closes here, so the round is followed by others
      have hstop := lengths_single none quote '\\' (d :: rest)
      have hrest := ih (beforeAt before ('\\' :: d :: rest) 2) hlen
      rw [if_neg hne] at hstop
      rw [rounds, lengths_quotedStep hquote, if_neg hne, if_pos rfl, if_neg (List.cons_ne_nil _ _),
        if_pos rfl, List.flatMap_append, List.flatMap_singleton, if_neg (by decide),
        flatMap_shifted, List.flatMap_singleton, List.drop_zero, hstop, List.map_nil,
        List.append_nil, closing?_escape hne, Option.toList_map, ← hrest]
      rfl
  | case5 c rest hne hescape ih =>
    intro fuel before hfuel
    cases fuel with
    | zero => exact absurd hfuel (Nat.not_succ_le_zero _)
    | succ fuel =>
      have hlen : rest.length ≤ fuel := Nat.le_of_succ_le_succ hfuel
      have hstop := lengths_single none quote c rest
      have hrest := ih (beforeAt before (c :: rest) 1) hlen
      rw [if_neg hne] at hstop
      rw [rounds, lengths_quotedStep hquote, if_neg hne, if_neg hescape, if_pos rfl,
        List.flatMap_append, List.flatMap_singleton, if_neg (by decide), flatMap_shifted,
        List.flatMap_singleton, List.drop_zero, hstop, List.map_nil, List.append_nil,
        closing?_plain hne hescape, Option.toList_map, ← hrest]
      rfl

/-- Every step inside quotes takes a character. -/
theorem ne_zero_of_mem_quotedStep (hquote : quote ≠ '\\') {before : Option Char} {x : List Char}
    {n : Nat} (hn : n ∈ (quotedStep quote).lengths before x) : n ≠ 0 := by
  cases x with
  | nil => cases hn
  | cons c rest =>
    rw [lengths_quotedStep hquote] at hn
    rintro rfl
    split at hn
    · cases hn
    · split at hn
      · split at hn
        · cases hn
        · cases List.mem_singleton.mp hn
      · cases List.mem_singleton.mp hn

/-- A repetition whose body uses up some text, as rounds from the start on. -/
theorem lengths_star {p : Pattern} {before : Option Char} {x : List Char}
    (hne : ∀ n ∈ p.lengths before x, n ≠ 0) :
    (star true p).lengths before x = rounds p.lengths true (x.length + 1) before x := by
  have hplus : (plus true p).lengths before x =
      (p.lengths before x).flatMap fun n => if n = 0 then [] else
        (rounds p.lengths true x.length (beforeAt before x n) (x.drop n)).map (n + ·) := by
    rw [lengths]
    refine List.flatMap_congr fun n hn => ?_
    rw [if_neg (hne n hn), if_neg (hne n hn)]
  show (plus true p).lengths before x ++ [0] = _
  rw [hplus]
  rfl

/-- A quoted text ends at its closing quote. -/
theorem lengths_quoted (hquote : quote ≠ '\\') (before : Option Char) (c : Char)
    (rest : List Char) :
    (quoted quote).lengths before (c :: rest) =
      if c = quote then ((closing? quote rest).map (1 + ·)).toList else [] := by
  have hone : ∀ b x, (one (.single quote)).lengths b x = (one (.single quote)).lengths none x := by
    intro b x
    cases x <;> rfl
  have hinside : ∀ b, (seq (star true (quotedStep quote)) (one (.single quote))).lengths b rest =
      (closing? quote rest).toList := by
    intro b
    rw [lengths, lengths_star fun _ => ne_zero_of_mem_quotedStep hquote]
    simp only [hone (beforeAt b rest _)]
    exact rounds_quoted hquote rest b (Nat.le_succ _)
  show ((one (.single quote)).lengths before (c :: rest)).flatMap (fun n =>
    ((seq (star true (quotedStep quote)) (one (.single quote))).lengths
      (beforeAt before (c :: rest) n) ((c :: rest).drop n)).map (n + ·)) = _
  rw [lengths_single]
  split
  · rw [List.flatMap_singleton, Option.toList_map]
    show List.map _ (Pattern.lengths _ _ rest) = _
    rw [hinside]
  · rfl

/-- Closing a quoted text does not depend on what is behind the closing quote. -/
theorem closing?_append {x : List Char} {n : Nat} (h : closing? quote x = some n)
    (y : List Char) : closing? quote (x ++ y) = some n := by
  induction x using closing?.induct quote generalizing n with
  | case1 => cases h
  | case2 rest =>
    rw [closing?_quote] at h
    rw [List.cons_append, closing?_quote, h]
  | case3 hne =>
    simp [closing?, hne] at h
  | case4 d rest hne ih =>
    rw [closing?_escape hne, Option.map_eq_some_iff] at h
    obtain ⟨m, hm, rfl⟩ := h
    rw [List.cons_append, List.cons_append, closing?_escape hne, ih hm, Option.map_some]
  | case5 c rest hne hescape ih =>
    rw [closing?_plain hne hescape, Option.map_eq_some_iff] at h
    obtain ⟨m, hm, rfl⟩ := h
    rw [List.cons_append, closing?_plain hne hescape, ih hm, Option.map_some]

/-- **A quoted text that is closed** stays as it is, whatever follows. -/
theorem lengths_quoted_append (hquote : quote ≠ '\\') {before : Option Char} {x : List Char}
    {n : Nat} (hn : n ∈ (quoted quote).lengths before x) (y : List Char) :
    (quoted quote).lengths before (x ++ y) = (quoted quote).lengths before x := by
  cases x with
  | nil => cases hn
  | cons c rest =>
    rw [lengths_quoted hquote] at hn
    rw [List.cons_append, lengths_quoted hquote, lengths_quoted hquote]
    split at hn
    next hc =>
      cases hclosing : closing? quote rest with
      | none => rw [hclosing] at hn; cases hn
      | some m => rw [if_pos hc, if_pos hc, closing?_append hclosing]
    next => cases hn

end

end Stencil.Pattern
