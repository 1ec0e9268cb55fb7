import Mathlib.Data.List.Basic
import Stencil.Pattern.Basic

/-!
# Matches and their groups

What a match captures is its length and the groups that took part in it. Its length is found without
the groups too, and shorter so. Numbering the groups of a pattern higher changes no length, and all
groups that take part in a match then have a number above the shift.

> `Pattern.map_length_captures`: `captures` and `lengths` list the same matches.
> `Pattern.lengths_shift`: the numbers of groups do not matter for the lengths.
> `Pattern.from_of_mem_captures_shift`: a shifted pattern notes no group of a lower number.
-/

namespace Stencil.Pattern

/-! ## Lengths -/

section

variable {body : Option Char → List Char → List Captures} {greedy : Bool}

/-- Matches right behind another one are longer by its length. -/
theorem map_length_append (c : Captures) (cs : List Captures) :
    (cs.map c.append).map (·.length) = (cs.map (·.length)).map (c.length + ·) := by
  rw [List.map_map, List.map_map]
  rfl

/-- The rounds of a repetition have the lengths that the lengths of its body give. -/
theorem map_length_captureRounds :
    ∀ (fuel : Nat) (before : Option Char) (after : List Char),
      (captureRounds body greedy fuel before after).map (·.length) =
        rounds (fun before after => (body before after).map (·.length)) greedy fuel before
          after := by
  intro fuel
  induction fuel with
  | zero => intro _ _; rfl
  | succ fuel ih =>
    intro before after
    have hmore : ((body before after).flatMap fun c =>
          if c.length = 0 then []
          else (captureRounds body greedy fuel (beforeAt before after c.length)
            (after.drop c.length)).map c.append).map (·.length) =
        ((body before after).map (·.length)).flatMap fun n =>
          if n = 0 then []
          else (rounds (fun before after => (body before after).map (·.length)) greedy fuel
            (beforeAt before after n) (after.drop n)).map (n + ·) := by
      rw [List.map_flatMap, List.flatMap_map]
      refine List.flatMap_congr fun c _ => ?_
      split
      · rfl
      · rw [map_length_append, ih]
    rw [captureRounds, rounds]
    cases greedy with
    | true => exact (List.map_append ..).trans (congrArg (· ++ [0]) hmore)
    | false => exact congrArg (0 :: ·) hmore

end

/-- **The same matches** are listed with their groups and without. -/
theorem map_length_captures : ∀ (p : Pattern) (before : Option Char) (after : List Char),
    (p.captures before after).map (·.length) = p.lengths before after := by
  intro p
  induction p with
  | empty => intro _ _; rfl
  | one s =>
    intro before after
    cases after with
    | nil => rfl
    | cons c rest =>
      rw [captures, lengths]
      split <;> rfl
  | edge e =>
    intro before after
    rw [captures, lengths]
    split <;> rfl
  | seq p q ihp ihq =>
    intro before after
    rw [captures, lengths, ← ihp, List.map_flatMap, List.flatMap_map]
    refine List.flatMap_congr fun c _ => ?_
    rw [map_length_append, ihq]
  | alt p q ihp ihq =>
    intro before after
    rw [captures, lengths, List.map_append, ihp, ihq]
  | plus greedy p ih =>
    intro before after
    have hbody : (fun before after => (p.captures before after).map (·.length)) = p.lengths :=
      funext fun before => funext fun after => ih before after
    rw [captures, lengths, ← ih, List.map_flatMap, List.flatMap_map]
    refine List.flatMap_congr fun c _ => ?_
    split
    · next hz => simp [hz]
    · rw [map_length_append, map_length_captureRounds, hbody]
  | group number p ih =>
    intro before after
    rw [captures, lengths, List.map_map, ← ih]
    rfl

/-- The match that counts has the same length with its groups and without. -/
theorem preferred?_eq_map (p : Pattern) (before : Option Char) (after : List Char) :
    p.preferred? before after = (p.capture? before after).map (·.length) := by
  rw [preferred?, capture?, ← map_length_captures, List.head?_map]

/-! ## Numbers of groups -/

/-- The numbers of groups do not matter to where a pattern matches. -/
theorem lengths_shift (k : Nat) (p : Pattern) : (p.shift k).lengths = p.lengths := by
  induction p with
  | empty => rfl
  | one s => rfl
  | edge e => rfl
  | seq p q ihp ihq =>
    funext before after
    rw [shift, lengths, lengths, ihp, ihq]
  | alt p q ihp ihq =>
    funext before after
    rw [shift, lengths, lengths, ihp, ihq]
  | plus greedy p ih =>
    funext before after
    rw [shift, lengths, lengths, ih]
  | group number p ih =>
    funext before after
    rw [shift, lengths, lengths, ih]

/-- All groups that took part have a number of `k` or higher. -/
def Captures.From (k : Nat) (c : Captures) : Prop :=
  ∀ number ∈ c.groups, k ≤ number

namespace Captures

variable {k : Nat} {c d : Captures}

theorem From.nothing : nothing.From k :=
  List.forall_mem_nil _

theorem From.append (hc : c.From k) (hd : d.From k) : (c.append d).From k := by
  intro number h
  rcases List.mem_append.mp h with h | h
  · exact hc number h
  · exact hd number h

end Captures

/-- Groups of a repetition are those of its rounds, by induction over how many there are. -/
theorem from_of_mem_captureRounds {body : Option Char → List Char → List Captures} {greedy : Bool}
    {k : Nat} (hbody : ∀ before after, ∀ c ∈ body before after, c.From k) :
    ∀ (fuel : Nat) {before : Option Char} {after : List Char},
      ∀ c ∈ captureRounds body greedy fuel before after, c.From k := by
  intro fuel
  induction fuel with
  | zero =>
    intro before after c hc
    rw [List.mem_singleton.mp hc]
    exact .nothing
  | succ fuel ih =>
    intro before after c hc
    -- greedy or not, the round stops here or goes on behind a match of the body
    have hround : c = .nothing ∨ ∃ d ∈ body before after, ∃ e ∈ captureRounds body greedy fuel
        (beforeAt before after d.length) (after.drop d.length), c = d.append e := by
      rw [captureRounds] at hc
      have hmem : c = .nothing ∨ c ∈ (body before after).flatMap fun d =>
          if d.length = 0 then []
          else (captureRounds body greedy fuel (beforeAt before after d.length)
            (after.drop d.length)).map d.append := by
        cases greedy with
        | true => simpa [or_comm] using hc
        | false => simpa using hc
      refine hmem.imp_right fun h => ?_
      obtain ⟨d, hd, hcd⟩ := List.mem_flatMap.mp h
      split at hcd
      · cases hcd
      · obtain ⟨e, he, rfl⟩ := List.mem_map.mp hcd
        exact ⟨d, hd, e, he, rfl⟩
    rcases hround with rfl | ⟨d, hd, e, he, rfl⟩
    · exact .nothing
    · exact (hbody before after d hd).append (ih e he)

/-- A pattern whose groups are numbered `k` higher notes no group of a lower number. -/
theorem from_of_mem_captures_shift (k : Nat) : ∀ (p : Pattern) {before : Option Char}
    {after : List Char}, ∀ c ∈ (p.shift k).captures before after, c.From k := by
  intro p
  induction p with
  | empty =>
    intro before after c hc
    rw [List.mem_singleton.mp hc]
    exact .nothing
  | one s =>
    intro before after c hc
    cases after with
    | nil => cases hc
    | cons a rest =>
      rw [shift, captures] at hc
      split at hc
      · rw [List.mem_singleton.mp hc]
        exact List.forall_mem_nil _
      · cases hc
  | edge e =>
    intro before after c hc
    rw [shift, captures] at hc
    split at hc
    · rw [List.mem_singleton.mp hc]
      exact .nothing
    · cases hc
  | seq p q ihp ihq =>
    intro before after c hc
    obtain ⟨d, hd, hcd⟩ := List.mem_flatMap.mp hc
    obtain ⟨e, he, rfl⟩ := List.mem_map.mp hcd
    exact (ihp d hd).append (ihq e he)
  | alt p q ihp ihq =>
    intro before after c hc
    rcases List.mem_append.mp hc with hc | hc
    · exact ihp c hc
    · exact ihq c hc
  | plus greedy p ih =>
    intro before after c hc
    obtain ⟨d, hd, hcd⟩ := List.mem_flatMap.mp hc
    split at hcd
    · rw [List.mem_singleton.mp hcd]
      exact ih d hd
    · obtain ⟨e, he, rfl⟩ := List.mem_map.mp hcd
      exact (ih d hd).append (from_of_mem_captureRounds (fun _ _ => ih) after.length e he)
  | group number p ih =>
    intro before after c hc
    obtain ⟨d, hd, rfl⟩ := List.mem_map.mp hc
    exact List.forall_mem_cons.mpr ⟨Nat.le_add_left k number, ih d hd⟩

end Stencil.Pattern
