import Stencil.Proofs.LockstepTemplate

/-!
# Templates one after the other

The tokens of a whole template may stand in front of any others. The template parser takes them,
comes back between blocks, and goes on with the tokens behind them as it would if they stood alone,
with the same items and the same refusals. The tokens behind may come from further on in a source
than those that the parser would be given alone (`Token.shift`), which changes no outcome.

> `Stage.Takes`: tokens that can be taken one after the other.
> `Derives.takes_of_body`: the tokens of a template lead back between blocks.
> `Derives.runTokens_append`: parsing a template in front of more tokens.
-/

namespace Stencil

/-- The token further on in the source. -/
def Token.shift (n : Nat) (t : Token) : Token :=
  { t with offset := t.offset.map (· + n) }

theorem Token.same_shift (n : Nat) (t : Token) : (t.shift n).Same t :=
  ⟨rfl, rfl⟩

theorem headD_map_shift (n : Nat) (ts : List Token) :
    (ts.map (Token.shift n)).headD Token.eof = (ts.headD Token.eof).shift n := by
  cases ts <;> rfl

/-! ## Tokens that can be taken -/

namespace Stage

/-- The tokens can be taken one after the other, and lead from one stage to another. -/
def Takes : Stage → List Token → Stage → Prop
  | i, [], j => i = j
  | i, t :: ts, j => i.takes t.kind = true ∧ (i.after t.kind).Takes ts j

/-- Tokens can be taken in a row if the first ones can, and then the others from the stage that
these lead to. -/
theorem takes_append {i k : Stage} {ts us : List Token} :
    i.Takes (ts ++ us) k ↔ ∃ j, i.Takes ts j ∧ j.Takes us k := by
  induction ts generalizing i with
  | nil =>
    constructor
    · intro h
      exact ⟨i, rfl, h⟩
    · intro h
      obtain ⟨_, rfl, h⟩ := h
      exact h
  | cons t ts ih =>
    constructor
    · intro h
      obtain ⟨j, hts, hus⟩ := ih.mp h.2
      exact ⟨j, ⟨h.1, hts⟩, hus⟩
    · intro h
      obtain ⟨j, ⟨ht, hts⟩, hus⟩ := h
      exact ⟨ht, ih.mpr ⟨j, hts, hus⟩⟩

theorem takes_singleton {i : Stage} {t : Token} : i.Takes [t] (i.after t.kind) ↔
    i.takes t.kind = true :=
  ⟨fun h => h.1, fun h => ⟨h, rfl⟩⟩

end Stage

namespace Parse

/-! ## Lists in lockstep -/

/-- What is left of a list, when the tokens before it could be taken from the text on. -/
structure Along (all : List Token) (x : Position) (ts us : List Token) : Prop where
  eq : ts = us
  taken : ∃ taken, all = taken ++ ts ∧ Stage.text.Takes taken x.stage
  seen : ∀ k, x.seen = some k → kindAhead ts = k
  left : ts.length ≤ x.left

/-- Two lists with the same tokens, those of the first further on in a source. The second is a part
of a list. -/
structure Shifted (n : Nat) (all : List Token) (x : Position) (ts us : List Token) : Prop where
  eq : ts = us.map (Token.shift n)
  part : us <:+ all
  seen : ∀ k, x.seen = some k → kindAhead us = k
  left : us.length ≤ x.left

/-- What has been taken of the whole list stays takable from the text on, token by token. -/
theorem linked_along {all : List Token} : Linked (Along all) where
  peek := by
    intro x ts us h
    obtain ⟨rfl, htaken, hseen, hleft⟩ := h
    refine ⟨⟨rfl, rfl⟩, fun k hk => (hseen k hk).symm, rfl, htaken, fun k hk => ?_, hleft⟩
    cases hk
    rfl
  next := by
    intro x ts us k h hseen htakes
    obtain ⟨rfl, ⟨taken, hall, htaken⟩, hahead, hleft⟩ := h
    have hkind := hahead k hseen
    obtain ⟨t, ts, rfl⟩ := exists_cons_of_kindAhead (hkind ▸ Stage.takes_ne_eof htakes)
    obtain rfl : t.kind = k := hkind
    rw [List.length_cons] at hleft
    refine ⟨by omega, ⟨rfl, rfl⟩, rfl, rfl, ⟨taken ++ [t], ?_, ?_⟩, nofun, ?_⟩
    · rw [hall, List.append_assoc]
      rfl
    · exact Stage.takes_append.mpr ⟨x.stage, htaken, Stage.takes_singleton.mpr htakes⟩
    · show ts.length ≤ x.left - 1
      omega

/-- Offsets make no difference to a parser. -/
theorem linked_shifted {n : Nat} {all : List Token} : Linked (Shifted n all) where
  peek := by
    intro x ts us h
    obtain ⟨rfl, hpart, hseen, hleft⟩ := h
    have hhead := headD_map_shift n us
    have hkind : ((us.map (Token.shift n)).headD Token.eof).kind = kindAhead us := by
      rw [hhead]
      rfl
    refine ⟨?_, fun k hk => ?_, rfl, hpart, fun k hk => ?_, hleft⟩
    · show ((us.map (Token.shift n)).headD Token.eof).Same (us.headD Token.eof)
      rw [hhead]
      exact Token.same_shift n _
    · exact (hseen k hk).symm.trans hkind.symm
    · cases hk
      exact hkind.symm
  next := by
    intro x ts us k h hseen htakes
    obtain ⟨rfl, hpart, hahead, hleft⟩ := h
    have hkind := hahead k hseen
    obtain ⟨t, us, rfl⟩ := exists_cons_of_kindAhead (hkind ▸ Stage.takes_ne_eof htakes)
    rw [List.length_cons] at hleft
    refine ⟨by omega, Token.same_shift n t, hkind, rfl, ?_, nofun, ?_⟩
    · exact (List.suffix_cons t us).trans hpart
    · show us.length ≤ x.left - 1
      omega

end Parse

namespace Derives

open Grammar Parse

/-- **The tokens of a template** can be taken one after the other, and lead back between blocks. -/
theorem takes_of_body {us : List Token} {items : List Item} (h : Body us items []) :
    Stage.text.Takes us .text := by
  have hread : template.Reads (us.length + 1) us items [] :=
    (reads_template (Nat.lt_succ_self _)).mpr ⟨us, (List.append_nil us).symm, h, rfl⟩
  have halong : Along us ⟨.text, none, us.length⟩ us us :=
    ⟨rfl, ⟨[], rfl, rfl⟩, nofun, Nat.le_refl _⟩
  have hends := run_alike linked_along (alike_template ⟨rfl, rfl⟩) halong (Nat.lt_succ_self _)
    (Nat.lt_succ_self _)
  unfold Parse.Reads at hread
  rw [hread] at hends
  cases hends with
  | ok hy =>
    obtain ⟨y, ⟨-, hstage, -⟩, -, ⟨taken, hall, htaken⟩, -⟩ := hy
    rw [List.append_nil] at hall
    rw [hstage, ← hall] at htaken
    exact htaken

section

variable {limit size : Nat} {B : List Token → List Item → List TokenKind → Prop}
  {body : Grammar.Body} {us ts : List Token} {items : List Item} {stops : List TokenKind}

/-- The loop over the elements of a body takes elements, and goes on behind them with their
items. -/
theorem BodyReader.run_elements (h : BodyReader limit size B body) (hstops : .blockClose ∉ stops)
    (helements : Elements B us items stops) (hlen : (us ++ ts).length ≤ size) {fuel : Nat}
    (hfuel : us.length ≤ fuel) (acc : List Item) :
    ∃ fuel', fuel ≤ fuel' + us.length ∧
      (iterateUpTo (bodyStep body stops) fuel acc).run limit (us ++ ts) =
        (iterateUpTo (bodyStep body stops) fuel' (items.reverse ++ acc)).run limit ts := by
  induction helements generalizing acc fuel with
  | nil => exact ⟨fuel, Nat.le_refl _, rfl⟩
  | @cons us item vs items stops helement _ ih =>
    have hpos := List.length_pos_iff.mpr helement.ne_nil
    rw [List.append_assoc] at hlen ⊢
    rw [List.length_append] at hfuel ⊢
    cases fuel with
    | zero => omega
    | succ fuel =>
      have hstep : (bodyStep body stops acc).Reads limit (us ++ (vs ++ ts))
          (some (item.toList ++ acc)) (vs ++ ts) :=
        (h.reads_bodyStep hstops hlen).mpr (.inl ⟨us, item, rfl, helement, rfl⟩)
      have hlen' : (vs ++ ts).length ≤ size := by
        rw [List.length_append] at hlen
        omega
      have hfuel' : vs.length ≤ fuel := by omega
      obtain ⟨fuel', hle, hrun⟩ := ih hstops hlen' hfuel' (item.toList ++ acc)
      refine ⟨fuel', by omega, ?_⟩
      have hitems : (item.toList ++ items).reverse ++ acc =
          items.reverse ++ (item.toList ++ acc) := by
        cases item <;> simp
      unfold Parse.Reads at hstep
      rw [iterateUpTo, run_bind, hstep, hitems]
      exact hrun

end

/-- **A template in front of more tokens.** The parser goes on behind it as if the other tokens
stood alone: it ends with their items behind those of the template, or refuses the same token. -/
theorem runTokens_append {us : List Token} {items : List Item} (h : Body us items []) (n : Nat)
    (ts : List Token) :
    Parse.Ends (fun a _ b _ => a = items ++ b)
      (fun _ s t => s = t.map (Token.shift n) ∧ t <:+ ts)
      (runTokens template (us ++ ts.map (Token.shift n))) (runTokens template ts) := by
  generalize hsize : (us ++ ts.map (Token.shift n)).length = size
  have hlength : size = us.length + ts.length := by
    rw [← hsize, List.length_append, List.length_map]
  have henough : us.length ≤ size + 1 := by omega
  obtain ⟨fuel, hfuel, hfront⟩ := (bodyReader_bodyWithin (Nat.lt_succ_self size)).run_elements
    List.not_mem_nil (body_iff.mp h) (Nat.le_of_eq hsize) henough []
  have hshifted : Shifted n ts ⟨.text, none, ts.length⟩ (ts.map (Token.shift n)) ts :=
    ⟨rfl, List.suffix_refl ts, nofun, Nat.le_refl _⟩
  have hle : ts.length ≤ size := by omega
  have hrest : ts.length < fuel := by omega
  have halike := (bodyAlike_bodyWithin hle (Nat.le_refl ts.length)).elements []
    (x := ⟨.text, none, ts.length⟩) ⟨rfl, rfl⟩ (Nat.le_refl _) (items.reverse ++ []) hrest
    (Nat.lt_succ_self ts.length)
  have hends := run_alike linked_shifted halike hshifted (Nat.lt_succ_of_le hle)
    (Nat.lt_succ_self ts.length)
  -- both runs are that of the loop with the items put into order behind it
  have hrun : ∀ (m : Nat) (s : List Token), template.run (m + 1) s =
      (iterateUpTo (bodyStep (bodyWithin m) []) (m + 1) []).run (m + 1) s >>=
        fun r => (pure r.1.reverse : Parse (List Item)).run (m + 1) r.2 :=
    fun m s => run_bind (iterate (bodyStep (bodyWithin m) []) [])
      (fun items => pure items.reverse) s
  unfold runTokens
  rw [hsize, hrun, hrun, hfront]
  generalize (iterateUpTo (bodyStep (bodyWithin size) []) fuel (items.reverse ++ [])).run (size + 1)
    (ts.map (Token.shift n)) = front at hends ⊢
  generalize (iterateUpTo (bodyStep (bodyWithin ts.length) []) (ts.length + 1) []).run
    (ts.length + 1) ts = alone at hends ⊢
  cases hends with
  | ok hy =>
    obtain ⟨y, ⟨rfl, -⟩, -⟩ := hy
    refine .ok ?_
    simp
  | error hy =>
    obtain ⟨y, -, hshifted⟩ := hy
    exact .error ⟨hshifted.eq, hshifted.part⟩

end Derives

end Stencil
