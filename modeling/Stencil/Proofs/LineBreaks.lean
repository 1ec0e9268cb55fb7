import Stencil.Text.Lines

/-!
# Line feeds in texts

A text is cut at its line feeds, so that no piece has one in it. Texts that have none can be put
together to a text that has none.

> `splitOn_terminated`: lines that end with a line feed each are found again by cutting there.
> `oneLine_intercalate`: texts put together with a text between them.
-/

namespace Stencil.Text

/-- No piece has a line feed in it. -/
theorem not_mem_of_mem_splitOn (text : List Char) :
    ∀ line ∈ text.splitOn '\n', '\n' ∉ line := by
  induction text with
  | nil =>
    intro line hline
    rw [List.splitOn_nil, List.mem_singleton] at hline
    rw [hline]
    exact List.not_mem_nil
  | cons c text ih =>
    rw [List.splitOn_cons_eq_if_modifyHead]
    cases hpieces : text.splitOn '\n' with
    | nil => exact absurd hpieces (List.splitOn_ne_nil _ _)
    | cons first more =>
      rw [hpieces] at ih
      obtain ⟨hfirst, hmore⟩ := List.forall_mem_cons.mp ih
      split
      · exact List.forall_mem_cons.mpr ⟨List.not_mem_nil, ih⟩
      · next hc =>
        refine List.forall_mem_cons.mpr ⟨fun h => ?_, hmore⟩
        rcases List.mem_cons.mp h with rfl | h
        · exact hc (beq_self_eq_true _)
        · exact hfirst h

/-- **Lines that end with a line feed each** are found again, with an empty piece behind the last
line feed. -/
theorem splitOn_terminated {ls : List (List Char)} (h : ∀ line ∈ ls, '\n' ∉ line) :
    (ls.flatMap (· ++ ['\n'])).splitOn '\n' = ls ++ [[]] := by
  induction ls with
  | nil => rfl
  | cons line ls ih =>
    obtain ⟨hline, hls⟩ := List.forall_mem_cons.mp h
    rw [List.flatMap_cons, List.append_assoc, List.singleton_append,
      List.splitOn_append_cons_self_of_not_mem hline, ih hls, List.cons_append]

/-! ## Texts without line feeds -/

/-- The text has no line feed in it. -/
def OneLine (s : String) : Prop :=
  '\n' ∉ s.toList

instance (s : String) : Decidable (OneLine s) :=
  inferInstanceAs (Decidable ('\n' ∉ s.toList))

@[simp]
theorem oneLine_append {s t : String} : OneLine (s ++ t) ↔ OneLine s ∧ OneLine t := by
  simp only [OneLine, String.toList_append, List.mem_append, not_or]

theorem oneLine_ofList {cs : List Char} : OneLine (String.ofList cs) ↔ '\n' ∉ cs := by
  rw [OneLine, String.toList_ofList]

/-- Texts put together with a text between them. -/
theorem oneLine_intercalate {sep : String} (hsep : OneLine sep) {ss : List String} :
    OneLine (sep.intercalate ss) ↔ ∀ s ∈ ss, OneLine s := by
  induction ss with
  | nil => exact ⟨fun _ => List.forall_mem_nil _, fun _ => List.not_mem_nil⟩
  | cons s ss ih =>
    cases ss with
    | nil => rw [String.intercalate_singleton, List.forall_mem_singleton]
    | cons t ss =>
      rw [String.intercalate_cons_cons, oneLine_append, oneLine_append, ih, and_iff_left hsep]
      exact List.forall_mem_cons.symm

end Stencil.Text
