import Stencil.Token.Basic

/-!
# Transitions

A token definition names a transition: the change of context that its match brings about.
Comments nest. A counter of open comments decides when closing one leads back to the template.
-/

namespace Stencil

/-- Where a scanner stands: its context and the number of open comments. -/
structure Mode where
  context : Context
  nesting : UInt32 := 0
  deriving Repr, DecidableEq

/-- What a match does to the context. -/
inductive Transition where
  | stay
  | template
  | block
  | literal
  | commentEnter
  | commentLeave
  deriving Repr, DecidableEq

namespace Transition

/-- All transitions. -/
def all : List Transition :=
  [stay, template, block, literal, commentEnter, commentLeave]

/-- The name of a transition in token tables. -/
def name : Transition → String
  | stay => "stay"
  | template => "template"
  | block => "block"
  | literal => "literal"
  | commentEnter => "comment-enter"
  | commentLeave => "comment-leave"

/-- The transition of a given name. -/
def ofName? (name : String) : Option Transition :=
  all.find? (·.name == name)

/-- The context to switch to, if any, and the number of comments that are open afterwards. -/
def step (t : Transition) (nesting : UInt32) : Option Context × UInt32 :=
  match t with
  | stay => (none, nesting)
  | template => (some .template, 0)
  | block => (some .block, nesting)
  | literal => (some .literal, nesting)
  | commentEnter => (some .comment, nesting + 1)
  | commentLeave =>
    let left := if nesting = 0 then 0 else nesting - 1
    (if left = 0 then some .template else none, left)

/-- The mode after a transition. -/
def apply (t : Transition) (m : Mode) : Mode :=
  let (context?, nesting) := t.step m.nesting
  ⟨context?.getD m.context, nesting⟩

end Transition

end Stencil
