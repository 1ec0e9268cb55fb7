import Stencil.Pattern.Reader
import Stencil.Token.Table

/-!
# Finding the next match

The definitions of one context are searched together: their patterns are joined to one alternation,
each a group of its own, and the group that takes part in a match tells which definition matched.
The numbers of these groups are counted from the groups that each pattern has when it is read by
itself.

A win by the empty text gives way to the later definitions, each tried on its own, and if none of
them matches more than nothing there, the search goes on one character further. So every match that
is found has at least one character, whatever the patterns are.
-/

namespace Stencil

/-- A token definition with its pattern read. -/
structure Rule where
  definition : TokenDef
  pattern : Pattern
  deriving Repr, DecidableEq

namespace Rule

/-- The length of the rule's match at a place, if it has one. -/
def matchAt? (r : Rule) (before : Option Char) (after : List Char) : Option Nat :=
  r.pattern.preferred? before after

/-- The first rule whose match at a place is not empty, and the length of that match. -/
def hit? : List Rule → Option Char → List Char → Option (Rule × Nat)
  | [], _, _ => none
  | r :: later, before, after =>
    match r.matchAt? before after with
    | some (n + 1) => some (r, n + 1)
    | _ => hit? later before after

/-- The numbers of the rules' groups in the alternation of their patterns, the first being `next`.
Behind the group of a rule come those of its pattern, which are counted by the highest number. -/
def groupsFrom : Nat → List Rule → List Nat
  | _, [] => []
  | next, r :: later => next :: groupsFrom (next + r.pattern.lastGroup + 1) later

end Rule

/-- A match found ahead: how many characters lie before it, how long it is, and by which rule. -/
structure Found where
  skipped : Nat
  length : Nat
  rule : Rule
  deriving Repr, DecidableEq

/-- What there is at one place. -/
inductive Outcome where
  /-- No match: the search goes on behind the next character. -/
  | nothing
  /-- A match that none of the groups looked up took part in: the search ends. -/
  | unclaimed
  /-- A match that is not empty, its length and the rule that it goes to. -/
  | hit (r : Rule) (length : Nat)
  deriving Repr, DecidableEq

/-- The rules of one context. -/
structure Matcher where
  context : Context
  rules : List Rule
  /-- The alternation of the patterns, read as one pattern. -/
  whole : Pattern
  deriving Repr, DecidableEq

namespace Matcher

/-- The definitions of the context, in order. -/
def definitions (m : Matcher) : List TokenDef :=
  m.rules.map (·.definition)

/-- The alternation of several pattern texts, each a group of its own. -/
def joined (patterns : List String) : String :=
  String.intercalate "|" (patterns.map fun p => "(" ++ p ++ ")")

/-- The alternation of the patterns of the context. -/
def pattern (m : Matcher) : String :=
  joined (m.definitions.map (·.pattern))

/-- The group that is looked up for each rule. -/
def groups (m : Matcher) : List Nat :=
  Rule.groupsFrom 1 m.rules

/-- The rule that a match of the whole goes to, and the rules after it: the first rule whose group
took part. -/
def winner? (m : Matcher) (c : Pattern.Captures) : Option (Rule × List Rule) :=
  (m.groups.findIdx? c.groups.contains).bind fun i =>
    m.rules[i]?.map fun r => (r, m.rules.drop (i + 1))

/-- The outcome at a place: the match of the whole, or if it is empty, the first match of a later
rule that is not. -/
def outcome (m : Matcher) (before : Option Char) (after : List Char) : Outcome :=
  match m.whole.capture? before after with
  | none => .nothing
  | some c =>
    match m.winner? c with
    | none => .unclaimed
    | some (r, later) =>
      if 0 < c.length then .hit r c.length
      else
        match Rule.hit? later before after with
        | some (r, n) => .hit r n
        | none => .nothing

/-- The first match in the context at a place or after it. -/
def find? (m : Matcher) : Option Char → List Char → Option Found
  | before, [] =>
    match m.outcome before [] with
    | .hit r n => some ⟨0, n, r⟩
    | _ => none
  | before, c :: rest =>
    match m.outcome before (c :: rest) with
    | .hit r n => some ⟨0, n, r⟩
    | .unclaimed => none
    | .nothing => (m.find? (some c) rest).map fun f => { f with skipped := f.skipped + 1 }

/-- Reads the pattern of a definition. -/
def readRule (d : TokenDef) : Except SetupError Rule :=
  match Pattern.read? d.pattern with
  | some p => .ok ⟨d, p⟩
  | none => .error (.invalidPattern d.kind d.pattern)

/-- Compiles the definitions of a context. Their patterns must be sound one by one and together: a
group name that two of them give shows only in the whole. So does a comment at the end of a pattern,
which goes on behind it: up to the next line feed the rest of the alternation belongs to the
comment. -/
def compile (context : Context) (definitions : List TokenDef) : Except SetupError Matcher := do
  let rules ← definitions.mapM readRule
  let text := joined (definitions.map (·.pattern))
  match Pattern.read? text, definitions with
  | some whole, _ => .ok ⟨context, rules, whole⟩
  | none, d :: _ => .error (.invalidPattern d.kind text)
  -- never so, since the empty text can be read
  | none, [] => .ok ⟨context, rules, .empty⟩

end Matcher

/-- The compiled token table: one matcher for each context that has definitions. -/
structure Lexicon where
  matchers : List Matcher
  deriving Repr, DecidableEq

namespace Lexicon

/-- Compiles a token table, context by context; contexts without definitions get no matcher. -/
def compile (table : TokenTable) : Except SetupError Lexicon := do
  let grouped := Context.all.map fun c => (c, table.filter (·.context == c))
  let used := grouped.filter fun (_, definitions) => !definitions.isEmpty
  return ⟨← used.mapM fun (c, definitions) => Matcher.compile c definitions⟩

/-- The contexts with definitions. -/
def contexts (l : Lexicon) : List Context :=
  l.matchers.map (·.context)

/-- The matcher of a context, if it has definitions. -/
def matcher? (l : Lexicon) (c : Context) : Option Matcher :=
  l.matchers.find? (·.context == c)

/-- A scan can start only in a context with definitions. -/
def checkStart (l : Lexicon) (c : Context) : Except SetupError Unit :=
  if (l.matcher? c).isSome then .ok () else .error (.undefinedContext c)

end Lexicon

end Stencil
