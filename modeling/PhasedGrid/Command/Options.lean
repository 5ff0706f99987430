import PhasedGrid.Decimal.Reading
import PhasedGrid.Text.Split

/-!
Reading the words of a command line. Options stand in any order; the value of an option is attached
to it or is the next word, and short options may be bundled. The first word that names a
subcommand ends a level.
-/

namespace PhasedGrid.Command

set_option autoImplicit false

/-- What an option takes: nothing, any text, a text that is not empty, a whole number, a number.
An option for help ends the reading. -/
inductive Takes where
  | nothing
  | text
  | path
  | count
  | number
  | help
  deriving DecidableEq, Repr

structure OptionRule where
  name : String
  short : Option Char
  takes : Takes
  deriving DecidableEq, Repr

def OptionRule.takesValue (r : OptionRule) : Bool := r.takes ≠ .nothing && r.takes ≠ .help

/-- What ends the reading of a command line. -/
inductive UsageError where
  | helpWanted
  | missingValue
  | badValue
  | repeated
  | unknownOption
  | needlessValue
  | badSubcommand
  deriving DecidableEq, Repr

/-- The options of a level so far, with their values. The value of `pending` has not been checked
yet, or not even been given. -/
structure Given where
  values : List (String × String) := []
  pending : Option (OptionRule × Option String) := none
  deriving DecidableEq, Repr

namespace Given

def has (g : Given) (name : String) : Bool := g.values.any fun v => v.1 = name

def get? (g : Given) (name : String) : Option String :=
  (g.values.find? fun v => v.1 = name).map Prod.snd

def count? (g : Given) (name : String) : Option Nat :=
  (g.get? name).bind (Decimal.unsigned? Decimal.maxU64)

def number? (g : Given) (name : String) : Option Float := (g.get? name).bind Decimal.reading?

/-- Whether the next word is taken as a value. -/
def awaiting (g : Given) : Bool := g.pending.any fun p => p.2.isNone

end Given

/-- Whether a text is a value of its kind. -/
def checkValue (takes : Takes) (text : String) : Except UsageError Unit :=
  match takes with
  | .path => if text.isEmpty then .error .missingValue else .ok ()
  | .count => if (Decimal.unsigned? Decimal.maxU64 text).isSome then .ok () else .error .badValue
  | .number => if (Decimal.reading? text).isSome then .ok () else .error .badValue
  | _ => .ok ()

namespace Given

/-- Takes an option with its value; no option may stand twice on a level. -/
def accept (g : Given) (r : OptionRule) (text : String) : Except UsageError Given := do
  if r.takes = .help then throw .helpWanted
  if g.has r.name then throw .repeated
  checkValue r.takes text
  return { g with values := g.values ++ [(r.name, text)] }

/-- Checks what is pending. -/
def resolve (g : Given) : Except UsageError Given :=
  match g.pending with
  | none => .ok g
  | some (_, none) => .error .missingValue
  | some (r, some text) => { g with pending := none }.accept r text

/-- An option whose value is attached, or that takes none. -/
def complete (g : Given) (r : OptionRule) (text : String) : Except UsageError Given := do
  (← g.resolve).accept r text

/-- An option whose value is still to come. -/
def await (g : Given) (r : OptionRule) : Except UsageError Given := do
  return { ← g.resolve with pending := some (r, none) }

/-- A word that starts with two dashes, without them. -/
def long (g : Given) (rules : List OptionRule) (word : String) : Except UsageError Given :=
  let (name, value) := match Text.cut? '=' word with
    | some (name, value) => (name, some value)
    | none => (word, none)
  match rules.find? fun r => r.name = name with
  | none => .error .unknownOption
  | some r =>
    match value with
    | some text => if r.takesValue then g.complete r text else .error .needlessValue
    | none => if r.takesValue then g.await r else g.complete r ""

/-- The letters behind one dash. The first one that takes a value takes the rest as its value; an
equals sign may stand between. -/
def letters (rules : List OptionRule) (g : Given) : List Char → Except UsageError Given
  | [] => .ok g
  | c :: rest =>
    match rules.find? fun r => r.short = some c with
    | none => .error .unknownOption
    | some r =>
      if r.takesValue then
        match rest with
        | [] => g.await r
        | '=' :: text => g.complete r (String.ofList text)
        | text => g.complete r (String.ofList text)
      else do letters rules (← g.complete r "") rest

end Given

/-- What a level accepts. -/
structure Level where
  rules : List OptionRule
  subcommands : List String := []
  deriving DecidableEq, Repr

/-- A word that no option and no subcommand accounts for. Behind two dashes the name of a subcommand
counts as such a word. -/
def Level.stray (level : Level) (behindDashes : Bool) (word : String) : UsageError :=
  if behindDashes ∧ level.subcommands.contains word then .unknownOption
  else if level.subcommands.isEmpty then .unknownOption
  else .badSubcommand

/-- The word that asks for help on a subcommand. -/
def helpWord : String := "help"

/-- Help on a subcommand; a subcommand has none of its own. -/
def Level.helpOn (level : Level) : List String → UsageError
  | [] => .helpWanted
  | [name] => if level.subcommands.contains name then .helpWanted else .badSubcommand
  | _ => .badSubcommand

/-- Reads a level up to its subcommand, whose words come back unread. -/
def Level.read (level : Level) (behindDashes : Bool) (g : Given) :
    List String → Except UsageError (Given × Option (String × List String))
  | [] => .ok (g, none)
  | word :: rest =>
    if behindDashes then .error (level.stray true word)
    else if !g.awaiting ∧ level.subcommands.contains word then
      if word = helpWord then .error (level.helpOn rest) else .ok (g, some (word, rest))
    else if word = "--" then level.read true g rest
    else
      match word.toList with
      | '-' :: '-' :: body => do
        level.read false (← g.long level.rules (String.ofList body)) rest
      | '-' :: c :: body => do level.read false (← g.letters level.rules (c :: body)) rest
      | _ =>
        match g.pending with
        | some (r, none) => level.read false { g with pending := some (r, some word) } rest
        | _ => .error (level.stray false word)

end PhasedGrid.Command
