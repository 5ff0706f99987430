import PhasedGrid.Decimal.Numeral
import PhasedGrid.Text.Blank
import PhasedGrid.Text.Split

/-!
Which log lines are shown. A filter is a list of directives; of those whose target starts the name
of a line's source, the longest one decides.
-/

namespace PhasedGrid.Command

set_option autoImplicit false

/-- The weight of a log line; a filter shows what is at most as heavy as its limit. -/
inductive Severity where
  | error
  | warn
  | info
  | debug
  | trace
  deriving DecidableEq, Repr

namespace Severity

def rank : Severity → Nat
  | .error => 1
  | .warn => 2
  | .info => 3
  | .debug => 4
  | .trace => 5

def name : Severity → String
  | .error => "ERROR"
  | .warn => "WARN"
  | .info => "INFO"
  | .debug => "DEBUG"
  | .trace => "TRACE"

end Severity

/-- Shows lines of sources whose name starts with `target`, up to a rank. -/
structure Directive where
  target : String
  limit : Nat
  deriving DecidableEq, Repr

/-- The rank that a number or a word in any case stands for. -/
def limit? (word : String) : Option Nat :=
  match Decimal.unsigned? Decimal.maxU64 word with
  | some n => if n ≤ Severity.trace.rank then some n else none
  | none =>
    match Text.lowerAscii word with
    | "off" => some 0
    | "error" => some Severity.error.rank
    | "warn" => some Severity.warn.rank
    | "info" => some Severity.info.rank
    | "debug" => some Severity.debug.rank
    | "trace" => some Severity.trace.rank
    | _ => none

/-- The characters that a target or a rank may start with; beyond ASCII, all that are not blank. -/
def isStart (c : Char) : Bool :=
  c.isAlphanum || ['_', ':', '-'].contains c || (0x7f < c.toNat && !Text.isBlank c)

/-- A rank for every source, a source, or both; a source alone shows everything. Blanks in front
make a source that no line comes from. Filters by spans are not read. -/
def directive? (text : String) : Option Directive :=
  if !(Text.trim text).toList.head?.any isStart || text.contains '[' then none
  else
    match Text.cut? '=' text with
    | none => some ((limit? text).elim ⟨text, Severity.trace.rank⟩ fun limit => ⟨"", limit⟩)
    | some (target, word) =>
      if !target.toList.head?.any isStart then none
      else if word.isEmpty then some ⟨target, Severity.trace.rank⟩
      else (limit? word).map fun limit => ⟨target, limit⟩

/-- Reads a filter; an empty one shows errors only. -/
def filter? (text : String) : Option (List Directive) :=
  if text.isEmpty then some [⟨"", Severity.error.rank⟩]
  else (Text.split ',' text).mapM directive?

/-- The filter that applies: the one of the environment if it can be read, then the one of the
command line, else one that shows up to information. -/
def chosenFilter (environment : Option String) (given : String) : List Directive :=
  ((environment.bind filter?).or (filter? given)).getD [⟨"", Severity.info.rank⟩]

/-- The longer target decides, of equal ones the later. -/
def decisive (a b : Directive) : Directive :=
  if a.target.length ≤ b.target.length then b else a

/-- Whether a line of a source is shown. -/
def shows (filter : List Directive) (source : String) (severity : Severity) : Bool :=
  match filter.filter fun d => source.startsWith d.target with
  | [] => false
  | d :: rest => severity.rank ≤ (rest.foldl decisive d).limit

/-- A log line, if it is shown. -/
def logLine? (filter : List Directive) (severity : Severity) (source text : String) : Option String :=
  if shows filter source severity then some (severity.name ++ " " ++ source ++ ": " ++ text) else none

end PhasedGrid.Command
