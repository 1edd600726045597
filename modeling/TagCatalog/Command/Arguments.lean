import TagCatalog.Query

/-! The arguments of the command line: general options, the name of a command, and that command's
options and file. -/

namespace TagCatalog

inductive Format
  | text
  | json
  deriving DecidableEq, Repr

def Format.ofName (s : String) : Format := if s = "json" then .json else .text

inductive Command
  | replay (file : String) (snapshot : Option String)
  | stats (file : String) (name : Option String) (limit : Nat)
  | query (file : String) (query : Query) (order : String)
  | verify (file : String)

def Command.file : Command → String
  | .replay file _ | .stats file .. | .query file .. | .verify file => file

structure Invocation where
  format : Format
  settingsFile : Option String
  command : Command

namespace Argument

inductive Shape
  | word (s : String)
  | option (name : String) (value : Option String)
  /-- From here on all are words. -/
  | wordsFollow
  deriving DecidableEq, Repr

/-- No option has a short form, and a dash alone is a word. -/
def Shape.of? (s : String) : Option Shape :=
  match s.toList with
  | ['-', '-'] => some .wordsFollow
  | '-' :: '-' :: cs =>
    let name := String.ofList (cs.takeWhile (· != '='))
    match cs.dropWhile (· != '=') with
    | [] => some (.option name none)
    | _ :: value => some (.option name (some (String.ofList value)))
  | ['-'] => some (.word s)
  | '-' :: _ => none
  | _ => some (.word s)

structure Grammar where
  valued : List String
  flags : List String := []
  /-- Whether options may follow a word. -/
  mixed : Bool := true

structure Given where
  options : List (String × String) := []
  words : List String := []

namespace Given

def addOption (name value : String) (g : Given) : Given :=
  { g with options := (name, value) :: g.options }

def addWord (word : String) (g : Given) : Given := { g with words := word :: g.words }

end Given

/-- Sort arguments. The value of an option stands behind it and starts with no dash, or is attached
to it. -/
def Grammar.sort? (grammar : Grammar) : List String → Option Given
  | [] => some {}
  | arg :: args =>
    match Shape.of? arg with
    | none => none
    | some .wordsFollow => if grammar.mixed then some { words := args } else none
    | some (.word s) =>
      if grammar.mixed then (grammar.sort? args).map (·.addWord s)
      else some { words := arg :: args }
    | some (.option name (some value)) =>
      if grammar.valued.contains name then (grammar.sort? args).map (·.addOption name value)
      else none
    | some (.option name none) =>
      if grammar.flags.contains name then (grammar.sort? args).map (·.addOption name "")
      else if grammar.valued.contains name then
        match args with
        | [] => none
        | value :: args =>
          match Shape.of? value with
          | some (.word _) => (grammar.sort? args).map (·.addOption name value)
          | _ => none
      else none

def Grammar.read? (grammar : Grammar) (args : List String) : Option Given :=
  (grammar.sort? args).filter fun g => (g.options.map (·.1)).Nodup

namespace Given

def value? (g : Given) (name : String) : Option String :=
  (g.options.find? (·.1 = name)).map (·.2)

def path? (s : String) : Option String := if s.isEmpty then none else some s

def optionalPath? (g : Given) (name : String) : Option (Option String) :=
  match g.value? name with
  | none => some none
  | some s => (path? s).map some

def file? (g : Given) : Option String :=
  match g.words with
  | [s] => path? s
  | _ => none

def integer? (signs : List Char) (s : String) : Option Int :=
  let digits := match s.toList with
    | [] => []
    | c :: cs => if signs.contains c then cs else c :: cs
  let n : Int := Nat.ofDigitChars 10 digits 0
  if digits.isEmpty || !digits.all Char.isDigit then none
  else some (if s.toList.head? = some '-' then -n else n)

/-- A number from zero to below `limit`. A minus sign leaves only zero. -/
def natural? (signs : List Char) (limit : Nat) (s : String) : Option Nat :=
  (integer? signs s).bind fun n => if 0 ≤ n ∧ n < limit then some n.toNat else none

def natural (g : Given) (name : String) (default : Nat) (signs : List Char) (limit : Nat) :
    Option Nat :=
  match g.value? name with
  | none => some default
  | some s => natural? signs limit s

def names (g : Given) (name : String) : Names :=
  match g.value? name with
  | none => ∅
  | some s => .ofList ((Text.pieces (· = ',') s.toList).map String.ofList)

end Given

end Argument

namespace Command

open Argument

def grammar? : String → Option Grammar
  | "replay" => some { valued := ["snapshot"] }
  | "stats" => some { valued := ["tag", "limit"] }
  | "query" => some {
      valued := ["select-tags", "filter-tags", "select-languages", "filter-languages", "sort",
        "limit"] }
  | "verify" => some { valued := [] }
  | _ => none

def ofGiven? (name : String) (g : Given) : Option Command := do
  let file ← g.file?
  match name with
  | "replay" => return .replay file (← g.optionalPath? "snapshot")
  | "stats" => return .stats file (g.value? "tag") (← g.natural "limit" 20 ['+'] (2 ^ 64))
  | "query" =>
    let query : Query := {
      selectTags := g.names "select-tags"
      filterTags := g.names "filter-tags"
      selectLanguages := g.names "select-languages"
      filterLanguages := g.names "filter-languages"
      limit := ← g.natural "limit" 20 ['+', '-'] (2 ^ 32) }
    return .query file query ((g.value? "sort").getD "hot")
  | "verify" => return .verify file
  | _ => none

def read? (name : String) (args : List String) : Option Command := do
  ofGiven? name (← (← grammar? name).read? args)

end Command

namespace Invocation

open Argument

def grammar : Grammar where
  valued := ["format", "config"]
  flags := ["verbose"]
  mixed := false

def read? (args : List String) : Option Invocation := do
  let g ← grammar.read? args
  match g.words with
  | [] => none
  | name :: args =>
    return {
      format := .ofName ((g.value? "format").getD "text")
      settingsFile := ← g.optionalPath? "config"
      command := ← Command.read? name args }

end Invocation

end TagCatalog
