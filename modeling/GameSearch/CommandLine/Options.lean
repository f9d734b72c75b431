/-
  GameSearch.CommandLine.Options

  What a command line asks for.  Arguments are read from left to right; the first
  one that is wrong, or that asks for a text instead of a search, decides.
-/
import GameSearch.CommandLine.Number

namespace GameSearch.CommandLine

/-- The search to run. -/
inductive Algorithm where
  /-- Minimax, with cutoffs if the settings say so. -/
  | minimax
  /-- Minimax with cutoffs. -/
  | alphabeta
  /-- Monte Carlo tree search. -/
  | mcts
deriving DecidableEq

def Algorithm.ofName? : String → Option Algorithm
  | "minimax" => some .minimax
  | "alphabeta" => some .alphabeta
  | "mcts" => some .mcts
  | _ => none

/-- The options of the program. -/
inductive Key where
  | tree
  | config
  | algorithm
  | iterations
  | weight
  | seed
  | iterative
  | lenient
  | maxDepth
  | events
  | logDir
deriving DecidableEq

namespace Key

def ofName? : String → Option Key
  | "tree" => some .tree
  | "config" => some .config
  | "algorithm" => some .algorithm
  | "iterations" => some .iterations
  | "exploration-weight" => some .weight
  | "seed" => some .seed
  | "iterative" => some .iterative
  | "lenient" => some .lenient
  | "max-depth" => some .maxDepth
  | "events" => some .events
  | "log-dir" => some .logDir
  | _ => none

def ofLetter? : Char → Option Key
  | 't' => some .tree
  | 'c' => some .config
  | 'a' => some .algorithm
  | 'n' => some .iterations
  | 's' => some .seed
  | 'e' => some .events
  | _ => none

/-- The option has no value. -/
def isFlag : Key → Bool
  | .iterative | .lenient => true
  | _ => false

end Key

/-- What the options say so far. -/
structure Options where
  tree : Option String := none
  config : Option String := none
  algorithm : Algorithm := .minimax
  iterations : Option Int := none
  weight : Option Float := none
  seed : Option Nat := none
  iterative : Bool := false
  lenient : Bool := false
  maxDepth : Nat := 1024
  events : Option String := none
  logDir : Option String := none
  /-- The options that were given. -/
  given : List Key := []

/-- Why a command line was refused. -/
inductive UsageFault where
  | unexpected (argument : String)
  | repeated (argument : String)
  | missingValue (argument : String)
  | invalidValue (argument value : String)
  | missingTree

/-- The words for a refusal. -/
def UsageFault.message : UsageFault → String
  | .unexpected argument => "unexpected argument '" ++ argument ++ "'"
  | .repeated argument => "the argument '" ++ argument ++ "' cannot be used multiple times"
  | .missingValue argument => "a value is required for '" ++ argument ++ "'"
  | .invalidValue argument value => "invalid value '" ++ value ++ "' for '" ++ argument ++ "'"
  | .missingTree => "the required argument '--tree' was not provided"

/-- What a command line asks for. -/
inductive Request where
  | search (treePath : String) (options : Options)
  | version
  | help
  | refuse (fault : UsageFault)

namespace Options

/-- A path, which must not be empty. -/
def path? (value : String) : Option String := if value.isEmpty then none else some value

/-- Stores the value of an option; absent if it is no such value. -/
def store? (o : Options) (key : Key) (value : String) : Option Options :=
  match key with
  | .tree => (path? value).map fun p => { o with tree := some p }
  | .config => (path? value).map fun p => { o with config := some p }
  | .algorithm => (Algorithm.ofName? value).map fun a => { o with algorithm := a }
  | .iterations => (readInt64? value).map fun n => { o with iterations := some n }
  | .weight => (readFloat? value).map fun x => { o with weight := some x }
  | .seed => (readNat64? value).map fun n => { o with seed := some n }
  | .iterative => some { o with iterative := true }
  | .lenient => some { o with lenient := true }
  | .maxDepth => (readNat64? value).map fun n => { o with maxDepth := n }
  | .events => (path? value).map fun p => { o with events := some p }
  | .logDir => (path? value).map fun p => { o with logDir := some p }

/-- Takes an option with its value.  No option may come twice. -/
def take (o : Options) (key : Key) (argument value : String) : Except UsageFault Options :=
  if o.given.contains key then .error (.repeated argument)
  else match o.store? key value with
    | some o => .ok { o with given := key :: o.given }
    | none => .error (.invalidValue argument value)

end Options

/-- What a single argument is. -/
inductive Argument where
  | help
  | version
  /-- An option with its value. -/
  | complete (key : Key) (value : String)
  /-- An option whose value is the next argument. -/
  | incomplete (key : Key)
  /-- The mark after which no options follow. -/
  | endOfOptions
  | unknown

namespace Argument

/-- An argument that begins with two dashes. -/
def ofLong (body : List Char) : Argument :=
  let name := String.ofList (body.takeWhile (· ≠ '='))
  let value := match body.dropWhile (· ≠ '=') with
    | [] => none
    | _ :: chars => some (String.ofList chars)
  match Key.ofName? name, value with
  | some key, some value => if key.isFlag then .unknown else .complete key value
  | some key, none => if key.isFlag then .complete key "" else .incomplete key
  | none, some _ => .unknown
  | none, none =>
    if name = "help" then .help
    else if name = "version" then .version
    else .unknown

/-- An argument that begins with one dash. -/
def ofShort (letter : Char) (attached : List Char) : Argument :=
  match Key.ofLetter? letter, attached with
  | some key, [] => .incomplete key
  | some key, '=' :: value => .complete key (String.ofList value)
  | some key, value => .complete key (String.ofList value)
  | none, _ =>
    if letter = 'h' then .help
    else if letter = 'V' then .version
    else .unknown

def ofText (text : String) : Argument :=
  match text.toList with
  | ['-', '-'] => .endOfOptions
  | '-' :: '-' :: body => ofLong body
  | '-' :: letter :: attached => ofShort letter attached
  | _ => .unknown

/-- The text can be the value of the option before it. -/
def isValue (text : String) : Bool :=
  match text.toList with
  | '-' :: _ :: _ => false
  | _ => true

end Argument

namespace Request

/-- The request when all arguments were taken. -/
def ofOptions (o : Options) : Request :=
  match o.tree with
  | some path => .search path o
  | none => .refuse .missingTree

/-- Reads arguments from left to right.  `waiting` is an option that still lacks its value, with
    the argument that gave it. -/
def read (o : Options) (waiting : Option (Key × String)) : List String → Request
  | [] =>
    match waiting with
    | some (_, argument) => .refuse (.missingValue argument)
    | none => ofOptions o
  | text :: rest =>
    match waiting with
    | some (key, argument) =>
      if Argument.isValue text then
        match o.take key argument text with
        | .ok o => read o none rest
        | .error fault => .refuse fault
      else .refuse (.missingValue argument)
    | none =>
      match Argument.ofText text with
      | .help => .help
      | .version => .version
      | .complete key value =>
        match o.take key text value with
        | .ok o => read o none rest
        | .error fault => .refuse fault
      | .incomplete key => read o (some (key, text)) rest
      | .endOfOptions =>
        match rest with
        | [] => ofOptions o
        | next :: _ => .refuse (.unexpected next)
      | .unknown => .refuse (.unexpected text)

/-- What a command line asks for. -/
def ofArguments (arguments : List String) : Request := read {} none arguments

end Request

end GameSearch.CommandLine
