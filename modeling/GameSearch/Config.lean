/-
  GameSearch.Config

  The settings of a search: how they are checked, written and read.  Every setting
  has a default, and keys of a document that name no setting are ignored.
-/
import GameSearch.Decimal.Fixed
import GameSearch.Json.Record
import GameSearch.Score

namespace GameSearch

/-- Why settings were refused. -/
inductive ConfigFault where
  | iterationsBelowOne (iterations : Int)
  | negativeWeight (weight : Score)
  | nonFiniteWeight (weight : Score)

/-- The words for a refusal. -/
def ConfigFault.message : ConfigFault → String
  | .iterationsBelowOne n => "mcts_iterations must be at least 1, got " ++ toString n
  | .negativeWeight w =>
    "exploration_weight must be non-negative, got " ++ Decimal.plain.float w
  | .nonFiniteWeight w => "exploration_weight must be finite, got " ++ Decimal.plain.float w

/-- The settings of a search. -/
structure Config where
  /-- Minimax cuts off what cannot matter. -/
  pruning : Bool
  /-- Iterations of a Monte Carlo run, a signed integer of 64 bits. -/
  iterations : Int
  /-- Weight of the exploration term of a child's score. -/
  weight : Score
  /-- Seed of the random choices; absent means a fresh one for every run. -/
  seed : Option Nat

namespace Config

/-- The settings where nothing else is said. -/
def standard : Config := ⟨false, 10, 1.4, none⟩

/-- A weight must be a finite number that is not negative. -/
def checkWeight (weight : Score) : Except ConfigFault Unit :=
  if weight.isNaN || weight.isInf then .error (.nonFiniteWeight weight)
  else if weight < 0 then .error (.negativeWeight weight)
  else .ok ()

/-- Checks the number of iterations and then the weight. -/
def validate (c : Config) : Except ConfigFault Unit :=
  if c.iterations < 1 then .error (.iterationsBelowOne c.iterations)
  else checkWeight c.weight

/-- The number of iterations, at least one.  Whatever is not negative fits an unsigned integer of
    64 bits. -/
def iterationCount (c : Config) : Except ConfigFault Nat :=
  match c.iterations.toNat?.filter (1 ≤ ·) with
  | some n => .ok n
  | none => .error (.iterationsBelowOne c.iterations)

/-- The settings on one line. -/
def summary (c : Config) : String :=
  "pruning=" ++ toString c.pruning ++ "_iterations=" ++ toString c.iterations ++ "_c="
    ++ Decimal.fixed 3 c.weight ++ "_seed=" ++ (match c.seed with
      | some seed => toString seed
      | none => "os")

/-- The settings as a JSON object; a weight that is not finite becomes null. -/
def toJson (c : Config) : Json := .object [
  ("pruning", .bool c.pruning),
  ("mcts_iterations", .integer c.iterations),
  ("exploration_weight", .ofFloat c.weight),
  ("seed", match c.seed with
    | some seed => .integer seed
    | none => .null)]

/-- The fields of a document.  Only the seed may be null. -/
def fields : List (Json.Field Config) := [
  .of "pruning" Json.readBool fun c pruning => { c with pruning := pruning },
  .of "mcts_iterations" Json.readInt64 fun c iterations => { c with iterations := iterations },
  .of "exploration_weight" Json.readFloat fun c weight => { c with weight := weight },
  .of "seed" (Json.readNullable Json.readNat64) fun c seed => { c with seed := seed }]

/-- Reads settings from bytes; a setting that is not given has its default. -/
def ofBytes (source : Json.Bytes) : Except Json.Error Config :=
  Json.readAll (Json.readRecord "struct SearchConfig" Json.nestingLimit fields standard) source

/-- Reads settings from text. -/
def ofText (source : String) : Except Json.Error Config := ofBytes (Json.bytesOfText source)

end Config

end GameSearch
