/-
  GameSearch.Tree.Document

  Specifications as JSON documents.  A document is a specification itself, or an
  object that holds it under the key `root`.
-/
import GameSearch.Json.Record
import GameSearch.Tree.Spec

namespace GameSearch

namespace Spec

/-- The fields of a specification.  An identifier and a value may be null. -/
def fields (children : Json.Reader (List Spec)) : List (Json.Field Spec) := [
  .of "id" (Json.readNullable Json.readText) fun s id => { s with id := id },
  .of "value" (Json.readNullable Json.readFloat) fun s value => { s with value := value },
  .of "children" children fun s children => { s with children := children }]

/-- A specification in which so many more brackets may be opened. -/
def read : Nat → Json.Reader Spec
  | 0 => Json.readRecord "struct TreeSpec" 0 [] ⟨none, none, []⟩
  | 1 => Json.readRecord "struct TreeSpec" 1
      (fields (Json.readList 0 fun s => .error ⟨.tooDeep, s⟩)) ⟨none, none, []⟩
  | nesting + 2 => Json.readRecord "struct TreeSpec" (nesting + 2)
      (fields (Json.readList (nesting + 1) (read nesting))) ⟨none, none, []⟩

mutual

/-- A specification as a JSON object; what is absent is left out. -/
def toJson : Spec → Json
  | ⟨id, value, children⟩ => .object <|
      (match id with | some id => [("id", .string id)] | none => []) ++
      (match value with | some value => [("value", .ofFloat value)] | none => []) ++
      (match children with | [] => [] | _ => [("children", .list (listToJson children))])

/-- Specifications as JSON objects. -/
def listToJson : List Spec → List Json
  | [] => []
  | s :: rest => s.toJson :: listToJson rest

end

end Spec

namespace Tree

/-- A tree document. -/
inductive Document where
  /-- The specification under the key `root`. -/
  | wrapped (root : Spec)
  /-- The specification itself. -/
  | bare (root : Spec)

namespace Document

/-- The specification in a document. -/
def root : Document → Spec
  | .wrapped root => root
  | .bare root => root

/-- Passes over a value; absent if it is null. -/
def readPresence : Json.Reader Bool := fun s =>
  match Json.skipSpace s with
  | 0x6E :: s => (Json.expectWord "ull".toUTF8.data.toList s).map (false, ·)
  | s => (Json.skipValue s).map (true, ·)

/-- Whether a document has a root that is not null. -/
def readForm : Json.Reader Bool :=
  Json.readRecord "struct RootKey" Json.nestingLimit
    [.of "root" readPresence fun _ present => present] false

/-- The specification under the key `root`. -/
def readWrapped : Json.Reader Spec :=
  Json.readRecord "struct Wrapped" Json.nestingLimit
    [.of "root" (Spec.read (Json.nestingLimit - 1)) fun _ spec => spec] ⟨none, none, []⟩

/-- Reads a document: first whether there is a root, which checks the form of the whole text, and
    then the specification. -/
def ofBytes (source : Json.Bytes) : Except Json.Error Document :=
  match Json.readAll readForm source with
  | .error e => .error e
  | .ok true => (Json.readAll readWrapped source).map .wrapped
  | .ok false => (Json.readAll (Spec.read Json.nestingLimit) source).map .bare

/-- Reads a document from text. -/
def ofText (source : String) : Except Json.Error Document := ofBytes (Json.bytesOfText source)

end Document

end Tree

end GameSearch
