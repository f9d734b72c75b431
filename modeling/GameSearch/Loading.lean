/-
  GameSearch.Loading

  Trees and settings from documents and files, with the messages that go along.
  A file is given by its path and by what reading it delivered.
-/
import GameSearch.Error
import GameSearch.Journal
import GameSearch.Tree.Builder
import GameSearch.Tree.Document
import GameSearch.Tree.Walk

namespace GameSearch

/-- What reading a file delivers. -/
abbrev FileText := Except StorageFault String

namespace Tree

/-- The message about a tree that was built. -/
def builtMessage (t : Tree) : Message := .treeBuilt t.size t.leaves.length t.height

/-- Builds a tree and says so. -/
def create (limits : Limits) (spec : Spec) (j : Journal) : Except Fault Tree × Journal :=
  match build limits spec with
  | .error fault => (.error fault, j)
  | .ok t => (.ok t, j.add t.builtMessage)

/-- The tree of a document. -/
def ofText (limits : Limits) (source : String) (j : Journal) : Except Error Tree × Journal :=
  match Document.ofText source with
  | .error e => (.error (.json e), j)
  | .ok document =>
    match create limits document.root j with
    | (.error fault, j) => (.error (.tree fault), j)
    | (.ok t, j) => (.ok t, j)

/-- The tree in a file. -/
def load (limits : Limits) (path : String) (file : FileText) (j : Journal) :
    Except Error Tree × Journal :=
  match file with
  | .error fault => (.error (.storage fault), j)
  | .ok source => ofText limits source (j.add (.treeLoading path))

end Tree

namespace Config

/-- The settings in a file, checked. -/
def load (path : String) (file : FileText) (j : Journal) : Except Error Config × Journal :=
  match file with
  | .error fault => (.error (.storage fault), j)
  | .ok source =>
    match ofText source with
    | .error e => (.error (.json e), j)
    | .ok c =>
      match c.validate with
      | .error fault => (.error (.config fault), j)
      | .ok _ => (.ok c, j.add (.configLoaded path c.summary))

end Config

end GameSearch
