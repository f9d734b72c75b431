/-
  GameSearch.Recording.Fault

  What can go wrong with files and other storage.
-/
namespace GameSearch

/-- A failure of storage. -/
inductive StorageFault where
  | notFound
  | notText
  | full
  | nothingWritten
  | flushFailed
  /-- Any other failure, in the words of the system. -/
  | other (text : String)
deriving DecidableEq

/-- The words for a failure of storage. -/
def StorageFault.message : StorageFault → String
  | .notFound => "No such file or directory (os error 2)"
  | .notText => "stream did not contain valid UTF-8"
  | .full => "disk full"
  | .nothingWritten => "failed to write whole buffer"
  | .flushFailed => "flush failed"
  | .other text => text

end GameSearch
