/-
  GameSearch.Main

  The program as an executable: files, standard output and the log.
-/
import GameSearch.CommandLine.Program

namespace GameSearch

/-- A failure of the operating system. -/
def storageFault (e : IO.Error) : StorageFault :=
  match e with
  | .noFileOrDirectory .. => .notFound
  | e => .other (toString e)

/-- Does something and keeps its failure as a value. -/
def attempt {α : Type} (action : IO α) : IO (Except StorageFault α) := do
  try
    return .ok (← action)
  catch e =>
    return .error (storageFault e)

/-- The text of a file. -/
def readText (path : String) : IO FileText := do
  match ← attempt (IO.FS.readBinFile path) with
  | .error fault => return .error fault
  | .ok bytes =>
    match String.fromUTF8? bytes with
    | some text => return .ok text
    | none => return .error .notText

/-- Makes the directory for messages, if there is one, and remembers the path of the log file,
    which is created with the first message. -/
def openLog (logFile : IO.Ref (Option String)) (dir : Option String) :
    IO (Except StorageFault Unit) :=
  match dir with
  | none => return .ok ()
  | some dir => attempt do
    IO.FS.createDirAll dir
    logFile.set (some (dir ++ "/" ++ About.name ++ ".log"))

/-- Writes a message to the log file, or to standard error if there is none. -/
def showMessage (logFile : IO.Ref (Option String)) (m : Message) : IO Unit := do
  let line := m.level.label ++ " " ++ m.text
  match ← logFile.get with
  | none => IO.eprintln line
  | some path => IO.FS.withFile path .append fun handle => handle.putStrLn line

/-- A seed from the random bytes of the system. -/
def freshSeed : IO Nat := do
  let bytes ← IO.getRandomBytes 8
  return bytes.toList.foldl (fun n b => n * 256 + b.toNat) 0

/-- The operating system as the program sees it. -/
def operatingSystem (logFile : IO.Ref (Option String)) : CommandLine.System IO where
  fetch := readText
  claim path := attempt (IO.FS.writeBinFile path ByteArray.empty)
  save path bytes := attempt (IO.FS.writeBinFile path ⟨bytes.toArray⟩)
  openLog := openLog logFile
  showMessage := showMessage logFile
  print text := IO.print text
  complain text := IO.eprintln text
  freshSeed := freshSeed

end GameSearch

def main (arguments : List String) : IO UInt32 := do
  let logFile ← IO.mkRef none
  let code ← (GameSearch.operatingSystem logFile).execute arguments
  return code.toUInt32
