/-
  GameSearch.CommandLine.Program

  The program, given what the system around it can do.  The settings come first,
  then the tree, then the file for the events, and then the search; the first
  failure ends the program.
-/
import GameSearch.About
import GameSearch.AnySink
import GameSearch.CommandLine.Options
import GameSearch.Loading
import GameSearch.Mcts.Engine
import GameSearch.Random.Generator
import GameSearch.Report

namespace GameSearch.CommandLine

/-- What the program asks of the system. -/
structure System (m : Type → Type) where
  /-- Reads a file. -/
  fetch : String → m FileText
  /-- Creates an empty file, or empties it. -/
  claim : String → m (Except StorageFault Unit)
  /-- Writes the content of a file that was created. -/
  save : String → List UInt8 → m (Except StorageFault Unit)
  /-- Prepares for messages, in files of the given directory if there is one. -/
  openLog : Option String → m (Except StorageFault Unit)
  showMessage : Message → m Unit
  /-- Writes to the output of the program. -/
  print : String → m Unit
  /-- Tells why the program ends. -/
  complain : String → m Unit
  /-- A seed that nobody chose, below `2 ^ 64`. -/
  freshSeed : m Nat

/-- The sink of a program: messages, and a recorder if events are to be recorded. -/
abbrev ProgramSink := Composite AnySink

namespace ProgramSink

def ofRecorder (j : Journal) : Option Recorder → ProgramSink
  | none => .single (.messages (.of j))
  | some r => .pair (.single (.messages (.of j))) (.single (.recorder r))

/-- The recorder of a sink. -/
def recorder? (s : ProgramSink) : Option Recorder :=
  s.singles.findSome? fun
    | .recorder r => some r
    | _ => none

end ProgramSink

/-- The journal of a program. -/
def newJournal : Journal := .keeping .info

namespace Options

/-- What the builder of the tree accepts. -/
def limits (o : Options) : Tree.Limits := ⟨o.maxDepth, o.lenient⟩

/-- Settings as the options change them. -/
def override (o : Options) (c : Config) : Config where
  pruning := o.algorithm = .alphabeta || c.pruning
  iterations := o.iterations.getD c.iterations
  weight := o.weight.getD c.weight
  seed := o.seed.or c.seed

end Options

variable {m : Type → Type} [Monad m]

namespace System

/-- Shows the messages of a journal. -/
def showAll (sys : System m) (j : Journal) : m Unit := j.entries.forM sys.showMessage

/-- Shows what was said while something was done, and goes on with what came of it. -/
def settle {ε α : Type} (sys : System m) (wrap : ε → Error) (done : Except ε α × Journal) :
    ExceptT Error m α := do
  sys.showAll done.2
  match done.1 with
  | .ok x => pure x
  | .error e => throw (wrap e)

/-- Does something and turns its failure into one of the program. -/
def attempt {α : Type} (action : m (Except StorageFault α)) : ExceptT Error m α := do
  match ← action with
  | .ok x => pure x
  | .error fault => throw (.storage fault)

/-- The settings of a run. -/
def config (sys : System m) (o : Options) : ExceptT Error m Config := do
  let base ← match o.config with
    | none => pure Config.standard
    | some path =>
      let file ← sys.fetch path
      sys.settle id (Config.load path file newJournal)
  let c := o.override base
  match c.validate with
  | .ok _ => pure c
  | .error fault => throw (.config fault)

/-- The tree of a run. -/
def tree (sys : System m) (o : Options) (path : String) : ExceptT Error m Tree := do
  let file ← sys.fetch path
  let t ← sys.settle id (Tree.load o.limits path file newJournal)
  sys.showMessage (.treeReady (t.id t.root) t.size t.height)
  pure t

/-- The recorder of a run, if events are to be recorded. -/
def recorder (sys : System m) (o : Options) : ExceptT Error m (Option Recorder) := do
  match o.events with
  | none => pure none
  | some path =>
    attempt (sys.claim path)
    sys.showMessage (.recordingTo path)
    pure (some { store := .unlimited })

/-- Runs minimax and prints its report. -/
def minimax (sys : System m) (o : Options) (c : Config) (t : Tree) (sink : ProgramSink) :
    ExceptT Error m ProgramSink := do
  let engine : Minimax.Engine := ⟨t, c.pruning⟩
  let ch : Channel ProgramSink := ⟨sink, newJournal⟩
  let (outcome, ch) := if o.iterative then engine.runIterative ch else engine.run ch
  let outcome ← sys.settle Error.minimax (outcome, ch.journal)
  sys.print (Report.minimax t outcome)
  sys.print ("Optimal value: " ++ Report.number outcome.value ++ "\n")
  pure ch.sink

/-- The last line of a Monte Carlo report. -/
def moveText (t : Tree) : Option Mcts.Recommendation → String
  | some best =>
    "Best move: " ++ best.id ++ " (Win rate: " ++ Decimal.fixed 2 best.winRate ++ ")\n"
  | none => "Root '" ++ t.id t.root ++ "' is a leaf: no move to recommend\n"

/-- Runs Monte Carlo tree search and prints its report. -/
def mcts (sys : System m) (c : Config) (t : Tree) (sink : ProgramSink) :
    ExceptT Error m ProgramSink := do
  let seed ← match c.seed with
    | some seed => pure seed
    | none => sys.freshSeed
  sys.showMessage (.seedChosen seed c.summary)
  match Mcts.Engine.ofConfig t c with
  | .error fault => throw (.config fault)
  | .ok engine =>
    let start := engine.start (Random.Generator.ofSeed seed.toUInt64)
      (Channel.mk sink newJournal)
    let (result, session) := engine.run start
    sys.showAll session.channel.journal
    sys.print (Report.mcts t result.tally)
    sys.print (moveText t result.best)
    pure session.channel.sink

/-- Ends a recording. -/
def finishRecording (sys : System m) (o : Options) (sink : ProgramSink) :
    ExceptT Error m Unit := do
  match o.events, ProgramSink.recorder? sink with
  | some path, some r =>
    match r.finish.1 with
    | .error fault => throw (.storage fault)
    | .ok _ =>
      attempt (sys.save path r.store.bytes.toList)
      sys.showMessage (.eventsRecorded r.written)
  | _, _ => pure ()

/-- Runs a search from the settings to the end of the recording. -/
def search (sys : System m) (path : String) (o : Options) : ExceptT Error m Unit := do
  attempt (sys.openLog o.logDir)
  let c ← sys.config o
  let t ← sys.tree o path
  let r ← sys.recorder o
  let sink := ProgramSink.ofRecorder newJournal r
  let sink ← match o.algorithm with
    | .minimax | .alphabeta => sys.minimax o c t sink
    | .mcts => sys.mcts c t sink
  sys.finishRecording o sink

/-- A short description of the options. -/
def helpText : String :=
  About.description ++ "\n\nUsage: " ++ About.name ++ " [OPTIONS] --tree <TREE>\n\n" ++
  "Options:\n" ++
  "  -t, --tree <TREE>              tree file, bare or under the key root\n" ++
  "  -c, --config <CONFIG>          configuration file\n" ++
  "  -a, --algorithm <ALGORITHM>    minimax, alphabeta or mcts [default: minimax]\n" ++
  "  -n, --iterations <ITERATIONS>  number of Monte Carlo iterations\n" ++
  "      --exploration-weight <W>   weight of the exploration term\n" ++
  "  -s, --seed <SEED>              seed for all random choices\n" ++
  "      --iterative                minimax with an explicit stack\n" ++
  "      --lenient                  accept leaves without a value\n" ++
  "      --max-depth <DEPTH>        greatest depth of the tree [default: 1024]\n" ++
  "  -e, --events <EVENTS>          write events to this file\n" ++
  "      --log-dir <DIR>            write messages to files in this directory\n" ++
  "  -h, --help                     print help\n" ++
  "  -V, --version                  print version\n"

/-- Runs the program and delivers its exit code: zero, one after a failure, two for arguments that
    make no sense. -/
def execute (sys : System m) (arguments : List String) : m Nat := do
  match Request.ofArguments arguments with
  | .help =>
    sys.print helpText
    pure 0
  | .version =>
    sys.print (About.name ++ " " ++ About.version ++ "\n")
    pure 0
  | .refuse fault =>
    sys.complain ("error: " ++ fault.message)
    pure 2
  | .search path o =>
    match ← (sys.search path o).run with
    | .ok _ => pure 0
    | .error e =>
      sys.complain ("Error: " ++ e.message)
      pure 1

end System

end GameSearch.CommandLine
