import Cdcl.CommandLine.Arguments
import Cdcl.CommandLine.Folder
import Cdcl.Dimacs
import Cdcl.Solver.Search
import Cdcl.Text.Quoted
/-!
# CommandLine — solving a file

A run reads the words of the command line, reads the formula from the file, solves it, and answers the lines to print
and the code to end with: 10 if the formula has a model, 20 if it has none, 0 if that stays open, 1 where the file is at
fault, and 2 where the command line is.  Lines that begin with `c` are remarks, the line with `s` is the answer, and the
one with `v` a model.
-/
namespace Cdcl
namespace CommandLine

structure Output where
  code : Nat
  lines : List String
deriving DecidableEq, Repr

def versionLine : String := "minnow_sat 0.1.0"

/-- How much of the literals of learnt clauses minimization took away, in hundredths. -/
def deletedShare (n : Counters) : Float :=
  if n.maxLiterals = 0 then 0.0
  else Float.ofNat (n.maxLiterals - n.totLiterals) * 100.0 / Float.ofNat n.maxLiterals

def statsLines (n : Counters) : List String := [
  "c restarts              : " ++ toString n.restarts,
  "c conflicts             : " ++ toString n.conflicts,
  "c decisions             : " ++ toString n.decisions,
  "c propagations          : " ++ toString n.propagations,
  "c conflict literals     : " ++ toString n.totLiterals ++ " (" ++ Text.twoPlaces (deletedShare n) ++ " % deleted)"]

def answerLine : Report → String
  | .satisfiable => "s SATISFIABLE"
  | .unsatisfiable => "s UNSATISFIABLE"
  | .unknown => "s UNKNOWN"

/-- The literals that are true in a model, and a closing zero. -/
def modelLine (model : Array Bool) : String :=
  let literals := model.toList.zipIdx.map fun (value, a) => (Literal.ofAtom a value).toText
  "v " ++ " ".intercalate literals ++ " 0"

def infoLines (info : Dimacs.Info) : List String :=
  let expected := match info.expectedAtoms, info.expectedClauses with
    | some atoms, some clauses => ["c Expected " ++ toString atoms ++ " atoms and " ++ toString clauses ++ " clauses"]
    | _, _ => []
  expected ++ ["c Parsed " ++ toString info.atoms ++ " atoms and " ++ toString info.clauses ++ " clauses"]

/-- The lines from the answer on. -/
def answerLines (r : Request) (report : Report) (c : Context) : List String :=
  let model := match c.model? with
    | .ok model => if r.model && report = .satisfiable then [modelLine model] else []
    | .error _ => []
  (if r.stats then statsLines c.counters else []) ++ [answerLine report] ++ model

/-- Ends a run that was stopped.  Only a failure has something to say. -/
def stopped (lines : List String) (remark : String) (code : Nat) : Interrupt → Output
  | .failure f => { code, lines := lines ++ [remark ++ f.message] }
  | _ => { code := 101, lines }

/-- Solves what is in the context, after the lines printed so far. -/
def solveAndReport (fuel : Nat) (r : Request) (lines : List String) (c : Context) : Output :=
  match Solver.solve fuel c with
  | .error e _ => stopped lines "c Solve error: " 2 e
  | .ok report c => { code := report.code, lines := lines ++ answerLines r report c }

def readAndSolve (fuel : Nat) (r : Request) (lines : List String) (reading : Solver Dimacs.Info) : Output :=
  match reading (.make r.options r.random) with
  | .error e _ => stopped lines "c Parse error: " 1 e
  | .ok info c => solveAndReport fuel r (lines ++ infoLines info) c

def solveFile (fuel : Nat) (look : String → Source) (r : Request) (path : String) : Output :=
  let lines := ["c Reading DIMACS file from " ++ Text.quoted path]
  match look path with
  | .missing => { code := 1, lines := lines ++ ["c Failed to open CNF file " ++ Text.quoted path] }
  | source =>
    if extension? path = some "xz" then
      { code := 1, lines := lines ++ ["c Reading xz compressed files requires the xz feature"] }
    else
      match source with
      | .file bytes => readAndSolve fuel r lines (Solver.readDimacsBytes bytes)
      | _ => readAndSolve fuel r lines (Run.fail (.parse (.line 0)))

/-- Runs a command line, where `look` tells what a path leads to. -/
def run (fuel : Nat) (look : String → Source) (words : List String) : Output :=
  match read words with
  | .rejected => { code := 2, lines := [] }
  | .version => { code := 0, lines := [versionLine] }
  | .request r =>
    match r.path with
    | none => { code := 1, lines := ["c Path to CNF required"] }
    | some path => solveFile fuel look r path

end CommandLine
end Cdcl
