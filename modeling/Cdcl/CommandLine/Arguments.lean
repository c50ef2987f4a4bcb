import Cdcl.Options
import Cdcl.Pcg32
import Cdcl.Text.Number
/-!
# CommandLine.Arguments — reading the words of the command line

Words that start with two hyphens name an option; those that start with one are made of flags of one letter.  An
option with a value takes it after an equals sign or as the next word, which then must not look like an option.  After
a word of two hyphens alone every word is a path.  There is one path, and nothing is given twice.

Reading goes from left to right: a wrong word and the wish for the version each end it where they stand.
-/
namespace Cdcl
namespace CommandLine

/-- What a command line asks for. -/
structure Request where
  path : Option String := none
  model : Bool := false
  stats : Bool := false
  minimization : Option Minimization := none
  noRestart : Bool := false
  restartFirst : Option Nat := none
  restartBase : Option Float := none
  conflictLimit : Option Nat := none
  positiveChance : Option Float := none
  randomChance : Option Float := none
  noPhaseSaving : Bool := false
  noSimplify : Bool := false
  seed : Option Nat := none

instance : Inhabited Request := ⟨{}⟩

/-- How reading goes on or ends. -/
inductive Outcome
  | request (r : Request)
  | version
  | rejected

/-- The outcome of a wish that may be made once. -/
def once (given : Bool) (r : Request) : Outcome := if given then .rejected else .request r

def flag (name : String) (r : Request) : Outcome :=
  match name with
  | "model" => once r.model { r with model := true }
  | "stats" => once r.stats { r with stats := true }
  | "no-restart" => once r.noRestart { r with noRestart := true }
  | "no-phase-saving" => once r.noPhaseSaving { r with noPhaseSaving := true }
  | "no-simplify" => once r.noSimplify { r with noSimplify := true }
  | "version" => .version
  | _ => .rejected

def flagName : Char → String
  | 'm' => "model"
  | 's' => "stats"
  | 'V' => "version"
  | _ => ""

def flags : List Char → Request → Outcome
  | [], r => .request r
  | c :: rest, r =>
    match flag (flagName c) r with
    | .request r => flags rest r
    | other => other

def isValued (name : String) : Bool :=
  name ∈ ["minimization", "restart-first", "restart-inc", "conflict-limit", "polarity-lean", "random-decision-bias",
    "seed"]

/-- A value that should be read once. -/
def valueOnce {α : Type} (given : Bool) (value : Option α) (wish : α → Request) : Outcome :=
  match value with
  | some v => once given (wish v)
  | none => .rejected

def valued (name : String) (text : String) (r : Request) : Outcome :=
  let cs := text.toList
  match name with
  | "minimization" =>
    valueOnce r.minimization.isSome (Minimization.parse text).toOption fun v => { r with minimization := some v }
  | "restart-first" =>
    let value := (Text.signed64? cs).bind fun v => if 0 ≤ v ∧ v ≤ 4294967295 then some v.toNat else none
    valueOnce r.restartFirst.isSome value fun v => { r with restartFirst := some v }
  | "restart-inc" => valueOnce r.restartBase.isSome (Text.float? cs) fun v => { r with restartBase := some v }
  | "conflict-limit" =>
    valueOnce r.conflictLimit.isSome (Text.unsigned? countMax cs) fun v => { r with conflictLimit := some v }
  | "polarity-lean" => valueOnce r.positiveChance.isSome (Text.float? cs) fun v => { r with positiveChance := some v }
  | "random-decision-bias" =>
    valueOnce r.randomChance.isSome (Text.float? cs) fun v => { r with randomChance := some v }
  | "seed" => valueOnce r.seed.isSome (Text.unsigned? countMax cs) fun v => { r with seed := some v }
  | _ => .rejected

def positional (word : String) (r : Request) : Outcome :=
  if word.isEmpty then .rejected else once r.path.isSome { r with path := some word }

/-- Whether a word looks like an option.  One hyphen alone does not. -/
def looksLikeOption (word : List Char) : Bool :=
  match word with
  | '-' :: _ :: _ => true
  | _ => false

/-- Reads the words after which only paths may come. -/
def readPaths : List String → Request → Outcome
  | [], r => .request r
  | word :: rest, r =>
    match positional word r with
    | .request r => readPaths rest r
    | other => other

def readWords : List String → Request → Outcome
  | [], r => .request r
  | word :: rest, r =>
    match word.toList with
    | ['-', '-'] => readPaths rest r
    | '-' :: '-' :: long =>
      let name := String.ofList (long.takeWhile (· != '='))
      match long.dropWhile (· != '=') with
      | _ :: value =>
        match if isValued name then valued name (String.ofList value) r else .rejected with
        | .request r => readWords rest r
        | other => other
      | [] =>
        if isValued name then
          match rest with
          | [] => .rejected
          | value :: rest =>
            if looksLikeOption value.toList then .rejected
            else
              match valued name value r with
              | .request r => readWords rest r
              | other => other
        else
          match flag name r with
          | .request r => readWords rest r
          | other => other
    | '-' :: c :: short =>
      match flags (c :: short) r with
      | .request r => readWords rest r
      | other => other
    | _ =>
      match positional word r with
      | .request r => readWords rest r
      | other => other

/-- Reads a command line, which needs a path. -/
def read (words : List String) : Outcome :=
  match readWords words {} with
  | .request r => if r.path.isSome then .request r else .rejected
  | other => other

/-- The options of a request.  A value outside the bounds of its option is passed over. -/
def Request.options (r : Request) : Options :=
  let checked {α : Type} (value : Option α) (setting : α → Setting) (o : Options) : Options :=
    match value with
    | some v => o.setD (setting v)
    | none => o
  let forced (given : Bool) (setting : Setting) (o : Options) : Options := if given then o.put setting else o
  ({} : Options)
    |> checked r.minimization .minimization
    |> forced r.noRestart (.restart false)
    |> checked r.restartFirst .restartFirst
    |> checked r.restartBase .restartBase
    |> checked r.conflictLimit .conflictLimit
    |> checked r.positiveChance .positiveChance
    |> checked r.randomChance .randomChance
    |> forced r.noPhaseSaving (.phaseSaving false)
    |> forced r.noSimplify (.simplify false)

/-- The source of randomness of a request. -/
def Request.random (r : Request) : Pcg32 :=
  match r.seed with
  | some n => .ofNumber n.toUInt64
  | none => .default

end CommandLine
end Cdcl
