import PatchTyping.Normalization

/-!
# Options of the command line

Arguments are read in order, and the first that decides something does: a mistake, or a request for the
help or version text. An option that takes a value has it attached, after an equals sign, or as the next
argument, which then must not look like an option. After two dashes every argument is a file name.
-/

namespace PatchTyping

inductive OutputStage where
  | typed | diagnostics | constraints | dot | backend | catalog | buildInfo
deriving DecidableEq, Repr

namespace OutputStage

def all : List OutputStage := [typed, diagnostics, constraints, dot, backend, catalog, buildInfo]

def name : OutputStage → String
  | typed => "typed"
  | diagnostics => "diagnostics"
  | constraints => "constraints"
  | dot => "dot"
  | backend => "backend"
  | catalog => "catalog"
  | buildInfo => "build-info"

def title : OutputStage → String
  | typed => "Typed"
  | diagnostics => "Diagnostics"
  | constraints => "Constraints"
  | dot => "Dot"
  | backend => "Backend"
  | catalog => "Catalog"
  | buildInfo => "BuildInfo"

def ofName? (text : String) : Option OutputStage := all.find? fun s => s.name == text

end OutputStage

structure CommandOptions where
  patch : String
  output : Option String := none
  /-- In the order in which they are to be loaded. -/
  catalogs : List String := []
  noStandard : Bool := false
  stage : OutputStage := .typed
  maxIterations : Nat := ({} : NormalizationOptions).maxIterations
  verbose : Bool := false
deriving DecidableEq, Repr

inductive CommandRequest where
  | run (options : CommandOptions)
  | help
  | version
deriving DecidableEq, Repr

inductive UsageError where
  | unexpected (argument : String)
  | repeated (option : String)
  | missingValue (option : String)
  | badValue (option value : String)
  | needlessValue (option : String)
  | missingPatch
deriving DecidableEq, Repr

namespace UsageError

def reason : UsageError → String
  | unexpected argument => "unexpected argument " ++ inQuotes argument ++ " found"
  | repeated option => "the argument " ++ inQuotes option ++ " cannot be used multiple times"
  | missingValue option => "a value is required for " ++ inQuotes option ++ " but none was supplied"
  | badValue option value => "invalid value " ++ inQuotes value ++ " for " ++ inQuotes option
  | needlessValue option => "unexpected value for " ++ inQuotes option ++ " found"
  | missingPatch => "the following required arguments were not provided:\n  <GRAPH>"

def message (e : UsageError) : String :=
  "error: " ++ e.reason
    ++ "\n\nUsage: normc [OPTIONS] <GRAPH>\n\nFor more information, try '--help'.\n"

end UsageError

def helpText : String :=
  "Graph normalizer: resolves port types and inserts unit adapters in block dataflow graphs

Usage: normc [OPTIONS] <GRAPH>

Arguments:
  <GRAPH>  Input draft graph (JSON)

Options:
  -o, --output <OUTPUT>
          Output file path (stdout when omitted)
      --catalog <CATALOG>
          Block catalog file (repeatable), merged over the standard catalog
      --no-std
          Do not load the standard block catalog
      --emit <EMIT>
          Output stage [default: typed] [possible values: "
    ++ ", ".intercalate (OutputStage.all.map OutputStage.name) ++ "]
      --max-iterations <MAX_ITERATIONS>
          Fixpoint iteration bound [default: 4]
      --verbose
          Print normalizer phases and timing
  -h, --help
          Print help
  -V, --version
          Print version
"

/-- What the arguments read so far have set. -/
structure OptionDraft where
  patch : Option String := none
  output : Option String := none
  /-- The latest first. -/
  catalogs : List String := []
  noStandard : Bool := false
  stage : Option OutputStage := none
  maxIterations : Option Nat := none
  verbose : Bool := false

inductive ValueOption where
  | output | catalog | emit | maxIterations
deriving DecidableEq, Repr

inductive FlagOption where
  | noStandard | verbose | help | version
deriving DecidableEq, Repr

inductive Argument where
  /-- The name is as it was written. -/
  | flag (option : FlagOption) (name : String) (attached : Bool)
  | value (option : ValueOption) (name : String) (attached : Option String)
  | fileName (text : String)
  | endOfOptions
  | unknown (text : String)
deriving DecidableEq, Repr

namespace Argument

/-- The part before the first equals sign, and the part after it. -/
def splitAtEquals : List Char → List Char × Option (List Char)
  | [] => ([], none)
  | c :: cs =>
    if c = '=' then ([], some cs)
    else
      let (front, back) := splitAtEquals cs
      (c :: front, back)

def ofLong (text : String) (rest : List Char) : Argument :=
  let (name, back) := splitAtEquals rest
  let name := String.ofList name
  let attached := back.map String.ofList
  match name with
  | "output" => .value .output "--output" attached
  | "catalog" => .value .catalog "--catalog" attached
  | "emit" => .value .emit "--emit" attached
  | "max-iterations" => .value .maxIterations "--max-iterations" attached
  | "no-std" => .flag .noStandard "--no-std" attached.isSome
  | "verbose" => .flag .verbose "--verbose" attached.isSome
  | "help" => .flag .help "--help" attached.isSome
  | "version" => .flag .version "--version" attached.isSome
  | _ => .unknown text

/-- A single letter. An equals sign between it and its value is not part of the value. -/
def ofShort (text : String) (letter : Char) (rest : List Char) : Argument :=
  match letter with
  | 'o' =>
    .value .output "-o" <|
      match rest with
      | [] => none
      | '=' :: cs => some (String.ofList cs)
      | cs => some (String.ofList cs)
  | 'h' => .flag .help "-h" false
  | 'V' => .flag .version "-V" false
  | _ => .unknown text

def ofText (text : String) : Argument :=
  match text.toList with
  | ['-', '-'] => .endOfOptions
  | '-' :: '-' :: rest => ofLong text rest
  | '-' :: letter :: rest => ofShort text letter rest
  | _ => .fileName text

/-- The argument cannot be the value of an option before it. -/
def looksLikeOption (text : String) : Bool :=
  match text.toList with
  | '-' :: _ :: _ => true
  | _ => false

end Argument

/-- A number below 2⁶⁴ in decimal digits, with or without a plus sign. -/
def readCount? (text : String) : Option Nat :=
  let digits :=
    match text.toList with
    | '+' :: ds => ds
    | ds => ds
  if digits.isEmpty || !digits.all Char.isDigit then none
  else
    let n := digits.foldl (fun n c => 10 * n + (c.toNat - '0'.toNat)) 0
    if n < UInt64.size then some n else none

namespace OptionDraft

def checkedPath (option text : String) : Except UsageError String :=
  if text.isEmpty then .error (.badValue option text) else .ok text

def addFileName (d : OptionDraft) (text : String) : Except UsageError OptionDraft :=
  match d.patch with
  | some _ => .error (.unexpected text)
  | none => do return { d with patch := some (← checkedPath "<GRAPH>" text) }

def setValue (d : OptionDraft) (option : ValueOption) (name text : String) :
    Except UsageError OptionDraft :=
  match option with
  | .output =>
    if d.output.isSome then .error (.repeated name)
    else do return { d with output := some (← checkedPath name text) }
  | .catalog => do return { d with catalogs := (← checkedPath name text) :: d.catalogs }
  | .emit =>
    if d.stage.isSome then .error (.repeated name)
    else
      match OutputStage.ofName? text with
      | some s => .ok { d with stage := some s }
      | none => .error (.badValue name text)
  | .maxIterations =>
    if d.maxIterations.isSome then .error (.repeated name)
    else
      match readCount? text with
      | some n => .ok { d with maxIterations := some n }
      | none => .error (.badValue name text)

def finish (d : OptionDraft) : Except UsageError CommandRequest :=
  match d.patch with
  | none => .error .missingPatch
  | some patch =>
    let defaults : CommandOptions := { patch }
    .ok (.run
      { patch
        output := d.output
        catalogs := d.catalogs.reverse
        noStandard := d.noStandard
        stage := d.stage.getD defaults.stage
        maxIterations := d.maxIterations.getD defaults.maxIterations
        verbose := d.verbose })

/-- Arguments that can only be file names. -/
def readFileNames (d : OptionDraft) : List String → Except UsageError CommandRequest
  | [] => d.finish
  | text :: rest => do (← d.addFileName text).readFileNames rest

def read (d : OptionDraft) : List String → Except UsageError CommandRequest
  | [] => d.finish
  | text :: rest =>
    match Argument.ofText text with
    | .endOfOptions => d.readFileNames rest
    | .unknown text => .error (.unexpected text)
    | .fileName text => do (← d.addFileName text).read rest
    | .flag option name attached =>
      if attached then .error (.needlessValue name)
      else
        match option with
        | .help => .ok .help
        | .version => .ok .version
        | .noStandard =>
          if d.noStandard then .error (.repeated name)
          else { d with noStandard := true }.read rest
        | .verbose =>
          if d.verbose then .error (.repeated name) else { d with verbose := true }.read rest
    | .value option name (some text) => do (← d.setValue option name text).read rest
    | .value option name none =>
      match rest with
      | [] => .error (.missingValue name)
      | text :: rest =>
        if Argument.looksLikeOption text then .error (.missingValue name)
        else do (← d.setValue option name text).read rest

end OptionDraft

def CommandRequest.ofArguments (args : List String) : Except UsageError CommandRequest :=
  OptionDraft.read {} args

end PatchTyping
