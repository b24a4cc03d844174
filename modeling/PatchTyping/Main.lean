import PatchTyping.CommandSession

/-!
# The command line

Reads the files that a session asks for, and carries the session out.
-/

namespace PatchTyping.Main

/-- The number of the fault of a path that goes through a file; it may come negated. -/
def notDirectoryCode : UInt32 := 20

def faultOf : IO.Error → FileFault
  | .noFileOrDirectory _ _ _ => .missing
  | .permissionDenied _ _ _ => .denied
  | .inappropriateType _ code _ =>
    if code = notDirectoryCode ∨ code = -notDirectoryCode then .notDirectory else .isDirectory
  | e => .other (toString e)

def readFile (path : String) : IO (Except FileFault String) := do
  try
    return .ok (← IO.FS.readFile path)
  catch e =>
    return .error (faultOf e)

def writeOutput (destination : Option String) (text : String) :
    IO (Option (String × FileFault)) := do
  match destination with
  | none =>
    IO.print text
    return none
  | some path =>
    try
      IO.FS.writeFile path text
      return none
    catch e =>
      return some (path, faultOf e)

def carryOut (o : CommandOptions) : IO UInt32 := do
  let contents ← o.files.mapM fun path => return (path, ← readFile path)
  let s := o.session fun path => (contents.lookup path).getD (.error .missing)
  s.notes.forM IO.eprintln
  match s.output with
  | none => return s.exitCode.toUInt32
  | some text =>
    match ← writeOutput o.output text with
    | some (path, fault) =>
      let s := Session.afterFailedOutput path fault
      s.notes.forM IO.eprintln
      return s.exitCode.toUInt32
    | none =>
      s.closing.forM IO.eprintln
      return s.exitCode.toUInt32

end PatchTyping.Main

open PatchTyping in
def main (args : List String) : IO UInt32 := do
  match CommandRequest.ofArguments args with
  | .ok .help =>
    IO.print helpText
    return 0
  | .ok .version =>
    IO.print versionText
    return 0
  | .ok (.run o) => Main.carryOut o
  | .error e =>
    IO.eprint e.message
    return failureCode.toUInt32
