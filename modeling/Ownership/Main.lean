import Ownership.CommandLine

/-!
The program: reads the source file, answers the call and writes the answer.
-/
namespace Ownership.CommandLine

/-- The system's number for a failure, which may come negated. -/
def isCode (number code : UInt32) : Bool := code = number || code = 0 - number

/-- The reason why the operating system refused to read a file. -/
def faultOf : IO.Error → FileFault
  | .noFileOrDirectory .. => .missing
  | .inappropriateType _ code _ => if isCode 20 code then .notDirectory else .isDirectory
  | e@(.invalidArgument _ code _) => if isCode 36 code then .nameTooLong else .other (toString e)
  | e => .other (toString e)

def readSource (args : List String) : IO (Except FileFault String) :=
  match source? args with
  | none => return .error .missing
  | some path => do
    try
      return .ok (← IO.FS.readFile path)
    catch e =>
      return .error (faultOf e)

def write (o : Outcome) : IO UInt32 := do
  IO.eprint (Outcome.text o.err)
  IO.print (Outcome.text o.out)
  return o.exit.toUInt32

def runMain (args : List String) : IO UInt32 := do
  let source ← readSource args
  match answer args fun _ => source with
  | .error fault =>
    IO.eprintln ("internal error: " ++ fault.message)
    return 1
  | .ok .help =>
    IO.println usage
    return 0
  | .ok (.usage message) =>
    IO.eprintln (usage ++ "\nownck: error: " ++ message)
    return 2
  | .ok (.done outcome) => write outcome

end Ownership.CommandLine

def main (args : List String) : IO UInt32 := Ownership.CommandLine.runMain args
