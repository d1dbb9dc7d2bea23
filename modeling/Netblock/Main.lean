import Netblock.CommandLine.Run

/-! # The program

Reads the file that the command line names and leaves what the library answers.
-/

namespace Netblock

def FileError.ofFailure : IO.Error → FileError
  | .noFileOrDirectory .. => .notFound
  | .inappropriateType .. => .isDirectory
  | e => .other (toString e)

def readContents (file : String) : IO (Except FileError (List UInt8)) := do
  try
    return .ok (← IO.FS.readBinFile file).toList
  catch e => return .error (.ofFailure e)

namespace CommandLine

def Invocation.perform (i : Invocation) : IO Outcome := do
  let contents ← readContents i.file
  if let .error error := i.answer contents then
    (← IO.getStderr).putStrLn s!"Error: {error.message}"
  return i.outcome contents

/-- The program, over what reads its arguments. -/
def program (parse : List String → Except Outcome Invocation) (args : List String) :
    IO UInt32 := do
  let outcome ← match parse args with
    | .error outcome => pure outcome
    | .ok i => i.perform
  (← IO.getStdout).putStr outcome.stdout
  return outcome.exitCode.toUInt32

end CommandLine

end Netblock
