import Netblock.Load.Log
import Netblock.Query

/-! # Running the command line

The answer to a command line, given what reads its arguments and the contents of the files it may
name. The interval is read before the file is.
-/

namespace Netblock.CommandLine

structure Invocation where
  file : String
  query : Query
  interval : String
  skipOverlaps : Bool
  skipInvalid : Bool
  deriving DecidableEq, Repr

inductive RunError where
  | badInterval (error : ParseError)
  | load (error : LoadError)
  deriving DecidableEq

def RunError.message : RunError → String
  | .badInterval error => s!"invalid query interval: {error.message}"
  | .load error => error.message

/-- What the program leaves behind, its log aside. -/
structure Outcome where
  exitCode : Nat
  stdout : String
  deriving DecidableEq, Repr

def Invocation.config (i : Invocation) : LoadConfig :=
  { onOverlap := if i.skipOverlaps then .skip else .abort, skipInvalid := i.skipInvalid }

/-- The values that answer a query of a file. -/
def Invocation.answer (i : Invocation) (contents : Except FileError (List UInt8)) :
    Except RunError (List String) :=
  match Block.parse i.interval with
  | .error error => .error (.badInterval error)
  | .ok block => match (loadFile i.config contents).1 with
    | .error error => .error (.load error)
    | .ok loaded => .ok (i.query.run loaded.registry block)

def linesOf (values : List String) : String := String.join (values.map fun v => v ++ "\n")

def Invocation.outcome (i : Invocation) (contents : Except FileError (List UInt8)) : Outcome :=
  match i.answer contents with
  | .ok values => ⟨0, linesOf values⟩
  | .error _ => ⟨1, ""⟩

/-- Answers arguments, which `parse` reads or ends the program over. -/
def run (parse : List String → Except Outcome Invocation)
    (contents : String → Except FileError (List UInt8)) (args : List String) : Outcome :=
  match parse args with
  | .error outcome => outcome
  | .ok i => i.outcome (contents i.file)

end Netblock.CommandLine
