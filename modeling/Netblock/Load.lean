import Netblock.Load.Line
import Netblock.Registry

/-! # Loading a registry from a file

Lines are entered one after the other, and a later value of a block replaces an earlier
one. The loading ends at the first line that is not UTF-8, and at the first that is
invalid or overlaps an earlier block unless lines of that kind are to be skipped.
-/

namespace Netblock

inductive OverlapPolicy | abort | skip
  deriving DecidableEq, Repr

structure LoadConfig where
  onOverlap : OverlapPolicy := .abort
  skipInvalid : Bool := false
  commentMark : Char := '#'
  deriving DecidableEq, Repr

structure LoadReport where
  inserted : Nat := 0
  replaced : Nat := 0
  skippedOverlaps : Nat := 0
  skippedInvalid : Nat := 0
  deriving DecidableEq, Repr

inductive FileError where
  | notFound
  | isDirectory
  | notUtf8
  | other (message : String)
  deriving DecidableEq, Repr

inductive LoadError where
  | file (error : FileError)
  | invalid (line : Nat) (error : ParseError)
  | overlap (line : Nat) (error : EditError Block)
  deriving DecidableEq

inductive LoadEvent where
  | edit (event : Event Block)
  | invalidLine (line : Nat) (error : ParseError)
  | overlappingLine (line : Nat) (error : EditError Block)
  | replaced (line : Nat) (block : Block) (previous : String)
  | finished (report : LoadReport)
  deriving DecidableEq

structure Loaded where
  registry : Registry String := .empty
  report : LoadReport := {}
  deriving DecidableEq

namespace Loaded

def enter (config : LoadConfig) (number : Nat) (block : Block) (value : String) (l : Loaded) :
    Except LoadError Loaded × List LoadEvent :=
  let e := l.registry.insert block value
  let events := e.events.map LoadEvent.edit
  match e.result with
  | .ok none =>
    (.ok ⟨e.after, { l.report with inserted := l.report.inserted + 1 }⟩, events)
  | .ok (some previous) =>
    (.ok ⟨e.after, { l.report with replaced := l.report.replaced + 1 }⟩,
      events ++ [.replaced number block previous])
  | .error error => match config.onOverlap with
    | .skip =>
      (.ok ⟨e.after, { l.report with skippedOverlaps := l.report.skippedOverlaps + 1 }⟩,
        events ++ [.overlappingLine number error])
    | .abort => (.error (.overlap number error), events)

def enterLine (config : LoadConfig) (number : Nat) (line : Line) (l : Loaded) :
    Except LoadError Loaded × List LoadEvent :=
  match line with
  | .ignored => (.ok l, [])
  | .invalid error =>
    if config.skipInvalid then
      (.ok { l with report := { l.report with skippedInvalid := l.report.skippedInvalid + 1 } },
        [.invalidLine number error])
    else (.error (.invalid number error), [])
  | .entry block value => l.enter config number block value

def enterLines (config : LoadConfig) :
    Nat → List (List UInt8) → Loaded → Except LoadError Loaded × List LoadEvent
  | _, [], l => (.ok l, [.finished l.report])
  | number, bytes :: rest, l =>
    match decodeText? bytes with
    | none => (.error (.file .notUtf8), [])
    | some text => match l.enterLine config number (Line.read config.commentMark text) with
      | (.error error, events) => (.error error, events)
      | (.ok next, events) =>
        let (result, later) := enterLines config (number + 1) rest next
        (result, events ++ later)

end Loaded

def load (config : LoadConfig) (bytes : List UInt8) :
    Except LoadError Loaded × List LoadEvent :=
  Loaded.enterLines config 1 (physicalLines bytes) {}

/-- Loads a file that perhaps could not be read. -/
def loadFile (config : LoadConfig) (contents : Except FileError (List UInt8)) :
    Except LoadError Loaded × List LoadEvent :=
  match contents with
  | .ok bytes => load config bytes
  | .error error => (.error (.file error), [])

end Netblock
