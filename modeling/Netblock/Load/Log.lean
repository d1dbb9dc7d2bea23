import Netblock.Load
import Netblock.Log

/-! # Log of a loading

The wording of the errors and events of a loading.
-/

namespace Netblock

def FileError.message : FileError → String
  | .notFound => "No such file or directory (os error 2)"
  | .isDirectory => "Is a directory (os error 21)"
  | .notUtf8 => "stream did not contain valid UTF-8"
  | .other message => message

def LoadError.message : LoadError → String
  | .file error => s!"I/O error: {error.message}"
  | .invalid line error => s!"line {line}: {error.message}"
  | .overlap line error => s!"line {line}: {error.message Block.describe}"

def LoadEvent.record : LoadEvent → LogRecord
  | .edit event => event.record fun b => b.interval.describe
  | .invalidLine line error =>
    ⟨.warn, "skipping invalid line", [("line", toString line), ("source", error.message)]⟩
  | .overlappingLine line error =>
    ⟨.warn, "skipping overlapping interval",
      [("line", toString line), ("source", error.message Block.describe)]⟩
  | .replaced line block previous =>
    ⟨.debug, "replaced value",
      [("line", toString line), ("interval", block.text), ("previous", previous)]⟩
  | .finished report =>
    ⟨.info, "loaded intervals",
      [("inserted", toString report.inserted), ("replaced", toString report.replaced),
        ("skipped_overlaps", toString report.skippedOverlaps),
        ("skipped_invalid", toString report.skippedInvalid)]⟩

end Netblock
