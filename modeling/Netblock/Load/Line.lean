import Netblock.Block
import Netblock.Text.Split

/-! # Lines of a file

A file is a list of bytes in lines. A line holds the text of a block and, after blanks, a
value, unless it is blank or a comment.
-/

namespace Netblock

open Text

/-- The lines of a file. The last line need not be ended. -/
def physicalLines (bytes : List UInt8) : List (List UInt8) :=
  let lines := pieces '\n'.toUInt8 bytes
  if lines.getLast? = some [] then lines.dropLast else lines

def decodeText? (bytes : List UInt8) : Option (List Char) :=
  (ByteArray.mk bytes.toArray).utf8Decode?.map Array.toList

/-- Divides a text without outer blanks into the text of a block and a value. The block is the
first word, or two words with a dash between them that may stand alone or touch either.
A dash after a word with a dash or a slash in it belongs to the value. -/
def splitKey (line : List Char) : List Char × List Char :=
  let word := line.takeWhile fun c => !isBlank c
  let rest := trimStart (line.dropWhile fun c => !isBlank c)
  let dangling := word.getLast? = some '-'
  let leading := rest.head? = some '-' ∧ '-' ∉ word ∧ '/' ∉ word
  if dangling ∨ leading then
    let second := if dangling then rest else trimStart rest.tail
    let value := second.dropWhile fun c => !isBlank c
    (line.take (line.length - value.length), trim value)
  else (word, trim rest)

inductive Line where
  | ignored
  | invalid (error : ParseError)
  | entry (block : Block) (value : String)
  deriving DecidableEq

/-- Reads a line. A comment starts with `mark`, after blanks or none. -/
def Line.read (mark : Char) (line : List Char) : Line :=
  let line := trim line
  if line = [] ∨ line.head? = some mark then .ignored
  else
    let (key, value) := splitKey line
    match Block.read key with
    | .error e => .invalid e
    | .ok b => .entry b (String.ofList value)

end Netblock
