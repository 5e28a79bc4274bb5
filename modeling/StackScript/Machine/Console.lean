/-! What a program reads and writes, as data. Input is read line by line; what is written is kept.
Each way in which a real terminal can fail can be asked for. -/
namespace StackScript

inductive ConsoleError
  | inputBroken
  | outputFull
  | flushFailed
  deriving DecidableEq, Repr

def ConsoleError.message : ConsoleError → String
  | inputBroken => "input broken"
  | outputFull => "output full"
  | flushFailed => "flush failed"

structure Console where
  /-- The bytes not read yet. -/
  input : List UInt8 := []
  /-- Whether reading past the last byte fails instead of finding the end. -/
  inputBroken : Bool := false
  /-- Everything written so far. -/
  output : ByteArray := .empty
  /-- How many more bytes can be written, if there is a limit. -/
  room : Option Nat := none
  /-- How many flushes there have been. -/
  flushes : Nat := 0
  /-- The flush that fails, counted from one. -/
  failingFlush : Option Nat := none
  /-- Listings and traces. -/
  diagnostics : String := ""
  deriving Inhabited

namespace Console

/-- Writes bytes. If they are more than there is room for, those that fit are written. -/
def write (c : Console) (bytes : ByteArray) : Except ConsoleError Unit × Console :=
  match c.room with
  | none => (.ok (), { c with output := c.output ++ bytes })
  | some room =>
    if bytes.size ≤ room then
      (.ok (), { c with output := c.output ++ bytes, room := some (room - bytes.size) })
    else
      (.error .outputFull, { c with output := c.output ++ bytes.extract 0 room, room := some 0 })

def flush (c : Console) : Except ConsoleError Unit × Console :=
  let count := c.flushes + 1
  (if c.failingFlush = some count then .error .flushFailed else .ok (), { c with flushes := count })

/-- The byte that ends a line. -/
def lineEnd : UInt8 := 10

/-- The first line, its end included, and what follows it. -/
def splitLine (bytes : List UInt8) : List UInt8 × List UInt8 :=
  let body := bytes.takeWhile (· ≠ lineEnd)
  match bytes.dropWhile (· ≠ lineEnd) with
  | [] => (body, [])
  | e :: rest => (body ++ [e], rest)

/-- A line and what follows it make up the bytes. -/
theorem splitLine_append (bytes : List UInt8) : (splitLine bytes).1 ++ (splitLine bytes).2 = bytes := by
  have h := List.takeWhile_append_dropWhile (p := (· ≠ lineEnd)) (l := bytes)
  unfold splitLine
  split <;> rename_i hd <;> rw [hd] at h <;> simpa using h

/-- Reads a line with its end, which the last line may lack; nothing is left to read after it. -/
def readLine (c : Console) : Except ConsoleError (List UInt8) × Console :=
  let (line, rest) := splitLine c.input
  let c := { c with input := rest }
  if c.inputBroken ∧ line.getLast? ≠ some lineEnd then (.error .inputBroken, c) else (.ok line, c)

/-- A line without the marks at its end: one newline, and then one carriage return. -/
def trimLineEnd (line : List UInt8) : List UInt8 :=
  let line := if line.getLast? = some lineEnd then line.dropLast else line
  if line.getLast? = some 13 then line.dropLast else line

def note (c : Console) (text : String) : Console :=
  { c with diagnostics := c.diagnostics ++ text }

end Console
end StackScript
