/-!
# Sources of text

A source is a stream of bytes that ends, or that breaks off. It is read line by line; a line ends at
the byte `0A`, and it has to be UTF-8. A line that the break interrupts is not read, and breaking is
noticed on the next line if the bytes before it end with a line.
-/

namespace LinearAssignment.Text

/-- Why a line cannot be read. -/
inductive ReadError
  /-- The bytes of a line are not UTF-8. -/
  | undecodable
  /-- The stream broke off. -/
  | broken
deriving DecidableEq, Repr

/-- The text of a read error. -/
def ReadError.message : ReadError → String
  | undecodable => "stream did not contain valid UTF-8"
  | broken => "broken reader"

/-- A stream of bytes. -/
structure Source where
  /-- The bytes that the stream delivers. -/
  bytes : List UInt8
  /-- Whether the stream breaks off after them instead of ending. -/
  breaks : Bool
deriving DecidableEq, Repr

namespace Source

/-- The stream of the UTF-8 bytes of a text. -/
def ofString (text : String) : Source where
  bytes := text.toByteArray.data.toList
  breaks := false

/-- The stream that breaks off after the first `k` bytes of another. -/
def breakAt (source : Source) (k : Nat) : Source where
  bytes := source.bytes.take k
  breaks := true

/-- The byte that ends a line. -/
def newline : UInt8 := 0x0A

/-- The text of the bytes of a line. -/
def decode (line : List UInt8) : Except ReadError String :=
  match String.fromUTF8? ⟨line.toArray⟩ with
  | some text => .ok text
  | none => .error .undecodable

/-- What comes after the last line end: a line of its own unless it is empty, or the break. -/
def lastLine (source : Source) (rest : List UInt8) : List (Except ReadError String) :=
  if source.breaks then [.error .broken]
  else if rest.isEmpty then []
  else [decode rest]

/-- The lines of a source in order. Reading stops at the first that is an error. -/
def lines (source : Source) : List (Except ReadError String) :=
  let parts := source.bytes.splitOn newline
  parts.dropLast.map decode ++ source.lastLine (parts.getLastD [])

end Source

end LinearAssignment.Text
