/-!
# Reading input

Input is bytes, and has to be UTF-8 text. A file can be out of reach in other ways, and
the words for them are those of the system.
-/

namespace Lox.Terminal

/-- Why a file or a line cannot be read. -/
inductive ReadError where
  | notFound
  | isDirectory
  | notDirectory
  /-- Bytes that are no UTF-8 text. -/
  | notText
  /-- Whatever else the system says. -/
  | other (cause : String)
  deriving DecidableEq, Repr

def ReadError.message : ReadError → String
  | notFound => "No such file or directory (os error 2)"
  | isDirectory => "Is a directory (os error 21)"
  | notDirectory => "Not a directory (os error 20)"
  | notText => "stream did not contain valid UTF-8"
  | other cause => cause

/-- The text that bytes encode. -/
def decode (bytes : ByteArray) : Except ReadError String :=
  match String.fromUTF8? bytes with
  | some text => .ok text
  | none => .error .notText

end Lox.Terminal
