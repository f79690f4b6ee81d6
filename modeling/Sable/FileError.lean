/-!
# Files that cannot be read

The causes that a system gives, with the number under which it knows each of them, and contents that
are no text.
-/

namespace Sable

inductive FileError where
  | missing
  | denied
  /-- A name on the way to the file belongs to no directory. -/
  | notDirectory
  | isDirectory
  | nameTooLong
  /-- The bytes of the file are not UTF-8. -/
  | notText
  | other (details : String)
  deriving DecidableEq

namespace FileError

def message : FileError → String
  | missing => "No such file or directory (os error 2)"
  | denied => "Permission denied (os error 13)"
  | notDirectory => "Not a directory (os error 20)"
  | isDirectory => "Is a directory (os error 21)"
  | nameTooLong => "File name too long (os error 36)"
  | notText => "stream did not contain valid UTF-8"
  | other details => details

/-- The cause with the given number. -/
def ofNumber? : Nat → Option FileError
  | 2 => some missing
  | 13 => some denied
  | 20 => some notDirectory
  | 21 => some isDirectory
  | 36 => some nameTooLong
  | _ => none

end FileError

end Sable
