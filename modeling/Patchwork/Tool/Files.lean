import Patchwork.Text.Basic

/-!
# Files

What the command line tool needs of a file system, as a class, so that the tool can run on the disk
and on a `Workspace` in memory. Paths are texts with a slash between their parts.
-/

namespace Patchwork

/-- Why a file cannot be read or written. -/
inductive FileError where
  | missing
  | isDirectory
  | notDirectory
  | other (reason : Text)
  deriving DecidableEq, Repr

def FileError.message : FileError → Text
  | missing => "No such file or directory (os error 2)"
  | isDirectory => "Is a directory (os error 21)"
  | notDirectory => "Not a directory (os error 20)"
  | other reason => reason

/-- Access to files. -/
class Files (m : Type → Type) where
  read : Text → m (Except FileError Text)
  write : Text → Text → m (Except FileError Unit)
  isFile : Text → m Bool
  /-- The files in a directory and in the directories below it, each by the parts of its path from
  there. -/
  below : Text → m (List (List Text))

namespace Path

/-- Without slashes, and parts that are a point, at the end. Both texts are written backwards. -/
def dropSeparators : Text → Text
  | [] => []
  | c :: t =>
    if c == '/' then if t.isEmpty then ['/'] else dropSeparators t
    else if c == '.' && t.head? == some '/' then dropSeparators t
    else c :: t

def parent (path : Text) : Text :=
  let back := dropSeparators path.reverse
  let front := if back == ['/'] then [] else dropSeparators (back.dropWhile (· != '/'))
  if front.isEmpty then "." else front.reverse

def join (directory path : Text) : Text :=
  if Text.endsWithChar '/' directory then directory ++ path else directory ++ '/' :: path

def name (path : Text) : Text :=
  ((dropSeparators path.reverse).takeWhile (· != '/')).reverse

/-- The last part of a path without what follows its last point, unless that is its first
character. -/
def stem (path : Text) : Text :=
  let name := name path
  let front := (name.reverse.dropWhile (· != '.')).drop 1
  if front.isEmpty then name else front.reverse

end Path
end Patchwork
