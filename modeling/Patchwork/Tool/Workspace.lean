import Patchwork.Tool.Files

/-!
# Workspaces

A workspace is a directory in memory, with the files in it and below it. Directories are there
because files lie in them. Paths start from the workspace; what lies outside it is not there.
-/

namespace Patchwork

/-- A file, by the parts of its path, with its content. -/
structure WorkspaceFile where
  parts : List Text
  content : Text
  deriving DecidableEq, Repr

/-- A directory in memory. -/
structure Workspace where
  files : List WorkspaceFile := []
  deriving DecidableEq, Repr

namespace Workspace

/-- What a path leads to. -/
inductive Target where
  | file (parts : List Text) (content : Text)
  | directory (parts : List Text)
  /-- Nothing, in a directory that is there. -/
  | free (parts : List Text)
  deriving DecidableEq, Repr

def content? (w : Workspace) (parts : List Text) : Option Text :=
  (w.files.find? (·.parts == parts)).map WorkspaceFile.content

def filesBelow (w : Workspace) (parts : List Text) : List (List Text) :=
  w.files.filterMap fun f =>
    if parts.isPrefixOf f.parts && parts.length < f.parts.length then
      some (f.parts.drop parts.length)
    else none

def follow (w : Workspace) : (at_ : List Text) → List Text → Except FileError Target
  | at_, [] => .ok (.directory at_)
  | at_, part :: parts =>
    if part.isEmpty || part == ['.'] then w.follow at_ parts
    else if part == ['.', '.'] then
      if at_.isEmpty then .error .missing else w.follow at_.dropLast parts
    else
      let there := at_ ++ [part]
      match w.content? there with
      | some content => if parts.isEmpty then .ok (.file there content) else .error .notDirectory
      | none =>
        if !(w.filesBelow there).isEmpty then w.follow there parts
        else if parts.isEmpty then .ok (.free there)
        else .error .missing

def locate (w : Workspace) (path : Text) : Except FileError Target :=
  if path.isEmpty || path.head? == some '/' then .error .missing
  else w.follow [] (Text.splitOn '/' path)

def read (w : Workspace) (path : Text) : Except FileError Text :=
  match w.locate path with
  | .ok (.file _ content) => .ok content
  | .ok (.directory _) => .error .isDirectory
  | .ok (.free _) => .error .missing
  | .error e => .error e

/-- Give a file a new content, or make one. -/
def put (w : Workspace) (parts : List Text) (content : Text) : Workspace :=
  { files := w.files.filter (·.parts != parts) ++ [WorkspaceFile.mk parts content] }

def write (w : Workspace) (path content : Text) : Except FileError Workspace :=
  match w.locate path with
  | .ok (.file parts _) => .ok (w.put parts content)
  | .ok (.free parts) => .ok (w.put parts content)
  | .ok (.directory _) => .error .isDirectory
  | .error e => .error e

def isFile (w : Workspace) (path : Text) : Bool :=
  match w.locate path with
  | .ok (.file ..) => true
  | _ => false

def below (w : Workspace) (path : Text) : List (List Text) :=
  match w.locate path with
  | .ok (.directory parts) => w.filesBelow parts
  | _ => []

end Workspace

instance : Files (StateM Workspace) where
  read path := do return (← get).read path
  write path content := do
    match (← get).write path content with
    | .ok w =>
      set w
      return .ok ()
    | .error e => return .error e
  isFile path := do return (← get).isFile path
  below path := do return (← get).below path

end Patchwork
