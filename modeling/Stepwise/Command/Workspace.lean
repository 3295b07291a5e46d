import Stepwise.Settings.Basic

/-!
# Workspaces

What commands read: files, the text of the standard input and the environment. Paths are relative to the
working directory.
-/

namespace Stepwise

/-- Why a file cannot be used; `action` is what was tried. -/
inductive FileError where
  | missing (action path : String)
  | isDirectory (action path : String)
  | notDirectory (action path : String)
  deriving DecidableEq, Repr

/-- The wording of an error. -/
def FileError.message : FileError → String
  | missing action path => action ++ " " ++ path ++ ": no such file or directory"
  | isDirectory action path => action ++ " " ++ path ++ ": is a directory"
  | notDirectory action path => action ++ " " ++ path ++ ": not a directory"

/-- What commands read. -/
structure Workspace where
  /-- Paths and contents. -/
  files : List (String × String)
  /-- Directories beside those of the files. -/
  directories : List String := []
  stdin : String := ""
  environment : Environment := []
  /-- Whether the output goes to a terminal. -/
  terminal : Bool := false

namespace Workspace

/-- The contents of a file, by its clean path. -/
def file? (w : Workspace) (path : String) : Option String :=
  w.files.findSome? fun (p, text) => if cleanPath p = path then some text else none

/-- Whether `path` lies in `directory`; both are clean. -/
def liesIn (directory path : String) : Bool :=
  if directory = "." then !isAbsolutePath path && path != "." && path != ".."
  else (directory.toList ++ ['/']).isPrefixOf path.toList

/-- Whether a clean path is a directory. -/
def isDirectory (w : Workspace) (path : String) : Bool :=
  path == "." || (w.directories.map cleanPath).contains path ||
    w.files.any fun (p, _) => liesIn path (cleanPath p)

/-- Whether a file stands where a clean path needs a directory. -/
def passesFile (w : Workspace) (path : String) : Bool :=
  w.files.any fun (p, _) => liesIn (cleanPath p) path

/-- Why a path that is no file and no directory cannot be used. -/
def absent (w : Workspace) (action path : String) : FileError :=
  if w.passesFile (cleanPath path) then .notDirectory action path else .missing action path

/-- The contents of a file. -/
def read (w : Workspace) (path : String) : Except FileError String :=
  let clean := cleanPath path
  if path.isEmpty then .error (.missing "open" path)
  else
    match w.file? clean with
    | some text => if path.endsWith "/" then .error (.notDirectory "open" path) else .ok text
    | none => .error (if w.isDirectory clean then .isDirectory "read" path else w.absent "open" path)

/-- The clean path of a file that can be written. -/
def writable (w : Workspace) (path : String) : Except FileError String :=
  let clean := cleanPath path
  let parent := cleanPath (path ++ "/..")
  if w.isDirectory clean || path.endsWith "/" then .error (.isDirectory "open" path)
  else if (w.file? clean).isSome || w.isDirectory parent then .ok clean
  else .error (w.absent "open" path)

/-- The files below a directory by their paths from there, or the one file that is called `directory`. -/
def filesBelow (w : Workspace) (directory : String) : Except FileError (List (String × String × String)) :=
  let clean := cleanPath directory
  let skipped := if clean = "." then 0 else clean.length + 1
  match w.file? clean with
  | some text => .ok [(clean, ".", text)]
  | none =>
    if directory.isEmpty || !w.isDirectory clean then .error (w.absent "lstat" directory)
    else
      .ok <| w.files.filterMap fun (p, text) =>
        let p := cleanPath p
        if liesIn clean p then some (p, String.ofList (p.toList.drop skipped), text) else none

end Workspace

end Stepwise
