import Stepwise.Text.Search

/-!
# Paths of files

Paths are made of names between slashes. A clean path is the shortest one for its file: it has no empty
names, no `.` but itself, and `..` only at the start of a relative path.
-/

namespace Stepwise

/-- The names of a path. -/
def pathNames (path : String) : List String :=
  ((splitText ['/'] path.toList).map String.ofList).filter (!·.isEmpty)

/-- Whether a path starts at the root. -/
def isAbsolutePath (path : String) : Bool := path.toList.head? == some '/'

/-- The names that stay, in reverse; `rooted` paths have nothing above them. -/
def cleanNames (rooted : Bool) (kept : List String) : List String → List String
  | [] => kept
  | "." :: names => cleanNames rooted kept names
  | ".." :: names =>
    match kept with
    | [] => cleanNames rooted (if rooted then [] else [".."]) names
    | ".." :: _ => cleanNames rooted (".." :: kept) names
    | _ :: kept => cleanNames rooted kept names
  | name :: names => cleanNames rooted (name :: kept) names

/-- The clean path of the same file. -/
def cleanPath (path : String) : String :=
  let rooted := isAbsolutePath path
  let body := String.intercalate "/" (cleanNames rooted [] (pathNames path)).reverse
  if rooted then "/" ++ body else if body.isEmpty then "." else body

/-- The clean path of `path` within `directory`. -/
def joinPath (directory path : String) : String := cleanPath (directory ++ "/" ++ path)

end Stepwise
