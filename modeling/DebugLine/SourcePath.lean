/-!
# Source paths

A file of a line table is named relative to a directory. The two are joined and the result is
brought into normal form without looking at a file system: `.` is dropped and `..` removes the
component before it, unless there is none.
-/

namespace DebugLine.SourcePath

/-- What stands between two slashes of a path. -/
abbrev Component := List Char

/-- The component that names its own directory. -/
def here : Component := ['.']

/-- The component that names the enclosing directory. -/
def parent : Component := ['.', '.']

/-- The components of a path, the empty ones included. -/
def components : List Char → List Component
  | [] => [[]]
  | c :: cs =>
    if c = '/' then [] :: components cs
    else
      match components cs with
      | [] => [[c]]
      | part :: parts => (c :: part) :: parts

def isRooted (path : List Char) : Bool := path.head? == some '/'

/-- Follows one component from the place that `stack` names, deepest component first. Only a
place that is not rooted can lie above the start. -/
def follow (rooted : Bool) (stack : List Component) (part : Component) : List Component :=
  if part = [] ∨ part = here then stack
  else if part = parent then
    match stack with
    | [] => if rooted then [] else [parent]
    | top :: below =>
      if top ≠ parent then below else if rooted then stack else parent :: stack
  else part :: stack

/-- The normal form of a path. A path that leads nowhere else is `.`. -/
def normalize (path : List Char) : List Char :=
  let rooted := isRooted path
  let parts := ((components path).foldl (follow rooted) []).reverse
  let body := List.intercalate ['/'] parts
  if rooted then '/' :: body else if body = [] then here else body

/-- The path of `name` in `directory`, in normal form. -/
def join (directory name : String) : String :=
  let path := if directory.isEmpty then name.toList else directory.toList ++ '/' :: name.toList
  String.ofList (normalize path)

/-- Paths from the root, and paths on a lettered drive such as `C:\src`. -/
def isAbsolute (path : String) : Bool :=
  match path.toList with
  | '/' :: _ => true
  | drive :: ':' :: separator :: _ => drive.isAlpha && (separator == '\\' || separator == '/')
  | _ => false

end DebugLine.SourcePath
