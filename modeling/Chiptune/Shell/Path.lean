/-!
# Paths

A path is a row of steps, split at slashes, that lead from a folder to what the path names. A step
goes into a folder, back to the folder around it, or nowhere; slashes in a row count as one. A slash
at the end does not name anything else, but it insists on a folder.

* `inside_of_isAbsolute`: a path from the root is meant from no folder.
-/

namespace Chiptune.Path

/-- One step of a path. -/
inductive Step where
  /-- Nowhere: a single point. -/
  | stay
  /-- To the folder around: two points. -/
  | up
  /-- To what has a name in the folder. -/
  | down (name : String)
  deriving DecidableEq, Repr, Inhabited

/-- The step that a segment of a path says. -/
def Step.ofSegment : String → Step
  | "." => .stay
  | ".." => .up
  | name => .down name

def steps (path : String) : List Step :=
  ((path.splitOn "/").filter (· ≠ "")).map .ofSegment

def isAbsolute (path : String) : Bool :=
  path.toList.head? = some '/'

def endsInSlash (path : String) : Bool :=
  path.toList.getLast? = some '/'

/-- A path that is meant from a folder. -/
def inside (folder path : String) : String :=
  if isAbsolute path then path else folder ++ "/" ++ path

/-- The most bytes of a name. -/
def longestName : Nat := 255

/-- The most bytes of a path. -/
def longest : Nat := 4095

/-- The name of the file that a path leads to. -/
def fileName? (path : String) : Option String :=
  match ((steps path).filter (· ≠ .stay)).getLast? with
  | some (.down name) => some name
  | _ => none

/-- What stands after the last point of a name, unless the point comes first. -/
def extensionOf? (name : String) : Option String :=
  let after := name.toList.reverse.takeWhile (· ≠ '.')
  let before := name.toList.reverse.dropWhile (· ≠ '.')
  if before.length ≤ 1 then none else some (String.ofList after.reverse)

def extension? (path : String) : Option String :=
  (fileName? path).bind extensionOf?

/-- Whether two words differ at most in the case of their ASCII letters. -/
def sameLetters (a b : String) : Bool :=
  a.toList.map Char.toLower = b.toList.map Char.toLower

/-- A path from the root is meant from no folder. -/
theorem inside_of_isAbsolute (folder : String) {path : String} (h : isAbsolute path) :
    inside folder path = path := by
  simp [inside, h]

end Chiptune.Path
