/-
  File paths.

  A path is a text whose components are separated by slashes; empty components
  do not count.  Relative paths stand in the root directory.

  * `absolute` resolves `.` and `..`.
-/
import MessageSchema.Text.Split

namespace MessageSchema.Path

open Text (split atChar)

/-- The names between the slashes of a path. -/
def components (p : String) : List String := (split (atChar '/') p).filter (· ≠ "")

/-- Whether a path starts at the root. -/
def isAbsolute (p : String) : Bool := p.toList.head? = some '/'

/-- The length of the part of a component in front of its extension. -/
def stemLength (component : String) : Nat :=
  let s := component.toList
  let tail := s.reverse.takeWhile (· ≠ '.')
  let n := s.length - (tail.length + 1)
  if tail.length = s.length ∨ n = 0 ∨ component = ".." then s.length else n

/-- The last component of a path, empty if there is none. -/
def lastComponent (p : String) : String := (components p).getLast?.getD ""

/-- The last name of a path without its extension. -/
def stem (p : String) : String :=
  String.ofList ((lastComponent p).toList.take (stemLength (lastComponent p)))

/-- The extension of a path with its dot, empty if there is none. -/
def extension (p : String) : String :=
  String.ofList ((lastComponent p).toList.drop (stemLength (lastComponent p)))

/-- Components with `.` dropped and `..` taking back the component before it. -/
def resolveDots (cs : List String) : List String :=
  cs.foldl (fun done c => if c = "." then done else if c = ".." then done.dropLast
    else done ++ [c]) []

/-- The absolute path along some names. -/
def ofComponents (cs : List String) : String := "/" ++ "/".intercalate (resolveDots cs)

/-- The absolute path that a path stands for. -/
def absolute (p : String) : String := ofComponents (components p)

/-- The extension that an import path gets if it has none. -/
def defaultExtension : String := ".def"

/-- The path of the file that `importing` names as `path`, where a path without
    an extension gets `ext`. -/
def ofImport (ext importing path : String) : String :=
  let target := if extension path = "" then path ++ ext else path
  if isAbsolute target then absolute target
  else ofComponents ((components importing).dropLast ++ components target)

end MessageSchema.Path
