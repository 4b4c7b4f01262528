/-
Paths of files: components between slashes.

A route is a path in its shortest form: it has no empty components and no single points, and a
pair of points only where nothing before it can be taken away.
-/
import RelaxArith.Text

namespace RelaxArith

/-- A path in its shortest form. -/
structure Route where
  /-- Does it begin at the root? -/
  rooted : Bool
  /-- The components, the last first. -/
  trail : List Bytes
deriving DecidableEq, Repr, Inhabited

namespace Route

/-- A route with one component more. A pair of points takes the last component away; at the root
there is nothing to take. -/
def push (r : Route) (component : Bytes) : Route :=
  if component.isEmpty || component == utf8 "." then r
  else if component == utf8 ".." then
    match r.trail with
    | [] => if r.rooted then r else { r with trail := [component] }
    | last :: rest =>
      { r with trail := if last == utf8 ".." then component :: r.trail else rest }
  else { r with trail := component :: r.trail }

/-- Is a route the folder in which paths begin, or one above it? -/
def isStart (r : Route) : Bool := r.trail.all (· == utf8 "..")

/-- Does a route lead to something below another one, or to the same? -/
def isBelow (r folder : Route) : Bool :=
  r.rooted == folder.rooted && folder.trail.isSuffixOf r.trail

/-- The path of a route; that of no components is a point. -/
def text (r : Route) : Bytes :=
  let text := Bytes.join (utf8 "/") r.trail.reverse
  if r.rooted then utf8 "/" ++ text else if text.isEmpty then utf8 "." else text

end Route

namespace Path

/-- Does a path begin at the root? -/
def isRooted (path : Bytes) : Bool := path.head? == some 0x2F

/-- The components of a path, empty ones included. -/
def components (path : Bytes) : List Bytes := Bytes.splitOnByte 0x2F path

/-- Where a path begins. -/
def start (path : Bytes) : Route := ⟨isRooted path, []⟩

/-- The route of a path. -/
def route (path : Bytes) : Route := (components path).foldl Route.push (start path)

/-- The shortest form of a path. -/
def clean (path : Bytes) : Bytes := (route path).text

/-- A path up to its last slash. -/
def folder (path : Bytes) : Bytes :=
  match Bytes.splitLast? 0x2F path with
  | some (before, _) => before ++ utf8 "/"
  | none => []

/-- The shortest form of a path inside a folder. -/
def within (folder path : Bytes) : Bytes :=
  clean (if folder.isEmpty then path else folder ++ utf8 "/" ++ path)

end Path
end RelaxArith
