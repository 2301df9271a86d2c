import SecdLisp.Error

/-!
# File trees

Directories and files, and how a path finds its way through them. Every name of a path is
looked up in a directory that is there, even if a later name leaves that directory again. The
main statements say what stands where after something was put into a tree.
-/

namespace SecdLisp

/-- The names that lead from the root to a place. -/
abbrev Location := List String

inductive Entry where
  | directory
  | file (bytes : Bytes)
  /-- Reads as empty and forgets what is written to it. -/
  | null
  deriving DecidableEq, Repr, Inhabited

structure FileTree where
  entries : List (Location × Entry)
  /-- Where a relative path starts. -/
  working : Location
  deriving DecidableEq, Repr, Inhabited

namespace FileTree

/-- A name has at most that many bytes. -/
def maxName : Nat := 255

/-- A path has at most that many bytes. -/
def maxPath : Nat := 4095

/-- What stands at a location. The root is a directory in every tree. -/
def lookup? (t : FileTree) (l : Location) : Option Entry :=
  if l.isEmpty then some .directory else (t.entries.find? (·.1 == l)).map (·.2)

def put (t : FileTree) (l : Location) (e : Entry) : FileTree :=
  { t with entries := (l, e) :: t.entries.filter (·.1 != l) }

/-- Follow one name from a location; nothing need stand where it leads. An empty name, as
between two slashes, stays in the directory, and the root is its own parent. -/
def follow (t : FileTree) (l : Location) (name : String) : Except HostError Location :=
  match t.lookup? l with
  | none => .error .notFound
  | some .directory =>
    if name = "" ∨ name = "." then .ok l
    else if name = ".." then .ok l.dropLast
    else if maxName < name.utf8ByteSize then .error .nameTooLong
    else .ok (l ++ [name])
  | some _ => .error .notDirectory

/-- The names of a path, some of which may be empty. -/
def names (path : String) : Except HostError (List String) :=
  if path.toList.contains '\x00' then .error .nulInPath
  else if path.isEmpty then .error .notFound
  else if maxPath < path.utf8ByteSize then .error .nameTooLong
  else .ok (path.splitOn "/")

def start (t : FileTree) (path : String) : Location :=
  if path.startsWith "/" then [] else t.working

/-- The bytes of a file. A path that ends in a slash must lead to a directory, so it gives
none. -/
def read (t : FileTree) (path : String) : Except HostError Bytes := do
  let l ← (← names path).foldlM t.follow (t.start path)
  match t.lookup? l with
  | none => throw .notFound
  | some .directory => throw .isDirectory
  | some (.file bytes) => return bytes
  | some .null => return []

/-- The failure of writing to a path that ends in a slash. Writing makes no directory; still,
the directory in which the last name would be looked up must be there. -/
def refuse (t : FileTree) (path : String) (names : List String) : HostError :=
  match ((names.filter (· != "")).dropLast ++ [""]).foldlM t.follow (t.start path) with
  | .ok _ => .isDirectory
  | .error cause => cause

/-- Replace a file, or add one to a directory that is there. -/
def write (t : FileTree) (path : String) (bytes : Bytes) : Except HostError FileTree := do
  let names ← names path
  if path.endsWith "/" then throw (t.refuse path names)
  let l ← names.foldlM t.follow (t.start path)
  match t.lookup? l with
  | some .directory => throw .isDirectory
  | some .null => return t
  | some (.file _) | none => return t.put l (.file bytes)

/-- Add the directories on the way to a location, as far as they are missing. -/
def makeWay (t : FileTree) (l : Location) : FileTree :=
  (List.range l.length).foldl (fun t n =>
    if (t.lookup? (l.take n)).isNone then t.put (l.take n) .directory else t) t

/-- Add a file at a path below the working directory. -/
def addFile (t : FileTree) (path : String) (bytes : Bytes) : FileTree :=
  let l := t.working ++ (path.splitOn "/").filter fun name => name != "" && name != "."
  (t.makeWay l).put l (.file bytes)

/-- The directories that a root has everywhere. -/
def common : List String :=
  ["bin", "boot", "dev", "etc", "home", "lib", "media", "mnt", "opt", "proc", "root", "run",
    "sbin", "srv", "sys", "tmp", "usr", "var"]

def empty : FileTree where
  entries := ([["tmp", "desk"]] ++ common.map ([·])).map (·, .directory) ++
    [(["dev", "null"], .null)]
  working := ["tmp", "desk"]

theorem lookup?_put_self (t : FileTree) {l : Location} (e : Entry) (h : l ≠ []) :
    (t.put l e).lookup? l = some e := by
  simp [lookup?, put, h]

theorem lookup?_put_of_ne (t : FileTree) {l k : Location} (e : Entry) (h : k ≠ l) :
    (t.put l e).lookup? k = t.lookup? k := by
  have hl : (l == k) = false := by simpa using Ne.symm h
  have keep : ∀ es : List (Location × Entry),
      (es.filter (·.1 != l)).find? (·.1 == k) = es.find? (·.1 == k) := by
    intro es
    rw [List.find?_filter]
    congr 1
    funext p
    by_cases hp : p.1 = k <;> simp [hp, h]
  simp [lookup?, put, hl, keep]

end FileTree

end SecdLisp
