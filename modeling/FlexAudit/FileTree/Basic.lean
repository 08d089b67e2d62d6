import FlexAudit.Path

/-! # File trees

A file system as a value: entries at locations, a location being the list of names from the root.
An entry is a regular file, a directory or a symbolic link. No location has two entries, and the
root is a directory without an entry. -/

namespace FlexAudit

/-- Names from the root down. -/
abbrev Location := List String

/-- The absolute path of a location. -/
def Location.path (l : Location) : Path :=
  ⟨"/" ++ "/".intercalate l⟩

/-- Why the system refuses an operation on a file. -/
inductive OsError where
  | notFound
  | permissionDenied
  | notDirectory
  | isDirectory
  | tooManyLinks
  /-- A file that cannot be executed. -/
  | badExecutable
  /-- Content that is no text. -/
  | invalidText
  /-- Nothing left to start another thread with. -/
  | exhausted
  deriving DecidableEq, Repr

def OsError.message : OsError → String
  | notFound => "No such file or directory (os error 2)"
  | permissionDenied => "Permission denied (os error 13)"
  | notDirectory => "Not a directory (os error 20)"
  | isDirectory => "Is a directory (os error 21)"
  | tooManyLinks => "Too many levels of symbolic links (os error 40)"
  | badExecutable => "Exec format error (os error 8)"
  | invalidText => "stream did not contain valid UTF-8"
  | exhausted => "Resource temporarily unavailable (os error 11)"

namespace FileTree

inductive Entry where
  | file (content : List UInt8) (executable : Bool)
  | directory
  | link (target : String)
  deriving DecidableEq

end FileTree

structure FileTree where
  entries : List (Location × FileTree.Entry) := []
  /-- No location has two entries. -/
  nodup : (entries.map Prod.fst).Nodup := by decide

namespace FileTree

def lookup (t : FileTree) (l : Location) : Option Entry :=
  if l = [] then some .directory
  else (t.entries.find? fun e => e.1 == l).map Prod.snd

/-- The tree with an entry put at a location in place of what was there. -/
def insert (t : FileTree) (l : Location) (e : Entry) : FileTree where
  entries := t.entries.filter (fun x => x.1 ≠ l) ++ [(l, e)]
  nodup := by
    rw [List.map_append, List.nodup_append]
    refine ⟨?_, by simp, ?_⟩
    · exact (List.filter_sublist.map Prod.fst).nodup t.nodup
    · intro a ha b hb
      simp only [List.map_cons, List.map_nil, List.mem_singleton] at hb
      obtain ⟨x, hx, rfl⟩ := List.mem_map.1 ha
      simpa [hb] using (List.mem_filter.1 hx).2

def isDirectory (t : FileTree) (l : Location) : Bool :=
  t.lookup l == some .directory

/-! ## Resolution of paths -/

/-- Where a path leads. -/
inductive Resolved where
  | existing (l : Location)
  /-- The last name is missing in a directory that exists. -/
  | absent (directory : Location) (name : String)
  deriving DecidableEq

/-- Whether slashes and nothing else stand behind a part of a path. -/
def onlySlashes (rest : List String) : Bool :=
  !rest.isEmpty && rest.all (· == "")

/-- Follows the parts of a path from a location. Every part needs a directory to stand in. A link
is replaced by the parts of its target; at most `links` links are followed. A file that is to be
written has no slash behind its name. -/
def follow (t : FileTree) (toWrite : Bool) (links : Nat) (l : Location) :
    List String → Except OsError Resolved
  | [] => .ok (.existing l)
  | part :: rest =>
    if !t.isDirectory l then .error .notDirectory
    else if part = "" ∨ part = "." then t.follow toWrite links l rest
    else if part = ".." then t.follow toWrite links l.dropLast rest
    else if toWrite && onlySlashes rest then .error .isDirectory
    else
      match t.lookup (l ++ [part]) with
      | none => if rest = [] then .ok (.absent l part) else .error .notFound
      | some (.link target) =>
        match links with
        | 0 => .error .tooManyLinks
        | n + 1 =>
          let path : Path := ⟨target⟩
          t.follow toWrite n (if path.isAbsolute then [] else l) (path.segments ++ rest)
      | some _ => t.follow toWrite links (l ++ [part]) rest
termination_by parts => (links, parts.length)

/-- The number of links that one resolution follows. -/
def maxLinks : Nat := 40

/-- Where a path leads from a working directory. -/
def resolve (t : FileTree) (cwd : Location) (p : Path) (toWrite : Bool := false) :
    Except OsError Resolved :=
  if p.text = "" then .error .notFound
  else t.follow toWrite maxLinks (if p.isAbsolute then [] else cwd) p.segments

/-- The location of something that exists. -/
def locate (t : FileTree) (cwd : Location) (p : Path) : Except OsError Location := do
  match ← t.resolve cwd p with
  | .existing l => return l
  | .absent _ _ => throw .notFound

def find? (t : FileTree) (cwd : Location) (p : Path) : Option Entry :=
  match t.locate cwd p with
  | .ok l => t.lookup l
  | .error _ => none

def isFile (t : FileTree) (cwd : Location) (p : Path) : Bool :=
  match t.find? cwd p with
  | some (.file _ _) => true
  | _ => false

def isDir (t : FileTree) (cwd : Location) (p : Path) : Bool :=
  t.find? cwd p == some .directory

def pathExists (t : FileTree) (cwd : Location) (p : Path) : Bool :=
  (t.find? cwd p).isSome

/-! ## Reading and writing -/

/-- The content of a file. -/
def read (t : FileTree) (cwd : Location) (p : Path) : Except OsError (List UInt8) := do
  match t.lookup (← t.locate cwd p) with
  | some (.file content _) => return content
  | some .directory => throw .isDirectory
  | _ => throw .notFound

/-- Where a file is written: the file that the path leads to, or the missing name in its
directory. -/
def writeTarget (t : FileTree) (cwd : Location) (p : Path) : Except OsError Location := do
  match ← t.resolve cwd p true with
  | .absent d name => return d ++ [name]
  | .existing l => if t.isDirectory l then throw .isDirectory else return l

/-- Writes a file, which keeps its permission if it is there already. -/
def write (t : FileTree) (cwd : Location) (p : Path) (content : List UInt8) :
    Except OsError FileTree := do
  let l ← t.writeTarget cwd p
  match t.lookup l with
  | some (.file _ executable) => return t.insert l (.file content executable)
  | _ => return t.insert l (.file content false)

end FileTree

end FlexAudit
