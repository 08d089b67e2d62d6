import FlexAudit.FileTree.Basic

/-! # Changes of a file tree

Directories, links and removal. -/

namespace FlexAudit.FileTree

/-- The path of the first `n` names. -/
def leadingPath (p : Path) (n : Nat) : Path :=
  ⟨(if p.isAbsolute then "/" else "") ++ "/".intercalate (p.names.take n)⟩

/-- Makes a directory where nothing is; what is there already stays. -/
def makeDirectory (t : FileTree) (cwd : Location) (p : Path) : Except OsError FileTree := do
  match ← t.resolve cwd p with
  | .existing _ => return t
  | .absent d name => return t.insert (d ++ [name]) .directory

/-- Makes the directories of the first `n` names of a path, from the top down. -/
def makeDirectories (t : FileTree) (cwd : Location) (p : Path) (n : Nat) : Except OsError FileTree :=
  (List.range n).foldlM (fun t k => t.makeDirectory cwd (leadingPath p (k + 1))) t

/-- The directory and the name of an entry, without a look at the entry itself. -/
def slot (t : FileTree) (cwd : Location) (p : Path) : Except OsError (Location × String) := do
  match p.names.getLast? with
  | none => throw .isDirectory
  | some name =>
    let parent := leadingPath p (p.names.length - 1)
    let directory ← if parent.text = "" then pure cwd else t.locate cwd parent
    if t.isDirectory directory then return (directory, name) else throw .notDirectory

/-- Makes a link where nothing is. -/
def makeLink (t : FileTree) (cwd : Location) (p : Path) (target : String) :
    Except OsError FileTree := do
  let (directory, name) ← t.slot cwd p
  return t.insert (directory ++ [name]) (.link target)

/-- Writes a file and says whether it can be executed. -/
def writeFile (t : FileTree) (cwd : Location) (p : Path) (content : List UInt8) (executable : Bool) :
    Except OsError FileTree := do
  let l ← t.writeTarget cwd p
  return t.insert l (.file content executable)

/-- Removes an entry with all that is below it. -/
def remove (t : FileTree) (cwd : Location) (p : Path) : Except OsError FileTree := do
  let (directory, name) ← t.slot cwd p
  let l := directory ++ [name]
  if (t.lookup l).isSome then
    return { entries := t.entries.filter fun e => !l.isPrefixOf e.1
             nodup := (List.filter_sublist.map Prod.fst).nodup t.nodup }
  else throw .notFound

end FlexAudit.FileTree
