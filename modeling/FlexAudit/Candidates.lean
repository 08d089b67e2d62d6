import FlexAudit.FileTree.Walk

/-! # Candidates

The files that a list of inputs stands for. A file stands for itself, a directory for the files in
it that have one of the extensions. Every path is made absolute and free of links first. -/

namespace FlexAudit

namespace FileTree

/-- The canonical path of an input; where there is none, the input below the working directory. -/
def canonicalOr (t : FileTree) (cwd : Location) (p : Path) : Path :=
  if p.isCurrent then cwd.path
  else
    match t.locate cwd p with
    | .ok l => l.path
    | .error _ => cwd.path.join p

/-- The regular files with one of the extensions that a walk of a directory meets, in it alone or at
any depth. -/
def candidatesBelow (t : FileTree) (extensions : List String) (recursive : Bool)
    (directory : Location) (root : Path) : List Path :=
  let met := t.walk (if recursive then none else some 1) directory root
  (met.filter fun v => v.entry.isFile && v.path.hasExtension extensions).map Visit.path

/-- The files that an input stands for; fails with the path of an input that does not exist. -/
def candidatesOf (t : FileTree) (cwd : Location) (extensions : List String) (recursive : Bool)
    (input : String) : Except Path (List Path) :=
  let p := t.canonicalOr cwd ⟨input⟩
  if t.isFile cwd p then .ok [p]
  else if !t.isDir cwd p then .error p
  else
    match t.locate cwd p with
    | .error _ => .error p
    | .ok directory => .ok (t.candidatesBelow extensions recursive directory p)

/-- The files of all inputs, in their order; fails at the first input that does not exist. -/
def candidates (t : FileTree) (cwd : Location) (extensions : List String) (recursive : Bool)
    (inputs : List String) : Except Path (List Path) := do
  return (← inputs.mapM (t.candidatesOf cwd extensions recursive)).flatten

end FileTree

end FlexAudit
