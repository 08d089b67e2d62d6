import FlexAudit.Cli.Run
import FlexAudit.Host.Simulated
import FlexAudit.Time
import Std.Time.DateTime.Timestamp

/-! # The command line

Takes the files that the arguments speak of into a file tree, runs the program on it, prints, and
writes back the files that have changed. No process is started: a disassembler is one of the small
programs or a script, which the host runs itself. -/

namespace FlexAudit.Main

/-- A tree with the directories above a location. -/
def withParents (t : FileTree) (l : Location) : FileTree :=
  (List.range l.length).foldl (fun t n => if n = 0 then t else t.insert (l.take n) .directory) t

/-- Takes a file, or a directory with all that it holds, into a tree. -/
partial def take (t : FileTree) (path : String) : IO FileTree := do
  let real ← IO.FS.realPath path
  let l := (Path.mk real.toString).names
  if ← real.isDir then
    let mut t := (withParents t l).insert l .directory
    for e in ← real.readDir do
      match (← e.path.symlinkMetadata).type with
      | .symlink =>
        if ← e.path.pathExists then
          let target ← IO.FS.realPath e.path
          t := t.insert (l ++ [e.fileName]) (.link target.toString)
      | .other => pure ()
      | _ => t ← take t e.path.toString
    return t
  else
    let content := (← IO.FS.readBinFile real).toList
    return (withParents t l).insert l (.file content ([35, 33].isPrefixOf content))

/-- Takes what an argument may name: itself, or the value behind its equals sign. -/
def takeArgument (t : FileTree) (argument : String) : IO FileTree := do
  let mut t := t
  for name in [argument, String.ofList ((argument.toList.dropWhile (· != '=')).drop 1)] do
    if name ≠ "" then
      t ← try take t name catch _ => pure t
  return t

/-- Writes the files that differ from those of the tree before. -/
def writeBack (before after : FileTree) : IO Unit := do
  for (l, e) in after.entries do
    if before.lookup l ≠ some e then
      match e with
      | .file content _ => IO.FS.writeBinFile l.path.text ⟨content.toArray⟩
      | _ => pure ()

/-- Runs the program on the files of this system. -/
def run (args : List String) : IO UInt32 := do
  let here ← IO.FS.realPath "."
  let cwd := (Path.mk here.toString).names
  let start := (withParents {} cwd).insert cwd .directory
  let tree ← (args ++ ["parrotng.json", "parrotng.yaml"]).foldlM takeArgument start
  let now ← Std.Time.Timestamp.now
  let host := Host.simulated tree cwd (← IO.getEnv "PARROTNG_SWFDUMP")
    (Time.render now.toSecondsSinceUnixEpoch.val.toNat)
  let done := Cli.run host (← IO.getEnv "RUST_LOG") args
  writeBack tree done.tree
  IO.print done.stdout
  IO.eprint done.stderr
  return done.exit.toUInt32

end FlexAudit.Main

def main (args : List String) : IO UInt32 :=
  FlexAudit.Main.run args
