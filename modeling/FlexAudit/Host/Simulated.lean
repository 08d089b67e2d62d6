import FlexAudit.Host
import FlexAudit.Shell.Run

/-! # Hosts without processes

A host whose programs are the small ones and shell scripts in its own file tree. -/

namespace FlexAudit.Host

/-- The host over a file tree. -/
def simulated (tree : FileTree) (cwd : Location) (disassembler : Option String) (time : String) :
    Host where
  tree := tree
  cwd := cwd
  disassembler := disassembler
  run := fun program args => do
    let effect ← Shell.run ⟨tree, cwd⟩ Shell.maxSteps program args []
    return { status := effect.status, stdout := effect.on .out, stderr := effect.on .err }
  time := time

end FlexAudit.Host
