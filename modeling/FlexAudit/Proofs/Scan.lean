import FlexAudit.Host
import FlexAudit.Scan
import FlexAudit.Proofs.Text.Lossy
import FlexAudit.Proofs.Verdict

/-!
# Scanned files

What a scan of saved text reads, and how far its verdict is decided by the bytes of the file alone.
Proved here:

* `Host.scanFile_dumpFile`: a scan of a regular file analyses the decoded bytes of that file;
* `scan_basis_iff`: the basis of the verdict, by the bytes that stand in the file.
-/

namespace FlexAudit

open Text

/-! ## Reading a file -/

theorem FileTree.locate_of_find? {t : FileTree} {cwd : Location} {p : Path} {e : Entry}
    (h : t.find? cwd p = some e) : ∃ l, t.locate cwd p = .ok l ∧ t.lookup l = some e := by
  unfold find? at h
  cases hl : t.locate cwd p with
  | error err => simp [hl] at h
  | ok l => exact ⟨l, rfl, by simpa [hl] using h⟩

theorem FileTree.read_of_find? {t : FileTree} {cwd : Location} {p : Path} {content : List UInt8}
    {executable : Bool} (h : t.find? cwd p = some (.file content executable)) :
    t.read cwd p = .ok content := by
  obtain ⟨l, hlocate, hlookup⟩ := locate_of_find? h
  simp [read, hlocate, hlookup, bind, Except.bind, pure, Except.pure]

theorem Host.readDump_of_find? {h : Host} {p : Path} {content : List UInt8} {executable : Bool}
    (hfile : h.tree.find? h.cwd p = some (.file content executable)) :
    h.readDump p = ⟨.ok (String.ofList (Utf8.decodeLossy content)), []⟩ := by
  have hisFile : h.tree.isFile h.cwd p = true := by simp [FileTree.isFile, hfile]
  simp [readDump, hisFile, FileTree.read_of_find? hfile, lossy]

theorem Host.scanFile_dumpFile {h : Host} {p : Path} {content : List UInt8} {executable : Bool}
    (hfile : h.tree.find? h.cwd p = some (.file content executable)) :
    (h.dumpFile.scanFile p).1 = ⟨p, "dump-file",
      some (Dump.ofText (String.ofList (Utf8.decodeLossy content))).analyze, none⟩ := by
  simp [Backend.scanFile, dumpFile, readDump_of_find? hfile, Dump.analyze]

/-! ## The markers in the bytes -/

/-- The bytes of a text. -/
def bytesOf (text : String) : List UInt8 := text.toUTF8.data.toList

namespace Marker

theorem literal_ne_nil (m : Marker) : m.literal.toList ≠ [] := by
  cases m <;> decide

-- The next two test the list: deciding the statement itself would enumerate all characters.
theorem isPlain_literal (m : Marker) : IsPlain m.literal.toList := by
  have hall : m.literal.toList.all (fun c => !isBreak c) = true := by cases m <;> decide
  intro c hc
  simpa using List.all_eq_true.mp hall c hc

theorem isAscii_of_mem_literal (m : Marker) : ∀ c ∈ m.literal.toList, Utf8.IsAscii c := by
  have hall : m.literal.toList.all (fun c => decide (Utf8.IsAscii c)) = true := by
    cases m <;> decide
  intro c hc
  simpa using List.all_eq_true.mp hall c hc

theorem encode_literal (m : Marker) : Utf8.encode m.literal.toList = bytesOf m.literal := by
  cases m <;> decide

end Marker

/-- A marker is found in the dump of decoded bytes exactly if its bytes are in the bytes. -/
theorem Dump.contains_decoded_iff (m : Marker) (content : List UInt8) :
    (Dump.ofText (String.ofList (Utf8.decodeLossy content))).contains m.literal = true ↔
      bytesOf m.literal <:+: content := by
  rw [Dump.contains_ofText_iff m.literal_ne_nil m.isPlain_literal, String.toList_ofList,
    Utf8.infix_decodeLossy_iff m.literal_ne_nil m.isAscii_of_mem_literal, m.encode_literal]

/-- **The basis of a scan.** Whatever the bytes of a regular file are, text or not, a scan of it as
saved text gives an analysis, and the basis of the verdict is told by the markers in the bytes. -/
theorem scan_basis_iff (h : Host) (p : Path) (content : List UInt8) (executable : Bool)
    (hfile : h.tree.find? h.cwd p = some (.file content executable)) :
    ∃ a, (h.dumpFile.scanFile p).1.analysis = some a ∧ (h.dumpFile.scanFile p).1.error = none ∧
      (a.verdict.basis = .applicationType ↔ ¬ bytesOf "resourceModuleURLs" <:+: content) ∧
      (a.verdict.basis = .bytecode ↔
        bytesOf "resourceModuleURLs" <:+: content ∧ bytesOf "ModuleInfo:::load(" <:+: content) ∧
      (a.verdict.basis = .sdkVersion ↔
        bytesOf "resourceModuleURLs" <:+: content ∧ ¬ bytesOf "ModuleInfo:::load(" <:+: content) := by
  rw [Host.scanFile_dumpFile hfile]
  generalize hd : Dump.ofText (String.ofList (Utf8.decodeLossy content)) = d
  have hflex : d.isFlex = true ↔ bytesOf "resourceModuleURLs" <:+: content := by
    rw [← hd]
    exact Dump.contains_decoded_iff .flexApplication content
  have hload : d.hasModuleLoad = true ↔ bytesOf "ModuleInfo:::load(" <:+: content := by
    rw [← hd]
    exact Dump.contains_decoded_iff .moduleLoad content
  refine ⟨d.analyze, rfl, rfl, ?_⟩
  rw [d.analyze_basis, ← hflex, ← hload]
  cases d.isFlex <;> cases d.hasModuleLoad <;> simp

/-- The marker between a cut sequence and a byte that is no text. -/
theorem scan_basis_iff_ill_formed :
    let content : List UInt8 := [0xE2, 0x82] ++ bytesOf "resourceModuleURLs" ++ [0xFF]
    let h : Host := { tree := { entries := [(["a"], .file content false)], nodup := by simp }
                      cwd := [], run := fun _ _ => .error .notFound }
    h.tree.find? h.cwd ⟨"a"⟩ = some (.file content false) ∧
      ∃ a, (h.dumpFile.scanFile ⟨"a"⟩).1.analysis = some a ∧ a.verdict.basis ≠ .applicationType := by
  intro content h
  have hfile : h.tree.find? h.cwd ⟨"a"⟩ = some (.file content false) := by
    simp [h, FileTree.find?, FileTree.locate, FileTree.resolve, FileTree.follow,
      FileTree.isDirectory, FileTree.lookup, Path.segments, Path.split, Path.isAbsolute,
      bind, Except.bind, pure, Except.pure]
  obtain ⟨a, ha, -, hbasis, -⟩ := scan_basis_iff h ⟨"a"⟩ content false hfile
  refine ⟨hfile, a, ha, fun happ => hbasis.mp happ ?_⟩
  exact List.infix_append [0xE2, 0x82] _ [0xFF]

end FlexAudit
