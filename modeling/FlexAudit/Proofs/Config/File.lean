import FlexAudit.Config.File
import FlexAudit.Proofs.Path
import FlexAudit.Proofs.Scan
import FlexAudit.Proofs.Text.Encoding

/-!
# Loading a configuration from a file

A file holds bytes, and its text comes back from their encoding. Proved here:

* `FileTree.Holds.readText`: a file that holds a text is read as this text;
* `FileTree.holds_ofFile`: the path of a file leads to it;
* `ScanConfig.load_of_holds`: the configuration of a file is what its text stands for.
-/

namespace FlexAudit

/-- A path leads to a file whose bytes encode a text. -/
def FileTree.Holds (t : FileTree) (cwd : Location) (p : Path) (text : String) : Prop :=
  ∃ executable, t.find? cwd p = some (.file (Utf8.encode text.toList) executable)

theorem FileTree.Holds.readText {t : FileTree} {cwd : Location} {p : Path} {text : String}
    (h : t.Holds cwd p text) : t.readText cwd p = .ok text := by
  obtain ⟨executable, hfile⟩ := h
  rw [FileTree.readText, read_of_find? hfile]
  simp [bind, Except.bind, Utf8.decode?_encode, pure, Except.pure]

/-- A tree whose root directory has one file. -/
def FileTree.ofFile (name text : String) : FileTree where
  entries := [([name], .file (Utf8.encode text.toList) false)]
  nodup := by simp

theorem FileTree.holds_ofFile {name : String} (hname : IsName name) (text : String) :
    (ofFile name text).Holds [] (Location.path [name]) text := by
  refine ⟨false, ?_⟩
  have htext := Location.text_path_ne [name]
  have hsegments : (Location.path [name]).segments = ["", name] :=
    Location.segments_path (by simp) (by simpa using hname)
  have hroot : (ofFile name text).isDirectory [] = true := rfl
  have hlookup : (ofFile name text).lookup [name] =
      some (.file (Utf8.encode text.toList) false) := by simp [lookup, ofFile]
  obtain ⟨hempty, hdot, hdots, -⟩ := hname
  simp [find?, locate, resolve, htext, hsegments, follow, hroot, hempty, hdot, hdots, hlookup, bind,
    Except.bind, pure, Except.pure]

theorem ConfigFormat.ofPath?_of_extension {p : Path} {extension : String}
    (h : p.extension? = some extension) : ofPath? p = ofName? extension := by
  rw [ofPath?, h]
  rfl

theorem ScanConfig.load_of_holds {t : FileTree} {cwd : Location} {p : Path} {format : ConfigFormat}
    {text : String} {c : ScanConfig} (hformat : ConfigFormat.ofPath? p = some format)
    (hfile : t.Holds cwd p text) (hparse : parse? format text = some c) :
    load t cwd p = .ok c := by
  simp [load, hformat, hfile.readText, hparse]

end FlexAudit
