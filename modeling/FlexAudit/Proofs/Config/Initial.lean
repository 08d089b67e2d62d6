import FlexAudit.Command
import FlexAudit.Proofs.FileTree.Write
import FlexAudit.Proofs.Json.RoundTrip
import FlexAudit.Proofs.Yaml.RoundTrip

/-!
# The first configuration

The default configuration is written where a path leads, in the format that is asked for or else in
that of the path, and it is read in the format of the path alone. Proved here:

* `Host.initConfig_of_ok`, `Host.initConfig_of_error`: what the command can come to;
* `ScanConfig.parse?_default`: in which formats the default configuration is read back;
* `initial_config_loads`: where the written configuration can be loaded, and how loading fails
  elsewhere (`initial_config_unloadable`);
* `initial_config_safe`: what is written, what is left alone, and what a second run does.
-/

namespace FlexAudit

namespace Host

/-! ## The command -/

/-- The bytes of the default configuration. -/
def defaultBytes (f : ConfigFormat) : List UInt8 :=
  Utf8.encode (({} : ScanConfig).render f).toList

/-- The default configuration has been written at a location, which makes a tree. -/
structure Initializes (h : Host) (path : Option Path) (format : Option String) (force : Bool)
    (f : ConfigFormat) (l : Location) (t : FileTree) : Prop where
  chosen : configFormat path format = .ok f
  allowed : h.tree.pathExists h.cwd (path.getD (defaultConfigPath f)) = true → force = true
  wrote : h.tree.Wrote h.cwd (path.getD (defaultConfigPath f)) (defaultBytes f) l t

variable {h : Host} {path : Option Path} {format : Option String} {force : Bool}
  {f : ConfigFormat} {p : Path} {e : CommandError} {l : Location} {t : FileTree}

theorem writeConfig_of_format (hformat : configFormat path format = .ok f) :
    h.writeConfig path format force =
      if h.tree.pathExists h.cwd (path.getD (defaultConfigPath f)) && !force then
        .error (.configExists (path.getD (defaultConfigPath f)))
      else
        match h.tree.write h.cwd (path.getD (defaultConfigPath f)) (defaultBytes f) with
        | .error e => .error (.unwritable (path.getD (defaultConfigPath f)) e)
        | .ok t => .ok (path.getD (defaultConfigPath f), t) := by
  rw [writeConfig, hformat]
  rfl

theorem writeConfig_eq_ok (hok : h.writeConfig path format force = .ok (p, t)) :
    ∃ f l, h.Initializes path format force f l t ∧ p = path.getD (defaultConfigPath f) := by
  cases hformat : configFormat path format with
  | error e =>
    rw [writeConfig, hformat] at hok
    cases hok
  | ok f =>
    rw [writeConfig_of_format hformat] at hok
    split at hok
    · cases hok
    · next hallowed =>
      split at hok
      · cases hok
      · next hwrite =>
        cases hok
        obtain ⟨l, hwrote⟩ := FileTree.write_wrote hwrite
        refine ⟨f, l, ⟨hformat, ?_, hwrote⟩, rfl⟩
        intro hexists
        simpa [hexists] using hallowed

theorem initConfig_of_ok (hok : (h.initConfig path format force).1.result = .ok p) :
    ∃ f l, h.Initializes path format force f l (h.initConfig path format force).2 ∧
      p = path.getD (defaultConfigPath f) := by
  unfold initConfig at hok ⊢
  cases hwrite : h.writeConfig path format force with
  | error e =>
    rw [hwrite] at hok
    cases hok
  | ok written =>
    rw [hwrite] at hok
    cases hok
    exact writeConfig_eq_ok hwrite

theorem initConfig_of_error (herror : (h.initConfig path format force).1.result = .error e) :
    h.initConfig path format force = (.fail e, h.tree) := by
  unfold initConfig at herror ⊢
  cases hwrite : h.writeConfig path format force with
  | error e' =>
    rw [hwrite] at herror
    cases herror
    rfl
  | ok written =>
    rw [hwrite] at herror
    cases herror

/-- Where nothing is, the configuration is written. -/
theorem initConfig_of_absent {d : Location} {name : String}
    (hchosen : configFormat path format = .ok f)
    (habsent : ∀ toWrite, h.tree.resolve h.cwd (path.getD (defaultConfigPath f)) toWrite =
      .ok (.absent d name)) :
    (h.initConfig path format force).1.result = .ok (path.getD (defaultConfigPath f)) := by
  obtain ⟨t, hwrite⟩ := FileTree.write_of_absent (habsent true) (defaultBytes f)
  rw [initConfig, writeConfig_of_format hchosen, FileTree.pathExists_of_absent (habsent false),
    hwrite]
  rfl

/-! ## A second run -/

theorem Initializes.pathExists (hdone : h.Initializes path format force f l t) :
    t.pathExists h.cwd (path.getD (defaultConfigPath f)) = true := by
  obtain ⟨executable, hheld⟩ := hdone.wrote.held
  simp [FileTree.pathExists, FileTree.find?, hdone.wrote.located, hheld]

theorem Initializes.refuses (hdone : h.Initializes path format force f l t) :
    { h with tree := t }.initConfig path format false =
      (.fail (.configExists (path.getD (defaultConfigPath f))), t) := by
  rw [initConfig, writeConfig_of_format hdone.chosen]
  simp [hdone.pathExists]

theorem Initializes.repeats (hdone : h.Initializes path format force f l t) :
    ({ h with tree := t }.initConfig path format true).1.result =
        .ok (path.getD (defaultConfigPath f)) ∧
      ({ h with tree := t }.initConfig path format true).2 = t := by
  rw [initConfig, writeConfig_of_format hdone.chosen]
  simp [hdone.wrote.again]

/-- What can be relied on when the default configuration is written. -/
structure InitSafe (h : Host) (path : Option Path) (format : Option String) (force : Bool) : Prop where
  /-- A command that fails leaves every file alone. -/
  unchanged : ∀ e, (h.initConfig path format force).1.result = .error e →
    (h.initConfig path format force).2 = h.tree
  /-- One that succeeds puts the configuration where its path leads, and changes nothing else. -/
  written : ∀ p, (h.initConfig path format force).1.result = .ok p →
    ∃ f l executable, configFormat path format = .ok f ∧ p = path.getD (defaultConfigPath f) ∧
      (h.initConfig path format force).2.locate h.cwd p = .ok l ∧
      (h.initConfig path format force).2.lookup l =
        some (.file (Utf8.encode (({} : ScanConfig).render f).toList) executable) ∧
      ∀ m, m ≠ l → (h.initConfig path format force).2.lookup m = h.tree.lookup m
  /-- Without force, whatever is there stays. -/
  kept : force = false → ∀ m e, h.tree.lookup m = some e →
    (h.initConfig path format force).2.lookup m = some e
  /-- Asked again without force, it fails and changes nothing. -/
  refused : ∀ p, (h.initConfig path format force).1.result = .ok p →
    ∃ e, ({ h with tree := (h.initConfig path format force).2 }.initConfig path format
        false).1.result = .error e ∧
      ({ h with tree := (h.initConfig path format force).2 }.initConfig path format false).2 =
        (h.initConfig path format force).2
  /-- Asked again with force, it succeeds and changes nothing either. -/
  repeated : ∀ p, (h.initConfig path format force).1.result = .ok p →
    ({ h with tree := (h.initConfig path format force).2 }.initConfig path format
        true).1.result = .ok p ∧
      ({ h with tree := (h.initConfig path format force).2 }.initConfig path format true).2 =
        (h.initConfig path format force).2

theorem Initializes.kept (hdone : h.Initializes path format false f l t) {m : Location}
    {entry : FileTree.Entry} (hentry : h.tree.lookup m = some entry) :
    t.lookup m = some entry := by
  have hfree : h.tree.pathExists h.cwd (path.getD (defaultConfigPath f)) = false := by
    by_contra hexists
    exact Bool.false_ne_true (hdone.allowed (by simpa using hexists))
  have hne : m ≠ l := by
    rintro rfl
    rw [hdone.wrote.fresh hfree] at hentry
    cases hentry
  rw [hdone.wrote.kept m hne, hentry]

end Host

/-- **The default configuration is written safely**, in every file tree and for all arguments. -/
theorem initial_config_safe (h : Host) (path : Option Path) (format : Option String)
    (force : Bool) : h.InitSafe path format force := by
  refine ⟨?_, ?_, ?_, ?_, ?_⟩
  · intro e he
    rw [Host.initConfig_of_error he]
  · intro p hp
    obtain ⟨f, l, hdone, rfl⟩ := Host.initConfig_of_ok hp
    obtain ⟨executable, hheld⟩ := hdone.wrote.held
    exact ⟨f, l, executable, hdone.chosen, rfl, hdone.wrote.located, hheld, hdone.wrote.kept⟩
  · rintro rfl m e hentry
    cases hresult : (h.initConfig path format false).1.result with
    | error e' => rw [Host.initConfig_of_error hresult, hentry]
    | ok p =>
      obtain ⟨f, l, hdone, -⟩ := Host.initConfig_of_ok hresult
      exact hdone.kept hentry
  · intro p hp
    obtain ⟨f, l, hdone, -⟩ := Host.initConfig_of_ok hp
    rw [hdone.refuses]
    exact ⟨_, rfl, rfl⟩
  · intro p hp
    obtain ⟨f, l, hdone, rfl⟩ := Host.initConfig_of_ok hp
    exact hdone.repeats

/-- A link to a missing name: the name appears, the link and the files beside it stay. -/
theorem initial_config_safe_dangling :
    let t : FileTree := {
      entries := [(["audit.json"], .link "target"), (["notes"], .file [1] true)]
      nodup := by simp }
    let h : Host := { tree := t, cwd := [], run := fun _ _ => .error .notFound }
    let done := h.initConfig (some ⟨"audit.json"⟩) none false
    done.1.result = .ok ⟨"audit.json"⟩ ∧ done.2.lookup ["notes"] = some (.file [1] true) ∧
      done.2.lookup ["audit.json"] = some (.link "target") ∧
      ({ h with tree := done.2 }.initConfig (some ⟨"audit.json"⟩) none true).2 = done.2 := by
  intro t h done
  have hlink : t.lookup ["audit.json"] = some (.link "target") := rfl
  have hresult : done.1.result = .ok ⟨"audit.json"⟩ :=
    Host.initConfig_of_absent (f := .json) (by decide) fun toWrite =>
      FileTree.resolve_dangling rfl (by decide) hlink (by decide) rfl
  obtain ⟨-, -, hkept, -, hrepeated⟩ := initial_config_safe h (some ⟨"audit.json"⟩) none false
  exact ⟨hresult, hkept rfl _ _ rfl, hkept rfl _ _ hlink, (hrepeated _ hresult).2⟩

/-! ## Loading what was written -/

namespace ScanConfig

theorem parse?_json_render_yaml (c : ScanConfig) : parse? .json (c.render .yaml) = none := by
  obtain ⟨rest, hrest⟩ : ∃ rest, c.toYaml = 'd' :: rest := ⟨_, rfl⟩
  have hnone : Json.parseChars? ('d' :: rest) = none := rfl
  rw [render, parse?, Json.parse?, String.toList_ofList, hrest, hnone]
  rfl

/-- JSON of which every text is plain is YAML with the same values. -/
theorem parse?_yaml_render_json : parse? .yaml (({} : ScanConfig).render .json) = some {} := by
  have hparse : (Yaml.Document.parse? (({} : ScanConfig).toJson.prettyChars 0)).bind ofYaml? =
      some {} := by decide +kernel
  rw [render, parse?, Json.pretty, String.toList_ofList, hparse]

theorem parse?_default (written read : ConfigFormat) :
    parse? read (({} : ScanConfig).render written) =
      if written = .yaml ∧ read = .json then none else some {} := by
  cases written with
  | json =>
    cases read with
    | json => exact (Json.RoundTrips.of_inverts ScanConfig.inverts).reads_back .pretty {}
    | yaml => exact parse?_yaml_render_json
  | yaml =>
    cases read with
    | json => exact parse?_json_render_yaml {}
    | yaml => exact parse?_render_yaml {}

end ScanConfig

theorem Host.Initializes.holds {h : Host} {path : Option Path} {format : Option String}
    {force : Bool} {f : ConfigFormat} {l : Location} {t : FileTree}
    (hdone : h.Initializes path format force f l t) :
    t.Holds h.cwd (path.getD (defaultConfigPath f)) (({} : ScanConfig).render f) := by
  obtain ⟨executable, hheld⟩ := hdone.wrote.held
  refine ⟨executable, ?_⟩
  rw [FileTree.find?, hdone.wrote.located]
  exact hheld

theorem ScanConfig.load_default {t : FileTree} {cwd : Location} {p : Path} {written : ConfigFormat}
    (hholds : t.Holds cwd p (({} : ScanConfig).render written)) :
    load t cwd p =
      match ConfigFormat.ofPath? p with
      | none => .error (.unsupportedFormat p)
      | some read =>
        if written = .yaml ∧ read = .json then .error (.malformed p read) else .ok {} := by
  unfold load
  cases ConfigFormat.ofPath? p with
  | none => rfl
  | some read =>
    simp only [hholds.readText, parse?_default]
    by_cases hmixed : written = .yaml ∧ read = .json
    · simp [hmixed]
    · simp [hmixed]

theorem ConfigFormat.ofPath?_default (f : ConfigFormat) :
    ofPath? (Host.defaultConfigPath f) = some f := by
  cases f <;> decide

/-- Without a format, the file is written in the one in which it is read, if there is one. -/
theorem Host.configFormat_eq_of_ofPath? {path : Option Path} {f read : ConfigFormat}
    (hchosen : configFormat path none = .ok f)
    (hread : ConfigFormat.ofPath? (path.getD (defaultConfigPath f)) = some read) : read = f := by
  cases path with
  | none =>
    rw [Option.getD_none, ConfigFormat.ofPath?_default] at hread
    exact (Option.some.inj hread).symm
  | some p =>
    rw [Option.getD_some] at hread
    simp only [configFormat, Option.bind_some, hread, Option.getD_some] at hchosen
    exact Except.ok.inj hchosen

/-- **The written configuration can be loaded** exactly if its file, which holds the text in the
chosen format, is read in that format or as YAML. Else the format of the file is not known, or it is
JSON and YAML was asked for. Where no path was given, or no format and a path whose format is known,
it can always be loaded. -/
theorem initial_config_loads (h : Host) (path : Option Path) (format : Option String) (force : Bool)
    (p : Path) (hp : (h.initConfig path format force).1.result = .ok p) :
    ∃ f, Host.configFormat path format = .ok f ∧
      (h.initConfig path format force).2.Holds h.cwd p (({} : ScanConfig).render f) ∧
      (ScanConfig.load (h.initConfig path format force).2 h.cwd p = .ok {} ↔
        ConfigFormat.ofPath? p = some f ∨ ConfigFormat.ofPath? p = some .yaml) ∧
      (ConfigFormat.ofPath? p = none →
        ScanConfig.load (h.initConfig path format force).2 h.cwd p =
          .error (.unsupportedFormat p)) ∧
      (ConfigFormat.ofPath? p = some .json → f = .yaml →
        ScanConfig.load (h.initConfig path format force).2 h.cwd p = .error (.malformed p .json)) ∧
      (path = none → ScanConfig.load (h.initConfig path format force).2 h.cwd p = .ok {}) ∧
      (format = none → ConfigFormat.ofPath? p ≠ none →
        ScanConfig.load (h.initConfig path format force).2 h.cwd p = .ok {}) := by
  obtain ⟨f, l, hdone, rfl⟩ := Host.initConfig_of_ok hp
  have hload := ScanConfig.load_default hdone.holds
  have hsame (hread : ConfigFormat.ofPath? (path.getD (Host.defaultConfigPath f)) = some f) :
      ScanConfig.load (h.initConfig path format force).2 h.cwd
        (path.getD (Host.defaultConfigPath f)) = .ok {} := by
    rw [hload, hread]
    exact if_neg fun hmixed => ConfigFormat.noConfusion (hmixed.1.symm.trans hmixed.2)
  refine ⟨f, hdone.chosen, hdone.holds, ?_, ?_, ?_, ?_, ?_⟩
  · rw [hload]
    cases hread : ConfigFormat.ofPath? (path.getD (Host.defaultConfigPath f)) with
    | none => simp
    | some read => cases f <;> cases read <;> simp
  · intro hnone
    rw [hload, hnone]
  · rintro hjson rfl
    rw [hload, hjson]
    rfl
  · rintro rfl
    exact hsame (ConfigFormat.ofPath?_default f)
  · rintro rfl hsome
    obtain ⟨read, hread⟩ := Option.ne_none_iff_exists'.mp hsome
    have hsameFormat := Host.configFormat_eq_of_ofPath? hdone.chosen hread
    exact hsame (by rw [hread, hsameFormat])

/-- JSON behind a link that is called like YAML. -/
theorem initial_config_loads_linked :
    let h : Host := {
      tree := { entries := [(["audit.yml"], .link "target.txt")], nodup := by simp }
      cwd := [], run := fun _ _ => .error .notFound }
    let done := h.initConfig (some ⟨"audit.yml"⟩) (some "JSON") false
    done.1.result = .ok ⟨"audit.yml"⟩ ∧
      done.2.Holds h.cwd ⟨"audit.yml"⟩ (({} : ScanConfig).render .json) ∧
      ScanConfig.load done.2 h.cwd ⟨"audit.yml"⟩ = .ok {} := by
  intro h done
  have hlink : h.tree.lookup ["audit.yml"] = some (.link "target.txt") := rfl
  have hresult : done.1.result = .ok ⟨"audit.yml"⟩ :=
    Host.initConfig_of_absent (f := .json) (by decide) fun toWrite =>
      FileTree.resolve_dangling rfl (by decide) hlink (by decide) rfl
  have hjson : Host.configFormat (some ⟨"audit.yml"⟩) (some "JSON") = .ok .json := by decide
  obtain ⟨f, hchosen, hholds, hloads, -⟩ := initial_config_loads h _ _ _ _ hresult
  obtain rfl : .json = f := Except.ok.inj (hjson.symm.trans hchosen)
  exact ⟨hresult, hholds, hloads.mpr (.inr (by decide))⟩

/-- Two configurations that are written and cannot be loaded: one in a file of no known format, and
YAML in a file that is read as JSON. -/
theorem initial_config_unloadable :
    let h : Host := { tree := {}, cwd := [], run := fun _ _ => .error .notFound }
    let unknown := h.initConfig (some ⟨"audit.conf"⟩) none false
    let mixed := h.initConfig (some ⟨"audit.json"⟩) (some "yaml") false
    (unknown.1.result = .ok ⟨"audit.conf"⟩ ∧
      ScanConfig.load unknown.2 h.cwd ⟨"audit.conf"⟩ = .error (.unsupportedFormat ⟨"audit.conf"⟩)) ∧
    (mixed.1.result = .ok ⟨"audit.json"⟩ ∧
      ScanConfig.load mixed.2 h.cwd ⟨"audit.json"⟩ = .error (.malformed ⟨"audit.json"⟩ .json)) := by
  intro h unknown mixed
  have hunknown : unknown.1.result = .ok ⟨"audit.conf"⟩ :=
    Host.initConfig_of_absent (f := .json) (by decide) fun toWrite =>
      FileTree.resolve_missing (t := h.tree) rfl (by decide) rfl
  have hmixed : mixed.1.result = .ok ⟨"audit.json"⟩ :=
    Host.initConfig_of_absent (f := .yaml) (by decide) fun toWrite =>
      FileTree.resolve_missing (t := h.tree) rfl (by decide) rfl
  refine ⟨⟨hunknown, ?_⟩, hmixed, ?_⟩
  · obtain ⟨f, l, hdone, -⟩ := Host.initConfig_of_ok hunknown
    have hnone : ConfigFormat.ofPath? ⟨"audit.conf"⟩ = none := by decide
    exact (ScanConfig.load_default hdone.holds).trans (by rw [Option.getD_some, hnone])
  · obtain ⟨f, l, hdone, -⟩ := Host.initConfig_of_ok hmixed
    have hjson : ConfigFormat.ofPath? ⟨"audit.json"⟩ = some .json := by decide
    have hyaml : Host.configFormat (some ⟨"audit.json"⟩) (some "yaml") = .ok .yaml := by decide
    obtain rfl : .yaml = f := Except.ok.inj (hyaml.symm.trans hdone.chosen)
    exact (ScanConfig.load_default hdone.holds).trans (by rw [Option.getD_some, hjson]; rfl)

end FlexAudit
