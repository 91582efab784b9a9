/-
Settings and tasks are read back as they were written.

Each reader is the inverse of a writer, and the readers of lists, options and records are inverses as
soon as those of their parts are.  Settings differ from other records in that any of their fields may
be missing: a field that is given is read back and one that is missing keeps its standard value,
whatever the order of the fields.

Main definitions:

* `Inverts` — a reader gives back what a writer was given;
* `Config.keeping` — settings of which only some fields are kept.

Main results:

* `Inverts.items`, `Inverts.optional` — lists and options;
* `spans_read_back` — spans of time, given or missing, and that no two are written alike;
* `Fields.withDefault_kept` — one field of settings, given or missing;
* `Module.inverts`, `Launcher.inverts`, `CompilerCommand.inverts`, `RetryPolicy.inverts`,
  `Task.inverts` — the parts of settings, and tasks;
* `settings_round_trip` — **any part of written settings is read back as that part of them, a field
  that is unknown is refused, and tasks are read back as they were written**.
-/
import Rebuild.Config.Decode
import Rebuild.Config.Encode
import Rebuild.Proofs.Duration
import Rebuild.Proofs.Keyed

set_option relaxedAutoImplicit false
set_option autoImplicit false

namespace Rebuild

open Read

variable {α : Type} {read : Read α} {write : α → Value} {format : Format}

/-! ### Readers and writers -/

/-- The reader gives back what the writer was given. -/
def Inverts (read : Read α) (write : α → Value) : Prop := ∀ a, read (write a) = .ok a

theorem inverts_text : Inverts text .str := fun _ => rfl

theorem inverts_path : Inverts path .path := fun _ => rfl

theorem inverts_count32 : Inverts count32 fun n => .nat n.1 := by
  rintro ⟨n, hn⟩
  have hfits : 0 ≤ (n : Int) ∧ (n : Int).toNat < 4294967296 := ⟨Int.natCast_nonneg n, hn⟩
  exact dif_pos hfits

theorem inverts_span : Inverts span fun d => .str d.render := by
  intro d
  simp only [span, text, except_ok_bind, Duration.parse_render]

theorem each_map (h : Inverts read write) (l : List α) : each read (l.map write) = .ok l := by
  induction l with
  | nil => rfl
  | cons a l ih => simp only [List.map_cons, each, h a, ih, except_ok_bind]

theorem Inverts.items (h : Inverts read write) : Inverts (items read) fun l => .list (l.map write) :=
  each_map h

theorem items_paths (ps : List Path) : items path (.paths ps) = .ok ps := inverts_path.items ps

theorem items_strs (xs : List String) : items text (.strs xs) = .ok xs := inverts_text.items xs

/-- An option is read back if nothing that is set looks as if it was not. -/
theorem Inverts.optional (h : Inverts read write) (hnull : ∀ a, write a ≠ .null) :
    Inverts (optional read) (.option write) := by
  intro o
  cases o with
  | none => rfl
  | some a =>
      have hread : Read.optional read (write a) = (read (write a)).map some := by
        cases hwrite : write a with
        | null => exact absurd hwrite (hnull a)
        | _ => rfl
      rw [Value.option, hread, h a]
      rfl

/-- What is read back is written differently from all else. -/
theorem Inverts.injective (h : Inverts read write) : Function.Injective write := by
  intro a b hab
  have hread := h a
  rw [hab, h b] at hread
  exact (Except.ok.inj hread).symm

/-! ### Spans of time -/

/-- **Spans of time are read back as they were written**, up to the longest one, and so are those that
may be missing, which are written as nothing exactly if they are.  So no two spans are written alike, and
whatever text a span was read from, its written form is read as the same span. -/
theorem spans_read_back :
    (∀ d : Duration, span (.str d.render) = .ok d) ∧
    (∀ o : Option Duration, optional span (.option (fun d => .str d.render) o) = .ok o) ∧
    (∀ o : Option Duration, Value.option (fun d => .str d.render) o = .null ↔ o = none) ∧
    (∀ d d' : Duration, d.render = d'.render → d = d') ∧
    (∀ o o' : Option Duration, Value.option (fun d => .str d.render) o =
      .option (fun d => .str d.render) o' → o = o') ∧
    (∀ (text : String) (d : Duration), span (.str text) = .ok d → span (.str d.render) = .ok d) ∧
    ∀ (v : Value) (o : Option Duration), optional span v = .ok o →
      optional span (.option (fun d => .str d.render) o) = .ok o := by
  have hoption := inverts_span.optional fun _ => nofun
  refine ⟨inverts_span, hoption, fun o => ?_, fun d d' heq => ?_, fun _ _ heq => hoption.injective heq,
    fun _ d _ => inverts_span d, fun _ o _ => hoption o⟩
  · cases o with
    | none => exact ⟨fun _ => rfl, fun _ => rfl⟩
    | some d => exact ⟨nofun, nofun⟩
  · exact inverts_span.injective (congrArg Value.str heq)

/-- A span in parts, out of order and with blanks in between; one with a fraction; and none. -/
theorem loose_spans_read_back :
    span (.str "500ms  1m30 s") = .ok (.ofMillis 90500) ∧
    span (.str (Duration.ofMillis 90500).render) = .ok (.ofMillis 90500) ∧
    optional span (.str "1.5m 500ms") = .ok (some (.ofMillis 90500)) ∧
    optional span (.str (Duration.ofMillis 90500).render) = .ok (some (.ofMillis 90500)) ∧
    optional span .null = .ok none := by
  obtain ⟨_, _, _, _, _, hspan, hoption⟩ := spans_read_back
  have hloose : span (.str "500ms  1m30 s") = .ok (.ofMillis 90500) := by rfl
  have hfraction : optional span (.str "1.5m 500ms") = .ok (some (.ofMillis 90500)) := by rfl
  exact ⟨hloose, hspan _ _ hloose, hfraction, hoption _ _ hfraction, hoption .null none rfl⟩

/-! ### Sets of names -/

theorem NameSet.place_last {x : String} {l : List String} (h : ∀ y ∈ l, y < x) :
    place x l = l ++ [x] := by
  induction l with
  | nil => rfl
  | cons y l ih =>
      have hyx := h y (List.mem_cons_self ..)
      have hne : x ≠ y := fun heq => String.lt_irrefl y (heq ▸ hyx)
      rw [place, if_neg (String.lt_asymm hyx), if_neg hne,
        ih fun z hz => h z (List.mem_cons_of_mem y hz), List.cons_append]

theorem NameSet.names_foldl_insert (l : List String) (s : NameSet)
    (h : (s.names ++ l).Pairwise (· < ·)) : (l.foldl insert s).names = s.names ++ l := by
  induction l generalizing s with
  | nil => simp
  | cons x l ih =>
      have hlast : (s.insert x).names = s.names ++ [x] :=
        place_last fun y hy => (List.pairwise_append.1 h).2.2 y hy x (List.mem_cons_self ..)
      rw [List.foldl_cons, ih, hlast, List.append_assoc, List.singleton_append]
      rwa [hlast, List.append_assoc, List.singleton_append]

/-- The names of a set make that set. -/
theorem NameSet.ofList_names (s : NameSet) : ofList s.names = s := by
  have hnames : (ofList s.names).names = s.names := names_foldl_insert s.names empty s.sorted
  cases hset : ofList s.names with
  | mk names sorted =>
      rw [hset] at hnames
      obtain rfl : names = s.names := hnames
      rfl

theorem inverts_nameSet : Inverts nameSet fun s => .strs s.names := by
  intro s
  simp only [nameSet, items_strs, Except.map, NameSet.ofList_names]

/-! ### Fields -/

namespace Fields

variable {all fields : Fields} {names : List String} {keep : String → Bool} {name : String}

theorem of_record (h : ∀ f ∈ fields, f.1 ∈ names) :
    of format names (.record fields) = .ok fields := by
  have hnone : fields.find? (fun f => !names.contains f.1 && !f.2.isReadable) = none := by
    simpa [List.find?_eq_none] using fun k v hmem hk => absurd (h _ hmem) hk
  rw [of, hnone]

theorem ofStrict_record (h : ∀ f ∈ fields, f.1 ∈ names) :
    ofStrict format names (.record fields) = .ok fields := by
  have hnone : fields.find? (fun f => !names.contains f.1) = none := by
    simpa [List.find?_eq_none] using fun k v hmem => h _ hmem
  rw [ofStrict, of_record h, except_ok_bind, hnone]

/-- A field of another name is refused. -/
theorem ofStrict_unknown (format : Format) {v : Value} (hmem : (name, v) ∈ fields)
    (hname : name ∉ names) : ∃ e, ofStrict format names (.record fields) = .error e := by
  have hfound : (fields.find? fun f => !names.contains f.1).isSome := by
    rw [List.find?_isSome]
    exact ⟨_, hmem, by simpa using hname⟩
  obtain ⟨f, hf⟩ := Option.isSome_iff_exists.1 hfound
  rw [ofStrict, of]
  split
  · exact ⟨_, rfl⟩
  · exact ⟨.unknownField f.1, by rw [except_ok_bind, hf]⟩

/-- What is looked up among the fields that were kept. -/
theorem lookup_kept (hn : (all.map Prod.fst).Nodup)
    (h : fields.Perm (all.filter fun f => keep f.1)) {v : Value} (hmem : (name, v) ∈ all) :
    fields.lookup name = if keep name then some v else none := by
  split
  · rename_i hkeep
    have hfields : (fields.map Prod.fst).Nodup :=
      (h.map Prod.fst).nodup_iff.2 ((List.filter_sublist.map Prod.fst).nodup hn)
    exact (Keyed.lookup_eq_some_iff hfields).2 (h.mem_iff.2 (List.mem_filter.2 ⟨hmem, hkeep⟩))
  · rename_i hkeep
    rw [List.lookup_eq_none_iff]
    intro f hf
    obtain ⟨_, hkept⟩ := List.mem_filter.1 (h.mem_iff.1 hf)
    rw [bne_iff_ne]
    exact fun heq => hkeep (heq ▸ hkept)

/-- **A field is read back if it was kept, and else has its default.** -/
theorem withDefault_kept (hn : (all.map Prod.fst).Nodup)
    (h : fields.Perm (all.filter fun f => keep f.1)) (hr : Inverts read write) (name : String) (a : α)
    (hmem : (name, write a) ∈ all) (default : α) :
    fields.withDefault name read default = .ok (if keep name then a else default) := by
  rw [withDefault, lookup_kept hn h hmem]
  cases keep name with
  | true => exact hr a
  | false => rfl

end Fields

/-! ### Parts of settings -/

theorem Relocation.inverts (format : Format) :
    Inverts (Relocation.decode format) Relocation.toValue := by
  intro r
  rw [Relocation.decode, Relocation.toValue, Fields.of_record (by simp [Relocation.fieldNames])]
  simp [List.lookup_cons, Fields.required, inverts_path r.source, inverts_path r.target]

theorem Module.inverts (format : Format) : Inverts (Module.decode format) Module.toValue := by
  intro m
  have hrelocations := (Relocation.inverts format).items m.relocations
  rw [Module.decode, Module.toValue, Fields.of_record (by simp [Module.fieldNames])]
  simp [List.lookup_cons, Fields.required, Fields.withDefault, inverts_text m.name,
    inverts_path m.outputDir, inverts_path m.artifact, items_paths, items_strs, hrelocations]

theorem CompilerCommand.inverts (format : Format) :
    Inverts (CompilerCommand.decode format) CompilerCommand.toValue := by
  intro c
  rw [CompilerCommand.decode, CompilerCommand.toValue,
    Fields.of_record (by simp [CompilerCommand.fieldNames])]
  simp [List.lookup_cons, Fields.required, Fields.withDefault, inverts_text c.program, items_strs]

theorem Launcher.inverts (format : Format) : Inverts (Launcher.decode format) Launcher.toValue := by
  intro l
  have hdigest := inverts_text.optional (by simp) l.sha256
  rw [Launcher.decode, Launcher.toValue, Fields.of_record (by simp [Launcher.fieldNames])]
  simp [List.lookup_cons, Fields.required, Fields.withDefault, inverts_text l.file,
    inverts_path l.path, hdigest]

theorem RetryPolicy.inverts (format : Format) :
    Inverts (RetryPolicy.decode format) RetryPolicy.toValue := by
  intro r
  rw [RetryPolicy.decode, RetryPolicy.toValue, Fields.of_record (by simp [RetryPolicy.fieldNames])]
  simp [List.lookup_cons, Fields.required, inverts_count32 ⟨r.attempts, r.attempts_lt⟩,
    inverts_span r.initialDelay]

/-! ### Tasks -/

theorem Action.inverts : Inverts Action.decode Action.toValue := by
  intro a
  cases a with
  | compile name => simp [Action.decode, Action.toValue, List.lookup_cons, Fields.required, text]
  | copyTree source target =>
      simp [Action.decode, Action.toValue, List.lookup_cons, Fields.required, text,
        inverts_path source, inverts_path target]
  | copyFiles files into =>
      simp [Action.decode, Action.toValue, List.lookup_cons, Fields.required, text,
        inverts_path into, items_paths]

theorem Task.inverts (format : Format) : Inverts (Task.decode format) Task.toValue := by
  intro t
  rw [Task.decode, Task.toValue, Fields.of_record (by simp [Task.fieldNames])]
  simp [List.lookup_cons, Fields.required, Fields.withDefault, inverts_text t.name,
    Action.inverts t.action, inverts_nameSet t.dependsOn, inverts_nameSet t.runsAfter]

/-! ### Settings -/

namespace Config

/-- The settings with the fields whose names are kept; all others, and the place of the project, are
the standard ones. -/
def keeping (c : Config) (keep : String → Bool) : Config where
  projectRoot := standard.projectRoot
  outputRoot := if keep "output_root" then c.outputRoot else standard.outputRoot
  resourcesDir := if keep "resources_dir" then c.resourcesDir else standard.resourcesDir
  toolArtifact := if keep "tool_artifact" then c.toolArtifact else standard.toolArtifact
  compiler := if keep "compiler" then c.compiler else standard.compiler
  compileTimeout := if keep "compile_timeout" then c.compileTimeout else standard.compileTimeout
  launchers := if keep "launchers" then c.launchers else standard.launchers
  launcherBaseUrl := if keep "launcher_base_url" then c.launcherBaseUrl else standard.launcherBaseUrl
  fetchRetry := if keep "fetch_retry" then c.fetchRetry else standard.fetchRetry
  modules := if keep "modules" then c.modules else standard.modules

theorem map_fst_toFields (c : Config) : c.toFields.map Prod.fst = fieldNames := rfl

/-- **What is kept of written settings is read back**, and the rest has its standard value. -/
theorem decode_kept (c : Config) (keep : String → Bool) {fields : Fields}
    (h : fields.Perm (c.toFields.filter fun f => keep f.1)) :
    decode format (.record fields) = .ok (c.keeping keep) := by
  have hn : (c.toFields.map Prod.fst).Nodup := by
    rw [map_fst_toFields]
    decide
  have hnames : ∀ f ∈ fields, f.1 ∈ fieldNames := by
    intro f hf
    rw [← map_fst_toFields c]
    exact List.mem_map_of_mem (List.mem_filter.1 (h.mem_iff.1 hf)).1
  have hcompiler := (CompilerCommand.inverts format).optional fun _ => nofun
  have htimeout := inverts_span.optional fun _ => nofun
  have hlaunchers := (Launcher.inverts format).items
  have hmodules := (Module.inverts format).items
  rw [decode, Fields.ofStrict_record hnames]
  simp only [except_ok_bind,
    Fields.withDefault_kept hn h inverts_path "output_root" c.outputRoot (by simp [toFields]),
    Fields.withDefault_kept hn h inverts_path "resources_dir" c.resourcesDir (by simp [toFields]),
    Fields.withDefault_kept hn h inverts_path "tool_artifact" c.toolArtifact (by simp [toFields]),
    Fields.withDefault_kept hn h hcompiler "compiler" c.compiler (by simp [toFields]),
    Fields.withDefault_kept hn h htimeout "compile_timeout" c.compileTimeout (by simp [toFields]),
    Fields.withDefault_kept hn h hlaunchers "launchers" c.launchers (by simp [toFields]),
    Fields.withDefault_kept hn h inverts_text "launcher_base_url" c.launcherBaseUrl
      (by simp [toFields]),
    Fields.withDefault_kept hn h (RetryPolicy.inverts format) "fetch_retry" c.fetchRetry
      (by simp [toFields]),
    Fields.withDefault_kept hn h hmodules "modules" c.modules (by simp [toFields])]
  rfl

/-- A field that is never written is refused. -/
theorem decode_unknown (format : Format) {fields : Fields} {key : String} {v : Value}
    (hkey : key ∉ fieldNames) (hmem : (key, v) ∈ fields) : ∃ e, decode format (.record fields) = .error e := by
  obtain ⟨e, he⟩ := Fields.ofStrict_unknown format hmem hkey
  exact ⟨e, by rw [decode, he]; rfl⟩

end Config

/-- **Settings and tasks are read back as they were written.**  Of written settings, any fields may be
taken, in any order: those that were taken come back, and all others have their standard value.  Where
the project is, is never written, and comes back as the standard place.  A record with a field that is
never written is refused.  Every task comes back. -/
theorem settings_round_trip (format : Format) :
    (∀ (c : Config) (keep : String → Bool) (fields : Fields),
      fields.Perm (c.toFields.filter fun f => keep f.1) →
        Config.decode format (.record fields) = .ok (c.keeping keep)) ∧
    (∀ c : Config, "project_root" ∉ c.toFields.map Prod.fst) ∧
    (∀ (c : Config) (key : String) (v : Value) (fields : Fields),
      key ∉ c.toFields.map Prod.fst → (key, v) ∈ fields →
        ∃ e, Config.decode format (.record fields) = .error e) ∧
    ∀ t : Task, Task.decode format t.toValue = .ok t := by
  refine ⟨fun c keep _ h => c.decode_kept keep h, fun c => ?_, fun c _ _ _ hkey hmem => ?_,
    Task.inverts format⟩
  · rw [Config.map_fst_toFields]
    decide
  · rw [Config.map_fst_toFields] at hkey
    exact Config.decode_unknown format hkey hmem

/-- Settings of a project that keeps its output elsewhere and waits for the compiler for a while. -/
def nightly : Config :=
  { Config.standard with
    projectRoot := ⟨"/work"⟩
    outputRoot := ⟨"out"⟩
    compileTimeout := some (.ofMillis 90500) }

/-- Two of its fields are taken, the later one first; the place of the project is refused. -/
theorem nightly_round_trip :
    Config.decode .json
        (.record [("compile_timeout", .str "1m 30s 500ms"), ("output_root", .str "out")]) =
      .ok { nightly with projectRoot := ⟨"."⟩ } ∧
    ∃ e, Config.decode .json
      (.record [("project_root", .str "/work"), ("output_root", .str "out")]) = .error e := by
  obtain ⟨hkept, hroot, hunknown, _⟩ := settings_round_trip .json
  constructor
  · refine hkept nightly (["output_root", "compile_timeout"].contains ·) _ ?_
    exact List.Perm.swap _ _ []
  · exact hunknown nightly _ _ _ (hroot nightly) (List.mem_cons_self ..)

end Rebuild
