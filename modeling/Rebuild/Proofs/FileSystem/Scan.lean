/-
What a scan of a tree comes to.

A scan reads every directory, and the time of every file, by its whole path.  A path only gets longer on
the way down, so what can be followed to its end can be followed to every directory on the way.  Whether
an entry is found is therefore a matter of its own path: the files that a scan finds are the files of the
tree whose paths can be followed.

Main results:

* `Path.refusal?_eq_none_iff` — which paths can be followed, whatever the files are;
* `Path.refusal?_of_down` — **what can be followed to its end can be followed half the way**;
* `FileSystem.mem_tree` — the entries of a tree;
* `FileSystem.ok_mem_scan`, `FileSystem.error_mem_scan` — what a scan comes to, and what it cannot read;
* `FileSystem.scan_eq_map` — a scan that can read every directory comes to the whole tree;
* `FileSystem.mem_fileTimes` — the times that a scan finds.
-/
import Rebuild.FileSystem.Walk
import Rebuild.Proofs.Keyed
import Rebuild.Proofs.Path

set_option relaxedAutoImplicit false
set_option autoImplicit false

namespace Rebuild

/-! ### Paths on the way down -/

namespace Path

variable {p q : Path} {name : String} {rel rel' : Location}

theorem fault?_eq_none_iff : p.fault? = none ↔ Char.ofNat 0 ∉ p.text.toList ∧ p.text ≠ "" ∧
    p.text.utf8ByteSize ≤ maxPathLength := by
  unfold fault?
  by_cases hnul : Char.ofNat 0 ∈ p.text.toList
  · simp [hnul]
  · by_cases hempty : p.text = ""
    · simp [hempty]
    · simp [hnul, hempty]

theorem refusal?_eq_none_iff : p.refusal? = none ↔
    p.fault? = none ∧ ∀ c ∈ p.steps, c.isTooLong = false := by
  unfold refusal?
  cases p.fault? with
  | some e => simp
  | none => simp

/-- The path of an entry is written behind that of its directory. -/
theorem text_child (p : Path) (name : String) : ∃ more, (p.child name).text = p.text ++ more := by
  unfold child
  split
  · exact ⟨name, rfl⟩
  · exact ⟨"/" ++ name, by rw [String.append_assoc]⟩

/-- The way to an entry goes on from its directory. -/
theorem steps_child (h : p.text ≠ "") : (p.child name).steps = p.steps ++ (Path.mk name).steps := by
  unfold child
  split
  · rename_i hend
    obtain ⟨before, heq⟩ := endsInSlash_iff.1 (by simpa [h] using hend)
    have hall : (p.text ++ name).toList = before ++ '/' :: name.toList := by simp [heq]
    rw [steps, steps, steps, hall, heq, pieces_append, pieces_append]
    simp [pieces, Component.ofPiece?]
  · have hall : (p.text ++ "/" ++ name).toList = p.text.toList ++ '/' :: name.toList := by simp
    rw [steps, steps, steps, hall, pieces_append, List.filterMap_append]

theorem text_child_ne (h : p.text ≠ "") : (p.child name).text ≠ "" := by
  obtain ⟨more, hmore⟩ := p.text_child name
  rw [hmore]
  simp [h]

/-- An entry cannot be got at if its directory cannot. -/
theorem refusal?_of_child (h : p.text ≠ "") (hchild : (p.child name).refusal? = none) :
    p.refusal? = none := by
  obtain ⟨more, hmore⟩ := p.text_child name
  obtain ⟨hfault, hsteps⟩ := refusal?_eq_none_iff.1 hchild
  obtain ⟨hnul, _, hsize⟩ := fault?_eq_none_iff.1 hfault
  rw [hmore] at hnul hsize
  rw [String.utf8ByteSize_append] at hsize
  refine refusal?_eq_none_iff.2 ⟨fault?_eq_none_iff.2 ⟨?_, h, by omega⟩, fun c hc => hsteps c ?_⟩
  · exact fun hmem => hnul (by simp [hmem])
  · rw [steps_child h]
    exact List.mem_append_left _ hc

@[simp]
theorem down_nil (p : Path) : p.down [] = p := rfl

theorem down_append (p : Path) (rel rel' : Location) : p.down (rel ++ rel') = (p.down rel).down rel' :=
  List.foldl_append ..

theorem text_down_ne (h : p.text ≠ "") : (p.down rel).text ≠ "" := by
  induction rel generalizing p with
  | nil => exact h
  | cons x xs ih => exact ih (text_child_ne h)

/-- **What can be followed to its end can be followed half the way.** -/
theorem refusal?_of_down (h : p.text ≠ "") (hdown : (p.down (rel ++ rel')).refusal? = none) :
    (p.down rel).refusal? = none := by
  -- on the names that are left out, from the last one
  induction rel' using List.reverseRecOn with
  | nil => rwa [List.append_nil] at hdown
  | append_singleton front x ih =>
      rw [← List.append_assoc, down_append] at hdown
      exact ih (refusal?_of_child (text_down_ne h) hdown)

theorem refusal?_of_dropLast (h : p.text ≠ "") (hdown : (p.down rel).refusal? = none) :
    (p.down rel.dropLast).refusal? = none := by
  rcases List.eq_nil_or_concat rel with rfl | ⟨front, x, rfl⟩
  · exact hdown
  · rw [List.concat_eq_append] at hdown ⊢
    rw [List.dropLast_concat]
    exact refusal?_of_down h hdown

theorem size_add_le_child :
    p.text.utf8ByteSize + name.utf8ByteSize ≤ (p.child name).text.utf8ByteSize := by
  unfold child
  split
  · rw [String.utf8ByteSize_append]
  · rw [String.utf8ByteSize_append, String.utf8ByteSize_append]
    omega

/-- A path is as long as the names on the way, and longer. -/
theorem size_add_le_down :
    p.text.utf8ByteSize + (rel.map String.utf8ByteSize).sum ≤ (p.down rel).text.utf8ByteSize := by
  induction rel generalizing p with
  | nil => simp
  | cons x xs ih =>
      have hchild : p.text.utf8ByteSize + x.utf8ByteSize ≤ (p.child x).text.utf8ByteSize :=
        size_add_le_child
      have hrest : (p.child x).text.utf8ByteSize + _ ≤ (p.down (x :: xs)).text.utf8ByteSize := ih
      rw [List.map_cons, List.sum_cons]
      omega

/-- Names that are too long together lead nowhere. -/
theorem refusal?_ne_none_of_long (h : maxPathLength < (rel.map String.utf8ByteSize).sum) :
    (p.down rel).refusal? ≠ none := by
  intro hread
  obtain ⟨_, _, hsize⟩ := fault?_eq_none_iff.1 (refusal?_eq_none_iff.1 hread).1
  have hlong : _ ≤ (p.down rel).text.utf8ByteSize := size_add_le_down
  omega

/-! ### Names on the way down -/

theorem isAbsolute_name (hname : IsName name) : (Path.mk name).isAbsolute = false := by
  rw [Bool.eq_false_iff]
  intro habs
  obtain ⟨rest, hrest⟩ := isAbsolute_iff.1 habs
  exact hname.1 (hrest ▸ List.mem_cons_self ..)

theorem child_eq_join (hname : IsName name) : p.child name = p.join ⟨name⟩ := by
  rw [child, join, if_neg (Bool.eq_false_iff.1 (isAbsolute_name hname))]

theorem steps_name (hname : IsName name) : (Path.mk name).steps = [.name name] := by
  rw [steps, pieces_of_noSlash hname.1]
  simp [hname.2]

theorem endsInSlash_child (hname : IsName name) : (p.child name).endsInSlash = false := by
  obtain ⟨more, hmore⟩ : ∃ more, (p.child name).text.toList = more ++ name.toList := by
    unfold child
    split
    · exact ⟨p.text.toList, by simp⟩
    · exact ⟨(p.text ++ "/").toList, by simp⟩
  have hne : name.toList ≠ [] := Component.Legible.text_ne_nil (c := .name name) hname
  rw [endsInSlash, hmore, List.getLast?_append_of_ne_nil _ hne, beq_eq_false_iff_ne]
  exact fun hlast => hname.1 (List.mem_of_getLast? hlast)

/-- A direct path to a directory goes on directly to what is in it. -/
theorem Direct.child (hp : p.Direct) (hne : p.text ≠ "") (hname : IsName name) :
    (p.child name).Direct := by
  obtain ⟨⟨k, names, hsteps⟩, _⟩ := hp
  refine ⟨⟨k, names ++ [name], ?_⟩, fun hend => ?_⟩
  · rw [steps_child hne, hsteps, steps_name hname, List.map_append, List.append_assoc]
    rfl
  · rw [endsInSlash_child hname] at hend
    cases hend

/-- A direct path stays direct on the way down, and its place goes down with it. -/
theorem Direct.down (hp : p.Direct) (hne : p.text ≠ "") (hnames : ∀ x ∈ rel, IsName x) :
    (p.down rel).Direct ∧ ∀ s, (p.down rel).place s = p.place s ++ rel := by
  induction rel generalizing p with
  | nil => exact ⟨hp, fun s => (List.append_nil _).symm⟩
  | cons x xs ih =>
      obtain ⟨hx, hxs⟩ := List.forall_mem_cons.1 hnames
      obtain ⟨hdown, hplace⟩ := ih (hp.child hne hx) (text_child_ne hne) hxs
      refine ⟨hdown, fun s => (hplace s).trans ?_⟩
      rw [child_eq_join hx, place_join_name hx, List.append_assoc, List.singleton_append]

end Path

/-! ### Trees -/

namespace FileSystem

variable {fs : FileSystem} {p : Path} {loc rel : Location} {n : Node} {t : Time}
  {e : Location × Node} {cause : IoError}

theorem node?_eq_some_iff (h : loc ≠ []) : fs.node? loc = some n ↔ (loc, n) ∈ fs.nodes := by
  rw [node?, if_neg h]
  exact Keyed.lookup_eq_some_iff fs.separate.nodup

/-- **The entries below a location**, with the names that lead there from it. -/
theorem mem_below : (rel, n) ∈ fs.below loc ↔ rel ≠ [] ∧ fs.node? (loc ++ rel) = some n := by
  simp only [below, List.mem_mergeSort, List.mem_map, List.mem_filter, Bool.and_eq_true,
    List.isPrefixOf_iff_prefix, bne_iff_ne, Prod.mk.injEq, Prod.exists]
  constructor
  · rintro ⟨l, m, ⟨hmem, ⟨rest, rfl⟩, hne⟩, rfl, rfl⟩
    have hrest : rest ≠ [] := fun hnil => hne (by simp [hnil])
    refine ⟨by simpa using hrest, ?_⟩
    rw [List.drop_left]
    exact (node?_eq_some_iff (by simp [hrest])).2 hmem
  · rintro ⟨hrel, hn⟩
    have hmem := (node?_eq_some_iff (by simp [hrel])).1 hn
    exact ⟨loc ++ rel, n, ⟨hmem, ⟨rel, rfl⟩, by simpa using hrel⟩, by simp, rfl⟩

/-- A tree is the entry that a path names, and what is below the place it leads to. -/
theorem mem_tree : (rel, n) ∈ fs.tree p ↔ ∃ root, fs.lookup .entry p = .ok root ∧
    (rel = [] ∧ n = root ∨
      rel ≠ [] ∧ ∃ loc, fs.locate .target p = .ok loc ∧ fs.node? (loc ++ rel) = some n) := by
  unfold tree
  cases fs.lookup .entry p with
  | error e => simp
  | ok root =>
      cases fs.locate .target p with
      | error e => simp
      | ok loc => simp [mem_below]

/-- A path with a tree has a text. -/
theorem text_ne_of_mem_tree (h : e ∈ fs.tree p) : p.text ≠ "" := by
  rintro hempty
  have hlocate : fs.locate .entry p = .error .notFound := by
    simp [locate, Path.fault?, hempty]
  obtain ⟨root, hroot, _⟩ := mem_tree.1 h
  simp [lookup, hlocate, bind, Except.bind] at hroot

/-! ### Scans -/

theorem ok_mem_scanEntry {e' : Location × Node} : .ok e' ∈ scanEntry p e ↔
    e' = e ∧ (e.1 = [] ∨ (p.down e.1.dropLast).refusal? = none) := by
  unfold scanEntry
  split
  · rename_i hlost
    obtain ⟨hne, hrefused⟩ := hlost
    rw [Option.isSome_iff_ne_none] at hrefused
    simp [hne, hrefused]
  · rename_i hfound
    have hway : e.1 = [] ∨ (p.down e.1.dropLast).refusal? = none := by
      simpa [Classical.or_iff_not_imp_left] using hfound
    split <;> simp [hway]

/-- **A scan comes to an entry** if the directory that it is in can be read. -/
theorem ok_mem_scan : .ok e ∈ fs.scan p ↔
    e ∈ fs.tree p ∧ (e.1 = [] ∨ (p.down e.1.dropLast).refusal? = none) := by
  rw [scan, List.mem_flatMap]
  simp only [ok_mem_scanEntry]
  constructor
  · rintro ⟨e', he', rfl, hway⟩
    exact ⟨he', hway⟩
  · rintro ⟨he, hway⟩
    exact ⟨e, he, rfl, hway⟩

theorem error_mem_scanEntry : .error cause ∈ scanEntry p e ↔
    (e.1 = [] ∨ (p.down e.1.dropLast).refusal? = none) ∧ ∃ t refusal, e.2 = .directory t ∧
      (p.down e.1).refusal? = some refusal ∧ cause = .unreadable (p.down e.1).text refusal := by
  unfold scanEntry
  split
  · rename_i hlost
    obtain ⟨hne, hrefused⟩ := hlost
    rw [Option.isSome_iff_ne_none] at hrefused
    simp [hne, hrefused]
  · rename_i hfound
    have hway : e.1 = [] ∨ (p.down e.1.dropLast).refusal? = none := by
      simpa [Classical.or_iff_not_imp_left] using hfound
    split
    · rename_i t refusal hnode hrefusal
      simp [hway, hnode, hrefusal]
    · rename_i hother
      simp only [List.mem_singleton, reduceCtorEq, false_iff, not_and, not_exists]
      rintro _ t refusal ht hrefusal _
      exact hother t refusal ht hrefusal

/-- **What a scan cannot read** are directories whose paths cannot be followed. -/
theorem error_mem_scan : .error cause ∈ fs.scan p ↔ ∃ rel t refusal, (rel, .directory t) ∈ fs.tree p ∧
    (rel = [] ∨ (p.down rel.dropLast).refusal? = none) ∧ (p.down rel).refusal? = some refusal ∧
      cause = .unreadable (p.down rel).text refusal := by
  rw [scan, List.mem_flatMap]
  simp only [error_mem_scanEntry]
  constructor
  · rintro ⟨⟨rel, n⟩, he, hway, t, refusal, rfl, hrefusal, hcause⟩
    exact ⟨rel, t, refusal, he, hway, hrefusal, hcause⟩
  · rintro ⟨rel, t, refusal, he, hway, hrefusal, hcause⟩
    exact ⟨_, he, hway, t, refusal, rfl, hrefusal, hcause⟩

/-- **Where every directory can be read, a scan comes to the whole tree.** -/
theorem scan_eq_map (h : ∀ e ∈ fs.tree p, (e.1 = [] ∨ (p.down e.1.dropLast).refusal? = none) ∧
    (e.2.isDirectory = true → (p.down e.1).refusal? = none)) : fs.scan p = (fs.tree p).map .ok := by
  rw [scan, List.map_eq_flatMap]
  refine List.flatMap_congr fun e he => ?_
  obtain ⟨hway, hread⟩ := h e he
  have hin : ¬ (e.1 ≠ [] ∧ (p.down e.1.dropLast).refusal?.isSome = true) := by
    rintro ⟨hne, hlost⟩
    rw [hway.resolve_left hne] at hlost
    cases hlost
  rw [scanEntry, if_neg hin]
  split
  · rename_i t refusal hnode hrefusal
    rw [hread (by rw [hnode]; rfl)] at hrefusal
    cases hrefusal
  · rfl

/-- A scan begins with the path itself. -/
theorem take_scan {rest : List (Location × Node)} (h : fs.tree p = ([], n) :: rest) :
    (fs.scan p).take 1 = [.ok ([], n)] := by
  rw [scan, h, List.flatMap_cons, scanEntry, if_neg (by simp)]
  split <;> rfl

theorem scannedTime?_eq_some_iff {found : Except IoError (Location × Node)} :
    scannedTime? p found = some t ↔ ∃ rel data, found = .ok (rel, .file data) ∧
      (p.down rel).refusal? = none ∧ data.time = t := by
  unfold scannedTime?
  split
  · rename_i rel data
    split
    · rename_i hrefused
      rw [Option.isSome_iff_ne_none] at hrefused
      simp [hrefused]
    · rename_i hread
      simp_all
  · rename_i hother
    simp only [reduceCtorEq, false_iff, not_exists, not_and]
    rintro rel data hfound
    exact absurd hfound (hother rel data)

/-- **The times that a scan finds** are those of the files whose paths can be followed. -/
theorem mem_fileTimes : t ∈ fs.fileTimes p ↔ ∃ rel data, (rel, .file data) ∈ fs.tree p ∧
    (p.down rel).refusal? = none ∧ data.time = t := by
  simp only [fileTimes, List.mem_filterMap, scannedTime?_eq_some_iff]
  constructor
  · rintro ⟨_, hfound, rel, data, rfl, hread, htime⟩
    exact ⟨rel, data, (ok_mem_scan.1 hfound).1, hread, htime⟩
  · rintro ⟨rel, data, hmem, hread, htime⟩
    have hway := Path.refusal?_of_dropLast (text_ne_of_mem_tree hmem) hread
    exact ⟨_, ok_mem_scan.2 ⟨hmem, Or.inr hway⟩, rel, data, rfl, hread, htime⟩

end FileSystem

end Rebuild
