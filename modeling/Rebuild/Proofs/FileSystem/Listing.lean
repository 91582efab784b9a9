/-
What is in a tree, as it is listed.

A tree is listed with the path itself first, and then all that is below it.  If no link is on the way, that
is all below the place that the path names; nothing is listed twice, so files can be counted.  A scan comes
to all of it, unless there is a directory that it cannot read.

Main results:

* `FileSystem.Sound.tree_eq` — **a tree that is no link is listed from its directory down**;
* `FileSystem.Sound.scan_eq` — **a scan that can read everything comes to the whole tree**;
* `FileSystem.encard_files_below` — each file below a directory is listed once.
-/
import Rebuild.Proofs.FileSystem.Following
import Rebuild.Proofs.FileSystem.Unlinked

set_option relaxedAutoImplicit false
set_option autoImplicit false

namespace Rebuild.FileSystem

variable {fs : FileSystem} {p : Path} {loc : Location}

/-- **A tree that is no link is listed from its directory down.** -/
theorem Sound.tree_eq (h : fs.Sound) (hp : fs.Unlinked p) (hdir : fs.isDirectory p = true) :
    ∃ t, fs.node? (p.place fs.workDir) = some (.directory t) ∧
      fs.tree p = ([], .directory t) :: fs.below (p.place fs.workDir) := by
  obtain ⟨n, hn, hkind⟩ := (Option.any_eq_true _ _).1 hdir
  obtain ⟨loc, hloc, hnode⟩ := lookup_eq_ok_iff.1 (stat?_eq_some_iff.1 hn)
  obtain ⟨rfl, _⟩ := h.locate hp (by simp) hloc
  obtain ⟨t, rfl⟩ : ∃ t, n = .directory t := by
    cases n with
    | directory t => exact ⟨t, rfl⟩
    | file data => cases hkind
    | link target => cases hkind
  have hentry : fs.lookup .entry p = .ok (.directory t) :=
    lookup_eq_ok_iff.2 ⟨_, hp.locate_entry hloc, hnode⟩
  refine ⟨t, hnode, ?_⟩
  rw [tree, hentry, hloc]

theorem tree_elapse (fs : FileSystem) (nanos : ℕ) (p : Path) :
    (fs.elapse nanos).tree p = fs.tree p := by
  unfold tree lookup
  rw [locate_elapse, locate_elapse]
  rfl

theorem scan_elapse (fs : FileSystem) (nanos : ℕ) (p : Path) :
    (fs.elapse nanos).scan p = fs.scan p := by
  rw [scan, scan, tree_elapse]

/-- **A scan that can read everything comes to the whole tree.** -/
theorem Sound.scan_eq (h : fs.Sound) (hp : fs.Unlinked p) (hdir : fs.isDirectory p = true)
    (hread : ∀ cause, .error cause ∉ fs.scan p) : fs.scan p = (fs.tree p).map .ok := by
  obtain ⟨t, ht, htree⟩ := h.tree_eq hp hdir
  have hmem : ∀ {rel n}, (rel, n) ∈ fs.tree p ↔ fs.node? (p.place fs.workDir ++ rel) = some n := by
    intro rel n
    rw [htree, List.mem_cons, mem_below]
    by_cases hrel : rel = []
    · simp [hrel, ht, eq_comm]
    · simp [hrel]
  -- down the tree, a directory that could not be read would have come up
  have hway : ∀ rel, fs.isDirectoryAt (p.place fs.workDir ++ rel) = true →
      (p.down rel).refusal? = none := by
    intro rel
    induction rel using List.reverseRecOn with
    | nil =>
        intro _
        by_contra hrefused
        obtain ⟨refusal, hrefusal⟩ := Option.ne_none_iff_exists'.1 hrefused
        exact hread _ (error_mem_scan.2 ⟨[], t, refusal, by simp [htree], Or.inl rfl, hrefusal, rfl⟩)
    | append_singleton front x ih =>
        intro hhere
        obtain ⟨s, hs⟩ := isDirectoryAt_eq_true_iff.1 hhere
        have hfront := ih (h.rooted.above (by rwa [List.append_assoc]) (List.cons_ne_nil x []))
        by_contra hrefused
        obtain ⟨refusal, hrefusal⟩ := Option.ne_none_iff_exists'.1 hrefused
        refine hread _ (error_mem_scan.2 ⟨_, s, refusal, hmem.2 hs, Or.inr ?_, hrefusal, rfl⟩)
        rwa [List.dropLast_concat]
  refine scan_eq_map fun e he => ?_
  obtain ⟨rel, n⟩ := e
  have hn := hmem.1 he
  refine ⟨?_, fun hnode => hway rel ?_⟩
  · by_cases hrel : rel = []
    · exact Or.inl hrel
    · rw [← List.dropLast_concat_getLast hrel, ← List.append_assoc] at hn
      exact Or.inr (hway _ (h.rooted.above hn (List.cons_ne_nil _ [])))
  · rw [isDirectoryAt, hn]
    exact hnode

theorem keys_below (fs : FileSystem) (loc : Location) : ((fs.below loc).map Prod.fst).Nodup := by
  unfold below
  rw [((List.mergeSort_perm _ _).map Prod.fst).nodup_iff, List.map_map]
  have hkeys : ((fs.nodes.filter fun e => loc.isPrefixOf e.1 && e.1 != loc).map Prod.fst).Nodup :=
    (separate_filter fs.separate _).nodup
  have hdrop := hkeys.map_on (f := List.drop loc.length) fun x hx y hy heq => ?_
  · rwa [List.map_map] at hdrop
  · -- all of them start with the same names
    have hsplit : ∀ k ∈ (fs.nodes.filter fun e => loc.isPrefixOf e.1 && e.1 != loc).map Prod.fst,
        loc ++ k.drop loc.length = k := by
      intro k hk
      obtain ⟨e, he, rfl⟩ := List.mem_map.1 hk
      have hpre := (Bool.and_eq_true_iff.1 (List.mem_filter.1 he).2).1
      exact (List.prefix_iff_eq_append.1 (List.isPrefixOf_iff_prefix.1 hpre))
    rw [← hsplit x hx, heq, hsplit y hy]

/-- Each file below a directory is listed once. -/
theorem encard_files_below (hloc : ∀ data, fs.node? loc ≠ some (.file data)) :
    {rel | ∃ data, fs.node? (loc ++ rel) = some (.file data)}.encard =
      (fs.below loc).countP (·.2.isFile) := by
  have hnodup : (((fs.below loc).filter (·.2.isFile)).map Prod.fst).Nodup :=
    (fs.keys_below loc).sublist (List.filter_sublist.map _)
  have hset : {rel | ∃ data, fs.node? (loc ++ rel) = some (.file data)} =
      ((((fs.below loc).filter (·.2.isFile)).map Prod.fst).toFinset : Set Location) := by
    ext rel
    simp only [Set.mem_ofPred_eq, List.coe_toFinset, List.mem_map, List.mem_filter, Prod.exists,
      exists_and_right, exists_eq_right, mem_below]
    constructor
    · rintro ⟨data, hdata⟩
      refine ⟨.file data, ⟨?_, hdata⟩, rfl⟩
      rintro rfl
      exact hloc data (by simpa using hdata)
    · rintro ⟨n, ⟨_, hn⟩, hfile⟩
      cases n with
      | file data => exact ⟨data, hn⟩
      | directory t => cases hfile
      | link target => cases hfile
  rw [hset, Set.encard_coe_eq_coe_finsetCard, List.toFinset_card_of_nodup hnodup, List.length_map,
    List.countP_eq_length_filter]

end Rebuild.FileSystem
