/-
What a program finds when it is put in place, and what it leaves if it cannot be.

The directory that a program goes to is made first, with the directories above it.  If that changes
nothing or leaves an empty directory, a program that is not there before is not there after a failure
either.  Once the program is in place, its path leads to it: the walk to its directory could only be
disturbed by passing the program itself, which would have to be a link that leads to a directory.

Main definitions:

* `Path.home` — the directory that a program goes to;
* `FileSystem.Passes` — a walk to a directory passes an entry of it, a link;
* `FileSystem.Overlong` — the path ends in a link to a directory, with too many links before it.

Main results:

* `FileSystem.walk_of_sets` — **a walk to a directory still leads there after an entry of it was set**,
  unless it passed the entry;
* `FileSystem.stat?_of_sets` — what was put in its place is found by its path;
* `installProgram_absent` — a program that cannot be put in place is as absent as before;
* `installProgram_found` — **a program that was put in place is found by its path**.
-/
import Rebuild.Proofs.FileSystem.Writing
import Rebuild.Proofs.Placement

set_option relaxedAutoImplicit false
set_option autoImplicit false

namespace Rebuild

namespace Path

/-- The directory that a program goes to. -/
def home (dest : Path) : Path :=
  match dest.parent? with
  | some p => if p.text.isEmpty then ⟨"."⟩ else p
  | none => ⟨"."⟩

theorem home_cases (dest : Path) : dest.home = ⟨"."⟩ ∨
    ∃ n, n + 1 = dest.components.length ∧ dest.home = ofComponents (dest.components.take n) := by
  unfold home parent?
  split
  · rename_i parent hparent
    split at hparent
    · cases hparent
    · cases hparent
    · rename_i hlast
      split
      · exact Or.inl rfl
      · right
        have hne : dest.components ≠ [] := fun hnil => by simp [hnil] at hlast
        have hlen := List.length_pos_iff.2 hne
        refine ⟨dest.components.length - 1, by omega, ?_⟩
        rw [← List.dropLast_eq_take]
        exact (Option.some.inj hparent).symm
  · exact Or.inl rfl

end Path

/-! ### Replacing an entry -/

namespace FileSystem

variable {fs fs' : FileSystem} {dest : Path} {x : String} {cur loc parent : Location} {o : Option Node}
  {links : ℕ} {steps : List Step} {data : FileData}

/-- What it takes for a name to stand for a place in a directory. -/
theorem slot_eq_name (h : fs.slot .busy dest = .ok (parent ++ [x])) : dest.fault? = none ∧
    fs.isDirectoryAt parent = true ∧ ¬ maxNameLength < x.utf8ByteSize ∧
    ∃ front, dest.steps = front ++ [.name x] ∧
      fs.walk .target maxLinks (fs.startOf dest) (front.map .go) = .ok parent := by
  obtain ⟨hfault, front, y, parent', hsteps, hwalk, hdir, hshort, heq⟩ := slot_eq_ok h
  obtain ⟨rfl, hxy⟩ := List.append_inj' heq rfl
  obtain rfl : x = y := by simpa using hxy
  exact ⟨hfault, hdir, hshort, front, hsteps, hwalk⟩

/-- A walk to the directory passes an entry of it, which is a link. -/
def Passes (fs : FileSystem) (parent : Location) (x : String) : Prop :=
  ∃ target left rest, fs.node? (parent ++ [x]) = some (.link target) ∧
    fs.walk .target left (if target.isAbsolute then [] else parent) (target.walkSteps ++ rest) =
      .ok parent

/-- A walk to a directory passes an entry of it that is no directory, if it comes there. -/
theorem passes_of_walkWith {onLink : Location → List Step → Except IoError Location}
    (hdir : fs.isDirectoryAt (parent ++ [x]) = false)
    (hlinks : ∀ {cur steps}, onLink cur steps = .ok parent →
      ∃ left, fs.walk .target left cur steps = .ok parent)
    (hwalk : fs.walkWith .target onLink parent (.go (.name x) :: steps) = .ok parent) :
    fs.Passes parent x := by
  obtain ⟨_, _, n, hn, ⟨_, hnext⟩ | ⟨target, rfl, ⟨hend, _⟩ | ⟨_, hnext⟩⟩⟩ :=
    (walkWith_name_iff (by simp)).1 hwalk
  · -- only a link leads from there to the directory
    cases steps with
    | nil => exact absurd (Except.ok.inj hnext) (by simp)
    | cons step rest => exact absurd (isDirectoryAt_of_walkWith hnext) (Bool.eq_false_iff.1 hdir)
  · cases hend
  · obtain ⟨left, hleft⟩ := hlinks hnext
    exact ⟨target, left, steps, hn, hleft⟩

theorem walkWith_of_sets {onLink onLink' : Location → List Step → Except IoError Location}
    (hs : fs.Sets (parent ++ [x]) o fs') (hdir : fs.isDirectoryAt (parent ++ [x]) = false)
    (hlink : ∀ {cur steps}, onLink cur steps = .ok parent →
      onLink' cur steps = .ok parent ∨ fs.Passes parent x)
    (hlinks : ∀ {cur steps}, onLink cur steps = .ok parent →
      ∃ left, fs.walk .target left cur steps = .ok parent)
    (hwalk : fs.walkWith .target onLink cur steps = .ok parent) :
    fs'.walkWith .target onLink' cur steps = .ok parent ∨ fs.Passes parent x := by
  induction steps generalizing cur with
  | nil => exact Or.inl hwalk
  | cons step rest ih =>
      have hcur := isDirectoryAt_of_walkWith hwalk
      have hne : cur ≠ parent ++ [x] := by
        rintro rfl
        exact Bool.false_ne_true (hdir.symm.trans hcur)
      have hcur' : fs'.isDirectoryAt cur = true := by rwa [hs.isDirectoryAt_eq hne]
      match step with
      | .slash | .go .root | .go .here | .go .up =>
          rw [walkWith, if_pos hcur] at hwalk
          rw [walkWith, if_pos hcur']
          exact ih hwalk
      | .go (.name y) =>
          by_cases hat : cur ++ [y] = parent ++ [x]
          · obtain ⟨rfl, hyx⟩ := List.append_inj' hat rfl
            obtain rfl : y = x := by simpa using hyx
            exact Or.inr (passes_of_walkWith hdir hlinks hwalk)
          · obtain ⟨_, hshort, n, hn, hnext⟩ := (walkWith_name_iff (by simp)).1 hwalk
            have hgo : ∀ n', fs'.node? (cur ++ [y]) = some n' → n'.isLink = false →
                fs.walkWith .target onLink (cur ++ [y]) rest = .ok parent →
                fs'.walkWith .target onLink' cur (.go (.name y) :: rest) = .ok parent ∨
                  fs.Passes parent x := fun n' hn' hpass hnext =>
              (ih hnext).imp_left fun hnext' => (walkWith_name_iff (by simp)).2
                ⟨hcur', hshort, n', hn', Or.inl ⟨hpass, hnext'⟩⟩
            rcases hs.elsewhere hat with hsame | ⟨_, hold, hdated⟩
            · rw [hn] at hsame
              rcases hnext with ⟨hpass, hnext⟩ | ⟨target, rfl, ⟨hend, _⟩ | ⟨_, hnext⟩⟩
              · exact hgo n hsame hpass hnext
              · cases hend
              · exact (hlink hnext).imp_left fun hnext' => (walkWith_name_iff (by simp)).2
                  ⟨hcur', hshort, _, hsame, Or.inr ⟨target, rfl, Or.inr ⟨by simp, hnext'⟩⟩⟩
            · obtain ⟨t, ht⟩ := isDirectoryAt_eq_true_iff.1 hold
              obtain rfl := Option.some.inj (hn.symm.trans ht)
              rcases hnext with ⟨_, hnext⟩ | ⟨target, hlinked, _⟩
              · exact hgo _ hdated rfl hnext
              · cases hlinked

/-- **A walk to a directory still leads there after an entry of it was set**, unless it passed the
entry. -/
theorem walk_of_sets (hs : fs.Sets (parent ++ [x]) o fs')
    (hdir : fs.isDirectoryAt (parent ++ [x]) = false)
    (hwalk : fs.walk .target links cur steps = .ok parent) :
    fs'.walk .target links cur steps = .ok parent ∨ fs.Passes parent x := by
  induction links generalizing cur steps with
  | zero => exact walkWith_of_sets hs hdir (fun h => by cases h) (fun h => by cases h) hwalk
  | succ links ih => exact walkWith_of_sets hs hdir ih (fun h => ⟨links, h⟩) hwalk

/-- The path ends in a link to a directory, but on the whole way there are too many links. -/
def Overlong (fs : FileSystem) (dest : Path) : Prop :=
  fs.locate .target dest = .error .tooManyLinks ∧
    ∃ (parent : Location) (x : String) (target : Path) (left : ℕ) (loc : Location),
      fs.slot .busy dest = .ok (parent ++ [x]) ∧ fs.node? (parent ++ [x]) = some (.link target) ∧
      fs.walk .target left (if target.isAbsolute then [] else parent) target.walkSteps = .ok loc ∧
      fs.isDirectoryAt loc = true

/-- A link that the way to its directory passes leads to a directory, unless the way is overlong. -/
theorem Passes.present (h : fs.Passes parent x) (hslot : fs.slot .busy dest = .ok (parent ++ [x]))
    (hslash : dest.endsInSlash = false) : fs.present dest = true ∨ fs.Overlong dest := by
  obtain ⟨hfault, hdir, hshort, front, hsteps, hwalk⟩ := slot_eq_name hslot
  obtain ⟨target, left, rest, hlink, hpass⟩ := h
  obtain ⟨mid, left', hmid, hrest⟩ := walk_front hpass
  have hmiddir : fs.isDirectoryAt mid = true := by
    cases rest with
    | nil =>
        obtain ⟨onLink, heq⟩ := exists_walk_eq fs .target left'
        rw [heq] at hrest
        obtain rfl := Except.ok.inj hrest
        exact hdir
    | cons step rest => exact isDirectoryAt_of_walk hrest
  have hlocate : ∃ links, fs.locate .target dest = fs.walk .target links parent [.go (.name x)] := by
    obtain ⟨links, heq⟩ := walk_rest hwalk [.go (.name x)]
    refine ⟨links, ?_⟩
    rw [locate, hfault]
    dsimp only
    rw [follow, Path.walkSteps, hsteps, hslash, List.map_append, List.map_singleton]
    simpa using heq
  obtain ⟨links, hlocate⟩ := hlocate
  rw [walk_name hdir hshort, hlink] at hlocate
  cases links with
  | zero => exact Or.inr ⟨hlocate, parent, x, target, left, mid, hslot, hlink, hmid, hmiddir⟩
  | succ links =>
      refine (walk_links hmid links).imp (fun hok => ?_) fun herror =>
        ⟨hlocate.trans herror, parent, x, target, left, mid, hslot, hlink, hmid, hmiddir⟩
      obtain ⟨t, ht⟩ := isDirectoryAt_eq_true_iff.1 hmiddir
      exact present_of_locate (hlocate.trans hok) ht

/-- **What was put in its place is found by its path**, if the steps before its name still lead to its
directory. -/
theorem stat?_of_sets {front : List Component} (hs : fs.Sets (parent ++ [x]) (some (.file data)) fs')
    (hslot : fs.slot .busy dest = .ok (parent ++ [x])) (hslash : dest.endsInSlash = false)
    (hsteps : dest.steps = front ++ [.name x])
    (hwalk : fs'.walk .target maxLinks (fs.startOf dest) (front.map .go) = .ok parent) :
    fs'.stat? dest = some (.file data) := by
  obtain ⟨hfault, hdir, hshort, _⟩ := slot_eq_name hslot
  rw [stat?_eq_some_iff, lookup_eq_ok_iff]
  refine ⟨parent ++ [x], ?_, hs.here⟩
  have hdir' : fs'.isDirectoryAt parent = true := by rwa [hs.isDirectoryAt_eq (by simp)]
  have hstart : fs'.startOf dest = fs.startOf dest := by rw [startOf, hs.workDir, startOf]
  obtain ⟨left, hrest⟩ := walk_rest hwalk [.go (.name x)]
  rw [walk_name hdir' hshort, hs.here] at hrest
  rw [locate, hfault]
  dsimp only
  rw [follow, Path.walkSteps, hsteps, hslash, List.map_append, List.map_singleton, hstart]
  simpa using hrest

end FileSystem

/-! ### Putting a program in place -/

section

open FileSystem Disk

variable {fs fs' : FileSystem} {dest : Path} {bytes : Bytes} {e : IoError} {u : Unit}

theorem installProgram_eq (dest : Path) (bytes : Bytes) : installProgram dest bytes =
    (makeDirectories dest.home >>= fun _ => change fun fs => fs.install dest ⟨bytes, fs.clock, true⟩) := rfl

/-- Making the directory that a program goes to changes nothing, or it leaves an empty one. -/
theorem makeHome_outcome (hroot : fs.Rooted) (hfirm : fs.Firm dest) :
    endOf (makeDirectories dest.home fs) = fs ∨
      ∃ x, (Path.ofComponents dest.components).Extends dest.home x ∧
        EndsClean fs dest.home (makeDirectories dest.home fs) := by
  rcases dest.home_cases with hdot | ⟨n, hn, hhome⟩
  · left
    rw [makeDirectories, ancestors]
    refine endOf_makeFirst_of_nameless fun x hx => ?_
    have hsteps : (⟨"."⟩ : Path).steps = [.here] := by cbv
    rw [hdot, hsteps] at hx
    cases List.mem_singleton.1 hx
  · obtain ⟨front, names, hcomponents, hfront⟩ := hfirm
    rw [hhome, makeDirectories, ancestors_take dest (by omega)]
    rcases List.eq_nil_or_concat names with rfl | ⟨init, x, rfl⟩
    · -- the path has no names at all
      left
      have hnone := hfront.resolve_right fun h => h.1 rfl
      refine endOf_makeFirst_of_nameless fun x hx => hnone x ?_
      have hmem := List.mem_of_mem_take (Path.mem_take_of_mem_steps hx)
      simpa [hcomponents] using hmem
    · right
      rw [List.concat_eq_append] at hcomponents
      obtain rfl : front.length + init.length = n := by
        have hlen := congrArg List.length hcomponents
        simp at hlen
        omega
      have hall : dest.components.take (front.length + init.length + 1) = dest.components := by
        rw [hn, List.take_length]
      have hlast : dest.components.take (front.length + init.length + 1) =
          dest.components.take (front.length + init.length) ++ [.name x] := by
        rw [hall, hcomponents, List.map_append, ← List.append_assoc, List.take_left' (by simp)]
        rfl
      have hext := dest.extends_take hlast
      rw [hall] at hext
      exact ⟨x, hext, endsClean_makeFirst hroot
        (ladder_of_components hcomponents (hfront.imp_right And.right) (by simp))⟩

/-- If a program cannot be put in place, it is left at its directory. -/
theorem endOf_makeHome (h : installProgram dest bytes fs = .error e fs') :
    endOf (makeDirectories dest.home fs) = fs' := by
  rw [installProgram_eq] at h
  rcases bind_eq_error.1 h with hmake | ⟨_, mid, hmake, hinstall⟩
  · rw [hmake]
    rfl
  · rw [hmake]
    unfold change at hinstall
    split at hinstall
    · cases hinstall
    · cases hinstall
      rfl

/-- **A program that cannot be put in place leaves directories at most**, and no part of it anywhere. -/
theorem installProgram_widens (h : installProgram dest bytes fs = .error e fs') : fs.Widens fs' := by
  rw [← endOf_makeHome h]
  exact widens_makeDirectories _ fs

/-- **A program that cannot be put in place is as absent as before.** -/
theorem installProgram_absent (hroot : fs.Rooted) (hfirm : fs.Firm dest)
    (habsent : fs.present dest = false) (h : installProgram dest bytes fs = .error e fs') :
    fs'.present dest = false := by
  have hend := endOf_makeHome h
  rw [Bool.eq_false_iff]
  intro hpresent
  obtain ⟨loc, _, hloc, _⟩ := exists_of_present hpresent
  have hreach := reach_components (reach_of_locate hloc)
  rcases makeHome_outcome hroot hfirm with hsame | ⟨x, hext, houtcome⟩
  · rw [← hend, hsame, habsent] at hpresent
    cases hpresent
  · obtain ⟨mid, _, hmid, hdir, _⟩ := reach_extends hext hreach
    cases hmake : makeDirectories dest.home fs with
    | ok _ fs₁ =>
        rw [hmake] at houtcome hend
        obtain rfl : fs₁ = fs' := hend
        rcases houtcome with rfl | hbare
        · rw [habsent] at hpresent
          cases hpresent
        · exact hbare.not_reach hext loc hreach
    | error e fs₁ =>
        rw [hmake] at houtcome hend
        obtain rfl : fs₁ = fs' := hend
        rcases houtcome with rfl | henters
        · rw [habsent] at hpresent
          cases hpresent
        · exact henters ⟨mid, hmid, hdir⟩

/-- Once the directory of a program was made, the way to it does not pass the program. -/
theorem not_passes_of_makeHome {mid : FileSystem} {parent : Location} {x : String} (hroot : fs.Rooted)
    (hfirm : fs.Firm dest) (habsent : fs.present dest = false) (hlinks : ¬ fs.Overlong dest)
    (hmake : makeDirectories dest.home fs = .ok u mid)
    (hslot : mid.slot .busy dest = .ok (parent ++ [x])) (hslash : dest.endsInSlash = false) :
    ¬ mid.Passes parent x := by
  intro hpasses
  have hsame : mid ≠ fs := by
    rintro rfl
    rcases hpasses.present hslot hslash with hpresent | hmany
    · rw [habsent] at hpresent
      cases hpresent
    · exact hlinks hmany
  rcases makeHome_outcome hroot hfirm with hend | ⟨y, hext, houtcome⟩
  · rw [hmake] at hend
    exact hsame hend
  · rw [hmake] at houtcome
    obtain ⟨home, hhome, hnone⟩ := houtcome.resolve_left hsame
    obtain ⟨_, _, _, front, hsteps, hwalk⟩ := slot_eq_name hslot
    -- nothing is in the directory, so no link is
    have hskips := skips_components dest
    rw [hsteps, hext.2, List.map_append, List.map_append] at hskips
    have hreach : mid.reach dest.home = .ok parent := by
      rw [reach, ← startOf_congr (dest.isAbsolute_ofComponents_components.symm.trans hext.1)]
      exact walk_skip hskips.of_concat hwalk
    obtain rfl := Except.ok.inj (hreach.symm.trans hhome)
    obtain ⟨target, _, _, hlink, _⟩ := hpasses
    rw [hnone [x] (by simp)] at hlink
    cases hlink

/-- **A program that was put in place is found by its path**, unless the way there is overlong. -/
theorem installProgram_found (hroot : fs.Rooted) (hfirm : fs.Firm dest)
    (habsent : fs.present dest = false) (hlinks : ¬ fs.Overlong dest)
    (h : installProgram dest bytes fs = .ok u fs') :
    ∃ data, fs'.stat? dest = some (.file data) ∧ data.bytes = bytes ∧ data.executable = true := by
  rw [installProgram_eq] at h
  obtain ⟨_, mid, hmake, hchange⟩ := bind_eq_ok.1 h
  obtain ⟨loc, hplace, rfl⟩ := install_eq_ok (change_eq_ok hchange)
  obtain ⟨hslot, hslash, hnodir⟩ := movePlace_eq_ok hplace
  obtain ⟨_, front, x, parent, hsteps, hwalk, _, _, rfl⟩ := slot_eq_ok hslot
  have hsets : mid.Sets (parent ++ [x]) (some (.file ⟨bytes, mid.clock, true⟩))
      (mid.replace (parent ++ [x]) (.file ⟨bytes, mid.clock, true⟩)) := sets_replace (by simp) _
  have hfront := (walk_of_sets hsets hnodir hwalk).resolve_right
    (not_passes_of_makeHome hroot hfirm habsent hlinks hmake hslot hslash)
  exact ⟨_, stat?_of_sets hsets hslot hslash hsteps hfront, rfl, rfl⟩

end

end Rebuild
