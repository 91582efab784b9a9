/-
Work that stays below one location.

Every change of a plain file system sets what is at one location, and dates the directory it is in.  So
it can be said of each change what it leaves alone: files that are somewhere else, and the entries at
places that are to be kept, which are at most written anew.

Main definitions:

* `FileSystem.Sets` — **one file system is another with something else at one location**;
* `Workplace` — a location to work below, and places to be kept;
* `Workplace.Leaves` — what work on a plain file system leaves as it was;
* `FileSystem.Gains` — files were put in place and nothing else.

Main results:

* `FileSystem.Sound.of_sets`, `FileSystem.Plain.of_sets` — a change keeps a file system sound, and plain;
* `FileSystem.Plain.makeDirectory`, `FileSystem.Plain.copy`, `FileSystem.Plain.install`,
  `FileSystem.Plain.rename` — **what each operation sets, and where**;
* `Workplace.keepsTo_makeDirectories`, `Workplace.keepsTo_copy`, `Workplace.worksOn_rename` — operations
  that stay below the location;
* `Workplace.Leaves.newestUnderAll?_eq`, `Workplace.Leaves.writtenSince` — what it means for times.
-/
import Rebuild.Proofs.FileSystem.Plain

set_option relaxedAutoImplicit false
set_option autoImplicit false

namespace Rebuild

/-! ### Setting an entry -/

namespace FileSystem

variable {fs fs' mid : FileSystem} {loc l : Location} {n : Node} {o : Option Node} {p q : Path}

/-- The second file system is the first with something else, or nothing, at one location; the directory
it is in may have been dated. -/
structure Sets (fs : FileSystem) (loc : Location) (o : Option Node) (fs' : FileSystem) : Prop where
  workDir : fs'.workDir = fs.workDir
  clock : fs'.clock = fs.clock
  here : fs'.node? loc = o
  elsewhere : ∀ {l}, l ≠ loc → fs'.node? l = fs.node? l ∨
    l = loc.dropLast ∧ fs.isDirectoryAt l = true ∧ fs'.node? l = some (.directory fs.clock)

theorem sets_put (hloc : loc ≠ []) (n : Node) : fs.Sets loc (some n) (fs.put loc n) where
  workDir := rfl
  clock := rfl
  here := by rw [node?_put fs loc loc n hloc, if_pos rfl]
  elsewhere := fun hl => Or.inl (by rw [node?_put fs loc _ n hloc, if_neg hl])

/-- Dating the directory of the location adds nothing. -/
theorem Sets.stampParent (h : fs.Sets loc o fs') (hloc : loc ≠ []) :
    fs.Sets loc o (fs'.stampParent loc) := by
  have hne : loc ≠ loc.dropLast := fun heq => by
    have hlen := congrArg List.length heq
    rw [List.length_dropLast] at hlen
    have := List.length_pos_iff.2 hloc
    omega
  unfold FileSystem.stampParent
  dsimp only
  split
  · rename_i hparent
    refine ⟨h.workDir, h.clock, ?_, fun {l} hl => ?_⟩
    · rw [node?_put _ _ _ _ hparent.1, if_neg hne, h.here]
    · rw [node?_put _ _ _ _ hparent.1]
      split
      · rename_i heq
        subst heq
        right
        refine ⟨rfl, ?_, by rw [h.clock]⟩
        rcases h.elsewhere hl with hsame | ⟨_, hdir, _⟩
        · have hdir := hparent.2
          rwa [isDirectoryAt, hsame] at hdir
        · exact hdir
      · exact h.elsewhere hl
  · exact h

theorem sets_store (hloc : loc ≠ []) (n : Node) : fs.Sets loc (some n) (fs.store loc n) := by
  unfold store
  split
  · exact sets_put hloc n
  · exact (sets_put hloc n).stampParent hloc

/-- The directory is dated only if nothing was there. -/
theorem elsewhere_store (hloc : loc ≠ []) (n : Node) (hl : l ≠ loc) :
    (fs.store loc n).node? l = fs.node? l ∨ fs.node? loc = none ∧ l = loc.dropLast ∧
      fs.isDirectoryAt l = true ∧ (fs.store loc n).node? l = some (.directory fs.clock) := by
  cases hn : fs.node? loc with
  | none =>
      have hsets : fs.Sets loc (some n) (fs.store loc n) := sets_store hloc n
      exact (hsets.elsewhere hl).imp_right fun hdated => ⟨rfl, hdated⟩
  | some m =>
      left
      rw [store, hn, Option.isSome_some, if_pos rfl, node?_put fs loc l n hloc, if_neg hl]

theorem sets_replace (hloc : loc ≠ []) (n : Node) : fs.Sets loc (some n) (fs.replace loc n) :=
  (sets_put hloc n).stampParent hloc

/-- Elsewhere a directory stays one, and nothing becomes one. -/
theorem Sets.isDirectoryAt_eq (h : fs.Sets loc o fs') (hl : l ≠ loc) :
    fs'.isDirectoryAt l = fs.isDirectoryAt l := by
  rcases h.elsewhere hl with hsame | ⟨_, hdir, hdated⟩
  · rw [isDirectoryAt, hsame]
    rfl
  · rw [hdir, isDirectoryAt, hdated]
    rfl

/-- Every other entry was there before. -/
theorem Sets.exists_before (h : fs.Sets loc o fs') (hl : l ≠ loc) (hn : fs'.node? l = some n) :
    fs.node? l = some n ∨ fs.isDirectoryAt l = true ∧ n = .directory fs.clock := by
  rcases h.elsewhere hl with hsame | ⟨_, hdir, hdated⟩
  · exact Or.inl (hsame ▸ hn)
  · exact Or.inr ⟨hdir, Option.some.inj (hn.symm.trans hdated)⟩

/-- What is no directory is set only where something is set. -/
theorem Sets.node?_iff (h : fs.Sets loc o fs') (hl : l ≠ loc) (hn : n.isDirectory = false) :
    fs'.node? l = some n ↔ fs.node? l = some n := by
  rcases h.elsewhere hl with hsame | ⟨_, hdir, hdated⟩
  · rw [hsame]
  · obtain ⟨t, ht⟩ := isDirectoryAt_eq_true_iff.1 hdir
    rw [hdated, ht]
    constructor
    · rintro ⟨⟩
      cases hn
    · rintro ⟨⟩
      cases hn

theorem Sets.file_iff (h : fs.Sets loc o fs') (hl : l ≠ loc) {data : FileData} :
    fs'.node? l = some (.file data) ↔ fs.node? l = some (.file data) :=
  h.node?_iff hl rfl

/-- Removing what is no directory removes one entry. -/
theorem Rooted.sets_remove (h : fs.Rooted) (hloc : loc ≠ []) (hdir : fs.isDirectoryAt loc = false) :
    fs.Sets loc none (fs.remove loc) := by
  refine Sets.stampParent ⟨rfl, rfl, ?_, fun {l} hl => Or.inl ?_⟩ hloc
  · simp [node?_dropTree _ _ _ hloc, List.isPrefixOf_iff_prefix]
  · rw [node?_dropTree _ _ _ hloc]
    split
    · rename_i hbelow
      -- nothing is below what is no directory
      obtain ⟨rel, rfl⟩ := List.isPrefixOf_iff_prefix.1 hbelow
      cases hn : fs.node? (loc ++ rel) with
      | none => rfl
      | some n =>
          have hrel : rel ≠ [] := fun hnil => hl (by simp [hnil])
          exact absurd (h.above hn hrel) (Bool.eq_false_iff.1 hdir)
    · rfl

/-- **A change in a directory keeps a file system rooted**, unless it takes a directory away. -/
theorem Rooted.of_sets (h : fs.Rooted) (hs : fs.Sets loc o fs') (hdir : fs.isDirectoryAt loc = false)
    (hparent : ∀ n, o = some n → fs.isDirectoryAt loc.dropLast = true) : fs'.Rooted := by
  have hstays : ∀ {l}, fs.isDirectoryAt l = true → fs'.isDirectoryAt l = true := by
    intro l hl
    have hne : l ≠ loc := by
      rintro rfl
      exact Bool.false_ne_true (hdir.symm.trans hl)
    rwa [hs.isDirectoryAt_eq hne]
  refine ⟨fun {l n} hn => hstays ?_⟩
  by_cases hl : l = loc
  · subst hl
    exact hparent n (hs.here.symm.trans hn)
  · rcases hs.exists_before hl hn with hold | ⟨hold, _⟩
    · exact h.parent hold
    · obtain ⟨t, ht⟩ := isDirectoryAt_eq_true_iff.1 hold
      exact h.parent ht

/-- **A change in a directory keeps a file system sound**, unless it takes a directory away. -/
theorem Sound.of_sets (h : fs.Sound) (hs : fs.Sets loc o fs') (hdir : fs.isDirectoryAt loc = false)
    (ho : ∀ n, o = some n → fs.Room loc) : fs'.Sound := by
  have hparent : ∀ n, o = some n → fs.isDirectoryAt loc.dropLast = true := by
    intro n hn
    obtain ⟨parent, x, rfl, hparent, _⟩ := ho n hn
    rwa [List.dropLast_concat]
  refine ⟨(h.rooted.of_sets hs hdir hparent).parent, fun {l n} hn x hx => ?_, ?_⟩
  · by_cases hl : l = loc
    · subst hl
      obtain ⟨parent, y, rfl, hparent, hy⟩ := ho n (hs.here.symm.trans hn)
      obtain ⟨t, ht⟩ := isDirectoryAt_eq_true_iff.1 hparent
      rcases List.mem_append.1 hx with hx | hx
      · exact h.isName ht x hx
      · rwa [List.mem_singleton.1 hx]
    · -- every other entry was there before, perhaps with another time
      rcases hs.exists_before hl hn with hold | ⟨hold, _⟩
      · exact h.isName hold x hx
      · obtain ⟨t, ht⟩ := isDirectoryAt_eq_true_iff.1 hold
        exact h.isName ht x hx
  · have hne : fs.workDir ≠ loc := by
      rintro heq
      exact Bool.false_ne_true ((heq ▸ hdir).symm.trans h.workDir)
    rw [hs.workDir, hs.isDirectoryAt_eq hne]
    exact h.workDir

theorem Sound.elapse (h : fs.Sound) (nanos : ℕ) : (fs.elapse nanos).Sound :=
  ⟨h.parent, h.isName, h.workDir⟩

namespace Plain

/-- **A change keeps a file system plain**, unless it takes a directory away or sets a link. -/
theorem of_sets (h : fs.Plain) (hs : fs.Sets loc o fs') (hdir : fs.isDirectoryAt loc = false)
    (ho : ∀ n, o = some n → n.isLink = false ∧ fs.Room loc) : fs'.Plain := by
  have hsound := h.sound.of_sets hs hdir fun n hn => (ho n hn).2
  refine ⟨fun {l n} hn => ?_, hsound.parent, hsound.isName, hsound.workDir⟩
  by_cases hl : l = loc
  · subst hl
    exact (ho n (hs.here.symm.trans hn)).1
  · rcases hs.exists_before hl hn with hold | ⟨_, rfl⟩
    · exact h.noLink hold
    · rfl

theorem elapse (h : fs.Plain) (nanos : ℕ) : (fs.elapse nanos).Plain :=
  ⟨h.noLink, h.parent, h.isName, h.workDir⟩

/-! ### Operations -/

/-- **A directory is made where nothing was.** -/
theorem makeDirectory (h : fs.Plain) (hok : fs.makeDirectory p = .ok fs') :
    fs.Room (p.place fs.workDir) ∧ fs.node? (p.place fs.workDir) = none ∧
      fs.Sets (p.place fs.workDir) (some (.directory fs.clock)) fs' := by
  unfold FileSystem.makeDirectory at hok
  cases hslot : fs.slot .alreadyExists p with
  | error e =>
      rw [hslot] at hok
      cases hok
  | ok loc =>
      simp only [hslot, bind, Except.bind] at hok
      split at hok
      · cases hok
      · rename_i hnone
        obtain rfl := Except.ok.inj hok
        obtain ⟨rfl, hroom⟩ := h.slot hslot
        exact ⟨hroom, hnone, sets_store hroom.ne_nil _⟩

/-- **A copy is written at the place of its target**, with the current time. -/
theorem copy (h : fs.Plain) (hok : fs.copy p q = .ok fs') : ∃ data : FileData, data.time = fs.clock ∧
    fs.Room (q.place fs.workDir) ∧ fs.isDirectoryAt (q.place fs.workDir) = false ∧
    fs.Sets (q.place fs.workDir) (some (.file data)) fs' := by
  unfold FileSystem.copy at hok
  cases hread : fs.readFile p with
  | error e =>
      rw [hread] at hok
      cases hok
  | ok data =>
      cases hsource : fs.locate .target p with
      | error e =>
          simp only [hread, hsource, bind, Except.bind] at hok
          cases hok
      | ok place =>
          cases hplace : fs.writePlace q with
          | error e =>
              simp only [hread, hsource, hplace, bind, Except.bind] at hok
              cases hok
          | ok loc =>
              simp only [hread, hsource, hplace, bind, Except.bind, Except.ok.injEq] at hok
              obtain ⟨rfl, hroom, hdir⟩ := h.writePlace hplace
              subst hok
              exact ⟨_, rfl, hroom, hdir, sets_store hroom.ne_nil _⟩

theorem of_copy (h : fs.Plain) (hok : fs.copy p q = .ok fs') : fs'.Plain := by
  obtain ⟨_, _, hroom, hdir, hs⟩ := h.copy hok
  refine h.of_sets hs hdir ?_
  rintro n ⟨⟩
  exact ⟨rfl, hroom⟩

theorem writeFile {data : FileData} (h : fs.Plain) (hok : fs.writeFile p data = .ok fs') :
    fs.Room (p.place fs.workDir) ∧ fs.isDirectoryAt (p.place fs.workDir) = false ∧
      fs.Sets (p.place fs.workDir) (some (.file data)) fs' := by
  unfold FileSystem.writeFile at hok
  cases hplace : fs.writePlace p with
  | error e =>
      rw [hplace] at hok
      cases hok
  | ok loc =>
      simp only [hplace, bind, Except.bind, Except.ok.injEq] at hok
      obtain ⟨rfl, hroom, hdir⟩ := h.writePlace hplace
      subst hok
      exact ⟨hroom, hdir, sets_store hroom.ne_nil _⟩

theorem install {data : FileData} (h : fs.Plain) (hok : fs.install p data = .ok fs') :
    fs.Room (p.place fs.workDir) ∧ fs.isDirectoryAt (p.place fs.workDir) = false ∧
      fs.Sets (p.place fs.workDir) (some (.file data)) fs' := by
  unfold FileSystem.install at hok
  cases hplace : fs.movePlace p with
  | error e =>
      rw [hplace] at hok
      cases hok
  | ok loc =>
      simp only [hplace, bind, Except.bind, Except.ok.injEq] at hok
      obtain ⟨rfl, hroom, hdir⟩ := h.movePlace hplace
      subst hok
      exact ⟨hroom, hdir, sets_replace hroom.ne_nil _⟩

/-- **A file that is moved is taken from one place and put at the other.** -/
theorem rename {data : FileData} (h : fs.Plain)
    (hfile : fs.node? (p.place fs.workDir) = some (.file data))
    (hok : fs.rename p q = .ok fs') : fs' = fs ∨ ∃ mid, mid.Plain ∧
      fs.Sets (p.place fs.workDir) none mid ∧ fs'.Plain ∧
      mid.Sets (q.place fs.workDir) (some (.file data)) fs' := by
  unfold FileSystem.rename at hok
  cases hplace : fs.locate .entry p with
  | error e =>
      rw [hplace] at hok
      cases hok
  | ok place =>
      obtain ⟨rfl, _⟩ := h.locate (by simp) hplace
      simp only [hplace, hfile, bind, Except.bind] at hok
      cases hmove : fs.movePlace q with
      | error e =>
          rw [hmove] at hok
          cases hok
      | ok loc =>
          obtain ⟨rfl, hroom, hdir⟩ := h.movePlace hmove
          simp only [hmove] at hok
          split at hok
          · exact Or.inl (Except.ok.inj hok).symm
          · rename_i hne
            obtain rfl := Except.ok.inj hok
            have hnodir : fs.isDirectoryAt (p.place fs.workDir) = false := by
              rw [FileSystem.isDirectoryAt, hfile]
              rfl
            have hnil : p.place fs.workDir ≠ [] := by
              intro hnil
              rw [hnil] at hnodir
              cases hnodir
            have hremove := h.rooted.sets_remove hnil hnodir
            have hmid : (fs.remove (p.place fs.workDir)).Plain :=
              h.of_sets hremove hnodir fun n hn => by cases hn
            -- the directory that it goes to is not what was removed
            have hroom' : (fs.remove (p.place fs.workDir)).Room (q.place fs.workDir) := by
              obtain ⟨parent, x, heq, hparent, hx⟩ := hroom
              have hother : parent ≠ p.place fs.workDir := by
                rintro rfl
                exact Bool.false_ne_true (hnodir.symm.trans hparent)
              exact ⟨parent, x, heq, by rwa [hremove.isDirectoryAt_eq hother], hx⟩
            have hdir' := (hremove.isDirectoryAt_eq hne).trans hdir
            have hsets : (fs.remove (p.place fs.workDir)).Sets (q.place fs.workDir) _ _ :=
              sets_replace hroom'.ne_nil (.file data)
            exact Or.inr ⟨_, hmid, hremove,
              hmid.of_sets hsets hdir' (by rintro n ⟨⟩; exact ⟨rfl, hroom'⟩), hsets⟩

end Plain

end FileSystem

/-- What the path leads to is there and was not written before some time. -/
def FileSystem.WrittenSince (fs : FileSystem) (since : Time) (p : Path) : Prop :=
  ∃ t, fs.timeOf? p = some t ∧ since ≤ t

theorem FileSystem.WrittenSince.mono {fs : FileSystem} {since earlier : Time} {p : Path}
    (h : fs.WrittenSince since p) (hle : earlier ≤ since) : fs.WrittenSince earlier p := by
  obtain ⟨t, ht, hsince⟩ := h
  exact ⟨t, ht, Time.le_trans hle hsince⟩

/-! ### Workplaces -/

/-- Where work is done, and which places have to be kept. -/
structure Workplace where
  /-- Where relative paths start. -/
  workDir : Location
  /-- All work is done below this location. -/
  out : Location
  kept : Location → Prop

/-- At the place of the entry there is one that is as old as it was, or written since. -/
def Node.Renewed (since : Time) (n n' : Node) : Prop :=
  n'.time? = n.time? ∨ ∃ t, n'.time? = some t ∧ since ≤ t

namespace Workplace

variable {k : Workplace} {fs fs' fs'' : FileSystem} {loc : Location} {o : Option Node} {p q : Path}

/-- Work can be done on the file system. -/
structure Ready (k : Workplace) (fs : FileSystem) : Prop where
  plain : fs.Plain
  workDir : fs.workDir = k.workDir

/-- **What work leaves**: the file system stays plain, files elsewhere are what they were, and what is
kept is there, perhaps written anew. -/
structure Leaves (k : Workplace) (fs fs' : FileSystem) : Prop where
  ready : k.Ready fs'
  clock : fs.clock ≤ fs'.clock
  outside : ∀ {loc data}, ¬ k.out <+: loc →
    (fs'.node? loc = some (.file data) ↔ fs.node? loc = some (.file data))
  kept : ∀ {loc n}, k.kept loc → fs.node? loc = some n →
    ∃ n', fs'.node? loc = some n' ∧ n.Renewed fs.clock n'

/-- Whatever was ready for work is left so. -/
def WorksOn (k : Workplace) (fs fs' : FileSystem) : Prop := k.Ready fs → k.Leaves fs fs'

theorem Leaves.refl (h : k.Ready fs) : k.Leaves fs fs :=
  ⟨h, Time.le_refl _, fun _ => Iff.rfl, fun _ hn => ⟨_, hn, Or.inl rfl⟩⟩

theorem Leaves.trans (h : k.Leaves fs fs') (h' : k.Leaves fs' fs'') : k.Leaves fs fs'' where
  ready := h'.ready
  clock := Time.le_trans h.clock h'.clock
  outside := fun hout => (h'.outside hout).trans (h.outside hout)
  kept := fun {loc n} hkept hn => by
    obtain ⟨n', hn', hrenewed⟩ := h.kept hkept hn
    obtain ⟨n'', hn'', hrenewed'⟩ := h'.kept hkept hn'
    refine ⟨n'', hn'', ?_⟩
    rcases hrenewed' with hsame | ⟨t, ht, hle⟩
    · rcases hrenewed with hsame' | ⟨t, ht, hle⟩
      · exact Or.inl (hsame.trans hsame')
      · exact Or.inr ⟨t, hsame.trans ht, hle⟩
    · exact Or.inr ⟨t, ht, Time.le_trans h.clock hle⟩

instance : IsPreorder FileSystem k.WorksOn where
  refl := fun _ h => Leaves.refl h
  trans := fun _ _ _ h h' hready => (h hready).trans (h' (h hready).ready)

/-- **A change leaves what it does not touch**: it is made below the location, or no file is there
before or after it; and what is kept is set only to something new. -/
theorem leaves_of_sets (h : k.Ready fs) (hs : fs.Sets loc o fs') (hplain : fs'.Plain)
    (hout : k.out <+: loc ∨ ∀ data : FileData, o ≠ some (.file data) ∧ fs.node? loc ≠ some (.file data))
    (hkept : k.kept loc → ∀ n, fs.node? loc = some n → ∃ n', o = some n' ∧ n.Renewed fs.clock n') :
    k.Leaves fs fs' where
  ready := ⟨hplain, hs.workDir.trans h.workDir⟩
  clock := hs.clock ▸ Time.le_refl _
  outside := fun {l data} hl => by
    by_cases heq : l = loc
    · subst heq
      obtain ⟨hafter, hbefore⟩ := hout.resolve_left hl data
      rw [hs.here]
      exact iff_of_false hafter hbefore
    · exact hs.file_iff heq
  kept := fun {l n} hl hn => by
    by_cases heq : l = loc
    · subst heq
      rw [hs.here]
      exact hkept hl n hn
    · rcases hs.elsewhere heq with hsame | ⟨_, _, hdated⟩
      · exact ⟨n, hsame.trans hn, Or.inl rfl⟩
      · exact ⟨_, hdated, Or.inr ⟨fs.clock, rfl, Time.le_refl _⟩⟩

theorem worksOn_makeDirectory (hok : fs.makeDirectory p = .ok fs') : k.WorksOn fs fs' := by
  intro h
  obtain ⟨hroom, hnone, hs⟩ := h.plain.makeDirectory hok
  have hnodir : fs.isDirectoryAt (p.place fs.workDir) = false := by
    rw [FileSystem.isDirectoryAt, hnone]
    rfl
  refine leaves_of_sets h hs (h.plain.of_sets hs hnodir ?_) (Or.inr fun data => ?_) fun _ n hn => ?_
  · rintro n ⟨⟩
    exact ⟨rfl, hroom⟩
  · simp [hnone]
  · rw [hnone] at hn
    cases hn

/-- **Making directories does not interfere**, wherever they are. -/
theorem keepsTo_makeDirectories (k : Workplace) (p : Path) :
    KeepsTo k.WorksOn (Disk.makeDirectories p) :=
  Disk.keepsTo_makeFirst fun _ => worksOn_makeDirectory

/-- A copy below the location writes what is kept anew, at most. -/
theorem worksOn_copy (hout : k.out <+: q.place k.workDir) (hok : fs.copy p q = .ok fs') :
    k.WorksOn fs fs' := by
  intro h
  obtain ⟨data, htime, hroom, hdir, hs⟩ := h.plain.copy hok
  rw [← h.workDir] at hout
  refine leaves_of_sets h hs (h.plain.of_sets hs hdir ?_) (Or.inl hout) fun _ n _ => ?_
  · rintro n ⟨⟩
    exact ⟨rfl, hroom⟩
  · exact ⟨_, rfl, Or.inr ⟨data.time, rfl, htime ▸ Time.le_refl _⟩⟩

theorem keepsTo_copy (hout : k.out <+: q.place k.workDir) (p : Path) :
    KeepsTo k.WorksOn (Disk.change (·.copy p q)) :=
  Disk.keepsTo_change (r := k.WorksOn) (worksOn_copy hout)

/-- A file is moved below the location, from and to places that are not kept. -/
theorem worksOn_rename {data : FileData} (hfile : fs.node? (p.place fs.workDir) = some (.file data))
    (hp : k.out <+: p.place k.workDir) (hq : k.out <+: q.place k.workDir)
    (hpkept : ¬ k.kept (p.place k.workDir)) (hqkept : ¬ k.kept (q.place k.workDir))
    (hok : fs.rename p q = .ok fs') : k.WorksOn fs fs' := by
  intro h
  rw [← h.workDir] at hp hq hpkept hqkept
  rcases h.plain.rename hfile hok with rfl | ⟨mid, hmid, hremove, hplain, hput⟩
  · exact Leaves.refl h
  · have hfirst := leaves_of_sets h hremove hmid (Or.inl hp) fun hkept => absurd hkept hpkept
    exact hfirst.trans (leaves_of_sets hfirst.ready hput hplain (Or.inl hq)
      fun hkept => absurd hkept hqkept)

/-! ### Times -/

/-- **The newest file of trees that lie elsewhere is the same.** -/
theorem Leaves.newestUnderAll?_eq (h : k.Leaves fs fs') (hready : k.Ready fs) {ps : List Path}
    (hps : ∀ p ∈ ps, p.Direct ∧ ¬ p.place k.workDir <+: k.out ∧ ¬ k.out <+: p.place k.workDir) :
    fs'.newestUnderAll? ps = fs.newestUnderAll? ps := by
  refine hready.plain.newestUnderAll?_congr h.ready.plain (h.ready.workDir.trans hready.workDir.symm)
    (fun p hp => (hps p hp).1) fun p hp rel data => ?_
  obtain ⟨_, hin, hcontain⟩ := hps p hp
  rw [hready.workDir]
  have hout : ¬ k.out <+: p.place k.workDir ++ rel := by
    intro hprefix
    rcases List.prefix_or_prefix_of_prefix hprefix (List.prefix_append _ rel) with hle | hle
    · exact hcontain hle
    · exact hin hle
  exact h.outside hout

/-- **What is kept and was written since some time was still written since then.** -/
theorem Leaves.writtenSince (h : k.Leaves fs fs') (hready : k.Ready fs) (hp : p.Direct)
    (hkept : k.kept (p.place k.workDir)) {since : Time} (hsince : since ≤ fs.clock)
    (hwritten : fs.WrittenSince since p) : fs'.WrittenSince since p := by
  obtain ⟨t, ht, hle⟩ := hwritten
  obtain ⟨hfollow, n, hn, htime⟩ := (hready.plain.timeOf?_eq_some_iff hp).1 ht
  rw [hready.workDir] at hn
  obtain ⟨n', hn', hrenewed⟩ := h.kept hkept hn
  have hafter : ∀ t', n'.time? = some t' → fs'.timeOf? p = some t' := fun t' ht' =>
    (h.ready.plain.timeOf?_eq_some_iff hp).2 ⟨hfollow, n', h.ready.workDir ▸ hn', ht'⟩
  rcases hrenewed with hsame | ⟨t', ht', hlater⟩
  · exact ⟨t, hafter t (hsame.trans htime), hle⟩
  · exact ⟨t', hafter t' ht', Time.le_trans hsince hlater⟩

end Workplace

/-! ### New files -/

namespace FileSystem

variable {fs fs' fs'' : FileSystem} {loc : Location} {n : Node} {p : Path}

/-- The file system stays plain, files stay files, and a new file is not of a later time than now. -/
structure Gains (fs fs' : FileSystem) : Prop where
  plain : fs'.Plain
  workDir : fs'.workDir = fs.workDir
  clock : fs.clock ≤ fs'.clock
  stays : ∀ {loc data}, fs.node? loc = some (.file data) → ∃ data', fs'.node? loc = some (.file data')
  dated : ∀ {loc data}, fs'.node? loc = some (.file data) →
    fs.node? loc = some (.file data) ∨ data.time ≤ fs'.clock

/-- A plain file system only gains files. -/
def OnlyGains (fs fs' : FileSystem) : Prop := fs.Plain → fs.Gains fs'

instance : IsPreorder FileSystem OnlyGains where
  refl := fun _ h => ⟨h, rfl, Time.le_refl _, fun hn => ⟨_, hn⟩, Or.inl⟩
  trans := fun _ _ _ h h' hplain => by
    have hfirst := h hplain
    have hsecond := h' hfirst.plain
    refine ⟨hsecond.plain, hsecond.workDir.trans hfirst.workDir,
      Time.le_trans hfirst.clock hsecond.clock, fun hn => ?_, fun hn => ?_⟩
    · obtain ⟨_, hn'⟩ := hfirst.stays hn
      exact hsecond.stays hn'
    · rcases hsecond.dated hn with hn' | hle
      · exact (hfirst.dated hn').imp_right fun hle => Time.le_trans hle hsecond.clock
      · exact Or.inr hle

theorem onlyGains_elapse (fs : FileSystem) (nanos : ℕ) : fs.OnlyGains (fs.elapse nanos) := fun h =>
  ⟨h.elapse nanos, rfl, Int.le_add_of_nonneg_right (Int.natCast_nonneg nanos), fun hn => ⟨_, hn⟩,
    Or.inl⟩

/-- A change gains a file if it sets one of the current time, or a directory where no file was. -/
theorem gains_of_sets (h : fs.Plain) (hs : fs.Sets loc (some n) fs') (hroom : fs.Room loc)
    (hdir : fs.isDirectoryAt loc = false)
    (hn : (∃ data, n = .file data ∧ data.time = fs.clock) ∨
      ∃ t, n = .directory t ∧ fs.node? loc = none) : fs.Gains fs' := by
  have hplain : fs'.Plain := by
    refine h.of_sets hs hdir ?_
    rintro n ⟨⟩
    rcases hn with ⟨data, rfl, _⟩ | ⟨t, rfl, _⟩
    · exact ⟨rfl, hroom⟩
    · exact ⟨rfl, hroom⟩
  refine ⟨hplain, hs.workDir, hs.clock ▸ Time.le_refl _, fun {l data} hl => ?_, fun {l data} hl => ?_⟩
  · by_cases heq : l = loc
    · subst heq
      rcases hn with ⟨data', rfl, _⟩ | ⟨_, _, hnone⟩
      · exact ⟨data', hs.here⟩
      · rw [hnone] at hl
        cases hl
    · exact ⟨data, (hs.file_iff heq).2 hl⟩
  · by_cases heq : l = loc
    · subst heq
      rw [hs.here] at hl
      obtain rfl := Option.some.inj hl
      rcases hn with ⟨data', heq, htime⟩ | ⟨_, heq, _⟩
      · obtain rfl := Node.file.inj heq
        exact Or.inr (by rw [htime, hs.clock]; exact Time.le_refl _)
      · cases heq
    · exact Or.inl ((hs.file_iff heq).1 hl)

theorem onlyGains_makeDirectory (hok : fs.makeDirectory p = .ok fs') : fs.OnlyGains fs' := by
  intro h
  obtain ⟨hroom, hnone, hs⟩ := h.makeDirectory hok
  refine gains_of_sets h hs hroom ?_ (Or.inr ⟨_, rfl, hnone⟩)
  rw [isDirectoryAt, hnone]
  rfl

theorem onlyGains_install {data : FileData} (htime : data.time = fs.clock)
    (hok : fs.install p data = .ok fs') : fs.OnlyGains fs' := by
  intro h
  obtain ⟨hroom, hdir, hs⟩ := h.install hok
  exact gains_of_sets h hs hroom hdir (Or.inl ⟨data, rfl, htime⟩)

/-- **If no source was of a later time than now, none is**; where there is no source, the epoch counts. -/
theorem Gains.newest_le (h : fs.Gains fs') (hplain : fs.Plain) {ps : List Path}
    (hps : ∀ p ∈ ps, p.Direct) (hle : (fs.newestUnderAll? ps).getD .epoch ≤ fs.clock) :
    (fs'.newestUnderAll? ps).getD .epoch ≤ fs'.clock := by
  rw [hplain.newestUnderAll?_eq ps] at hle
  rw [h.plain.newestUnderAll?_eq ps]
  cases hafter : Time.latest? (ps.flatMap fs'.fileTimes) with
  | some t =>
      obtain ⟨p, hp, ht⟩ := List.mem_flatMap.1 (Time.latest?_eq_some hafter).1
      obtain ⟨hfollow, rel, data, hn, hread, rfl⟩ := (h.plain.mem_fileTimes (hps p hp)).1 ht
      rw [h.workDir] at hn
      rcases h.dated hn with hold | hdated
      · have hmem : data.time ∈ ps.flatMap fs.fileTimes := List.mem_flatMap.2
          ⟨p, hp, (hplain.mem_fileTimes (hps p hp)).2 ⟨hfollow, rel, data, hold, hread, rfl⟩⟩
        obtain ⟨t, hlatest, hmax⟩ := Time.exists_latest? hmem
        rw [hlatest] at hle
        exact Time.le_trans hmax (Time.le_trans hle h.clock)
      · exact hdated
  | none =>
      -- files stay files, so there were none before
      have hnone : Time.latest? (ps.flatMap fs.fileTimes) = none := by
        rw [Time.latest?_eq_none_iff, List.eq_nil_iff_forall_not_mem]
        intro t ht
        obtain ⟨p, hp, ht⟩ := List.mem_flatMap.1 ht
        obtain ⟨hfollow, rel, data, hn, hread, _⟩ := (hplain.mem_fileTimes (hps p hp)).1 ht
        obtain ⟨data', hn'⟩ := h.stays hn
        rw [← h.workDir] at hn'
        have hmem : data'.time ∈ ps.flatMap fs'.fileTimes := List.mem_flatMap.2
          ⟨p, hp, (h.plain.mem_fileTimes (hps p hp)).2 ⟨hfollow, rel, data', hn', hread, rfl⟩⟩
        rw [Time.latest?_eq_none_iff.1 hafter] at hmem
        cases hmem
      rw [hnone] at hle
      exact Time.le_trans hle h.clock

end FileSystem

end Rebuild
