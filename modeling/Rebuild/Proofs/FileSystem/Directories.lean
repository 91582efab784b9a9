/-
What making directories leaves alone.

A directory that is made takes a place where nothing was, and dates the directory it is in.  So every
walk that got somewhere still gets there, every file and every link is as it was, and the sources of a
module can only look newer than before.

Main definitions:

* `FileSystem.Grows` — **one file system is another with directories made or dated**;
* `NoLater` — times of which some may be missing.

Main results:

* `Disk.keepsTo_makeDirectories` — making directories only grows a file system, also if it fails;
* `FileSystem.Grows.locate` — paths lead where they led;
* `FileSystem.Grows.newestUnderAll?` — **the newest source is no older than before**.
-/
import Rebuild.Proofs.FileSystem.Retaining
import Rebuild.Proofs.FileSystem.Scan
import Rebuild.Proofs.Action

set_option relaxedAutoImplicit false
set_option autoImplicit false

namespace Rebuild

/-! ### Growing -/

namespace FileSystem

variable {fs fs' fs'' : FileSystem} {loc cur : Location} {n : Node} {p : Path} {t : Time}

/-- The second file system is the first with directories made or dated; time may have passed. -/
structure Grows (fs fs' : FileSystem) : Prop where
  workDir : fs'.workDir = fs.workDir
  entry : ∀ {loc n}, fs.node? loc = some n → n.isDirectory = false → fs'.node? loc = some n
  directory : ∀ {loc}, fs.isDirectoryAt loc = true → fs'.isDirectoryAt loc = true

theorem Grows.refl (fs : FileSystem) : fs.Grows fs := ⟨rfl, fun h _ => h, fun h => h⟩

theorem Grows.trans (h : fs.Grows fs') (h' : fs'.Grows fs'') : fs.Grows fs'' where
  workDir := h'.workDir.trans h.workDir
  entry := fun hn hdir => h'.entry (h.entry hn hdir) hdir
  directory := fun hdir => h'.directory (h.directory hdir)

theorem grows_elapse (fs : FileSystem) (nanos : ℕ) : fs.Grows (fs.elapse nanos) :=
  ⟨rfl, fun h _ => h, fun h => h⟩

/-- A directory takes a place where nothing but a directory was. -/
theorem grows_put (hloc : loc ≠ []) (h : ∀ n, fs.node? loc = some n → n.isDirectory = true) :
    fs.Grows (fs.put loc (.directory t)) := by
  refine ⟨rfl, fun {l n} hn hdir => ?_, fun {l} hdir => ?_⟩
  · rw [node?_put fs loc l _ hloc]
    have hne : l ≠ loc := by
      rintro rfl
      rw [h n hn] at hdir
      cases hdir
    rwa [if_neg hne]
  · rw [isDirectoryAt, node?_put fs loc l _ hloc]
    split
    · rfl
    · exact hdir

theorem grows_stampParent (fs : FileSystem) (loc : Location) : fs.Grows (fs.stampParent loc) := by
  unfold stampParent
  dsimp only
  split
  · rename_i h
    refine grows_put h.1 fun n hn => ?_
    have hdir := h.2
    rw [isDirectoryAt, hn] at hdir
    exact hdir
  · exact Grows.refl fs

/-- **Where a new entry stands**: under the last name of its path, in the directory that the steps before
it lead to. -/
theorem slot_eq_ok {blocked : IoError} (h : fs.slot blocked p = .ok loc) : p.fault? = none ∧
    ∃ (front : List Component) (x : String) (parent : Location), p.steps = front ++ [.name x] ∧
      fs.walk .target maxLinks (fs.startOf p) (front.map .go) = .ok parent ∧
      fs.isDirectoryAt parent = true ∧ ¬ maxNameLength < x.utf8ByteSize ∧ loc = parent ++ [x] := by
  unfold slot at h
  split at h
  · cases h
  · rename_i hfault
    refine ⟨hfault, p.steps.dropLast, ?_⟩
    cases hwalk : fs.walk .target maxLinks (fs.startOf p) (p.steps.dropLast.map .go) with
    | error e =>
        rw [hwalk] at h
        cases h
    | ok parent =>
        simp only [hwalk, bind, Except.bind] at h
        split at h
        · rename_i hdir
          split at h
          · rename_i x hlast
            split at h
            · cases h
            · rename_i hshort
              obtain ⟨front, hsteps⟩ := List.getLast?_eq_some_iff.1 hlast
              refine ⟨x, parent, ?_, rfl, hdir, hshort, (Except.ok.inj h).symm⟩
              rw [hsteps, List.dropLast_concat]
          · cases h
        · cases h

theorem slot_ne_nil {blocked : IoError} (h : fs.slot blocked p = .ok loc) : loc ≠ [] := by
  obtain ⟨_, _, _, _, _, _, _, _, rfl⟩ := slot_eq_ok h
  simp

theorem grows_makeDirectory (h : fs.makeDirectory p = .ok fs') : fs.Grows fs' := by
  unfold makeDirectory at h
  cases hslot : fs.slot .alreadyExists p with
  | error e =>
      rw [hslot] at h
      cases h
  | ok loc =>
      simp only [hslot, bind, Except.bind] at h
      split at h
      · cases h
      · rename_i hnone
        obtain rfl := Except.ok.inj h
        rw [store, hnone]
        refine (grows_put (slot_ne_nil hslot) ?_).trans (grows_stampParent _ loc)
        intro n hn
        rw [hnone] at hn
        cases hn

instance : IsPreorder FileSystem Grows where
  refl := Grows.refl
  trans := fun _ _ _ => Grows.trans

end FileSystem

namespace Disk

theorem endOf_settle (p : Path) (e : IoError) (fs : FileSystem) : endOf (settle p e fs) = fs := by
  unfold settle
  split <;> rfl

section

variable {r : FileSystem → FileSystem → Prop} [IsPreorder FileSystem r]

theorem endOf_change {f : FileSystem → Except IoError FileSystem} {fs : FileSystem}
    (hf : ∀ {fs'}, f fs = .ok fs' → r fs fs') : r fs (endOf (change f fs)) := by
  unfold change
  cases h : f fs with
  | error e => exact refl fs
  | ok fs' => exact hf h

theorem keepsTo_change {f : FileSystem → Except IoError FileSystem}
    (hf : ∀ {fs fs'}, f fs = .ok fs' → r fs fs') : KeepsTo r (change f) := fun _ => endOf_change hf

/-- What making one directory keeps to, making several does, also if it fails on the way. -/
theorem keepsTo_makeFirst {ps : List Path}
    (hmake : ∀ {fs fs' p}, p ∈ ps → fs.makeDirectory p = .ok fs' → r fs fs') :
    KeepsTo r (makeFirst ps) := by
  induction ps with
  | nil => exact KeepsTo.throw _
  | cons p above ih =>
      intro fs
      rw [makeFirst]
      split
      · exact refl fs
      · dsimp only
        split
        · rename_i fs' hdone
          exact hmake (List.mem_cons_self ..) hdone
        · -- the directories above are made first, and then this one is tried again
          have habove := ih (fun hp => hmake (List.mem_cons_of_mem _ hp)) fs
          split
          · rename_i e fs' hfail
            rwa [hfail] at habove
          · rename_i fs' hdone
            rw [hdone] at habove
            split
            · rename_i fs'' hagain
              exact IsTrans.trans _ _ _ habove (hmake (List.mem_cons_self ..) hagain)
            · rw [endOf_settle]
              exact habove
        · rw [endOf_settle]
          exact refl fs

end

/-- **Making directories only grows a file system**, and what was made stays if it fails. -/
theorem keepsTo_makeDirectories (p : Path) : KeepsTo FileSystem.Grows (makeDirectories p) :=
  keepsTo_makeFirst fun _ => FileSystem.grows_makeDirectory

end Disk

/-! ### Walks -/

namespace FileSystem

variable {fs fs' : FileSystem} {goal : Goal} {cur loc : Location} {n : Node} {p : Path}

/-- An entry that a walk passes is still there and still of its kind. -/
theorem Grows.node? (h : fs.Grows fs') (hn : fs.node? loc = some n) :
    fs'.node? loc = some n ∨ (n.isDirectory = true ∧ ∃ t, fs'.node? loc = some (.directory t)) := by
  cases hdir : n.isDirectory with
  | false => exact Or.inl (h.entry hn hdir)
  | true =>
      right
      refine ⟨rfl, ?_⟩
      have hat : fs'.isDirectoryAt loc = true := h.directory (by rw [isDirectoryAt, hn]; exact hdir)
      cases hn' : fs'.node? loc with
      | none =>
          rw [isDirectoryAt, hn'] at hat
          cases hat
      | some n' =>
          rw [isDirectoryAt, hn'] at hat
          cases n' with
          | directory t => exact ⟨t, rfl⟩
          | file data => cases hat
          | link target => cases hat

theorem Grows.retains (h : fs.Grows fs') : fs.Retains fs' := by
  refine ⟨h.workDir, fun {loc n} hn => ?_⟩
  rcases h.node? hn with hsame | ⟨hdir, t, hdated⟩
  · exact ⟨n, hsame, .refl n⟩
  · cases n with
    | directory t₀ => exact ⟨_, hdated, .directory t₀ t⟩
    | file data => cases hdir
    | link target => cases hdir

theorem Grows.walk (h : fs.Grows fs') (hgoal : goal ≠ .creation) {links : ℕ} {steps : List Step}
    (hwalk : fs.walk goal links cur steps = .ok loc) : fs'.walk goal links cur steps = .ok loc :=
  h.retains.walk hgoal hwalk

/-- **Paths lead where they led.** -/
theorem Grows.locate (h : fs.Grows fs') (hgoal : goal ≠ .creation)
    (hloc : fs.locate goal p = .ok loc) : fs'.locate goal p = .ok loc :=
  h.retains.locate hgoal hloc

/-- Whatever a path led to is there, and it is the same unless it is a directory. -/
theorem Grows.lookup (h : fs.Grows fs') (hgoal : goal ≠ .creation)
    (hn : fs.lookup goal p = .ok n) :
    fs'.lookup goal p = .ok n ∨ (n.isDirectory = true ∧ ∃ t, fs'.lookup goal p = .ok (.directory t)) := by
  obtain ⟨loc, hloc, hnode⟩ := lookup_eq_ok_iff.1 hn
  have hloc' := h.locate hgoal hloc
  rcases h.node? hnode with hnode' | ⟨hdir, t, hnode'⟩
  · exact Or.inl (lookup_eq_ok_iff.2 ⟨loc, hloc', hnode'⟩)
  · exact Or.inr ⟨hdir, t, lookup_eq_ok_iff.2 ⟨loc, hloc', hnode'⟩⟩

/-- **A file keeps its time.** -/
theorem Grows.timeOf? (h : fs.Grows fs') (hp : fs.isFile p = true) :
    fs'.timeOf? p = fs.timeOf? p := by
  obtain ⟨n, hn, hfile⟩ := (Option.any_eq_true _ _).1 hp
  have hn' : fs'.stat? p = some n := by
    rcases h.lookup (by simp) (stat?_eq_some_iff.1 hn) with hn' | ⟨hdir, _⟩
    · exact stat?_eq_some_iff.2 hn'
    · cases n with
      | file data => cases hdir
      | directory t => cases hfile
      | link target => cases hdir
  rw [FileSystem.timeOf?, FileSystem.timeOf?, hn, hn']

/-! ### Trees -/

/-- A file of a tree stays in it. -/
theorem Grows.mem_tree (h : fs.Grows fs') {rel : Location} {data : FileData}
    (hmem : (rel, .file data) ∈ fs.tree p) : (rel, .file data) ∈ fs'.tree p := by
  obtain ⟨root, hroot, ⟨rfl, rfl⟩ | ⟨hrel, loc, hloc, hn⟩⟩ := FileSystem.mem_tree.1 hmem
  · rcases h.lookup (by simp) hroot with hroot' | ⟨hdir, _⟩
    · exact FileSystem.mem_tree.2 ⟨_, hroot', Or.inl ⟨rfl, rfl⟩⟩
    · cases hdir
  · obtain ⟨root', hroot', _⟩ := h.retains.lookup (by simp) hroot
    have hloc' := h.locate (by simp) hloc
    exact FileSystem.mem_tree.2 ⟨root', hroot', Or.inr ⟨hrel, loc, hloc', h.entry hn rfl⟩⟩

end FileSystem

/-! ### The newest of several times -/

/-- Wherever there is a first time, there is a second, and it is no earlier. -/
def NoLater (a b : Option Time) : Prop := ∀ t, a = some t → ∃ t', b = some t' ∧ t ≤ t'

namespace Time

variable {t : Time} {ts ts' : List Time}

theorem le_refl (t : Time) : t ≤ t := Int.le_refl t.nanos

theorem le_trans {a b c : Time} (hab : a ≤ b) (hbc : b ≤ c) : a ≤ c := Int.le_trans hab hbc

theorem le_total (a b : Time) : a ≤ b ∨ b ≤ a := Int.le_total a.nanos b.nanos

theorem not_lt {a b : Time} : ¬ a < b ↔ b ≤ a := Int.not_lt

theorem le_antisymm {a b : Time} (hab : a ≤ b) (hba : b ≤ a) : a = b :=
  congrArg Time.mk (Int.le_antisymm hab hba)

theorem le_later_left (a b : Time) : a ≤ later a b := by
  unfold later
  split
  · assumption
  · exact le_refl a

theorem le_later_right (a b : Time) : b ≤ later a b := by
  unfold later
  split
  · exact le_refl b
  · rename_i h
    exact (le_total a b).resolve_left h

theorem later_eq (a b : Time) : later a b = a ∨ later a b = b := by
  unfold later
  split
  · exact Or.inr rfl
  · exact Or.inl rfl

theorem latest?_eq_none_iff : latest? ts = none ↔ ts = [] := by
  cases ts with
  | nil => simp [latest?]
  | cons a ts => simp [latest?]

/-- **The latest time is one of them, and none is later.** -/
theorem latest?_eq_some (h : latest? ts = some t) : t ∈ ts ∧ ∀ a ∈ ts, a ≤ t := by
  induction ts generalizing t with
  | nil => cases h
  | cons a ts ih =>
      rw [latest?] at h
      obtain rfl := Option.some.inj h
      cases hrest : latest? ts with
      | none =>
          obtain rfl := latest?_eq_none_iff.1 hrest
          simpa using le_refl a
      | some b =>
          obtain ⟨hb, hmax⟩ := ih hrest
          constructor
          · rcases later_eq a b with heq | heq
            · simp [heq]
            · simp [heq, hb]
          · intro c hc
            rcases List.mem_cons.1 hc with rfl | hc
            · exact le_later_left c b
            · exact le_trans (hmax c hc) (le_later_right a b)

/-- No time is later than the latest one. -/
theorem exists_latest? (h : t ∈ ts) : ∃ t', latest? ts = some t' ∧ t ≤ t' := by
  cases hlatest : latest? ts with
  | none =>
      obtain rfl := latest?_eq_none_iff.1 hlatest
      cases h
  | some t' => exact ⟨t', rfl, (latest?_eq_some hlatest).2 t h⟩

theorem latest?_mono (h : ∀ t ∈ ts, ∃ t' ∈ ts', t ≤ t') : NoLater (latest? ts) (latest? ts') := by
  intro t ht
  obtain ⟨t₁, hmem, hle⟩ := h t (latest?_eq_some ht).1
  obtain ⟨t', hlatest, hle'⟩ := exists_latest? hmem
  exact ⟨t', hlatest, le_trans hle hle'⟩

theorem latest?_eq_some_iff : latest? ts = some t ↔ t ∈ ts ∧ ∀ a ∈ ts, a ≤ t := by
  refine ⟨latest?_eq_some, fun ⟨hmem, hmax⟩ => ?_⟩
  obtain ⟨t', hlatest, hle⟩ := exists_latest? hmem
  rw [hlatest, le_antisymm hle (hmax t' (latest?_eq_some hlatest).1)]

/-- Only which times there are matters for the latest. -/
theorem latest?_congr (h : ∀ t, t ∈ ts ↔ t ∈ ts') : latest? ts = latest? ts' := by
  ext t
  simp only [latest?_eq_some_iff, h]

/-- The latest of several lists can be taken one by one. -/
theorem latest?_filterMap {α : Type} (f : α → List Time) (xs : List α) :
    latest? (xs.filterMap fun x => latest? (f x)) = latest? (xs.flatMap f) := by
  ext t
  simp only [latest?_eq_some_iff, List.mem_filterMap, List.mem_flatMap]
  constructor
  · rintro ⟨⟨x, hx, hmem, _⟩, hmax⟩
    refine ⟨⟨x, hx, hmem⟩, ?_⟩
    rintro a ⟨y, hy, ha⟩
    obtain ⟨t', hlatest, hle⟩ := exists_latest? ha
    exact le_trans hle (hmax t' ⟨y, hy, latest?_eq_some hlatest⟩)
  · rintro ⟨⟨x, hx, hmem⟩, hmax⟩
    exact ⟨⟨x, hx, hmem, fun a ha => hmax a ⟨x, hx, ha⟩⟩, fun a ⟨y, hy, ha, _⟩ => hmax a ⟨y, hy, ha⟩⟩

end Time

namespace FileSystem

variable {fs fs' : FileSystem} {p : Path}

theorem Grows.newestUnder? (h : fs.Grows fs') : NoLater (fs.newestUnder? p) (fs'.newestUnder? p) := by
  intro t ht
  unfold FileSystem.newestUnder? at ht ⊢
  split at ht
  · rename_i hp
    rw [if_pos (h.retains.present hp)]
    refine Time.latest?_mono (fun t ht => ?_) t ht
    obtain ⟨rel, data, hmem, hread, rfl⟩ := mem_fileTimes.1 ht
    exact ⟨_, mem_fileTimes.2 ⟨rel, data, h.mem_tree hmem, hread, rfl⟩, Time.le_refl _⟩
  · cases ht

/-- **The newest source is no older than before.** -/
theorem Grows.newestUnderAll? (h : fs.Grows fs') (ps : List Path) :
    NoLater (fs.newestUnderAll? ps) (fs'.newestUnderAll? ps) := by
  refine Time.latest?_mono fun t ht => ?_
  obtain ⟨p, hp, hnew⟩ := List.mem_filterMap.1 ht
  obtain ⟨t', hnew', hle⟩ := h.newestUnder? t hnew
  exact ⟨t', List.mem_filterMap.2 ⟨p, hp, hnew'⟩, hle⟩

end FileSystem

end Rebuild
