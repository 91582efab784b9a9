/-
How a launcher is obtained.

A launcher that is there is left alone.  Otherwise its address is asked for until an answer brings it, or
until all attempts were made.  What is asked and what comes back is told by the network alone; between
two attempts nothing changes but the time.  An answer that does not have the digest that was declared is
not written at all.  So the only traces of a failure are directories, and those only if the program could
not be written where it goes.

Main definitions:

* `World.later` — the world after some requests and some time;
* `World.attempt` — **what the next attempt brings**, told by the network;
* `Obtains` — how fetching a launcher ends, one case for each end.

Main results:

* `requestAgain_outcome` — asking again stops at the first answer, and gives the last failure;
* `launcherUrl_eq` — the address has one slash between the base and the file;
* `ensureLauncher_outcome` — **a launcher is there, or it is fetched as a whole, or not at all**.
-/
import Rebuild.Proofs.FileSystem.Installing

set_option relaxedAutoImplicit false
set_option autoImplicit false

namespace Rebuild

/-! ### Attempts -/

/-- The requests that so many attempts make: an address that names no web server is never asked for. -/
def sent (url : String) (attempts : ℕ) : List Url :=
  match requestUrl? url with
  | some u => if u.canRequest then List.replicate attempts u else []
  | none => []

namespace World

variable {w : World} {url : String}

/-- The world after some requests and some time; nothing else is different. -/
def later (w : World) (asked : List Url) (nanos : ℕ) : World :=
  { w with
    files := w.files.elapse nanos
    network := { w.network with requests := w.network.requests ++ asked } }

/-- **What an attempt brings** when so many were made before: a body, or what went wrong. -/
def attempt (w : World) (url : String) (earlier : ℕ) : Except String Bytes :=
  match request url (w.later (sent url earlier) 0) with
  | .ok body _ => .ok body
  | .error message _ => .error message

/-- So many attempts bring nothing. -/
def Unanswered (w : World) (url : String) (attempts : ℕ) : Prop :=
  ∀ j < attempts, ∃ message, w.attempt url j = .error message

theorem later_later (w : World) (asked asked' : List Url) (nanos nanos' : ℕ) :
    (w.later asked nanos).later asked' nanos' = w.later (asked ++ asked') (nanos + nanos') := by
  simp [later, FileSystem.elapse, Int.add_assoc]

theorem later_nil (w : World) : w.later [] 0 = w := by
  simp [later, FileSystem.elapse]

theorem wait_later (w : World) (asked : List Url) (nanos : ℕ) (d : Duration) :
    (w.later asked nanos).wait d = w.later asked (nanos + d.toNanos) := by
  simp [later, wait, FileSystem.elapse, Int.add_assoc]

end World

theorem sent_add (url : String) (i j : ℕ) : sent url i ++ sent url j = sent url (i + j) := by
  unfold sent
  split
  · split
    · rw [List.replicate_append_replicate]
    · rfl
  · rfl

theorem World.attempt_eq (w : World) (url : String) (earlier : ℕ) : w.attempt url earlier =
    match requestUrl? url with
    | none => .error "builder error"
    | some u =>
      if u.canRequest then
        readReply u (w.network.answer (w.network.requests ++ List.replicate earlier u) u)
      else .error ("builder error for url (" ++ u.render ++ ")") := by
  unfold attempt request sent
  cases requestUrl? url with
  | none => rfl
  | some u =>
      by_cases hask : u.canRequest = true
      · simp only [if_pos hask, later]
        cases readReply u (w.network.answer (w.network.requests ++ List.replicate earlier u) u) <;> rfl
      · simp only [if_neg hask]

/-- **One attempt makes one request**, or none if there is nobody to ask, and changes nothing else. -/
theorem request_eq (url : String) (w : World) : request url w =
    match w.attempt url 0 with
    | .ok body => .ok body (w.later (sent url 1) 0)
    | .error message => .error message (w.later (sent url 1) 0) := by
  rw [World.attempt_eq]
  unfold request sent
  cases requestUrl? url with
  | none => simp only [w.later_nil]
  | some u =>
      by_cases hask : u.canRequest = true
      · simp only [if_pos hask, List.replicate_zero, List.append_nil]
        have hlater : { w with network := { w.network with requests := w.network.requests ++ [u] } } =
            w.later [u] 0 := by simp [World.later, FileSystem.elapse]
        rw [hlater]
        rfl
      · simp only [if_neg hask, w.later_nil]

/-- What an attempt brings is told by the network, whatever happened to the files. -/
theorem World.attempt_later (w : World) (url : String) (made nanos earlier : ℕ) :
    (w.later (sent url made) nanos).attempt url earlier = w.attempt url (made + earlier) := by
  rw [attempt_eq, attempt_eq]
  unfold sent
  cases requestUrl? url with
  | none => rfl
  | some u =>
      by_cases hask : u.canRequest = true
      · simp only [if_pos hask, later, List.append_assoc, List.replicate_append_replicate]
      · simp only [if_neg hask]

/-- How long so many waits take, if the first one is given and each is twice the one before. -/
def waited : ℕ → Duration → ℕ
  | 0, _ => 0
  | n + 1, delay => delay.toNanos + waited n delay.double

theorem requestAgain_succ (url : String) (more : ℕ) (delay : Duration) (w : World) :
    requestAgain url (more + 1) delay w = match request url w with
      | .ok body w => .ok body w
      | .error _ w => requestAgain url more delay.double (w.wait delay) := rfl

/-- **Asking again stops at the first answer**; if there is none, it tells what went wrong last. -/
theorem requestAgain_outcome (url : String) (more : ℕ) (delay : Duration) (w : World) :
    ∃ k ≤ more, w.Unanswered url k ∧
      ((∃ body, w.attempt url k = .ok body ∧
          requestAgain url more delay w = .ok body (w.later (sent url (k + 1)) (waited k delay))) ∨
        k = more ∧ ∃ message, w.attempt url k = .error message ∧
          requestAgain url more delay w =
            .error message (w.later (sent url (k + 1)) (waited k delay))) := by
  induction more generalizing delay w with
  | zero =>
      refine ⟨0, Nat.le_refl 0, fun j hj => absurd hj (Nat.not_lt_zero j), ?_⟩
      rw [requestAgain, request_eq]
      cases hanswer : w.attempt url 0 with
      | ok body => exact Or.inl ⟨body, rfl, rfl⟩
      | error message => exact Or.inr ⟨rfl, message, rfl, rfl⟩
  | succ more ih =>
      rw [requestAgain_succ, request_eq]
      cases hanswer : w.attempt url 0 with
      | ok body =>
          refine ⟨0, Nat.zero_le _, fun j hj => absurd hj (Nat.not_lt_zero j), ?_⟩
          exact Or.inl ⟨body, hanswer, rfl⟩
      | error message =>
          -- the attempts after the first one are those of a later world
          dsimp only
          rw [World.wait_later, Nat.zero_add]
          obtain ⟨k, hk, hbefore, hend⟩ := ih delay.double (w.later (sent url 1) delay.toNanos)
          simp only [World.attempt_later, World.later_later, sent_add, Nat.add_comm 1] at hend
          refine ⟨k + 1, Nat.succ_le_succ hk, fun j hj => ?_, ?_⟩
          · cases j with
            | zero => exact ⟨message, hanswer⟩
            | succ j =>
                obtain ⟨message', hmessage⟩ := hbefore j (Nat.lt_of_succ_lt_succ hj)
                rw [World.attempt_later, Nat.add_comm] at hmessage
                exact ⟨message', hmessage⟩
          · exact hend.imp_right fun ⟨hlast, hmessage⟩ => ⟨congrArg (· + 1) hlast, hmessage⟩

/-! ### The address and the digest -/

/-- **The address has one slash between the base and the file**, however many the base ends in. -/
theorem launcherUrl_eq (baseUrl file : String) : ∃ stem slashes, stem.getLast? ≠ some '/' ∧
    baseUrl.toList = stem ++ List.replicate slashes '/' ∧
      launcherUrl baseUrl file = String.ofList stem ++ "/" ++ file := by
  refine ⟨(baseUrl.toList.reverse.dropWhile (· == '/')).reverse,
    (baseUrl.toList.reverse.takeWhile (· == '/')).length, ?_, ?_, rfl⟩
  · rw [List.getLast?_reverse]
    intro hhead
    have hslash := List.head?_dropWhile_not (· == '/') baseUrl.toList.reverse
    rw [hhead] at hslash
    simp at hslash
  · have hslashes : baseUrl.toList.reverse.takeWhile (· == '/') =
        List.replicate (baseUrl.toList.reverse.takeWhile (· == '/')).length '/' := by
      refine List.eq_replicate_of_mem fun c hc => ?_
      simpa using List.mem_takeWhile_imp hc
    have hsplit := congrArg List.reverse
      (List.takeWhile_append_dropWhile (p := (· == '/')) (l := baseUrl.toList.reverse))
    rw [List.reverse_append, List.reverse_reverse, hslashes, List.reverse_replicate] at hsplit
    simpa using hsplit.symm

/-- The digest that was declared, if any, is that of the body. -/
def Genuine (l : Launcher) (body : Bytes) : Prop :=
  ∀ expected, l.sha256 = some expected → sameDigest (Sha256.hexDigest body) expected = true

theorem checkDigest_cases (url : String) (l : Launcher) (body : Bytes) :
    (Genuine l body ∧ checkDigest url body l.sha256 = .ok ()) ∨
      ∃ expected, l.sha256 = some expected ∧ sameDigest (Sha256.hexDigest body) expected = false ∧
        checkDigest url body l.sha256 =
          .error (.hashMismatch url expected (Sha256.hexDigest body)) := by
  unfold Genuine checkDigest
  cases l.sha256 with
  | none => exact Or.inl ⟨fun expected h => (by cases h), rfl⟩
  | some expected =>
      cases hsame : sameDigest (Sha256.hexDigest body) expected with
      | true => exact Or.inl ⟨fun expected' h => Option.some.inj h ▸ hsame, by simp [hsame]⟩
      | false => exact Or.inr ⟨expected, rfl, hsame, by simp [hsame]⟩

/-! ### Time that passes -/

namespace FileSystem

variable (fs : FileSystem) (nanos : ℕ)

theorem stat?_elapse (p : Path) : (fs.elapse nanos).stat? p = fs.stat? p := by
  unfold stat? lookup
  rw [locate_elapse]
  rfl

variable {fs}

theorem Rooted.elapse (h : fs.Rooted) : (fs.elapse nanos).Rooted := ⟨fun hn => h.parent hn⟩

theorem firm_elapse (p : Path) : (fs.elapse nanos).Firm p ↔ fs.Firm p := by
  unfold Firm isDirectory
  simp only [stat?_elapse]

theorem overlong_elapse (p : Path) : (fs.elapse nanos).Overlong p ↔ fs.Overlong p := by
  have hsame : ∀ loc, (fs.elapse nanos).node? loc = fs.node? loc := fun _ => rfl
  unfold Overlong isDirectoryAt
  simp only [locate_elapse, slot_congr hsame rfl, walk_congr hsame, hsame]

end FileSystem

/-! ### How it ends -/

/-- **How fetching a launcher ends**, with what was asked for and what is different then.  Before the last
attempt, which has the number `k`, all brought nothing. -/
inductive Obtains (l : Launcher) (dest : Path) (url : String) (retry : RetryPolicy) (w : World) :
    EStateM.Result FetchError World FetchOutcome → Prop where
  /-- It is there: nothing is asked for, and nothing changes. -/
  | present : w.files.present dest = true → Obtains l dest url retry w (.ok .present w)
  /-- All attempts bring nothing; the last of them says why. -/
  | unreached {k : ℕ} {message : String} : w.files.present dest = false → k + 1 = max retry.attempts 1 →
      w.Unanswered url k → w.attempt url k = .error message →
      Obtains l dest url retry w (.error (.http url (max retry.attempts 1) message)
        (w.later (sent url (k + 1)) (waited k retry.initialDelay)))
  /-- The first answer has another digest than was declared. -/
  | mismatched {k : ℕ} {body : Bytes} {expected : String} : w.files.present dest = false →
      k < max retry.attempts 1 → w.Unanswered url k → w.attempt url k = .ok body →
      l.sha256 = some expected → sameDigest (Sha256.hexDigest body) expected = false →
      Obtains l dest url retry w (.error (.hashMismatch url expected (Sha256.hexDigest body))
        (w.later (sent url (k + 1)) (waited k retry.initialDelay)))
  /-- The first answer is put in place as a whole. -/
  | downloaded {k : ℕ} {body : Bytes} {files : FileSystem} : w.files.present dest = false →
      k < max retry.attempts 1 → w.Unanswered url k → w.attempt url k = .ok body → Genuine l body →
      (w.files.Firm dest → ¬ w.files.Overlong dest →
        ∃ data, files.stat? dest = some (.file data) ∧ data.bytes = body ∧ data.executable = true) →
      Obtains l dest url retry w (.ok (.downloaded body.length)
        { w.later (sent url (k + 1)) (waited k retry.initialDelay) with files := files })
  /-- The first answer cannot be written; only directories were made. -/
  | unwritten {k : ℕ} {body : Bytes} {cause : IoError} {files : FileSystem} :
      w.files.present dest = false → k < max retry.attempts 1 → w.Unanswered url k →
      w.attempt url k = .ok body → Genuine l body → w.files.Widens files →
      (w.files.Firm dest → files.present dest = false) →
      Obtains l dest url retry w (.error (.write dest cause)
        { w.later (sent url (k + 1)) (waited k retry.initialDelay) with files := files })

theorem ensureLauncher_absent (l : Launcher) {dest : Path} (baseUrl : String) (retry : RetryPolicy)
    {w : World} (h : w.files.present dest = false) : ensureLauncher l dest baseUrl retry w =
      match requestAgain (launcherUrl baseUrl l.file) (retry.total - 1) retry.initialDelay w with
      | .error message w' =>
        .error (.http (launcherUrl baseUrl l.file) retry.total message) w'
      | .ok body w' =>
        match checkDigest (launcherUrl baseUrl l.file) body l.sha256 with
        | .error e => .error e w'
        | .ok _ =>
          match installProgram dest body w'.files with
          | .ok _ files => .ok (.downloaded body.length) { w' with files := files }
          | .error cause files => .error (.write dest cause) { w' with files := files } := by
  have habsent : ¬ w.files.present dest = true := Bool.eq_false_iff.1 h
  change (if w.files.present dest then pure .present else download (launcherUrl baseUrl l.file) retry >>=
    fun bytes => match checkDigest (launcherUrl baseUrl l.file) bytes l.sha256 with
      | .error e => throw e
      | .ok _ => World.onFiles (.write dest) (installProgram dest bytes) >>= fun _ =>
        pure (.downloaded bytes.length) : EStateM FetchError World FetchOutcome) w = _
  rw [if_neg habsent]
  change EStateM.bind _ _ w = _
  unfold EStateM.bind download
  cases requestAgain (launcherUrl baseUrl l.file) (retry.total - 1) retry.initialDelay w with
  | error message w' => rfl
  | ok body w' =>
      dsimp only
      cases checkDigest (launcherUrl baseUrl l.file) body l.sha256 with
      | error e => rfl
      | ok _ =>
          change EStateM.bind _ _ w' = _
          unfold EStateM.bind World.onFiles
          dsimp only
          cases installProgram dest body w'.files with
          | ok _ files => rfl
          | error cause files => rfl

/-- What becomes of the first answer: it is put in place as a whole, or not at all. -/
theorem obtains_of_body {l : Launcher} {dest : Path} {url : String} {retry : RetryPolicy} {w : World}
    {k : ℕ} {body : Bytes} (hroot : w.files.Rooted) (habsent : w.files.present dest = false)
    (hlt : k < max retry.attempts 1) (hbefore : w.Unanswered url k) (hbody : w.attempt url k = .ok body) :
    Obtains l dest url retry w
      (match checkDigest url body l.sha256 with
        | .error e => .error e (w.later (sent url (k + 1)) (waited k retry.initialDelay))
        | .ok _ =>
          match installProgram dest body (w.files.elapse (waited k retry.initialDelay)) with
          | .ok _ files => .ok (.downloaded body.length)
              { w.later (sent url (k + 1)) (waited k retry.initialDelay) with files := files }
          | .error cause files => .error (.write dest cause)
              { w.later (sent url (k + 1)) (waited k retry.initialDelay) with files := files }) := by
  have hroot' := hroot.elapse (waited k retry.initialDelay)
  have habsent' : (w.files.elapse (waited k retry.initialDelay)).present dest = false := by
    rw [FileSystem.present, FileSystem.stat?_elapse]
    exact habsent
  rcases checkDigest_cases url l body with
    ⟨hgenuine, hcheck⟩ | ⟨expected, hsha, hdiffers, hcheck⟩
  · rw [hcheck]
    dsimp only
    cases hinstall : installProgram dest body (w.files.elapse (waited k retry.initialDelay)) with
    | ok u files =>
        refine .downloaded habsent hlt hbefore hbody hgenuine fun hfirm hlinks => ?_
        exact installProgram_found hroot' ((FileSystem.firm_elapse ..).2 hfirm) habsent'
          (mt (FileSystem.overlong_elapse ..).1 hlinks) hinstall
    | error cause files =>
        refine .unwritten habsent hlt hbefore hbody hgenuine ?_ fun hfirm => ?_
        · exact IsTrans.trans _ _ _ (FileSystem.widens_elapse _ _) (installProgram_widens hinstall)
        · exact installProgram_absent hroot' ((FileSystem.firm_elapse ..).2 hfirm) habsent' hinstall
  · rw [hcheck]
    exact .mismatched habsent hlt hbefore hbody hsha hdiffers

/-- **A launcher is there, or it is fetched as a whole, or not at all.** -/
theorem ensureLauncher_outcome (l : Launcher) (dest : Path) (baseUrl : String) (retry : RetryPolicy)
    (w : World) (hroot : w.files.Rooted) : ∃ stem slashes, stem.getLast? ≠ some '/' ∧
      baseUrl.toList = stem ++ List.replicate slashes '/' ∧
      Obtains l dest (String.ofList stem ++ "/" ++ l.file) retry w
        (ensureLauncher l dest baseUrl retry w) := by
  obtain ⟨stem, slashes, hstem, hbase, hurl⟩ := launcherUrl_eq baseUrl l.file
  refine ⟨stem, slashes, hstem, hbase, ?_⟩
  rw [← hurl]
  cases hpresent : w.files.present dest with
  | true =>
      have hthere : ensureLauncher l dest baseUrl retry w = .ok .present w := by
        change (if w.files.present dest then pure .present else _ :
          EStateM FetchError World FetchOutcome) w = _
        rw [if_pos hpresent]
        rfl
      rw [hthere]
      exact .present hpresent
  | false =>
      rw [ensureLauncher_absent l baseUrl retry hpresent]
      have htotal : retry.total - 1 + 1 = retry.total := Nat.sub_add_cancel (Nat.le_max_right ..)
      obtain ⟨k, hk, hbefore, ⟨body, hbody, hrun⟩ | ⟨hlast, message, hmessage, hrun⟩⟩ :=
        requestAgain_outcome (launcherUrl baseUrl l.file) (retry.total - 1) retry.initialDelay w
      · have hlt : k < max retry.attempts 1 := Nat.lt_of_le_of_lt hk (by
          rw [← RetryPolicy.total]
          omega)
        rw [hrun]
        exact obtains_of_body hroot hpresent hlt hbefore hbody
      · rw [hrun]
        refine .unreached hpresent ?_ hbefore hmessage
        rw [hlast, htotal]
        rfl

/-! ### A launcher that is fetched at the second attempt -/

/-- A network that answers all but the first request. -/
def dockWorld (nodes : List (Location × Node)) [Separate nodes] : World where
  files := { nodes := nodes, workDir := ["p"], clock := ⟨1000⟩ }
  network := ⟨fun earlier _ => if earlier.isEmpty then .status 503 [] else .status 200 [98, 105, 110], []⟩
  programs := []
  started := []

/-- A launcher whose digest is written in capitals. -/
def dockLauncher : Launcher :=
  ⟨"mac", ⟨"exe/mac"⟩, some "51A1F05AF85E342E3C849B47D387086476282D5F50DC240C19216D6EDFB1EB5A"⟩

def emptyDock : List (Location × Node) := [(["p"], .directory ⟨1⟩)]

instance : Separate emptyDock := ⟨by decide⟩

/-- Where the launcher goes, below the root of the sources. -/
def dockPath : Path := (Layout.ofRoots ⟨"/p"⟩ ⟨"/p/o"⟩).source dockLauncher.path

/-- The second answer is written into a directory that was not there. -/
theorem dock_obtains : (dockWorld emptyDock).files.Rooted ∧ ∃ w' data,
    ensureLauncher dockLauncher dockPath "http://s//" .standard (dockWorld emptyDock) =
      .ok (.downloaded 3) w' ∧ w'.network.requests.length = 2 ∧
    w'.files.stat? dockPath = some (.file data) ∧ data.bytes.length = 3 := by
  have hroot : (dockWorld emptyDock).files.Rooted := FileSystem.rooted_of_nodes (by decide)
  have hend : (match ensureLauncher dockLauncher dockPath "http://s//" .standard
      (dockWorld emptyDock) with
    | .ok (.downloaded n) w' => n == 3 && w'.network.requests.length == 2
    | _ => false) = true := by decide +kernel
  have hfirm : (dockWorld emptyDock).files.Firm dockPath :=
    FileSystem.firm_of_direct (Layout.direct_source _ _)
  have hlinks : ¬ (dockWorld emptyDock).files.Overlong dockPath := fun h =>
    absurd h.1 (by decide +kernel)
  obtain ⟨_, _, _, _, hobtains⟩ := ensureLauncher_outcome dockLauncher dockPath "http://s//" .standard
    (dockWorld emptyDock) hroot
  generalize ensureLauncher dockLauncher dockPath "http://s//" .standard (dockWorld emptyDock) =
    result at hend hobtains ⊢
  cases hobtains with
  | present _ | unreached _ _ _ _ | mismatched _ _ _ _ _ _ | unwritten _ _ _ _ _ _ _ => cases hend
  | downloaded _ _ _ _ _ hfound =>
      simp only [Bool.and_eq_true, beq_iff_eq] at hend
      obtain ⟨data, hdata, rfl, _⟩ := hfound hfirm hlinks
      rw [hend.1]
      exact ⟨hroot, _, data, rfl, hend.2, hdata, hend.1⟩

/-! ### Paths that lead somewhere else -/

/-- A directory, and a link to it. -/
def linkedDock : List (Location × Node) :=
  [(["p"], .directory ⟨1⟩), (["p", "lib"], .directory ⟨1⟩), (["p", "l"], .link ⟨"lib"⟩)]

instance : Separate linkedDock := ⟨by decide⟩

def rope (n : ℕ) : String := String.ofList (List.replicate n 'l')

/-- Links in a row, the last of which leads to the directory that they are in. -/
def ropedDock : List (Location × Node) :=
  (["p"], .directory ⟨1⟩) :: (["p", rope 21], .link ⟨"."⟩) ::
    (List.range 20).map fun i => (["p", rope (i + 1)], .link ⟨rope (i + 2)⟩)

instance : Separate ropedDock := ⟨by decide +kernel⟩

/-- A path that goes up behind a directory that is made for it leads to what was there before, whether or
not the launcher can be written; and a launcher that takes the place of a link which its path passes is
not found, where the link was too long to be followed twice. -/
theorem dock_displaced :
    (∃ w', ensureLauncher ⟨"mac", ⟨"mac"⟩, none⟩ ⟨"/p/new/../lib"⟩ "http://s" .standard
        (dockWorld linkedDock) = .error (.write ⟨"/p/new/../lib"⟩ .isADirectory) w' ∧
      w'.files.present ⟨"/p/new/../lib"⟩ = true) ∧
    (∃ w', ensureLauncher ⟨"mac", ⟨"mac"⟩, none⟩ ⟨"/p/new/../l/../l"⟩ "http://s" .standard
        (dockWorld linkedDock) = .ok (.downloaded 3) w' ∧
      w'.files.present ⟨"/p/new/../l/../l"⟩ = false) ∧
    ∃ w', ensureLauncher ⟨"mac", ⟨"mac"⟩, none⟩ ⟨"/p/l/l"⟩ "http://s" .standard
        (dockWorld ropedDock) = .ok (.downloaded 3) w' ∧ w'.files.present ⟨"/p/l/l"⟩ = false := by
  have hwritten : ∀ {result : EStateM.Result FetchError World FetchOutcome} {dest : Path},
      (match result with
      | .ok (.downloaded n) w' => n == 3 && !w'.files.present dest
      | _ => false) = true →
      ∃ w', result = .ok (.downloaded 3) w' ∧ w'.files.present dest = false := by
    intro result dest h
    match result with
    | .ok (.downloaded n) w' =>
        simp only [Bool.and_eq_true, beq_iff_eq, Bool.not_eq_true'] at h
        exact ⟨w', by rw [h.1], h.2⟩
    | .ok .present w' => cases h
    | .error e w' => cases h
  refine ⟨?_, hwritten (by decide +kernel), hwritten (by decide +kernel)⟩
  have hend : (match ensureLauncher ⟨"mac", ⟨"mac"⟩, none⟩ ⟨"/p/new/../lib"⟩ "http://s" .standard
      (dockWorld linkedDock) with
    | .error e w' => e == .write ⟨"/p/new/../lib"⟩ .isADirectory && w'.files.present ⟨"/p/new/../lib"⟩
    | _ => false) = true := by decide +kernel
  generalize ensureLauncher ⟨"mac", ⟨"mac"⟩, none⟩ ⟨"/p/new/../lib"⟩ "http://s" .standard
    (dockWorld linkedDock) = result at hend ⊢
  match result with
  | .ok outcome w' => cases hend
  | .error e w' =>
      simp only [Bool.and_eq_true, beq_iff_eq] at hend
      exact ⟨w', by rw [hend.1], hend.2⟩

end Rebuild
