/-
Spans of time are read back as they were written.

A written span is a list of words, each a count and the name of a unit.  What writing and reading have
in common is the number of nanoseconds that such a list stands for: the parts of a span stand for the
span, and the scanner adds up what the words stand for.

Main definitions:

* `Duration.Grain.toNanos`, `Duration.Grain.Fits` — what one unit is in nanoseconds, and which counts
  of it can be added without overflow;
* `Duration.Reads` — a name that the scanner takes for a unit;
* `Duration.Spelt` — **a list of words and the nanoseconds that it stands for**.

Main results:

* `Duration.addCount_spec` — counts that fit are added exactly;
* `Duration.scanFrom_word` — the scanner takes a word for its count and its unit;
* `Duration.Spelt.scan` — the scanner adds up what the words stand for;
* `Duration.spelt_parts` — the parts of a span stand for it;
* `Duration.parse_render` — **what was written is read back**.
-/
import Rebuild.Duration.Parser
import Mathlib

set_option relaxedAutoImplicit false
set_option autoImplicit false

namespace Rebuild

@[simp] theorem except_ok_bind {ε α β : Type} (a : α) (f : α → Except ε β) :
    ((Except.ok a : Except ε α) >>= f) = f a := rfl

namespace Duration

variable {d t : Duration} {unit : TimeUnit} {name : String} {texts texts' : List String}
  {rest seen : List Char} {c : Char} {n amount amount' : ℕ}

/-! ### Nanoseconds -/

/-- One unit in nanoseconds. -/
def Grain.toNanos : Grain → ℕ
  | .nanos n => n
  | .seconds n => n * 1000000000

/-- Nothing overflows when that many units are added; of the units that are counted in nanoseconds,
these are less than a second. -/
def Grain.Fits : Grain → ℕ → Prop
  | .nanos n, count => count * n < 1000000000
  | .seconds n, count => count * n < wordBound

theorem Grain.Fits.lt_wordBound {grain : Grain} (h : grain.Fits n) :
    n * grain.perUnit < wordBound := by
  cases grain with
  | nanos k => exact Nat.lt_trans h (by decide)
  | seconds k => exact h

theorem Grain.fits_seconds {perUnit : ℕ} (h : n * perUnit ≤ d.seconds) :
    (Grain.seconds perUnit).Fits n :=
  Nat.lt_of_le_of_lt h d.seconds_lt

theorem Grain.fits_nanos {perUnit : ℕ} (h : n * perUnit ≤ d.nanos) : (Grain.nanos perUnit).Fits n :=
  Nat.lt_of_le_of_lt h d.nanos_lt

theorem toNanos_injective : Function.Injective toNanos := by
  rintro ⟨s, n, hs, hn⟩ ⟨s', n', hs', hn'⟩ h
  simp only [toNanos] at h
  obtain rfl : s = s' := by omega
  obtain rfl : n = n' := by omega
  rfl

theorem add_spec {seconds nanos : ℕ} (hfits : t.nanos + nanos < wordBound)
    (hle : t.toNanos + (seconds * 1000000000 + nanos) ≤ d.toNanos) :
    ∃ t', add t seconds nanos = .ok t' ∧
      t'.toNanos = t.toNanos + (seconds * 1000000000 + nanos) := by
  have hd := d.seconds_lt
  have hdn := d.nanos_lt
  simp only [toNanos, wordBound] at hle hd ⊢
  have hseconds : t.seconds + seconds + (t.nanos + nanos) / 1000000000 < wordBound := by
    simp only [wordBound]
    omega
  refine ⟨⟨_, (t.nanos + nanos) % 1000000000, hseconds, Nat.mod_lt _ zero_lt_second⟩, ?_, ?_⟩
  · simp only [add, checked, if_pos hfits, except_ok_bind, ofParts?, dif_pos hseconds]
  · dsimp only
    omega

theorem addGrain_spec {grain : Grain} (hfits : grain.Fits n)
    (hle : t.toNanos + n * grain.toNanos ≤ d.toNanos) :
    ∃ t', addGrain t (n * grain.perUnit) grain = .ok t' ∧
      t'.toNanos = t.toNanos + n * grain.toNanos := by
  have ht := t.nanos_lt
  cases grain with
  | nanos k =>
      simp only [Grain.Fits] at hfits
      have hnanos : t.nanos + n * k < wordBound := by
        simp only [wordBound]
        omega
      have hsum : 0 * 1000000000 + n * k = n * k := by omega
      have hadd := add_spec (t := t) (d := d) hnanos (hsum.symm ▸ hle)
      rwa [hsum] at hadd
  | seconds k =>
      have hnanos : t.nanos + 0 < wordBound := by
        simp only [wordBound]
        omega
      have hsum : n * k * 1000000000 + 0 = n * (k * 1000000000) := by rw [Nat.add_zero, Nat.mul_assoc]
      have hadd := add_spec (t := t) (d := d) hnanos (hsum.symm ▸ hle)
      rwa [hsum] at hadd

/-- **A count that fits is added exactly**, as long as the sum is a span. -/
theorem addCount_spec (hname : TimeUnit.ofName? name = some unit) (hfits : unit.grain.Fits n)
    (hle : t.toNanos + n * unit.grain.toNanos ≤ d.toNanos) :
    ∃ t', addCount t n none name = .ok t' ∧ t'.toNanos = t.toNanos + n * unit.grain.toNanos := by
  obtain ⟨t', hadd, hsum⟩ := addGrain_spec hfits hle
  refine ⟨t', ?_, hsum⟩
  simp only [addCount, hname, checked, if_pos hfits.lt_wordBound, except_ok_bind, hadd]

/-! ### Words -/

theorem digit?_digitChar (h : n < 10) : digit? n.digitChar = some n := by
  interval_cases n <;> rfl

theorem le_iff_toNat_le {a b : Char} : a ≤ b ↔ a.toNat ≤ b.toNat := Iff.rfl

/-- Letters of units are no digits and no blanks. -/
theorem unitLetter_spec (h : isUnitLetter c = true) : digit? c = none ∧ Text.isBlank c = false := by
  have hcode : 65 ≤ c.toNat ∧ c.toNat ≤ 122 ∨ c.toNat = 181 := by
    simp only [isUnitLetter, Bool.or_eq_true, Bool.and_eq_true, decide_eq_true_eq, beq_iff_eq,
      le_iff_toNat_le] at h
    rcases h with (⟨hlow, hhigh⟩ | ⟨hlow, hhigh⟩) | rfl
    · exact Or.inl ⟨le_trans (by decide) hlow, hhigh⟩
    · exact Or.inl ⟨hlow, le_trans hhigh (by decide)⟩
    · exact Or.inr rfl
  constructor
  · rw [digit?, if_neg]
    rw [le_iff_toNat_le, le_iff_toNat_le, show '0'.toNat = 48 from rfl, show '9'.toNat = 57 from rfl]
    omega
  · simp only [Text.isBlank, Text.blankRanges, List.any_cons, List.any_nil, Bool.or_false,
      Bool.or_eq_false_iff, Bool.and_eq_false_iff, decide_eq_false_iff_not]
    omega

/-- A name of a unit. -/
structure Reads (name : String) (unit : TimeUnit) : Prop where
  known : TimeUnit.ofName? name = some unit
  letters : name.toList.all isUnitLetter = true

theorem Reads.toList_ne_nil (h : Reads name unit) : name.toList ≠ [] := by
  intro hnil
  obtain rfl := String.toList_eq_nil_iff.1 hnil
  have hnone : TimeUnit.ofName? "" = none := by decide
  exact Option.some_ne_none unit (h.known.symm.trans hnone)

/-- The digits of a number are read as that number. -/
theorem scanFrom_digits (t : Duration) (start : ℕ) (first : Bool) (off : ℕ) (rest : List Char)
    (h : n < wordBound) :
    ∃ off', scanFrom ⟨t, .blank start first⟩ off (Nat.toDigits 10 n ++ rest) =
      scanFrom ⟨t, .number n⟩ off' rest := by
  induction n using Nat.strongRecOn generalizing rest with
  | ind n ih =>
      by_cases hn : n < 10
      · rw [Nat.toDigits_of_lt_base hn, List.singleton_append, scanFrom]
        simp only [scanChar, digit?_digitChar hn, except_ok_bind]
        exact ⟨_, rfl⟩
      · -- all digits but the last one are those of a tenth
        have hmod : n % 10 < 10 := Nat.mod_lt n (by decide)
        have hten : n / 10 * 10 < wordBound := by omega
        have hlast : n / 10 * 10 + n % 10 = n := Nat.div_add_mod' n 10
        obtain ⟨off', htenth⟩ := ih (n / 10) (by omega) ((n % 10).digitChar :: rest) (by omega)
        rw [Nat.toDigits_of_base_le (by decide) (Nat.not_lt.1 hn), List.append_assoc,
          List.singleton_append, htenth, scanFrom]
        simp only [scanChar, digit?_digitChar hmod, checked, if_pos hten, except_ok_bind, hlast,
          if_pos h]
        exact ⟨_, rfl⟩

/-- Letters are collected. -/
theorem scanFrom_letters (t : Duration) (n : ℕ) (seen : List Char) (off : ℕ)
    (letters rest : List Char)
    (h : letters.all isUnitLetter = true) :
    ∃ off', scanFrom ⟨t, .unit n none seen⟩ off (letters ++ rest) =
      scanFrom ⟨t, .unit n none (letters.reverse ++ seen)⟩ off' rest := by
  induction letters generalizing off seen with
  | nil => exact ⟨off, rfl⟩
  | cons c letters ih =>
      rw [List.all_cons, Bool.and_eq_true] at h
      obtain ⟨hdigit, hblank⟩ := unitLetter_spec h.1
      obtain ⟨off', hrest⟩ := ih (c :: seen) (off + c.utf8Size) h.2
      refine ⟨off', ?_⟩
      rw [List.cons_append, scanFrom, List.reverse_cons, List.append_assoc, List.singleton_append]
      simp only [scanChar, hdigit, hblank, Bool.false_eq_true, if_false, h.1, if_true, except_ok_bind,
        hrest]

/-- **A word is taken for its count and its unit.** -/
theorem scanFrom_word (t : Duration) (start : ℕ) (first : Bool) (off : ℕ) (rest : List Char)
    (hname : Reads name unit) (hn : n < wordBound) :
    ∃ off', scanFrom ⟨t, .blank start first⟩ off ((toString n ++ name).toList ++ rest) =
      scanFrom ⟨t, .unit n none name.toList.reverse⟩ off' rest := by
  obtain ⟨off₁, hdigits⟩ := scanFrom_digits t start first off (name.toList ++ rest) hn
  obtain ⟨c, letters, hcons⟩ := List.exists_cons_of_ne_nil hname.toList_ne_nil
  have hall := hname.letters
  rw [hcons, List.all_cons, Bool.and_eq_true] at hall
  obtain ⟨hc, hletters⟩ := hall
  obtain ⟨hdigit, hblank⟩ := unitLetter_spec hc
  obtain ⟨off₂, hletters⟩ := scanFrom_letters t n [c] (off₁ + c.utf8Size) letters rest hletters
  refine ⟨off₂, ?_⟩
  rw [String.toList_append, Nat.toString_eq_repr, Nat.toList_repr, List.append_assoc, hdigits, hcons,
    List.cons_append, scanFrom]
  simp only [scanChar, hdigit, hblank, Bool.false_eq_true, if_false, hc, if_true, except_ok_bind,
    hletters, List.reverse_cons]

/-- Words, each of a count and the name of a unit, and the nanoseconds that they stand for. -/
inductive Spelt : List String → ℕ → Prop
  | nil : Spelt [] 0
  | cons {n : ℕ} {name : String} {unit : TimeUnit} {texts : List String} {amount : ℕ}
      (reads : Reads name unit) (fits : unit.grain.Fits n) (rest : Spelt texts amount) :
      Spelt ((toString n ++ name) :: texts) (n * unit.grain.toNanos + amount)

theorem Spelt.append (h : Spelt texts amount) (h' : Spelt texts' amount') :
    Spelt (texts ++ texts') (amount + amount') := by
  induction h with
  | nil => simpa using h'
  | cons reads fits _ ih => simpa [Nat.add_assoc] using Spelt.cons reads fits ih

theorem Grain.Fits.count_lt {grain : Grain} (h : grain.Fits n) (hpos : 0 < grain.perUnit) :
    n < wordBound :=
  Nat.lt_of_le_of_lt (Nat.le_mul_of_pos_right n hpos) h.lt_wordBound

theorem TimeUnit.perUnit_pos (unit : TimeUnit) : 0 < unit.grain.perUnit := by
  cases unit <;> decide

theorem Spelt.eq_zero (h : Spelt [] amount) : amount = 0 := by
  cases h
  rfl

/-- **The scanner adds up what the words stand for.** -/
theorem Spelt.scan (h : Spelt texts amount) (hne : texts ≠ []) (hsum : t.toNanos + amount = d.toNanos)
    (start : ℕ) (first : Bool) (off : ℕ) :
    scanFrom ⟨t, .blank start first⟩ off (" ".intercalate texts).toList = .ok d := by
  induction h generalizing t start first off with
  | nil => exact absurd rfl hne
  | @cons n name unit texts amount reads fits rest ih =>
      have hcount := fits.count_lt unit.perUnit_pos
      have hle : t.toNanos + n * unit.grain.toNanos ≤ d.toNanos := by omega
      obtain ⟨t', hadd, hnanos⟩ := addCount_spec reads.known fits hle
      have hunit : unitName name.toList.reverse = name := by simp [unitName]
      cases rest with
      | nil =>
          -- the end of the text ends the last unit
          obtain ⟨off', hword⟩ := scanFrom_word t start first off [] reads hcount
          rw [List.append_nil] at hword
          rw [String.intercalate_singleton, hword, scanFrom]
          simp only [scanEnd, hunit, hadd]
          exact congrArg Except.ok (toNanos_injective (by omega))
      | cons reads' fits' rest' =>
          -- a blank ends the unit, and the scanner goes on with the other words
          rw [String.intercalate_cons_cons, String.toList_append, String.toList_append,
            List.append_assoc]
          obtain ⟨off', hword⟩ := scanFrom_word t start first off _ reads hcount
          rw [hword, show " ".toList = [' '] from rfl, List.singleton_append, scanFrom]
          simp only [scanChar, show digit? ' ' = none from rfl, show Text.isBlank ' ' = true from rfl,
            if_true, hunit, hadd, except_ok_bind]
          exact ih (by simp) (by omega) ..

/-! ### Spans -/

theorem spelt_short (reads : Reads name unit) (fits : unit.grain.Fits n) :
    Spelt (short n name) (n * unit.grain.toNanos) := by
  unfold short
  split
  · rename_i hzero
    rw [hzero, Nat.zero_mul]
    exact .nil
  · exact .cons reads fits .nil

theorem spelt_long (one : Reads name unit) (many : Reads (name ++ "s") unit)
    (fits : unit.grain.Fits n) : Spelt (long n name) (n * unit.grain.toNanos) := by
  unfold long
  split
  · rename_i hzero
    rw [hzero, Nat.zero_mul]
    exact .nil
  · split
    · rename_i hone
      subst hone
      have htext : "1" = toString 1 := by decide
      rw [htext]
      exact .cons one fits .nil
    · rw [String.append_assoc]
      exact .cons many fits .nil

/-- **The parts of a span stand for it.** -/
theorem spelt_parts (d : Duration) : Spelt d.parts d.toNanos := by
  have hyear : d.seconds % secondsPerYear ≤ d.seconds := Nat.mod_le ..
  have hmonth : d.seconds % secondsPerYear % secondsPerMonth ≤ d.seconds :=
    (Nat.mod_le ..).trans hyear
  have hday : d.seconds % secondsPerYear % secondsPerMonth % 86400 ≤ d.seconds :=
    (Nat.mod_le ..).trans hmonth
  have hyears := spelt_long (n := d.seconds / secondsPerYear)
    (⟨by decide, by decide⟩ : Reads "year" .year) ⟨by decide, by decide⟩
    (Grain.fits_seconds (Nat.div_mul_le_self ..))
  have hmonths := spelt_long (n := d.seconds % secondsPerYear / secondsPerMonth)
    (⟨by decide, by decide⟩ : Reads "month" .month) ⟨by decide, by decide⟩
    (Grain.fits_seconds ((Nat.div_mul_le_self ..).trans hyear))
  have hdays := spelt_long (n := d.seconds % secondsPerYear % secondsPerMonth / 86400)
    (⟨by decide, by decide⟩ : Reads "day" .day) ⟨by decide, by decide⟩
    (Grain.fits_seconds ((Nat.div_mul_le_self ..).trans hmonth))
  have hhours := spelt_short (n := d.seconds % secondsPerYear % secondsPerMonth % 86400 / 3600)
    (⟨by decide, by decide⟩ : Reads "h" .hour)
    (Grain.fits_seconds ((Nat.div_mul_le_self ..).trans hday))
  have hminutes := spelt_short (n := d.seconds % secondsPerYear % secondsPerMonth % 86400 % 3600 / 60)
    (⟨by decide, by decide⟩ : Reads "m" .minute)
    (Grain.fits_seconds ((Nat.div_mul_le_self ..).trans ((Nat.mod_le ..).trans hday)))
  have hseconds := spelt_short (n := d.seconds % secondsPerYear % secondsPerMonth % 86400 % 60)
    (⟨by decide, by decide⟩ : Reads "s" .second)
    (Grain.fits_seconds ((Nat.mul_one _).trans_le ((Nat.mod_le ..).trans hday)))
  have hmillis := spelt_short (n := d.nanos / 1000000)
    (⟨by decide, by decide⟩ : Reads "ms" .millisecond) (Grain.fits_nanos (Nat.div_mul_le_self ..))
  have hmicros := spelt_short (n := d.nanos / 1000 % 1000)
    (⟨by decide, by decide⟩ : Reads "us" .microsecond) (Grain.fits_nanos (d := d) (by omega))
  have hrest := spelt_short (n := d.nanos % 1000)
    (⟨by decide, by decide⟩ : Reads "ns" .nanosecond) (Grain.fits_nanos (d := d) (by omega))
  have hall := (((((((hyears.append hmonths).append hdays).append hhours).append hminutes).append
    hseconds).append hmillis).append hmicros).append hrest
  refine Eq.subst (motive := Spelt d.parts) ?_ hall
  simp only [toNanos, TimeUnit.grain, Grain.toNanos, secondsPerYear, secondsPerMonth]
  omega

/-- **What was written is read back.** -/
theorem parse_render (d : Duration) : parse d.render = .ok d := by
  have hscan : scanFrom ⟨zero, .blank 0 true⟩ 0 d.render.toList = .ok d := by
    unfold render
    split
    · rename_i hzero
      obtain rfl : d = zero := toNanos_injective (by simp [toNanos, zero, hzero])
      rfl
    · rename_i hne
      refine d.spelt_parts.scan (fun hnil => hne ?_) (by simp [toNanos, zero]) ..
      have hzero := Spelt.eq_zero (hnil ▸ d.spelt_parts)
      simp only [toNanos] at hzero
      omega
  rw [parse, if_neg, hscan]
  -- a lone zero would lack a unit
  intro hlone
  have herror : scanFrom ⟨zero, .blank 0 true⟩ 0 "0".toList = .error (.unitNeeded 0) := by rfl
  rw [hlone, herror] at hscan
  cases hscan

end Duration

end Rebuild
