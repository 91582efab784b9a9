/-
Lists whose elements have different keys.

Tasks and modules are known by their names, and graphs on them are made by numbering them.  Where no
two elements of a list have one key, a relation between keys and the relation it becomes between
places have the same paths.

* `Keyed.findIdx?_eq_some_iff`, `Keyed.index_eq_of_key_eq` — a key and its place;
* `Keyed.lookup_eq_some_iff` — a key and its value;
* `Keyed.transGen_key`, `Keyed.transGen_index`, `Keyed.reflTransGen_iff` — **paths between places are
  paths between keys**.
-/
import Mathlib

set_option relaxedAutoImplicit false
set_option autoImplicit false

namespace Rebuild.Keyed

open Relation

variable {α : Type} {key : α → String} {l : List α} {r : ℕ → ℕ → Prop}
  {q : String → String → Prop} {a b : α} {u v : ℕ}

theorem findIdx?_eq_some_iff (hn : (l.map key).Nodup) {n : String} :
    l.findIdx? (fun a => key a == n) = some u ↔ ∃ a, l[u]? = some a ∧ key a = n := by
  rw [List.findIdx?_eq_some_iff_getElem]
  constructor
  · rintro ⟨hu, hkey, _⟩
    exact ⟨l[u], List.getElem?_eq_getElem hu, by simpa using hkey⟩
  · rintro ⟨a, ha, rfl⟩
    obtain ⟨hu, rfl⟩ := List.getElem?_eq_some_iff.1 ha
    refine ⟨hu, by simp, fun j hj => ?_⟩
    -- an earlier element with that key would be the same one twice
    have hne := List.pairwise_iff_getElem.1 hn j u (by simp; omega) (by simpa using hu) hj
    simpa using hne

/-- A list of pairs as a table: what is looked up is what is in it. -/
theorem lookup_eq_some_iff {κ β : Type} [BEq κ] [LawfulBEq κ] {table : List (κ × β)}
    (hn : (table.map Prod.fst).Nodup) {k : κ} {b : β} :
    table.lookup k = some b ↔ (k, b) ∈ table := by
  induction table with
  | nil => simp
  | cons e es ih =>
      obtain ⟨l, c⟩ := e
      obtain ⟨hnew, hes⟩ := List.nodup_cons.1 hn
      rw [List.mem_cons, List.lookup_cons]
      by_cases heq : k = l
      · subst heq
        have hnot : (k, b) ∉ es := fun hmem => hnew (List.mem_map.2 ⟨_, hmem, rfl⟩)
        simp [hnot, eq_comm]
      · have hbeq : (k == l) = false := beq_eq_false_iff_ne.2 heq
        simp [hbeq, heq, ih hes]

/-- Elements with one key stand at one place. -/
theorem index_eq_of_key_eq (hn : (l.map key).Nodup) (hu : l[u]? = some a) (hv : l[v]? = some b)
    (h : key a = key b) : u = v := by
  have hfind := (findIdx?_eq_some_iff hn).2 ⟨a, hu, h⟩
  rw [(findIdx?_eq_some_iff hn).2 ⟨b, hv, rfl⟩] at hfind
  exact (Option.some.inj hfind).symm

/-- A path between places is a path between keys. -/
theorem transGen_key
    (hr : ∀ {u v}, r u v → ∃ a b, l[u]? = some a ∧ l[v]? = some b ∧ q (key a) (key b))
    (h : TransGen r u v) (hu : l[u]? = some a) (hv : l[v]? = some b) :
    TransGen q (key a) (key b) := by
  induction h generalizing b with
  | single huv =>
      obtain ⟨a', b', ha', hb', hq⟩ := hr huv
      obtain rfl : a = a' := Option.some.inj (hu.symm.trans ha')
      obtain rfl : b = b' := Option.some.inj (hv.symm.trans hb')
      exact TransGen.single hq
  | tail _ hwv ih =>
      obtain ⟨c, b', hc, hb', hq⟩ := hr hwv
      obtain rfl : b = b' := Option.some.inj (hv.symm.trans hb')
      exact (ih hc).tail hq

/-- A path between keys is a path between places. -/
theorem transGen_index
    (hr : ∀ {u v a b}, l[u]? = some a → l[v]? = some b → q (key a) (key b) → r u v)
    (hq : ∀ {m n}, q m n → m ∈ l.map key)
    (h : TransGen q (key a) (key b)) (hu : l[u]? = some a) (hv : l[v]? = some b) :
    TransGen r u v := by
  generalize hb : key b = n at h
  induction h generalizing b v with
  | single hab => exact TransGen.single (hr hu hv (hb ▸ hab))
  | tail _ hmn ih =>
      obtain ⟨c, hc, rfl⟩ := List.mem_map.1 (hq hmn)
      obtain ⟨w, hw⟩ := List.mem_iff_getElem?.1 hc
      exact (ih hw rfl).tail (hr hw hv (hb ▸ hmn))

/-- **Two places reach each other as their keys do.** -/
theorem reflTransGen_iff (hn : (l.map key).Nodup)
    (hr : ∀ {u v}, r u v ↔ ∃ a b, l[u]? = some a ∧ l[v]? = some b ∧ q (key a) (key b))
    (hq : ∀ {m n}, q m n → m ∈ l.map key) (hu : l[u]? = some a) (hv : l[v]? = some b) :
    ReflTransGen r u v ↔ ReflTransGen q (key a) (key b) := by
  rw [reflTransGen_iff_eq_or_transGen, reflTransGen_iff_eq_or_transGen]
  refine or_congr ⟨?_, fun h => index_eq_of_key_eq hn hv hu h⟩ ⟨fun h => ?_, fun h => ?_⟩
  · rintro rfl
    rw [Option.some.inj (hu.symm.trans hv)]
  · exact transGen_key hr.1 h hu hv
  · exact transGen_index (fun ha hb hab => hr.2 ⟨_, _, ha, hb, hab⟩) hq h hu hv

end Rebuild.Keyed
