import Mathlib.Data.List.Nodup
import Mathlib.Logic.Function.Basic

/-!
# A registry of records under two keys

Each record has a number, issued by a counter when it is entered, and a key of
its own.  Numbers are not issued twice and a key is not entered while it is in
use, so a record can be found, removed and revised by either.  `lookup` reads
the registry as a map from keys, and every operation is one update of that map.
-/

namespace WizardShell.Verified

open Function

variable {β κ : Type} {num : β → Int} {key : β → κ}

/-- Records with distinct numbers, between 1 and the last one issued, and
distinct keys. -/
structure Registry (num : β → Int) (key : β → κ) where
  records : List β
  issued : Int
  issued_nonneg : 0 ≤ issued
  nums_nodup : (records.map num).Nodup
  nums_issued : ∀ x ∈ records, 1 ≤ num x ∧ num x ≤ issued
  keys_nodup : (records.map key).Nodup

namespace Registry

/-- No record, and no number issued. -/
def empty : Registry num key where
  records := []
  issued := 0
  issued_nonneg := Int.le_refl 0
  nums_nodup := List.nodup_nil
  nums_issued := List.forall_mem_nil _
  keys_nodup := List.nodup_nil

/-- Issue a number to no record. -/
def issue (r : Registry num key) : Registry num key :=
  { r with
    issued := r.issued + 1
    issued_nonneg := by
      have := r.issued_nonneg
      omega
    nums_issued := fun x hx => by
      have := r.nums_issued x hx
      omega }

/-- Two records with one key are the same. -/
theorem eq_of_key (r : Registry num key) {x y : β} (hx : x ∈ r.records)
    (hy : y ∈ r.records) (h : key x = key y) : x = y :=
  List.inj_on_of_nodup_map r.keys_nodup hx hy h

/-- Two records with one number are the same. -/
theorem eq_of_num (r : Registry num key) {x y : β} (hx : x ∈ r.records)
    (hy : y ∈ r.records) (h : num x = num y) : x = y :=
  List.inj_on_of_nodup_map r.nums_nodup hx hy h

/-- Enter a record under the next number and a key that is not in use. -/
def enter (r : Registry num key) (x : β) (hnum : num x = r.issued + 1)
    (hkey : ∀ y ∈ r.records, key y ≠ key x) : Registry num key where
  records := r.records ++ [x]
  issued := r.issued + 1
  issued_nonneg := by
    have := r.issued_nonneg
    omega
  nums_nodup := by
    rw [List.map_append, List.nodup_append]
    refine ⟨r.nums_nodup, List.nodup_singleton _, ?_⟩
    intro a ha b hb
    obtain ⟨y, hy, rfl⟩ := List.mem_map.mp ha
    have hle := (r.nums_issued y hy).2
    rw [List.mem_singleton.mp hb, hnum]
    omega
  nums_issued := by
    intro y hy
    rcases List.mem_append.mp hy with hold | hnew
    · have := r.nums_issued y hold
      omega
    · have := r.issued_nonneg
      rw [List.mem_singleton.mp hnew, hnum]
      omega
  keys_nodup := by
    rw [List.map_append, List.nodup_append]
    refine ⟨r.keys_nodup, List.nodup_singleton _, ?_⟩
    intro a ha b hb
    obtain ⟨y, hy, rfl⟩ := List.mem_map.mp ha
    rw [List.mem_singleton.mp hb]
    exact hkey y hy

/-- The other records have other keys. -/
theorem key_ne_of_split {r : Registry num key} {x : β} {pre post : List β}
    (h : r.records = pre ++ x :: post) :
    (∀ y ∈ pre, key y ≠ key x) ∧ ∀ y ∈ post, key y ≠ key x := by
  have hnodup := r.keys_nodup
  rw [h, List.map_append, List.map_cons, List.nodup_middle, List.nodup_cons] at hnodup
  have hnot := hnodup.1
  rw [← List.map_append] at hnot
  constructor
  · intro y hy heq
    exact hnot (heq ▸ List.mem_map_of_mem (List.mem_append_left _ hy))
  · intro y hy heq
    exact hnot (heq ▸ List.mem_map_of_mem (List.mem_append_right _ hy))

variable [DecidableEq κ]

/-- Remove what is entered under a key. -/
def remove (r : Registry num key) (k : κ) : Registry num key :=
  { r with
    records := r.records.filter fun x => key x ≠ k
    nums_nodup := r.nums_nodup.sublist (List.filter_sublist.map num)
    nums_issued := fun x hx => r.nums_issued x (List.mem_of_mem_filter hx)
    keys_nodup := r.keys_nodup.sublist (List.filter_sublist.map key) }

/-- Revise what is entered under a key, keeping its number and key. -/
def revise (r : Registry num key) (k : κ) (f : β → β) (hnum : ∀ x, num (f x) = num x)
    (hkey : ∀ x, key (f x) = key x) : Registry num key :=
  { r with
    records := r.records.map fun x => if key x = k then f x else x
    nums_nodup := by
      have hsame : num ∘ (fun x => if key x = k then f x else x) = num := by
        funext x
        by_cases h : key x = k <;> simp [h, hnum]
      rw [List.map_map, hsame]
      exact r.nums_nodup
    nums_issued := by
      intro y hy
      obtain ⟨x, hx, rfl⟩ := List.mem_map.mp hy
      by_cases h : key x = k
      · simpa only [if_pos h, hnum] using r.nums_issued x hx
      · simpa only [if_neg h] using r.nums_issued x hx
    keys_nodup := by
      have hsame : key ∘ (fun x => if key x = k then f x else x) = key := by
        funext x
        by_cases h : key x = k <;> simp [h, hkey]
      rw [List.map_map, hsame]
      exact r.keys_nodup }

/-! ## The registry as a map from keys -/

/-- What is entered under a key. -/
def lookup (r : Registry num key) (k : κ) : Option β :=
  r.records.find? fun x => key x = k

variable {r : Registry num key} {k : κ} {x : β}

theorem lookup_eq_some : r.lookup k = some x ↔ x ∈ r.records ∧ key x = k := by
  constructor
  · intro h
    have hkey : key x = k := by simpa using List.find?_some h
    exact ⟨List.mem_of_find?_eq_some h, hkey⟩
  · rintro ⟨hx, rfl⟩
    cases hfind : r.lookup (key x) with
    | none => simpa using List.find?_eq_none.mp hfind x hx
    | some y =>
        have hkey : key y = key x := by simpa using List.find?_some hfind
        rw [r.eq_of_key (List.mem_of_find?_eq_some hfind) hx hkey]

theorem lookup_eq_none : r.lookup k = none ↔ ∀ x ∈ r.records, key x ≠ k := by
  simp [lookup]

/-- The lookup is the map that has each record under its key. -/
theorem lookup_eq {m : κ → Option β}
    (h : ∀ k x, x ∈ r.records ∧ key x = k ↔ m k = some x) : r.lookup = m := by
  funext k
  refine Option.ext fun x => ?_
  rw [lookup_eq_some]
  exact h k x

@[simp] theorem lookup_enter (hnum : num x = r.issued + 1)
    (hkey : ∀ y ∈ r.records, key y ≠ key x) :
    (r.enter x hnum hkey).lookup = update r.lookup (key x) (some x) := by
  refine lookup_eq fun k y => ?_
  show y ∈ r.records ++ [x] ∧ _ ↔ _
  rw [List.mem_append, List.mem_singleton]
  by_cases hk : k = key x
  · subst hk
    rw [update_self, Option.some.injEq]
    constructor
    · rintro ⟨hold | rfl, hy⟩
      · exact absurd hy (hkey y hold)
      · rfl
    · rintro rfl
      exact ⟨.inr rfl, rfl⟩
  · rw [update_of_ne hk, lookup_eq_some]
    constructor
    · rintro ⟨hold | rfl, hy⟩
      · exact ⟨hold, hy⟩
      · exact absurd hy.symm hk
    · rintro ⟨hold, hy⟩
      exact ⟨.inl hold, hy⟩

@[simp] theorem lookup_remove : (r.remove k).lookup = update r.lookup k none := by
  refine lookup_eq fun k' y => ?_
  show y ∈ r.records.filter _ ∧ _ ↔ _
  rw [List.mem_filter, decide_eq_true_eq]
  by_cases hk : k' = k
  · subst hk
    rw [update_self]
    simp
  · rw [update_of_ne hk, lookup_eq_some]
    constructor
    · rintro ⟨⟨hy, _⟩, rfl⟩
      exact ⟨hy, rfl⟩
    · rintro ⟨hy, rfl⟩
      exact ⟨⟨hy, hk⟩, rfl⟩

@[simp] theorem lookup_revise {f : β → β} (hnum : ∀ x, num (f x) = num x)
    (hkey : ∀ x, key (f x) = key x) :
    (r.revise k f hnum hkey).lookup = update r.lookup k ((r.lookup k).map f) := by
  refine lookup_eq fun k' y => ?_
  show y ∈ r.records.map _ ∧ _ ↔ _
  rw [List.mem_map]
  by_cases hk : k' = k
  · subst hk
    rw [update_self, Option.map_eq_some_iff]
    constructor
    · rintro ⟨⟨x, hx, rfl⟩, hy⟩
      by_cases h : key x = k'
      · exact ⟨x, lookup_eq_some.mpr ⟨hx, h⟩, (if_pos h).symm⟩
      · rw [if_neg h] at hy
        exact absurd hy h
    · rintro ⟨x, hx, rfl⟩
      obtain ⟨hmem, h⟩ := lookup_eq_some.mp hx
      exact ⟨⟨x, hmem, if_pos h⟩, (hkey x).trans h⟩
  · rw [update_of_ne hk, lookup_eq_some]
    constructor
    · rintro ⟨⟨x, hx, rfl⟩, hy⟩
      by_cases h : key x = k
      · rw [if_pos h, hkey, h] at hy
        exact absurd hy.symm hk
      · rw [if_neg h] at hy ⊢
        exact ⟨hx, hy⟩
    · rintro ⟨hx, rfl⟩
      exact ⟨⟨y, hx, if_neg hk⟩, rfl⟩

/-- A key in use is the key of one record, any other of none. -/
theorem count_key : (r.records.map key).count k = if (r.lookup k).isSome then 1 else 0 := by
  cases hlookup : r.lookup k with
  | none =>
      refine List.count_eq_zero.mpr fun hmem => ?_
      obtain ⟨x, hx, hkey⟩ := List.mem_map.mp hmem
      exact lookup_eq_none.mp hlookup x hx hkey
  | some x =>
      obtain ⟨hx, rfl⟩ := lookup_eq_some.mp hlookup
      exact List.count_eq_one_of_mem r.keys_nodup (List.mem_map_of_mem hx)

/-! ## Operations on the record in the middle -/

variable {pre post : List β}

theorem remove_of_split (h : r.records = pre ++ x :: post) :
    (r.remove (key x)).records = pre ++ post := by
  obtain ⟨hpre, hpost⟩ := key_ne_of_split h
  show r.records.filter _ = _
  rw [h, List.filter_append, List.filter_cons_of_neg (by simp)]
  rw [List.filter_eq_self.mpr (by simpa using hpre),
    List.filter_eq_self.mpr (by simpa using hpost)]

theorem revise_of_split {f : β → β} (hnum : ∀ x, num (f x) = num x)
    (hkey : ∀ x, key (f x) = key x) (h : r.records = pre ++ x :: post) :
    (r.revise (key x) f hnum hkey).records = pre ++ f x :: post := by
  obtain ⟨hpre, hpost⟩ := key_ne_of_split h
  have hid : ∀ l : List β, (∀ y ∈ l, key y ≠ key x) →
      l.map (fun y => if key y = key x then f y else y) = l := by
    intro l hl
    exact (List.map_congr_left fun y hy => if_neg (hl y hy)).trans (List.map_id l)
  show r.records.map _ = _
  rw [h, List.map_append, List.map_cons, hid pre hpre, hid post hpost, if_pos rfl]

theorem remove_of_none (h : r.lookup k = none) : (r.remove k).records = r.records :=
  List.filter_eq_self.mpr (by simpa using lookup_eq_none.mp h)

theorem revise_of_none {f : β → β} (hnum : ∀ x, num (f x) = num x)
    (hkey : ∀ x, key (f x) = key x) (h : r.lookup k = none) :
    (r.revise k f hnum hkey).records = r.records := by
  have hne := lookup_eq_none.mp h
  exact (List.map_congr_left fun y hy => if_neg (hne y hy)).trans (List.map_id _)

end Registry

end WizardShell.Verified
