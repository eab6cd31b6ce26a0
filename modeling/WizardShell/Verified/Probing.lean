import Mathlib.Algebra.Order.Group.Nat
import Mathlib.Data.Finset.Card
import Mathlib.Data.Nat.Find
import Mathlib.Data.Nat.ModEq
import Mathlib.Logic.Function.Basic
import WizardShell.Verified.Outcome

/-!
# Open addressing with linear probing

A table is a memory of slots, each empty or holding a key and a value, of
which the first `cap` are in use.  A key has a *home* slot; a search starts
there and moves to the next slot, cyclically, until it meets an empty slot or
the key.  The search has no counter: it stops only because such a slot exists.

`WellPlaced` is the invariant that makes the table a map: keys are distinct,
and every slot on the cyclic path from a key's home to its slot is occupied.
`Denotes` is the map the table stands for.  Nothing is assumed about the
capacity (it need not be a power of two) or about the home function, except
that homes lie inside the table.
-/

namespace WizardShell.Verified.Probing

open Function

variable {K V : Type*}

/-- The slots of a table: empty, or a key with its value. -/
abbrev Slots (K V : Type*) := Nat → Option (K × V)

/-- The slot after `i`, back to `0` behind the last one. -/
def nextSlot (cap i : Nat) : Nat := if i + 1 > cap - 1 then 0 else i + 1

/-- The slot `d` places after `h` on the cycle of `cap` slots. -/
def cyclic (cap h d : Nat) : Nat := (h + d) % cap

@[simp] theorem cyclic_zero {cap h : Nat} (hh : h < cap) : cyclic cap h 0 = h := by
  simp [cyclic, Nat.mod_eq_of_lt hh]

theorem cyclic_lt {cap : Nat} (h d : Nat) (hcap : 0 < cap) : cyclic cap h d < cap :=
  Nat.mod_lt _ hcap

/-- Stepping to the next slot is moving one place on the cycle. -/
theorem cyclic_nextSlot {cap h : Nat} (d : Nat) (hh : h < cap) :
    cyclic cap (nextSlot cap h) d = cyclic cap h (d + 1) := by
  unfold nextSlot cyclic
  split
  · have hlast : h + (d + 1) = d + cap := by omega
    rw [hlast, Nat.add_mod_right, Nat.zero_add]
  · congr 1
    omega

theorem nextSlot_lt {cap h : Nat} (hh : h < cap) : nextSlot cap h < cap := by
  unfold nextSlot
  split <;> omega

/-- Every slot lies on the cycle from any other, fewer than `cap` places on. -/
theorem exists_cyclic_eq {cap h i : Nat} (hh : h < cap) (hi : i < cap) :
    ∃ d, d < cap ∧ cyclic cap h d = i := by
  refine ⟨(i + (cap - h)) % cap, Nat.mod_lt _ (by omega), ?_⟩
  have hsum : h + (i + (cap - h)) = i + cap := by omega
  unfold cyclic
  rw [Nat.add_mod_mod, hsum, Nat.add_mod_right, Nat.mod_eq_of_lt hi]

section Search

variable [DecidableEq K]

/-- The search: from slot `ind` on, the first slot that is empty or holds
`key`. -/
def probe (cap : Nat) (slots : Slots K V) (key : K) : Nat → Nat → Outcome Nat
  | 0, _ => .outOfFuel
  | fuel + 1, ind =>
      match slots ind with
      | none => .ret ind
      | some (k, _) =>
          if k = key then .ret ind
          else probe cap slots key fuel (nextSlot cap ind)

/-- The search for `key` stops at slot `i`. -/
def Stops (slots : Slots K V) (key : K) (i : Nat) : Prop :=
  ∀ entry, slots i = some entry → entry.1 = key

/-- One turn of the search: it stops here, or goes on behind. -/
theorem probe_succ (cap : Nat) (slots : Slots K V) (key : K) (fuel ind : Nat) :
    (Stops slots key ind ∧ probe cap slots key (fuel + 1) ind = .ret ind) ∨
    (¬ Stops slots key ind ∧ probe cap slots key (fuel + 1) ind =
      probe cap slots key fuel (nextSlot cap ind)) := by
  cases hslot : slots ind with
  | none => left; simp [Stops, probe, hslot]
  | some entry =>
      obtain ⟨k, v⟩ := entry
      by_cases hk : k = key
      · left; simp [Stops, probe, hslot, hk]
      · right; simp [Stops, probe, hslot, hk]

/-- The search returns slot `i` exactly when `i` is the first stopping slot
on the cycle and the fuel reaches it. -/
theorem probe_eq_ret {cap : Nat} {slots : Slots K V} {key : K}
    {fuel ind i : Nat} (hind : ind < cap) :
    probe cap slots key fuel ind = .ret i ↔
      ∃ d, d < fuel ∧ cyclic cap ind d = i ∧ Stops slots key i ∧
        ∀ e, e < d → ¬ Stops slots key (cyclic cap ind e) := by
  induction fuel generalizing ind with
  | zero => simp [probe]
  | succ fuel ih =>
      rcases probe_succ cap slots key fuel ind with ⟨hstop, heq⟩ | ⟨hgo, heq⟩
      · rw [heq]
        constructor
        · intro hret
          cases hret
          exact ⟨0, by omega, cyclic_zero hind, hstop, by omega⟩
        · rintro ⟨d, _, hcyc, _, hfirst⟩
          have hd : d = 0 := by
            by_contra hpos
            exact hfirst 0 (by omega) (by rwa [cyclic_zero hind])
          subst hd
          rw [← hcyc, cyclic_zero hind]
      · rw [heq, ih (nextSlot_lt hind)]
        constructor
        · rintro ⟨d, hd, hcyc, hstop, hfirst⟩
          rw [cyclic_nextSlot d hind] at hcyc
          refine ⟨d + 1, by omega, hcyc, hstop, ?_⟩
          intro e he
          cases e with
          | zero => rwa [cyclic_zero hind]
          | succ e =>
              rw [← cyclic_nextSlot e hind]
              exact hfirst e (by omega)
        · rintro ⟨d, hd, hcyc, hstop, hfirst⟩
          cases d with
          | zero =>
              rw [cyclic_zero hind] at hcyc
              exact absurd (hcyc ▸ hstop) hgo
          | succ d =>
              refine ⟨d, by omega, by rw [cyclic_nextSlot d hind]; exact hcyc,
                hstop, ?_⟩
              intro e he
              rw [cyclic_nextSlot e hind]
              exact hfirst (e + 1) (by omega)

/-- Wherever the search returns, it has a reason to stop. -/
theorem probe_stops {cap : Nat} {slots : Slots K V} {key : K}
    {fuel ind i : Nat} (h : probe cap slots key fuel ind = .ret i) :
    Stops slots key i := by
  induction fuel generalizing ind with
  | zero => simp [probe] at h
  | succ fuel ih =>
      rcases probe_succ cap slots key fuel ind with ⟨hstop, heq⟩ | ⟨_, heq⟩
      · rw [heq] at h
        cases h
        exact hstop
      · rw [heq] at h
        exact ih h

/-- If some slot of the table stops the search, fuel for one round finds the
first one. -/
theorem probe_returns {cap : Nat} {slots : Slots K V} {key : K}
    {fuel ind i : Nat} (hind : ind < cap) (hi : i < cap)
    (hstop : Stops slots key i) (hfuel : cap ≤ fuel) :
    ∃ j, j < cap ∧ probe cap slots key fuel ind = .ret j := by
  classical
  obtain ⟨d, hd, hcyc⟩ := exists_cyclic_eq hind hi
  have hex : ∃ d, Stops slots key (cyclic cap ind d) := ⟨d, hcyc ▸ hstop⟩
  have hmin : Nat.find hex ≤ d := Nat.find_min' hex (hcyc ▸ hstop)
  refine ⟨cyclic cap ind (Nat.find hex), cyclic_lt _ _ (by omega), ?_⟩
  rw [probe_eq_ret hind]
  exact ⟨Nat.find hex, by omega, rfl, Nat.find_spec hex,
    fun e he => Nat.find_min hex he⟩

/-- If no slot of the table stops the search, no fuel is enough. -/
theorem probe_outOfFuel {cap : Nat} {slots : Slots K V} {key : K}
    {ind : Nat} (hind : ind < cap)
    (hgo : ∀ i, i < cap → ¬ Stops slots key i) (fuel : Nat) :
    probe cap slots key fuel ind = .outOfFuel := by
  induction fuel generalizing ind with
  | zero => rfl
  | succ fuel ih =>
      rcases probe_succ cap slots key fuel ind with ⟨hstop, _⟩ | ⟨_, heq⟩
      · exact absurd hstop (hgo ind hind)
      · rw [heq]
        exact ih (nextSlot_lt hind)

end Search

/-! ## The invariant and the map it stands for -/

/-- Keys are distinct, and every slot on the cyclic path from a key's home to
its slot is occupied. -/
structure WellPlaced (cap : Nat) (home : K → Nat) (slots : Slots K V) : Prop where
  distinct : ∀ {i j k v w}, i < cap → j < cap →
    slots i = some (k, v) → slots j = some (k, w) → i = j
  path : ∀ {i k v}, i < cap → slots i = some (k, v) →
    ∃ d, d < cap ∧ cyclic cap (home k) d = i ∧
      ∀ e, e < d → slots (cyclic cap (home k) e) ≠ none

/-- The table holds exactly the pairs of the map `m`. -/
def Denotes (cap : Nat) (slots : Slots K V) (m : K → Option V) : Prop :=
  ∀ k v, m k = some v ↔ ∃ i, i < cap ∧ slots i = some (k, v)

/-- The number of occupied slots. -/
def occupied (cap : Nat) (slots : Slots K V) : Nat :=
  ((Finset.range cap).filter fun i => (slots i).isSome).card

theorem occupied_le (cap : Nat) (slots : Slots K V) : occupied cap slots ≤ cap := by
  have h := Finset.card_filter_le (Finset.range cap) fun i => (slots i).isSome
  simpa [occupied] using h

/-- A table that is not full has an empty slot. -/
theorem exists_empty {cap : Nat} {slots : Slots K V}
    (h : occupied cap slots < cap) : ∃ i, i < cap ∧ slots i = none := by
  by_contra hnone
  push Not at hnone
  have hall : (Finset.range cap).filter (fun i => (slots i).isSome) =
      Finset.range cap := by
    refine Finset.filter_true_of_mem fun i hi => ?_
    exact Option.isSome_iff_ne_none.mpr (hnone i (Finset.mem_range.mp hi))
  rw [occupied, hall, Finset.card_range] at h
  omega

/-- A full table has no empty slot. -/
theorem ne_none_of_full {cap i : Nat} {slots : Slots K V}
    (h : cap ≤ occupied cap slots) (hi : i < cap) : slots i ≠ none := by
  intro hnone
  have hsub : (Finset.range cap).filter (fun i => (slots i).isSome) ⊂
      Finset.range cap := by
    refine Finset.filter_ssubset.mpr ⟨i, Finset.mem_range.mpr hi, ?_⟩
    simp [hnone]
  have hlt := Finset.card_lt_card hsub
  rw [Finset.card_range] at hlt
  exact absurd h (Nat.not_le.mpr hlt)

/-- The empty table. -/
theorem wellPlaced_empty (cap : Nat) (home : K → Nat) :
    WellPlaced cap home (fun _ => none : Slots K V) where
  distinct := by intro i j k v w _ _ h; simp at h
  path := by intro i k v _ h; simp at h

theorem denotes_empty (cap : Nat) :
    Denotes cap (fun _ => none : Slots K V) fun _ => none := by
  intro k v
  simp

@[simp] theorem occupied_empty (cap : Nat) :
    occupied cap (fun _ => none : Slots K V) = 0 := by
  simp [occupied]

/-- A slot's key is in the map, with the slot's value. -/
theorem Denotes.get {cap i : Nat} {slots : Slots K V} {m : K → Option V}
    (h : Denotes cap slots m) {k : K} {v : V} (hi : i < cap)
    (hslot : slots i = some (k, v)) : m k = some v :=
  (h k v).mpr ⟨i, hi, hslot⟩

/-- A table stands for one map only. -/
theorem Denotes.unique {cap : Nat} {slots : Slots K V} {m m' : K → Option V}
    (h : Denotes cap slots m) (h' : Denotes cap slots m') : m = m' := by
  funext k
  refine Option.ext fun v => ?_
  exact (h k v).trans (h' k v).symm

/-- A key that is not in the map stops the search at empty slots only. -/
theorem Denotes.not_stops {cap i : Nat} {slots : Slots K V} {m : K → Option V}
    (h : Denotes cap slots m) {k : K} (hk : m k = none) (hi : i < cap)
    (hslot : slots i ≠ none) : ¬ Stops slots k i := by
  intro hstop
  obtain ⟨⟨k', v⟩, hentry⟩ := Option.ne_none_iff_exists'.mp hslot
  have hkey : k' = k := hstop _ hentry
  subst hkey
  simp [h.get hi hentry] at hk

end WizardShell.Verified.Probing
