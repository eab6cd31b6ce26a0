import Mathlib.Logic.Function.Basic
import WizardShell.Verified.Outcome

/-!
# Allocated blocks and NULL-terminated arrays

A block is what an allocation returned: a number of cells, each holding some
value from the start.  Reading or writing a cell at or behind the capacity is
undefined.  Growing a block keeps its cells; the cells it adds hold whatever
the allocator left there.  As nothing is known about those values, a block
carries them for all indices from the start.

An array of pointers ends at its first NULL cell.  `contents` reads it up to
there, and `contents_eq_ret` says which cells that takes.
-/

namespace WizardShell.Verified

open Function

/-- An allocated block: its capacity and what each cell holds. -/
structure Block (α : Type) where
  cap : Nat
  cell : Nat → α

namespace Block

variable {α β : Type}

/-- A fresh allocation of `cap` cells, in memory that holds `fresh`. -/
def alloc (cap : Nat) (fresh : Nat → α) : Block α := ⟨cap, fresh⟩

/-- Change the capacity, keeping the cells. -/
def resize (b : Block α) (cap : Nat) : Block α := { b with cap := cap }

/-- The block with one cell changed. -/
def set (b : Block α) (i : Nat) (a : α) : Block α :=
  { b with cell := update b.cell i a }

/-- Write a cell. -/
def write (b : Block α) (i : Nat) (a : α) : Outcome (Block α) :=
  if i < b.cap then .ret (b.set i a) else .undefined

/-- Read a cell. -/
def read (b : Block α) (i : Nat) : Outcome α :=
  if i < b.cap then .ret (b.cell i) else .undefined

@[simp] theorem resize_cap (b : Block α) (cap : Nat) : (b.resize cap).cap = cap := rfl

@[simp] theorem alloc_cap (cap : Nat) (fresh : Nat → α) :
    (alloc cap fresh).cap = cap := rfl

@[simp] theorem alloc_cell (cap : Nat) (fresh : Nat → α) :
    (alloc cap fresh).cell = fresh := rfl

@[simp] theorem set_cap (b : Block α) (i : Nat) (a : α) :
    (b.set i a).cap = b.cap := rfl

@[simp] theorem set_cell_self (b : Block α) (i : Nat) (a : α) :
    (b.set i a).cell i = a := by
  simp [set]

theorem set_cell_ne (b : Block α) {i j : Nat} (a : α) (h : j ≠ i) :
    (b.set i a).cell j = b.cell j := by
  simp [set, h]

theorem set_eq_self {b : Block α} {i : Nat} {a : α} (h : b.cell i = a) :
    b.set i a = b := by
  subst h
  simp [set]

/-- A cell set to a pointer, in a block where the others keep theirs. -/
theorem set_cell_ne_none {b : Block (Option β)} {i j : Nat} {p : β}
    (h : b.cell j ≠ none) : (b.set i (some p)).cell j ≠ none := by
  by_cases hij : j = i
  · simp [hij]
  · rwa [set_cell_ne b _ hij]

theorem write_of_lt {b : Block α} {i : Nat} (h : i < b.cap) (a : α) :
    b.write i a = .ret (b.set i a) := if_pos h

theorem write_of_le {b : Block α} {i : Nat} (h : b.cap ≤ i) (a : α) :
    b.write i a = .undefined := if_neg (Nat.not_lt.mpr h)

theorem write_eq_ret {b b' : Block α} {i : Nat} {a : α} :
    b.write i a = .ret b' ↔ i < b.cap ∧ b' = b.set i a := by
  by_cases h : i < b.cap
  · rw [write_of_lt h]
    simp [h, eq_comm]
  · rw [write_of_le (Nat.le_of_not_lt h)]
    simp [h]

theorem write_ne_outOfFuel (b : Block α) (i : Nat) (a : α) :
    b.write i a ≠ .outOfFuel := by
  unfold write
  split <;> simp

theorem read_of_lt {b : Block α} {i : Nat} (h : i < b.cap) :
    b.read i = .ret (b.cell i) := if_pos h

theorem read_eq_ret {b : Block α} {i : Nat} {a : α} :
    b.read i = .ret a ↔ i < b.cap ∧ b.cell i = a := by
  by_cases h : i < b.cap
  · rw [read_of_lt h]
    simp [h]
  · simp [read, h]

/-! ## NULL-terminated arrays -/

/-- The pointers from cell `i` to the first NULL, looking at no more than
`room` cells. -/
def contentsFrom (b : Block (Option β)) : Nat → Nat → Outcome (List β)
  | 0, _ => .undefined
  | room + 1, i =>
      match b.cell i with
      | none => .ret []
      | some p => do
          let rest ← contentsFrom b room (i + 1)
          return p :: rest

/-- The array read up to its first NULL; undefined when no cell of the block
is NULL. -/
def contents (b : Block (Option β)) : Outcome (List β) := b.contentsFrom b.cap 0

/-- The index of the first NULL, from cell `i` on. -/
def nullIndexFrom (b : Block (Option β)) : Nat → Nat → Outcome Nat
  | 0, _ => .undefined
  | room + 1, i =>
      match b.cell i with
      | none => .ret i
      | some _ => nullIndexFrom b room (i + 1)

/-- The index of the first NULL, by a loop that reads one cell after another. -/
def nullIndex (b : Block (Option β)) : Outcome Nat := b.nullIndexFrom b.cap 0

theorem contentsFrom_eq_ret {b : Block (Option β)} {room i : Nat} {l : List β} :
    b.contentsFrom room i = .ret l ↔
      l.length < room ∧ ∀ j, j ≤ l.length → b.cell (i + j) = l[j]? := by
  induction room generalizing i l with
  | zero => simp [contentsFrom]
  | succ room ih =>
      unfold contentsFrom
      cases hcell : b.cell i with
      | none =>
          cases l with
          | nil => simp [hcell]
          | cons p l =>
              simp only [Outcome.ret.injEq, reduceCtorEq, false_iff, not_and]
              intro _ h
              have h0 := h 0 (Nat.zero_le _)
              simp [hcell] at h0
      | some p =>
          simp only [Outcome.bind_eq_ret, Outcome.pure_eq, Outcome.ret.injEq, ih]
          constructor
          · rintro ⟨rest, ⟨hlen, hcells⟩, rfl⟩
            refine ⟨by simpa using hlen, fun j hj => ?_⟩
            cases j with
            | zero => simp [hcell]
            | succ j =>
                have h := hcells j (by simpa using hj)
                rw [show i + (j + 1) = i + 1 + j by omega, h]
                simp
          · rintro ⟨hlen, hcells⟩
            cases l with
            | nil =>
                have h0 := hcells 0 (Nat.le_refl _)
                simp [hcell] at h0
            | cons q rest =>
                have h0 := hcells 0 (Nat.zero_le _)
                simp only [Nat.add_zero, hcell, List.getElem?_cons_zero,
                  Option.some.injEq] at h0
                refine ⟨rest, ⟨by simpa using hlen, fun j hj => ?_⟩, by rw [h0]⟩
                have h := hcells (j + 1) (by simpa using hj)
                rw [show i + 1 + j = i + (j + 1) by omega, h]
                simp

/-- **What reading an array takes**: the list in the first cells, NULL in the
next, and all of them inside the block. -/
theorem contents_eq_ret {b : Block (Option β)} {l : List β} :
    b.contents = .ret l ↔
      l.length < b.cap ∧ ∀ i, i ≤ l.length → b.cell i = l[i]? := by
  simp [contents, contentsFrom_eq_ret]

/-- An array with a NULL in it can be read. -/
theorem exists_contentsFrom {b : Block (Option β)} {k : Nat} (hnull : b.cell k = none)
    {room : Nat} : ∀ {i : Nat}, i ≤ k → k < i + room → ∃ l, b.contentsFrom room i = .ret l := by
  induction room with
  | zero =>
      intro i hi hk
      omega
  | succ room ih =>
      intro i hi hk
      unfold contentsFrom
      cases hcell : b.cell i with
      | none => exact ⟨[], rfl⟩
      | some p =>
          have hne : i ≠ k := by
            rintro rfl
            rw [hnull] at hcell
            cases hcell
          obtain ⟨rest, hrest⟩ := ih (by omega : i + 1 ≤ k) (by omega)
          exact ⟨p :: rest, by rw [hrest]; rfl⟩

theorem exists_contents {b : Block (Option β)} {k : Nat} (hnull : b.cell k = none)
    (hinside : k < b.cap) : ∃ l, b.contents = .ret l :=
  exists_contentsFrom hnull (Nat.zero_le k) (by rwa [Nat.zero_add])

/-- The counting loop ends where the array does. -/
theorem nullIndexFrom_eq (b : Block (Option β)) (room i : Nat) :
    b.nullIndexFrom room i =
      (b.contentsFrom room i >>= fun l => .ret (i + l.length)) := by
  induction room generalizing i with
  | zero => rfl
  | succ room ih =>
      unfold nullIndexFrom contentsFrom
      cases b.cell i with
      | none => rfl
      | some p =>
          simp only [ih, bind_assoc, Outcome.pure_eq, Outcome.ret_bind,
            List.length_cons]
          congr 1
          funext l
          congr 1
          omega

theorem nullIndex_eq (b : Block (Option β)) :
    b.nullIndex = (b.contents >>= fun l => .ret l.length) := by
  simp [nullIndex, contents, nullIndexFrom_eq]

theorem contentsFrom_ne_outOfFuel (b : Block (Option β)) (room i : Nat) :
    b.contentsFrom room i ≠ .outOfFuel := by
  induction room generalizing i with
  | zero => simp [contentsFrom]
  | succ room ih =>
      unfold contentsFrom
      cases b.cell i with
      | none => simp
      | some p =>
          cases h : b.contentsFrom room (i + 1) with
          | ret l => simp
          | undefined => simp
          | outOfFuel => exact absurd h (ih _)

end Block

end WizardShell.Verified
