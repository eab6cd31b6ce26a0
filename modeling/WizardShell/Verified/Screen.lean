import Mathlib.Data.List.GetD
import Mathlib.Logic.Function.Basic

/-!
# A line of a screen

Cells in a row, and a cursor.  A byte that arrives is put into the cell under the
cursor, which moves right; `'\b'` moves it left and leaves the cells alone.

`Shows` says what can be read: a text, and blanks behind it.  A text printed into
a blank line is shown (`Shows.write`), and printing blanks over a text from the
first column and moving back leaves a blank line (`Shows.clear`).
-/

namespace WizardShell.Verified

open Function

/-- What each cell shows, and where the next byte goes. -/
structure Screen where
  cell : Int → UInt8
  col : Int

namespace Screen

/-- Nothing was printed yet. -/
def blank : Screen := ⟨fun _ => 32, 0⟩

/-- One byte arrives. -/
def putchar (s : Screen) (c : UInt8) : Screen :=
  if c = 8 then { s with col := s.col - 1 }
  else ⟨update s.cell s.col c, s.col + 1⟩

/-- Bytes arrive. -/
def write (s : Screen) (bytes : List UInt8) : Screen := bytes.foldl putchar s

/-- The text stands from the first column on, with blanks behind it. -/
def Shows (s : Screen) (text : List UInt8) : Prop := ∀ i : Nat, s.cell i = text.getD i 32

variable {s : Screen} {c : UInt8} {xs ys text : List UInt8}

@[simp] theorem write_nil (s : Screen) : s.write [] = s := rfl

@[simp] theorem write_cons (s : Screen) (c : UInt8) (xs : List UInt8) :
    s.write (c :: xs) = (s.putchar c).write xs := rfl

theorem write_append (s : Screen) (xs ys : List UInt8) :
    s.write (xs ++ ys) = (s.write xs).write ys := List.foldl_append

theorem putchar_back (s : Screen) : s.putchar 8 = { s with col := s.col - 1 } := rfl

theorem putchar_of_ne (hc : c ≠ 8) : s.putchar c = ⟨update s.cell s.col c, s.col + 1⟩ :=
  if_neg hc

theorem putchar_col (hc : c ≠ 8) : (s.putchar c).col = s.col + 1 := by
  rw [putchar_of_ne hc]

theorem putchar_cell_self (hc : c ≠ 8) : (s.putchar c).cell s.col = c := by
  rw [putchar_of_ne hc]
  exact update_self _ _ _

theorem putchar_cell_ne (hc : c ≠ 8) {i : Int} (hi : i ≠ s.col) :
    (s.putchar c).cell i = s.cell i := by
  rw [putchar_of_ne hc]
  exact update_of_ne hi _ _

/-- No cell ever shows a `'\\b'`. -/
theorem cell_ne_back (h : ∀ i, s.cell i ≠ 8) (bytes : List UInt8) :
    ∀ i, (s.write bytes).cell i ≠ 8 := by
  induction bytes generalizing s with
  | nil => exact h
  | cons c bytes ih =>
      refine ih fun i => ?_
      by_cases hc : c = 8
      · rw [hc, putchar_back]
        exact h i
      · by_cases hi : i = s.col
        · rw [hi, putchar_cell_self hc]
          exact hc
        · rw [putchar_cell_ne hc hi]
          exact h i

theorem write_back (s : Screen) (n : Nat) :
    s.write (List.replicate n 8) = { s with col := s.col - n } := by
  induction n generalizing s with
  | zero => simp
  | succ n ih =>
      rw [List.replicate_succ, write_cons, ih, putchar_back]
      simp only [mk.injEq, true_and]
      omega

/-- Where a text without `'\\b'` goes. -/
theorem write_text (h : 8 ∉ text) :
    (s.write text).col = s.col + text.length ∧
      ∀ i, (s.write text).cell i =
        if s.col ≤ i ∧ i < s.col + text.length then text.getD (i - s.col).toNat 32
        else s.cell i := by
  induction text generalizing s with
  | nil =>
      refine ⟨by simp, fun i => ?_⟩
      rw [if_neg (by simp only [List.length_nil]; omega)]
      rfl
  | cons c text ih =>
      rw [List.mem_cons, not_or] at h
      have hc : c ≠ 8 := Ne.symm h.1
      obtain ⟨hcol, hcell⟩ := ih (s := s.putchar c) h.2
      rw [putchar_col hc] at hcol hcell
      rw [write_cons, List.length_cons]
      refine ⟨by rw [hcol]; omega, fun i => ?_⟩
      rw [hcell]
      by_cases hself : i = s.col
      · subst hself
        rw [if_neg (by omega), if_pos (by omega), putchar_cell_self hc, Int.sub_self]
        rfl
      · rw [putchar_cell_ne hc hself]
        by_cases hin : s.col + 1 ≤ i ∧ i < s.col + 1 + text.length
        · have hsucc : (i - s.col).toNat = (i - (s.col + 1)).toNat + 1 := by omega
          rw [if_pos hin, if_pos (by omega), hsucc, List.getD_cons_succ]
        · rw [if_neg hin, if_neg (by omega)]

theorem Shows.blank : Screen.blank.Shows [] := fun _ => rfl

/-- Bytes behind a text that is shown are blanks. -/
theorem Shows.append_iff (h : s.Shows xs) :
    s.Shows (xs ++ ys) ↔ ∀ b ∈ ys, b = 32 := by
  constructor
  · intro hall b hb
    obtain ⟨i, hi, rfl⟩ := List.mem_iff_getElem.mp hb
    have hcell := hall (xs.length + i)
    rw [h, List.getD_eq_default _ _ (Nat.le_add_right _ _),
      List.getD_append_right _ _ _ _ (Nat.le_add_right _ _), Nat.add_sub_cancel_left,
      List.getD_eq_getElem _ _ hi] at hcell
    exact hcell.symm
  · intro hblank i
    rw [h]
    by_cases hin : i < xs.length
    · rw [List.getD_append _ _ _ _ hin]
    · have hle : xs.length ≤ i := Nat.le_of_not_lt hin
      rw [List.getD_eq_default _ _ hle, List.getD_append_right _ _ _ _ hle]
      by_cases htail : i - xs.length < ys.length
      · rw [List.getD_eq_getElem _ _ htail]
        exact (hblank _ (List.getElem_mem htail)).symm
      · rw [List.getD_eq_default _ _ (Nat.le_of_not_lt htail)]

/-- A text that is shown has no `'\\b'`. -/
theorem Shows.no_back (h : s.Shows text) (hcells : ∀ i, s.cell i ≠ 8) : 8 ∉ text := by
  intro hmem
  obtain ⟨i, hi, h8⟩ := List.mem_iff_getElem.mp hmem
  have hcell := h i
  rw [List.getD_eq_getElem _ _ hi, h8] at hcell
  exact hcells i hcell

/-- A text printed at the first column of a blank line is shown. -/
theorem Shows.write (h : s.Shows []) (hcol : s.col = 0) (h8 : 8 ∉ text) :
    (s.write text).Shows text ∧ (s.write text).col = text.length := by
  obtain ⟨hcol', hcell⟩ := write_text (s := s) h8
  refine ⟨fun i => ?_, by rw [hcol', hcol, Int.zero_add]⟩
  rw [hcell, hcol, h]
  by_cases hin : i < text.length
  · rw [if_pos (by omega), Int.sub_zero, Int.toNat_natCast]
  · rw [if_neg (by omega), List.getD_eq_default text _ (Nat.le_of_not_lt hin)]
    rfl

/-- Back to the first column, blanks over the text, and back again. -/
theorem Shows.clear (h : s.Shows text) {pos : Nat} (hcol : s.col = pos) :
    (s.write (List.replicate pos 8 ++ List.replicate text.length 32 ++
        List.replicate text.length 8)).Shows [] ∧
      (s.write (List.replicate pos 8 ++ List.replicate text.length 32 ++
        List.replicate text.length 8)).col = 0 := by
  rw [write_append, write_append, write_back, write_back]
  have h8 : 8 ∉ List.replicate text.length (32 : UInt8) := by simp [List.mem_replicate]
  obtain ⟨hcol', hcell⟩ := write_text (s := { s with col := s.col - pos }) h8
  rw [List.length_replicate] at hcol' hcell
  have hzero : s.col - pos = 0 := by omega
  simp only [hzero] at hcol' hcell
  refine ⟨fun i => ?_, ?_⟩
  · simp only [hzero]
    rw [hcell]
    by_cases hin : i < text.length
    · rw [if_pos (by omega), Int.sub_zero, Int.toNat_natCast,
        List.getD_eq_getElem _ _ (by rw [List.length_replicate]; exact hin)]
      simp
    · rw [if_neg (by omega), h, List.getD_eq_default _ _ (Nat.le_of_not_lt hin)]
      rfl
  · simp only [hzero]
    rw [hcol']
    omega

/-- A byte over the text, or right behind it. -/
theorem Shows.putchar (h : s.Shows text) {pos : Nat} (hcol : s.col = pos) (hc : c ≠ 8)
    (i : Nat) : (s.putchar c).cell i = if i = pos then c else text.getD i 32 := by
  by_cases hself : i = pos
  · rw [if_pos hself, hself, ← hcol, putchar_cell_self hc]
  · rw [if_neg hself, ← h, putchar_cell_ne hc (by omega)]

/-- A byte printed over one of the text. -/
theorem Shows.set (h : s.Shows text) {pos : Nat} (hcol : s.col = pos) (hc : c ≠ 8)
    (hpos : pos < text.length) : (s.putchar c).Shows (text.set pos c) := by
  intro i
  rw [h.putchar hcol hc]
  by_cases hself : i = pos
  · simp [hself, hpos]
  · simp [hself, List.getElem?_set_ne (Ne.symm hself)]

/-- A byte printed right behind the text. -/
theorem Shows.snoc (h : s.Shows text) (hcol : s.col = text.length) (hc : c ≠ 8) :
    (s.putchar c).Shows (text ++ [c]) := by
  intro i
  rw [h.putchar hcol hc]
  by_cases hself : i = text.length
  · simp [hself]
  · rw [if_neg hself]
    by_cases hin : i < text.length
    · rw [List.getD_append _ _ _ _ hin]
    · rw [List.getD_eq_default _ _ (Nat.le_of_not_lt hin),
        List.getD_eq_default _ _ (by rw [List.length_append, List.length_singleton]; omega)]

end Screen

end WizardShell.Verified
