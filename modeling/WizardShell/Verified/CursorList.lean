import Mathlib.Data.List.Sort
import Mathlib.Data.List.Count

/-!
# A list with a cursor that is changed while it is walked

The elements of the list have names, given out in increasing order, so the
list is increasing.  The cursor is at an element or at the end.  `next` visits
the element under the cursor and moves on; at the end it visits nothing and
wraps to the front.  New elements go to the back, and an empty list sends the
cursor to its first element.  Removing the element under the cursor moves the
cursor to the one behind it.

A sweep is what happens between two wraps.  `Sweep` relates what was visited so
far to the cursor, and `Sweep.step` carries it through every operation; from it
follow that the visits increase (`Sweep.sorted`) and that at the end of the
sweep every element that was there throughout has been visited
(`Sweep.mem_of_old`).
-/

namespace WizardShell.Verified

/-- The list, its cursor, and the next name to give out. -/
structure CursorList where
  items : List Nat
  cursor : Option Nat
  fresh : Nat

/-- What can happen to the list. -/
inductive CursorOp where
  /-- A new element at the back. -/
  | append
  /-- The element goes. -/
  | remove (a : Nat)
  /-- Nothing that concerns list or cursor. -/
  | keep
  /-- Visit the element under the cursor. -/
  | next
  deriving DecidableEq

namespace CursorList

/-- The element behind `a` in an increasing list. -/
def behind (items : List Nat) (a : Nat) : Option Nat := items.find? fun x => decide (a < x)

def step (s : CursorList) : CursorOp → CursorList
  | .append =>
      { items := s.items ++ [s.fresh]
        cursor := if s.items = [] then some s.fresh else s.cursor
        fresh := s.fresh + 1 }
  | .remove a =>
      { s with
        items := s.items.erase a
        cursor := if s.cursor = some a then behind s.items a else s.cursor }
  | .keep => s
  | .next =>
      { s with
        cursor :=
          match s.cursor with
          | none => s.items.head?
          | some a => behind s.items a }

/-- The element the operation visits. -/
def visited (s : CursorList) : CursorOp → Option Nat
  | .next => s.cursor
  | _ => none

/-- The list increases and the cursor, if not at the end, is at an element. -/
structure Valid (s : CursorList) : Prop where
  sorted : s.items.Pairwise (· < ·)
  lt_fresh : ∀ a ∈ s.items, a < s.fresh
  cursor_mem : ∀ c, s.cursor = some c → c ∈ s.items

theorem lt_of_behind {items : List Nat} {a c : Nat} (h : behind items a = some c) :
    a < c := by
  simpa using List.find?_some h

/-- Nothing lies between an element and the one behind it. -/
theorem behind_le {items : List Nat} (hsorted : items.Pairwise (· < ·)) {a x : Nat}
    (hx : x ∈ items) (hax : a < x) : ∃ c, behind items a = some c ∧ c ≤ x := by
  induction items with
  | nil => cases hx
  | cons y items ih =>
      obtain ⟨hy, hrest⟩ := List.pairwise_cons.mp hsorted
      by_cases hay : a < y
      · refine ⟨y, by simp [behind, hay], ?_⟩
        rcases List.mem_cons.mp hx with rfl | hmem
        · exact Nat.le_refl x
        · exact Nat.le_of_lt (hy x hmem)
      · have hne : x ≠ y := by
          rintro rfl
          exact hay hax
        obtain ⟨c, hc, hle⟩ := ih hrest ((List.mem_cons.mp hx).resolve_left hne)
        exact ⟨c, by simpa [behind, hay] using hc, hle⟩

/-- In an increasing list the element behind `a` comes right after it. -/
theorem behind_eq_head? {pre post : List Nat} {a : Nat}
    (hsorted : (pre ++ a :: post).Pairwise (· < ·)) :
    behind (pre ++ a :: post) a = post.head? := by
  obtain ⟨_, htail, hpre⟩ := List.pairwise_append.mp hsorted
  have hnone : pre.find? (fun x => decide (a < x)) = none := by
    refine List.find?_eq_none.mpr fun x hx => ?_
    have hlt : x < a := hpre x hx a (by simp)
    simp [Nat.le_of_lt hlt]
  rw [behind, List.find?_append, hnone]
  cases post with
  | nil => simp
  | cons y post =>
      have hay : a < y := (List.pairwise_cons.mp htail).1 y (by simp)
      simp [hay]

theorem fresh_le_step (s : CursorList) (op : CursorOp) : s.fresh ≤ (s.step op).fresh := by
  cases op with
  | append => exact Nat.le_succ _
  | remove a => exact Nat.le_refl _
  | keep => exact Nat.le_refl _
  | next => exact Nat.le_refl _

/-- An element that was given out and is not in the list. -/
def Gone (a : Nat) (s : CursorList) : Prop := a < s.fresh ∧ a ∉ s.items

/-- What is gone stays gone. -/
theorem Gone.step {a : Nat} {s : CursorList} (h : Gone a s) (op : CursorOp) :
    Gone a (s.step op) := by
  cases op with
  | append =>
      refine ⟨Nat.lt_succ_of_lt h.1, ?_⟩
      intro hmem
      rcases List.mem_append.mp hmem with hold | hnew
      · exact h.2 hold
      · exact Nat.ne_of_lt h.1 (List.mem_singleton.mp hnew)
  | remove b => exact ⟨h.1, fun hmem => h.2 (List.mem_of_mem_erase hmem)⟩
  | keep => exact h
  | next => exact h

/-- What is gone is not visited. -/
theorem Gone.not_visited {a : Nat} {s : CursorList} (h : Gone a s) (hvalid : s.Valid)
    (op : CursorOp) : s.visited op ≠ some a := by
  intro hvisit
  cases op with
  | next => exact h.2 (hvalid.cursor_mem a hvisit)
  | append => cases hvisit
  | remove b => cases hvisit
  | keep => cases hvisit

/-! ## Sweeps -/

/-- `visits` were made, in this order, since the list last wrapped, when the
next name was `start`. -/
structure Sweep (start : Nat) (visits : List Nat) (s : CursorList) : Prop where
  sorted : visits.Pairwise (· < ·)
  lt_fresh : ∀ a ∈ visits, a < s.fresh
  /-- The cursor is past everything visited … -/
  lt_cursor : ∀ c, s.cursor = some c → ∀ a ∈ visits, a < c
  /-- … and past nothing else that is older than the sweep. -/
  old : ∀ a ∈ s.items, a < start → a ∈ visits ∨ ∃ c, s.cursor = some c ∧ c ≤ a
  start_le : start ≤ s.fresh

/-- Right after a wrap the cursor is at the front. -/
theorem Sweep.start {s : CursorList} (h : s.Valid) (hcursor : s.cursor = s.items.head?) :
    Sweep s.fresh [] s where
  sorted := List.Pairwise.nil
  lt_fresh _ ha := by cases ha
  lt_cursor _ _ _ ha := by cases ha
  start_le := Nat.le_refl _
  old a ha _ := by
    right
    cases hitems : s.items with
    | nil =>
        rw [hitems] at ha
        cases ha
    | cons c rest =>
        refine ⟨c, by rw [hcursor, hitems]; rfl, ?_⟩
        rw [hitems] at ha
        rcases List.mem_cons.mp ha with rfl | hmem
        · exact Nat.le_refl a
        · have hsorted := h.sorted
          rw [hitems] at hsorted
          exact Nat.le_of_lt ((List.pairwise_cons.mp hsorted).1 a hmem)

section Operations

variable {start : Nat} {visits : List Nat} {s : CursorList}

/-- What is appended is younger than the sweep. -/
theorem Sweep.append (h : Sweep start visits s) : Sweep start visits (s.step .append) := by
  refine ⟨h.sorted, fun a ha => Nat.lt_succ_of_lt (h.lt_fresh a ha), ?_, ?_,
    Nat.le_succ_of_le h.start_le⟩
  · intro c hc a ha
    simp only [CursorList.step] at hc
    split at hc
    · cases hc
      exact h.lt_fresh a ha
    · exact h.lt_cursor c hc a ha
  · intro a ha hold
    have hmem : a ∈ s.items := by
      rcases List.mem_append.mp ha with hmem | hnew
      · exact hmem
      · have hfresh := List.mem_singleton.mp hnew
        have := h.start_le
        omega
    rcases h.old a hmem hold with hvisited | ⟨c, hc, hle⟩
    · exact .inl hvisited
    · have hne : s.items ≠ [] := List.ne_nil_of_mem hmem
      exact .inr ⟨c, by simp [CursorList.step, hne, hc], hle⟩

/-- Nothing between the cursor and where a removal moves it is skipped. -/
theorem Sweep.remove (h : Sweep start visits s) (hvalid : s.Valid) (b : Nat) :
    Sweep start visits (s.step (.remove b)) := by
  refine ⟨h.sorted, h.lt_fresh, ?_, ?_, h.start_le⟩
  · intro c hc a ha
    simp only [CursorList.step] at hc
    split at hc
    · rename_i hcursor
      exact Nat.lt_trans (h.lt_cursor b hcursor a ha) (lt_of_behind hc)
    · exact h.lt_cursor c hc a ha
  · intro a ha hold
    have hmem : a ∈ s.items := List.mem_of_mem_erase ha
    rcases h.old a hmem hold with hvisited | ⟨c, hc, hle⟩
    · exact .inl hvisited
    · right
      by_cases hcb : c = b
      · subst hcb
        have hnodup : s.items.Nodup := hvalid.sorted.imp Nat.ne_of_lt
        have hne : a ≠ c := (hnodup.mem_erase_iff.mp ha).1
        obtain ⟨d, hd, hda⟩ := behind_le hvalid.sorted hmem (by omega : c < a)
        exact ⟨d, by simp [CursorList.step, hc, hd], hda⟩
      · exact ⟨c, by simp [CursorList.step, hc, hcb], hle⟩

/-- The element under the cursor joins the visits, behind all the others. -/
theorem Sweep.next (h : Sweep start visits s) (hvalid : s.Valid) {b : Nat}
    (hcursor : s.cursor = some b) : Sweep start (visits ++ [b]) (s.step .next) := by
  have hb : b ∈ s.items := hvalid.cursor_mem b hcursor
  refine ⟨?_, ?_, ?_, ?_, h.start_le⟩
  · refine List.pairwise_append.mpr ⟨h.sorted, List.pairwise_singleton _ _, ?_⟩
    intro a ha c hc
    rw [List.mem_singleton.mp hc]
    exact h.lt_cursor b hcursor a ha
  · intro a ha
    rcases List.mem_append.mp ha with hold | hnew
    · exact h.lt_fresh a hold
    · rw [List.mem_singleton.mp hnew]
      exact hvalid.lt_fresh b hb
  · intro c hc a ha
    simp only [CursorList.step, hcursor] at hc
    rcases List.mem_append.mp ha with hold | hnew
    · exact Nat.lt_trans (h.lt_cursor b hcursor a hold) (lt_of_behind hc)
    · rw [List.mem_singleton.mp hnew]
      exact lt_of_behind hc
  · intro a ha hold
    rcases h.old a ha hold with hvisited | ⟨c, hc, hle⟩
    · exact .inl (List.mem_append_left _ hvisited)
    · rw [hcursor, Option.some.injEq] at hc
      subst hc
      by_cases hab : a = b
      · subst hab
        exact .inl (List.mem_append_right _ (List.mem_singleton_self _))
      · obtain ⟨d, hd, hda⟩ := behind_le hvalid.sorted ha (by omega : b < a)
        exact .inr ⟨d, by simp [CursorList.step, hcursor, hd], hda⟩

/-- Every operation but a wrap carries the sweep on. -/
theorem Sweep.step (h : Sweep start visits s) (hvalid : s.Valid) (op : CursorOp)
    (hwrap : op = .next → s.cursor ≠ none) :
    Sweep start (visits ++ (s.visited op).toList) (s.step op) := by
  cases op with
  | append =>
      show Sweep start (visits ++ []) _
      rw [List.append_nil]
      exact h.append
  | remove b =>
      show Sweep start (visits ++ []) _
      rw [List.append_nil]
      exact h.remove hvalid b
  | keep =>
      show Sweep start (visits ++ []) _
      rw [List.append_nil]
      exact h
  | next =>
      obtain ⟨b, hcursor⟩ := Option.ne_none_iff_exists'.mp (hwrap rfl)
      show Sweep start (visits ++ s.cursor.toList) _
      rw [hcursor, Option.toList_some]
      exact h.next hvalid hcursor

end Operations

/-- At the end of the list, everything older than the sweep has been visited. -/
theorem Sweep.mem_of_old {start : Nat} {visits : List Nat} {s : CursorList}
    (h : Sweep start visits s) (hcursor : s.cursor = none) {a : Nat}
    (ha : a ∈ s.items) (hold : a < start) : a ∈ visits := by
  rcases h.old a ha hold with hvisited | ⟨c, hc, _⟩
  · exact hvisited
  · rw [hcursor] at hc
    cases hc

/-- The visits of a sweep follow the order of every increasing list. -/
theorem Sweep.filter_sublist {start : Nat} {visits : List Nat} {s : CursorList}
    (h : Sweep start visits s) {items : List Nat} (hsorted : items.Pairwise (· < ·)) :
    (visits.filter fun a => decide (a ∈ items)).Sublist items := by
  have hvisits : (visits.filter fun a => decide (a ∈ items)).Pairwise (· < ·) :=
    h.sorted.filter _
  refine List.sublist_of_subperm_of_pairwise ?_ hvisits hsorted
  refine List.subperm_of_subset (hvisits.imp Nat.ne_of_lt) fun a ha => ?_
  simpa using (List.mem_filter.mp ha).2

end CursorList

end WizardShell.Verified
