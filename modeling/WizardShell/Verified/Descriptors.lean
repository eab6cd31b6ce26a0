import Mathlib.Data.List.Basic
import Mathlib.Logic.Function.Basic

/-!
# Descriptor tables and open files

A process reaches its open files through small numbers.  Opening a file takes
the lowest number that is free, so closing a descriptor and opening another
file puts the file in its place exactly when everything below is in use
(`reopen_lands_iff`); no other descriptor is touched (`reopen_file`).

An open file remembers where the next write goes; one opened for appending
writes at the end of the file, wherever that is by then.  What a program
writes one piece after another stands behind what the file held, when the
first piece goes to the end (`writeAll_content`); with files open for appending
this survives other writers, in any order (`interleave_content`).
-/

namespace WizardShell.Verified

open Function

variable {α ι : Type}

/-- The descriptors of a process: what each refers to, and a limit from which
on none is in use. -/
structure Descriptors (α : Type) where
  file : Nat → Option α
  limit : Nat
  free_of_limit_le : ∀ fd, limit ≤ fd → file fd = none

namespace Descriptors

@[ext] theorem ext {d d' : Descriptors α} (hfile : d.file = d'.file)
    (hlimit : d.limit = d'.limit) : d = d' := by
  cases d
  cases d'
  cases hfile
  cases hlimit
  rfl

theorem lt_limit {d : Descriptors α} {fd : Nat} {a : α} (h : d.file fd = some a) :
    fd < d.limit := by
  by_contra hge
  rw [d.free_of_limit_le fd (Nat.not_lt.mp hge)] at h
  cases h

/-- The lowest descriptor that is free. -/
def lowest (d : Descriptors α) : Option Nat :=
  (List.range d.limit).find? fun fd => (d.file fd).isNone

theorem lowest_eq_some {d : Descriptors α} {fd : Nat} :
    d.lowest = some fd ↔
      fd < d.limit ∧ d.file fd = none ∧ ∀ j, j < fd → d.file j ≠ none := by
  unfold lowest
  rw [List.find?_range_eq_some]
  simp only [Option.isNone_iff_eq_none, Bool.not_eq_true', List.mem_range]
  constructor
  · rintro ⟨hfree, hlt, hbelow⟩
    exact ⟨hlt, hfree, fun j hj hnone => by simpa [hnone] using hbelow j hj⟩
  · rintro ⟨hlt, hfree, hbelow⟩
    refine ⟨hfree, hlt, fun j hj => ?_⟩
    exact Option.isNone_eq_false_iff.mpr (Option.isSome_iff_ne_none.mpr (hbelow j hj))

/-- There is one as long as some descriptor below the limit is free. -/
theorem exists_lowest {d : Descriptors α} {fd : Nat} (hlt : fd < d.limit)
    (hfree : d.file fd = none) : ∃ n, d.lowest = some n ∧ n ≤ fd := by
  cases hlow : d.lowest with
  | none =>
      have hall := List.find?_eq_none.mp hlow fd (List.mem_range.mpr hlt)
      simp [hfree] at hall
  | some n =>
      refine ⟨n, rfl, ?_⟩
      by_contra hgt
      exact (lowest_eq_some.mp hlow).2.2 fd (Nat.not_le.mp hgt) hfree

/-- The table with another entry at a descriptor below the limit. -/
def put (d : Descriptors α) (fd : Nat) (hfd : fd < d.limit) (a : α) : Descriptors α where
  file := update d.file fd (some a)
  limit := d.limit
  free_of_limit_le j hj := by
    rw [update_of_ne (by omega), d.free_of_limit_le j hj]

/-- `close(fd)`; fails when the descriptor is not in use. -/
def close (d : Descriptors α) (fd : Nat) : Option (Descriptors α) :=
  if (d.file fd).isSome then
    some {
      file := update d.file fd none
      limit := d.limit
      free_of_limit_le := fun j hj => by
        by_cases hjfd : j = fd
        · rw [hjfd, update_self]
        · rw [update_of_ne hjfd, d.free_of_limit_le j hj] }
  else none

/-- `open` of the file `a`: the descriptor, and the table with it; fails when
all descriptors are in use. -/
def openFile (d : Descriptors α) (a : α) : Option (Nat × Descriptors α) :=
  match hlow : d.lowest with
  | none => none
  | some fd => some (fd, d.put fd (lowest_eq_some.mp hlow).1 a)

variable {d d' : Descriptors α} {fd n : Nat} {a : α}

theorem close_eq_some :
    d.close fd = some d' ↔
      d.file fd ≠ none ∧ d'.file = update d.file fd none ∧ d'.limit = d.limit := by
  unfold close
  by_cases hopen : (d.file fd).isSome = true
  · rw [if_pos hopen, Option.some.injEq]
    constructor
    · rintro rfl
      exact ⟨Option.isSome_iff_ne_none.mp hopen, rfl, rfl⟩
    · rintro ⟨_, hfile, hlimit⟩
      exact ext hfile.symm hlimit.symm
  · rw [if_neg hopen]
    simp only [Option.isSome_iff_ne_none, not_not] at hopen
    simp [hopen]

theorem openFile_eq_some :
    d.openFile a = some (fd, d') ↔
      d.lowest = some fd ∧ d'.file = update d.file fd (some a) ∧ d'.limit = d.limit := by
  unfold openFile
  split
  · rename_i hlow
    simp [hlow]
  · rename_i n hlow
    rw [Option.some.injEq, Prod.mk.injEq]
    constructor
    · rintro ⟨rfl, rfl⟩
      exact ⟨hlow, rfl, rfl⟩
    · rintro ⟨hfd, hfile, hlimit⟩
      cases hlow.symm.trans hfd
      exact ⟨rfl, ext hfile.symm hlimit.symm⟩

/-- `close(fd)`, and `open` behind it. -/
def reopen (d : Descriptors α) (fd : Nat) (a : α) : Option (Nat × Descriptors α) := do
  let d ← d.close fd
  d.openFile a

/-- Closing makes room, so only the close can fail. -/
theorem reopen_eq_none : d.reopen fd a = none ↔ d.file fd = none := by
  unfold reopen
  cases hclose : d.close fd with
  | none =>
      refine iff_of_true rfl ?_
      unfold close at hclose
      simpa using hclose
  | some c =>
      obtain ⟨hopen, hfile, hlimit⟩ := close_eq_some.mp hclose
      refine iff_of_false (fun h => ?_) hopen
      obtain ⟨b, hb⟩ := Option.ne_none_iff_exists'.mp hopen
      have hlt : fd < c.limit := by
        rw [hlimit]
        exact lt_limit hb
      obtain ⟨n, hlow, _⟩ := exists_lowest hlt (by rw [hfile, update_self])
      have hroom : c.openFile a = some (n, c.put n (lowest_eq_some.mp hlow).1 a) :=
        openFile_eq_some.mpr ⟨hlow, rfl, rfl⟩
      exact absurd (hroom.symm.trans h) (by simp)

/-- **Only two descriptors change**: the closed one, and the one the file gets,
which is not above it. -/
theorem reopen_file (h : d.reopen fd a = some (n, d')) :
    n ≤ fd ∧ d'.file = update (update d.file fd none) n (some a) ∧ d'.limit = d.limit ∧
      (n ≠ fd → d.file n = none) ∧ ∀ j, j < n → d.file j ≠ none := by
  obtain ⟨c, hclose, hopen⟩ := Option.bind_eq_some_iff.mp h
  obtain ⟨hused, hcfile, hclimit⟩ := close_eq_some.mp hclose
  obtain ⟨hlow, hfile, hlimit⟩ := openFile_eq_some.mp hopen
  obtain ⟨_, hfree, hbelow⟩ := lowest_eq_some.mp hlow
  have hle : n ≤ fd := by
    by_contra hgt
    exact hbelow fd (Nat.not_le.mp hgt) (by rw [hcfile, update_self])
  refine ⟨hle, by rw [hfile, hcfile], hlimit.trans hclimit, fun hne => ?_, fun j hj => ?_⟩
  · rwa [hcfile, update_of_ne hne] at hfree
  · have hj' := hbelow j hj
    rwa [hcfile, update_of_ne (by omega)] at hj'

/-- **The file takes the place of the closed one** exactly when every descriptor
below is in use. -/
theorem reopen_lands_iff (h : d.reopen fd a = some (n, d')) :
    n = fd ↔ ∀ j, j < fd → d.file j ≠ none := by
  obtain ⟨hle, _, _, hfree, hbelow⟩ := reopen_file h
  constructor
  · rintro rfl
    exact hbelow
  · intro hall
    by_contra hne
    exact hall n (by omega) (hfree hne)

end Descriptors

/-! ## Writing through an open file -/

/-- An open file: which one, and how it is written. -/
structure OpenFile (ι : Type) where
  file : ι
  writable : Bool
  append : Bool
  offset : Nat
  deriving DecidableEq

/-- Bytes put over a content at an offset, with NULs up to there. -/
def overwrite (content : List UInt8) (offset : Nat) (bytes : List UInt8) : List UInt8 :=
  content.take offset ++ List.replicate (offset - content.length) 0 ++ bytes ++
    content.drop (offset + bytes.length)

theorem overwrite_end (content bytes : List UInt8) :
    overwrite content content.length bytes = content ++ bytes := by
  unfold overwrite
  rw [List.take_length, Nat.sub_self, List.replicate_zero, List.append_nil,
    List.drop_eq_nil_of_le (Nat.le_add_right _ _), List.append_nil]

namespace OpenFile

variable [DecidableEq ι]

/-- Where the next write starts. -/
def start (o : OpenFile ι) (content : ι → List UInt8) : Nat :=
  if o.append then (content o.file).length else o.offset

/-- One write: the open file behind it, and the contents of the files. -/
def write (o : OpenFile ι) (content : ι → List UInt8) (bytes : List UInt8) :
    OpenFile ι × (ι → List UInt8) :=
  if o.writable then
    ({ o with offset := o.start content + bytes.length },
      update content o.file (overwrite (content o.file) (o.start content) bytes))
  else (o, content)

/-- One write after another. -/
def writeAll (o : OpenFile ι) (content : ι → List UInt8) (pieces : List (List UInt8)) :
    OpenFile ι × (ι → List UInt8) :=
  pieces.foldl (fun s bytes => s.1.write s.2 bytes) (o, content)

variable {o : OpenFile ι} {content : ι → List UInt8}

/-- A write that starts at the end appends, and the next one starts at the end. -/
theorem write_of_end (hwritable : o.writable = true)
    (hend : o.start content = (content o.file).length) (bytes : List UInt8) :
    (o.write content bytes).2 = update content o.file (content o.file ++ bytes) ∧
      (o.write content bytes).1.writable = true ∧
      (o.write content bytes).1.file = o.file ∧
      (o.write content bytes).1.append = o.append ∧
      (o.write content bytes).1.start (o.write content bytes).2 =
        ((o.write content bytes).2 o.file).length := by
  have hwrite : o.write content bytes =
      ({ o with offset := (content o.file).length + bytes.length },
        update content o.file (content o.file ++ bytes)) := by
    rw [write, if_pos hwritable, hend, overwrite_end]
  rw [hwrite]
  refine ⟨rfl, hwritable, rfl, rfl, ?_⟩
  simp only [start, update_self, List.length_append, ite_self]

/-- **What is written stands behind what was there**, when the first write starts
at the end of the file; other files keep their content. -/
theorem writeAll_content (hwritable : o.writable = true)
    (hend : o.start content = (content o.file).length) (pieces : List (List UInt8)) :
    (o.writeAll content pieces).2 =
      update content o.file (content o.file ++ pieces.flatten) := by
  induction pieces generalizing o content with
  | nil =>
      rw [List.flatten_nil, List.append_nil, update_eq_self]
      rfl
  | cons bytes rest ih =>
      obtain ⟨hcontent, hw, hfile, _, hnext⟩ := write_of_end hwritable hend bytes
      rw [← hfile] at hnext
      have hrest := ih hw hnext
      rw [hfile, hcontent, update_self, update_idem, List.append_assoc] at hrest
      rw [List.flatten_cons, ← hrest, ← hcontent]
      rfl

end OpenFile

/-! ## Several writers -/

section Writers

variable {κ : Type} [DecidableEq κ] [DecidableEq ι]

/-- Processes that write, each through its own open file, in the order in which
their writes happen. -/
def interleave (files : κ → OpenFile ι) (content : ι → List UInt8) :
    List (κ × List UInt8) → (κ → OpenFile ι) × (ι → List UInt8)
  | [] => (files, content)
  | (k, bytes) :: rest =>
      let s := (files k).write content bytes
      interleave (update files k s.1) s.2 rest

/-- What the writes to one file add up to. -/
def writtenTo (files : κ → OpenFile ι) (i : ι) (schedule : List (κ × List UInt8)) :
    List UInt8 :=
  ((schedule.filter fun w => (files w.1).file = i).map (·.2)).flatten

/-- **Appending never overwrites**: whatever the order of the writes, all of them
are found in their files, one behind the other. -/
theorem interleave_content {files : κ → OpenFile ι} {content : ι → List UInt8}
    {schedule : List (κ × List UInt8)}
    (happend : ∀ k, (files k).writable = true ∧ (files k).append = true) (i : ι) :
    (interleave files content schedule).2 i = content i ++ writtenTo files i schedule := by
  induction schedule generalizing files content with
  | nil => exact (List.append_nil _).symm
  | cons w rest ih =>
      obtain ⟨k, bytes⟩ := w
      obtain ⟨hwritable, hmode⟩ := happend k
      have hend : (files k).start content = (content (files k).file).length := if_pos hmode
      obtain ⟨hcontent, hw, hfile, hm, _⟩ := OpenFile.write_of_end hwritable hend bytes
      -- The writer's own file is as before but for the offset.
      have hfiles : ∀ j, (update files k ((files k).write content bytes).1 j).file =
          (files j).file := by
        intro j
        by_cases hj : j = k
        · rw [hj, update_self, hfile]
        · rw [update_of_ne hj]
      have hkept : ∀ j, (update files k ((files k).write content bytes).1 j).writable = true ∧
          (update files k ((files k).write content bytes).1 j).append = true := by
        intro j
        by_cases hj : j = k
        · rw [hj, update_self, hw, hm]
          exact ⟨rfl, hmode⟩
        · rw [update_of_ne hj]
          exact happend j
      rw [interleave, ih hkept, hcontent]
      simp only [writtenTo, hfiles]
      by_cases hi : (files k).file = i
      · rw [← hi, update_self, List.filter_cons_of_pos (by simp), List.map_cons,
          List.flatten_cons, List.append_assoc]
      · rw [update_of_ne (Ne.symm hi), List.filter_cons_of_neg (by simpa using hi)]

end Writers

end WizardShell.Verified
