import Mathlib.Data.Fintype.EquivFin
import Mathlib.Data.List.TakeWhile
import Mathlib.Data.Set.Finite.Basic

/-!
# C strings

A C string is the bytes from a `char *` up to, and not including, the first
NUL; it carries the proof that no NUL is among them.  `strcmp(s, t) == 0` is
equality of strings, and `strlen` is the number of bytes.
-/

namespace WizardShell.Ports

/-- The text a `char *` points to. -/
structure CString where
  bytes : List UInt8
  noNul : 0 ∉ bytes

namespace CString

@[ext] theorem ext {s t : CString} (h : s.bytes = t.bytes) : s = t := by
  cases s
  cases t
  cases h
  rfl

instance : DecidableEq CString := fun s t =>
  decidable_of_iff (s.bytes = t.bytes) ⟨ext, fun h => h ▸ rfl⟩

instance : Repr CString := ⟨fun s n => reprPrec s.bytes n⟩

/-- The string at the start of a piece of memory: its bytes up to the first
NUL. -/
def ofBytes (memory : List UInt8) : CString where
  bytes := memory.takeWhile (· ≠ 0)
  noNul := by
    intro h
    have hzero := List.mem_takeWhile_imp h
    simp at hzero

/-- A string literal of the source, character by character. -/
def lit (chars : List Char) : CString :=
  ofBytes (chars.map fun c => UInt8.ofNat c.toNat)

/-- The empty string `"\0"`. -/
def empty : CString := ⟨[], by simp⟩

def strlen (s : CString) : Nat := s.bytes.length

/-- The bytes behind the last occurrence of `c`, when there is one:
`strrchr(s, c) + 1`. -/
def afterLast (c : UInt8) : List UInt8 → Option (List UInt8)
  | [] => none
  | b :: rest =>
      match afterLast c rest with
      | some tail => some tail
      | none => if b = c then some rest else none

theorem afterLast_subset {c : UInt8} {bytes tail : List UInt8}
    (h : afterLast c bytes = some tail) : ∀ b ∈ tail, b ∈ bytes := by
  induction bytes with
  | nil => simp [afterLast] at h
  | cons b rest ih =>
      intro x hx
      simp only [afterLast] at h
      cases hrest : afterLast c rest with
      | some t =>
          rw [hrest] at h
          cases h
          exact List.mem_cons_of_mem b (ih hrest x hx)
      | none =>
          simp only [hrest] at h
          split at h
          · cases h
            exact List.mem_cons_of_mem b hx
          · simp at h

/-- `strrchr(s, c) + 1` as a string, when `c` occurs in `s`. -/
def strrchrNext (s : CString) (c : UInt8) : Option CString :=
  match h : afterLast c s.bytes with
  | none => none
  | some tail => some ⟨tail, fun h0 => s.noNul (afterLast_subset h 0 h0)⟩

/-- There are infinitely many strings. -/
instance : Infinite CString := by
  refine Infinite.of_injective
    (fun n : Nat => (⟨List.replicate n 97, by simp [List.mem_replicate]⟩ : CString)) ?_
  intro n m h
  have hlen := congrArg strlen h
  simpa [strlen] using hlen

/-- Some string is not in a given finite list. -/
theorem exists_notMem (l : List CString) : ∃ s : CString, s ∉ l := by
  classical
  obtain ⟨s, hs⟩ := Infinite.exists_notMem_finset l.toFinset
  exact ⟨s, by simpa using hs⟩

end CString

/-! The tokens the shell itself looks for. -/

/-- `"<"` -/
def tokIn : CString := .lit ['<']

/-- `">"` -/
def tokOut : CString := .lit ['>']

/-- `">>"` -/
def tokAppend : CString := .lit ['>', '>']

/-- `"&"` -/
def tokAmp : CString := .lit ['&']

/-- `"~"` -/
def tokHome : CString := .lit ['~']

/-- `"*"` -/
def tokStar : CString := .lit ['*']

/-- `"="` -/
def tokEquals : CString := .lit ['=']

end WizardShell.Ports
