import WizardShell.Verified.Strtok

/-!
# Checked code and the string functions

Where it matters in which way code leaves defined behaviour, it runs in
`Checked`: it returns a value, or it stops with a `Fault` that says what went
wrong.  Code with an `Outcome` is checked code once one says what its undefined
access is (`Outcome.orFault`).

The functions of `string.h` that write bytes write a range of cells, and fault
when the range leaves the block (`writeBytes_ok`, `writeBytes_error`); those
that read a text fault when no NUL ends it.  `HoldsText` says what is in the
block afterwards.
-/

namespace WizardShell.Verified

/-- How code left defined behaviour. -/
inductive Fault where
  /-- It wrote outside an object. -/
  | write
  /-- It read outside an object. -/
  | read
  /-- It followed NULL, or a pointer to memory that was freed. -/
  | deref
  deriving DecidableEq, Repr

/-- Code that returns or faults. -/
abbrev Checked (α : Type) := Except Fault α

namespace Checked

variable {α β : Type}

@[simp] theorem pure_eq (a : α) : (pure a : Checked α) = .ok a := rfl

@[simp] theorem ok_bind (a : α) (f : α → Checked β) :
    ((Except.ok a : Checked α) >>= f) = f a := rfl

@[simp] theorem error_bind (e : Fault) (f : α → Checked β) :
    ((Except.error e : Checked α) >>= f) = .error e := rfl

/-- A sequence returns exactly when both of its parts do. -/
theorem bind_eq_ok {x : Checked α} {f : α → Checked β} {b : β} :
    (x >>= f) = .ok b ↔ ∃ a, x = .ok a ∧ f a = .ok b := by
  cases x <;> simp

end Checked

/-- Code that left defined behaviour did so in the way given. -/
def Outcome.orFault {α : Type} (e : Fault) : Outcome α → Checked α
  | ret a => .ok a
  | undefined => .error e
  | outOfFuel => .error e

@[simp] theorem Outcome.orFault_ret {α : Type} (e : Fault) (a : α) :
    (Outcome.ret a).orFault e = .ok a := rfl

@[simp] theorem Outcome.orFault_undefined {α : Type} (e : Fault) :
    (Outcome.undefined : Outcome α).orFault e = .error e := rfl

/-- Checked code, with nothing said of a fault. -/
def Checked.outcome {α : Type} : Checked α → Outcome α
  | .ok a => .ret a
  | .error _ => .undefined

theorem Checked.outcome_eq_ret {α : Type} {x : Checked α} {a : α} :
    x.outcome = .ret a ↔ x = .ok a := by
  cases x <;> simp [outcome]

/-- The checked code returns exactly what the code with an `Outcome` does. -/
def Outcome.Agrees {α : Type} (x : Outcome α) (y : Checked α) : Prop :=
  ∀ a, x = .ret a ↔ y = .ok a

namespace Outcome.Agrees

variable {α β : Type} {x : Outcome α} {y : Checked α}

theorem orFault (x : Outcome α) (e : Fault) : x.Agrees (x.orFault e) := by
  intro a
  cases x <;> simp [Outcome.orFault]

theorem undefined (e : Fault) : (Outcome.undefined : Outcome α).Agrees (.error e) := by
  intro a
  simp

theorem bind {f : α → Outcome β} {g : α → Checked β} (h : x.Agrees y)
    (hf : ∀ a, (f a).Agrees (g a)) : (x >>= f).Agrees (y >>= g) := by
  intro b
  rw [Outcome.bind_eq_ret, Checked.bind_eq_ok]
  exact exists_congr fun a => and_congr (h a) (hf a b)

end Outcome.Agrees

namespace Block

/-- Write one byte. -/
def store (b : Block UInt8) (i : Nat) (c : UInt8) : Checked (Block UInt8) :=
  (b.write i c).orFault .write

/-- Read one byte. -/
def load (b : Block UInt8) (i : Nat) : Checked UInt8 := (b.read i).orFault .read

/-- The block with these bytes from cell `i` on. -/
def put (b : Block UInt8) (i : Nat) (bytes : List UInt8) : Block UInt8 :=
  { b with
    cell := fun j =>
      if i ≤ j ∧ j < i + bytes.length then bytes.getD (j - i) 0 else b.cell j }

/-- Write a range of bytes. -/
def writeBytes (b : Block UInt8) (i : Nat) (bytes : List UInt8) : Checked (Block UInt8) :=
  if i + bytes.length ≤ b.cap then .ok (b.put i bytes) else .error .write

/-- The text at the start of the block. -/
def text (b : Block UInt8) : Checked (List UInt8) := (bytesAt b 0).orFault .read

/-- `strlen(b)` -/
def strlen (b : Block UInt8) : Checked Nat := do
  let text ← b.text
  return text.length

/-- `memset(b, '\0', n)` -/
def memset (b : Block UInt8) (n : Nat) : Checked (Block UInt8) :=
  b.writeBytes 0 (List.replicate n 0)

/-- `strcpy(b, text)` -/
def strcpy (b : Block UInt8) (text : List UInt8) : Checked (Block UInt8) :=
  b.writeBytes 0 (text ++ [0])

/-- The block with a text at its start and zeros behind it. -/
def refill (b : Block UInt8) (text : List UInt8) : Block UInt8 :=
  { b with cell := fun j => if j < b.cap then text.getD j 0 else b.cell j }

/-- `strcat(b, text)` -/
def strcat (b : Block UInt8) (text : List UInt8) : Checked (Block UInt8) := do
  let n ← b.strlen
  b.writeBytes n (text ++ [0])

/-- The block as reads find it that do not stop at its end: the bytes that stand
behind it in memory come next. -/
def before (b : Block UInt8) (behind : List UInt8) : Block UInt8 where
  cap := b.cap + behind.length
  cell i := if i < b.cap then b.cell i else behind.getD (i - b.cap) (b.cell i)

variable {b : Block UInt8} {i j n : Nat} {c : UInt8} {bytes text : List UInt8}

@[simp] theorem before_nil (b : Block UInt8) : b.before [] = b := by
  simp [before]

theorem store_ok (h : i < b.cap) (c : UInt8) : b.store i c = .ok (b.set i c) := by
  rw [store, write_of_lt h, Outcome.orFault_ret]

theorem store_error (h : b.cap ≤ i) (c : UInt8) : b.store i c = .error .write := by
  rw [store, write_of_le h, Outcome.orFault_undefined]

theorem load_ok (h : i < b.cap) : b.load i = .ok (b.cell i) := by
  rw [load, read_of_lt h, Outcome.orFault_ret]

theorem load_error (h : b.cap ≤ i) : b.load i = .error .read := by
  rw [load, Block.read, if_neg (Nat.not_lt.mpr h), Outcome.orFault_undefined]

@[simp] theorem put_cap (b : Block UInt8) (i : Nat) (bytes : List UInt8) :
    (b.put i bytes).cap = b.cap := rfl

theorem put_cell_of_lt (h : j < i) : (b.put i bytes).cell j = b.cell j :=
  if_neg (by omega)

theorem put_cell_add (h : j < bytes.length) :
    (b.put i bytes).cell (i + j) = bytes.getD j 0 := by
  have hin : i ≤ i + j ∧ i + j < i + bytes.length := by omega
  have hsub : i + j - i = j := by omega
  simp only [put, if_pos hin, hsub]

theorem writeBytes_ok (h : i + bytes.length ≤ b.cap) :
    b.writeBytes i bytes = .ok (b.put i bytes) := if_pos h

theorem writeBytes_error (h : b.cap < i + bytes.length) :
    b.writeBytes i bytes = .error .write := if_neg (by omega)

/-- Bytes that were put are there. -/
theorem spans_put (xs ys zs : List UInt8) (hnul : 0 ∉ ys) :
    Spans (b.put i (xs ++ ys ++ zs)) (i + xs.length) ys := by
  induction ys generalizing xs with
  | nil => exact .nil
  | cons c ys ih =>
      rw [List.mem_cons, not_or] at hnul
      refine Spans.cons_iff.mpr ⟨?_, Ne.symm hnul.1, ?_⟩
      · rw [put_cell_add (by simp)]
        simp
      · have hrest := ih (xs ++ [c]) hnul.2
        rw [List.append_assoc xs, List.singleton_append, List.length_append,
          List.length_singleton, ← Nat.add_assoc] at hrest
        exact hrest

/-- A text put into a block, with its NUL, is held there. -/
theorem holdsText_put (hnul : 0 ∉ text) (h : i + text.length < b.cap) :
    HoldsText (b.put i (text ++ [0])) i text where
  bytes := spans_put [] text [0] hnul
  inside := h
  nul := by
    rw [put_cell_add (by simp)]
    simp

theorem text_eq (h : HoldsText b 0 text) : b.text = .ok text := by
  rw [Block.text, bytesAt_eq h, Outcome.orFault_ret]

theorem holdsText_of_bytesFrom : ∀ {room i : Nat} {text : List UInt8},
    bytesFrom b room i = .ret text → i + room ≤ b.cap → HoldsText b i text := by
  intro room
  induction room with
  | zero =>
      intro i text h _
      cases h
  | succ room ih =>
      intro i text h hroom
      unfold bytesFrom at h
      split at h
      · rename_i hzero
        cases h
        exact HoldsText.nil_iff.mpr ⟨by omega, hzero⟩
      · rename_i hne
        obtain ⟨rest, hrest, heq⟩ := Outcome.bind_eq_ret.mp h
        cases heq
        exact HoldsText.cons_iff.mpr ⟨rfl, hne, ih hrest (by omega)⟩

/-- Reading the text finds one that is there, or there is none. -/
theorem text_cases (b : Block UInt8) :
    (∃ text, HoldsText b 0 text ∧ b.text = .ok text) ∨
      (¬ ∃ text, HoldsText b 0 text) ∧ b.text = .error .read := by
  by_cases hex : ∃ text, HoldsText b 0 text
  · obtain ⟨text, h⟩ := hex
    exact .inl ⟨text, h, text_eq h⟩
  · refine .inr ⟨hex, ?_⟩
    rw [Block.text]
    cases h : bytesAt b 0 with
    | ret text => exact absurd ⟨text, holdsText_of_bytesFrom h (by omega)⟩ hex
    | undefined => rfl
    | outOfFuel => rfl

theorem strlen_eq (h : HoldsText b 0 text) : b.strlen = .ok text.length := by
  rw [strlen, text_eq h]
  rfl

theorem strcpy_ok (h : text.length < b.cap) :
    b.strcpy text = .ok (b.put 0 (text ++ [0])) :=
  writeBytes_ok (by rw [Nat.zero_add, List.length_append]; exact h)

theorem strcpy_error (h : b.cap ≤ text.length) : b.strcpy text = .error .write :=
  writeBytes_error (by
    rw [Nat.zero_add, List.length_append, List.length_singleton]
    omega)

/-- Code that begins with `strlen` returns when there is a text and the rest
returns. -/
theorem strlen_bind_eq_ok {α : Type} {f : Nat → Checked α} {a : α} :
    (b.strlen >>= f) = .ok a ↔ ∃ text, HoldsText b 0 text ∧ f text.length = .ok a := by
  constructor
  · intro h
    rcases b.text_cases with ⟨text, htext, _⟩ | ⟨_, herror⟩
    · rw [strlen_eq htext, Checked.ok_bind] at h
      exact ⟨text, htext, h⟩
    · rw [strlen, herror] at h
      cases h
  · rintro ⟨text, htext, h⟩
    rw [strlen_eq htext, Checked.ok_bind]
    exact h

/-- Code that begins with `strlen` writes outside when the rest does. -/
theorem strlen_bind_eq_write {α : Type} {f : Nat → Checked α} :
    (b.strlen >>= f) = .error .write ↔
      ∃ text, HoldsText b 0 text ∧ f text.length = .error .write := by
  constructor
  · intro h
    rcases b.text_cases with ⟨text, htext, _⟩ | ⟨_, herror⟩
    · rw [strlen_eq htext, Checked.ok_bind] at h
      exact ⟨text, htext, h⟩
    · rw [strlen, herror] at h
      cases h
  · rintro ⟨text, htext, h⟩
    rw [strlen_eq htext, Checked.ok_bind]
    exact h

theorem refill_cell_of_lt (h : j < b.cap) : (b.refill text).cell j = text.getD j 0 := if_pos h

theorem refill_cell_of_ge (h : b.cap ≤ j) : (b.refill text).cell j = b.cell j :=
  if_neg (by omega)

theorem holdsText_refill (hnul : 0 ∉ text) (h : text.length < b.cap) :
    HoldsText (b.refill text) 0 text := by
  refine .of_cells hnul (by rw [Nat.zero_add]; exact h) fun j hj => ?_
  rw [Nat.zero_add, refill_cell_of_lt (Nat.lt_of_le_of_lt hj h)]

/-- `memset` of the whole block. -/
theorem memset_all (b : Block UInt8) : b.memset b.cap = .ok (b.refill []) := by
  rw [memset, writeBytes_ok (by rw [Nat.zero_add, List.length_replicate])]
  congr 1
  simp only [put, refill, Block.mk.injEq, true_and, List.length_replicate, Nat.zero_add,
    Nat.zero_le, Nat.sub_zero]
  funext j
  by_cases hj : j < b.cap
  · rw [if_pos hj, if_pos hj]
    simp
  · rw [if_neg hj, if_neg hj]

/-- `memset` of the whole block, and then `strcpy`. -/
theorem memset_strcpy (b : Block UInt8) (text : List UInt8) :
    ∃ b', b.memset b.cap = .ok b' ∧
      b'.strcpy text = if text.length < b.cap then .ok (b.refill text) else .error .write := by
  refine ⟨b.put 0 (List.replicate b.cap 0),
    writeBytes_ok (by rw [Nat.zero_add, List.length_replicate]), ?_⟩
  by_cases hlt : text.length < b.cap
  · rw [if_pos hlt, strcpy_ok (b := b.put 0 (List.replicate b.cap 0)) hlt]
    congr 1
    simp only [put, refill, Block.mk.injEq, true_and]
    funext j
    rw [List.length_append, List.length_singleton, List.length_replicate]
    by_cases hj : j < text.length + 1
    · rw [if_pos (by omega), if_pos (by omega), Nat.sub_zero]
      by_cases hin : j < text.length
      · rw [List.getD_append _ _ _ _ hin]
      · have hend : j = text.length := by omega
        rw [hend, List.getD_append_right _ _ _ _ (Nat.le_refl _), Nat.sub_self,
          List.getD_eq_default _ _ (Nat.le_refl _)]
        rfl
    · rw [if_neg (by omega)]
      by_cases hin : j < b.cap
      · rw [if_pos (by omega), if_pos hin, List.getD_eq_default text _ (by omega)]
        simp
      · rw [if_neg (by omega), if_neg hin]
  · rw [if_neg hlt]
    exact strcpy_error (Nat.le_of_not_lt hlt)

theorem memset_error (h : b.cap < n) : b.memset n = .error .write :=
  writeBytes_error (by rw [Nat.zero_add, List.length_replicate]; exact h)

/-- `strcat` behind a text, with room for both. -/
theorem strcat_ok {xs : List UInt8} (h : HoldsText b 0 xs) (ys : List UInt8) (hnul : 0 ∉ ys)
    (hroom : xs.length + ys.length < b.cap) :
    ∃ b', b.strcat ys = .ok b' ∧ b'.cap = b.cap ∧ HoldsText b' 0 (xs ++ ys) := by
  refine ⟨b.put xs.length (ys ++ [0]), ?_, rfl, ?_⟩
  · rw [strcat, strlen_eq h, Checked.ok_bind]
    exact writeBytes_ok (by rw [List.length_append, List.length_singleton]; omega)
  · refine HoldsText.glue (h.bytes.frame fun j _ hhigh => ?_) ?_
    · rw [Nat.zero_add] at hhigh
      exact put_cell_of_lt hhigh
    · rw [Nat.zero_add]
      exact holdsText_put hnul hroom

theorem strcat_error {xs ys : List UInt8} (h : HoldsText b 0 xs)
    (hroom : b.cap ≤ xs.length + ys.length) : b.strcat ys = .error .write := by
  rw [strcat, strlen_eq h, Checked.ok_bind]
  exact writeBytes_error (by rw [List.length_append, List.length_singleton]; omega)

end Block

end WizardShell.Verified
