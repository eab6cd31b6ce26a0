import WizardShell.Ports.HashTable

/-!
# The element count of a new table

`at_new_at` and `bt_new_bt` set the size and the slots of the structure they
allocate; its count is what the memory held.  Every later `at_set` and `bt_set`
counts right (`tableSet_spec`), so the count is exact in every state exactly when
that memory held 0 (`countsExactly_iff`).
-/

namespace WizardShell.Ports

open WizardShell.Verified
open WizardShell.Verified.Probing

variable {V W : Type}

/-- A call `at_set(at, key, val)` that terminates, whatever it returns. -/
def atSetReturns (t : AliasTable V) (op : CString × V) (t' : AliasTable V) : Prop :=
  ∃ r, Outcome.Returns (fun fuel => atSet fuel t op.1 op.2) (r, t')

/-- A call `bt_set(bt, name, bin)` that terminates, whatever it returns. -/
def btSetReturns (t : BuiltinsTable W) (op : CString × W) (t' : BuiltinsTable W) : Prop :=
  ∃ r, Outcome.Returns (fun fuel => btSet fuel t op.1 op.2) (r, t')

/-- The count is the number of occupied slots, and at most the size. -/
def CountExact (t : Table V) : Prop :=
  t.count = occupied t.size t.entries ∧ t.count ≤ t.size

/-- In memory that holds `count`, both kinds of table count their elements
exactly, in every state they can be brought to. -/
def CountsExactly (V W : Type) (n count : Nat) : Prop :=
  (∀ ops (t : AliasTable V), Run atSetReturns (atNewAt n count) ops t → CountExact t) ∧
    ∀ ops (t : BuiltinsTable W), Run btSetReturns (btNewBt n count) ops t → CountExact t

/-- `at_new_at(50)` where `malloc` hands out memory that held 7. -/
theorem not_countsExactly_seven : ¬ CountsExactly Nat Nat 50 7 := by
  rintro ⟨hat, _⟩
  have hexact := (hat [] _ .start).1
  rw [show (atNewAt 50 7 : AliasTable Nat).entries = fun _ => none from rfl,
    occupied_empty] at hexact
  cases hexact

/-- Between calls the table stands for some map. -/
def IsTable (t : Table V) : Prop := ∃ m, TableInv t m

theorem isTable_new {n : Nat} (hn : 1 ≤ n) : IsTable (tableNew n 0 : Table V) :=
  ⟨_, tableNew_inv hn⟩

/-- Setting a key, new or old and with or without a growth, keeps it so. -/
theorem IsTable.set {t t' : Table V} (h : IsTable t) {fuel : Nat} {key : CString} {val : V}
    {r : Int} (hret : tableSet fuel t key val = .ret (r, t')) : IsTable t' := by
  obtain ⟨m, hinv⟩ := h
  obtain ⟨_, hinv', _⟩ := tableSet_spec hinv hret
  exact ⟨_, hinv'⟩

theorem IsTable.countExact {t : Table V} (h : IsTable t) : CountExact t := by
  obtain ⟨m, hinv⟩ := h
  exact ⟨hinv.count, hinv.count_le⟩

theorem isTable_of_run {step : Table V → CString × V → Table V → Prop}
    (hstep : ∀ t op t', step t op t' →
      ∃ r fuel, tableSet fuel t op.1 op.2 = .ret (r, t'))
    {n : Nat} (hn : 1 ≤ n) {ops : List (CString × V)} {t : Table V}
    (hrun : Run step (tableNew n 0) ops t) : IsTable t := by
  induction hrun with
  | start => exact isTable_new hn
  | next _ hop ih =>
      obtain ⟨r, fuel, hret⟩ := hstep _ _ _ hop
      exact ih.set hret

/-- **When the count is exact**: when the memory of the structure held 0. -/
theorem countsExactly_iff (V W : Type) (n count : Nat) (hn : 1 ≤ n) :
    CountsExactly V W n count ↔ count = 0 := by
  constructor
  · rintro ⟨hat, _⟩
    have hexact : count = occupied n (fun _ => none : Slots CString V) := (hat [] _ .start).1
    rw [hexact, occupied_empty]
  · rintro rfl
    constructor
    · intro ops t hrun
      exact (isTable_of_run (fun _ _ _ h => h) hn hrun).countExact
    · intro ops t hrun
      exact (isTable_of_run (fun _ _ _ h => h) hn hrun).countExact

/-- The shell's alias table has 50 slots. -/
theorem countsExactly_iff_fifty : 1 ≤ 50 ∧ (CountsExactly Nat Nat 50 0 ↔ 0 = 0) :=
  ⟨by decide, countsExactly_iff Nat Nat 50 0 (by decide)⟩

end WizardShell.Ports
