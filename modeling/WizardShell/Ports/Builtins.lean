import WizardShell.Ports.Shell
import WizardShell.Ports.TableStart

/-!
# The builtins

`wsh_main` enters seven functions into the builtins table before the first prompt,
and every line is looked up there by its first token.  `startBuiltins_answers`: the
lookup ends for every token, whatever the memory of the table held, and finds the seven
and nothing else; `rm`, which `builtin.c` defines as well, is not among them.
-/

namespace WizardShell.Ports

open WizardShell.Verified
open WizardShell.Verified.Probing

/-- The functions of type `bin_builtin` that the table points to. -/
inductive Builtin where
  | clear
  | cd
  | ln
  | jobs
  | fg
  | bg
  | exit
  deriving DecidableEq, Repr

/-- What is entered, in the order of the calls. -/
def registered : List (CString × Builtin) :=
  [(.lit ['c', 'l', 'e', 'a', 'r'], .clear), (.lit ['c', 'd'], .cd), (.lit ['l', 'n'], .ln),
    (.lit ['j', 'o', 'b', 's'], .jobs), (.lit ['f', 'g'], .fg), (.lit ['b', 'g'], .bg),
    (.lit ['e', 'x', 'i', 't'], .exit)]

/-- The builtin of a name. -/
def builtinOf (name : CString) : Option Builtin := lastWrite registered name

/-- The calls of `bt_set`, one after another. -/
def btSetAll (fuel : Nat) (bt : BuiltinsTable Builtin) :
    List (CString × Builtin) → Outcome (BuiltinsTable Builtin)
  | [] => .ret bt
  | (name, bin) :: rest => do
      let (_, bt) ← btSet fuel bt name bin
      btSetAll fuel bt rest

/-- `BI_TABLE` at the first prompt; `count` is what its memory held. -/
def startBuiltins (fuel count : Nat) : Outcome (BuiltinsTable Builtin) :=
  btSetAll fuel (btNewBt 50 count) registered

/-! ## The table -/

/-- The table stands for the names, and has an empty slot. -/
structure HoldsBuiltins (t : BuiltinsTable Builtin) : Prop where
  map : TableInv t.recount builtinOf
  room : occupied t.size t.entries < t.size

theorem sizes_mono {a b : Nat} (h : a ≤ b) (k : Nat) : sizes a k ≤ sizes b k := by
  have hgrow : Monotone grow := fun x y hxy => by
    unfold grow
    omega
  exact hgrow.iterate k h

theorem le_sizes {n : Nat} (hn : 2 ≤ n) (k : Nat) : n ≤ sizes n k := by
  cases k with
  | zero => exact Nat.le_refl n
  | succ k => exact Nat.le_of_lt (sizes_lt hn (Nat.succ_pos k))

/-- Calls that return have entered the names. -/
theorem btSetAll_inv {n stale fuel : Nat} {ops : List (CString × Builtin)} :
    ∀ {pre : List (CString × Builtin)} {t t' : BuiltinsTable Builtin},
      StaleInv n stale pre t → btSetAll fuel t ops = .ret t' →
      StaleInv n stale (pre ++ ops) t' := by
  induction ops with
  | nil =>
      intro pre t t' h hret
      cases hret
      rwa [List.append_nil]
  | cons op rest ih =>
      intro pre t t' h hret
      obtain ⟨⟨ret, u⟩, hset, hret⟩ := Outcome.bind_eq_ret.mp hret
      have hcall : tableSet fuel t op.1 op.2 = .ret (ret, u) := hset
      obtain ⟨rfl, _⟩ := h.counts.set_spec hcall
      have hinv := ih (h.step ⟨fuel, hcall⟩) hret
      rwa [List.append_assoc] at hinv

/-- Each call grows the table once at most, so there is a fuel that is enough for all. -/
theorem btSetAll_returns {n stale fuel : Nat} {ops : List (CString × Builtin)} :
    ∀ {pre : List (CString × Builtin)} {t : BuiltinsTable Builtin},
      StaleInv n stale pre t → sizes t.size ops.length ≤ fuel →
      ∃ t', btSetAll fuel t ops = .ret t' ∧ t'.size ≤ sizes t.size ops.length := by
  induction ops with
  | nil =>
      intro pre t h _
      exact ⟨t, rfl, Nat.le_refl _⟩
  | cons op rest ih =>
      intro pre t h hfuel
      rw [List.length_cons, sizes, Function.iterate_succ_apply] at hfuel
      have hgrow := lt_grow h.two_le
      have htwo : 2 ≤ grow t.size := Nat.le_trans h.two_le (Nat.le_of_lt hgrow)
      have henough : grow t.size ≤ fuel := Nat.le_trans (le_sizes htwo rest.length) hfuel
      obtain ⟨u, hset⟩ := h.counts.set_returns h.two_le henough op.1 op.2
      obtain ⟨_, _, hsize, _⟩ := h.counts.set_spec hset
      have hle : u.size ≤ grow t.size := by
        rw [hsize]
        unfold sizeAfterSet
        split <;> omega
      have hmore := sizes_mono hle rest.length
      obtain ⟨t', hrun, hsize'⟩ := ih (h.step ⟨fuel, hset⟩) (Nat.le_trans hmore hfuel)
      refine ⟨t', ?_, Nat.le_trans hsize' hmore⟩
      have hcall : btSet fuel t op.1 op.2 = .ret (0, u) := hset
      simp only [btSetAll, hcall, Outcome.ret_bind]
      exact hrun

/-- Seven slots are taken, and there are fifty or more. -/
theorem StaleInv.holdsBuiltins {stale : Nat} {t : BuiltinsTable Builtin}
    (h : StaleInv 50 stale registered t) : HoldsBuiltins t where
  map := h.counts.map
  room := by
    have hseven : distinctKeys registered = 7 := by decide
    have hsize := h.le_size
    rw [h.distinct, hseven]
    omega

/-- The lookup in such a table ends with what the name stands for. -/
theorem HoldsBuiltins.get {t : BuiltinsTable Builtin} (h : HoldsBuiltins t) {fuel : Nat}
    (hfuel : t.size ≤ fuel) (name : CString) : btGet fuel t name = .ret (builtinOf name) := by
  obtain ⟨i, _, hprobe⟩ : ∃ i, i < t.size ∧
      probe t.size t.entries name fuel (home t.size name) = .ret i :=
    probe_returns_of h.map.den h.map.home_lt hfuel (.inr h.room)
  have hret : ∃ r, btGet fuel t name = .ret r := by
    unfold btGet tableGet
    rw [hprobe, Outcome.ret_bind]
    cases t.entries i with
    | none => exact ⟨none, rfl⟩
    | some entry => exact ⟨some entry.2, rfl⟩
  obtain ⟨r, hr⟩ := hret
  rw [hr, tableGet_spec h.map hr]

/-- Whatever a lookup is given, it answers so if it returns. -/
theorem HoldsBuiltins.eq_of_ret {t : BuiltinsTable Builtin} (h : HoldsBuiltins t)
    {fuel : Nat} {name : CString} {r : Option Builtin} (hret : btGet fuel t name = .ret r) :
    r = builtinOf name := tableGet_spec h.map hret

/-- A name is entered once. -/
theorem builtinOf_eq_some (name : CString) (b : Builtin) :
    builtinOf name = some b ↔ (name, b) ∈ registered :=
  lastWrite_eq_some_of_nodup (by decide)

theorem startBuiltins_inv {count fuel : Nat} {t : BuiltinsTable Builtin}
    (hret : startBuiltins fuel count = .ret t) : HoldsBuiltins t :=
  StaleInv.holdsBuiltins (btSetAll_inv (StaleInv.start (by decide) count) hret)

/-- The seven calls return, and the table holds the builtins. -/
theorem startBuiltins_holds (count : Nat) {fuel : Nat} (hfuel : sizes 50 7 ≤ fuel) :
    ∃ t, startBuiltins fuel count = .ret t ∧ HoldsBuiltins t ∧ t.size ≤ fuel := by
  have hinv : StaleInv 50 count [] (btNewBt 50 count : BuiltinsTable Builtin) :=
    StaleInv.start (by decide) count
  obtain ⟨t, hrun, hsize⟩ : ∃ t, startBuiltins fuel count = .ret t ∧
      t.size ≤ sizes 50 registered.length := btSetAll_returns hinv hfuel
  exact ⟨t, hrun, startBuiltins_inv hrun, Nat.le_trans hsize hfuel⟩

/-- **The builtins table.**  Whatever the memory of its count held, the seven calls
return and every lookup ends: it finds the functions under their names and nothing
under any other, so also not under `rm`. -/
theorem startBuiltins_answers (count : Nat) : ∃ enough, ∀ fuel, enough ≤ fuel →
    ∃ t, startBuiltins fuel count = .ret t ∧
      (∀ name, btGet fuel t name = .ret (builtinOf name)) ∧
      (∀ name b, builtinOf name = some b ↔ (name, b) ∈ registered) ∧
      btGet fuel t (.lit ['r', 'm']) = .ret none := by
  refine ⟨sizes 50 7, fun fuel hfuel => ?_⟩
  obtain ⟨t, hrun, ht, hsize⟩ := startBuiltins_holds count hfuel
  exact ⟨t, hrun, ht.get hsize, builtinOf_eq_some, ht.get hsize _⟩

end WizardShell.Ports
