import Mathlib.Logic.Function.Iterate
import WizardShell.Ports.HashTable
import WizardShell.Verified.LastWrite

/-!
# Runs of the alias table

A table starts from `at_new_at` with its count at 0 and is changed by calls of
`at_set`.  After any such run it stands for the map of last writes, so it acts
as a finite map.  A lookup of a key that is not there, however, ends only if
some slot is empty, and the growth rule leaves none right after a new key has
taken the last slot: `fillsTable_iff` says which runs end so.
-/

namespace WizardShell.Ports

open Function
open WizardShell.Verified

variable {V : Type}

/-- One call `at_set(at, key, val)` that returned 0. -/
def atSetStep (t : AliasTable V) (op : CString × V) (t' : AliasTable V) : Prop :=
  Outcome.Returns (fun fuel => atSet fuel t op.1 op.2) (0, t')

/-- The run of `at_set` calls `ops` from `at_new_at(n)` leads to `t`. -/
abbrev AtRun (n : Nat) (ops : List (CString × V)) (t : AliasTable V) : Prop :=
  Run atSetStep (atNewAt n 0) ops t

/-- The sizes a table made with `n` slots can have. -/
def sizes (n j : Nat) : Nat := grow^[j] n

theorem sizes_succ (n j : Nat) : sizes n (j + 1) = grow (sizes n j) := by
  simp [sizes, Function.iterate_succ_apply']

theorem two_le_sizes {n : Nat} (hn : 2 ≤ n) (j : Nat) : 2 ≤ sizes n j := by
  induction j with
  | zero => exact hn
  | succ j ih =>
      have hlt := lt_grow ih
      rw [sizes_succ]
      omega

theorem sizes_lt {n : Nat} (hn : 2 ≤ n) {i j : Nat} (h : i < j) :
    sizes n i < sizes n j := by
  induction j with
  | zero => omega
  | succ j ih =>
      have hlt := lt_grow (two_le_sizes hn j)
      rw [sizes_succ]
      by_cases hij : i < j
      · have := ih hij
        omega
      · have heq : i = j := by omega
        subst heq
        exact hlt

theorem sizes_lt_iff {n : Nat} (hn : 2 ≤ n) {i j : Nat} :
    sizes n i < sizes n j ↔ i < j := by
  constructor
  · intro h
    by_contra hge
    rcases Nat.lt_or_eq_of_le (Nat.not_lt.mp hge) with hlt | heq
    · have := sizes_lt hn hlt
      omega
    · subst heq
      omega
  · exact sizes_lt hn

/-- What holds of the table after the calls `ops`. -/
structure AtInv (n : Nat) (ops : List (CString × V)) (t : AliasTable V) : Prop where
  map : TableInv t (lastWrite ops)
  distinct : t.count = distinctKeys ops
  /-- The table has grown only when its count had reached its size. -/
  grown : ∃ j, t.size = sizes n j ∧ ∀ i, i < j → sizes n i ≤ t.count

theorem AtInv.start {n : Nat} (hn : 2 ≤ n) :
    AtInv n [] (atNewAt n 0 : AliasTable V) where
  map := tableNew_inv (by omega)
  distinct := rfl
  grown := ⟨0, rfl, by omega⟩

theorem AtInv.two_le {n : Nat} {ops : List (CString × V)} {t : AliasTable V}
    (h : AtInv n ops t) (hn : 2 ≤ n) : 2 ≤ t.size := by
  obtain ⟨j, hj, _⟩ := h.grown
  rw [hj]
  exact two_le_sizes hn j

theorem AtInv.step {n : Nat} {ops : List (CString × V)} {t t' : AliasTable V}
    {op : CString × V} (h : AtInv n ops t) (hstep : atSetStep t op t') :
    AtInv n (ops ++ [op]) t' := by
  obtain ⟨fuel, hret⟩ := hstep
  obtain ⟨_, hmap, hsize, hcount⟩ := tableSet_spec h.map hret
  refine
    { map := by rw [lastWrite_snoc]; exact hmap
      distinct := by rw [distinctKeys_snoc, hcount, h.distinct]
      grown := ?_ }
  obtain ⟨j, hj, hbelow⟩ := h.grown
  rw [hsize, hcount]
  unfold sizeAfterSet
  split
  · rename_i hfull
    refine ⟨j + 1, by rw [sizes_succ, hj], fun i hi => ?_⟩
    by_cases hij : i < j
    · exact Nat.le_add_right_of_le (hbelow i hij)
    · have heq : i = j := by omega
      subst heq
      omega
  · exact ⟨j, hj, fun i hi => Nat.le_add_right_of_le (hbelow i hi)⟩

/-- The invariant holds after every run. -/
theorem AtRun.inv {n : Nat} (hn : 2 ≤ n) {ops : List (CString × V)}
    {t : AliasTable V} (hrun : AtRun n ops t) : AtInv n ops t :=
  Run.invariant (AtInv.start hn) (fun _ _ _ _ h hstep => h.step hstep) hrun

/-- Every call of a run returns, so every list of calls is a run. -/
theorem exists_atRun {n : Nat} (hn : 2 ≤ n) (ops : List (CString × V)) :
    ∃ t, AtRun n ops t := by
  obtain ⟨t, hrun, _⟩ := Run.exists_run (AtInv.start hn)
    (fun _ _ _ _ h hstep => AtInv.step h hstep)
    (fun _ t op h => tableSet_returns h.map (h.two_le hn) op.1 op.2) ops
  exact ⟨t, hrun⟩

/-- The table `t`, reached by the calls `ops`, behaves as a finite map. -/
structure ActsAsMap (ops : List (CString × V)) (t : AliasTable V) : Prop where
  /-- The next `at_set` terminates and returns 0 … -/
  set_returns : ∀ key val, ∃ t',
    Outcome.Returns (fun fuel => atSet fuel t key val) (0, t')
  /-- … and never returns anything else. -/
  set_zero : ∀ fuel key val r t', atSet fuel t key val = .ret (r, t') → r = 0
  /-- A key that was set has the value of its last set. -/
  get_set : ∀ pre key val post, ops = pre ++ (key, val) :: post →
    key ∉ post.map Prod.fst →
    Outcome.Returns (fun fuel => atGet fuel t key) (some val) ∧
      ∀ fuel r, atGet fuel t key = .ret r → r = some val
  /-- A get of a key that was never set returns NULL, if it returns. -/
  get_unset : ∀ key, key ∉ ops.map Prod.fst →
    ∀ fuel r, atGet fuel t key = .ret r → r = none
  /-- The count is the number of distinct keys set. -/
  count : atCount t = (ops.map Prod.fst).dedup.length

theorem AtInv.actsAsMap {n : Nat} (hn : 2 ≤ n) {ops : List (CString × V)}
    {t : AliasTable V} (h : AtInv n ops t) : ActsAsMap ops t where
  set_returns key val := tableSet_returns h.map (h.two_le hn) key val
  set_zero fuel key val r t' hret := (tableSet_spec h.map hret).1
  get_set pre key val post hops hpost := by
    have hkey : lastWrite ops key = some val := by
      rw [hops]
      exact lastWrite_of_last hpost
    refine ⟨tableGet_hit h.map hkey, fun fuel r hret => ?_⟩
    rw [tableGet_spec h.map hret, hkey]
  get_unset key hkey fuel r hret := by
    rw [tableGet_spec h.map hret]
    exact lastWrite_eq_none.mpr hkey
  count := by
    show t.count = _
    rw [h.distinct, distinctKeys, List.card_toFinset]

/-- **The alias table is a finite map.**  From a table of two or more slots,
every sequence of `at_set` calls runs through, and leaves a table that acts as
the map of its last writes. -/
theorem aliasTable_actsAsMap (n : Nat) (hn : 2 ≤ n) (ops : List (CString × V)) :
    (∃ t, AtRun n ops t) ∧ ∀ t, AtRun n ops t → ActsAsMap ops t :=
  ⟨exists_atRun hn ops, fun _ hrun => (hrun.inv hn).actsAsMap hn⟩

/-- The shell's table of 50 slots, after `l` has been defined twice. -/
theorem aliasTable_actsAsMap_fifty :
    (2 ≤ 50) ∧
    (∃ t, AtRun 50 [(CString.lit ['l'], 1), (CString.lit ['l'], 2)] t) ∧
      ∀ t, AtRun 50 [(CString.lit ['l'], 1), (CString.lit ['l'], 2)] t →
        ActsAsMap [(CString.lit ['l'], 1), (CString.lit ['l'], 2)] t :=
  ⟨by decide, aliasTable_actsAsMap 50 (by decide) _⟩

/-! ## When the table is full -/

/-- The last call of `ops` set a new key, and thereby gave a table made with
`n` slots as many keys as one of its sizes. -/
def FillsTable (n : Nat) (ops : List (CString × V)) : Prop :=
  ∃ pre key val, ops = pre ++ [(key, val)] ∧ key ∉ pre.map Prod.fst ∧
    ∃ j, (ops.map Prod.fst).dedup.length = sizes n j

/-- A run ends with a full table exactly when its last call takes the last
slot: the table grows only at the next call. -/
theorem fillsTable_iff {n : Nat} (hn : 2 ≤ n) {ops : List (CString × V)}
    {t : AliasTable V} (hrun : AtRun n ops t) :
    FillsTable n ops ↔ t.count = t.size := by
  have hinv := hrun.inv hn
  have hdedup : (ops.map Prod.fst).dedup.length = t.count := by
    rw [hinv.distinct, distinctKeys, List.card_toFinset]
  cases ops using List.reverseRecOn with
  | nil =>
      have ht : t = atNewAt n 0 := Run.nil_iff.mp hrun
      subst ht
      have hne : (0 : Nat) ≠ n := by omega
      simp [FillsTable, atNewAt, tableNew, hne]
  | append_singleton pre op =>
      obtain ⟨s, hpre, fuel, hstep⟩ := Run.snoc_iff.mp hrun
      have hs := AtRun.inv hn hpre
      obtain ⟨_, _, hsize, hcount⟩ := tableSet_spec hs.map hstep
      obtain ⟨j, hj, hbelow⟩ := hs.grown
      have hle := hs.map.count_le
      have hgrow := lt_grow (hs.two_le hn)
      constructor
      · rintro ⟨pre', key, val, hops, hnew, i, hi⟩
        obtain ⟨rfl, hop⟩ := List.append_inj' hops rfl
        cases hop
        rw [hdedup, hcount, if_pos (lastWrite_eq_none.mpr hnew)] at hi
        rw [hcount, if_pos (lastWrite_eq_none.mpr hnew), hsize]
        unfold sizeAfterSet
        -- `sizes n j` is the size before the call, `sizes n i` the new count.
        have hji : j ≤ i := by
          by_contra hlt
          have := hbelow i (by omega)
          omega
        split
        · rename_i hfull
          have hlt : j < i := (sizes_lt_iff hn).mp (by omega)
          have hnext : sizes n (j + 1) ≤ sizes n i := by
            rcases Nat.lt_or_eq_of_le hlt with h | h
            · exact Nat.le_of_lt (sizes_lt hn h)
            · rw [← h]
          rw [sizes_succ, ← hj] at hnext
          omega
        · rename_i hroom
          have hij : i ≤ j := by
            by_contra hlt
            have := sizes_lt hn (Nat.lt_of_not_le hlt)
            omega
          have heq : i = j := by omega
          rw [hi, heq, hj]
      · intro hfull
        rw [hcount, hsize] at hfull
        have hnew : lastWrite pre op.1 = none := by
          by_contra hold
          rw [if_neg hold] at hfull
          unfold sizeAfterSet at hfull
          split at hfull <;> omega
        refine ⟨pre, op.1, op.2, rfl, lastWrite_eq_none.mp hnew, ?_⟩
        obtain ⟨i, hi, _⟩ := hinv.grown
        refine ⟨i, ?_⟩
        rw [hdedup, ← hi, hcount, hsize, hfull]

end WizardShell.Ports
