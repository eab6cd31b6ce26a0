import WizardShell.Ports.AliasTable
import WizardShell.Ports.Resolve

/-!
# Tables made in memory that was used before

The count of a new table is what its memory held (`at_new_at`, `bt_new_bt`), and
`at_set` and `bt_set` compare it with the size before they look at a slot.  A count
that starts too high makes the table grow early and does no other harm: in any state
the table stands for the map of its last writes (`CountsFrom.set_spec`), and since it
grows before its last slot is taken, a lookup always finds an empty one.  With the
count at 0 the last slot is taken first, and then no lookup of another key ends
(`lookupsEnd_iff_stale`).

The count is a `size_t`, and one that starts high enough would come to 0 again; the
runs of `SizedRun` end before that.
-/

namespace WizardShell.Ports

open Function
open WizardShell.Verified
open WizardShell.Verified.Probing

variable {V : Type}

/-- The same slots, with their number as the count. -/
def Table.recount (t : Table V) : Table V := { t with count := occupied t.size t.entries }

/-- The table stands for `m` and counts `stale` elements too many. -/
structure CountsFrom (stale : Nat) (t : Table V) (m : CString → Option V) : Prop where
  map : TableInv t.recount m
  count : t.count = stale + occupied t.size t.entries

theorem countsFrom_new {n : Nat} (hn : 0 < n) (stale : Nat) :
    CountsFrom stale (tableNew n stale : Table V) fun _ => none where
  map :=
    { size_pos := hn
      well := wellPlaced_empty n (home n)
      den := denotes_empty n
      count := rfl }
  count := by simp [tableNew]

section Set

variable {stale fuel : Nat} {t t' : Table V} {m : CString → Option V} {key : CString} {val : V}

/-- A growth reads the size and the slots only. -/
theorem tableBlowup_eq_ret : tableBlowup fuel t = .ret t' ↔
    ∃ new, rehash (grow t.size) (home (grow t.size)) fuel t.entries t.size = .ret new ∧
      t' = { t with entries := new, size := grow t.size } := by
  rw [tableBlowup_eq, Outcome.bind_eq_ret]
  simp only [Outcome.ret.injEq, eq_comm]

/-- Making room moves the slots, whatever the count. -/
theorem CountsFrom.room (h : CountsFrom stale t m) (hret : tableRoom fuel t = .ret t') :
    CountsFrom stale t' m ∧ t'.size = sizeAfterSet t ∧
      occupied t'.size t'.entries = occupied t.size t.entries := by
  unfold tableRoom at hret
  unfold sizeAfterSet
  split at hret
  · rename_i hfull
    rw [if_pos hfull]
    obtain ⟨new, hnew, rfl⟩ := tableBlowup_eq_ret.mp hret
    obtain ⟨hmap, _, _⟩ := tableBlowup_spec h.map (tableBlowup_eq_ret.mpr ⟨new, hnew, rfl⟩)
    have hcount : occupied t.size t.entries = occupied (grow t.size) new := hmap.count
    refine ⟨⟨⟨hmap.size_pos, hmap.well, hmap.den, rfl⟩, ?_⟩, rfl, hcount.symm⟩
    show t.count = stale + occupied (grow t.size) new
    rw [← hcount]
    exact h.count
  · rename_i hroom
    rw [if_neg hroom]
    cases hret
    exact ⟨h, rfl, rfl⟩

/-- **Setting a key** is a point update of the map, also where the count is wrong. -/
theorem CountsFrom.set_spec (h : CountsFrom stale t m) {r : Int}
    (hret : tableSet fuel t key val = .ret (r, t')) :
    r = 0 ∧ CountsFrom stale t' (update m key (some val)) ∧ t'.size = sizeAfterSet t ∧
      occupied t'.size t'.entries =
        occupied t.size t.entries + if m key = none then 1 else 0 := by
  rw [tableSet_eq] at hret
  obtain ⟨u, hroom, hret⟩ := Outcome.bind_eq_ret.mp hret
  obtain ⟨ind, hprobe, hret⟩ := Outcome.bind_eq_ret.mp hret
  cases hret
  obtain ⟨hu, husize, huocc⟩ := h.room hroom
  have hstore : store u.size (home u.size) fuel u.entries key val =
      .ret (update u.entries ind (some (key, val))) := by
    simp [store, hprobe]
  obtain ⟨hwell, hden, hstored⟩ := store_spec hu.map.well hu.map.den hu.map.home_lt hstore
  have hocc : occupied u.size (update u.entries ind (some (key, val))) =
      occupied u.size u.entries + if m key = none then 1 else 0 := hstored
  have hnew : u.entries ind = none ↔ m key = none := by
    cases hk : m key with
    | none =>
        have hempty : u.entries ind = none := (probe_miss hu.map.den hu.map.home_lt hk hprobe).2
        simp [hempty]
    | some w =>
        have hslot : u.entries ind = some (key, w) :=
          (probe_hit hu.map.well hu.map.den hu.map.home_lt hk hprobe).2
        simp [hslot]
  have hcount : (if u.entries ind = none then u.count + 1 else u.count) =
      stale + occupied u.size (update u.entries ind (some (key, val))) := by
    rw [hocc, hu.count]
    simp only [hnew]
    split <;> omega
  exact ⟨rfl, ⟨⟨hu.map.size_pos, hwell, hden, rfl⟩, hcount⟩, husize, huocc ▸ hocc⟩

/-- From two slots on, setting a key returns. -/
theorem CountsFrom.set_returns (h : CountsFrom stale t m) (hsize : 2 ≤ t.size)
    (hfuel : grow t.size ≤ fuel) (key : CString) (val : V) :
    ∃ t', tableSet fuel t key val = .ret (0, t') := by
  have hgrow := lt_grow hsize
  have hroom : ∃ u, tableRoom fuel t = .ret u := by
    unfold tableRoom
    split
    · obtain ⟨u, hu⟩ := tableBlowup_returns h.map hsize hfuel
      obtain ⟨new, hnew, _⟩ := tableBlowup_eq_ret.mp hu
      exact ⟨_, tableBlowup_eq_ret.mpr ⟨new, hnew, rfl⟩⟩
    · exact ⟨t, rfl⟩
  obtain ⟨u, hu⟩ := hroom
  obtain ⟨hinv, husize, huocc⟩ := h.room hu
  have hlt : occupied u.size u.entries < u.size ∧ u.size ≤ fuel := by
    have hle := occupied_le t.size t.entries
    have hcount := h.count
    rw [huocc, husize]
    unfold sizeAfterSet
    split <;> omega
  obtain ⟨ind, _, hprobe⟩ : ∃ ind, ind < u.size ∧
      probe u.size u.entries key fuel (home u.size key) = .ret ind :=
    probe_returns_of hinv.map.den hinv.map.home_lt hlt.2 (.inr hlt.1)
  refine ⟨{ u with
    entries := update u.entries ind (some (key, val))
    count := if u.entries ind = none then u.count + 1 else u.count }, ?_⟩
  simp only [tableSet_eq, hu, Outcome.ret_bind, hprobe]

theorem CountsFrom.get_terminates_iff (h : CountsFrom stale t m) (key : CString) :
    Outcome.Terminates (fun fuel => tableGet fuel t key) ↔
      m key ≠ none ∨ occupied t.size t.entries < t.size :=
  tableGet_terminates_iff h.map key

end Set

/-! ## Runs -/

/-- The run of `at_set` or `bt_set` calls `ops` from a table of `n` slots whose count
was `stale` leads to `t`. -/
abbrev StaleRun (n stale : Nat) (ops : List (CString × V)) (t : Table V) : Prop :=
  Run atSetStep (tableNew n stale) ops t

/-- What holds of the table after the calls. -/
structure StaleInv (n stale : Nat) (ops : List (CString × V)) (t : Table V) : Prop where
  counts : CountsFrom stale t (lastWrite ops)
  distinct : occupied t.size t.entries = distinctKeys ops
  two_le : 2 ≤ t.size
  le_size : n ≤ t.size
  /-- A count that is too high makes the table grow before it is full. -/
  roomy : 1 ≤ stale → occupied t.size t.entries < t.size

theorem StaleInv.start {n : Nat} (hn : 2 ≤ n) (stale : Nat) :
    StaleInv n stale [] (tableNew n stale : Table V) where
  counts := countsFrom_new (by omega) stale
  distinct := occupied_empty n
  two_le := hn
  le_size := Nat.le_refl n
  roomy _ := by
    show occupied n (fun _ => none : Slots CString V) < n
    rw [occupied_empty]
    omega

theorem StaleInv.step {n stale : Nat} {ops : List (CString × V)} {t t' : Table V}
    {op : CString × V} (h : StaleInv n stale ops t) (hstep : atSetStep t op t') :
    StaleInv n stale (ops ++ [op]) t' := by
  obtain ⟨fuel, hret⟩ := hstep
  obtain ⟨_, hcounts, hsize, hocc⟩ := h.counts.set_spec hret
  have hgrow := lt_grow h.two_le
  have hsize' : t'.size = if t.count ≥ t.size then grow t.size else t.size := hsize
  have hle : t.size ≤ t'.size := by
    split at hsize' <;> omega
  refine ⟨by rwa [lastWrite_snoc], by rw [distinctKeys_snoc, hocc, h.distinct],
    Nat.le_trans h.two_le hle, Nat.le_trans h.le_size hle, fun hstale => ?_⟩
  · have hroomy := h.roomy hstale
    have hcount := h.counts.count
    have hone : occupied t'.size t'.entries ≤ occupied t.size t.entries + 1 := by
      rw [hocc]
      split <;> omega
    split at hsize' <;> omega

theorem StaleRun.inv {n stale : Nat} (hn : 2 ≤ n) {ops : List (CString × V)} {t : Table V}
    (hrun : StaleRun n stale ops t) : StaleInv n stale ops t :=
  Run.invariant (StaleInv.start hn stale) (fun _ _ _ _ h hstep => h.step hstep) hrun

/-- Whether a table is filled is a matter of the names. -/
theorem fillsTable_iff_keys {n : Nat} {ops : List (CString × V)} :
    FillsTable n ops ↔ (∃ pre key, ops.map Prod.fst = pre ++ [key] ∧ key ∉ pre) ∧
      ∃ j, (ops.map Prod.fst).dedup.length = sizes n j := by
  constructor
  · rintro ⟨pre, key, val, rfl, hnew, hfull⟩
    exact ⟨⟨pre.map Prod.fst, key, by simp, hnew⟩, hfull⟩
  · rintro ⟨⟨pre, key, hkeys, hnew⟩, hfull⟩
    obtain ⟨front, last, rfl, rfl, hlast⟩ := List.map_eq_append_iff.mp hkeys
    obtain ⟨op, rfl, rfl⟩ := List.map_eq_singleton_iff.mp hlast
    exact ⟨front, op.1, op.2, rfl, hnew, hfull⟩

theorem fillsTable_map {W : Type} {n : Nat} {f : CString × V → W} {ops : List (CString × V)} :
    FillsTable n (ops.map fun op => (op.1, f op)) ↔ FillsTable n ops := by
  have hkeys : (ops.map fun op => (op.1, f op)).map Prod.fst = ops.map Prod.fst := by
    rw [List.map_map]
    rfl
  rw [fillsTable_iff_keys, fillsTable_iff_keys, hkeys]

/-! ## Lookups -/

/-- A call behind which the count is in the range of `size_t` and the size in that of
`int`. -/
def sizedSetStep (t : Table V) (op : CString × V) (t' : Table V) : Prop :=
  atSetStep t op t' ∧ t'.count < 2 ^ 64 ∧ t'.size < 2 ^ 31

/-- The run of calls `ops` leads to `t`, and no number in it is too large. -/
abbrev SizedRun (n stale : Nat) (ops : List (CString × V)) (t : Table V) : Prop :=
  Run sizedSetStep (tableNew n stale) ops t

theorem SizedRun.staleRun {n stale : Nat} {ops : List (CString × V)} {t : Table V}
    (hrun : SizedRun n stale ops t) : StaleRun n stale ops t := by
  induction hrun with
  | start => exact .start
  | next _ hstep ih => exact .next ih hstep.1

/-- **When every lookup ends**: where the count of the new table was not 0, always, and
where it was, unless the last call filled the table. -/
theorem lookupsEnd_iff_stale {n stale : Nat} {ops : List (CString × V)} {t : Table V}
    (hn : 2 ≤ n) (hrun : SizedRun n stale ops t) :
    (∀ key, Outcome.Terminates fun fuel => tableGet fuel t key) ↔
      stale ≠ 0 ∨ ¬ FillsTable n ops := by
  have hinv := hrun.staleRun.inv hn
  by_cases hstale : stale = 0
  · subst hstale
    have hat : AtRun n ops t := hrun.staleRun
    have hmap := (hat.inv hn).map
    have hle := hmap.count_le
    rw [hmap.terminates_iff, fillsTable_iff hn hat]
    omega
  · refine iff_of_true (fun key => ?_) (.inl hstale)
    rw [hinv.counts.get_terminates_iff]
    exact .inr (hinv.roomy (Nat.pos_of_ne_zero hstale))

/-- A table of 50 slots in memory that held 50 grows at the first call. -/
theorem lookupsEnd_iff_stale_fifty : ∃ t : Table Nat, 2 ≤ 50 ∧
    SizedRun 50 50 [(letters 0, 1)] t ∧ t.size = 75 ∧
    ((∀ key, Outcome.Terminates fun fuel => tableGet fuel t key) ↔
      50 ≠ 0 ∨ ¬ FillsTable 50 [(letters 0, 1)]) := by
  have hnew : CountsFrom 50 (tableNew 50 50 : Table Nat) fun _ => none :=
    countsFrom_new (by decide) 50
  obtain ⟨t, hset⟩ := hnew.set_returns (by decide) (Nat.le_refl _) (letters 0) 1
  obtain ⟨_, hcounts, hsize, hocc⟩ := hnew.set_spec hset
  have hsize' : t.size = 75 := hsize
  have hcount : t.count = 51 := by
    rw [hcounts.count, hocc]
    show 50 + (occupied 50 (fun _ => none : Slots CString Nat) + 1) = 51
    rw [occupied_empty]
  have hrun : SizedRun 50 50 [(letters 0, 1)] t :=
    Run.singleton_iff.mpr ⟨⟨_, hset⟩, by rw [hcount]; decide, by rw [hsize']; decide⟩
  exact ⟨t, by decide, hrun, hsize', lookupsEnd_iff_stale (by decide) hrun⟩

end WizardShell.Ports
