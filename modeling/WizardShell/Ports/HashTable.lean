import WizardShell.Ports.CString
import WizardShell.Verified.ProbingMap
import WizardShell.Verified.Run

/-!
# The hash tables

The source has three copies of one open-addressing table, for generic values,
builtins and aliases.  The copies for builtins and aliases differ only in the
type of their values, so each operation is defined once over the value type
and named for both tables.  (The generic copy is not used by the shell.)

Every entries array is taken to have `size` slots, memory allocation to
succeed, and sizes to be below `2 ^ 31`, where the conversions between
`size_t`, `int` and `uint64_t` in the source are the identity.

* `TableInv` — the table stands for a map, and `count` is exact.
* `tableSet_spec`, `tableSet_returns` — setting a key.
* `tableGet_hit`, `tableGet_spec`, `tableGet_terminates_iff` — getting one.
-/

namespace WizardShell.Ports

open Function
open WizardShell.Verified
open WizardShell.Verified.Probing

/-- A hash table: its slots (a NULL key is an empty slot), their number, and
the number of elements. -/
structure Table (V : Type) where
  entries : Slots CString V
  size : Nat
  count : Nat

/-- The value of an alias is a `char **`, that of a builtin a function. -/
abbrev AliasTable := Table

abbrev BuiltinsTable := Table

variable {V : Type}

/-- FNV-1a over the bytes of the key. -/
def htHash (key : CString) : UInt64 :=
  key.bytes.foldl (fun hash p => (hash ^^^ p.toUInt64) * 1099511628211)
    14695981039346656037

/-- The slot a search for `key` starts at: `hash & (capacity - 1)`. -/
def home (capacity : Nat) (key : CString) : Nat :=
  (htHash key).toNat &&& (capacity - 1)

/-- Set `key` in an array of `capacity` slots.  `plength` is the counter to
increment, or NULL while an array is being filled from an old one. -/
def tableSetInternal (fuel : Nat) (entries : Slots CString V) (capacity : Nat)
    (plength : Option Nat) (key : CString) (val : V) :
    Outcome (Int × Slots CString V × Option Nat) := do
  let ind ← probe capacity entries key fuel (home capacity key)
  match entries ind with
  | some (k, _) => return (0, update entries ind (some (k, val)), plength)
  | none =>
      return (0, update entries ind (some (key, val)), plength.map (· + 1))

/-- The size after a growth: `(size_t)(1.5 * size)`. -/
def grow (size : Nat) : Nat := 3 * size / 2

/-- Move slot `i` of the old array into the new one, if it is occupied. -/
def tableMove (fuel : Nat) (old : Slots CString V) (newCap : Nat)
    (new : Slots CString V) (i : Nat) : Outcome (Slots CString V) :=
  match old i with
  | none => return new
  | some (key, val) => do
      let (_, new', _) ← tableSetInternal fuel new newCap none key val
      return new'

/-- Move every element into a fresh array one and a half times as long. -/
def tableBlowup (fuel : Nat) (t : Table V) : Outcome (Table V) := do
  let newCap := grow t.size
  let new ← (List.range t.size).foldlM (tableMove fuel t.entries newCap)
    fun _ => none
  return { t with entries := new, size := newCap }

/-- A fresh table.  The slots are cleared by `calloc`; `count` keeps what the
memory of the structure held. -/
def tableNew (size : Nat) (count : Nat) : Table V :=
  { entries := fun _ => none, size := size, count := count }

/-- Make room: grow the table if its count has reached its size. -/
def tableRoom (fuel : Nat) (t : Table V) : Outcome (Table V) :=
  if t.count ≥ t.size then tableBlowup fuel t else return t

/-- Set `key` to `val`, after making room.  Returns 0. -/
def tableSet (fuel : Nat) (t : Table V) (key : CString) (val : V) :
    Outcome (Int × Table V) := do
  let t ← tableRoom fuel t
  let (ret, entries, count) ←
    tableSetInternal fuel t.entries t.size (some t.count) key val
  return (ret, { t with entries := entries, count := count.getD t.count })

/-- The value of `key`, or NULL. -/
def tableGet (fuel : Nat) (t : Table V) (key : CString) :
    Outcome (Option V) := do
  let i ← probe t.size t.entries key fuel (home t.size key)
  match t.entries i with
  | some (_, val) => return some val
  | none => return none

def tableCount (t : Table V) : Nat := t.count

/-! ## The functions of the source -/

def atSetInternal (fuel : Nat) (ans : Slots CString V) (capacity : Nat)
    (plength : Option Nat) (key : CString) (val : V) :=
  tableSetInternal fuel ans capacity plength key val

def atBlowup (fuel : Nat) (at' : AliasTable V) : Outcome (AliasTable V) :=
  tableBlowup fuel at'

def atNewAt (size : Nat) (count : Nat) : AliasTable V := tableNew size count

def atSet (fuel : Nat) (at' : AliasTable V) (abbr : CString) (tokExt : V) :
    Outcome (Int × AliasTable V) :=
  tableSet fuel at' abbr tokExt

def atGet (fuel : Nat) (at' : AliasTable V) (abbr : CString) :
    Outcome (Option V) :=
  tableGet fuel at' abbr

def atCount (at' : AliasTable V) : Nat := tableCount at'

def btSetInternal (fuel : Nat) (bns : Slots CString V) (capacity : Nat)
    (plength : Option Nat) (name : CString) (bi : V) :=
  tableSetInternal fuel bns capacity plength name bi

def btBlowup (fuel : Nat) (bt : BuiltinsTable V) : Outcome (BuiltinsTable V) :=
  tableBlowup fuel bt

def btNewBt (size : Nat) (count : Nat) : BuiltinsTable V := tableNew size count

def btSet (fuel : Nat) (bt : BuiltinsTable V) (name : CString) (bin : V) :
    Outcome (Int × BuiltinsTable V) :=
  tableSet fuel bt name bin

def btGet (fuel : Nat) (bt : BuiltinsTable V) (name : CString) :
    Outcome (Option V) :=
  tableGet fuel bt name

def btCount (bt : BuiltinsTable V) : Nat := tableCount bt

/-! ## The table is a linear-probing map -/

theorem home_lt {capacity : Nat} (h : 0 < capacity) (key : CString) :
    home capacity key < capacity := by
  have hle : home capacity key ≤ capacity - 1 := Nat.and_le_right
  omega

/-- Whichever branch it takes, the internal set writes the pair at the slot
where the search stops. -/
theorem tableSetInternal_eq (fuel : Nat) (entries : Slots CString V)
    (capacity : Nat) (plength : Option Nat) (key : CString) (val : V) :
    tableSetInternal fuel entries capacity plength key val =
      (probe capacity entries key fuel (home capacity key) >>= fun ind =>
        .ret (0, update entries ind (some (key, val)),
          if entries ind = none then plength.map (· + 1) else plength)) := by
  unfold tableSetInternal
  cases hprobe : probe capacity entries key fuel (home capacity key) with
  | ret ind =>
      simp only [Outcome.ret_bind]
      cases hslot : entries ind with
      | none => simp
      | some entry =>
          obtain ⟨k, w⟩ := entry
          have hkey : k = key := by
            have hstop := probe_stops hprobe
            exact hstop _ hslot
          simp [hkey]
  | undefined => rfl
  | outOfFuel => rfl

/-- Filling a new array is the rehash of the library. -/
theorem tableMove_eq_copySlot (fuel : Nat) (old : Slots CString V)
    (newCap : Nat) :
    tableMove fuel old newCap = copySlot newCap (home newCap) fuel old := by
  funext new i
  unfold tableMove copySlot
  cases old i with
  | none => rfl
  | some entry =>
      simp only [tableSetInternal_eq, store, bind_assoc]
      rfl

theorem tableBlowup_eq (fuel : Nat) (t : Table V) :
    tableBlowup fuel t =
      (rehash (grow t.size) (home (grow t.size)) fuel t.entries t.size >>=
        fun new => .ret { t with entries := new, size := grow t.size }) := by
  simp only [tableBlowup, rehash, tableMove_eq_copySlot, Outcome.pure_eq]

/-- The table stands for the map `m`, and its count is the number of occupied
slots. -/
structure TableInv (t : Table V) (m : CString → Option V) : Prop where
  size_pos : 0 < t.size
  well : WellPlaced t.size (home t.size) t.entries
  den : Denotes t.size t.entries m
  count : t.count = occupied t.size t.entries

theorem TableInv.count_le {t : Table V} {m : CString → Option V}
    (h : TableInv t m) : t.count ≤ t.size := by
  rw [h.count]
  exact occupied_le _ _

theorem TableInv.home_lt {t : Table V} {m : CString → Option V}
    (h : TableInv t m) (key : CString) : home t.size key < t.size :=
  WizardShell.Ports.home_lt h.size_pos key

/-- A fresh table whose count happens to be 0 stands for the empty map. -/
theorem tableNew_inv {size : Nat} (h : 0 < size) :
    TableInv (tableNew size 0 : Table V) fun _ => none where
  size_pos := h
  well := wellPlaced_empty size (home size)
  den := denotes_empty size
  count := by simp [tableNew]

theorem grow_pos {size : Nat} (h : 0 < size) : 0 < grow size := by
  unfold grow
  omega

theorem lt_grow {size : Nat} (h : 2 ≤ size) : size < grow size := by
  unfold grow
  omega

/-- Growing a table keeps the map and the count. -/
theorem tableBlowup_spec {t t' : Table V} {m : CString → Option V}
    (h : TableInv t m) {fuel : Nat} (hret : tableBlowup fuel t = .ret t') :
    TableInv t' m ∧ t'.size = grow t.size ∧ t'.count = t.count := by
  rw [tableBlowup_eq] at hret
  obtain ⟨new, hnew, ht'⟩ := Outcome.bind_eq_ret.mp hret
  cases ht'
  have hpos := grow_pos h.size_pos
  obtain ⟨hwell, hden, hocc⟩ :=
    rehash_spec h.well h.den (WizardShell.Ports.home_lt hpos) hnew
  exact
    ⟨{ size_pos := hpos
       well := hwell
       den := hden
       count := by
        show t.count = _
        rw [hocc]
        exact h.count }, rfl, rfl⟩

/-- From two slots on, growing a table returns. -/
theorem tableBlowup_returns {t : Table V} {m : CString → Option V}
    (h : TableInv t m) (hsize : 2 ≤ t.size) {fuel : Nat}
    (hfuel : grow t.size ≤ fuel) : ∃ t', tableBlowup fuel t = .ret t' := by
  have hgrow := lt_grow hsize
  obtain ⟨new, hnew⟩ := rehash_returns h.well
    (WizardShell.Ports.home_lt (Nat.lt_of_le_of_lt (Nat.zero_le _) hgrow))
    (Nat.le_refl t.size) hgrow hfuel
  rw [tableBlowup_eq, hnew]
  exact ⟨_, rfl⟩

/-! ## Setting a key -/

/-- The size a table has after a set. -/
def sizeAfterSet (t : Table V) : Nat :=
  if t.count ≥ t.size then grow t.size else t.size

theorem tableRoom_spec {t t' : Table V} {m : CString → Option V}
    (h : TableInv t m) {fuel : Nat} (hret : tableRoom fuel t = .ret t') :
    TableInv t' m ∧ t'.size = sizeAfterSet t ∧ t'.count = t.count := by
  unfold tableRoom at hret
  unfold sizeAfterSet
  split at hret
  · rename_i hfull
    rw [if_pos hfull]
    exact tableBlowup_spec h hret
  · rename_i hroom
    rw [if_neg hroom]
    cases hret
    exact ⟨h, rfl, rfl⟩

theorem tableSet_eq (fuel : Nat) (t : Table V) (key : CString) (val : V) :
    tableSet fuel t key val =
      (tableRoom fuel t >>= fun t =>
        probe t.size t.entries key fuel (home t.size key) >>= fun ind =>
          .ret (0,
            { t with
              entries := update t.entries ind (some (key, val))
              count := if t.entries ind = none then t.count + 1 else t.count })) := by
  unfold tableSet
  congr 1
  funext t
  rw [tableSetInternal_eq, bind_assoc]
  congr 1
  funext ind
  by_cases hslot : t.entries ind = none <;> simp [hslot]

/-- **Setting a key** is a point update of the map.  It returns 0 and counts a
new key, and only a new key. -/
theorem tableSet_spec {t t' : Table V} {m : CString → Option V}
    (h : TableInv t m) {fuel : Nat} {key : CString} {val : V} {r : Int}
    (hret : tableSet fuel t key val = .ret (r, t')) :
    r = 0 ∧ TableInv t' (update m key (some val)) ∧
      t'.size = sizeAfterSet t ∧
      t'.count = t.count + if m key = none then 1 else 0 := by
  rw [tableSet_eq] at hret
  obtain ⟨u, hroom, hret⟩ := Outcome.bind_eq_ret.mp hret
  obtain ⟨ind, hprobe, hret⟩ := Outcome.bind_eq_ret.mp hret
  cases hret
  obtain ⟨hu, husize, hucount⟩ := tableRoom_spec h hroom
  have hstore : store u.size (home u.size) fuel u.entries key val =
      .ret (update u.entries ind (some (key, val))) := by
    simp [store, hprobe]
  obtain ⟨hwell, hden, hocc⟩ := store_spec hu.well hu.den hu.home_lt hstore
  -- The slot where the search stops is empty exactly for a new key.
  have hnew : u.entries ind = none ↔ m key = none := by
    cases hk : m key with
    | none => simp [(probe_miss hu.den hu.home_lt hk hprobe).2]
    | some w => simp [(probe_hit hu.well hu.den hu.home_lt hk hprobe).2]
  have hcount : (if u.entries ind = none then u.count + 1 else u.count) =
      t.count + if m key = none then 1 else 0 := by
    rw [← hucount]
    simp only [hnew]
    split <;> rfl
  refine ⟨rfl, ?_, husize, hcount⟩
  exact
    { size_pos := hu.size_pos
      well := hwell
      den := hden
      count := by
        show (if u.entries ind = none then u.count + 1 else u.count) = _
        rw [hcount, hocc, ← hu.count, hucount] }

/-- From two slots on, setting a key returns: a full table is grown first. -/
theorem tableSet_returns {t : Table V} {m : CString → Option V}
    (h : TableInv t m) (hsize : 2 ≤ t.size) (key : CString) (val : V) :
    ∃ t', Outcome.Returns (fun fuel => tableSet fuel t key val) (0, t') := by
  have hroom : ∃ u, tableRoom (grow t.size) t = .ret u := by
    unfold tableRoom
    split
    · exact tableBlowup_returns h hsize (Nat.le_refl _)
    · exact ⟨t, rfl⟩
  obtain ⟨u, hu⟩ := hroom
  obtain ⟨hinv, husize, hucount⟩ := tableRoom_spec h hu
  have hgrow := lt_grow hsize
  have hlt : u.count < u.size ∧ u.size ≤ grow t.size := by
    rw [husize, hucount]
    have hle := h.count_le
    unfold sizeAfterSet
    split <;> omega
  have hempty : occupied u.size u.entries < u.size := hinv.count ▸ hlt.1
  obtain ⟨ind, _, hprobe⟩ := probe_returns_of hinv.den hinv.home_lt hlt.2
    (k := key) (.inr hempty)
  refine ⟨{ u with
    entries := update u.entries ind (some (key, val))
    count := if u.entries ind = none then u.count + 1 else u.count },
    grow t.size, ?_⟩
  simp only [tableSet_eq, hu, Outcome.ret_bind, hprobe]

/-! ## Getting a key -/

theorem tableGet_hit {t : Table V} {m : CString → Option V}
    (h : TableInv t m) {key : CString} {val : V} (hkey : m key = some val) :
    Outcome.Returns (fun fuel => tableGet fuel t key) (some val) := by
  obtain ⟨i, _, hprobe⟩ := probe_returns_of h.den h.home_lt
    (Nat.le_refl t.size) (k := key) (.inl (by simp [hkey]))
  obtain ⟨_, hslot⟩ := probe_hit h.well h.den h.home_lt hkey hprobe
  exact ⟨t.size, by simp [tableGet, hprobe, hslot]⟩

/-- Whenever a get returns, it returns what the map has. -/
theorem tableGet_spec {t : Table V} {m : CString → Option V}
    (h : TableInv t m) {fuel : Nat} {key : CString} {r : Option V}
    (hret : tableGet fuel t key = .ret r) : r = m key := by
  obtain ⟨i, hprobe, hret⟩ := Outcome.bind_eq_ret.mp hret
  cases hkey : m key with
  | none =>
      simp only [(probe_miss h.den h.home_lt hkey hprobe).2] at hret
      cases hret
      rfl
  | some val =>
      simp only [(probe_hit h.well h.den h.home_lt hkey hprobe).2] at hret
      cases hret
      rfl

theorem tableGet_outOfFuel_iff (fuel : Nat) (t : Table V) (key : CString) :
    tableGet fuel t key = .outOfFuel ↔
      probe t.size t.entries key fuel (home t.size key) = .outOfFuel := by
  unfold tableGet
  cases probe t.size t.entries key fuel (home t.size key) with
  | ret i =>
      simp only [Outcome.ret_bind]
      cases t.entries i with
      | none => simp
      | some entry => simp
  | undefined => simp
  | outOfFuel => simp

/-- While some slot is empty, fuel for one round is enough for any key. -/
theorem tableGet_ne_outOfFuel {t : Table V} {m : CString → Option V}
    (h : TableInv t m) (hroom : t.count < t.size) {fuel : Nat}
    (hfuel : t.size ≤ fuel) (key : CString) :
    tableGet fuel t key ≠ .outOfFuel := by
  rw [ne_eq, tableGet_outOfFuel_iff]
  obtain ⟨i, _, hret⟩ := probe_returns_of h.den h.home_lt hfuel (k := key)
    (.inr (h.count ▸ hroom))
  simp [hret]

/-- A get terminates exactly when its key is in the table or the table is not
full. -/
theorem tableGet_terminates_iff {t : Table V} {m : CString → Option V}
    (h : TableInv t m) (key : CString) :
    Outcome.Terminates (fun fuel => tableGet fuel t key) ↔
      m key ≠ none ∨ t.count < t.size := by
  rw [h.count, ← terminates_iff h.den h.home_lt key]
  refine exists_congr fun fuel => not_congr ?_
  exact tableGet_outOfFuel_iff fuel t key

/-- The slots hold finitely many keys, so some string, also different from
given ones, is not in the table. -/
theorem TableInv.exists_absent {t : Table V} {m : CString → Option V}
    (h : TableInv t m) (avoid : List CString) :
    ∃ key, m key = none ∧ key ∉ avoid := by
  obtain ⟨key, hkey⟩ := CString.exists_notMem
    (((List.range t.size).filterMap fun i => (t.entries i).map Prod.fst) ++ avoid)
  rw [List.mem_append, not_or] at hkey
  refine ⟨key, ?_, hkey.2⟩
  cases hm : m key with
  | none => rfl
  | some val =>
      obtain ⟨i, hi, hslot⟩ := (h.den key val).mp hm
      refine absurd (List.mem_filterMap.mpr ⟨i, List.mem_range.mpr hi, ?_⟩) hkey.1
      simp [hslot]

/-- Every lookup ends exactly when there is an empty slot. -/
theorem TableInv.terminates_iff {t : Table V} {m : CString → Option V} (h : TableInv t m) :
    (∀ key, Outcome.Terminates fun fuel => tableGet fuel t key) ↔ t.count < t.size := by
  constructor
  · intro hend
    obtain ⟨key, hkey, _⟩ := h.exists_absent []
    rcases (tableGet_terminates_iff h key).mp (hend key) with hin | hroom
    · exact absurd hkey hin
    · exact hroom
  · intro hroom key
    exact (tableGet_terminates_iff h key).mpr (.inr hroom)

end WizardShell.Ports
