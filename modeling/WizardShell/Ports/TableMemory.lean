import WizardShell.Ports.HashTable
import WizardShell.Verified.Block

/-!
# The memory of a growing table

The slots of a table with the array they live in: an access at or behind the
entries of the array is undefined.  Where the array has a slot for every index
below the size, this is the table of `HashTable` (`atGet_eq`,
`atSetInternal_eq`).

`at_blowup` asks `calloc` for entries of the size of a pointer, half that of an
`a_node`, so that the new array has half of the slots.  The first slot of a search
is `hash & (size - 1)`, and some string has the leading bit of `size - 1` in its
hash: whatever the table held, growing it leads outside (`not_growsInside`).
-/

namespace WizardShell.Ports

open WizardShell.Verified
open WizardShell.Verified.Probing

variable {V : Type}

/-- `sizeof(a_node)` and `sizeof(a_node *)` on LP64. -/
def sizeofNode : Nat := 16

def sizeofNodePtr : Nat := 8

/-- An array of `a_node`. -/
abbrev NodeArray (V : Type) := Block (Option (CString × V))

/-- An alias table with the array of its entries. -/
structure MemTable (V : Type) where
  entries : NodeArray V
  size : Nat
  count : Nat

namespace MemTable

/-- The array in `bytes` bytes from `calloc`: whole entries, all of them NULL. -/
def callocNodes (bytes : Nat) : NodeArray V :=
  .alloc (bytes / sizeofNode) fun _ => none

/-- The search: from slot `ind` on, the first slot that is empty or holds
`key`. -/
def probe (capacity : Nat) (ans : NodeArray V) (key : CString) :
    Nat → Nat → Outcome Nat
  | 0, _ => .outOfFuel
  | fuel + 1, ind => do
      match ← ans.read ind with
      | none => return ind
      | some (k, _) =>
          if k = key then return ind
          else probe capacity ans key fuel (nextSlot capacity ind)

/-- `at_set_internal(ans, capacity, plength, key, val)` -/
def atSetInternal (fuel : Nat) (ans : NodeArray V) (capacity : Nat)
    (plength : Option Nat) (key : CString) (val : V) :
    Outcome (Int × NodeArray V × Option Nat) := do
  let ind ← probe capacity ans key fuel (home capacity key)
  match ← ans.read ind with
  | some (k, _) =>
      let ans ← ans.write ind (some (k, val))
      return (0, ans, plength)
  | none =>
      let ans ← ans.write ind (some (key, val))
      return (0, ans, plength.map (· + 1))

/-- Move slot `i` of the old array into the new one, if it is occupied. -/
def atMove (fuel : Nat) (old : NodeArray V) (newCap : Nat)
    (new : NodeArray V) (i : Nat) :
    Outcome (NodeArray V) := do
  match ← old.read i with
  | none => return new
  | some (key, val) =>
      let (_, new, _) ← atSetInternal fuel new newCap none key val
      return new

/-- `at_blowup(at, 1.5)` -/
def atBlowup (fuel : Nat) (t : MemTable V) : Outcome (MemTable V) := do
  let newCap := grow t.size
  let newNodes := callocNodes (newCap * sizeofNodePtr)
  let newNodes ← (List.range t.size).foldlM (atMove fuel t.entries newCap) newNodes
  return { t with entries := newNodes, size := newCap }

/-- Make room: grow the table if its count has reached its size. -/
def atRoom (fuel : Nat) (t : MemTable V) : Outcome (MemTable V) :=
  if t.count ≥ t.size then atBlowup fuel t else return t

/-- `at_set(at, abbr, tok_ext)` -/
def atSet (fuel : Nat) (t : MemTable V) (abbr : CString) (tokExt : V) :
    Outcome (Int × MemTable V) := do
  let t ← atRoom fuel t
  let (ret, entries, count) ←
    atSetInternal fuel t.entries t.size (some t.count) abbr tokExt
  return (ret, { t with entries := entries, count := count.getD t.count })

/-- `at_get(at, abbr)` -/
def atGet (fuel : Nat) (t : MemTable V) (abbr : CString) : Outcome (Option V) := do
  let i ← probe t.size t.entries abbr fuel (home t.size abbr)
  match ← t.entries.read i with
  | some (_, val) => return some val
  | none => return none

/-- A call of `at_set` or of `at_get`. -/
inductive Call (V : Type) where
  | set (abbr : CString) (tokExt : V)
  | get (abbr : CString)

/-- What the call leaves. -/
def Call.run (fuel : Nat) (t : MemTable V) : Call V → Outcome (MemTable V)
  | set abbr tokExt => do
      let (_, t) ← atSet fuel t abbr tokExt
      return t
  | get abbr => do
      let _ ← atGet fuel t abbr
      return t

/-- A call that terminates. -/
def callStep (t : MemTable V) (call : Call V) (t' : MemTable V) : Prop :=
  Outcome.Returns (fun fuel => call.run fuel t) t'

/-- Growing the table, and every call of a run on the grown table, accesses only
slots of the array. -/
structure GrowsInside (t : MemTable V) : Prop where
  moves : ∀ fuel, atBlowup fuel t ≠ .undefined
  later : ∀ fuel grown, atBlowup fuel t = .ret grown →
    ∀ calls u, Run callStep grown calls u →
      ∀ (call : Call V) (fuel : Nat), call.run fuel u ≠ .undefined

/-- Two aliases in a table of two slots: the new array has one slot. -/
theorem not_growsInside_two :
    ¬ GrowsInside (⟨⟨2, fun i => if i = 0 then some (.lit ['a'], 1)
        else some (.lit ['c'], 2)⟩, 2, 2⟩ : MemTable Nat) :=
  fun h => h.moves 3 rfl

/-! ## With room for every slot -/

/-- The table without its array. -/
def toTable (t : MemTable V) : AliasTable V := ⟨t.entries.cell, t.size, t.count⟩

/-- In an array of at least `capacity` slots the search is the unchecked one. -/
theorem probe_eq {capacity : Nat} {ans : NodeArray V}
    (hwhole : capacity ≤ ans.cap) (key : CString) :
    ∀ fuel ind, ind < capacity →
      probe capacity ans key fuel ind = Probing.probe capacity ans.cell key fuel ind := by
  intro fuel
  induction fuel with
  | zero =>
      intro ind _
      rfl
  | succ fuel ih =>
      intro ind hind
      rw [probe, Probing.probe, Block.read_of_lt (by omega), Outcome.ret_bind]
      cases ans.cell ind with
      | none => rfl
      | some entry =>
          simp only [Outcome.pure_eq]
          split
          · rfl
          · exact ih _ (nextSlot_lt hind)

theorem probe_lt {capacity : Nat} {ans : NodeArray V} {key : CString} :
    ∀ {fuel ind i}, probe capacity ans key fuel ind = .ret i → i < ans.cap := by
  intro fuel
  induction fuel with
  | zero =>
      intro ind i hret
      cases hret
  | succ fuel ih =>
      intro ind i hret
      rw [probe] at hret
      obtain ⟨slot, hread, hret⟩ := Outcome.bind_eq_ret.mp hret
      have hind : ind < ans.cap := (Block.read_eq_ret.mp hread).1
      cases slot with
      | none =>
          cases hret
          exact hind
      | some entry =>
          simp only at hret
          split at hret
          · cases hret
            exact hind
          · exact ih hret

/-- A lookup in an array with a slot for every index is the lookup of the
table. -/
theorem atGet_eq {t : MemTable V} (hsize : 0 < t.size) (hwhole : t.size ≤ t.entries.cap)
    (fuel : Nat) (abbr : CString) : atGet fuel t abbr = Ports.atGet fuel t.toTable abbr := by
  have hprobe := probe_eq hwhole abbr fuel _ (home_lt hsize abbr)
  show (probe t.size t.entries abbr fuel (home t.size abbr) >>= _) =
    (Probing.probe t.size t.entries.cell abbr fuel (home t.size abbr) >>= _)
  rw [← hprobe]
  cases hret : probe t.size t.entries abbr fuel (home t.size abbr) with
  | ret i =>
      simp only [Outcome.ret_bind, Block.read_of_lt (probe_lt hret)]
      rfl
  | undefined => rfl
  | outOfFuel => rfl

/-- So is a set. -/
theorem atSetInternal_eq {ans : NodeArray V} {capacity : Nat}
    (hcap : 0 < capacity) (hwhole : capacity ≤ ans.cap) (fuel : Nat) (plength : Option Nat)
    (key : CString) (val : V) :
    atSetInternal fuel ans capacity plength key val =
      (Ports.atSetInternal fuel ans.cell capacity plength key val >>= fun r =>
        .ret (r.1, { ans with cell := r.2.1 }, r.2.2)) := by
  have hprobe := probe_eq hwhole key fuel _ (home_lt hcap key)
  unfold atSetInternal Ports.atSetInternal tableSetInternal
  rw [← hprobe, bind_assoc]
  cases hret : probe capacity ans key fuel (home capacity key) with
  | ret i =>
      have hi := probe_lt hret
      simp only [Outcome.ret_bind, Block.read_of_lt hi, Block.write_of_lt hi]
      cases ans.cell i with
      | none => rfl
      | some entry => rfl
  | undefined => rfl
  | outOfFuel => rfl

/-! ## With half of the slots -/

theorem callocNodes_cap (newCap : Nat) :
    (callocNodes (newCap * sizeofNodePtr) : NodeArray V).cap =
      newCap / 2 := by
  show newCap * 8 / 16 = newCap / 2
  omega

/-- In an array that is too short a search comes to its end before it wraps
around. -/
theorem probe_ne_outOfFuel {capacity : Nat} {ans : NodeArray V}
    (hshort : ans.cap < capacity) (key : CString) :
    ∀ fuel ind, ans.cap < fuel + ind → 0 < fuel →
      probe capacity ans key fuel ind ≠ .outOfFuel := by
  intro fuel
  induction fuel with
  | zero =>
      intro ind _ hpos
      omega
  | succ fuel ih =>
      intro ind hfuel _
      rw [probe]
      by_cases hind : ind < ans.cap
      · rw [Block.read_of_lt hind, Outcome.ret_bind]
        cases ans.cell ind with
        | none => simp
        | some entry =>
            simp only [Outcome.pure_eq]
            split
            · simp
            · have hnext : nextSlot capacity ind = ind + 1 := if_neg (by omega)
              rw [hnext]
              exact ih (ind + 1) (by omega) (by omega)
      · simp [Block.read, hind]

theorem atSetInternal_short {ans : NodeArray V} {capacity fuel : Nat}
    (hshort : ans.cap < capacity) (hfuel : ans.cap < fuel) (plength : Option Nat)
    (key : CString) (val : V) :
    atSetInternal fuel ans capacity plength key val ≠ .outOfFuel ∧
      ∀ r ans' n, atSetInternal fuel ans capacity plength key val = .ret (r, ans', n) →
        ans'.cap = ans.cap := by
  unfold atSetInternal
  cases hret : probe capacity ans key fuel (home capacity key) with
  | ret i =>
      have hi := probe_lt hret
      simp only [Outcome.ret_bind, Block.read_of_lt hi, Block.write_of_lt hi]
      cases ans.cell i with
      | none => simp_all
      | some entry => simp_all
  | undefined => simp
  | outOfFuel =>
      exact absurd hret (probe_ne_outOfFuel hshort key fuel _ (by omega) (by omega))

theorem atMove_short (old : NodeArray V) {new : NodeArray V} {newCap fuel : Nat}
    (hshort : new.cap < newCap) (hfuel : new.cap < fuel) (i : Nat) :
    atMove fuel old newCap new i ≠ .outOfFuel ∧
      ∀ new', atMove fuel old newCap new i = .ret new' → new'.cap = new.cap := by
  by_cases hold : i < old.cap
  · simp only [atMove, Block.read_of_lt hold, Outcome.ret_bind]
    cases old.cell i with
    | none => simp
    | some entry =>
        obtain ⟨hne, hkeep⟩ := atSetInternal_short hshort hfuel none entry.1 entry.2
        show (atSetInternal fuel new newCap none entry.1 entry.2 >>= fun r => .ret r.2.1) ≠
          .outOfFuel ∧ ∀ new', (atSetInternal fuel new newCap none entry.1 entry.2 >>=
            fun r => .ret r.2.1) = .ret new' → new'.cap = new.cap
        cases hret : atSetInternal fuel new newCap none entry.1 entry.2 with
        | ret r => simp [hkeep r.1 r.2.1 r.2.2 hret]
        | undefined => simp
        | outOfFuel => exact absurd hret hne
  · simp [atMove, Block.read, hold]

/-- Moving slots into an array that is too short ends. -/
theorem foldlM_atMove_short (old : NodeArray V) {newCap fuel room : Nat}
    (hshort : room < newCap) (hfuel : room < fuel) (l : List Nat) :
    ∀ new : NodeArray V, new.cap = room →
      l.foldlM (atMove fuel old newCap) new ≠ .outOfFuel ∧
        ∀ new', l.foldlM (atMove fuel old newCap) new = .ret new' → new'.cap = room := by
  induction l with
  | nil =>
      intro new hcap
      simp [hcap]
  | cons i l ih =>
      intro new hcap
      subst hcap
      obtain ⟨hne, hkeep⟩ := atMove_short old hshort hfuel i
      rw [List.foldlM_cons]
      cases hret : atMove fuel old newCap new i with
      | ret new' => exact ih new' (hkeep new' hret)
      | undefined => simp
      | outOfFuel => exact absurd hret hne

/-- Every bit is set in the hash of one of these words. -/
theorem exists_hash_testBit {k : Nat} (hk : k < 64) :
    ∃ key ∈ [CString.lit ['h', 'i', 's', 't', 'o', 'r', 'y'], .lit ['j', 'o', 'b', 's'],
      .lit ['m', 'a', 'k', 'e'], .lit ['s', 's', 'h']],
      (htHash key).toNat.testBit k = true := by
  have hall : ∀ k : Fin 64, ∃ key ∈ [CString.lit ['h', 'i', 's', 't', 'o', 'r', 'y'],
      .lit ['j', 'o', 'b', 's'], .lit ['m', 'a', 'k', 'e'], .lit ['s', 's', 'h']],
      (htHash key).toNat.testBit k.val = true := by decide +kernel
  exact hall ⟨k, hk⟩

/-- Some search starts in the second half of the slots. -/
theorem exists_home_ge {capacity : Nat} (h2 : 2 ≤ capacity) (hcap : capacity ≤ 2 ^ 64) :
    ∃ key, capacity / 2 ≤ home capacity key := by
  have hne : capacity - 1 ≠ 0 := by omega
  have hlow := Nat.log2_self_le hne
  have hhigh : capacity - 1 < 2 ^ ((capacity - 1).log2 + 1) := Nat.lt_log2_self
  have hk : (capacity - 1).log2 < 64 := (Nat.log2_lt hne).mpr (by omega)
  obtain ⟨key, _, hbit⟩ := exists_hash_testBit hk
  refine ⟨key, ?_⟩
  have hhome : (home capacity key).testBit (capacity - 1).log2 = true := by
    rw [home, Nat.testBit_and, hbit, Nat.testBit_log2 hne]
    rfl
  have hge := Nat.ge_two_pow_of_testBit hhome
  rw [Nat.pow_succ] at hhigh
  omega

/-- The growth ends, outside the new array or with half of the slots. -/
theorem atBlowup_short (t : MemTable V) (hsize : 2 ≤ t.size) :
    ∃ fuel, atBlowup fuel t = .undefined ∨ ∃ grown, atBlowup fuel t = .ret grown ∧
      grown.size = grow t.size ∧ grown.entries.cap = grow t.size / 2 := by
  have hgrow := lt_grow hsize
  have hshort : grow t.size / 2 < grow t.size := by omega
  obtain ⟨hne, hkeep⟩ := foldlM_atMove_short t.entries hshort hshort (List.range t.size)
    (callocNodes (grow t.size * sizeofNodePtr)) (callocNodes_cap _)
  refine ⟨grow t.size, ?_⟩
  simp only [atBlowup]
  cases hret : (List.range t.size).foldlM (atMove (grow t.size) t.entries (grow t.size))
      (callocNodes (grow t.size * sizeofNodePtr)) with
  | ret new =>
      exact .inr ⟨{ t with entries := new, size := grow t.size }, rfl, rfl, hkeep new hret⟩
  | undefined => exact .inl rfl
  | outOfFuel => exact absurd hret hne

/-- A lookup whose search starts behind the array leaves it. -/
theorem get_undefined {t : MemTable V} {abbr : CString}
    (hout : t.entries.cap ≤ home t.size abbr) (fuel : Nat) :
    (Call.get abbr).run (fuel + 1) t = .undefined := by
  have hread : t.entries.read (home t.size abbr) = .undefined :=
    if_neg (Nat.not_lt.mpr hout)
  simp only [Call.run, atGet, probe, hread, Outcome.undefined_bind]

/-- **Growing never stays inside the memory**, whatever the table holds, as long
as the number of bytes asked for is a `size_t`. -/
theorem not_growsInside (t : MemTable V) (hsize : 2 ≤ t.size)
    (hbytes : grow t.size * sizeofNodePtr < 2 ^ 64) : ¬ GrowsInside t := by
  intro h
  obtain ⟨fuel, hundefined | ⟨grown, hret, hgrown, hcap⟩⟩ := atBlowup_short t hsize
  · exact h.moves fuel hundefined
  · have hgrow := lt_grow hsize
    have hle : grow t.size ≤ 2 ^ 64 := by
      unfold sizeofNodePtr at hbytes
      omega
    obtain ⟨abbr, hhome⟩ := exists_home_ge (by omega) hle
    refine h.later fuel grown hret [] grown .start (.get abbr) 1 (get_undefined ?_ 0)
    rw [hcap, hgrown]
    exact hhome

/-- The shell's table of 50 slots, before the first alias. -/
theorem not_growsInside_fifty :
    2 ≤ 50 ∧ grow 50 * sizeofNodePtr < 2 ^ 64 ∧
      ¬ GrowsInside (⟨⟨50, fun _ => none⟩, 50, 0⟩ : MemTable Nat) :=
  ⟨by decide, by decide, not_growsInside _ (by decide) (by decide)⟩

end MemTable

end WizardShell.Ports
