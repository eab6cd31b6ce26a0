import Mathlib.Data.List.Perm.Subperm
import Mathlib.Data.List.Nodup
import Mathlib.Logic.Function.Basic
import WizardShell.Verified.Outcome

/-!
# Heap objects and linked lists

A heap holds objects at addresses.  An address names one allocation for good:
it is not given out again after a `free`, because a pointer to a freed object
does not come to point to what is allocated later.  Reading, writing or
freeing an object that is not live is undefined.

A singly linked list is a chain of nodes.  `Segment h p l q` says that from the
pointer `p` one meets the objects of `l` in order and then has the pointer `q`;
`q` is NULL for a whole list.  The lemmas say what an operation on the heap does
to segments: nothing to those it does not touch (`Segment.frame`), and writing
the `next` of the last node redirects the end (`Segment.relink`).
-/

namespace WizardShell.Verified

open Function

/-- The live objects, and the first address not given out yet. -/
structure Heap (α : Type) where
  cell : Nat → Option α
  fresh : Nat
  unused : ∀ a, fresh ≤ a → cell a = none

namespace Heap

variable {α : Type}

/-- No object has been allocated. -/
def empty : Heap α := ⟨fun _ => none, 0, fun _ _ => rfl⟩

theorem lt_fresh {h : Heap α} {a : Nat} {v : α} (ha : h.cell a = some v) :
    a < h.fresh := by
  by_contra hge
  rw [h.unused a (Nat.le_of_not_lt hge)] at ha
  cases ha

/-- `malloc`, and the object written to the new memory; its address is
`h.fresh`. -/
def alloc (h : Heap α) (v : α) : Heap α where
  cell := update h.cell h.fresh (some v)
  fresh := h.fresh + 1
  unused a ha := by
    rw [update_of_ne (by omega)]
    exact h.unused a (by omega)

/-- The heap with one live object changed. -/
def put (h : Heap α) (a : Nat) (v : α) (ha : (h.cell a).isSome) : Heap α where
  cell := update h.cell a (some v)
  fresh := h.fresh
  unused b hb := by
    have hne : b ≠ a := by
      rintro rfl
      rw [h.unused b hb] at ha
      cases ha
    rw [update_of_ne hne]
    exact h.unused b hb

/-- The heap without one object. -/
def drop (h : Heap α) (a : Nat) : Heap α where
  cell := update h.cell a none
  fresh := h.fresh
  unused b hb := by
    by_cases hne : b = a
    · rw [hne, update_self]
    · rw [update_of_ne hne]
      exact h.unused b hb

/-- The heap with every object seen through a function. -/
def map {γ : Type} (f : α → γ) (h : Heap α) : Heap γ where
  cell a := (h.cell a).map f
  fresh := h.fresh
  unused a ha := by rw [h.unused a ha, Option.map_none]

/-- Read an object. -/
def read (h : Heap α) (a : Nat) : Outcome α :=
  match h.cell a with
  | some v => .ret v
  | none => .undefined

/-- Write an object. -/
def write (h : Heap α) (a : Nat) (v : α) : Outcome (Heap α) :=
  if ha : (h.cell a).isSome then .ret (h.put a v ha) else .undefined

/-- `free` an object. -/
def free (h : Heap α) (a : Nat) : Outcome (Heap α) :=
  if (h.cell a).isSome then .ret (h.drop a) else .undefined

@[simp] theorem alloc_fresh (h : Heap α) (v : α) : (h.alloc v).fresh = h.fresh + 1 := rfl

@[simp] theorem alloc_cell_self (h : Heap α) (v : α) :
    (h.alloc v).cell h.fresh = some v := update_self _ _ _

theorem alloc_cell_ne (h : Heap α) (v : α) {b : Nat} (hb : b ≠ h.fresh) :
    (h.alloc v).cell b = h.cell b := update_of_ne hb _ _

theorem alloc_cell_of_live (h : Heap α) (v : α) {b : Nat} {w : α}
    (hb : h.cell b = some w) : (h.alloc v).cell b = some w := by
  rw [alloc_cell_ne h v (Nat.ne_of_lt (lt_fresh hb)), hb]

@[simp] theorem put_cell_self (h : Heap α) (a : Nat) (v : α) (ha : (h.cell a).isSome) :
    (h.put a v ha).cell a = some v := update_self _ _ _

theorem put_cell_ne (h : Heap α) {a b : Nat} (v : α) (ha : (h.cell a).isSome)
    (hb : b ≠ a) : (h.put a v ha).cell b = h.cell b := update_of_ne hb _ _

@[simp] theorem drop_cell_self (h : Heap α) (a : Nat) : (h.drop a).cell a = none :=
  update_self _ _ _

theorem drop_cell_ne (h : Heap α) {a b : Nat} (hb : b ≠ a) :
    (h.drop a).cell b = h.cell b := update_of_ne hb _ _

theorem read_of_live {h : Heap α} {a : Nat} {v : α} (ha : h.cell a = some v) :
    h.read a = .ret v := by
  simp [read, ha]

theorem read_of_none {h : Heap α} {a : Nat} (ha : h.cell a = none) :
    h.read a = .undefined := by
  simp [read, ha]

/-- A write to a live object returns, and changes this object only. -/
theorem write_of_live {h : Heap α} {a : Nat} {v : α} (ha : h.cell a = some v) (w : α) :
    ∃ h', h.write a w = .ret h' ∧ h'.fresh = h.fresh ∧ h'.cell a = some w ∧
      ∀ b, b ≠ a → h'.cell b = h.cell b := by
  have hlive : (h.cell a).isSome := by simp [ha]
  exact ⟨h.put a w hlive, dif_pos hlive, rfl, put_cell_self h a w hlive,
    fun b hb => put_cell_ne h w hlive hb⟩

/-- Freeing a live object returns, and removes this object only. -/
theorem free_of_live {h : Heap α} {a : Nat} {v : α} (ha : h.cell a = some v) :
    h.free a = .ret (h.drop a) := by
  simp [free, ha]

end Heap

/-! ## Chains of nodes -/

/-- An object of a singly linked list. -/
structure Node (β : Type) where
  data : β
  next : Option Nat
  deriving DecidableEq

variable {β : Type}

/-- From `p` one meets the objects of `l`, and then the pointer `q`. -/
def Segment (h : Heap (Node β)) : Option Nat → List (Nat × β) → Option Nat → Prop
  | p, [], q => p = q
  | p, (a, b) :: l, q =>
      p = some a ∧ ∃ next, h.cell a = some ⟨b, next⟩ ∧ Segment h next l q

namespace Segment

variable {h h' : Heap (Node β)} {p q : Option Nat} {l l₁ l₂ : List (Nat × β)}
  {a : Nat} {b : β}

@[simp] theorem nil_iff : Segment h p [] q ↔ p = q := Iff.rfl

@[simp] theorem cons_iff :
    Segment h p ((a, b) :: l) q ↔
      p = some a ∧ ∃ next, h.cell a = some ⟨b, next⟩ ∧ Segment h next l q := Iff.rfl

/-- A list's pointer is that of its first object. -/
theorem start_eq (hseg : Segment h p l none) : p = l.head?.map Prod.fst := by
  cases l with
  | nil => exact hseg
  | cons x l => exact hseg.1

/-- Segments are put together where one ends and the next begins. -/
theorem append_iff :
    Segment h p (l₁ ++ l₂) q ↔ ∃ m, Segment h p l₁ m ∧ Segment h m l₂ q := by
  induction l₁ generalizing p with
  | nil => simp
  | cons x l₁ ih =>
      obtain ⟨a, b⟩ := x
      simp only [List.cons_append, cons_iff, ih]
      constructor
      · rintro ⟨hp, next, hcell, m, h₁, h₂⟩
        exact ⟨m, ⟨hp, next, hcell, h₁⟩, h₂⟩
      · rintro ⟨m, ⟨hp, next, hcell, h₁⟩, h₂⟩
        exact ⟨hp, next, hcell, m, h₁, h₂⟩

/-- The objects of a segment are live. -/
theorem live (hseg : Segment h p l q) {x : Nat × β} (hx : x ∈ l) :
    ∃ next, h.cell x.1 = some ⟨x.2, next⟩ := by
  induction l generalizing p with
  | nil => cases hx
  | cons y l ih =>
      obtain ⟨_, next, hcell, hrest⟩ := hseg
      rcases List.mem_cons.mp hx with rfl | hmem
      · exact ⟨next, hcell⟩
      · exact ih hrest hmem

theorem lt_fresh (hseg : Segment h p l q) {x : Nat × β} (hx : x ∈ l) :
    x.1 < h.fresh := by
  obtain ⟨next, hcell⟩ := hseg.live hx
  exact Heap.lt_fresh hcell

/-- A segment that meets no object twice is no longer than the heap. -/
theorem length_le (hseg : Segment h p l q) (hnodup : (l.map Prod.fst).Nodup) :
    l.length ≤ h.fresh := by
  have hsub : l.map Prod.fst ⊆ List.range h.fresh := by
    intro a ha
    obtain ⟨x, hx, rfl⟩ := List.mem_map.mp ha
    exact List.mem_range.mpr (hseg.lt_fresh hx)
  have hlen := (List.subperm_of_subset hnodup hsub).length_le
  simpa using hlen

/-- A segment is untouched by a change elsewhere. -/
theorem frame (hseg : Segment h p l q)
    (hsame : ∀ x ∈ l, h'.cell x.1 = h.cell x.1) : Segment h' p l q := by
  induction l generalizing p with
  | nil => exact hseg
  | cons y l ih =>
      obtain ⟨hp, next, hcell, hrest⟩ := hseg
      refine ⟨hp, next, ?_, ih hrest fun x hx => hsame x (by simp [hx])⟩
      rw [hsame y (by simp)]
      exact hcell

/-- Freeing an object touches no segment without it. -/
theorem drop (hseg : Segment h p l q) (hnot : a ∉ l.map Prod.fst) :
    Segment (h.drop a) p l q := by
  refine hseg.frame fun x hx => Heap.drop_cell_ne h ?_
  rintro rfl
  exact hnot (List.mem_map_of_mem hx)

/-- Allocation touches no segment. -/
theorem alloc (hseg : Segment h p l q) (v : Node β) : Segment (h.alloc v) p l q :=
  hseg.frame fun _ hx => Heap.alloc_cell_ne h v (Nat.ne_of_lt (hseg.lt_fresh hx))

/-- A new `next` for the last object is a new end for the segment. -/
theorem relink (hseg : Segment h p (l ++ [(a, b)]) q) (hfirst : a ∉ l.map Prod.fst)
    {q' : Option Nat} (hself : h'.cell a = some ⟨b, q'⟩)
    (hothers : ∀ c, c ≠ a → h'.cell c = h.cell c) :
    Segment h' p (l ++ [(a, b)]) q' := by
  obtain ⟨m, hl, hm, _⟩ := append_iff.mp hseg
  refine append_iff.mpr ⟨m, hl.frame fun x hx => hothers x.1 ?_, hm, q', hself, rfl⟩
  rintro rfl
  exact hfirst (List.mem_map_of_mem hx)

/-- A segment from a pointer to NULL is the only one. -/
theorem unique (h₁ : Segment h p l₁ none) (h₂ : Segment h p l₂ none) : l₁ = l₂ := by
  induction l₁ generalizing p l₂ with
  | nil =>
      cases l₂ with
      | nil => rfl
      | cons y l₂ =>
          obtain ⟨hp, _⟩ := h₂
          rw [nil_iff.mp h₁] at hp
          cases hp
  | cons x l₁ ih =>
      obtain ⟨hp, next, hcell, hrest⟩ := h₁
      cases l₂ with
      | nil =>
          rw [nil_iff.mp h₂] at hp
          cases hp
      | cons y l₂ =>
          obtain ⟨hp', next', hcell', hrest'⟩ := h₂
          have haddr : x.1 = y.1 := Option.some.inj (hp.symm.trans hp')
          rw [haddr, hcell'] at hcell
          have hnode : (⟨y.2, next'⟩ : Node β) = ⟨x.2, next⟩ := Option.some.inj hcell
          have hdata : y.2 = x.2 := congrArg Node.data hnode
          have hnext : next' = next := congrArg Node.next hnode
          rw [ih hrest (hnext ▸ hrest'), Prod.ext haddr hdata.symm]

/-- A segment, with what its objects hold seen through a function. -/
theorem map {γ : Type} (hseg : Segment h p l q) (f : β → γ) :
    Segment (h.map fun node => ⟨f node.data, node.next⟩) p (l.map fun x => (x.1, f x.2)) q := by
  induction l generalizing p with
  | nil => exact hseg
  | cons x l ih =>
      obtain ⟨hp, next, hcell, hrest⟩ := hseg
      refine ⟨hp, next, ?_, ih hrest⟩
      show (h.cell x.1).map _ = _
      rw [hcell, Option.map_some]

/-- Who walks into a freed object never gets to NULL. -/
theorem not_whole (hseg : Segment h p l₁ (some a)) (hdead : h.cell a = none) :
    ¬ Segment h p l₂ none := by
  induction l₁ generalizing p l₂ with
  | nil =>
      intro hwhole
      rw [nil_iff.mp hseg] at hwhole
      cases l₂ with
      | nil => cases hwhole
      | cons y l₂ =>
          obtain ⟨hp, next, hcell, _⟩ := hwhole
          cases hp
          rw [hdead] at hcell
          cases hcell
  | cons x l₁ ih =>
      intro hwhole
      obtain ⟨rfl, next, hcell, hrest⟩ := hseg
      cases l₂ with
      | nil => cases hwhole
      | cons y l₂ =>
          obtain ⟨hp, next', hcell', hrest'⟩ := hwhole
          rw [← Option.some.inj hp, hcell, Option.some.injEq] at hcell'
          have hnext : next = next' := congrArg Node.next hcell'
          exact ih hrest (hnext ▸ hrest')

end Segment

/-! ## Walking to the end -/

/-- `while (cur->next) cur = cur->next`: the last node, for a bounded number of
turns. -/
def lastNode (h : Heap (Node β)) : Nat → Nat → Outcome Nat
  | 0, _ => .outOfFuel
  | fuel + 1, cur => do
      let e ← h.read cur
      match e.next with
      | none => return cur
      | some next => lastNode h fuel next

/-- Where the segment goes on, so does the walk. -/
theorem lastNode_cons {h : Heap (Node β)} {x : Nat × β} {l : List (Nat × β)}
    {q : Option Nat} {p : Nat} (fuel : Nat) (hseg : Segment h (some p) (x :: l) q)
    (hmore : l ≠ [] ∨ q ≠ none) :
    ∃ next, Segment h (some next) l q ∧ lastNode h (fuel + 1) p = lastNode h fuel next := by
  obtain ⟨hp, next, hcell, hrest⟩ := hseg
  cases hp
  cases next with
  | none =>
      cases l with
      | nil => simp [← Segment.nil_iff.mp hrest] at hmore
      | cons y l => cases hrest.1
  | some next =>
      exact ⟨next, hrest, by simp only [lastNode, Heap.read_of_live hcell, Outcome.ret_bind]⟩

/-- The walk ends at the last node of a list. -/
theorem lastNode_eq {h : Heap (Node β)} {pre : List (Nat × β)} {a : Nat} {b : β} :
    ∀ {fuel p : Nat}, Segment h (some p) (pre ++ [(a, b)]) none → pre.length < fuel →
      lastNode h fuel p = .ret a := by
  induction pre with
  | nil =>
      intro fuel p hseg hfuel
      obtain ⟨hp, next, hcell, hnext⟩ := hseg
      cases hp
      cases hnext
      cases fuel with
      | zero => simp at hfuel
      | succ fuel => simp [lastNode, Heap.read_of_live hcell]
  | cons x pre ih =>
      intro fuel p hseg hfuel
      cases fuel with
      | zero => simp at hfuel
      | succ fuel =>
          obtain ⟨next, hrest, hstep⟩ := lastNode_cons fuel hseg (.inl (by simp))
          rw [hstep]
          exact ih hrest (by simpa using hfuel)

/-- The walk is undefined when it meets a freed object. -/
theorem lastNode_dead {h : Heap (Node β)} {l : List (Nat × β)} {a : Nat}
    (hdead : h.cell a = none) :
    ∀ {fuel p : Nat}, Segment h (some p) l (some a) → l.length < fuel →
      lastNode h fuel p = .undefined := by
  induction l with
  | nil =>
      intro fuel p hseg hfuel
      cases hseg
      cases fuel with
      | zero => simp at hfuel
      | succ fuel => simp [lastNode, Heap.read_of_none hdead]
  | cons x l ih =>
      intro fuel p hseg hfuel
      cases fuel with
      | zero => simp at hfuel
      | succ fuel =>
          obtain ⟨next, hrest, hstep⟩ := lastNode_cons fuel hseg (.inr (by simp))
          rw [hstep]
          exact ih hrest (by simpa using hfuel)

end WizardShell.Verified
