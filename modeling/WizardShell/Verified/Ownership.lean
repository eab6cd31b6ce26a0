import Mathlib.Data.Set.Insert
import WizardShell.Verified.Heap

/-!
# What is allocated

The live addresses of a heap are those allocated and not freed.  `malloc` adds
one, `free` takes one away, and a write changes none.  A list owns its heap when
its nodes are all there is (`Owns`): nothing was leaked, and freeing the nodes
leaves nothing behind.
-/

namespace WizardShell.Verified

open Function

namespace Heap

variable {α : Type} {h h' : Heap α} {a : Nat} {v : α}

/-- The addresses of the objects allocated and not freed. -/
def live (h : Heap α) : Set Nat := { a | h.cell a ≠ none }

theorem mem_live : a ∈ h.live ↔ h.cell a ≠ none := Iff.rfl

@[simp] theorem live_empty : (empty : Heap α).live = ∅ :=
  Set.eq_empty_iff_forall_notMem.mpr fun _ h => h rfl

theorem live_alloc (h : Heap α) (v : α) : (h.alloc v).live = insert h.fresh h.live := by
  ext b
  rw [Set.mem_insert_iff, mem_live, mem_live]
  by_cases hb : b = h.fresh
  · simp [hb]
  · rw [alloc_cell_ne h v hb]
    simp [hb]

theorem live_write (hwrite : h.write a v = .ret h') : h'.live = h.live := by
  unfold write at hwrite
  split at hwrite
  · rename_i hlive
    cases hwrite
    ext b
    rw [mem_live, mem_live]
    by_cases hb : b = a
    · rw [hb, put_cell_self]
      exact iff_of_true (by simp) (Option.isSome_iff_ne_none.mp hlive)
    · rw [put_cell_ne h v hlive hb]
  · cases hwrite

theorem live_drop (h : Heap α) (a : Nat) : (h.drop a).live = h.live \ {a} := by
  ext b
  rw [Set.mem_sdiff, Set.mem_singleton_iff, mem_live, mem_live]
  by_cases hb : b = a
  · simp [hb]
  · rw [drop_cell_ne h hb]
    simp [hb]

theorem live_free (hfree : h.free a = .ret h') : h'.live = h.live \ {a} := by
  unfold free at hfree
  split at hfree
  · cases hfree
    exact live_drop h a
  · cases hfree

end Heap

variable {β : Type}

/-- The nodes of the list are all that the heap has. -/
structure Owns (h : Heap (Node β)) (p : Option Nat) (l : List (Nat × β)) : Prop where
  chain : Segment h p l none
  nodup : (l.map Prod.fst).Nodup
  live : h.live = { a | a ∈ l.map Prod.fst }

/-- Freeing the first node leaves the others, which are then all there is. -/
theorem Owns.free_first {h : Heap (Node β)} {p : Option Nat} {a : Nat} {b : β}
    {l : List (Nat × β)} (hown : Owns h p ((a, b) :: l)) :
    ∃ next, p = some a ∧ h.cell a = some ⟨b, next⟩ ∧ Owns (h.drop a) next l := by
  obtain ⟨rfl, next, hcell, hrest⟩ := hown.chain
  have hnodup := hown.nodup
  rw [List.map_cons, List.nodup_cons] at hnodup
  refine ⟨next, rfl, hcell, hrest.drop hnodup.1, hnodup.2, ?_⟩
  rw [Heap.live_drop, hown.live]
  ext c
  rw [Set.mem_sdiff, Set.mem_singleton_iff]
  simp only [List.map_cons, List.mem_cons, Set.mem_ofPred_eq]
  constructor
  · rintro ⟨rfl | hmem, hne⟩
    · exact absurd rfl hne
    · exact hmem
  · intro hmem
    refine ⟨.inr hmem, ?_⟩
    rintro rfl
    exact hnodup.1 hmem

end WizardShell.Verified
