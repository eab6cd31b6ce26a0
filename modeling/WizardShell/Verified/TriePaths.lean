import Mathlib.Algebra.Order.BigOperators.Group.Finset
import WizardShell.Verified.FirstWord

/-!
# The nodes of a trie

A node of a trie is a path at whose end something stands.  In a pruned trie
these paths are the prefixes of the words (`Rooted.descend_ne_null_iff`), no
matter in which order the words came and went.  So a trie with fewer words has
no more nodes (`Rooted.size_le`), and what is removed of a trie that goes on
depends on the words alone (`Rooted.remove_keeps_iff`).
-/

namespace WizardShell.Verified

namespace WordTrie

variable {α : Type}

/-- **A pruned trie has no dead branch**: below the root there is a node at a
path exactly when a word starts with it. -/
theorem Rooted.descend_ne_null_iff {t : WordTrie α} (h : t.Rooted) {p : List α}
    (hp : p ≠ []) : t.descend p ≠ null ↔ ∃ w, t.contains w = true ∧ p <+: w := by
  constructor
  · intro hne
    have hpruned : (t.descend p).Pruned := by
      cases t with
      | null => exact h.elim
      | node children marked =>
          cases p with
          | nil => exact absurd rfl hp
          | cons a p => exact Pruned.descend p (h a)
    obtain ⟨w, hw⟩ := hpruned.exists_word hne
    exact ⟨p ++ w, by rw [← contains_descend, hw], List.prefix_append p w⟩
  · rintro ⟨_, hw, w, rfl⟩ hnull
    rw [← contains_descend, hnull, contains_null] at hw
    cases hw

/-- A removal that leaves a root keeps all nodes exactly when the word was not
there or starts another one. -/
theorem Rooted.remove_keeps_iff [DecidableEq α] [Fintype α] {t : WordTrie α} (h : t.Rooted)
    {w : List α} (hne : t.remove w ≠ null) :
    (∀ p, t.descend p ≠ null → (t.remove w).descend p ≠ null) ↔
      (t.contains w = true → ∃ v, t.contains v = true ∧ v ≠ w ∧ w <+: v) := by
  have hpruned : (t.remove w).Pruned := Rooted.remove w h
  have hnodes : ∀ a p, (t.remove w).descend (a :: p) ≠ null ↔
      ∃ v, t.contains v = true ∧ v ≠ w ∧ a :: p <+: v := by
    intro a p
    rw [(hpruned.rooted hne).descend_ne_null_iff (List.cons_ne_nil a p)]
    simp [contains_remove, and_assoc]
  constructor
  · intro hkeep hw
    cases w with
    | nil =>
        -- The empty word starts whatever is left.
        obtain ⟨v, hv⟩ := hpruned.exists_word hne
        rw [contains_remove, Bool.and_eq_true, decide_eq_true_eq] at hv
        exact ⟨v, hv.1, hv.2, List.nil_prefix⟩
    | cons a w =>
        apply (hnodes a w).mp
        apply hkeep
        exact (h.descend_ne_null_iff (List.cons_ne_nil a w)).mpr ⟨_, hw, List.prefix_rfl⟩
  · intro hextended p hp
    cases p with
    | nil => rwa [descend_nil]
    | cons a p =>
        obtain ⟨v, hv, hprefix⟩ := (h.descend_ne_null_iff (List.cons_ne_nil a p)).mp hp
        apply (hnodes a p).mpr
        by_cases hvw : v = w
        · obtain ⟨u, hu, hne', hstarts⟩ := hextended (hvw ▸ hv)
          exact ⟨u, hu, hne', (hvw ▸ hprefix).trans hstarts⟩
        · exact ⟨v, hv, hvw, hprefix⟩

section Size

variable [Fintype α]

/-- The number of nodes. -/
def size : WordTrie α → Nat
  | null => 0
  | node children _ => 1 + ∑ a, (children a).size

/-- A trie that is there along every path of another has at least its nodes. -/
theorem size_le_of_descend {t : WordTrie α} :
    ∀ {u : WordTrie α}, (∀ p, t.descend p ≠ null → u.descend p ≠ null) →
      t.size ≤ u.size := by
  induction t with
  | null =>
      intro u _
      exact Nat.zero_le _
  | node children marked ih =>
      intro u hsub
      cases u with
      | null => exact absurd (descend_nil null) (hsub [] (by simp))
      | node children' marked' =>
          have hchild : ∀ a, (children a).size ≤ (children' a).size :=
            fun a => ih a fun p hp => hsub (a :: p) hp
          exact Nat.add_le_add_left (Finset.sum_le_sum fun a _ => hchild a) 1

/-- A pruned trie with fewer words has no more nodes. -/
theorem Rooted.size_le {t u : WordTrie α} (ht : t.Rooted) (hu : u.Rooted)
    (hwords : t.words ⊆ u.words) : t.size ≤ u.size := by
  apply size_le_of_descend
  intro p hp
  cases p with
  | nil =>
      rw [descend_nil]
      intro hnull
      rw [hnull] at hu
      exact hu
  | cons a p =>
      obtain ⟨w, hw, hprefix⟩ := (ht.descend_ne_null_iff (List.cons_ne_nil a p)).mp hp
      exact (hu.descend_ne_null_iff (List.cons_ne_nil a p)).mpr ⟨w, hwords hw, hprefix⟩

end Size

end WordTrie

end WizardShell.Verified
