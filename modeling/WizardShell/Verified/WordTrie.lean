import Mathlib.Data.Fintype.Basic
import Mathlib.Data.Set.Insert
import Mathlib.Logic.Function.Basic

/-!
# Tries as sets of words

A trie over an alphabet is NULL or a node with a child for each letter and a
mark.  It stands for the set of words whose path ends at a marked node.

Insertion and removal are the set operations (`words_insert`, `words_remove`).
Removal also prunes: a node on the way back that is unmarked and has no child
left is replaced by NULL.  In a `Pruned` trie no such node exists anywhere, so
a subtree is NULL exactly when it holds no word (`words_eq_empty_iff`), and
both operations keep it so.
-/

namespace WizardShell.Verified

open Function

/-- A trie over the alphabet `α`. -/
inductive WordTrie (α : Type) where
  | null
  | node (children : α → WordTrie α) (marked : Bool)

namespace WordTrie

variable {α : Type}

/-- Is the word's path there, and does it end at a marked node? -/
def contains : WordTrie α → List α → Bool
  | null, _ => false
  | node _ marked, [] => marked
  | node children _, a :: w => (children a).contains w

/-- The set of words the trie stands for. -/
def words (t : WordTrie α) : Set (List α) := { w | t.contains w = true }

@[simp] theorem mem_words {t : WordTrie α} {w : List α} :
    w ∈ t.words ↔ t.contains w = true := Iff.rfl

/-- The node a trie without words is made of. -/
def leafless : WordTrie α := node (fun _ => null) false

def isNull : WordTrie α → Bool
  | null => true
  | node _ _ => false

@[simp] theorem isNull_iff {t : WordTrie α} : t.isNull = true ↔ t = null := by
  cases t <;> simp [isNull]

@[simp] theorem contains_null (w : List α) :
    (null : WordTrie α).contains w = false := by
  cases w <;> rfl

@[simp] theorem words_null : (null : WordTrie α).words = ∅ := by
  ext w
  simp

@[simp] theorem words_leafless : (leafless : WordTrie α).words = ∅ := by
  ext w
  cases w <;> simp [leafless, contains]

section Pruning

variable [Fintype α]

/-- Has the node no child? -/
def childless (children : α → WordTrie α) : Bool :=
  decide (∀ a, (children a).isNull = true)

/-- The node, or NULL in its place when it is unmarked and has no child. -/
def prune (children : α → WordTrie α) (marked : Bool) : WordTrie α :=
  if childless children && !marked then null else node children marked

theorem childless_iff {children : α → WordTrie α} :
    childless children = true ↔ ∀ a, children a = null := by
  simp [childless]

/-- Pruning changes no word. -/
theorem contains_prune (children : α → WordTrie α) (marked : Bool) (v : List α) :
    (prune children marked).contains v = (node children marked).contains v := by
  unfold prune
  split
  · rename_i h
    simp only [Bool.and_eq_true, Bool.not_eq_true', childless_iff] at h
    cases v with
    | nil => simp [contains, h.2]
    | cons b v => simp [contains, h.1 b]
  · rfl

end Pruning

section Operations

variable [DecidableEq α]

/-- Mark the end of the word's path, making the nodes that are missing.  NULL
counts as a fresh node. -/
def insert : WordTrie α → List α → WordTrie α
  | null, [] => node (fun _ => null) true
  | node children _, [] => node children true
  | null, a :: w => node (update (fun _ => null) a (insert null w)) false
  | node children marked, a :: w =>
      node (update children a (insert (children a) w)) marked

theorem contains_insert (w : List α) :
    ∀ (t : WordTrie α) (v : List α),
      (t.insert w).contains v = (t.contains v || decide (v = w)) := by
  induction w with
  | nil =>
      intro t v
      cases t <;> cases v <;> simp [insert, contains]
  | cons a w ih =>
      intro t v
      cases t with
      | null =>
          cases v with
          | nil => simp [insert, contains]
          | cons b v =>
              by_cases hb : b = a
              · subst hb
                simp [insert, contains, ih]
              · simp [insert, contains, hb]
      | node children marked =>
          cases v with
          | nil => simp [insert, contains]
          | cons b v =>
              by_cases hb : b = a
              · subst hb
                simp [insert, contains, ih]
              · simp [insert, contains, hb]

/-- Insertion adds the word to the set. -/
theorem words_insert (t : WordTrie α) (w : List α) :
    (t.insert w).words = Insert.insert w t.words := by
  ext v
  simp [contains_insert, or_comm]

theorem insert_ne_null (t : WordTrie α) (w : List α) : t.insert w ≠ null := by
  cases t <;> cases w <;> simp [insert]

/-- A fresh node stands for NULL. -/
@[simp] theorem insert_leafless (w : List α) : leafless.insert w = null.insert w := by
  cases w <;> rfl

variable [Fintype α]

/-- Unmark the end of the word's path, and prune on the way back. -/
def remove : WordTrie α → List α → WordTrie α
  | null, _ => null
  | node children _, [] => prune children false
  | node children marked, a :: w =>
      prune (update children a (remove (children a) w)) marked

theorem contains_remove (w : List α) :
    ∀ (t : WordTrie α) (v : List α),
      (t.remove w).contains v = (t.contains v && decide (v ≠ w)) := by
  induction w with
  | nil =>
      intro t v
      cases t with
      | null => simp [remove]
      | node children marked =>
          rw [remove, contains_prune]
          cases v <;> simp [contains]
  | cons a w ih =>
      intro t v
      cases t with
      | null => simp [remove]
      | node children marked =>
          rw [remove, contains_prune]
          cases v with
          | nil => simp [contains]
          | cons b v =>
              by_cases hb : b = a
              · subst hb
                simp [contains, ih]
              · simp [contains, hb]

/-- Removal takes the word out of the set. -/
theorem words_remove (t : WordTrie α) (w : List α) :
    (t.remove w).words = t.words \ {w} := by
  ext v
  simp [contains_remove]

end Operations

/-! ## Pruned tries -/

/-- Every node is marked or has a child. -/
def Pruned : WordTrie α → Prop
  | null => True
  | node children marked =>
      (marked = true ∨ ∃ a, children a ≠ null) ∧ ∀ a, (children a).Pruned

/-- The root may be a node without words, the rest is pruned. -/
def Rooted : WordTrie α → Prop
  | null => False
  | node children _ => ∀ a, (children a).Pruned

theorem rooted_leafless : (leafless : WordTrie α).Rooted := fun _ => trivial

/-- A pruned trie that is not NULL holds a word. -/
theorem Pruned.exists_word {t : WordTrie α} (h : t.Pruned) (hne : t ≠ null) :
    ∃ w, t.contains w = true := by
  induction t with
  | null => exact absurd rfl hne
  | node children marked ih =>
      obtain ⟨hhere, hbelow⟩ := h
      rcases hhere with hmarked | ⟨a, ha⟩
      · exact ⟨[], hmarked⟩
      · obtain ⟨w, hw⟩ := ih a (hbelow a) ha
        exact ⟨a :: w, hw⟩

/-- A pruned trie is NULL exactly when it holds no word. -/
theorem Pruned.words_eq_empty_iff {t : WordTrie α} (h : t.Pruned) :
    t.words = ∅ ↔ t = null := by
  constructor
  · intro hempty
    by_contra hne
    obtain ⟨w, hw⟩ := h.exists_word hne
    exact Set.notMem_empty w (hempty ▸ hw)
  · rintro rfl
    exact words_null

theorem Pruned.rooted {t : WordTrie α} (h : t.Pruned) (hne : t ≠ null) :
    t.Rooted := by
  cases t with
  | null => exact absurd rfl hne
  | node children marked => exact h.2

/-- A node with pruned children is pruned by `prune`. -/
theorem pruned_prune [Fintype α] {children : α → WordTrie α} (marked : Bool)
    (h : ∀ a, (children a).Pruned) : (prune children marked).Pruned := by
  unfold prune
  split
  · trivial
  · rename_i hkeep
    refine ⟨?_, h⟩
    cases marked with
    | true => exact .inl rfl
    | false =>
        right
        by_contra hnone
        push Not at hnone
        exact hkeep (by simp [childless_iff.mpr hnone])

section Operations

variable [DecidableEq α]

/-- Inserting into a pruned subtree gives a pruned one. -/
theorem Pruned.insert (w : List α) :
    ∀ {t : WordTrie α}, t.Pruned → (t.insert w).Pruned := by
  induction w with
  | nil =>
      intro t h
      cases t with
      | null => exact ⟨.inl rfl, fun _ => trivial⟩
      | node children marked => exact ⟨.inl rfl, h.2⟩
  | cons a w ih =>
      intro t h
      have hchild : ∀ children : α → WordTrie α,
          (∀ b, (children b).Pruned) →
          ∀ b, (update children a ((children a).insert w) b).Pruned := by
        intro children hall b
        by_cases hb : b = a
        · subst hb
          rw [update_self]
          exact ih (hall b)
        · rw [update_of_ne hb]
          exact hall b
      have hnew : ∀ {children : α → WordTrie α},
          ∃ b, update children a ((children a).insert w) b ≠ null :=
        ⟨a, by rw [update_self]; exact insert_ne_null _ w⟩
      cases t with
      | null => exact ⟨.inr hnew, hchild (fun _ => null) fun _ => trivial⟩
      | node children marked => exact ⟨.inr hnew, hchild children h.2⟩

theorem Rooted.insert {t : WordTrie α} (h : t.Rooted) (w : List α) :
    (t.insert w).Rooted := by
  cases t with
  | null => exact h.elim
  | node children marked =>
      cases w with
      | nil => exact h
      | cons a w =>
          intro b
          by_cases hb : b = a
          · subst hb
            rw [update_self]
            exact Pruned.insert w (h b)
          · rw [update_of_ne hb]
            exact h b

variable [Fintype α]

/-- Removal leaves a pruned trie, also when the root was not. -/
theorem Rooted.remove (w : List α) :
    ∀ {t : WordTrie α}, t.Rooted → (t.remove w).Pruned := by
  induction w with
  | nil =>
      intro t h
      cases t with
      | null => exact h.elim
      | node children marked => exact pruned_prune false h
  | cons a w ih =>
      intro t h
      cases t with
      | null => exact h.elim
      | node children marked =>
          refine pruned_prune marked fun b => ?_
          by_cases hb : b = a
          · subst hb
            rw [update_self]
            cases hchild : children b with
            | null => exact trivial
            | node grandchildren inner =>
                have hpruned : (children b).Pruned := h b
                rw [← hchild]
                exact ih (hpruned.rooted (by simp [hchild]))
          · rw [update_of_ne hb]
            exact h b

/-- Removal gives NULL exactly when no other word is left. -/
theorem Rooted.remove_eq_null_iff {t : WordTrie α} (h : t.Rooted) (w : List α) :
    t.remove w = null ↔ t.words \ {w} = ∅ := by
  rw [← words_remove]
  exact (Rooted.remove w h).words_eq_empty_iff.symm

end Operations

end WordTrie

end WizardShell.Verified
