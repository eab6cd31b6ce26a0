import Mathlib.Data.Fintype.Card
import Mathlib.Order.WellFounded
import WizardShell.Verified.WordTrie

/-!
# The first word of a trie

Below the end of a path a trie holds the words that continue the path
(`contains_descend`).  The descent that takes the first child at every unmarked
node ends, in a pruned trie, at a marked one (`Pruned.exists_firstWord`), and
the word it spells comes first in the dictionary (`FirstWord.least`).  Words are
compared by `List.Lex`, in which a word comes before its proper extensions.
-/

namespace WizardShell.Verified

namespace WordTrie

variable {α : Type}

/-- What stands at the end of a path. -/
def descend : WordTrie α → List α → WordTrie α
  | t, [] => t
  | null, _ :: _ => null
  | node children _, a :: w => (children a).descend w

@[simp] theorem descend_nil (t : WordTrie α) : t.descend [] = t := by
  cases t <;> rfl

@[simp] theorem descend_null (w : List α) : (null : WordTrie α).descend w = null := by
  cases w <;> rfl

theorem contains_descend (p : List α) :
    ∀ (t : WordTrie α) (w : List α), (t.descend p).contains w = t.contains (p ++ w) := by
  induction p with
  | nil =>
      intro t w
      rw [descend_nil, List.nil_append]
  | cons a p ih =>
      intro t w
      cases t with
      | null => simp
      | node children marked => exact ih (children a) w

theorem Pruned.descend (p : List α) :
    ∀ {t : WordTrie α}, t.Pruned → (t.descend p).Pruned := by
  induction p with
  | nil =>
      intro t h
      rwa [descend_nil]
  | cons a p ih =>
      intro t h
      cases t with
      | null => exact trivial
      | node children marked => exact ih (h.2 a)

/-- In a trie whose root may be without words, so may only the end of the empty
path be. -/
theorem Rooted.descend_cases {t : WordTrie α} (h : t.Rooted) (p : List α) :
    (t.descend p).Pruned ∨
      ∃ children, t.descend p = node children false ∧ ∀ a, children a = null := by
  cases t with
  | null => exact h.elim
  | node children marked =>
      cases p with
      | nil =>
          rw [descend_nil]
          by_cases hword : marked = true ∨ ∃ a, children a ≠ null
          · exact .inl ⟨hword, h⟩
          · push Not at hword
            have hmarked : marked = false := by simpa using hword.1
            subst hmarked
            exact .inr ⟨children, rfl, hword.2⟩
      | cons a p => exact .inl (Pruned.descend p (h a))

/-- The word spelt by going to the first child until a node is marked. -/
inductive FirstWord [LT α] : WordTrie α → List α → Prop
  | here (children : α → WordTrie α) : FirstWord (node children true) []
  | go {children : α → WordTrie α} {a : α} {w : List α} :
      children a ≠ null → (∀ b, b < a → children b = null) →
        FirstWord (children a) w → FirstWord (node children false) (a :: w)

theorem FirstWord.contains [LT α] {t : WordTrie α} {w : List α} (h : FirstWord t w) :
    t.contains w = true := by
  induction h with
  | here children => rfl
  | go _ _ _ ih => exact ih

/-- **The first word is the least one.** -/
theorem FirstWord.least [LinearOrder α] {t : WordTrie α} {w : List α}
    (h : FirstWord t w) : ∀ {v : List α}, t.contains v = true →
      v = w ∨ List.Lex (fun a b => a < b) w v := by
  induction h with
  | here children =>
      intro v _
      cases v with
      | nil => exact .inl rfl
      | cons b v => exact .inr .nil
  | @go children a w _ hfirst _ ih =>
      intro v hv
      cases v with
      | nil => simp [WordTrie.contains] at hv
      | cons b v =>
          have hchild : (children b).contains v = true := hv
          rcases lt_trichotomy b a with hlt | heq | hgt
          · simp [hfirst b hlt] at hchild
          · subst heq
            rcases ih hchild with heq' | hlex
            · exact .inl (by rw [heq'])
            · exact .inr (.cons hlex)
          · exact .inr (.rel hgt)

/-- A greedy descent into a pruned trie does not end in a dead branch. -/
theorem Pruned.exists_firstWord [LinearOrder α] [Finite α] {t : WordTrie α}
    (h : t.Pruned) (hne : t ≠ null) : ∃ w, FirstWord t w := by
  induction t with
  | null => exact absurd rfl hne
  | node children marked ih =>
      obtain ⟨hhere, hbelow⟩ := h
      cases marked with
      | true => exact ⟨[], .here children⟩
      | false =>
          have hchild : ∃ a, children a ≠ null := by simpa using hhere
          obtain ⟨a, ha, hmin⟩ := wellFounded_lt.has_min { a | children a ≠ null } hchild
          obtain ⟨w, hw⟩ := ih a (hbelow a) ha
          refine ⟨a :: w, .go ha (fun b hb => ?_) hw⟩
          by_contra hnull
          exact hmin b hnull hb

end WordTrie

end WizardShell.Verified
