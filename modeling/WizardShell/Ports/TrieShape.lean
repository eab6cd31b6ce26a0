import WizardShell.Ports.CompletionOf
import WizardShell.Verified.TriePaths

/-!
# The nodes of the completions trie

`tn_remove` frees a node when it is unmarked and its last child has just gone,
on every level on its way back.  So no branch is left without a word: below the
root there is a node exactly at the prefixes of the stored words, and a trie in
which names come and go has no more nodes than before (`trie_noDeadBranches`).
-/

namespace WizardShell.Ports

open WizardShell.Verified
open TrieNode (null node)

/-- The node to which the path leads from child to child; NULL when there is
none. -/
def TrieNode.nodeAt : TrieNode → List (Fin 26) → TrieNode
  | t, [] => t
  | null, _ :: _ => null
  | node children _ _, i :: path => (children i).nodeAt path

/-- The number of nodes, which is the memory the trie takes. -/
def TrieNode.size : TrieNode → Nat
  | null => 0
  | node children _ _ => 1 + ∑ i, (children i).size

@[simp] theorem nodeAt_nil (t : TrieNode) : t.nodeAt [] = t := by
  cases t <;> rfl

theorem forget_nodeAt (path : List (Fin 26)) :
    ∀ t : TrieNode, (t.nodeAt path).forget = t.forget.descend path := by
  induction path with
  | nil =>
      intro t
      rw [nodeAt_nil, WordTrie.descend_nil]
  | cons i path ih =>
      intro t
      cases t with
      | null => rfl
      | node children isLeaf count => exact ih (children i)

theorem nodeAt_eq_null_iff {t : TrieNode} {path : List (Fin 26)} :
    t.nodeAt path = null ↔ t.forget.descend path = .null := by
  rw [← forget_nodeAt, forget_eq_null]

theorem size_forget (t : TrieNode) : t.forget.size = t.size := by
  induction t with
  | null => rfl
  | node children isLeaf count ih =>
      simp only [TrieNode.forget, WordTrie.size, TrieNode.size, ih]

/-! ## Paths and prefixes -/

theorem LowerWord.letters_eq_nil_iff {p : LowerWord} : p.letters = [] ↔ p.text.bytes = [] :=
  List.map_eq_nil_iff

/-- A path is a prefix of another one when the words are. -/
theorem letters_prefix_iff {p v : LowerWord} : p.letters <+: v.letters ↔ v.StartsWith p := by
  rw [startsWith_iff]
  constructor
  · intro hprefix
    obtain ⟨w, hw⟩ := hprefix
    exact ⟨w, by rw [hw, spell_letters]⟩
  · intro hspell
    obtain ⟨w, hw⟩ := hspell
    rw [hw, letters_spell]
    exact List.prefix_append p.letters w

theorem Holds.exists_word_iff {t : TrieNode} {S : Set LowerWord} (h : Holds t S)
    {P : List (Fin 26) → Prop} :
    (∃ w, t.forget.contains w = true ∧ P w) ↔ ∃ v, v ∈ S ∧ P v.letters := by
  simp only [← WordTrie.mem_words, h.words]
  exact Set.exists_mem_image

/-- A node below the root of a trie that holds the words of `S`. -/
theorem Holds.nodeAt_ne_null_iff {t : TrieNode} {S : Set LowerWord} (h : Holds t S)
    {p : LowerWord} (hp : p.text.bytes ≠ []) :
    t.nodeAt p.letters ≠ null ↔ ∃ v, v ∈ S ∧ v.StartsWith p := by
  have hletters : p.letters ≠ [] := LowerWord.letters_eq_nil_iff.not.mpr hp
  by_cases hnull : t = null
  · have hempty : LowerWord.letters '' S = ∅ := by
      rw [← h.words, hnull, forget_null, WordTrie.words_null]
    rw [Set.image_eq_empty.mp hempty, ne_eq, nodeAt_eq_null_iff, hnull, forget_null,
      WordTrie.descend_null]
    simp
  · rw [ne_eq, nodeAt_eq_null_iff, ← ne_eq, (h.rooted hnull).descend_ne_null_iff hletters,
      h.exists_word_iff]
    simp only [letters_prefix_iff]

/-- The walk of `completionOf` fails where there is no node. -/
theorem completionWalk_eq_none_iff {t : TrieNode} (hne : t ≠ null) (p : LowerWord) :
    completionWalk t p.text.bytes = .ok none ↔ t.nodeAt p.letters = null := by
  obtain ⟨found, hwalk, hsome, hforget⟩ := completionWalk_lower p.text.bytes t hne p.lower
  have hdescend : (found.getD null).forget = t.forget.descend p.letters := hforget
  rw [hwalk, nodeAt_eq_null_iff, ← hdescend, forget_eq_null]
  cases found with
  | none => simp
  | some u =>
      have hu : u ≠ null := fun hnull => hsome (congrArg some hnull)
      simp [hu]

/-! ## Prompts -/

theorem stored_append_inserts {ops : List TrieOp} {v : LowerWord} (names : List LowerWord) :
    Stored (ops ++ names.map .insert) v ↔ v ∈ names ∨ Stored ops v := by
  induction names using List.reverseRecOn with
  | nil => simp
  | append_singleton names w ih =>
      rw [List.map_append, List.map_singleton, ← List.append_assoc, stored_snoc_insert, ih,
        List.mem_append, List.mem_singleton, or_assoc, or_left_comm]

theorem stored_append_removes {ops : List TrieOp} {v : LowerWord} (names : List LowerWord) :
    Stored (ops ++ names.map .remove) v ↔ Stored ops v ∧ v ∉ names := by
  induction names using List.reverseRecOn with
  | nil => simp
  | append_singleton names w ih =>
      rw [List.map_append, List.map_singleton, ← List.append_assoc, stored_snoc_remove, ih,
        List.mem_append, List.mem_singleton, not_or, and_assoc]

/-- A prompt adds names, and later removes at least these. -/
structure TriePrompt where
  added : List LowerWord
  removed : List LowerWord
  removes_added : added ⊆ removed

/-- What a prompt does to the trie. -/
def TriePrompt.ops (prompt : TriePrompt) : List TrieOp :=
  prompt.added.map .insert ++ prompt.removed.map .remove

/-- No word is stored after some prompts that was not stored before them. -/
theorem stored_of_prompts {ops : List TrieOp} {v : LowerWord} (prompts : List TriePrompt)
    (h : Stored (ops ++ prompts.flatMap TriePrompt.ops) v) : Stored ops v := by
  induction prompts using List.reverseRecOn with
  | nil => simpa using h
  | append_singleton prompts prompt ih =>
      apply ih
      rw [List.flatMap_append, List.flatMap_singleton, TriePrompt.ops, ← List.append_assoc,
        ← List.append_assoc, stored_append_removes, stored_append_inserts] at h
      obtain ⟨hadded | hstored, hkept⟩ := h
      · exact absurd (prompt.removes_added hadded) hkept
      · exact hstored

/-- A trie with fewer words has no more nodes. -/
theorem Holds.size_le {t u : TrieNode} {S T : Set LowerWord} (ht : Holds t S)
    (hu : Holds u T) (hne : u ≠ null) (hsub : S ⊆ T) : t.size ≤ u.size := by
  by_cases hnull : t = null
  · rw [hnull]
    exact Nat.zero_le _
  · rw [← size_forget, ← size_forget]
    apply (ht.rooted hnull).size_le (hu.rooted hne)
    rw [ht.words, hu.words]
    exact Set.image_mono hsub

/-- The trie, reached by the operations `ops`, has no dead branches. -/
structure NoDeadBranches (ops : List TrieOp) (t : TrieNode) : Prop where
  /-- There is a node at a path exactly when a stored word starts with it. -/
  node_iff : ∀ p : LowerWord, p.text.bytes ≠ [] →
    (t.nodeAt p.letters ≠ null ↔ ∃ v, Stored ops v ∧ v.StartsWith p)
  /-- The walk along a prefix fails exactly when there is no completion of it. -/
  walk_fails : t ≠ null → ∀ p : LowerWord, p.text.bytes ≠ [] →
    (completionWalk t p.text.bytes = .ok none ↔ ¬ ∃ v, Stored ops v ∧ v.StartsWith p)
  /-- Prompts that add names and remove them leave no node behind. -/
  no_growth : t ≠ null → ∀ (prompts : List TriePrompt) (t' : TrieNode),
    TrieRun (ops ++ prompts.flatMap TriePrompt.ops) t' → t'.size ≤ t.size

/-- **The trie has no dead branches**, after every run of inserts and removals. -/
theorem trie_noDeadBranches (ops : List TrieOp) (t : TrieNode) (hrun : TrieRun ops t) :
    NoDeadBranches ops t where
  node_iff _ hp := hrun.holds.nodeAt_ne_null_iff hp
  walk_fails hne p hp := by
    rw [completionWalk_eq_none_iff hne, ← not_iff_not, not_not]
    exact hrun.holds.nodeAt_ne_null_iff hp
  no_growth hne prompts _ hrun' :=
    hrun'.holds.size_le hrun.holds hne fun _ hv => stored_of_prompts prompts hv

/-- `ls` and `l` go in, and `ls` is removed: there is no node at `ls`. -/
theorem trie_noDeadBranches_ls :
    ∃ t, TrieRun [.insert ⟨.lit ['l', 's'], lower_of_all rfl⟩,
        .insert ⟨.lit ['l'], lower_of_all rfl⟩,
        .remove ⟨.lit ['l', 's'], lower_of_all rfl⟩] t ∧
      NoDeadBranches [.insert ⟨.lit ['l', 's'], lower_of_all rfl⟩,
        .insert ⟨.lit ['l'], lower_of_all rfl⟩,
        .remove ⟨.lit ['l', 's'], lower_of_all rfl⟩] t := by
  obtain ⟨s, hs, hsne, hsholds⟩ := holds_tnGetNode.insert (by simp [tnGetNode])
    ⟨.lit ['l', 's'], lower_of_all rfl⟩
  obtain ⟨u, hu, hune, huholds⟩ := hsholds.insert hsne ⟨.lit ['l'], lower_of_all rfl⟩
  obtain ⟨t, ht, _, _⟩ := huholds.remove hune ⟨.lit ['l', 's'], lower_of_all rfl⟩
  have hrun : TrieRun [.insert ⟨.lit ['l', 's'], lower_of_all rfl⟩,
      .insert ⟨.lit ['l'], lower_of_all rfl⟩,
      .remove ⟨.lit ['l', 's'], lower_of_all rfl⟩] t :=
    .next (.next (.next .start ⟨by simp [tnGetNode], hs⟩) ⟨hsne, hu⟩) ⟨hune, ht⟩
  exact ⟨t, hrun, trie_noDeadBranches _ _ hrun⟩

end WizardShell.Ports
