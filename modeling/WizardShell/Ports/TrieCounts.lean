import WizardShell.Ports.TrieShape

/-!
# The counts of the trie's nodes

`tn_insert` raises a node's `count` with each child it makes.  `tn_remove` takes
children away and leaves `count` alone, so the counts are those of the children
only as long as no removal frees a node and leaves its parent
(`countsKept_iff`).
-/

namespace WizardShell.Ports

open Function
open WizardShell.Verified
open TrieNode (null node)

/-- The number of non-NULL children. -/
def childCount (children : Fin 26 → TrieNode) : Nat :=
  (Finset.univ.filter fun i => (children i).isNull = false).card

/-- Every node's count is its number of children. -/
def TrieNode.CountsExact : TrieNode → Prop
  | null => True
  | node children _ count => count = childCount children ∧ ∀ i, (children i).CountsExact

/-- The counts are exact in every trie reached on the way through the run. -/
def CountsKept (ops : List TrieOp) : Prop :=
  Run.EveryReached trieStep tnGetNode ops fun _ t => t.CountsExact

/-- Removing `w` from a trie of the words `S` frees no node, or all of them: `w`
is not there, or it starts another word, or there is no other word. -/
def FreesAllOrNone (S : Set LowerWord) (w : LowerWord) : Prop :=
  w ∉ S ∨ (∃ v, v ∈ S ∧ v ≠ w ∧ v.StartsWith w) ∨ ∀ v, v ∈ S → v = w

/-- `cd` and `ls` go in, and `ls` is removed: the root keeps one child and
counts two. -/
theorem not_countsKept_ls :
    ∃ t, TrieRun [.insert ⟨.lit ['c', 'd'], lower_of_all rfl⟩,
        .insert ⟨.lit ['l', 's'], lower_of_all rfl⟩,
        .remove ⟨.lit ['l', 's'], lower_of_all rfl⟩] t ∧ t ≠ null ∧ ¬ t.CountsExact := by
  refine ⟨_, .next (.next (.next .start ⟨TrieNode.noConfusion, rfl⟩)
    ⟨TrieNode.noConfusion, rfl⟩) ⟨TrieNode.noConfusion, rfl⟩, TrieNode.noConfusion, fun h => ?_⟩
  exact absurd h.1 (by decide)

/-! ## Counting children -/

theorem isNull_eq_false_iff {t : TrieNode} : t.isNull = false ↔ t ≠ null := by
  rw [← Bool.not_eq_true, TrieNode.isNull_iff]

/-- A child in place of NULL is one child more. -/
theorem childCount_update_null {children : Fin 26 → TrieNode} {i : Fin 26} {child : TrieNode}
    (hnull : children i = null) (hne : child ≠ null) :
    childCount (update children i child) = childCount children + 1 := by
  have hinsert : (Finset.univ.filter fun j => (update children i child j).isNull = false) =
      insert i (Finset.univ.filter fun j => (children j).isNull = false) := by
    ext j
    by_cases hj : j = i
    · subst hj
      simpa [isNull_eq_false_iff] using hne
    · simp [hj]
  rw [childCount, hinsert, Finset.card_insert_of_notMem (by simp [isNull_eq_false_iff, hnull])]
  rfl

/-- A child in place of another one is as many children. -/
theorem childCount_update_same {children : Fin 26 → TrieNode} {i : Fin 26} {child : TrieNode}
    (hsame : child = null ↔ children i = null) :
    childCount (update children i child) = childCount children := by
  unfold childCount
  congr 2
  funext j
  by_cases hj : j = i
  · subst hj
    rw [update_self, eq_iff_iff, isNull_eq_false_iff, isNull_eq_false_iff, ne_eq, hsame]
  · rw [update_of_ne hj]

/-- NULL in place of a child is one child less. -/
theorem childCount_update_freed {children : Fin 26 → TrieNode} {i : Fin 26}
    (hne : children i ≠ null) :
    childCount (update children i null) + 1 = childCount children := by
  have hback := childCount_update_null (update_self i null children) hne
  rw [update_idem, update_eq_self] at hback
  exact hback.symm

theorem forall_countsExact_update {children : Fin 26 → TrieNode} {i : Fin 26}
    {child : TrieNode} (h : ∀ j, (children j).CountsExact) :
    (∀ j, (update children i child j).CountsExact) ↔ child.CountsExact := by
  rw [forall_update_iff children fun _ t => t.CountsExact]
  exact and_iff_left fun j _ => h j

/-- Where a child is replaced and the count is not changed, the counts stay exact
when the child is not freed and its own counts are exact. -/
theorem countsExact_update_iff {children : Fin 26 → TrieNode} {i : Fin 26}
    {child : TrieNode} {isLeaf : Bool} {count : Nat}
    (h : (node children isLeaf count).CountsExact) (hfreed : children i = null → child = null) :
    (node (update children i child) isLeaf count).CountsExact ↔
      (children i ≠ null → child ≠ null) ∧ child.CountsExact := by
  have hcount : count = childCount (update children i child) ↔
      (children i ≠ null → child ≠ null) := by
    rw [h.1]
    constructor
    · intro heq hne hnull
      have hless := childCount_update_freed hne
      rw [hnull] at heq
      omega
    · intro hkept
      exact (childCount_update_same ⟨not_imp_not.mp hkept, hfreed⟩).symm
  exact and_congr hcount (forall_countsExact_update h.2)

theorem countsExact_tnGetNode : tnGetNode.CountsExact :=
  ⟨by simp [childCount, TrieNode.isNull], fun _ => trivial⟩

/-! ## Inserting -/

/-- `tn_insert` counts each child it makes. -/
theorem countsExact_tnInsertFrom (key : List UInt8) :
    ∀ t : TrieNode, t ≠ null → t.CountsExact → (∀ b ∈ key, isLowerByte b = true) →
      ∃ t', tnInsertFrom t key = .ret t' ∧ t' ≠ null ∧ t'.CountsExact := by
  induction key with
  | nil =>
      intro t hne hexact _
      cases t with
      | null => exact absurd rfl hne
      | node children isLeaf count => exact ⟨_, rfl, TrieNode.noConfusion, hexact⟩
  | cons c rest ih =>
      intro t hne hexact hlower
      obtain ⟨hc, hrest⟩ := List.forall_mem_cons.mp hlower
      cases t with
      | null => exact absurd rfl hne
      | node children isLeaf count =>
          simp only [tnInsertFrom, inAlphabet_lower hc, Outcome.ret_bind]
          by_cases hnull : children (letter c) = null
          · obtain ⟨child, hret, hchild, hbelow⟩ :=
              ih tnGetNode (by simp [tnGetNode]) countsExact_tnGetNode hrest
            refine ⟨_, by simp [hnull, hret]; rfl, TrieNode.noConfusion, ?_⟩
            have hcount : count + 1 = childCount (update children (letter c) child) := by
              rw [childCount_update_null hnull hchild, hexact.1]
            exact ⟨hcount, (forall_countsExact_update hexact.2).mpr hbelow⟩
          · obtain ⟨child, hret, hchild, hbelow⟩ :=
              ih (children (letter c)) hnull (hexact.2 _) hrest
            refine ⟨_, by simp [hnull, hret]; rfl, TrieNode.noConfusion, ?_⟩
            apply (countsExact_update_iff hexact fun h => absurd h hnull).mpr
            exact ⟨fun _ => hchild, hbelow⟩

/-! ## Removing -/

/-- Where `t` has a node, `t'` has one. -/
def TrieNode.KeepsNodes (t t' : TrieNode) : Prop :=
  ∀ path, t.nodeAt path ≠ null → t'.nodeAt path ≠ null

theorem TrieNode.KeepsNodes.ne_null {t t' : TrieNode} (h : t.KeepsNodes t') (hne : t ≠ null) :
    t' ≠ null := by
  have hroot := h []
  rw [nodeAt_nil, nodeAt_nil] at hroot
  exact hroot hne

theorem keepsNodes_null (t' : TrieNode) : null.KeepsNodes t' := by
  intro path hpath
  rw [ne_eq, nodeAt_eq_null_iff, forget_null, WordTrie.descend_null] at hpath
  exact absurd rfl hpath

/-- Where one child is replaced, the nodes below it matter. -/
theorem keepsNodes_update_iff {children : Fin 26 → TrieNode} {i : Fin 26} {child : TrieNode}
    {isLeaf isLeaf' : Bool} {count count' : Nat} :
    (node children isLeaf count).KeepsNodes (node (update children i child) isLeaf' count') ↔
      (children i).KeepsNodes child := by
  constructor
  · intro hkeeps path hpath
    have hbelow : (update children i child i).nodeAt path ≠ null := hkeeps (i :: path) hpath
    rwa [update_self] at hbelow
  · intro hkeeps path hpath
    cases path with
    | nil => exact TrieNode.noConfusion
    | cons j path =>
        show (update children i child j).nodeAt path ≠ null
        by_cases hj : j = i
        · subst hj
          rw [update_self]
          exact hkeeps path hpath
        · rw [update_of_ne hj]
          exact hpath

/-- A node that is freed is a node lost. -/
theorem countsExact_freed_iff {t : TrieNode} (hne : t ≠ null) :
    (t ≠ null → null ≠ null) ∧ null.CountsExact ↔ t.KeepsNodes null :=
  iff_of_false (fun h => h.1 hne rfl) fun h => h.ne_null hne rfl

/-- `tn_remove` leaves the counts alone, so they stay exact where no node is
lost. -/
theorem countsExact_tnRemoveFrom_iff (key : List UInt8) :
    ∀ t t' : TrieNode, t.CountsExact → (∀ b ∈ key, isLowerByte b = true) →
      tnRemoveFrom t key = .ret t' →
      ((t ≠ null → t' ≠ null) ∧ t'.CountsExact ↔ t.KeepsNodes t') := by
  induction key with
  | nil =>
      intro t t' hexact _ hret
      cases t with
      | null =>
          cases hret
          exact iff_of_true ⟨id, trivial⟩ (keepsNodes_null null)
      | node children isLeaf count =>
          rw [tnRemoveFrom] at hret
          split at hret
          · cases hret
            exact countsExact_freed_iff TrieNode.noConfusion
          · cases hret
            refine iff_of_true ⟨fun _ => TrieNode.noConfusion, hexact⟩ fun path hpath => ?_
            cases path with
            | nil => exact TrieNode.noConfusion
            | cons i path => exact hpath
  | cons c rest ih =>
      intro t t' hexact hlower hret
      obtain ⟨hc, hrest⟩ := List.forall_mem_cons.mp hlower
      cases t with
      | null =>
          cases hret
          exact iff_of_true ⟨id, trivial⟩ (keepsNodes_null null)
      | node children isLeaf count =>
          obtain ⟨child, hchild, _⟩ := forget_tnRemoveFrom rest (children (letter c)) hrest
          simp only [tnRemoveFrom, inAlphabet_lower hc, Outcome.ret_bind,
            hchild] at hret
          split at hret
          · cases hret
            exact countsExact_freed_iff TrieNode.noConfusion
          · cases hret
            have hfreed : children (letter c) = null → child = null := by
              intro hnull
              rw [hnull, tnRemoveFrom] at hchild
              exact (Outcome.ret.inj hchild).symm
            rw [keepsNodes_update_iff, ← ih _ _ (hexact.2 _) hrest hchild,
              ← countsExact_update_iff hexact hfreed]
            exact and_iff_right fun _ => TrieNode.noConfusion

theorem keepsNodes_iff_descend {t t' : TrieNode} :
    t.KeepsNodes t' ↔ ∀ path, t.forget.descend path ≠ .null → t'.forget.descend path ≠ .null := by
  simp only [TrieNode.KeepsNodes, ne_eq, nodeAt_eq_null_iff]

/-- A removal that leaves a root loses no node exactly when the word was not
there or starts another one. -/
theorem Holds.keepsNodes_remove_iff {t t' : TrieNode} {S : Set LowerWord} (h : Holds t S)
    (hne : t ≠ null) {w : LowerWord} (hforget : t'.forget = t.forget.remove w.letters)
    (hne' : t' ≠ null) :
    t.KeepsNodes t' ↔ w ∉ S ∨ ∃ v, v ∈ S ∧ v ≠ w ∧ v.StartsWith w := by
  have hkept : t.forget.remove w.letters ≠ .null := by
    rw [← hforget]
    exact forget_eq_null.not.mpr hne'
  rw [keepsNodes_iff_descend, hforget, (h.rooted hne).remove_keeps_iff hkept, h.contains_iff,
    h.exists_word_iff, imp_iff_not_or]
  simp only [letters_prefix_iff, ne_eq, LowerWord.letters_injective.eq_iff]

/-- A removal keeps the counts exact when it frees no node, or all. -/
theorem Holds.countsExact_remove_iff {t t' : TrieNode} {S : Set LowerWord} (h : Holds t S)
    (hne : t ≠ null) (hexact : t.CountsExact) {w : LowerWord}
    (hret : tnRemove t w.text 0 = .ret t') : t'.CountsExact ↔ FreesAllOrNone S w := by
  have hremoved : (tnRemove t w.text 0).Yields fun u => u.forget = t.forget.remove w.letters :=
    forget_tnRemove t w
  have hforget : t'.forget = t.forget.remove w.letters := hremoved.of_ret hret
  have hnull : t' = null ↔ ∀ v, v ∈ S → v = w := by
    rw [(Outcome.Yields.of_ret (h.remove hne w) hret).1, Set.sdiff_eq_empty]
    exact Iff.rfl
  by_cases hfreed : t' = null
  · have hexact' : t'.CountsExact := by
      rw [hfreed]
      exact trivial
    exact iff_of_true hexact' (.inr (.inr (hnull.mp hfreed)))
  · have hkeeps : t'.CountsExact ↔ t.KeepsNodes t' := by
      rw [← countsExact_tnRemoveFrom_iff w.text.bytes t t' hexact w.lower hret]
      exact (and_iff_right fun _ => hfreed).symm
    rw [hkeeps, h.keepsNodes_remove_iff hne hforget hfreed, FreesAllOrNone, ← or_assoc,
      or_iff_left (hnull.not.mp hfreed)]

/-! ## Runs -/

/-- When an operation of a run keeps the counts exact. -/
theorem countsExact_step_iff {pre : List TrieOp} {t t' : TrieNode} {op : TrieOp}
    (hrun : TrieRun pre t) (hexact : t.CountsExact) (hstep : trieStep t op t') :
    t'.CountsExact ↔ ∀ w, op = .remove w → FreesAllOrNone { v | Stored pre v } w := by
  obtain ⟨hne, hret⟩ := hstep
  cases op with
  | insert w =>
      have hexact' : t'.CountsExact :=
        (Outcome.Yields.of_ret
          (countsExact_tnInsertFrom w.text.bytes t hne hexact w.lower) hret).2
      exact iff_of_true hexact' fun _ h => TrieOp.noConfusion h
  | remove w =>
      rw [hrun.holds.countsExact_remove_iff hne hexact hret]
      simp

/-- **The counts are those of the children** in every trie on the way through a
run exactly when each removal on the way frees no node, or all of them. -/
theorem countsKept_iff (ops : List TrieOp) :
    CountsKept ops ↔
      ∀ pre w post t, ops = pre ++ .remove w :: post → TrieRun pre t → t ≠ null →
        FreesAllOrNone { v | Stored pre v } w := by
  have hruns : CountsKept ops ↔
      ∀ pre op post t u, ops = pre ++ op :: post → TrieRun pre t → trieStep t op u →
        ∀ w, op = .remove w → FreesAllOrNone { v | Stored pre v } w :=
    Run.EveryReached.iff_of_step countsExact_tnGetNode fun _ _ _ _ => countsExact_step_iff
  rw [hruns]
  constructor
  · intro hall pre w post t hops hrun hne
    obtain ⟨u, hu, _⟩ := hrun.holds.remove hne w
    exact hall pre (.remove w) post t u hops hrun ⟨hne, hu⟩ w rfl
  · intro hall pre op post t u hops hrun hstep w hop
    subst hop
    exact hall pre w post t hops hrun hstep.1

end WizardShell.Ports
