import Mathlib.Data.Set.Image
import WizardShell.Ports.CString
import WizardShell.Verified.LastWrite
import WizardShell.Verified.Outcome
import WizardShell.Verified.Run
import WizardShell.Verified.WordTrie

/-!
# The completions trie

The functions of `completions.c` that build and search the trie.  A node owns
its children, so a trie is a tree, and freeing a node and storing NULL in its
parent is replacing the subtree by `null`.  An index computed from a character
that is outside `0 .. 25` leaves the `children` array: the access is undefined.

Forgetting the counts gives a trie of the general kind, on lower-case letters
(`forget_tnInsert`, `forget_tnRemove`), and so the trie is a set of words
(`trie_isWordSet`).
-/

namespace WizardShell.Ports

open Function
open WizardShell.Verified

/-- `TrieNode *` -/
inductive TrieNode where
  | null
  | node (children : Fin 26 → TrieNode) (isLeaf : Bool) (count : Nat)

namespace TrieNode

def isNull : TrieNode → Bool
  | null => true
  | node _ _ _ => false

@[simp] theorem isNull_iff {t : TrieNode} : t.isNull = true ↔ t = null := by
  cases t <;> simp [isNull]

end TrieNode

open TrieNode (null node)

/-- `CHAR_TO_INDEX(c)`, with `char` signed. -/
def charToIndex (c : UInt8) : Int :=
  (if c < 128 then (c.toNat : Int) else c.toNat - 256) - 97

/-- An index into `children`, undefined outside the alphabet. -/
def inAlphabet (index : Int) : Outcome (Fin 26) :=
  if h : 0 ≤ index ∧ index < 26 then .ret ⟨index.toNat, by omega⟩ else .undefined

/-- A freshly initialised node; `malloc` succeeds. -/
def tnGetNode : TrieNode := node (fun _ => null) false 0

/-- The loop of `tn_insert` from a node, with the rest of the key to go. -/
def tnInsertFrom : TrieNode → List UInt8 → Outcome TrieNode
  | null, _ => .undefined
  | node children _ count, [] => .ret (node children true count)
  | node children isLeaf count, c :: rest => do
      let index ← inAlphabet (charToIndex c)
      if (children index).isNull then
        let child ← tnInsertFrom tnGetNode rest
        return node (update children index child) isLeaf (count + 1)
      else
        let child ← tnInsertFrom (children index) rest
        return node (update children index child) isLeaf count

/-- `tn_insert(root, key)`: the trie afterwards. -/
def tnInsert (root : TrieNode) (key : CString) : Outcome TrieNode :=
  tnInsertFrom root key.bytes

/-- The loop of `tn_search`. -/
def tnSearchFrom : TrieNode → List UInt8 → Outcome Bool
  | null, _ => .undefined
  | node _ isLeaf _, [] => .ret isLeaf
  | node children _ _, c :: rest => do
      let index ← inAlphabet (charToIndex c)
      if (children index).isNull then
        return false
      else
        tnSearchFrom (children index) rest

/-- `tn_search(root, key)`: 1 is `true`. -/
def tnSearch (root : TrieNode) (key : CString) : Outcome Bool :=
  tnSearchFrom root key.bytes

/-- Has the node with these children none? -/
def isEmpty (children : Fin 26 → TrieNode) : Bool :=
  decide (∀ i, (children i).isNull = true)

/-- `tn_remove` at a node, with the rest of the key to go. -/
def tnRemoveFrom : TrieNode → List UInt8 → Outcome TrieNode
  | null, _ => .ret null
  | node children _ count, [] =>
      if isEmpty children then .ret null else .ret (node children false count)
  | node children isLeaf count, c :: rest => do
      let index ← inAlphabet (charToIndex c)
      let child ← tnRemoveFrom (children index) rest
      if isEmpty (update children index child) && !isLeaf then
        return null
      else
        return node (update children index child) isLeaf count

/-- `tn_remove(root, key, depth)`: what replaces the root. -/
def tnRemove (root : TrieNode) (key : CString) (depth : Nat) : Outcome TrieNode :=
  tnRemoveFrom root (key.bytes.drop depth)

/-! ## Lower-case words -/

/-- Is the byte one of `a .. z`? -/
def isLowerByte (b : UInt8) : Bool := 97 ≤ b && b ≤ 122

/-- The place of a lower-case byte in the alphabet. -/
def letter (b : UInt8) : Fin 26 := Fin.ofNat 26 (b.toNat - 97)

theorem inAlphabet_lower {b : UInt8} (h : isLowerByte b = true) :
    inAlphabet (charToIndex b) = .ret (letter b) := by
  simp only [isLowerByte, Bool.and_eq_true, decide_eq_true_eq, UInt8.le_iff_toNat_le] at h
  have h97 : (97 : UInt8).toNat = 97 := rfl
  have h122 : (122 : UInt8).toNat = 122 := rfl
  have hsmall : b < 128 := by
    rw [UInt8.lt_iff_toNat_lt]
    have h128 : (128 : UInt8).toNat = 128 := rfl
    omega
  have hindex : charToIndex b = ((b.toNat - 97 : Nat) : Int) := by
    rw [charToIndex, if_pos hsmall]
    omega
  have hrange : 0 ≤ charToIndex b ∧ charToIndex b < 26 := by omega
  rw [inAlphabet, dif_pos hrange]
  congr 1
  apply Fin.ext
  simp only [letter, Fin.val_ofNat, hindex]
  omega

theorem letter_inj {b c : UInt8} (hb : isLowerByte b = true)
    (hc : isLowerByte c = true) (h : letter b = letter c) : b = c := by
  simp only [isLowerByte, Bool.and_eq_true, decide_eq_true_eq, UInt8.le_iff_toNat_le]
    at hb hc
  have hval := congrArg Fin.val h
  simp only [letter, Fin.val_ofNat] at hval
  apply UInt8.toNat_inj.mp
  have h97 : (97 : UInt8).toNat = 97 := rfl
  have h122 : (122 : UInt8).toNat = 122 := rfl
  omega

/-- A word over `a .. z`. -/
@[ext] structure LowerWord where
  text : CString
  lower : ∀ b ∈ text.bytes, isLowerByte b = true

theorem lower_of_all {bytes : List UInt8} (h : bytes.all isLowerByte = true) :
    ∀ b ∈ bytes, isLowerByte b = true := List.all_eq_true.mp h

/-- The word as a path in the trie. -/
def LowerWord.letters (w : LowerWord) : List (Fin 26) := w.text.bytes.map letter

theorem LowerWord.letters_injective : Injective LowerWord.letters := by
  have hmap : ∀ xs ys : List UInt8, (∀ b ∈ xs, isLowerByte b = true) →
      (∀ b ∈ ys, isLowerByte b = true) → xs.map letter = ys.map letter → xs = ys := by
    intro xs
    induction xs with
    | nil =>
        intro ys _ _ h
        exact (List.map_eq_nil_iff.mp h.symm).symm
    | cons b xs ih =>
        intro ys hxs hys h
        cases ys with
        | nil => simp at h
        | cons c ys =>
            simp only [List.map_cons, List.cons.injEq] at h
            rw [letter_inj (hxs b (by simp)) (hys c (by simp)) h.1]
            rw [ih ys (fun x hx => hxs x (by simp [hx]))
              (fun x hx => hys x (by simp [hx])) h.2]
  intro v w h
  exact LowerWord.ext (CString.ext (hmap _ _ v.lower w.lower h))

/-! ## The trie as a trie of the general kind -/

/-- The trie without its counts. -/
def TrieNode.forget : TrieNode → WordTrie (Fin 26)
  | null => .null
  | node children isLeaf _ => .node (fun i => (children i).forget) isLeaf

@[simp] theorem forget_null : null.forget = .null := rfl

@[simp] theorem forget_tnGetNode : tnGetNode.forget = .leafless := rfl

@[simp] theorem forget_eq_null {t : TrieNode} : t.forget = .null ↔ t = null := by
  cases t <;> simp [TrieNode.forget]

/-- Forgetting goes below an update of a child. -/
theorem forget_update (children : Fin 26 → TrieNode) (i : Fin 26) (child : TrieNode) :
    (fun j => (update children i child j).forget) =
      update (fun j => (children j).forget) i child.forget := by
  funext j
  by_cases hj : j = i
  · subst hj
    simp
  · simp [hj]

theorem isEmpty_eq_childless (children : Fin 26 → TrieNode) :
    isEmpty children = WordTrie.childless fun i => (children i).forget := by
  simp [isEmpty, WordTrie.childless]

/-- `tn_insert` inserts the word. -/
theorem forget_tnInsertFrom (key : List UInt8) :
    ∀ t : TrieNode, t ≠ null → (∀ b ∈ key, isLowerByte b = true) →
      ∃ t', tnInsertFrom t key = .ret t' ∧
        t'.forget = t.forget.insert (key.map letter) := by
  induction key with
  | nil =>
      intro t hne _
      cases t with
      | null => exact absurd rfl hne
      | node children isLeaf count => exact ⟨_, rfl, rfl⟩
  | cons c rest ih =>
      intro t hne hlower
      obtain ⟨hc, hrest⟩ := List.forall_mem_cons.mp hlower
      cases t with
      | null => exact absurd rfl hne
      | node children isLeaf count =>
          simp only [tnInsertFrom, inAlphabet_lower hc, Outcome.ret_bind]
          by_cases hnull : children (letter c) = null
          · obtain ⟨child, hchild, hforget⟩ := ih tnGetNode (by simp [tnGetNode]) hrest
            refine ⟨_, by simp [hnull, hchild]; rfl, ?_⟩
            simp [TrieNode.forget, forget_update, hforget, WordTrie.insert, hnull]
          · obtain ⟨child, hchild, hforget⟩ := ih (children (letter c)) hnull hrest
            refine ⟨_, by simp [hnull, hchild]; rfl, ?_⟩
            simp [TrieNode.forget, forget_update, hforget, WordTrie.insert]

/-- `tn_search` looks the word up. -/
theorem tnSearchFrom_eq (key : List UInt8) :
    ∀ t : TrieNode, t ≠ null → (∀ b ∈ key, isLowerByte b = true) →
      tnSearchFrom t key = .ret (t.forget.contains (key.map letter)) := by
  induction key with
  | nil =>
      intro t hne _
      cases t with
      | null => exact absurd rfl hne
      | node children isLeaf count => rfl
  | cons c rest ih =>
      intro t hne hlower
      obtain ⟨hc, hrest⟩ := List.forall_mem_cons.mp hlower
      cases t with
      | null => exact absurd rfl hne
      | node children isLeaf count =>
          simp only [tnSearchFrom, inAlphabet_lower hc, Outcome.ret_bind]
          by_cases hnull : children (letter c) = null
          · simp [hnull, TrieNode.forget, WordTrie.contains]
          · simp [hnull, TrieNode.forget, WordTrie.contains,
              ih (children (letter c)) hnull hrest]

/-- `tn_remove` removes the word. -/
theorem forget_tnRemoveFrom (key : List UInt8) :
    ∀ t : TrieNode, (∀ b ∈ key, isLowerByte b = true) →
      ∃ t', tnRemoveFrom t key = .ret t' ∧
        t'.forget = t.forget.remove (key.map letter) := by
  induction key with
  | nil =>
      intro t _
      cases t with
      | null => exact ⟨_, rfl, rfl⟩
      | node children isLeaf count =>
          simp only [tnRemoveFrom, isEmpty_eq_childless, TrieNode.forget,
            WordTrie.remove, WordTrie.prune, List.map_nil]
          by_cases hempty : WordTrie.childless fun i => (children i).forget
          · exact ⟨null, by simp [hempty]⟩
          · exact ⟨node children false count, by simp [hempty, TrieNode.forget]⟩
  | cons c rest ih =>
      intro t hlower
      obtain ⟨hc, hrest⟩ := List.forall_mem_cons.mp hlower
      cases t with
      | null => exact ⟨_, rfl, rfl⟩
      | node children isLeaf count =>
          obtain ⟨child, hchild, hforget⟩ := ih (children (letter c)) hrest
          simp only [tnRemoveFrom, inAlphabet_lower hc,
            Outcome.ret_bind, hchild, isEmpty_eq_childless, forget_update, hforget,
            TrieNode.forget, WordTrie.remove, WordTrie.prune, List.map_cons]
          split
          · exact ⟨null, rfl, rfl⟩
          · refine ⟨_, rfl, ?_⟩
            simp [TrieNode.forget, forget_update, hforget]

theorem forget_tnInsert {t : TrieNode} (hne : t ≠ null) (w : LowerWord) :
    ∃ t', tnInsert t w.text = .ret t' ∧ t'.forget = t.forget.insert w.letters :=
  forget_tnInsertFrom w.text.bytes t hne w.lower

theorem forget_tnRemove (t : TrieNode) (w : LowerWord) :
    ∃ t', tnRemove t w.text 0 = .ret t' ∧ t'.forget = t.forget.remove w.letters :=
  forget_tnRemoveFrom w.text.bytes t w.lower

theorem tnSearch_eq {t : TrieNode} (hne : t ≠ null) (v : LowerWord) :
    tnSearch t v.text = .ret (t.forget.contains v.letters) :=
  tnSearchFrom_eq v.text.bytes t hne v.lower

/-! ## Runs of inserts and removals -/

/-- An operation on the trie: `tn_insert(root, w)` or
`root = tn_remove(root, w, 0)`. -/
inductive TrieOp where
  | insert (w : LowerWord)
  | remove (w : LowerWord)

/-- The trie after the operation. -/
def TrieOp.run (t : TrieNode) : TrieOp → Outcome TrieNode
  | insert w => tnInsert t w.text
  | remove w => tnRemove t w.text 0

/-- The operation as a write to the map from words to presence. -/
def TrieOp.write : TrieOp → CString × Bool
  | insert w => (w.text, true)
  | remove w => (w.text, false)

/-- An operation on a root that is not NULL. -/
def trieStep (t : TrieNode) (op : TrieOp) (t' : TrieNode) : Prop :=
  t ≠ null ∧ op.run t = .ret t'

/-- The run of operations `ops` from `tn_getNode()` leads to `t`. -/
abbrev TrieRun (ops : List TrieOp) (t : TrieNode) : Prop :=
  Run trieStep tnGetNode ops t

/-- The last operation on the word was an insert. -/
def Stored (ops : List TrieOp) (v : LowerWord) : Prop :=
  lastWrite (ops.map TrieOp.write) v.text = some true

theorem not_stored_nil (v : LowerWord) : ¬ Stored [] v := by
  simp [Stored]

theorem stored_snoc_insert {ops : List TrieOp} {w v : LowerWord} :
    Stored (ops ++ [.insert w]) v ↔ v = w ∨ Stored ops v := by
  unfold Stored
  rw [List.map_append, List.map_singleton, lastWrite_snoc]
  by_cases hv : v = w
  · simp [hv, TrieOp.write]
  · have htext : v.text ≠ w.text := fun h => hv (LowerWord.ext h)
    simp [hv, TrieOp.write, htext]

theorem stored_snoc_remove {ops : List TrieOp} {w v : LowerWord} :
    Stored (ops ++ [.remove w]) v ↔ Stored ops v ∧ v ≠ w := by
  unfold Stored
  rw [List.map_append, List.map_singleton, lastWrite_snoc]
  by_cases hv : v = w
  · simp [hv, TrieOp.write]
  · have htext : v.text ≠ w.text := fun h => hv (LowerWord.ext h)
    simp [hv, TrieOp.write, htext]

/-- The trie holds exactly the words of `S`, and no dead branch. -/
structure Holds (t : TrieNode) (S : Set LowerWord) : Prop where
  words : t.forget.words = LowerWord.letters '' S
  rooted : t ≠ null → t.forget.Rooted

theorem Holds.contains_iff {t : TrieNode} {S : Set LowerWord} (h : Holds t S)
    (v : LowerWord) : t.forget.contains v.letters = true ↔ v ∈ S := by
  rw [← WordTrie.mem_words, h.words]
  exact LowerWord.letters_injective.mem_set_image

theorem holds_tnGetNode : Holds tnGetNode ∅ where
  words := by simp
  rooted _ := WordTrie.rooted_leafless

/-- What `tn_insert` does to the set of words. -/
theorem Holds.insert {t : TrieNode} {S : Set LowerWord} (h : Holds t S)
    (hne : t ≠ null) (w : LowerWord) :
    ∃ t', tnInsert t w.text = .ret t' ∧ t' ≠ null ∧ Holds t' (Insert.insert w S) := by
  obtain ⟨t', hret, hforget⟩ := forget_tnInsert hne w
  refine ⟨t', hret, ?_, ?_, fun _ => ?_⟩
  · apply forget_eq_null.not.mp
    rw [hforget]
    exact WordTrie.insert_ne_null _ _
  · rw [hforget, WordTrie.words_insert, h.words, Set.image_insert_eq]
  · rw [hforget]
    exact (h.rooted hne).insert w.letters

/-- What `tn_remove` does to the set of words. -/
theorem Holds.remove {t : TrieNode} {S : Set LowerWord} (h : Holds t S)
    (hne : t ≠ null) (w : LowerWord) :
    ∃ t', tnRemove t w.text 0 = .ret t' ∧ (t' = null ↔ S \ {w} = ∅) ∧
      Holds t' (S \ {w}) := by
  obtain ⟨t', hret, hforget⟩ := forget_tnRemove t w
  have hwords : t.forget.words \ {w.letters} = LowerWord.letters '' (S \ {w}) := by
    rw [h.words, Set.image_sdiff LowerWord.letters_injective, Set.image_singleton]
  refine ⟨t', hret, ?_, ?_, fun hne' => ?_⟩
  · rw [← forget_eq_null, hforget, (h.rooted hne).remove_eq_null_iff, hwords,
      Set.image_eq_empty]
  · rw [hforget, WordTrie.words_remove, hwords]
  · rw [hforget]
    apply ((h.rooted hne).remove w.letters).rooted
    rw [← hforget]
    exact forget_eq_null.not.mpr hne'

theorem Holds.step {ops : List TrieOp} {t t' : TrieNode} {op : TrieOp}
    (h : Holds t { v | Stored ops v }) (hstep : trieStep t op t') :
    Holds t' { v | Stored (ops ++ [op]) v } := by
  obtain ⟨hne, hret⟩ := hstep
  cases op with
  | insert w =>
      obtain ⟨_, hholds⟩ := Outcome.Yields.of_ret (h.insert hne w) hret
      convert hholds using 1
      ext v
      exact stored_snoc_insert
  | remove w =>
      obtain ⟨_, hholds⟩ := Outcome.Yields.of_ret (h.remove hne w) hret
      convert hholds using 1
      ext v
      exact stored_snoc_remove

/-- After a run the trie holds the words whose last operation was an insert. -/
theorem TrieRun.holds {ops : List TrieOp} {t : TrieNode} (hrun : TrieRun ops t) :
    Holds t { v | Stored ops v } := by
  induction hrun with
  | start =>
      convert holds_tnGetNode using 1
      ext v
      simp [not_stored_nil]
  | next _ hstep ih => exact ih.step hstep

/-- The trie, reached by the operations `ops`, behaves as a set of words. -/
structure IsWordSet (ops : List TrieOp) (t : TrieNode) : Prop where
  /-- The next operation returns. -/
  run_returns : t ≠ null → ∀ op : TrieOp, ∃ t', op.run t = .ret t'
  /-- A search gives 1 exactly for the words last inserted. -/
  search : t ≠ null → ∀ v : LowerWord, ∃ found, tnSearch t v.text = .ret found ∧
    (found = true ↔ Stored ops v)
  /-- A removal gives NULL exactly when it leaves no word. -/
  remove_null : t ≠ null → ∀ (w : LowerWord) (t' : TrieNode),
    tnRemove t w.text 0 = .ret t' →
      (t' = null ↔ ∀ v, ¬ Stored (ops ++ [.remove w]) v)

/-- **The trie is a set of words**, after every run of inserts and removals. -/
theorem trie_isWordSet (ops : List TrieOp) (t : TrieNode) (hrun : TrieRun ops t) :
    IsWordSet ops t where
  run_returns hne op := by
    cases op with
    | insert w =>
        obtain ⟨t', hret, _⟩ := hrun.holds.insert hne w
        exact ⟨t', hret⟩
    | remove w =>
        obtain ⟨t', hret, _⟩ := hrun.holds.remove hne w
        exact ⟨t', hret⟩
  search hne v :=
    ⟨_, tnSearch_eq hne v, hrun.holds.contains_iff v⟩
  remove_null hne w t' hret := by
    have hnull := (Outcome.Yields.of_ret (hrun.holds.remove hne w) hret).1
    rw [hnull, Set.eq_empty_iff_forall_notMem]
    refine forall_congr' fun v => not_congr ?_
    exact stored_snoc_remove.symm

/-- `ls` goes in, and `l`, which is not there, is removed. -/
theorem trie_isWordSet_ls :
    ∃ t, TrieRun [.insert ⟨.lit ['l', 's'], lower_of_all rfl⟩,
        .remove ⟨.lit ['l'], lower_of_all rfl⟩] t ∧
      IsWordSet [.insert ⟨.lit ['l', 's'], lower_of_all rfl⟩,
        .remove ⟨.lit ['l'], lower_of_all rfl⟩] t := by
  obtain ⟨s, hins, hne, hs⟩ := holds_tnGetNode.insert (by simp [tnGetNode])
    ⟨.lit ['l', 's'], lower_of_all rfl⟩
  obtain ⟨t, hrem, _, _⟩ := hs.remove hne ⟨.lit ['l'], lower_of_all rfl⟩
  have hrun : TrieRun [.insert ⟨.lit ['l', 's'], lower_of_all rfl⟩,
      .remove ⟨.lit ['l'], lower_of_all rfl⟩] t :=
    .next (.next .start ⟨by simp [tnGetNode], hins⟩) ⟨hne, hrem⟩
  exact ⟨t, hrun, trie_isWordSet _ _ hrun⟩

end WizardShell.Ports
