import WizardShell.Ports.Completions
import WizardShell.Verified.Fault
import WizardShell.Verified.FirstWord

/-!
# Completing a word

`completionOf` walks down the trie along the prefix, and `suggestionsRec`
appends letters to it, in the memory it was given in.

The walk ends where the trie says (`completionWalk_lower`), the letters appended
spell the first word of the trie found there (`suggestionsRec_spec`), and so the
result is the word that comes first in the dictionary among those stored
(`completionOf_least`).
-/

namespace WizardShell.Ports

open WizardShell.Verified
open TrieNode (null node)

/-- `isLastNode(root)`: has the node with these children none? -/
def isLastNode (children : Fin 26 → TrieNode) : Bool :=
  decide (∀ i, (children i).isNull = true)

/-- The first index at which there is a child. -/
def firstChild (children : Fin 26 → TrieNode) : Option (Fin 26) :=
  (List.finRange 26).find? fun i => !(children i).isNull

/-- `suggestionsRec(root, prefix)`: the memory of `prefix` afterwards. -/
def suggestionsRec : TrieNode → Block UInt8 → Checked (Block UInt8)
  | null, _ => .error .deref
  | node children isLeaf _, pre =>
      if isLeaf then .ok pre
      else if isLastNode children then .ok pre
      else
        match firstChild children with
        | none => .ok pre
        | some i => do
            let pre ← pre.strcat [97 + UInt8.ofNat i.val]
            suggestionsRec (children i) pre

/-- The loop of `completionOf`: where the path ends, or nothing when a child is
missing on the way. -/
def completionWalk : TrieNode → List UInt8 → Checked (Option TrieNode)
  | null, _ => .error .deref
  | t, [] => .ok (some t)
  | node children _ _, c :: rest => do
      let index ← (inAlphabet (charToIndex c)).orFault .read
      if (children index).isNull then return none
      else completionWalk (children index) rest

/-- `completionOf(root, prefix)`: the memory of `prefix`, to which it points
again. -/
def completionOf (root : TrieNode) (pre : Block UInt8) : Checked (Block UInt8) := do
  let text ← pre.text
  match ← completionWalk root text with
  | none => return pre
  | some null => .error .deref
  | some (node children isLeaf count) =>
      let isLast := isLastNode children
      if isLeaf && isLast then return pre
      else if !isLast then suggestionsRec (node children isLeaf count) pre
      else return pre

/-! ## The walk -/

/-- A walk along lower-case letters ends at what the trie has there. -/
theorem completionWalk_lower (p : List UInt8) :
    ∀ t : TrieNode, t ≠ null → (∀ b ∈ p, isLowerByte b = true) →
      ∃ found, completionWalk t p = .ok found ∧ found ≠ some null ∧
        (found.getD null).forget = t.forget.descend (p.map letter) := by
  induction p with
  | nil =>
      intro t hne _
      refine ⟨some t, ?_, fun h => hne (Option.some.inj h), ?_⟩
      · cases t with
        | null => exact absurd rfl hne
        | node children isLeaf count => rfl
      · rw [List.map_nil, WordTrie.descend_nil]
        rfl
  | cons c p ih =>
      intro t hne hlower
      obtain ⟨hc, hrest⟩ := List.forall_mem_cons.mp hlower
      cases t with
      | null => exact absurd rfl hne
      | node children isLeaf count =>
          simp only [completionWalk, inAlphabet_lower hc,
            Outcome.orFault_ret, Checked.ok_bind]
          by_cases hnull : children (letter c) = null
          · refine ⟨none, by simp [hnull], by simp, ?_⟩
            show WordTrie.null = (children (letter c)).forget.descend (p.map letter)
            rw [hnull, forget_null, WordTrie.descend_null]
          · obtain ⟨found, hwalk, hsome, hforget⟩ := ih (children (letter c)) hnull hrest
            refine ⟨found, ?_, hsome, hforget⟩
            rw [if_neg (by simpa using hnull), hwalk]

/-! ## The letters appended -/

/-- The letter with this place in the alphabet. -/
def letterByte (i : Fin 26) : UInt8 := 97 + UInt8.ofNat i.val

theorem letter_letterByte (i : Fin 26) : letter (letterByte i) = i := by
  revert i
  decide

theorem isLowerByte_letterByte (i : Fin 26) : isLowerByte (letterByte i) = true := by
  revert i
  decide

theorem letterByte_ne_zero (i : Fin 26) : letterByte i ≠ 0 := by
  revert i
  decide

theorem isLastNode_iff {children : Fin 26 → TrieNode} :
    isLastNode children = true ↔ ∀ i, children i = null := by
  simp [isLastNode]

theorem firstChild_eq_some {children : Fin 26 → TrieNode} {i : Fin 26}
    (hchild : children i ≠ null) (hfirst : ∀ j, j < i → children j = null) :
    firstChild children = some i := by
  rw [firstChild, List.find?_eq_some_iff_getElem]
  have hisNull : (children i).isNull = false := by
    rw [← Bool.not_eq_true, TrieNode.isNull_iff]
    exact hchild
  refine ⟨by rw [hisNull]; rfl, i.val, by simp, by simp, fun j hj => ?_⟩
  have hnull := hfirst ⟨j, by omega⟩ hj
  simp [hnull]

/-- **The descent appends the first word.** -/
theorem suggestionsRec_spec {w : List (Fin 26)} {u : WordTrie (Fin 26)}
    (h : WordTrie.FirstWord u w) : ∀ {t : TrieNode} {pre : Block UInt8} {p : List UInt8},
      t.forget = u → HoldsText pre 0 p → p.length + w.length < pre.cap →
      ∃ pre', suggestionsRec t pre = .ok pre' ∧ pre'.cap = pre.cap ∧
        HoldsText pre' 0 (p ++ w.map letterByte) := by
  induction h with
  | here children =>
      intro t pre p ht hholds _
      cases t with
      | null => cases ht
      | node children' isLeaf count =>
          have hleaf : isLeaf = true := (WordTrie.node.inj ht).2
          refine ⟨pre, ?_, rfl, ?_⟩
          · rw [suggestionsRec, if_pos hleaf]
          · rw [List.map_nil, List.append_nil]
            exact hholds
  | @go children a w hchild hfirst _ ih =>
      intro t pre p ht hholds hroom
      cases t with
      | null => cases ht
      | node children' isLeaf count =>
          obtain ⟨hchildren, hleaf⟩ := WordTrie.node.inj ht
          subst hleaf
          have hforget : ∀ i, (children' i).forget = children i := congrFun hchildren
          have hchild' : children' a ≠ null := fun hnull =>
            hchild (by rw [← hforget a, hnull, forget_null])
          have hfirst' : ∀ b, b < a → children' b = null := fun b hb => by
            rw [← forget_eq_null, hforget b]
            exact hfirst b hb
          have hlast : ¬ isLastNode children' = true := fun hlast =>
            hchild' (isLastNode_iff.mp hlast a)
          rw [List.length_cons] at hroom
          obtain ⟨pre₁, hcat, hcap, hholds₁⟩ := Block.strcat_ok hholds [letterByte a]
            (by simpa using (letterByte_ne_zero a).symm)
            (by rw [List.length_singleton]; omega)
          obtain ⟨pre', hrec, hcap', hholds'⟩ := ih (hforget a) hholds₁
            (by rw [hcap, List.length_append, List.length_singleton]; omega)
          refine ⟨pre', ?_, by rw [hcap', hcap], ?_⟩
          · have hcat' : pre.strcat [97 + UInt8.ofNat a.val] = .ok pre₁ := hcat
            simp only [suggestionsRec, Bool.false_eq_true, if_false, if_neg hlast,
              firstChild_eq_some hchild' hfirst', hcat', Checked.ok_bind, hrec]
          · rw [List.map_cons, ← List.singleton_append, ← List.append_assoc]
            exact hholds'

/-! ## The completion -/

/-- Does the word start with these bytes? -/
def LowerWord.StartsWith (v p : LowerWord) : Prop := p.text.bytes <+: v.text.bytes

/-- `v` comes before `w` in the dictionary, or is `w`. -/
def LowerWord.NotAfter (v w : LowerWord) : Prop :=
  v = w ∨ List.Lex (fun b c => b < c) v.text.bytes w.text.bytes

/-- `w` is what `p` should be completed to, when the words `S` are stored. -/
structure IsCompletion (S : Set LowerWord) (p w : LowerWord) : Prop where
  /-- The first word in the dictionary that starts with `p`, … -/
  least : (∃ v ∈ S, v.StartsWith p) → w ∈ S ∧ w.StartsWith p ∧
    ∀ v ∈ S, v.StartsWith p → w.NotAfter v
  /-- … or `p` itself when there is none. -/
  unchanged : (¬ ∃ v ∈ S, v.StartsWith p) → w = p

/-- The word spelt by a path. -/
def spell (w : List (Fin 26)) : LowerWord where
  text :=
    { bytes := w.map letterByte
      noNul := fun h => by
        obtain ⟨i, _, hi⟩ := List.mem_map.mp h
        exact letterByte_ne_zero i hi }
  lower b hb := by
    obtain ⟨i, _, rfl⟩ := List.mem_map.mp hb
    exact isLowerByte_letterByte i

theorem letters_spell (w : List (Fin 26)) : (spell w).letters = w := by
  show (w.map letterByte).map letter = w
  rw [List.map_map, show letter ∘ letterByte = id from funext letter_letterByte, List.map_id]

theorem spell_letters (v : LowerWord) : spell v.letters = v :=
  LowerWord.letters_injective (letters_spell _)

theorem spell_append_bytes (p : LowerWord) (w : List (Fin 26)) :
    (spell (p.letters ++ w)).text.bytes = p.text.bytes ++ w.map letterByte := by
  show (p.letters ++ w).map letterByte = _
  rw [List.map_append]
  exact congrArg (fun v : LowerWord => v.text.bytes ++ w.map letterByte) (spell_letters p)

theorem startsWith_iff {v p : LowerWord} :
    v.StartsWith p ↔ ∃ w, v = spell (p.letters ++ w) := by
  constructor
  · rintro ⟨rest, hrest⟩
    refine ⟨rest.map letter, ?_⟩
    apply LowerWord.letters_injective
    rw [letters_spell]
    show v.text.bytes.map letter = _
    rw [← hrest, List.map_append]
    rfl
  · rintro ⟨w, rfl⟩
    exact ⟨w.map letterByte, (spell_append_bytes p w).symm⟩

theorem letterByte_lt {i j : Fin 26} (h : i < j) : letterByte i < letterByte j := by
  revert i j
  decide

/-- The order of the letters is the order of their bytes. -/
theorem lex_map_letterByte {v w : List (Fin 26)} (h : List.Lex (fun i j => i < j) v w) :
    List.Lex (fun b c => b < c) (v.map letterByte) (w.map letterByte) := by
  induction h with
  | nil => exact .nil
  | rel hlt => exact .rel (letterByte_lt hlt)
  | cons _ ih => exact .cons ih

theorem lex_append {p v w : List UInt8} (h : List.Lex (fun b c => b < c) v w) :
    List.Lex (fun b c => b < c) (p ++ v) (p ++ w) := by
  induction p with
  | nil => exact h
  | cons c p ih => exact .cons ih

/-- The first word below `p` is the completion of `p`. -/
theorem Holds.isCompletion_of_firstWord {t : TrieNode} {S : Set LowerWord} (h : Holds t S)
    {p : LowerWord} {w : List (Fin 26)}
    (hw : WordTrie.FirstWord (t.forget.descend p.letters) w) :
    IsCompletion S p (spell (p.letters ++ w)) := by
  have hstored : ∀ v, (t.forget.descend p.letters).contains v = true ↔
      spell (p.letters ++ v) ∈ S := fun v => by
    rw [WordTrie.contains_descend, ← h.contains_iff, letters_spell]
  have hmem := (hstored w).mp hw.contains
  have hstarts : (spell (p.letters ++ w)).StartsWith p := startsWith_iff.mpr ⟨w, rfl⟩
  refine ⟨fun _ => ⟨hmem, hstarts, fun v hv hstart => ?_⟩,
    fun hnone => absurd ⟨_, hmem, hstarts⟩ hnone⟩
  obtain ⟨v', rfl⟩ := startsWith_iff.mp hstart
  rcases hw.least ((hstored v').mpr hv) with heq | hlex
  · exact .inl (by rw [heq])
  · refine .inr ?_
    rw [spell_append_bytes, spell_append_bytes]
    exact lex_append (lex_map_letterByte hlex)

/-- Where the trie has no word below `p`, `p` is its own completion. -/
theorem Holds.isCompletion_self {t : TrieNode} {S : Set LowerWord} (h : Holds t S)
    {p : LowerWord} (hnone : ∀ w, (t.forget.descend p.letters).contains w = false) :
    IsCompletion S p p where
  least := by
    rintro ⟨v, hv, hstart⟩
    obtain ⟨w, rfl⟩ := startsWith_iff.mp hstart
    have hcontains := (h.contains_iff _).mpr hv
    rw [letters_spell, ← WordTrie.contains_descend, hnone w] at hcontains
    cases hcontains
  unchanged _ := rfl

/-- At the end of the walk `completionOf` does what `suggestionsRec` does. -/
theorem completionOf_found {t : TrieNode} {pre : Block UInt8} {p : List UInt8}
    {children : Fin 26 → TrieNode} {isLeaf : Bool} {count : Nat} (hholds : HoldsText pre 0 p)
    (hwalk : completionWalk t p = .ok (some (node children isLeaf count))) :
    completionOf t pre = suggestionsRec (node children isLeaf count) pre := by
  simp only [completionOf, Block.text_eq hholds, Checked.ok_bind, hwalk]
  cases isLeaf <;> cases hlast : isLastNode children <;> simp [suggestionsRec, hlast]

/-- When a child is missing the prefix stays. -/
theorem completionOf_missing {t : TrieNode} {pre : Block UInt8} {p : List UInt8}
    (hholds : HoldsText pre 0 p) (hwalk : completionWalk t p = .ok none) :
    completionOf t pre = .ok pre := by
  simp only [completionOf, Block.text_eq hholds, Checked.ok_bind, hwalk]
  rfl

/-- What `completionOf` gives on a trie that holds the words `S`. -/
theorem Holds.completionOf {t : TrieNode} {S : Set LowerWord} (h : Holds t S)
    (hne : t ≠ null) (p : LowerWord) :
    ∃ w, IsCompletion S p w ∧ ∀ pre, HoldsText pre 0 p.text.bytes →
      w.text.bytes.length < pre.cap → ∃ pre', completionOf t pre = .ok pre' ∧
        HoldsText pre' 0 w.text.bytes := by
  obtain ⟨found, hwalk, hsome, hforget⟩ := completionWalk_lower p.text.bytes t hne p.lower
  have hdescend : t.forget.descend p.letters = (found.getD null).forget := hforget.symm
  cases found with
  | none =>
      refine ⟨p, h.isCompletion_self fun w => ?_, fun pre hholds _ =>
        ⟨pre, completionOf_missing hholds hwalk, hholds⟩⟩
      rw [hdescend]
      exact WordTrie.contains_null w
  | some u =>
      cases u with
      | null => exact absurd rfl hsome
      | node children isLeaf count =>
          have hu : t.forget.descend p.letters = (node children isLeaf count).forget := hdescend
          rcases (h.rooted hne).descend_cases p.letters with hpruned | ⟨dead, hdead, hnull⟩
          · rw [hu] at hpruned
            obtain ⟨w, hw⟩ := hpruned.exists_firstWord (by simp [TrieNode.forget])
            refine ⟨spell (p.letters ++ w), h.isCompletion_of_firstWord (hu ▸ hw),
              fun pre hholds hroom => ?_⟩
            rw [spell_append_bytes, List.length_append, List.length_map] at hroom
            obtain ⟨pre', hrec, _, hholds'⟩ := suggestionsRec_spec hw rfl hholds hroom
            refine ⟨pre', ?_, ?_⟩
            · rw [completionOf_found hholds hwalk, hrec]
            · rw [spell_append_bytes]
              exact hholds'
          -- Only a root without words is left, and it adds no letter.
          · obtain ⟨hchildren, hleaf⟩ := WordTrie.node.inj (hu.symm.trans hdead)
            have hlast : isLastNode children = true := isLastNode_iff.mpr fun i => by
              rw [← forget_eq_null, congrFun hchildren i, hnull i]
            refine ⟨p, h.isCompletion_self fun w => ?_, fun pre hholds _ =>
              ⟨pre, ?_, hholds⟩⟩
            · rw [hdead]
              cases w with
              | nil => rfl
              | cons a w => simp [WordTrie.contains, hnull a]
            · rw [completionOf_found hholds hwalk, suggestionsRec, hleaf, hlast]
              rfl

/-- **Completion finds the first word.**  After any run of inserts and removals
each prefix has a completion, and `completionOf` writes it wherever there is
room for it. -/
theorem completionOf_least (ops : List TrieOp) (t : TrieNode) (hrun : TrieRun ops t)
    (hne : t ≠ null) (p : LowerWord) :
    ∃ w, IsCompletion { v | Stored ops v } p w ∧
      ∀ pre, HoldsText pre 0 p.text.bytes → w.text.bytes.length < pre.cap →
        ∃ pre', completionOf t pre = .ok pre' ∧ HoldsText pre' 0 w.text.bytes :=
  hrun.holds.completionOf hne p

/-- The trie with `ls` and `ln`, and the prefix `l`. -/
theorem completionOf_least_ls :
    ∃ t, TrieRun [.insert ⟨.lit ['l', 's'], lower_of_all rfl⟩,
        .insert ⟨.lit ['l', 'n'], lower_of_all rfl⟩] t ∧ t ≠ null ∧
      ∃ w, IsCompletion { v | Stored [.insert ⟨.lit ['l', 's'], lower_of_all rfl⟩,
          .insert ⟨.lit ['l', 'n'], lower_of_all rfl⟩] v }
          ⟨.lit ['l'], lower_of_all rfl⟩ w ∧
        ∀ pre, HoldsText pre 0 (CString.lit ['l']).bytes →
          w.text.bytes.length < pre.cap →
          ∃ pre', Ports.completionOf t pre = .ok pre' ∧ HoldsText pre' 0 w.text.bytes := by
  obtain ⟨s, hs, hsne, hholds⟩ := holds_tnGetNode.insert (by simp [tnGetNode])
    ⟨.lit ['l', 's'], lower_of_all rfl⟩
  obtain ⟨t, ht, htne, _⟩ := hholds.insert hsne ⟨.lit ['l', 'n'], lower_of_all rfl⟩
  have hrun : TrieRun [.insert ⟨.lit ['l', 's'], lower_of_all rfl⟩,
      .insert ⟨.lit ['l', 'n'], lower_of_all rfl⟩] t :=
    .next (.next .start ⟨by simp [tnGetNode], hs⟩) ⟨hsne, ht⟩
  exact ⟨t, hrun, htne, completionOf_least _ t hrun htne ⟨.lit ['l'], lower_of_all rfl⟩⟩

end WizardShell.Ports
