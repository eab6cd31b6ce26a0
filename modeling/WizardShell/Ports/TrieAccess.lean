import WizardShell.Ports.CompletionOf
import WizardShell.Ports.CompletionRefresh

/-!
# What reaches the trie

Names of files reach the trie through `notalpha` and `str_islower`, so all of
their bytes are letters.  The last word of an edited line reaches it through Tab,
and nothing looks at its bytes: the walk leaves the alphabet at the first byte
that is no letter, unless a child is missing before (`completionWalk_read_iff`).
-/

namespace WizardShell.Ports

open WizardShell.Verified
open TrieNode (null node)

/-- The last word of a line, as `get_line` finds it on Tab. -/
def lastWord (line : CString) : CString := (line.strrchrNext 32).getD line

/-- A call with which the shell passes a string to the trie. -/
inductive TrieCall where
  /-- `tn_insert(completions, name)` -/
  | insert (name : CString)
  /-- `tn_remove(completions, name, 0)` -/
  | remove (name : CString)
  /-- `completionOf(completions, prefix)` with the last word of the line. -/
  | complete (line : CString)

/-- What the code in front of the call has made sure of. -/
def TrieCall.Guarded : TrieCall → Prop
  | insert name => notalpha name = false ∧ strIslower name = true
  | remove name => notalpha name = false ∧ strIslower name = true
  | complete line => ∃ b ∈ line.bytes, b ≠ 32 ∧ b ≠ 9

/-- Every index the call uses on `children` is in `0 .. 25`: no access outside
is made. -/
def TrieCall.Inside (t : TrieNode) : TrieCall → Prop
  | insert name => tnInsert t name ≠ .undefined
  | remove name => tnRemove t name 0 ≠ .undefined
  | complete line => ∀ pre, HoldsText pre 0 (lastWord line).bytes →
      completionOf t pre ≠ .error .read

/-- The first byte of the word that is no letter of `a .. z` stands behind a
path the trie has. -/
def LeavesAlphabet (t : TrieNode) (word : List UInt8) : Prop :=
  ∃ p c rest, word = p ++ c :: rest ∧ (∀ b ∈ p, isLowerByte b = true) ∧
    isLowerByte c = false ∧ t.forget.descend (p.map letter) ≠ .null

/-- `A` and Tab, in the shell's first trie: the index is -32. -/
theorem not_inside_upper :
    ∃ t, tnInsert tnGetNode (.lit ['c', 'd']) = .ret t ∧
      (TrieCall.complete (.lit ['A'])).Guarded ∧
      ¬ (TrieCall.complete (.lit ['A'])).Inside t := by
  refine ⟨_, rfl, ⟨65, by decide, by decide, by decide⟩, fun h => ?_⟩
  exact h ⟨2, fun i => if i = 0 then 65 else 0⟩
    ⟨⟨rfl, by decide, trivial⟩, by decide, rfl⟩ rfl

/-! ## Names -/

theorem insert_inside {t : TrieNode} (hne : t ≠ null) {name : CString}
    (h : (TrieCall.insert name).Guarded) : (TrieCall.insert name).Inside t := by
  obtain ⟨w, rfl⟩ := exists_word_of_guarded h.1 h.2
  obtain ⟨t', hret, _⟩ := forget_tnInsert hne w
  show tnInsert t w.text ≠ .undefined
  rw [hret]
  simp

theorem remove_inside (t : TrieNode) {name : CString}
    (h : (TrieCall.remove name).Guarded) : (TrieCall.remove name).Inside t := by
  obtain ⟨w, rfl⟩ := exists_word_of_guarded h.1 h.2
  obtain ⟨t', hret, _⟩ := forget_tnRemove t w
  show tnRemove t w.text 0 ≠ .undefined
  rw [hret]
  simp

/-! ## Words of a line -/

theorem inAlphabet_not_lower {b : UInt8} (h : isLowerByte b = false) :
    inAlphabet (charToIndex b) = .undefined := by
  have hb := b.toNat_lt
  have h97 : (97 : UInt8).toNat = 97 := rfl
  have h122 : (122 : UInt8).toNat = 122 := rfl
  have h128 : (128 : UInt8).toNat = 128 := rfl
  simp only [isLowerByte, Bool.and_eq_false_iff, decide_eq_false_iff_not,
    UInt8.le_iff_toNat_le, h97, h122] at h
  refine dif_neg fun hrange => ?_
  unfold charToIndex at hrange
  split at hrange
  · omega
  · rename_i hbig
    rw [UInt8.lt_iff_toNat_lt, h128] at hbig
    omega

/-- When the walk leaves the alphabet. -/
theorem completionWalk_read_iff (word : List UInt8) :
    ∀ t : TrieNode, t ≠ null →
      (completionWalk t word = .error .read ↔ LeavesAlphabet t word) := by
  induction word with
  | nil =>
      intro t hne
      cases t with
      | null => exact absurd rfl hne
      | node children isLeaf count => simp [completionWalk, LeavesAlphabet]
  | cons c word ih =>
      intro t hne
      cases t with
      | null => exact absurd rfl hne
      | node children isLeaf count =>
          cases hlower : isLowerByte c with
          | false =>
              refine iff_of_true ?_ ⟨[], c, word, rfl, by simp, hlower, ?_⟩
              · simp [completionWalk, inAlphabet_not_lower hlower]
              · simp [TrieNode.forget]
          | true =>
              -- The byte is a letter, so the word leaves the alphabet below.
              have hbelow : LeavesAlphabet (node children isLeaf count) (c :: word) ↔
                  LeavesAlphabet (children (letter c)) word := by
                constructor
                · rintro ⟨p, d, rest, hword, hp, hd, hpath⟩
                  cases p with
                  | nil =>
                      obtain ⟨rfl, _⟩ := List.cons.inj hword
                      rw [hlower] at hd
                      cases hd
                  | cons b p =>
                      obtain ⟨rfl, hrest⟩ := List.cons.inj hword
                      exact ⟨p, d, rest, hrest, fun x hx => hp x (by simp [hx]), hd, hpath⟩
                · rintro ⟨p, d, rest, rfl, hp, hd, hpath⟩
                  refine ⟨c :: p, d, rest, rfl, fun x hx => ?_, hd, hpath⟩
                  rcases List.mem_cons.mp hx with rfl | hx
                  · exact hlower
                  · exact hp x hx
              simp only [completionWalk, inAlphabet_lower hlower, Outcome.orFault_ret,
                Checked.ok_bind]
              by_cases hnull : children (letter c) = null
              · rw [hbelow, if_pos (by simpa using hnull), hnull]
                simp [LeavesAlphabet]
              · rw [hbelow, if_neg (by simpa using hnull), ih _ hnull]

/-- Appending letters does not lose the NUL. -/
theorem suggestionsRec_ne_read (t : TrieNode) : ∀ {pre : Block UInt8} {p : List UInt8},
    HoldsText pre 0 p → suggestionsRec t pre ≠ .error .read := by
  induction t with
  | null =>
      intro pre p _
      simp [suggestionsRec]
  | node children isLeaf count ih =>
      intro pre p hholds
      unfold suggestionsRec
      split
      · simp
      · split
        · simp
        · split
          · simp
          · rename_i i _
            by_cases hroom : p.length + 1 < pre.cap
            · obtain ⟨pre', hcat, _, hholds'⟩ := Block.strcat_ok hholds [letterByte i]
                (by simpa using (letterByte_ne_zero i).symm) hroom
              have hcat' : pre.strcat [97 + UInt8.ofNat i.val] = .ok pre' := hcat
              rw [hcat', Checked.ok_bind]
              exact ih i hholds'
            · have hcat : pre.strcat [97 + UInt8.ofNat i.val] = .error .write := by
                rw [Block.strcat, Block.strlen_eq hholds, Checked.ok_bind]
                exact Block.writeBytes_error (by simp; omega)
              rw [hcat, Checked.error_bind]
              simp

theorem completionOf_read_iff {t : TrieNode} (hne : t ≠ null) {pre : Block UInt8}
    {word : List UInt8} (hholds : HoldsText pre 0 word) :
    completionOf t pre = .error .read ↔ LeavesAlphabet t word := by
  rw [← completionWalk_read_iff word t hne]
  cases hwalk : completionWalk t word with
  | error e =>
      have herror : completionOf t pre = .error e := by
        simp only [completionOf, Block.text_eq hholds, Checked.ok_bind, hwalk,
          Checked.error_bind]
      rw [herror, Except.error.injEq, Except.error.injEq]
  | ok found =>
      refine iff_of_false ?_ (by simp)
      cases found with
      | none => simp [completionOf_missing hholds hwalk]
      | some u =>
          cases u with
          | null => simp [completionOf, Block.text_eq hholds, hwalk]
          | node children isLeaf count =>
              rw [completionOf_found hholds hwalk]
              exact suggestionsRec_ne_read _ hholds

/-- Some memory holds a given text. -/
theorem exists_holdsText (s : CString) : ∃ pre, HoldsText pre 0 s.bytes :=
  ⟨_, Block.holdsText_put (b := .alloc (s.bytes.length + 1) fun _ => 0) s.noNul (by simp)⟩

/-- The calls that stay inside: all with a name, and a completion unless the word
leaves the alphabet on a path of the trie. -/
def TrieCall.StaysOnLetters (t : TrieNode) : TrieCall → Prop
  | insert _ => True
  | remove _ => True
  | complete line => ¬ LeavesAlphabet t (lastWord line).bytes

/-- **When a call stays inside the alphabet**, for every trie and every string
the shell can pass. -/
theorem inside_iff (t : TrieNode) (hne : t ≠ null) (call : TrieCall)
    (hguarded : call.Guarded) : call.Inside t ↔ call.StaysOnLetters t := by
  cases call with
  | insert name => exact iff_of_true (insert_inside hne hguarded) trivial
  | remove name => exact iff_of_true (remove_inside t hguarded) trivial
  | complete line =>
      constructor
      · intro hinside hleaves
        obtain ⟨pre, hholds⟩ := exists_holdsText (lastWord line)
        exact hinside pre hholds ((completionOf_read_iff hne hholds).mpr hleaves)
      · intro hstays pre hholds hread
        exact hstays ((completionOf_read_iff hne hholds).mp hread)

/-- The line `cat a` in a trie without words. -/
theorem inside_iff_cat :
    tnGetNode ≠ null ∧
      (TrieCall.complete (.lit ['c', 'a', 't', ' ', 'a'])).Guarded ∧
      ((TrieCall.complete (.lit ['c', 'a', 't', ' ', 'a'])).Inside tnGetNode ↔
        (TrieCall.complete (.lit ['c', 'a', 't', ' ', 'a'])).StaysOnLetters tnGetNode) :=
  ⟨TrieNode.noConfusion, ⟨99, by decide, by decide, by decide⟩,
    inside_iff tnGetNode TrieNode.noConfusion _ ⟨99, by decide, by decide, by decide⟩⟩

end WizardShell.Ports
