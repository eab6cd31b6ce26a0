import WizardShell.Ports.SessionRuns

/-!
# Before the first prompt

`wsh_main` makes the completions trie of its builtins and of the names in the directories
of `PATH`, which it takes out of a copy of the variable with `strtok`, and puts the prompt
together from the name of the user.

Neither buffer is measured: the copy of `PATH` has no cell for its NUL, and the prompt has
80 bytes.  And where `scandir` fails, the array that it did not return is freed.
`startup_iff` says when all goes well, as a condition on the memory behind the copy, and
which words the first prompt then knows.
-/

namespace WizardShell.Ports

open WizardShell.Verified
open TrieNode (null)

/-- What `getenv` gives. -/
structure Environ where
  user : Option CString
  path : Option CString

/-- The words of the shell itself. -/
def shellWords : List CString :=
  [.lit ['c', 'd'], .lit ['l', 'n'], .lit ['b', 'g'], .lit ['r', 'm'],
    .lit ['j', 'o', 'b', 's'], .lit ['f', 'g'], .lit ['c', 'l', 'e', 'a', 'r'],
    .lit ['e', 'x', 'i', 't']]

/-- `tn_insert` for each of the words. -/
def insertWords : List CString → TrieNode → Outcome TrieNode
  | [], t => .ret t
  | word :: rest, t => do
      let t ← tnInsert t word
      insertWords rest t

/-- Is the name, found in a directory of `PATH`, inserted? -/
def isListed (curr : CString) : Bool :=
  !(curr = .lit ['.'] || curr = .lit ['.', '.']) && !(notalpha curr || !strIslower curr)

/-- `":"` -/
def pathDelim (c : UInt8) : Bool := c = 58

/-- The loop over the directories: `path` is what `strtok` returned last and `next` where
it goes on.  Where `scandir` fails there are no names, and `free(fListTemp)` is given a
pointer that was never set. -/
def pathLoop (scandir : CString → Option (List CString)) :
    Nat → Option Nat → Nat → Block UInt8 → TrieNode → Outcome TrieNode
  | 0, _, _, _, _ => .outOfFuel
  | _ + 1, none, _, _, t => .ret t
  | fuel + 1, some path, next, pathvarCpy, t => do
      match scandir (← strAt pathvarCpy path) with
      | none => .undefined
      | some fListTemp =>
          let t ← insertWords (fListTemp.filter isListed) t
          let (path, next, pathvarCpy) ← strtok pathDelim pathvarCpy next
          pathLoop scandir fuel path next pathvarCpy t

/-- `pathvar_cpy`, declared with `strlen(PATH_VAR)` bytes; `room` is how many there are up to
the next object. -/
def copyPath (room : Nat) (stack : Nat → UInt8) (pathVar : CString) : Checked (Block UInt8) := do
  let pathvarCpy ← (Block.alloc room stack).store 0 0
  pathvarCpy.strcpy pathVar.bytes

/-- The trie, from `tn_getNode()` to the end of the loop.  There are as many turns as bytes at
most. -/
def startCompletions (scandir : CString → Option (List CString)) (room : Nat)
    (stack : Nat → UInt8) (pathVar : CString) : Outcome TrieNode := do
  let completions ← insertWords shellWords tnGetNode
  let pathvarCpy ← (copyPath room stack pathVar).outcome
  if (← pathvarCpy.read 0) ≠ 0 then
    let turns := pathvarCpy.cap + 1
    let (path, next, pathvarCpy) ← strtok pathDelim pathvarCpy 0
    pathLoop scandir turns path next pathvarCpy completions
  else return completions

/-- `" @ wsh % "` -/
def bangEnd : CString := .lit [' ', '@', ' ', 'w', 's', 'h', ' ', '%', ' ']

/-- `bang` -/
def makeBang (stack : Nat → UInt8) (uid : CString) : Checked (Block UInt8) := do
  let bang ← (Block.alloc 80 stack).strcpy [10]
  let bang ← bang.strcat uid.bytes
  bang.strcat bangEnd.bytes

/-- `wsh_main` from the trie to the first prompt: the trie, and the prompt. -/
def startup (scandir : CString → Option (List CString)) (room : Nat)
    (stack : Nat → UInt8) (environ : Environ) : Outcome (TrieNode × Block UInt8) :=
  match environ.path with
  | none => .undefined
  | some pathVar => do
      let completions ← startCompletions scandir room stack pathVar
      let bang ← (makeBang stack (environ.user.getD (.lit ['u', 's', 'e', 'r']))).outcome
      return (completions, bang)

/-! ## The words -/

/-- The words among these strings. -/
def wordsIn (names : List CString) : Set LowerWord := { w | w.text ∈ names }

theorem wordsIn_cons (w : LowerWord) (names : List CString) :
    wordsIn (w.text :: names) = Insert.insert w (wordsIn names) := by
  ext v
  simp only [wordsIn, List.mem_cons, Set.mem_ofPred_eq, Set.mem_insert_iff]
  exact or_congr_left ⟨LowerWord.ext, congrArg _⟩

theorem exists_word_of_isListed {curr : CString} (h : isListed curr = true) :
    ∃ w : LowerWord, w.text = curr := by
  simp only [isListed, Bool.and_eq_true, Bool.not_eq_true', Bool.or_eq_false_iff] at h
  obtain ⟨_, halpha, hlower⟩ := h
  exact exists_word_of_guarded halpha (by simpa using hlower)

theorem letter_of_isLowerByte {b : UInt8} (h : isLowerByte b = true) :
    isalpha b = true ∧ tolower b = b := by
  simp only [isLowerByte, Bool.and_eq_true, decide_eq_true_eq] at h
  have hupper : ¬ (65 ≤ b ∧ b ≤ 90) := fun hle => by
    have h97 := UInt8.le_trans h.1 hle.2
    exact absurd h97 (by decide)
  constructor
  · simp [isalpha, h]
  · simp only [tolower, Bool.and_eq_true, decide_eq_true_eq, if_neg hupper]

/-- Every lower-case word is listed. -/
theorem isListed_word (w : LowerWord) : isListed w.text = true := by
  have hdot : (46 : UInt8) ∉ w.text.bytes := fun hmem => by
    have hlower := w.lower 46 hmem
    exact absurd hlower (by decide)
  have hne : ∀ name : CString, (46 : UInt8) ∈ name.bytes → w.text ≠ name := by
    rintro name hmem rfl
    exact hdot hmem
  have halpha : notalpha w.text = false := by
    rw [notalpha, List.any_eq_false]
    intro b hb
    simp [(letter_of_isLowerByte (w.lower b hb)).1]
  have hlower : strIslower w.text = true := by
    rw [strIslower, List.all_eq_true]
    intro b hb
    simp [(letter_of_isLowerByte (w.lower b hb)).2]
  have hone : w.text ≠ .lit ['.'] := hne _ (by decide)
  have htwo : w.text ≠ .lit ['.', '.'] := hne _ (by decide)
  simp [isListed, hone, htwo, halpha, hlower]

theorem wordsIn_filter (names : List CString) :
    wordsIn (names.filter isListed) = wordsIn names := by
  ext w
  simp [wordsIn, isListed_word]

/-- Words that are inserted are added. -/
theorem insertWords_spec {words : List CString}
    (h : ∀ name ∈ words, ∃ w : LowerWord, w.text = name) :
    ∀ {t : TrieNode} {S : Set LowerWord}, Holds t S → t ≠ null →
      ∃ t', insertWords words t = .ret t' ∧ t' ≠ null ∧ Holds t' (S ∪ wordsIn words) := by
  induction words with
  | nil =>
      intro t S hholds hne
      have hnone : wordsIn [] = ∅ := by simp [wordsIn]
      exact ⟨t, rfl, hne, by rwa [hnone, Set.union_empty]⟩
  | cons word rest ih =>
      intro t S hholds hne
      obtain ⟨w, rfl⟩ := h word List.mem_cons_self
      obtain ⟨s, hs, hsne, hsholds⟩ := hholds.insert hne w
      obtain ⟨t', ht', hne', hholds'⟩ :=
        ih (fun name hname => h name (List.mem_cons_of_mem _ hname)) hsholds hsne
      refine ⟨t', by rw [insertWords, hs, Outcome.ret_bind, ht'], hne', ?_⟩
      rw [wordsIn_cons, Set.union_insert, ← Set.insert_union]
      exact hholds'

/-! ## The directories -/

section Path

variable {scandir : CString → Option (List CString)}

/-- The words in the directories. -/
def dirWords (scandir : CString → Option (List CString)) (dirs : List CString) : Set LowerWord :=
  { w | ∃ dir ∈ dirs, ∃ names, scandir dir = some names ∧ w.text ∈ names }

theorem dirWords_cons {dir : CString} {names : List CString} (h : scandir dir = some names)
    (dirs : List CString) :
    dirWords scandir (dir :: dirs) = wordsIn names ∪ dirWords scandir dirs := by
  ext w
  simp [dirWords, wordsIn, h]

/-- **The loop over the directories** returns exactly when each of them can be read, and
then their words are added. -/
theorem pathLoop_spaced {dirs : List CString} :
    ∀ {fuel i : Nat} {b : Block UInt8} {text : List UInt8} {t : TrieNode} {S : Set LowerWord},
      HoldsText b i text → Spaced pathDelim text (dirs.map CString.bytes) →
      dirs.length < fuel → Holds t S → t ≠ null →
      ((∃ t', (strtok pathDelim b i >>= fun r =>
          pathLoop scandir fuel r.1 r.2.1 r.2.2 t) = .ret t') ↔
        ∀ dir ∈ dirs, scandir dir ≠ none) ∧
      ∀ t', (strtok pathDelim b i >>= fun r =>
          pathLoop scandir fuel r.1 r.2.1 r.2.2 t) = .ret t' →
        t' ≠ null ∧ Holds t' (S ∪ dirWords scandir dirs) := by
  induction dirs with
  | nil =>
      intro fuel i b text t S h hspaced hfuel hholds hne
      obtain ⟨fuel, rfl⟩ := Nat.exists_eq_succ_of_ne_zero (Nat.ne_of_gt hfuel)
      have hend : (strtok pathDelim b i >>= fun r =>
          pathLoop scandir (fuel + 1) r.1 r.2.1 r.2.2 t) = .ret t := by
        cases hspaced with
        | blank hall =>
            rw [strtok_none h (by decide) hall]
            rfl
      have hnone : dirWords scandir [] = ∅ := by simp [dirWords]
      rw [hend]
      refine ⟨iff_of_true ⟨t, rfl⟩ (by simp), fun t' ht' => ?_⟩
      cases ht'
      exact ⟨hne, by rwa [hnone, Set.union_empty]⟩
  | cons dir dirs ih =>
      intro fuel i b text t S h hspaced hfuel hholds hne
      obtain ⟨fuel, rfl⟩ := Nat.exists_eq_succ_of_ne_zero (Nat.ne_of_gt (Nat.zero_lt_of_lt hfuel))
      obtain ⟨start, next, b', rest, hstrtok, htok, hrest, hspaced'⟩ := strtok_token h hspaced
      rw [hstrtok]
      simp only [Outcome.ret_bind, pathLoop, strAt_eq htok]
      cases hdir : scandir dir with
      | none =>
          simp only
          refine ⟨iff_of_false (by simp) fun hall => hall dir List.mem_cons_self hdir, ?_⟩
          intro t' ht'
          cases ht'
      | some names =>
          have hwords : ∀ name ∈ names.filter isListed, ∃ w : LowerWord, w.text = name :=
            fun name hname => exists_word_of_isListed (List.mem_filter.mp hname).2
          obtain ⟨t₁, hinsert, hne₁, hholds₁⟩ := insertWords_spec hwords hholds hne
          rw [wordsIn_filter] at hholds₁
          obtain ⟨hiff, hafter⟩ :=
            ih hrest hspaced' (Nat.lt_of_succ_lt_succ hfuel) hholds₁ hne₁
          simp only [hinsert, Outcome.ret_bind]
          refine ⟨?_, fun t' ht' => ?_⟩
          · rw [List.forall_mem_cons]
            exact hiff.trans (by simp [hdir])
          · rw [dirWords_cons hdir, ← Set.union_assoc]
            exact hafter t' ht'

theorem copyPath_ok {room : Nat} (stack : Nat → UInt8) {pathVar : CString}
    (h : pathVar.bytes.length < room) :
    ∃ b, copyPath room stack pathVar = .ok b ∧ HoldsText b 0 pathVar.bytes := by
  have hroom : 0 + pathVar.bytes.length < ((Block.alloc room stack).set 0 0).cap := by
    rw [Nat.zero_add]
    exact h
  refine ⟨_, ?_, Block.holdsText_put pathVar.noNul hroom⟩
  rw [copyPath, Block.store_ok (Nat.zero_lt_of_lt h), Checked.ok_bind]
  exact Block.strcpy_ok h

theorem copyPath_error {room : Nat} {stack : Nat → UInt8} {pathVar : CString}
    (h : room ≤ pathVar.bytes.length) : copyPath room stack pathVar = .error .write := by
  rw [copyPath]
  by_cases hzero : 0 < room
  · rw [Block.store_ok hzero, Checked.ok_bind, Block.strcpy_error h]
  · rw [Block.store_error (Nat.le_of_not_lt hzero), Checked.error_bind]

theorem lower_shellWords : ∀ name ∈ shellWords, ∃ w : LowerWord, w.text = name := by
  have hall : ∀ name ∈ shellWords, name.bytes.all isLowerByte = true := by decide
  exact fun name hname => ⟨⟨name, lower_of_all (hall name hname)⟩, rfl⟩

/-- The trie is made exactly when the copy fits and every directory can be read. -/
theorem startCompletions_iff (scandir : CString → Option (List CString)) (room : Nat)
    (stack : Nat → UInt8) {pathVar : CString} {dirs : List CString}
    (hspaced : Spaced pathDelim pathVar.bytes (dirs.map CString.bytes)) :
    ((∃ t, startCompletions scandir room stack pathVar = .ret t) ↔
      pathVar.bytes.length < room ∧ ∀ dir ∈ dirs, scandir dir ≠ none) ∧
    ∀ t, startCompletions scandir room stack pathVar = .ret t →
      t ≠ null ∧ Holds t (wordsIn shellWords ∪ dirWords scandir dirs) := by
  obtain ⟨t₀, hinsert, hne, hholds⟩ :=
    insertWords_spec lower_shellWords holds_tnGetNode TrieNode.noConfusion
  rw [Set.empty_union] at hholds
  rw [startCompletions, hinsert, Outcome.ret_bind]
  by_cases hroom : pathVar.bytes.length < room
  · obtain ⟨b, hcopy, htext⟩ := copyPath_ok stack hroom
    have hinside := htext.inside
    rw [hcopy, Checked.outcome, Outcome.ret_bind,
      Block.read_of_lt (by omega : 0 < b.cap), Outcome.ret_bind]
    have hturns : dirs.length < b.cap + 1 := by
      have hle := hspaced.length_le
      rw [List.length_map] at hle
      omega
    obtain ⟨hiff, hafter⟩ :=
      pathLoop_spaced htext hspaced hturns hholds hne
    by_cases hzero : b.cell 0 = 0
    · -- An empty `PATH` has no directories.
      have hnil : pathVar.bytes = [] := holdsText_unique htext (HoldsText.nil_iff.mpr
        ⟨by omega, hzero⟩)
      have hnone : dirs = [] := by
        have hle := hspaced.length_le
        rw [hnil, List.length_map] at hle
        exact List.length_eq_zero_iff.mp (Nat.le_zero.mp hle)
      subst hnone
      have hwords : dirWords scandir [] = ∅ := by simp [dirWords]
      rw [if_neg (not_not_intro hzero), hwords, Set.union_empty]
      refine ⟨iff_of_true ⟨t₀, rfl⟩ ⟨hroom, by simp⟩, fun t ht => ?_⟩
      cases ht
      exact ⟨hne, hholds⟩
    · rw [if_pos hzero]
      exact ⟨hiff.trans (by simp [hroom]), hafter⟩
  · rw [copyPath_error (Nat.le_of_not_lt hroom)]
    refine ⟨iff_of_false ?_ fun h => hroom h.1, fun t ht => by cases ht⟩
    rintro ⟨t, ht⟩
    cases ht

end Path

/-! ## The prompt -/

/-- The prompt is written exactly when the name has fewer than 70 bytes. -/
theorem makeBang_iff (stack : Nat → UInt8) (uid : CString) :
    ((∃ bang, makeBang stack uid = .ok bang) ↔ uid.bytes.length < 70) ∧
    ∀ bang, makeBang stack uid = .ok bang →
      HoldsText bang 0 ([10] ++ uid.bytes ++ bangEnd.bytes) := by
  have hfirst : (Block.alloc 80 stack).strcpy [10] =
      .ok ((Block.alloc 80 stack).put 0 ([10] ++ [0])) := Block.strcpy_ok (by simp)
  have htext : HoldsText ((Block.alloc 80 stack).put 0 ([10] ++ [0])) 0 [10] :=
    Block.holdsText_put (by simp) (by simp)
  have hend : bangEnd.bytes.length = 9 := by rfl
  rw [makeBang, hfirst, Checked.ok_bind]
  generalize hb : (Block.alloc 80 stack).put 0 ([10] ++ [0]) = b at htext ⊢
  have hcap : b.cap = 80 := by rw [← hb]; rfl
  by_cases hname : uid.bytes.length < 79
  · obtain ⟨b₁, hcat, hcap₁, htext₁⟩ := Block.strcat_ok htext uid.bytes uid.noNul
      (by rw [hcap, List.length_singleton]; omega)
    rw [hcat, Checked.ok_bind]
    by_cases hfits : uid.bytes.length < 70
    · obtain ⟨b₂, hcat₂, _, htext₂⟩ := Block.strcat_ok htext₁ bangEnd.bytes bangEnd.noNul (by
        rw [hcap₁, hcap, List.length_append, List.length_singleton, hend]
        omega)
      rw [hcat₂]
      refine ⟨iff_of_true ⟨b₂, rfl⟩ hfits, fun bang hbang => ?_⟩
      cases hbang
      exact htext₂
    · rw [Block.strcat_error htext₁ (by
        rw [hcap₁, hcap, List.length_append, List.length_singleton, hend]
        omega)]
      exact ⟨iff_of_false (by simp) hfits, fun bang hbang => by cases hbang⟩
  · rw [Block.strcat_error htext (by rw [hcap, List.length_singleton]; omega),
      Checked.error_bind]
    exact ⟨iff_of_false (by simp) (by omega), fun bang hbang => by cases hbang⟩

/-! ## The first prompt -/

/-- The name of the user. -/
def Environ.uid (environ : Environ) : CString := environ.user.getD (.lit ['u', 's', 'e', 'r'])

/-- The trie and the prompt text are made one after the other. -/
theorem startup_eq_ret {scandir : CString → Option (List CString)} {room : Nat}
    {stack : Nat → UInt8} {environ : Environ} {pathVar : CString} {completions : TrieNode}
    {bang : Block UInt8} (hpath : environ.path = some pathVar) :
    startup scandir room stack environ = .ret (completions, bang) ↔
      startCompletions scandir room stack pathVar = .ret completions ∧
        makeBang stack environ.uid = .ok bang := by
  rw [startup, hpath]
  simp only [Outcome.bind_eq_ret, Checked.outcome_eq_ret, Outcome.pure_eq, Outcome.ret.injEq,
    Prod.mk.injEq]
  constructor
  · rintro ⟨_, ht, _, hb, rfl, rfl⟩
    exact ⟨ht, hb⟩
  · rintro ⟨ht, hb⟩
    exact ⟨_, ht, _, hb, rfl, rfl⟩

/-- **When the shell comes to its first prompt**: exactly when the memory behind the copy of
`PATH` has a byte to spare, every directory of `PATH` can be read, and the name of the user
has fewer than 70 bytes.  The prompt then shows the name, and a session begins with the
words of the shell and the lower-case names in the directories. -/
theorem startup_iff (scandir : CString → Option (List CString)) (room : Nat)
    (stack : Nat → UInt8) (environ : Environ) (pathVar : CString) (dirs : List CString)
    (hpath : environ.path = some pathVar)
    (hspaced : Spaced pathDelim pathVar.bytes (dirs.map CString.bytes)) :
    ((∃ r, startup scandir room stack environ = .ret r) ↔
      pathVar.bytes.length < room ∧ (∀ dir ∈ dirs, scandir dir ≠ none) ∧
        environ.uid.bytes.length < 70) ∧
    ∀ completions bang, startup scandir room stack environ = .ret (completions, bang) →
      HoldsText bang 0 ([10] ++ environ.uid.bytes ++ bangEnd.bytes) ∧
      ∀ fuel staleAliases staleBuiltins pgrp s,
        Session.start fuel staleAliases staleBuiltins completions pgrp = .ret s →
        s.Shows staleAliases (View.start (wordsIn shellWords ∪ dirWords scandir dirs) pgrp) := by
  obtain ⟨htrie, hwords⟩ := startCompletions_iff scandir room stack hspaced
  obtain ⟨hbang, htext⟩ := makeBang_iff stack environ.uid
  refine ⟨?_, fun completions bang hret => ?_⟩
  · rw [Prod.exists]
    simp only [startup_eq_ret hpath, exists_and_left, exists_and_right]
    rw [htrie, hbang, and_assoc]
  · obtain ⟨ht, hb⟩ := (startup_eq_ret hpath).mp hret
    obtain ⟨hne, hholds⟩ := hwords completions ht
    exact ⟨htext bang hb, fun _ _ _ _ _ hstart => Session.start_shows hne hholds hstart⟩

/-- `PATH` is `/a:/b:`. -/
def twoDirs : Environ := ⟨none, some (.lit ['/', 'a', ':', '/', 'b', ':'])⟩

/-- The directory `/a` has `ls` and `g++`, the other one is empty. -/
def twoListings (dir : CString) : Option (List CString) :=
  if dir = .lit ['/', 'a'] then some [.lit ['l', 's'], .lit ['g', '+', '+']] else some []

theorem twoDirs_spaced : Spaced pathDelim (CString.lit ['/', 'a', ':', '/', 'b', ':']).bytes
    ([CString.lit ['/', 'a'], .lit ['/', 'b']].map CString.bytes) := by
  have hplain : ∀ tok ∈ [CString.lit ['/', 'a'], .lit ['/', 'b']].map CString.bytes,
      tok ≠ [] ∧ (tok.all fun c => !pathDelim c) = true := by decide
  refine spaced_flatMap (d := 58) rfl fun tok htok => ⟨(hplain tok htok).1, fun c hc => ?_⟩
  simpa using List.all_eq_true.mp (hplain tok htok).2 c hc

theorem startup_iff_twoDirs :
    twoDirs.path = some (.lit ['/', 'a', ':', '/', 'b', ':']) ∧
    Spaced pathDelim (CString.lit ['/', 'a', ':', '/', 'b', ':']).bytes
      ([CString.lit ['/', 'a'], .lit ['/', 'b']].map CString.bytes) ∧
    ∃ r, startup twoListings 7 (fun _ => 255) twoDirs = .ret r := by
  refine ⟨rfl, twoDirs_spaced, (startup_iff twoListings 7 (fun _ => 255) twoDirs _ _ rfl
    twoDirs_spaced).1.mpr ⟨by decide, fun dir _ => ?_, by decide⟩⟩
  unfold twoListings
  split <;> simp

end WizardShell.Ports
