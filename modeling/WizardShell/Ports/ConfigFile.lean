import WizardShell.Ports.ProcessAlias
import WizardShell.Ports.Tokenize
import WizardShell.Verified.Fault

/-!
# The configuration file

The loop of `wsh_rc_init` reads one line after another into the same buffer, tokenizes it
there, and hands the tokens on; whatever is kept of them points into the buffer.  So the
definitions in the alias table are arrays of indices into it, and `HOME_PATH` may be one.

Which handler gets a line is decided by `strcmp`, taken as if it said that the strings are
equal: a line that is no `alias` line goes to `process_alias`, and an `alias` line is
taken for the other kind.

`readsConfig_iff`: the file means what it says exactly when it has no `alias` line, and
its last `home` line names what `HOME_PATH` was before.
-/

namespace WizardShell.Ports

open WizardShell.Verified

/-! ## `process_alias` with pointers -/

section Pointers

variable {P : Type}

/-- The copying loop: `i` indexes the tokens, the definition starts at 3. -/
def copyDefinitionAt : List P → Nat → Nat → Block (Option P) → Outcome (Block (Option P))
  | [], _, _, tokDef => .ret tokDef
  | tok :: rest, i, bufsize, tokDef => do
      let tokDef ← tokDef.write (i - 3) (some tok)
      if i + 1 ≥ bufsize then
        copyDefinitionAt rest (i + 1) (bufsize + psBfs) (tokDef.resize (bufsize + psBfs))
      else copyDefinitionAt rest (i + 1) bufsize tokDef

/-- `print_arr` -/
def printArrAt (read : P → Outcome CString) (out : Block (Option P)) :
    Outcome (List CString) := do
  let ps ← out.contents
  ps.mapM read

/-- `process_alias(tok_count, tokens, suppress_output)` on pointers that are read by
`read`. -/
def processAliasAt (read : P → Outcome CString) (fuel : Nat) (fresh : Nat → Option P)
    (alTable : AliasTable (Block (Option P))) (tokCount : Nat) (tokens : List P)
    (suppressOutput : Bool) : Outcome (Int × AliasTable (Block (Option P))) :=
  if tokCount < 4 then .ret (-1, alTable)
  else
    match tokens with
    | _ :: name :: equals :: definition => do
        if (← read equals) ≠ tokEquals then return (-1, alTable)
        else
          let tokDef ← copyDefinitionAt definition 3 psBfs (Block.alloc psBfs fresh)
          let (ret, alTable) ← atSet fuel alTable (← read name) tokDef
          if ret ≠ 0 then return (-1, alTable)
          if !suppressOutput then
            let _ ← printArrAt read tokDef
          return (0, alTable)
    | _ => .undefined

theorem copyDefinitionAt_eq (tokens : List CString) : ∀ (i bufsize : Nat) (b : Definition),
    copyDefinitionAt tokens i bufsize b = copyDefinition tokens i bufsize b := by
  induction tokens with
  | nil => exact fun _ _ _ => rfl
  | cons tok rest ih =>
      intro i bufsize b
      simp only [copyDefinitionAt, copyDefinition, ih]

theorem mapM_ret (words : List CString) : words.mapM Outcome.ret = .ret words := by
  induction words with
  | nil => rfl
  | cons word rest ih => rw [List.mapM_cons, ih]; rfl

/-- With the strings themselves for pointers it is the model of `ProcessAlias`. -/
theorem processAliasAt_ret (fuel : Nat) (fresh : Nat → Option CString)
    (t : AliasTable Definition) (tokCount : Nat) (tokens : List CString) (suppress : Bool) :
    processAliasAt .ret fuel fresh t tokCount tokens suppress =
      processAlias fuel fresh t tokCount tokens suppress := by
  have hprint : ∀ b : Definition, printArrAt .ret b = printArr b := by
    intro b
    rw [printArrAt, printArr]
    cases b.contents <;> simp [mapM_ret]
  unfold processAliasAt processAlias
  by_cases hcount : tokCount < 4
  · rw [if_pos hcount, if_pos hcount]
  rw [if_neg hcount, if_neg hcount]
  rcases tokens with _ | ⟨cmd, _ | ⟨name, _ | ⟨equals, definition⟩⟩⟩
  · rfl
  · rfl
  · rfl
  · simp only [Outcome.ret_bind, copyDefinitionAt_eq, hprint, Outcome.pure_eq]

end Pointers

/-! ## The loop -/

/-- `"alias"` -/
def cmdAlias : CString := .lit ['a', 'l', 'i', 'a', 's']

/-- `"home"` -/
def cmdHome : CString := .lit ['h', 'o', 'm', 'e']

/-- The pointer `HOME_PATH`: what `wsh_main` set it to, or into the buffer of the lines. -/
inductive HomePath where
  | env (path : CString)
  | line (i : Nat)

/-- What the loop changes. -/
structure RcState where
  buf : Block UInt8
  alTable : AliasTable (Block (Option Nat))
  homePath : HomePath

/-- The string at an index of the buffer. -/
def strAt (buf : Block UInt8) (i : Nat) : Outcome CString := do
  let bytes ← bytesAt buf i
  return .ofBytes bytes

def HomePath.text (buf : Block UInt8) : HomePath → Outcome CString
  | env path => .ret path
  | line i => strAt buf i

/-- `getline(&buf, &buf_len, config_file)` with a line in the file: the buffer is made
large enough, where it is, and the line and a NUL are stored in it. -/
def getline (buf : Block UInt8) (line : List UInt8) : Block UInt8 :=
  (buf.resize (max buf.cap (line.length + 1))).put 0 (line ++ [0])

/-- The `if` of the loop. -/
def rcDispatch (fuel : Nat) (fresh : Nat → Option Nat) (isDir : CString → Bool)
    (st : RcState) (tokct first third : Nat) (tkns : List Nat) : Outcome RcState := do
  if (← strAt st.buf first) ≠ cmdAlias then
    let (_, alTable) ← processAliasAt (strAt st.buf) fuel fresh st.alTable tokct tkns false
    return { st with alTable := alTable }
  else if (← strAt st.buf first) ≠ cmdHome then
    if isDir (← strAt st.buf third) then return { st with homePath := .line third }
    else return st
  else return st

/-- The body of the loop, on a line that was read.  `isDir` says where `opendir` finds a
directory.  Returns -1 when `wsh_rc_init` does. -/
def rcLine (fuel : Nat) (fresh freshDef : Nat → Option Nat) (isDir : CString → Bool)
    (st : RcState) (line : List UInt8) : Outcome (Int × RcState) := do
  let (tkns, buf) ← wshTokenize fresh (getline st.buf line)
  let st := { st with buf := buf }
  let tokct ← tkns.nullIndex
  if tokct < 3 then return (-1, st)
  else
    let tkns ← tkns.contents
    match tkns with
    | first :: _ :: third :: _ => do
        let st ← rcDispatch fuel freshDef isDir st tokct first third tkns
        return (0, st)
    | _ => .undefined

/-- The loop, over the lines that are left.  Every `malloc` finds memory of its own. -/
def rcLoop (fuel : Nat) (fresh : Nat → Nat → Option Nat) (isDir : CString → Bool) :
    List (List UInt8) → RcState → Outcome (Int × RcState)
  | [], st => .ret (0, st)
  | line :: rest, st => do
      let (ret, st) ← rcLine fuel (fresh (2 * rest.length)) (fresh (2 * rest.length + 1)) isDir
        st line
      if ret ≠ 0 then return (ret, st) else rcLoop fuel fresh isDir rest st

/-- Before the loop: no buffer, the table `wsh_main` made, and the home path it found. -/
def RcState.start (memory : Nat → UInt8) (home : CString) : RcState :=
  ⟨.alloc 0 memory, atNewAt 50 0, .env home⟩

/-! ## What the file says -/

/-- A line of the file. -/
inductive Setting where
  | aliasLine (name : CString) (definition : List CString)
  | homeLine (path : CString)

namespace Setting

def tokens : Setting → List CString
  | aliasLine name definition => cmdAlias :: name :: tokEquals :: definition
  | homeLine path => [cmdHome, tokEquals, path]

/-- A definition has words, and a home path is a directory. -/
def Valid (isDir : CString → Bool) : Setting → Prop
  | aliasLine _ definition => definition ≠ []
  | homeLine path => isDir path = true

/-- What it defines. -/
def definition? : Setting → Option (CString × List CString)
  | aliasLine name definition => some (name, definition)
  | homeLine _ => none

def home? : Setting → Option CString
  | aliasLine _ _ => none
  | homeLine path => some path

end Setting

/-- A line as it stands in the file, its tokens spaced in any way. -/
structure ConfigLine (isDir : CString → Bool) where
  text : List UInt8
  setting : Setting
  noNul : 0 ∉ text
  valid : setting.Valid isDir
  spaced : Spaced tokDelim text (setting.tokens.map CString.bytes)

section File

variable {isDir : CString → Bool}

/-- The names the file defines, line by line. -/
def definitions (file : List (ConfigLine isDir)) : List (CString × List CString) :=
  file.filterMap fun line => line.setting.definition?

/-- The path of the last `home` line. -/
def lastHome (file : List (ConfigLine isDir)) : Option CString :=
  (file.filterMap fun line => line.setting.home?).getLast?

/-- The loop reads the whole file, and then every name has the definition of its last
line, no other name has one, and `HOME_PATH` is the path of the last `home` line. -/
def ReadsConfig (fresh : Nat → Nat → Option Nat) (memory : Nat → UInt8) (home : CString)
    (file : List (ConfigLine isDir)) : Prop :=
  ∃ st, Outcome.Returns (fun fuel =>
      rcLoop fuel fresh isDir (file.map ConfigLine.text) (.start memory home)) (0, st) ∧
    (∀ name words, lastWrite (definitions file) name = some words →
      ∃ tokDef, Outcome.Returns (fun fuel => atGet fuel st.alTable name) (some tokDef) ∧
        ReadsTokens tokDef st.buf (words.map CString.bytes)) ∧
    (∀ name, lastWrite (definitions file) name = none →
      ∀ fuel r, atGet fuel st.alTable name = .ret r → r = none) ∧
    ∀ path, lastHome file = some path → st.homePath.text st.buf = .ret path

end File

/-! ## One line -/

theorem CString.ofBytes_bytes (word : CString) : CString.ofBytes word.bytes = word := by
  refine CString.ext (List.takeWhile_eq_self_iff.mpr fun c hc => ?_)
  have hne : c ≠ 0 := fun hzero => word.noNul (hzero ▸ hc)
  simp [hne]

theorem strAt_eq {buf : Block UInt8} {i : Nat} {word : CString}
    (h : HoldsText buf i word.bytes) : strAt buf i = .ret word := by
  rw [strAt, bytesAt_eq h, Outcome.ret_bind, CString.ofBytes_bytes]
  rfl

theorem holdsText_getline (buf : Block UInt8) {line : List UInt8} (hnul : 0 ∉ line) :
    HoldsText (getline buf line) 0 line := by
  apply Block.holdsText_put hnul
  rw [Nat.zero_add]
  exact Nat.lt_of_lt_of_le (Nat.lt_succ_self _) (Nat.le_max_right _ _)

section Line

variable (fuel : Nat) (fresh freshDef : Nat → Option Nat)

/-- A line of three or more tokens gets to the `if`. -/
theorem rcLine_eq (isDir : CString → Bool) (st : RcState) {line : List UInt8}
    (hnul : 0 ∉ line) {a b c : CString} {more : List CString}
    (hspaced : Spaced tokDelim line ((a :: b :: c :: more).map CString.bytes)) :
    ∃ buf first second third rest,
      strAt buf first = .ret a ∧ strAt buf third = .ret c ∧
      rcLine fuel fresh freshDef isDir st line =
        (rcDispatch fuel freshDef isDir { st with buf := buf } (more.length + 3) first third
          (first :: second :: third :: rest) >>= fun st => .ret (0, st)) := by
  obtain ⟨tkns, buf, hrun, hdone⟩ :=
    wshTokenize_spaced fresh (holdsText_getline st.buf hnul) hspaced
  obtain ⟨starts, hcontents, htexts⟩ := hdone.reads
  have hlen : starts.length = more.length + 3 := by
    rw [htexts.length_eq, List.length_map]
    rfl
  obtain ⟨first, _, hfirst, htexts₁, rfl⟩ := List.forall₂_cons_right_iff.mp htexts
  obtain ⟨second, _, _, htexts₂, rfl⟩ := List.forall₂_cons_right_iff.mp htexts₁
  obtain ⟨third, rest, hthird, _, rfl⟩ := List.forall₂_cons_right_iff.mp htexts₂
  refine ⟨buf, first, second, third, rest, strAt_eq hfirst, strAt_eq hthird, ?_⟩
  have hcount : ¬ more.length + 3 < 3 := by omega
  simp only [rcLine, hrun, Outcome.ret_bind, Block.nullIndex_eq, hcontents, hlen,
    if_neg hcount]
  rfl

/-- A line of the file goes through and leaves the table alone; a `home` line leaves
`HOME_PATH` alone as well. -/
theorem rcLine_ok {isDir : CString → Bool} (st : RcState) (line : ConfigLine isDir) :
    ∃ st', rcLine fuel fresh freshDef isDir st line.text = .ret (0, st') ∧
      st'.alTable = st.alTable ∧
      (line.setting.definition? = none → st'.homePath = st.homePath) := by
  have hspaced := line.spaced
  cases hsetting : line.setting with
  | aliasLine name definition =>
      rw [hsetting] at hspaced
      obtain ⟨buf, first, second, third, rest, hfirst, hthird, hline⟩ :=
        rcLine_eq fuel fresh freshDef isDir st line.noNul hspaced
      refine ⟨if isDir tokEquals then { st with buf := buf, homePath := .line third }
        else { st with buf := buf }, ?_, ?_, fun hnone => by cases hnone⟩
      · have hhome : cmdAlias ≠ cmdHome := by decide
        rw [hline]
        simp only [rcDispatch, hfirst, hthird, Outcome.ret_bind, ne_eq, not_true_eq_false,
          if_false, hhome, not_false_eq_true, if_true]
        cases isDir tokEquals <;> rfl
      · cases isDir tokEquals <;> rfl
  | homeLine path =>
      rw [hsetting] at hspaced
      obtain ⟨buf, first, second, third, rest, hfirst, hthird, hline⟩ :=
        rcLine_eq fuel fresh freshDef isDir st line.noNul hspaced
      refine ⟨{ st with buf := buf }, ?_, rfl, fun _ => rfl⟩
      have hother : cmdHome ≠ cmdAlias := by decide
      rw [hline]
      simp only [rcDispatch, hfirst, Outcome.ret_bind, ne_eq, hother, not_false_eq_true, if_true]
      rfl

end Line

/-! ## The whole file -/

section File

variable {isDir : CString → Bool} {fresh : Nat → Nat → Option Nat} {memory : Nat → UInt8}
  {home : CString} {file : List (ConfigLine isDir)}

theorem definitions_cons (line : ConfigLine isDir) (file : List (ConfigLine isDir)) :
    definitions (line :: file) = line.setting.definition?.toList ++ definitions file := by
  rw [definitions, List.filterMap_cons]
  cases line.setting.definition? <;> rfl

/-- The loop reads the whole file and leaves the table alone. -/
theorem rcLoop_ok (fuel : Nat) (fresh : Nat → Nat → Option Nat)
    (file : List (ConfigLine isDir)) (st : RcState) :
    ∃ st', rcLoop fuel fresh isDir (file.map ConfigLine.text) st = .ret (0, st') ∧
      st'.alTable = st.alTable ∧
      (definitions file = [] → st'.homePath = st.homePath) := by
  induction file generalizing st with
  | nil => exact ⟨st, rfl, rfl, fun _ => rfl⟩
  | cons line file ih =>
      obtain ⟨st₁, hline, htable₁, hhome₁⟩ := rcLine_ok fuel
        (fresh (2 * (file.map ConfigLine.text).length))
        (fresh (2 * (file.map ConfigLine.text).length + 1)) st line
      obtain ⟨st₂, hrest, htable₂, hhome₂⟩ := ih st₁
      refine ⟨st₂, ?_, htable₂.trans htable₁, fun hnone => ?_⟩
      · rw [List.map_cons, rcLoop, hline, Outcome.ret_bind]
        exact hrest
      · rw [definitions_cons, List.append_eq_nil_iff] at hnone
        rw [hhome₂ hnone.2, hhome₁ (Option.toList_eq_nil_iff.mp hnone.1)]

theorem freshTable_inv : TableInv (atNewAt 50 0 : AliasTable (Block (Option Nat)))
    fun _ => none := tableNew_inv (by decide)

/-- A name that is defined is not in the table afterwards. -/
theorem ReadsConfig.definitions_eq_nil (h : ReadsConfig fresh memory home file) :
    definitions file = [] := by
  obtain ⟨st, ⟨fuel, hrun⟩, hdefined, _⟩ := h
  obtain ⟨st', hrun', htable, _⟩ := rcLoop_ok fuel fresh file (.start memory home)
  cases hrun.symm.trans hrun'
  by_contra hne
  obtain ⟨op, rest, hops⟩ := List.exists_cons_of_ne_nil hne
  have hkey : lastWrite (definitions file) op.1 ≠ none := by
    rw [ne_eq, lastWrite_eq_none, not_not, hops]
    exact List.mem_cons_self
  obtain ⟨words, hwords⟩ := Option.ne_none_iff_exists'.mp hkey
  obtain ⟨tokDef, ⟨fuel', hget⟩, _⟩ := hdefined op.1 words hwords
  rw [htable] at hget
  cases tableGet_spec freshTable_inv hget

/-- **When the configuration file means what it says**: exactly when it has no `alias`
line, and the last `home` line, if there is one, names what `HOME_PATH` was before. -/
theorem readsConfig_iff (fresh : Nat → Nat → Option Nat) (memory : Nat → UInt8)
    (home : CString) (file : List (ConfigLine isDir)) :
    ReadsConfig fresh memory home file ↔
      definitions file = [] ∧ ∀ path, lastHome file = some path → path = home := by
  constructor
  · intro h
    have hnone := h.definitions_eq_nil
    refine ⟨hnone, fun path hpath => ?_⟩
    obtain ⟨st, ⟨fuel, hrun⟩, _, _, hhome⟩ := h
    obtain ⟨st', hrun', _, hkept⟩ := rcLoop_ok fuel fresh file (.start memory home)
    cases hrun.symm.trans hrun'
    have htext := hhome path hpath
    rw [hkept hnone] at htext
    exact (Outcome.ret.inj htext).symm
  · rintro ⟨hnone, hhome⟩
    obtain ⟨st, hrun, htable, hkept⟩ := rcLoop_ok 0 fresh file (.start memory home)
    refine ⟨st, ⟨0, hrun⟩, ?_, fun name _ fuel r hget => ?_, fun path hpath => ?_⟩
    · rw [hnone]
      intro name words hwords
      cases hwords
    · rw [htable] at hget
      exact tableGet_spec freshTable_inv hget
    · rw [hkept hnone, hhome path hpath]
      rfl

end File

theorem noDelim_of_all {tok : List UInt8} (h : (tok.all fun c => !tokDelim c) = true) :
    ∀ c ∈ tok, tokDelim c = false := by
  intro c hc
  have hword := List.all_eq_true.mp h c hc
  simpa using hword

/-- `alias l = ls` -/
def aliasL (isDir : CString → Bool) : ConfigLine isDir where
  text := cmdAlias.bytes ++ 32 :: ([108] ++ 32 :: ([61] ++ 32 :: ([108, 115] ++ 10 :: [])))
  setting := .aliasLine (.lit ['l']) [.lit ['l', 's']]
  noNul := by decide
  valid := by simp [Setting.Valid]
  spaced := by
    refine Spaced.word ?_ (by decide) (noDelim_of_all rfl) (by decide)
    refine Spaced.word ?_ (by decide) (noDelim_of_all rfl) (by decide)
    refine Spaced.word ?_ (by decide) (noDelim_of_all rfl) (by decide)
    exact Spaced.word (.blank (by simp)) (by decide) (noDelim_of_all rfl) (by decide)

theorem not_readsConfig_alias :
    ¬ ReadsConfig (fun _ _ => none) (fun _ => 0) (.lit ['/']) [aliasL fun _ => false] :=
  fun h => absurd h.definitions_eq_nil (by decide)

end WizardShell.Ports
