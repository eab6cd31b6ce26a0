import WizardShell.Ports.ProcessAlias

/-!
# Aliases and shortcuts

`resolve_alias_shortcuts` copies the tokens into a fresh array, putting the
entries of the current directory for `*` and the definition for an alias.  The
model keeps the memory accesses of the source:

* for `~` the home path is copied through a pointer that was never set;
* the names put for `*` lie in directory entries that are freed before the
  function returns;
* for an alias the room check grows (or shrinks) the array of input tokens
  instead of the output.

Every token is looked up in the alias table, so the function ends on every
line exactly when every lookup does.
-/

namespace WizardShell.Ports

open Function
open WizardShell.Verified

/-- A pointer in the resolved array. -/
inductive TokenPtr where
  /-- To a string that can be read. -/
  | text (s : CString)
  /-- To the name of a directory entry that has been freed. -/
  | freed (name : CString)
  deriving DecidableEq

/-- The variables of the loop: the capacity the source believes in, the output
cursor, and the two arrays. -/
structure ResolveState where
  bufsize : Nat
  pos : Nat
  tokens : Block (Option CString)
  fTokens : Block (Option TokenPtr)

/-- `f_tokens[pos++] = …` for one pointer after another. -/
def pushAll : List TokenPtr → ResolveState → Outcome ResolveState
  | [], st => .ret st
  | p :: rest, st => do
      let fTokens ← st.fTokens.write st.pos (some p)
      pushAll rest { st with fTokens := fTokens, pos := st.pos + 1 }

/-- Is the directory entry shown for `*`? -/
def isVisible (name : CString) : Bool :=
  name ≠ .lit ['.'] && name ≠ .lit ['.', '.'] &&
    !(name.strlen = 0 || name.bytes.head? = some 46)

/-- The growth step for `*`. -/
def growOutput (st : ResolveState) : ResolveState :=
  { st with
    bufsize := st.bufsize + psBfs
    fTokens := st.fTokens.resize (st.bufsize + psBfs) }

/-- The growth step for an alias, which reallocates the tokens. -/
def growTokens (st : ResolveState) : ResolveState :=
  { st with
    bufsize := st.bufsize + psBfs
    tokens := st.tokens.resize (st.bufsize + psBfs) }

/-- One turn of the loop.  `listing` is what `scandir` gives for the current
directory; when it fails, an uninitialised pointer is freed. -/
def resolveToken (fuel : Nat) (alTable : AliasTable Definition)
    (listing : Option (List CString)) (st : ResolveState) (tok : CString) :
    Outcome ResolveState :=
  if tok = tokHome then .undefined
  else if tok = tokStar then
    match listing with
    | none => .undefined
    | some files =>
        let st := if st.pos + files.length ≥ st.bufsize then growOutput st else st
        pushAll ((files.filter isVisible).map .freed) st
  else do
    match ← atGet fuel alTable tok with
    | some aliasToks =>
        let alLen ← ppstrlen aliasToks
        let st := if st.pos + alLen ≥ st.bufsize then growTokens st else st
        let definition ← aliasToks.contents
        pushAll (definition.map .text) st
    | none => pushAll [.text tok] st

/-- The loop over the tokens, from index `i`, for a bounded number of turns. -/
def resolveLoop (fuel : Nat) (alTable : AliasTable Definition)
    (listing : Option (List CString)) : Nat → Nat → ResolveState →
    Outcome ResolveState
  | 0, _, _ => .outOfFuel
  | turns + 1, i, st => do
      match ← st.tokens.read i with
      | none => return st
      | some tok =>
          let st ← resolveToken fuel alTable listing st tok
          resolveLoop fuel alTable listing turns (i + 1) st

/-- `resolve_alias_shortcuts(tokens)`, with `fresh` what the memory for the
output held.  The fuel bounds the turns of each loop. -/
def resolveAliasShortcuts (fuel : Nat) (fresh : Nat → Option TokenPtr)
    (alTable : AliasTable Definition) (listing : Option (List CString))
    (tokens : Block (Option CString)) : Outcome (Block (Option TokenPtr)) := do
  let st ← resolveLoop fuel alTable listing fuel 0
    { bufsize := psBfs, pos := 0, tokens := tokens,
      fTokens := Block.alloc psBfs fresh }
  st.fTokens.write st.pos none

/-! ## Termination -/

theorem pushAll_ne_outOfFuel (ps : List TokenPtr) (st : ResolveState) :
    pushAll ps st ≠ .outOfFuel := by
  induction ps generalizing st with
  | nil => simp [pushAll]
  | cons p rest ih =>
      unfold pushAll
      by_cases h : st.pos < st.fTokens.cap
      · rw [Block.write_of_lt h, Outcome.ret_bind]
        exact ih _
      · simp [Block.write_of_le (Nat.le_of_not_lt h)]

theorem pushAll_tokens {ps : List TokenPtr} {st st' : ResolveState}
    (h : pushAll ps st = .ret st') : st'.tokens = st.tokens := by
  induction ps generalizing st with
  | nil =>
      cases h
      rfl
  | cons p rest ih =>
      obtain ⟨fTokens, _, h⟩ := Outcome.bind_eq_ret.mp h
      rw [ih h]

/-- A turn runs out of fuel only in its lookup. -/
theorem resolveToken_ne_outOfFuel {fuel : Nat} {alTable : AliasTable Definition}
    (hget : ∀ key, atGet fuel alTable key ≠ .outOfFuel)
    (listing : Option (List CString)) (st : ResolveState) (tok : CString) :
    resolveToken fuel alTable listing st tok ≠ .outOfFuel := by
  unfold resolveToken
  split
  · simp
  · split
    · cases listing with
      | none => simp
      | some files => exact pushAll_ne_outOfFuel _ _
    · cases hval : atGet fuel alTable tok with
      | undefined => simp
      | outOfFuel => exact absurd hval (hget tok)
      | ret val =>
          cases val with
          | none => exact pushAll_ne_outOfFuel _ _
          | some aliasToks =>
              rw [Outcome.ret_bind]
              simp only [ppstrlen, Block.nullIndex_eq, bind_assoc]
              cases hread : aliasToks.contents with
              | undefined => simp
              | outOfFuel =>
                  exact absurd hread (Block.contentsFrom_ne_outOfFuel _ _ _)
              | ret definition =>
                  simp only [Outcome.ret_bind]
                  exact pushAll_ne_outOfFuel _ _

/-- No turn changes the tokens themselves, whatever it does to their array's
capacity. -/
theorem resolveToken_cell {fuel : Nat} {alTable : AliasTable Definition}
    {listing : Option (List CString)} {st st' : ResolveState} {tok : CString}
    (h : resolveToken fuel alTable listing st tok = .ret st') :
    st'.tokens.cell = st.tokens.cell := by
  unfold resolveToken at h
  split at h
  · cases h
  · split at h
    · cases listing with
      | none => cases h
      | some files =>
          rw [pushAll_tokens h]
          split <;> rfl
    · obtain ⟨val, _, h⟩ := Outcome.bind_eq_ret.mp h
      cases val with
      | none => rw [pushAll_tokens h]
      | some aliasToks =>
          obtain ⟨alLen, _, h⟩ := Outcome.bind_eq_ret.mp h
          obtain ⟨definition, _, h⟩ := Outcome.bind_eq_ret.mp h
          rw [pushAll_tokens h]
          split <;> rfl

/-- With one turn for each token left and one for the NULL, the loop ends. -/
theorem resolveLoop_ne_outOfFuel {fuel : Nat} {alTable : AliasTable Definition}
    (hget : ∀ key, atGet fuel alTable key ≠ .outOfFuel)
    (listing : Option (List CString)) {last : Nat} :
    ∀ (turns i : Nat) (st : ResolveState), st.tokens.cell last = none →
    i ≤ last → last < i + turns →
    resolveLoop fuel alTable listing turns i st ≠ .outOfFuel := by
  intro turns
  induction turns with
  | zero =>
      intro i st _ hle hlt
      omega
  | succ turns ih =>
      intro i st hnull hle hlt
      unfold resolveLoop
      by_cases hread : i < st.tokens.cap
      · rw [Block.read_of_lt hread, Outcome.ret_bind]
        cases htok : st.tokens.cell i with
        | none => simp
        | some tok =>
            have hne : i ≠ last := by
              rintro rfl
              rw [hnull] at htok
              cases htok
            have hturn := resolveToken_ne_outOfFuel hget listing st tok
            cases hst : resolveToken fuel alTable listing st tok with
            | undefined => simp [hst]
            | outOfFuel => exact absurd hst hturn
            | ret st' =>
                simp only [hst, Outcome.ret_bind]
                exact ih (i + 1) st' (by rw [resolveToken_cell hst, hnull])
                  (by omega) (by omega)
      · simp [Block.read, hread]

/-- While the alias table has an empty slot, every line is resolved, or leads
out of defined behaviour, in finitely many steps. -/
theorem resolve_terminates {t : AliasTable Definition}
    {m : CString → Option Definition} (h : TableInv t m)
    (hroom : t.count < t.size) (fresh : Nat → Option TokenPtr)
    (listing : Option (List CString)) {tokens : Block (Option CString)}
    {l : List CString} (htokens : tokens.contents = .ret l) :
    Outcome.Terminates fun fuel =>
      resolveAliasShortcuts fuel fresh t listing tokens := by
  obtain ⟨_, hcells⟩ := Block.contents_eq_ret.mp htokens
  have hnull : tokens.cell l.length = none := by
    rw [hcells l.length (Nat.le_refl _), List.getElem?_eq_none (Nat.le_refl _)]
  have hget : ∀ key, atGet (max t.size (l.length + 1)) t key ≠ .outOfFuel :=
    fun key => tableGet_ne_outOfFuel h hroom (Nat.le_max_left _ _) key
  have hloop := resolveLoop_ne_outOfFuel hget listing
    (max t.size (l.length + 1)) 0
    { bufsize := psBfs, pos := 0, tokens := tokens,
      fTokens := Block.alloc psBfs fresh } hnull (Nat.zero_le _) (by omega)
  refine ⟨max t.size (l.length + 1), fun hend => ?_⟩
  obtain hend | ⟨st, _, hend⟩ := Outcome.bind_eq_outOfFuel.mp hend
  · exact hloop hend
  · exact Block.write_ne_outOfFuel _ _ _ hend

/-- In a full table the lookup of a token that is not there goes on for ever,
and so does the resolution of a line that starts with it. -/
theorem resolve_diverges {t : AliasTable Definition} {tok : CString}
    (hget : ∀ fuel, atGet fuel t tok = .outOfFuel) (hhome : tok ≠ tokHome)
    (hstar : tok ≠ tokStar) (fresh : Nat → Option TokenPtr)
    (listing : Option (List CString)) {tokens : Block (Option CString)}
    {l : List CString} (htokens : tokens.contents = .ret (tok :: l)) :
    ¬ Outcome.Terminates fun fuel =>
      resolveAliasShortcuts fuel fresh t listing tokens := by
  obtain ⟨hlen, hcells⟩ := Block.contents_eq_ret.mp htokens
  have hfirst : tokens.cell 0 = some tok := hcells 0 (Nat.zero_le _)
  rintro ⟨fuel, hfuel⟩
  apply hfuel
  unfold resolveAliasShortcuts
  cases fuel with
  | zero => rfl
  | succ turns =>
      simp [resolveLoop, Block.read_of_lt (Nat.lt_of_le_of_lt (Nat.zero_le _) hlen),
        hfirst, resolveToken, hhome, hstar, hget]

/-! ## When lookups end -/

/-- Every lookup ends. -/
def LookupsEnd (t : AliasTable Definition) : Prop :=
  ∀ key, Outcome.Terminates fun fuel => atGet fuel t key

/-- The resolution of every token list ends. -/
def ResolutionsEnd (t : AliasTable Definition) : Prop :=
  ∀ fresh listing (tokens : Block (Option CString)) l,
    tokens.contents = .ret l →
    Outcome.Terminates fun fuel =>
      resolveAliasShortcuts fuel fresh t listing tokens

theorem lookupsEnd_iff_room {t : AliasTable Definition}
    {m : CString → Option Definition} (h : TableInv t m) :
    LookupsEnd t ↔ t.count < t.size := h.terminates_iff

theorem resolutionsEnd_iff_room {t : AliasTable Definition}
    {m : CString → Option Definition} (h : TableInv t m) :
    ResolutionsEnd t ↔ t.count < t.size := by
  constructor
  · intro hend
    by_contra hfull
    obtain ⟨key, hkey, havoid⟩ := h.exists_absent [tokHome, tokStar]
    simp only [List.mem_cons, List.not_mem_nil, or_false, not_or] at havoid
    have hget : ∀ fuel, atGet fuel t key = .outOfFuel := by
      intro fuel
      by_contra hne
      rcases (tableGet_terminates_iff h key).mp ⟨fuel, hne⟩ with hin | hroom
      · exact hin hkey
      · exact hfull hroom
    -- The line that consists of the absent key alone.
    let tokens : Block (Option CString) :=
      ⟨2, fun i => if i = 0 then some key else none⟩
    have htokens : tokens.contents = .ret [key] := by
      simp [tokens, Block.contents, Block.contentsFrom]
    exact resolve_diverges hget havoid.1 havoid.2 (fun _ => none) none htokens
      (hend _ _ tokens [key] htokens)
  · intro hroom fresh listing tokens l htokens
    exact resolve_terminates h hroom fresh listing htokens

/-- **When lookups end.**  After any run of `at_set` calls on the shell's
table, every lookup ends, and the resolution of every token list, if and only
if the last call did not fill the table: it did not set a new key that made
the number of keys 50, 75, 112 or any later size of the table. -/
theorem lookupsEnd_iff (ops : List (CString × Definition))
    (t : AliasTable Definition) (hrun : AtRun 50 ops t) :
    (LookupsEnd t ↔ ¬ FillsTable 50 ops) ∧
      (ResolutionsEnd t ↔ ¬ FillsTable 50 ops) := by
  have hmap := (hrun.inv (by decide)).map
  have hle := hmap.count_le
  rw [lookupsEnd_iff_room hmap, resolutionsEnd_iff_room hmap,
    fillsTable_iff (by decide) hrun]
  omega

/-- The name `aa…a` of `i + 1` letters. -/
def letters (i : Nat) : CString :=
  ⟨List.replicate (i + 1) 97, by simp [List.mem_replicate]⟩

theorem letters_injective : Function.Injective letters := by
  intro i j h
  have hlen := congrArg CString.strlen h
  simpa [letters, CString.strlen] using hlen

/-- Fifty aliases with different names. -/
def fiftyAliases (definition : Definition) : List (CString × Definition) :=
  (List.range 50).map fun i => (letters i, definition)

/-- The definition `ls`. -/
def lsDefinition : Definition :=
  ⟨psBfs, fun i => if i = 0 then some (.lit ['l', 's']) else none⟩

/-- After fifty aliases with different names. -/
theorem lookupsEnd_iff_fifty : ∃ t, AtRun 50 (fiftyAliases lsDefinition) t ∧
    (LookupsEnd t ↔ ¬ FillsTable 50 (fiftyAliases lsDefinition)) ∧
      (ResolutionsEnd t ↔ ¬ FillsTable 50 (fiftyAliases lsDefinition)) := by
  obtain ⟨t, hrun⟩ := exists_atRun (by decide : 2 ≤ 50) (fiftyAliases lsDefinition)
  exact ⟨t, hrun, lookupsEnd_iff (fiftyAliases lsDefinition) t hrun⟩

/-- After fifty aliases have been defined, some lookup never ends, and some
line is never resolved. -/
theorem not_lookupsEnd_fifty :
    ∃ t, AtRun 50 (fiftyAliases lsDefinition) t ∧
      ¬ LookupsEnd t ∧ ¬ ResolutionsEnd t := by
  generalize lsDefinition = definition
  obtain ⟨t, hrun⟩ := exists_atRun (by decide : 2 ≤ 50) (fiftyAliases definition)
  have hmap := (hrun.inv (by decide)).map
  have hkeys : (fiftyAliases definition).map Prod.fst =
      (List.range 50).map letters := by
    simp [fiftyAliases, Function.comp_def]
  have hnodup : ((fiftyAliases definition).map Prod.fst).Nodup := by
    rw [hkeys]
    exact List.Nodup.map letters_injective List.nodup_range
  have hfull : FillsTable 50 (fiftyAliases definition) := by
    refine ⟨(List.range 49).map fun i => (letters i, definition), letters 49,
      definition, by simp [fiftyAliases, List.range_succ], ?_, 0, ?_⟩
    · intro hmem
      obtain ⟨op, hop, hname⟩ := List.mem_map.mp hmem
      obtain ⟨i, hi, rfl⟩ := List.mem_map.mp hop
      have heq : i = 49 := letters_injective hname
      rw [List.mem_range] at hi
      omega
    · rw [List.Nodup.dedup hnodup, hkeys]
      simp [sizes]
  have hsize := (fillsTable_iff (by decide) hrun).mp hfull
  refine ⟨t, hrun, ?_, ?_⟩
  · rw [lookupsEnd_iff_room hmap]
    omega
  · rw [resolutionsEnd_iff_room hmap]
    omega

end WizardShell.Ports
