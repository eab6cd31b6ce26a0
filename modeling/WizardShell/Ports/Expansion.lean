import WizardShell.Ports.Resolve

/-!
# What a line expands to

`resolve_alias_shortcuts` is meant as a substitution: every token on its own becomes
the home path, the names in the directory, the definition of an alias, or itself.
What it puts into its array is read after it has returned, by `prep` and `execute`;
the names put for `*` can then no longer be read, and `~` never gets that far.

* `resolveLoop_puts`: whenever the loop ends, the pointers it put, token by token.
* `resolveLoop_returns`: with room for them it does end.
* `expands_iff`: the result reads as the substitution exactly without a `~`, without a
  `*` that stands for some name, and when the alias table answers for every other
  token.
-/

namespace WizardShell.Ports

open WizardShell.Verified
open WizardShell.Verified.Probing

/-- The words that a definition reads as. -/
def definitionWords (definition : Definition) : List CString :=
  definition.contents.value?.getD []

/-- What a token that is no shortcut stands for. -/
def aliasWords (m : CString → Option Definition) (tok : CString) : List CString :=
  match m tok with
  | some definition => definitionWords definition
  | none => [tok]

/-- What a token stands for. -/
def expansion (homePath : CString) (files : List CString) (m : CString → Option Definition)
    (tok : CString) : List CString :=
  if tok = tokHome then [homePath]
  else if tok = tokStar then files.filter isVisible
  else aliasWords m tok

/-- What the loop puts for it. -/
def pointers (files : List CString) (m : CString → Option Definition) (tok : CString) :
    List TokenPtr :=
  if tok = tokStar then (files.filter isVisible).map .freed else (aliasWords m tok).map .text

/-- The array that `resolve_alias_shortcuts` returns for the tokens `l` reads as what
they stand for, one after another. -/
def Expands (fresh : Nat → Option TokenPtr) (t : AliasTable Definition) (homePath : CString)
    (files : List CString) (m : CString → Option Definition)
    (tokens : Block (Option CString)) (l : List CString) : Prop :=
  ∃ fTokens, Outcome.Returns (fun fuel =>
      resolveAliasShortcuts fuel fresh t (some files) tokens) fTokens ∧
    fTokens.contents = .ret ((l.flatMap (expansion homePath files m)).map .text)

/-- The lookup of the token ends. -/
def LookupEnds (t : AliasTable Definition) (m : CString → Option Definition)
    (tok : CString) : Prop := m tok ≠ none ∨ t.count < t.size

section Lookup

variable {t : AliasTable Definition} {m : CString → Option Definition} {tok : CString}
  {fuel : Nat}

theorem atGet_eq_ret (h : TableInv t m) (hfuel : t.size ≤ fuel) (hends : LookupEnds t m tok) :
    atGet fuel t tok = .ret (m tok) := by
  obtain ⟨i, _, hprobe⟩ := probe_returns_of h.den h.home_lt hfuel (k := tok)
    (hends.imp_right fun hroom => h.count ▸ hroom)
  obtain ⟨r, hret⟩ : ∃ r, tableGet fuel t tok = .ret r := by
    rw [tableGet, hprobe, Outcome.ret_bind]
    cases t.entries i with
    | none => exact ⟨none, rfl⟩
    | some entry => exact ⟨some entry.2, rfl⟩
  rw [← tableGet_spec h hret]
  exact hret

theorem lookupEnds_of_ret (h : TableInv t m) {r : Option Definition}
    (hret : atGet fuel t tok = .ret r) : LookupEnds t m tok ∧ r = m tok := by
  refine ⟨(tableGet_terminates_iff h tok).mp ⟨fuel, fun hend => ?_⟩, tableGet_spec h hret⟩
  have hend' : atGet fuel t tok = .outOfFuel := hend
  rw [hend'] at hret
  cases hret

end Lookup

/-! ## What is put -/

/-- The pointers stand behind those that were there before. -/
structure Puts (st : ResolveState) (ps : List TokenPtr) (st' : ResolveState) : Prop where
  pos : st'.pos = st.pos + ps.length
  kept : ∀ j, j < st.pos → st'.fTokens.cell j = st.fTokens.cell j
  put : ∀ j, j < ps.length → st'.fTokens.cell (st.pos + j) = ps[j]?

section Puts

variable {st st₁ st₂ : ResolveState} {ps qs : List TokenPtr}

theorem Puts.refl (st : ResolveState) : Puts st [] st where
  pos := rfl
  kept _ _ := rfl
  put j hj := absurd hj (Nat.not_lt_zero j)

theorem Puts.trans (h : Puts st ps st₁) (h' : Puts st₁ qs st₂) : Puts st (ps ++ qs) st₂ where
  pos := by
    rw [h'.pos, h.pos, List.length_append, Nat.add_assoc]
  kept j hj := by
    rw [h'.kept j (by rw [h.pos]; omega), h.kept j hj]
  put j hj := by
    rw [List.length_append] at hj
    by_cases hlt : j < ps.length
    · rw [h'.kept _ (by rw [h.pos]; omega), h.put j hlt, List.getElem?_append_left hlt]
    · have hput := h'.put (j - ps.length) (by omega)
      have hindex : st.pos + ps.length + (j - ps.length) = st.pos + j := by omega
      rw [h.pos, hindex] at hput
      rw [hput, List.getElem?_append_right (Nat.le_of_not_lt hlt)]

theorem pushAll_puts (h : pushAll ps st = .ret st₁) : Puts st ps st₁ := by
  induction ps generalizing st with
  | nil =>
      cases h
      exact .refl _
  | cons p rest ih =>
      obtain ⟨fTokens, hwrite, h⟩ := Outcome.bind_eq_ret.mp h
      obtain ⟨_, rfl⟩ := Block.write_eq_ret.mp hwrite
      have hone : Puts st [p]
          { st with fTokens := st.fTokens.set st.pos (some p), pos := st.pos + 1 } :=
        { pos := rfl
          kept := fun j hj => Block.set_cell_ne _ _ (Nat.ne_of_lt hj)
          put := fun j hj => by
            have hzero : j = 0 := by
              simp only [List.length_cons, List.length_nil] at hj
              omega
            subst hzero
            exact Block.set_cell_self _ _ _ }
      exact hone.trans (ih h)

/-- With room for them, the pointers are put. -/
theorem pushAll_returns (hroom : st.pos + ps.length ≤ st.fTokens.cap) :
    ∃ st₁, pushAll ps st = .ret st₁ ∧ st₁.tokens = st.tokens ∧ st₁.bufsize = st.bufsize ∧
      st₁.fTokens.cap = st.fTokens.cap := by
  induction ps generalizing st with
  | nil => exact ⟨st, rfl, rfl, rfl, rfl⟩
  | cons p rest ih =>
      rw [List.length_cons] at hroom
      have hlt : st.pos < st.fTokens.cap := by omega
      have hnext : ({ st with
          fTokens := st.fTokens.set st.pos (some p)
          pos := st.pos + 1 } : ResolveState).pos + rest.length ≤ st.fTokens.cap := by
        show st.pos + 1 + rest.length ≤ st.fTokens.cap
        omega
      obtain ⟨st₁, hrun, htokens, hbufsize, hcap⟩ := ih hnext
      refine ⟨st₁, ?_, htokens, hbufsize, hcap⟩
      rw [pushAll, Block.write_of_lt hlt, Outcome.ret_bind]
      exact hrun

/-- Growth changes no pointer. -/
theorem Puts.of_cells (h : Puts st ps st₁) {st₀ : ResolveState} (hpos : st₀.pos = st.pos)
    (hcell : st₀.fTokens.cell = st.fTokens.cell) : Puts st₀ ps st₁ where
  pos := by rw [h.pos, hpos]
  kept j hj := by
    rw [hpos] at hj
    rw [h.kept j hj, hcell]
  put j hj := by rw [hpos, h.put j hj]

end Puts

/-! ## A turn and the loop -/

section Loop

variable {fuel : Nat} {t : AliasTable Definition} {m : CString → Option Definition}
  {files : List CString} {st st' : ResolveState} {tok : CString}

/-- Whenever a turn ends, it was not for `~`, its lookup ended, and it put the
token's pointers. -/
theorem resolveToken_puts (h : TableInv t m)
    (hret : resolveToken fuel t (some files) st tok = .ret st') :
    tok ≠ tokHome ∧ (tok ≠ tokStar → LookupEnds t m tok) ∧ Puts st (pointers files m tok) st' := by
  unfold resolveToken at hret
  by_cases hhome : tok = tokHome
  · rw [if_pos hhome] at hret
    cases hret
  rw [if_neg hhome] at hret
  refine ⟨hhome, ?_⟩
  by_cases hstar : tok = tokStar
  · rw [if_pos hstar] at hret
    refine ⟨fun hne => absurd hstar hne, ?_⟩
    rw [pointers, if_pos hstar]
    refine (pushAll_puts hret).of_cells ?_ ?_
    · split <;> rfl
    · split <;> rfl
  · rw [if_neg hstar] at hret
    obtain ⟨r, hget, hret⟩ := Outcome.bind_eq_ret.mp hret
    obtain ⟨hends, rfl⟩ := lookupEnds_of_ret h hget
    refine ⟨fun _ => hends, ?_⟩
    rw [pointers, if_neg hstar, aliasWords]
    cases hkey : m tok with
    | none =>
        rw [hkey] at hret
        exact pushAll_puts hret
    | some definition =>
        rw [hkey] at hret
        obtain ⟨alLen, _, hret⟩ := Outcome.bind_eq_ret.mp hret
        obtain ⟨words, hwords, hret⟩ := Outcome.bind_eq_ret.mp hret
        have hread : definitionWords definition = words := by
          rw [definitionWords, hwords]
          rfl
        simp only [hread]
        refine (pushAll_puts hret).of_cells ?_ ?_
        · split <;> rfl
        · split <;> rfl

/-- Whenever the loop ends, it did so for every token left. -/
theorem resolveLoop_puts (h : TableInv t m) {l : List CString} :
    ∀ {turns i : Nat} {st st' : ResolveState},
    (∀ k, k ≤ l.length → st.tokens.cell (i + k) = l[k]?) →
    resolveLoop fuel t (some files) turns i st = .ret st' →
    tokHome ∉ l ∧ (∀ tok ∈ l, tok ≠ tokStar → LookupEnds t m tok) ∧
      Puts st (l.flatMap (pointers files m)) st' := by
  induction l with
  | nil =>
      intro turns i st st' hcells hret
      cases turns with
      | zero => cases hret
      | succ turns =>
          obtain ⟨c, hread, hret⟩ := Outcome.bind_eq_ret.mp hret
          have hcell : st.tokens.cell i = none := hcells 0 (Nat.le_refl _)
          rw [← (Block.read_eq_ret.mp hread).2, hcell] at hret
          cases hret
          exact ⟨List.not_mem_nil, by simp, .refl _⟩
  | cons tok rest ih =>
      intro turns i st st' hcells hret
      cases turns with
      | zero => cases hret
      | succ turns =>
          obtain ⟨c, hread, hret⟩ := Outcome.bind_eq_ret.mp hret
          have hcell : st.tokens.cell i = some tok := hcells 0 (Nat.zero_le _)
          rw [← (Block.read_eq_ret.mp hread).2, hcell] at hret
          obtain ⟨st₁, hturn, hret⟩ := Outcome.bind_eq_ret.mp hret
          obtain ⟨hhome, hends, hputs⟩ := resolveToken_puts h hturn
          have hcells₁ : ∀ k, k ≤ rest.length → st₁.tokens.cell (i + 1 + k) = rest[k]? := by
            intro k hk
            have hnext := hcells (k + 1) (Nat.succ_le_succ hk)
            rw [resolveToken_cell hturn, Nat.add_assoc, Nat.add_comm 1, hnext,
              List.getElem?_cons_succ]
          obtain ⟨hhome', hends', hputs'⟩ := ih hcells₁ hret
          refine ⟨?_, ?_, ?_⟩
          · rw [List.mem_cons, not_or]
            exact ⟨Ne.symm hhome, hhome'⟩
          · intro t' ht'
            rcases List.mem_cons.mp ht' with rfl | hmem
            · exact hends
            · exact hends' t' hmem
          · rw [List.flatMap_cons]
            exact hputs.trans hputs'

/-- The array and its believed capacity have their first 512 cells. -/
structure Roomy (st : ResolveState) : Prop where
  bufsize : psBfs ≤ st.bufsize
  cap : psBfs ≤ st.fTokens.cap

theorem Roomy.growOutput (st : ResolveState) : Roomy (growOutput st) where
  bufsize := Nat.le_add_left _ _
  cap := Nat.le_add_left _ _

theorem Roomy.puts {ps : List TokenPtr} (h : Roomy st) (hfit : st.pos + ps.length < psBfs) :
    ∃ st', pushAll ps st = .ret st' ∧ st'.tokens = st.tokens ∧ Roomy st' := by
  have hcap := h.cap
  have hroom : st.pos + ps.length ≤ st.fTokens.cap := by omega
  obtain ⟨st', hrun, htokens, hbufsize, hcap'⟩ := pushAll_returns hroom
  refine ⟨st', hrun, htokens, ?_, ?_⟩
  · rw [hbufsize]
    exact h.bufsize
  · rw [hcap']
    exact hcap

/-- With room for its pointers in the first 512 cells, a turn ends. -/
theorem resolveToken_returns (files : List CString) (h : TableInv t m) (hfuel : t.size ≤ fuel)
    (hdefs : ∀ definition, m tok = some definition → ∃ words, definition.contents = .ret words)
    (hhome : tok ≠ tokHome) (hends : tok ≠ tokStar → LookupEnds t m tok) (hroomy : Roomy st)
    (hfit : st.pos + (pointers files m tok).length < psBfs) :
    ∃ st', resolveToken fuel t (some files) st tok = .ret st' ∧ st'.tokens = st.tokens ∧
      Roomy st' := by
  unfold resolveToken
  rw [if_neg hhome]
  rw [pointers] at hfit
  by_cases hstar : tok = tokStar
  · rw [if_pos hstar] at hfit ⊢
    by_cases hgrow : st.pos + files.length ≥ st.bufsize
    · simp only [if_pos hgrow]
      exact (Roomy.growOutput st).puts hfit
    · simp only [if_neg hgrow]
      exact hroomy.puts hfit
  · rw [if_neg hstar] at hfit ⊢
    rw [atGet_eq_ret h hfuel (hends hstar), Outcome.ret_bind]
    rw [aliasWords] at hfit
    cases hkey : m tok with
    | none =>
        rw [hkey] at hfit
        exact hroomy.puts hfit
    | some definition =>
        rw [hkey] at hfit
        obtain ⟨words, hwords⟩ := hdefs definition hkey
        have hread : definitionWords definition = words := by
          rw [definitionWords, hwords]
          rfl
        simp only [hread] at hfit
        have hbufsize := hroomy.bufsize
        have hlen := hfit
        rw [List.length_map] at hlen
        have hkeep : ¬ st.pos + words.length ≥ st.bufsize := by omega
        simp only [ppstrlen_eq hwords, Outcome.ret_bind, if_neg hkeep, hwords]
        exact hroomy.puts hfit

/-- With room for all pointers in the first 512 cells, the loop ends. -/
theorem resolveLoop_returns (files : List CString) (h : TableInv t m) (hfuel : t.size ≤ fuel)
    {l : List CString}
    (hdefs : ∀ tok ∈ l, ∀ definition, m tok = some definition →
      ∃ words, definition.contents = .ret words)
    (hhome : tokHome ∉ l) (hends : ∀ tok ∈ l, tok ≠ tokStar → LookupEnds t m tok) :
    ∀ (turns i : Nat) (st : ResolveState),
    (∀ k, k ≤ l.length → st.tokens.cell (i + k) = l[k]?) → i + l.length < st.tokens.cap →
    l.length < turns → Roomy st → st.pos + (l.flatMap (pointers files m)).length < psBfs →
    ∃ st', resolveLoop fuel t (some files) turns i st = .ret st' ∧ Roomy st' := by
  induction l with
  | nil =>
      intro turns i st hcells hinside hturns hroomy hfit
      cases turns with
      | zero => simp at hturns
      | succ turns =>
          have hcell : st.tokens.cell i = none := hcells 0 (Nat.le_refl _)
          have hread : i < st.tokens.cap := hinside
          refine ⟨st, ?_, hroomy⟩
          rw [resolveLoop, Block.read_of_lt hread, Outcome.ret_bind, hcell]
          rfl
  | cons tok rest ih =>
      intro turns i st hcells hinside hturns hroomy hfit
      rw [List.length_cons] at hinside hturns
      rw [List.flatMap_cons, List.length_append] at hfit
      cases turns with
      | zero => simp at hturns
      | succ turns =>
          have hcell : st.tokens.cell i = some tok := hcells 0 (Nat.zero_le _)
          obtain ⟨st₁, hturn, htokens, hroomy₁⟩ := resolveToken_returns files h hfuel
            (hdefs tok List.mem_cons_self)
            (fun heq => hhome (heq ▸ List.mem_cons_self))
            (hends tok List.mem_cons_self) hroomy (by omega)
          obtain ⟨_, _, hputs⟩ := resolveToken_puts h hturn
          have hcells₁ : ∀ k, k ≤ rest.length → st₁.tokens.cell (i + 1 + k) = rest[k]? := by
            intro k hk
            have hnext := hcells (k + 1) (Nat.succ_le_succ hk)
            rw [htokens, Nat.add_assoc, Nat.add_comm 1, hnext, List.getElem?_cons_succ]
          obtain ⟨st', hloop, hroomy'⟩ :=
            ih (fun t' ht' => hdefs t' (List.mem_cons_of_mem tok ht'))
              (fun hmem => hhome (List.mem_cons_of_mem tok hmem))
              (fun t' ht' => hends t' (List.mem_cons_of_mem tok ht')) turns (i + 1) st₁
              hcells₁ (by rw [htokens]; omega) (Nat.lt_of_succ_lt_succ hturns) hroomy₁
              (by rw [hputs.pos]; omega)
          refine ⟨st', ?_, hroomy'⟩
          rw [resolveLoop, Block.read_of_lt (by omega), Outcome.ret_bind, hcell]
          simp only [hturn, Outcome.ret_bind]
          exact hloop

end Loop

/-! ## The result -/

section Result

variable {fuel : Nat} {t : AliasTable Definition} {m : CString → Option Definition}
  {fresh : Nat → Option TokenPtr} {files : List CString} {tokens : Block (Option CString)}
  {l : List CString} {fTokens : Block (Option TokenPtr)}

theorem contents_cell (htokens : tokens.contents = .ret l) :
    ∀ k, k ≤ l.length → tokens.cell (0 + k) = l[k]? := by
  intro k hk
  rw [Nat.zero_add]
  exact (Block.contents_eq_ret.mp htokens).2 k hk

/-- What is returned reads as the pointers put. -/
theorem resolve_puts (h : TableInv t m) (htokens : tokens.contents = .ret l)
    (hret : resolveAliasShortcuts fuel fresh t (some files) tokens = .ret fTokens) :
    tokHome ∉ l ∧ (∀ tok ∈ l, tok ≠ tokStar → LookupEnds t m tok) ∧
      fTokens.contents = .ret (l.flatMap (pointers files m)) := by
  obtain ⟨st, hloop, hwrite⟩ := Outcome.bind_eq_ret.mp hret
  obtain ⟨hhome, hends, hputs⟩ := resolveLoop_puts h (contents_cell htokens) hloop
  obtain ⟨hroom, rfl⟩ := Block.write_eq_ret.mp hwrite
  have hpos : st.pos = 0 + (l.flatMap (pointers files m)).length := hputs.pos
  rw [Nat.zero_add] at hpos
  refine ⟨hhome, hends, Block.contents_eq_ret.mpr ⟨by rw [← hpos]; exact hroom, fun j hj => ?_⟩⟩
  rcases Nat.lt_or_eq_of_le hj with hlt | heq
  · have hput := hputs.put j hlt
    have hcell : st.fTokens.cell (0 + j) = (l.flatMap (pointers files m))[j]? := hput
    rw [Nat.zero_add] at hcell
    rw [Block.set_cell_ne _ _ (by omega), hcell]
  · rw [heq, ← hpos, Block.set_cell_self, hpos, List.getElem?_eq_none (Nat.le_refl _)]

/-- With room in the first 512 cells, it does return. -/
theorem resolve_returns (fresh : Nat → Option TokenPtr) (files : List CString) (h : TableInv t m)
    (hdefs : ∀ tok ∈ l, ∀ definition, m tok = some definition →
      ∃ words, definition.contents = .ret words)
    (hhome : tokHome ∉ l) (hends : ∀ tok ∈ l, tok ≠ tokStar → LookupEnds t m tok)
    (htokens : tokens.contents = .ret l)
    (hfit : (l.flatMap (pointers files m)).length < psBfs) :
    ∃ fTokens, Outcome.Returns (fun fuel =>
      resolveAliasShortcuts fuel fresh t (some files) tokens) fTokens := by
  have hinside := (Block.contents_eq_ret.mp htokens).1
  have hfuel : t.size ≤ max t.size (l.length + 1) := Nat.le_max_left _ _
  obtain ⟨st, hloop, hroomy⟩ := resolveLoop_returns files h hfuel hdefs hhome hends
    (max t.size (l.length + 1)) 0
    { bufsize := psBfs, pos := 0, tokens := tokens, fTokens := Block.alloc psBfs fresh }
    (contents_cell htokens) (by rw [Nat.zero_add]; exact hinside) (by omega)
    ⟨Nat.le_refl _, Nat.le_refl _⟩ (by rw [Nat.zero_add]; exact hfit)
  obtain ⟨_, _, hputs⟩ := resolveLoop_puts h (contents_cell htokens) hloop
  have hpos : st.pos = 0 + (l.flatMap (pointers files m)).length := hputs.pos
  have hcap := hroomy.cap
  refine ⟨st.fTokens.set st.pos none, max t.size (l.length + 1), ?_⟩
  show resolveAliasShortcuts (max t.size (l.length + 1)) fresh t (some files) tokens = _
  rw [resolveAliasShortcuts, hloop, Outcome.ret_bind]
  exact Block.write_of_lt (by omega) none

end Result

section Substitution

variable {files l : List CString} {m : CString → Option Definition}

/-- Up to what can still be read, the loop puts what the tokens stand for. -/
theorem pointers_length (homePath : CString) {tok : CString} (hhome : tok ≠ tokHome) :
    (pointers files m tok).length = (expansion homePath files m tok).length := by
  rw [pointers, expansion, if_neg hhome]
  split <;> rw [List.length_map]

theorem flatMap_pointers_length (homePath : CString) (hhome : tokHome ∉ l) :
    (l.flatMap (pointers files m)).length =
      (l.flatMap (expansion homePath files m)).length := by
  rw [List.length_flatMap, List.length_flatMap]
  congr 1
  refine List.map_congr_left fun tok htok => pointers_length homePath ?_
  rintro rfl
  exact hhome htok

/-- The pointers read as what the tokens stand for exactly when no `*` stands for a
name. -/
theorem flatMap_pointers_eq (homePath : CString) (hhome : tokHome ∉ l) :
    l.flatMap (pointers files m) = (l.flatMap (expansion homePath files m)).map .text ↔
      (tokStar ∈ l → ∀ name ∈ files, isVisible name = false) := by
  rw [List.map_flatMap]
  constructor
  · intro heq hstar name hname
    by_contra hvisible
    rw [Bool.not_eq_false] at hvisible
    have hmem : TokenPtr.freed name ∈ l.flatMap (pointers files m) := by
      refine List.mem_flatMap.mpr ⟨tokStar, hstar, ?_⟩
      rw [pointers, if_pos rfl]
      exact List.mem_map_of_mem (List.mem_filter.mpr ⟨hname, hvisible⟩)
    rw [heq] at hmem
    obtain ⟨tok, _, hmem⟩ := List.mem_flatMap.mp hmem
    obtain ⟨s, _, hs⟩ := List.mem_map.mp hmem
    cases hs
  · intro hnone
    refine List.flatMap_congr fun tok htok => ?_
    have hne : tok ≠ tokHome := by
      rintro rfl
      exact hhome htok
    rw [pointers, expansion, if_neg hne]
    split
    · rename_i hstar
      have hempty : files.filter isVisible = [] :=
        List.filter_eq_nil_iff.mpr fun name hname => by
          rw [hnone (hstar ▸ htok) name hname]
          exact Bool.false_ne_true
      rw [hempty]
      rfl
    · rfl

end Substitution

/-- `*` in a directory with one file: its name has been freed. -/
theorem not_expands_star :
    ¬ Expands (fun _ => none) (atNewAt 50 0) .empty [.lit ['f']] (fun _ => none)
      ⟨512, fun i => if i = 0 then some tokStar else none⟩ [tokStar] := by
  rintro ⟨fTokens, ⟨fuel, hret⟩, hreads⟩
  have htokens : Block.contents ⟨512, fun i => if i = 0 then some tokStar else none⟩ =
      .ret [tokStar] := by rfl
  have hinv : TableInv (atNewAt 50 0 : AliasTable Definition) fun _ => none :=
    tableNew_inv (by decide)
  obtain ⟨hhome, _, hput⟩ := resolve_puts hinv htokens hret
  have heq := Outcome.ret.inj (hput.symm.trans hreads)
  have hnone := (flatMap_pointers_eq .empty hhome).mp heq (by simp) (.lit ['f']) (by simp)
  exact absurd hnone (by decide)

/-- **When a line expands to what it stands for.**  For every line with fewer than 512
resulting tokens, and after every run of `at_set` calls with definitions that end in
NULL: exactly when the line has no `~`, has a `*` only if the directory has no name to
show, and, if the last call filled the alias table, has only aliases besides. -/
theorem expands_iff (n : Nat) (hn : 2 ≤ n) (ops : List (CString × Definition))
    (t : AliasTable Definition) (hrun : AtRun n ops t)
    (hdefs : ∀ op ∈ ops, ∃ words, op.2.contents = .ret words)
    (fresh : Nat → Option TokenPtr) (homePath : CString) (files : List CString)
    (tokens : Block (Option CString)) (l : List CString) (htokens : tokens.contents = .ret l)
    (hfit : (l.flatMap (expansion homePath files (lastWrite ops))).length < 512) :
    Expands fresh t homePath files (lastWrite ops) tokens l ↔
      tokHome ∉ l ∧ (tokStar ∈ l → ∀ name ∈ files, isVisible name = false) ∧
        (FillsTable n ops → ∀ tok ∈ l, tok ≠ tokStar → lastWrite ops tok ≠ none) := by
  have hmap := (hrun.inv hn).map
  have hends : (∀ tok ∈ l, tok ≠ tokStar → LookupEnds t (lastWrite ops) tok) ↔
      (FillsTable n ops → ∀ tok ∈ l, tok ≠ tokStar → lastWrite ops tok ≠ none) := by
    have hle := hmap.count_le
    rw [fillsTable_iff hn hrun]
    constructor
    · intro h hfull tok htok hstar
      apply (h tok htok hstar).resolve_right
      omega
    · intro h tok htok hstar
      by_cases hfull : t.count = t.size
      · exact .inl (h hfull tok htok hstar)
      · exact .inr (by omega)
  rw [← hends]
  constructor
  · rintro ⟨fTokens, ⟨fuel, hret⟩, hreads⟩
    obtain ⟨hhome, hlookups, hput⟩ := resolve_puts hmap htokens hret
    have heq := Outcome.ret.inj (hput.symm.trans hreads)
    exact ⟨hhome, (flatMap_pointers_eq homePath hhome).mp heq, hlookups⟩
  · rintro ⟨hhome, hstar, hlookups⟩
    have hwords : ∀ tok ∈ l, ∀ definition, lastWrite ops tok = some definition →
        ∃ words, definition.contents = .ret words := by
      intro tok _ definition hkey
      obtain ⟨op, hop, rfl⟩ := mem_of_lastWrite hkey
      exact hdefs op hop
    obtain ⟨fTokens, hreturns⟩ := resolve_returns fresh files hmap hwords hhome hlookups
      htokens (by rw [flatMap_pointers_length homePath hhome]; exact hfit)
    refine ⟨fTokens, hreturns, ?_⟩
    obtain ⟨fuel, hret⟩ := hreturns
    rw [(resolve_puts hmap htokens hret).2.2, (flatMap_pointers_eq homePath hhome).mpr hstar]

/-- The line `l`, with `l` an alias for `ls`. -/
theorem expands_iff_l :
    (2 ≤ 50) ∧ (∀ op ∈ [(CString.lit ['l'], lsDefinition)],
      ∃ words, op.2.contents = .ret words) ∧
    ∃ t, AtRun 50 [(CString.lit ['l'], lsDefinition)] t ∧
      (Expands (fun _ => none) t .empty [] (lastWrite [(CString.lit ['l'], lsDefinition)])
          ⟨512, fun i => if i = 0 then some (.lit ['l']) else none⟩ [.lit ['l']] ↔
        tokHome ∉ [CString.lit ['l']] ∧
          (tokStar ∈ [CString.lit ['l']] → ∀ name ∈ [], isVisible name = false) ∧
          (FillsTable 50 [(CString.lit ['l'], lsDefinition)] → ∀ tok ∈ [CString.lit ['l']],
            tok ≠ tokStar → lastWrite [(CString.lit ['l'], lsDefinition)] tok ≠ none)) := by
  have hdefs : ∀ op ∈ [(CString.lit ['l'], lsDefinition)],
      ∃ words, op.2.contents = .ret words := by
    intro op hop
    cases List.mem_singleton.mp hop
    exact ⟨[.lit ['l', 's']], by rfl⟩
  obtain ⟨t, hrun⟩ := exists_atRun (by decide : 2 ≤ 50) [(CString.lit ['l'], lsDefinition)]
  exact ⟨by decide, hdefs, t, hrun, expands_iff 50 (by decide) _ t hrun hdefs (fun _ => none)
    .empty [] _ [.lit ['l']] (by rfl) (by decide)⟩

end WizardShell.Ports
