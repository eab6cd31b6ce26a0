import WizardShell.Ports.Expansion
import WizardShell.Ports.Session

/-!
# What a line asks for

The shell knows the aliases that were defined, the words it completes, and the jobs it
has started (`View`); a line is split at blanks, its aliases are replaced, and what
results is a request (`View.request`).

`prepare_returns_iff`: the loop of `wsh_main` gets so far with a line exactly when it has
no `~`, no `*` that stands for a name, no token whose lookup hangs, and fewer than 512
words behind the aliases.
-/

namespace WizardShell.Ports

open Function
open WizardShell.Verified
open WizardShell.Verified.Probing
open TrieNode (null)

/-! ## The view of the user -/

/-- What a line asks for. -/
inductive Request where
  | nothing
  | builtin (b : Builtin) (argv : List CString)
  | splash
  | define (tokens : List CString)
  | execute (tokens : List CString)

/-- What the shell has been told and has done. -/
structure View where
  /-- The aliases, in the order of their definitions. -/
  defs : List (CString × List CString)
  /-- The completion words, while there are any. -/
  words : Option (Set LowerWord)
  shell : Shell

namespace Request

/-- The function of the shell that serves it. -/
def command : Request → Command
  | builtin .jobs argv => .jobs argv
  | builtin .fg argv => .fg argv
  | builtin .bg argv => .bg argv
  | execute tokens => .execute tokens
  | _ => .other

/-- A `splash` that fails goes straight to the next prompt. -/
def skips (q : Request) (r : Round) : Prop :=
  match q with
  | splash => r.splash ≠ 0
  | _ => False

instance (q : Request) (r : Round) : Decidable (q.skips r) := by
  cases q <;> unfold skips <;> infer_instance

/-- The part of the round that is about jobs. -/
def turn (q : Request) (r : Round) : Turn where
  command := q.command
  fork := r.fork
  kill := r.kill
  wait := r.wait
  reports := if q.skips r then [] else r.reports

end Request

namespace View

/-- What a token stands for.  A `*` stands for no name that could still be read. -/
def expand (v : View) (tok : CString) : List CString :=
  if tok = tokStar then [] else (lastWrite v.defs tok).getD [tok]

/-- What the expanded line asks for, where `arg0` is what `argv` begins with. -/
def request (v : View) (arg0 : CString) (toks : List CString) : Request :=
  match toks.flatMap v.expand with
  | [] => .nothing
  | name :: rest =>
      match builtinOf name with
      | some b => .builtin b (name :: rest)
      | none =>
          if arg0 = cmdSplash then .splash
          else if arg0 = cmdAlias then .define toks
          else .execute (name :: rest)

/-- `argv` begins with the base name of the first token, if this is a word. -/
def BeginsWith (v : View) (toks : List CString) (arg0 : CString) : Prop :=
  ∀ name rest, toks.flatMap v.expand = name :: rest → isWord name = true →
    arg0 = baseName name

/-- What a request makes of the aliases.  The words that are stored are followed by what
the memory held, up to the first NULL. -/
def Defines (v : View) (r : Round) (q : Request) (defs : List (CString × List CString)) :
    Prop :=
  match q with
  | .define (_ :: name :: equals :: definition) =>
      if equals = tokEquals ∧ definition ≠ [] then
        ∃ l, defs = v.defs ++ [(name, l)] ∧ definition <+: l ∧
          (r.freshDefinition definition.length = none → l = definition)
      else defs = v.defs
  | _ => defs = v.defs

open Classical in
/-- The names of the directory are taken away again; with the last word the trie goes. -/
noncomputable def withdraw (listing : List CString) (S : Set LowerWord) :
    Option (Set LowerWord) :=
  if offeredWords listing = ∅ then some S
  else if (S \ offeredWords listing).Nonempty then some (S \ offeredWords listing)
  else none

/-- What a round makes of the completion words. -/
noncomputable def wordsAfter (v : View) (r : Round) (q : Request) : Option (Set LowerWord) :=
  if q.skips r then v.words.map (· ∪ offeredWords r.listing)
  else v.words.bind fun S => withdraw r.listing (S ∪ offeredWords r.listing)

/-- The tokens of the line are `toks`, and the request they make is served. -/
structure Serves (v : View) (r : Round) (toks : List CString) (q : Request) (v' : View) :
    Prop where
  spaced : Spaced tokDelim r.text (toks.map CString.bytes)
  asks : ∃ arg0, v.BeginsWith toks arg0 ∧ q = v.request arg0 toks
  defs : v.Defines r q v'.defs
  words : v'.words = v.wordsAfter r q
  shell : v.shell.turn (q.turn r) = .ret v'.shell

/-- One round, as the user sees it. -/
def step (v : View) (r : Round) (v' : View) : Prop := ∃ toks q, v.Serves r toks q v'

/-- At the first prompt. -/
def start (words : Set LowerWord) (pgrp : Int) : View := ⟨[], some words, .init pgrp⟩

end View

/-! ## The session -/

/-- One round of the session that comes back to the prompt. -/
def sessionStep (s : Session) (r : Round) (s' : Session) : Prop :=
  Outcome.Returns (fun fuel => s.round fuel r) (.next s')

/-- The table stands for the definitions, each of which can be read. -/
structure HoldsDefinitions (t : AliasTable Definition) (stale : Nat)
    (ops : List (CString × Definition)) (defs : List (CString × List CString)) : Prop where
  run : StaleRun 50 stale ops t
  words : defs = ops.map fun op => (op.1, definitionWords op.2)
  readable : ∀ op ∈ ops, ∃ l, op.2.contents = .ret l

theorem HoldsDefinitions.inv {t : AliasTable Definition} {stale : Nat}
    {ops : List (CString × Definition)} {defs : List (CString × List CString)}
    (h : HoldsDefinitions t stale ops defs) : StaleInv 50 stale ops t :=
  h.run.inv (by decide)

/-- The completions pointer and the words. -/
def HoldsWords : CompletionsPtr → Option (Set LowerWord) → Prop
  | .root t, some S => t ≠ null ∧ Holds t S
  | .freed, none => True
  | _, _ => False

/-- The session is in the state that the view describes. -/
structure Session.Shows (s : Session) (stale : Nat) (v : View) : Prop where
  aliases : ∃ ops, HoldsDefinitions s.alTable stale ops v.defs
  builtins : HoldsBuiltins s.biTable
  words : HoldsWords s.completions v.words
  shell : s.shell = v.shell

/-! ## Preparing a line -/

section Prepare

variable {toks : List CString} {l : List CString} {fuel : Nat}

/-- The array of pointers reads as the tokens. -/
theorem tokenStrings_eq {tokens : Block (Option Nat)} {line : Block UInt8}
    (h : ReadsTokens tokens line (toks.map CString.bytes)) :
    ∃ strings, tokenStrings line tokens = .ret strings ∧ strings.contents = .ret toks := by
  obtain ⟨starts, hcontents, hholds⟩ := h
  have hread : starts.mapM (strAt line) = .ret toks := by
    rw [Outcome.mapM_eq_ret]
    rw [List.forall₂_map_right_iff] at hholds
    exact hholds.imp fun _ _ hword => strAt_eq hword
  refine ⟨{ cap := tokens.cap, cell := fun i => toks[i]? }, ?_, ?_⟩
  · simp only [tokenStrings, hcontents, hread, Outcome.ret_bind, Outcome.pure_eq]
  · rw [Block.contents_eq_ret]
    refine ⟨?_, fun _ _ => rfl⟩
    have hlen := hholds.length_eq
    rw [List.length_map] at hlen
    show toks.length < tokens.cap
    rw [← hlen]
    exact (Block.contents_eq_ret.mp hcontents).1

/-- Only a `*` asks for the directory. -/
theorem resolveToken_listing {t : AliasTable Definition} {tok : CString} (hstar : tok ≠ tokStar)
    (listing listing' : Option (List CString)) (st : ResolveState) :
    resolveToken fuel t listing st tok = resolveToken fuel t listing' st tok := by
  simp only [resolveToken, if_neg hstar]

theorem resolveLoop_listing {t : AliasTable Definition} (listing listing' : Option (List CString))
    (hstar : tokStar ∉ toks) :
    ∀ {turns i : Nat} {st : ResolveState},
      (∀ k, k ≤ toks.length → st.tokens.cell (i + k) = toks[k]?) →
      resolveLoop fuel t listing turns i st = resolveLoop fuel t listing' turns i st := by
  induction toks with
  | nil =>
      intro turns i st hcells
      cases turns with
      | zero => rfl
      | succ turns =>
          have hcell : st.tokens.cell i = none := hcells 0 (Nat.le_refl _)
          rw [resolveLoop, resolveLoop]
          by_cases hinside : i < st.tokens.cap
          · rw [Block.read_of_lt hinside, Outcome.ret_bind, Outcome.ret_bind, hcell]
          · rw [Block.read, if_neg hinside]
            rfl
  | cons tok rest ih =>
      intro turns i st hcells
      rw [List.mem_cons, not_or] at hstar
      cases turns with
      | zero => rfl
      | succ turns =>
          have hcell : st.tokens.cell i = some tok := hcells 0 (Nat.zero_le _)
          rw [resolveLoop, resolveLoop]
          by_cases hinside : i < st.tokens.cap
          · rw [Block.read_of_lt hinside, Outcome.ret_bind, Outcome.ret_bind, hcell]
            simp only [resolveToken_listing (Ne.symm hstar.1) listing listing' st]
            cases hturn : resolveToken fuel t listing' st tok with
            | undefined => rfl
            | outOfFuel => rfl
            | ret mid =>
                refine ih hstar.2 fun k hk => ?_
                have hnext := hcells (k + 1) (Nat.succ_le_succ hk)
                rw [resolveToken_cell hturn, Nat.add_assoc, Nat.add_comm 1, hnext,
                  List.getElem?_cons_succ]
          · rw [Block.read, if_neg hinside]
            rfl

/-- Without a directory to read there is no `*`. -/
theorem resolveLoop_unlisted {t : AliasTable Definition} :
    ∀ {turns i : Nat} {st st' : ResolveState},
      (∀ k, k ≤ toks.length → st.tokens.cell (i + k) = toks[k]?) →
      resolveLoop fuel t none turns i st = .ret st' → tokStar ∉ toks := by
  induction toks with
  | nil => exact fun _ _ => List.not_mem_nil
  | cons tok rest ih =>
      intro turns i st st' hcells hret
      cases turns with
      | zero => cases hret
      | succ turns =>
          obtain ⟨c, hread, hret⟩ := Outcome.bind_eq_ret.mp hret
          have hcell : st.tokens.cell i = some tok := hcells 0 (Nat.zero_le _)
          rw [← (Block.read_eq_ret.mp hread).2, hcell] at hret
          obtain ⟨mid, hturn, hret⟩ := Outcome.bind_eq_ret.mp hret
          have hcells₁ : ∀ k, k ≤ rest.length → mid.tokens.cell (i + 1 + k) = rest[k]? := by
            intro k hk
            have hnext := hcells (k + 1) (Nat.succ_le_succ hk)
            rw [resolveToken_cell hturn, Nat.add_assoc, Nat.add_comm 1, hnext,
              List.getElem?_cons_succ]
          rw [List.mem_cons, not_or]
          refine ⟨?_, ih hcells₁ hret⟩
          rintro rfl
          rw [resolveToken, if_neg (by decide), if_pos rfl] at hturn
          cases hturn

/-- Pointers that can all be read are pointers to strings. -/
theorem mapM_read_eq_ret {ps : List TokenPtr} :
    ps.mapM TokenPtr.read = .ret l ↔ ps = l.map .text := by
  rw [Outcome.mapM_eq_ret]
  constructor
  · intro h
    induction h with
    | nil => rfl
    | @cons q w _ _ hq _ ih =>
        cases q with
        | text w' =>
            cases hq
            rw [ih, List.map_cons]
        | freed name => cases hq
  · rintro rfl
    rw [List.forall₂_map_left_iff]
    exact List.forall₂_same.mpr fun _ _ => rfl

/-- The `*` of the line, if there is one, stands for no name. -/
def StarsEmpty (files toks : List CString) : Prop :=
  tokStar ∈ toks → ∀ name ∈ files, isVisible name = false

/-- Up to the names for `*`, the pointers are those to what the tokens stand for. -/
theorem pointers_eq_expand {files : List CString} {m : CString → Option Definition} {v : View}
    (hv : ∀ tok, tok ≠ tokStar → v.expand tok = aliasWords m tok)
    (hstar : StarsEmpty files toks) :
    toks.flatMap (pointers files m) = (toks.flatMap v.expand).map .text := by
  rw [List.map_flatMap]
  refine List.flatMap_congr fun tok htok => ?_
  by_cases heq : tok = tokStar
  · subst heq
    have hnone : files.filter isVisible = [] := by
      rw [List.filter_eq_nil_iff]
      exact fun name hname => Bool.not_eq_true _ ▸ hstar htok name hname
    rw [pointers, if_pos rfl, hnone, View.expand, if_pos rfl]
    rfl
  · rw [pointers, if_neg heq, hv tok heq]

/-- What is put can be read exactly when no `*` stands for a name, and then it is what
the tokens stand for. -/
theorem pointers_eq_text {files : List CString} {m : CString → Option Definition} {v : View}
    (hv : ∀ tok, tok ≠ tokStar → v.expand tok = aliasWords m tok) :
    toks.flatMap (pointers files m) = l.map .text ↔
      StarsEmpty files toks ∧ l = toks.flatMap v.expand := by
  have htext : Injective TokenPtr.text := fun a b h => by
    cases h
    rfl
  constructor
  · intro heq
    have hstar : StarsEmpty files toks := by
      intro hmem name hname
      by_contra hvisible
      rw [Bool.not_eq_false] at hvisible
      have hfreed : TokenPtr.freed name ∈ toks.flatMap (pointers files m) := by
        refine List.mem_flatMap.mpr ⟨tokStar, hmem, ?_⟩
        rw [pointers, if_pos rfl]
        exact List.mem_map_of_mem (List.mem_filter.mpr ⟨hname, hvisible⟩)
      rw [heq] at hfreed
      obtain ⟨_, _, habs⟩ := List.mem_map.mp hfreed
      cases habs
    rw [pointers_eq_expand hv hstar] at heq
    exact ⟨hstar, (List.map_injective_iff.mpr htext heq).symm⟩
  · rintro ⟨hstar, rfl⟩
    exact pointers_eq_expand hv hstar

/-- The lookups do not read the count of the table. -/
theorem resolveToken_recount (t : AliasTable Definition) (listing : Option (List CString))
    (st : ResolveState) (tok : CString) :
    resolveToken fuel t.recount listing st tok = resolveToken fuel t listing st tok := rfl

theorem resolve_recount (t : AliasTable Definition) (fresh : Nat → Option TokenPtr)
    (listing : Option (List CString)) (tokens : Block (Option CString)) :
    resolveAliasShortcuts fuel fresh t.recount listing tokens =
      resolveAliasShortcuts fuel fresh t listing tokens := by
  have hloop : ∀ turns i st, resolveLoop fuel t.recount listing turns i st =
      resolveLoop fuel t listing turns i st := by
    intro turns
    induction turns with
    | zero => exact fun _ _ => rfl
    | succ turns ih =>
        intro i st
        simp only [resolveLoop, resolveToken_recount, ih]
  simp only [resolveAliasShortcuts, hloop]

end Prepare

section Lookups

variable {t : AliasTable Definition} {stale : Nat} {ops : List (CString × Definition)}
  {v : View} {tok : CString}

/-- What the table has for a token is what it stands for. -/
theorem HoldsDefinitions.expand (h : HoldsDefinitions t stale ops v.defs)
    (hstar : tok ≠ tokStar) : v.expand tok = aliasWords (lastWrite ops) tok := by
  rw [View.expand, if_neg hstar, h.words, lastWrite_map, aliasWords]
  cases lastWrite ops tok <;> rfl

/-- The lookup hangs where the last definition filled the table, unless the table counts
too many, and the token is no alias. -/
theorem HoldsDefinitions.lookupEnds_iff (h : HoldsDefinitions t stale ops v.defs) :
    LookupEnds t.recount (lastWrite ops) tok ↔
      (stale = 0 → FillsTable 50 v.defs → lastWrite v.defs tok ≠ none) := by
  have hfound : lastWrite v.defs tok ≠ none ↔ lastWrite ops tok ≠ none := by
    rw [h.words, lastWrite_map, ne_eq, Option.map_eq_none_iff]
  have hfull : FillsTable 50 v.defs ↔ FillsTable 50 ops := by
    rw [h.words]
    exact fillsTable_map
  have hle := occupied_le t.size t.entries
  rw [hfound, hfull, LookupEnds]
  show _ ∨ occupied t.size t.entries < t.size ↔ _
  by_cases hstale : stale = 0
  · subst hstale
    have hcount := h.inv.counts.count
    rw [fillsTable_iff (by decide) h.run]
    constructor
    · intro hends _ hfill
      exact hends.resolve_right (by omega)
    · intro hends
      by_cases hfill : t.count = t.size
      · exact .inl (hends rfl hfill)
      · exact .inr (by omega)
  · have hroomy := h.inv.roomy (Nat.pos_of_ne_zero hstale)
    exact ⟨fun _ hzero => absurd hzero hstale, fun _ => .inr hroomy⟩

end Lookups

/-! ## Lines that are prepared -/

/-- What the tokens and the directory must be like for `resolve_alias_shortcuts` and
`prep` to run through, where the count of the alias table was `stale`. -/
structure View.Prepares (v : View) (stale : Nat) (listing : Option (List CString))
    (toks : List CString) : Prop where
  noHome : tokHome ∉ toks
  star : tokStar ∈ toks → ∃ files, listing = some files ∧
    ∀ name ∈ files, isVisible name = false
  lookups : stale = 0 → FillsTable 50 v.defs →
    ∀ tok ∈ toks, tok ≠ tokStar → lastWrite v.defs tok ≠ none
  fits : (toks.flatMap v.expand).length < psBfs

section Resolved

variable {t : AliasTable Definition} {stale fuel : Nat} {ops : List (CString × Definition)}
  {v : View} {listing : Option (List CString)} {tokens argv : Block (Option CString)}
  {toks fTokens : List CString} {freshResolved : Nat → Option TokenPtr}
  {freshArgv : Nat → Option CString}

/-- `prep` runs through on fewer tokens than its array has cells. -/
theorem prep_returns : (∃ argv, prep freshArgv toks = .ret argv) ↔ toks.length < psBfs := by
  constructor
  · intro h
    by_contra hlong
    exact not_prepInside_of_long freshArgv (Nat.not_lt.mp hlong) h
  · intro hfit
    have hroom : 0 + toks.length ≤ (Block.alloc psBfs freshArgv).cap := by
      rw [Nat.zero_add]
      exact Nat.le_of_lt hfit
    obtain ⟨b, hloop, hcap⟩ := prepLoop_inside 0 (Block.alloc psBfs freshArgv) hroom
    have hlt : 0 + toks.length < b.cap := by
      rw [hcap, Nat.zero_add]
      exact hfit
    exact prepInside_of_loop hloop hlt

/-- **What is resolved and prepared** was expanded as the view says, and could be. -/
theorem resolveAndPrep_spec (h : HoldsDefinitions t stale ops v.defs)
    (hcontents : tokens.contents = .ret toks)
    (hret : resolveAndPrep fuel freshResolved freshArgv t listing tokens =
      .ret (fTokens, argv)) :
    fTokens = toks.flatMap v.expand ∧ prep freshArgv fTokens = .ret argv ∧
      v.Prepares stale listing toks := by
  obtain ⟨resolved, hresolve, hret⟩ := Outcome.bind_eq_ret.mp hret
  obtain ⟨l, hpointed, hret⟩ := Outcome.bind_eq_ret.mp hret
  obtain ⟨argv', hprep, hret⟩ := Outcome.bind_eq_ret.mp hret
  cases hret
  -- Without a `*` any directory will do.
  obtain ⟨files, hlisted, hfiles⟩ : ∃ files,
      resolveAliasShortcuts fuel freshResolved t (some files) tokens = .ret resolved ∧
        (tokStar ∈ toks → listing = some files) := by
    cases listing with
    | some files => exact ⟨files, hresolve, fun _ => rfl⟩
    | none =>
        obtain ⟨st, hloop, hwrite⟩ := Outcome.bind_eq_ret.mp hresolve
        have hcells := contents_cell hcontents
        have hstar := resolveLoop_unlisted hcells hloop
        refine ⟨[], ?_, fun hmem => absurd hmem hstar⟩
        rw [resolveLoop_listing none (some []) hstar hcells] at hloop
        rw [resolveAliasShortcuts, hloop, Outcome.ret_bind]
        exact hwrite
  rw [← resolve_recount] at hlisted
  obtain ⟨hhome, hends, hputs⟩ := resolve_puts h.inv.counts.map hcontents hlisted
  obtain ⟨ps, hps, hread⟩ := Outcome.bind_eq_ret.mp hpointed
  cases hputs.symm.trans hps
  obtain ⟨hstar, hexpand⟩ :=
    (pointers_eq_text fun tok => h.expand).mp (mapM_read_eq_ret.mp hread)
  refine ⟨hexpand, hprep, hhome, fun hmem => ⟨files, hfiles hmem, hstar hmem⟩, ?_, ?_⟩
  · intro hstale hfill tok htok hne
    exact h.lookupEnds_iff.mp (hends tok htok hne) hstale hfill
  · rw [← hexpand]
    exact prep_returns.mp ⟨_, hprep⟩

/-- With turns enough for the lookups and the tokens, this is what comes out. -/
theorem resolveAndPrep_returns (h : HoldsDefinitions t stale ops v.defs)
    (hcontents : tokens.contents = .ret toks) (hline : v.Prepares stale listing toks)
    (hfuel : t.size ≤ fuel) (hturns : toks.length < fuel) :
    ∃ p, resolveAndPrep fuel freshResolved freshArgv t listing tokens = .ret p := by
  obtain ⟨files, hstar, hlisting⟩ : ∃ files, StarsEmpty files toks ∧
      (tokStar ∈ toks → listing = some files) := by
    by_cases hmem : tokStar ∈ toks
    · obtain ⟨files, hfiles, hnone⟩ := hline.star hmem
      exact ⟨files, fun _ => hnone, fun _ => hfiles⟩
    · exact ⟨[], fun habs => absurd habs hmem, fun habs => absurd habs hmem⟩
  have hcells := contents_cell hcontents
  have hinside := (Block.contents_eq_ret.mp hcontents).1
  have hpointers := pointers_eq_expand (fun tok => h.expand) hstar
  have hfit : (toks.flatMap (pointers files (lastWrite ops))).length < psBfs := by
    rw [hpointers, List.length_map]
    exact hline.fits
  have hends : ∀ tok ∈ toks, tok ≠ tokStar → LookupEnds t.recount (lastWrite ops) tok := by
    intro tok htok hne
    exact h.lookupEnds_iff.mpr fun hstale hfill => hline.lookups hstale hfill tok htok hne
  have hdefs : ∀ tok ∈ toks, ∀ definition, lastWrite ops tok = some definition →
      ∃ words, definition.contents = .ret words := by
    intro tok _ definition hkey
    obtain ⟨op, hop, rfl⟩ := mem_of_lastWrite hkey
    exact h.readable op hop
  have hrecount : t.recount.size ≤ fuel := hfuel
  obtain ⟨st, hloop, hroomy⟩ := resolveLoop_returns files h.inv.counts.map hrecount hdefs
    hline.noHome hends fuel 0
    { bufsize := psBfs, pos := 0, tokens := tokens,
      fTokens := Block.alloc psBfs freshResolved }
    hcells (by rw [Nat.zero_add]; exact hinside) hturns
    ⟨Nat.le_refl _, Nat.le_refl _⟩ (by rw [Nat.zero_add]; exact hfit)
  obtain ⟨_, _, hputs⟩ := resolveLoop_puts h.inv.counts.map hcells hloop
  have hpos : st.pos = 0 + (toks.flatMap (pointers files (lastWrite ops))).length := hputs.pos
  have hcap := hroomy.cap
  have hresolve : resolveAliasShortcuts fuel freshResolved t.recount (some files) tokens =
      .ret (st.fTokens.set st.pos none) := by
    rw [resolveAliasShortcuts, hloop, Outcome.ret_bind]
    exact Block.write_of_lt (by omega) none
  obtain ⟨_, _, hread⟩ := resolve_puts h.inv.counts.map hcontents hresolve
  have hresolve' : resolveAliasShortcuts fuel freshResolved t listing tokens =
      .ret (st.fTokens.set st.pos none) := by
    rw [resolve_recount] at hresolve
    by_cases hmem : tokStar ∈ toks
    · rw [hlisting hmem]
      exact hresolve
    · rw [← hresolve, resolveAliasShortcuts, resolveAliasShortcuts,
        resolveLoop_listing listing (some files) hmem hcells]
  have hpointed : pointedStrings (st.fTokens.set st.pos none) =
      .ret (toks.flatMap v.expand) := by
    rw [pointedStrings, hread, Outcome.ret_bind, mapM_read_eq_ret, hpointers]
  obtain ⟨argv, hprep⟩ : ∃ argv, prep freshArgv (toks.flatMap v.expand) = .ret argv :=
    prep_returns.mpr hline.fits
  refine ⟨(toks.flatMap v.expand, argv), ?_⟩
  simp only [resolveAndPrep, Outcome.ret_bind, hresolve', hpointed, hprep, Outcome.pure_eq]

end Resolved

section Prepared

variable {s : Session} {r : Round} {p : Prepared} {v : View} {stale fuel : Nat}
  {ops : List (CString × Definition)} {toks : List CString}

/-- **A line that is prepared** has its tokens, was expanded as the view says, and was
one that can be prepared. -/
theorem Session.prepare_spec (h : HoldsDefinitions s.alTable stale ops v.defs)
    (hspaced : Spaced tokDelim r.text (toks.map CString.bytes))
    (hret : s.prepare fuel r = .ret p) :
    p.tokens.contents = .ret toks ∧ p.fTokens = toks.flatMap v.expand ∧
      prep r.freshArgv p.fTokens = .ret p.argv ∧ v.Prepares stale r.starListing toks := by
  obtain ⟨tokens, line, htokenize, hdone⟩ := wshTokenize_spaced r.freshTokens r.holds hspaced
  rw [prepare, htokenize, Outcome.ret_bind] at hret
  obtain ⟨strings, hstrings, hcontents⟩ := tokenStrings_eq hdone.reads
  obtain ⟨strings', hstrings', hret⟩ := Outcome.bind_eq_ret.mp hret
  cases hstrings.symm.trans hstrings'
  obtain ⟨⟨fTokens, argv⟩, hresolved, hret⟩ := Outcome.bind_eq_ret.mp hret
  cases hret
  exact ⟨hcontents, resolveAndPrep_spec h hcontents hresolved⟩

/-- With turns enough for the lookups and the tokens, such a line is prepared. -/
theorem Session.prepare_returns (h : HoldsDefinitions s.alTable stale ops v.defs)
    (hspaced : Spaced tokDelim r.text (toks.map CString.bytes))
    (hline : v.Prepares stale r.starListing toks) (hfuel : s.alTable.size ≤ fuel)
    (hturns : toks.length < fuel) : ∃ p, s.prepare fuel r = .ret p := by
  obtain ⟨tokens, line, htokenize, hdone⟩ := wshTokenize_spaced r.freshTokens r.holds hspaced
  obtain ⟨strings, hstrings, hcontents⟩ := tokenStrings_eq hdone.reads
  obtain ⟨⟨fTokens, argv⟩, hresolved⟩ : ∃ p, resolveAndPrep fuel r.freshResolved r.freshArgv
      s.alTable r.starListing strings = .ret p :=
    resolveAndPrep_returns h hcontents hline hfuel hturns
  refine ⟨⟨strings, fTokens, argv⟩, ?_⟩
  simp only [prepare, htokenize, Outcome.ret_bind, hstrings, hresolved, Outcome.pure_eq]

theorem Session.prepare_returns_iff (h : HoldsDefinitions s.alTable stale ops v.defs)
    (hspaced : Spaced tokDelim r.text (toks.map CString.bytes)) :
    (∃ p, Outcome.Returns (fun fuel => s.prepare fuel r) p) ↔
      v.Prepares stale r.starListing toks := by
  constructor
  · rintro ⟨p, fuel, hret⟩
    exact (prepare_spec h hspaced hret).2.2.2
  · intro hline
    have hfuel : s.alTable.size ≤ max s.alTable.size (toks.length + 1) := Nat.le_max_left _ _
    obtain ⟨p, hret⟩ := prepare_returns h hspaced hline hfuel (Nat.le_max_right _ _)
    exact ⟨p, _, hret⟩

end Prepared

end WizardShell.Ports
