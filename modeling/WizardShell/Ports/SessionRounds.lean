import WizardShell.Ports.SessionView

/-!
# The rounds of a session

The loop of `wsh_main` against the view of the user.  A round that ends has served the
request of its line or has left the shell for it (`Session.round_serves`), and a line that
is allowed is served (`Session.round_returns`).
-/

namespace WizardShell.Ports

open Function
open WizardShell.Verified
open WizardShell.Verified.Probing
open TrieNode (null)

/-! ## The parts of a round -/

section Parts

variable {s : Session} {r : Round} {v : View} {stale fuel : Nat} {listing : List CString}

/-- An array that starts with some words and can be read. -/
theorem prefix_of_contents {b : Block (Option CString)} {xs l : List CString}
    (hcells : ∀ j, j < xs.length → b.cell j = xs[j]?) (hread : b.contents = .ret l) :
    xs <+: l ∧ (b.cell xs.length = none → l = xs) := by
  obtain ⟨_, hl⟩ := Block.contents_eq_ret.mp hread
  have hlen : xs.length ≤ l.length := by
    by_contra hlt
    have hnull := hl l.length (Nat.le_refl _)
    rw [hcells _ (Nat.lt_of_not_le hlt), List.getElem?_eq_none (Nat.le_refl _),
      List.getElem?_eq_none_iff] at hnull
    exact hlt hnull
  have hbegins : xs <+: l := by
    rw [List.prefix_iff_getElem?]
    intro j hj
    rw [← hl j (by omega), hcells j hj, List.getElem?_eq_getElem hj]
  refine ⟨hbegins, fun hnull => ?_⟩
  rw [hl _ hlen, List.getElem?_eq_none_iff] at hnull
  exact (hbegins.eq_of_length (Nat.le_antisymm hlen hnull)).symm

/-- What `process_alias` makes of the table. -/
theorem processAlias_defines {t t' : AliasTable Definition} {ops : List (CString × Definition)}
    {tokens : List CString} {ret : Int} (h : HoldsDefinitions t stale ops v.defs)
    (hret : processAlias fuel r.freshDefinition t tokens.length tokens false = .ret (ret, t')) :
    ∃ ops' defs, HoldsDefinitions t' stale ops' defs ∧ v.Defines r (.define tokens) defs := by
  have hsame : t' = t → v.Defines r (.define tokens) v.defs →
      ∃ ops' defs, HoldsDefinitions t' stale ops' defs ∧ v.Defines r (.define tokens) defs := by
    rintro rfl hdefs
    exact ⟨ops, v.defs, h, hdefs⟩
  unfold processAlias at hret
  split at hret
  · rename_i hshort
    cases hret
    refine hsame rfl ?_
    unfold View.Defines
    split
    · rename_i cmd name equals definition heq
      cases heq
      have hnil : definition = [] := by
        rw [← List.length_eq_zero_iff]
        simp only [List.length_cons] at hshort
        omega
      rw [if_neg fun hboth => hboth.2 hnil]
    · rfl
  · rename_i hlong
    split at hret
    · rename_i cmd name equals definition
      by_cases hequals : equals = tokEquals
      · have hne : definition ≠ [] := by
          rintro rfl
          simp at hlong
        rw [if_neg (not_not.mpr hequals)] at hret
        obtain ⟨tokDef, hcopy, _, hcells, hlast⟩ :=
          copyDefinition_start definition r.freshDefinition
        rw [hcopy, Outcome.ret_bind] at hret
        obtain ⟨⟨r₁, t₁⟩, hset, hret⟩ := Outcome.bind_eq_ret.mp hret
        obtain ⟨hr₁, _⟩ := h.inv.counts.set_spec hset
        subst hr₁
        simp only [ne_eq, not_true_eq_false, if_false, Bool.not_false, if_true] at hret
        obtain ⟨l, hprint, hret⟩ := Outcome.bind_eq_ret.mp hret
        cases hret
        have hread : tokDef.contents = .ret l := hprint
        obtain ⟨hbegins, hexact⟩ := prefix_of_contents hcells hread
        refine ⟨ops ++ [(name, tokDef)], v.defs ++ [(name, l)],
          ⟨.next h.run ⟨fuel, hset⟩, ?_, ?_⟩, ?_⟩
        · rw [h.words, List.map_append, List.map_singleton, definitionWords, hread]
          rfl
        · intro op hop
          rcases List.mem_append.mp hop with hold | hnew
          · exact h.readable op hold
          · rw [List.mem_singleton.mp hnew]
            exact ⟨l, hread⟩
        · show if equals = tokEquals ∧ definition ≠ [] then _ else _
          rw [if_pos ⟨hequals, hne⟩]
          exact ⟨l, rfl, hbegins, fun hnull => hexact (hlast.trans hnull)⟩
      · rw [if_pos hequals] at hret
        cases hret
        refine hsame rfl ?_
        show if equals = tokEquals ∧ definition ≠ [] then _ else _
        rw [if_neg fun hboth => hequals hboth.1]
    · cases hret

/-- The top of the loop adds the names of the directory … -/
theorem HoldsWords.insertListing {c c' : CompletionsPtr} {w : Option (Set LowerWord)}
    (h : HoldsWords c w) (hret : c.insertListing listing = .ret c') :
    HoldsWords c' (w.map (· ∪ offeredWords listing)) := by
  cases c with
  | root t =>
      cases w with
      | none => exact h.elim
      | some S =>
          obtain ⟨hne, hholds⟩ := h
          obtain ⟨t', hinsert, hne', hholds'⟩ := insertListing_spec listing hholds hne
          rw [CompletionsPtr.insertListing, hinsert] at hret
          cases hret
          exact ⟨hne', hholds'⟩
  | freed =>
      cases w with
      | some S => exact h.elim
      | none =>
          rw [CompletionsPtr.insertListing] at hret
          split at hret
          · cases hret
          · cases hret
            exact trivial

/-- … and its bottom takes them away. -/
theorem HoldsWords.removeListing {c c' : CompletionsPtr} {w : Option (Set LowerWord)}
    (h : HoldsWords c w) (hret : Ports.removeListing listing c = .ret c') :
    HoldsWords c' (w.bind (View.withdraw listing)) := by
  cases c with
  | root t =>
      cases w with
      | none => exact h.elim
      | some S =>
          obtain ⟨hne, hholds⟩ := h
          show HoldsWords c' (View.withdraw listing S)
          unfold View.withdraw
          by_cases hempty : offeredWords listing = ∅
          · rw [if_pos hempty]
            rw [removeListing_of_empty hempty] at hret
            cases hret
            exact ⟨hne, hholds⟩
          · rw [if_neg hempty]
            by_cases hleft : (S \ offeredWords listing).Nonempty
            · rw [if_pos hleft]
              obtain ⟨t', hremove, hne', hholds'⟩ :=
                removeListing_of_nonempty listing hholds hne hleft
              cases hremove.symm.trans hret
              exact ⟨hne', hholds'⟩
            · rw [if_neg hleft]
              have hall := Set.not_nonempty_iff_eq_empty.mp hleft
              have hsome := Set.nonempty_iff_ne_empty.mpr hempty
              cases c' with
              | root t' =>
                  exact absurd hret (removeListing_of_all listing hholds hne hall hsome t')
              | freed => exact trivial
  | freed =>
      cases w with
      | some S => exact h.elim
      | none =>
          cases c' with
          | root t' => exact absurd hret (removeListing_freed listing t')
          | freed => exact trivial

/-- The first cell of `argv` has the base name of the first token, if this is a word. -/
theorem argv_zero {fresh : Nat → Option CString} {argv : Block (Option CString)}
    {name : CString} {rest : List CString} (hprep : prep fresh (name :: rest) = .ret argv)
    (hword : isWord name = true) : argv.read 0 = .ret (some (baseName name)) := by
  obtain ⟨hcap, _, hfirst, _⟩ := prep_cells hprep
  have hcell : argv.cell 0 = some (baseName name) := by
    rw [hfirst (List.cons_ne_nil _ _), argvCell, List.getElem?_cons_zero, Option.filter_some,
      if_pos hword]
    rfl
  rw [Block.read_of_lt (Nat.lt_of_le_of_lt (Nat.zero_le _) hcap), hcell]

/-- What `prep` returns has an end. -/
theorem exists_argc {fresh : Nat → Option CString} {argv : Block (Option CString)}
    {tokens : List CString} (hprep : prep fresh tokens = .ret argv) :
    ∃ argc, ppstrlen argv = .ret argc := by
  obtain ⟨hcap, hnull, _⟩ := prep_cells hprep
  obtain ⟨l, hl⟩ := Block.exists_contents hnull hcap
  exact ⟨l.length, ppstrlen_eq hl⟩

/-- What `argv` begins with. -/
theorem argv_beginsWith {p : Prepared} {toks : List CString} {name arg0 : CString}
    {rest : List CString} (hexpanded : p.fTokens = toks.flatMap v.expand)
    (hprep : prep r.freshArgv p.fTokens = .ret p.argv) (hline : p.fTokens = name :: rest)
    (hread : p.argv.read 0 = .ret (some arg0)) : v.BeginsWith toks arg0 := by
  intro name' rest' hname hword
  rw [← hexpanded, hline] at hname
  cases hname
  rw [hline] at hprep
  cases hread.symm.trans (argv_zero hprep hword)
  rfl

/-- How a line may be left that makes the request `q`: by `exit`; straight to the prompt;
or served, which may change the aliases and the jobs. -/
inductive Left (s : Session) (v : View) (r : Round) (stale : Nat) (q : Request) :
    DispatchEnd → Prop
  | exits {argv : List CString} {status : Int} {c : Cleanup} (hq : q = .builtin .exit argv)
      (hexit : s.shell.binExit 0 0 argv = .ret (.exits status c)) :
      Left s v r stale q (.exited status c)
  | skips (hq : q.skips r) : Left s v r stale q (.skip s)
  | served {alTable : AliasTable Definition} {shell : Shell}
      {ops : List (CString × Definition)} {defs : List (CString × List CString)}
      (hq : ¬ q.skips r) (hrun : s.shell.run (q.turn r) = .ret shell)
      (haliases : HoldsDefinitions alTable stale ops defs) (hdefs : v.Defines r q defs) :
      Left s v r stale q (.bottom { s with alTable := alTable, shell := shell })

/-- A builtin is called. -/
theorem Session.callBuiltin_left {ops : List (CString × Definition)} {argv : List CString}
    {b : Builtin} {how : DispatchEnd} (h : HoldsDefinitions s.alTable stale ops v.defs)
    (hret : s.callBuiltin r argv b = .ret how) : Left s v r stale (.builtin b argv) how := by
  have hrest : ∀ {shell : Shell}, s.shell.run ((Request.builtin b argv).turn r) = .ret shell →
      Left s v r stale (.builtin b argv) (.bottom { s with shell := shell }) := fun hrun =>
    .served (fun hskips => hskips.elim) hrun h rfl
  cases b with
  | clear =>
      cases hret
      exact hrest rfl
  | cd =>
      cases hret
      exact hrest rfl
  | ln =>
      cases hret
      exact hrest rfl
  | jobs =>
      obtain ⟨⟨ret, shell⟩, hcall, hret⟩ := Outcome.bind_eq_ret.mp hret
      cases hret
      exact hrest (Outcome.bind_eq_ret.mpr ⟨_, hcall, rfl⟩)
  | fg =>
      obtain ⟨⟨ret, shell⟩, hcall, hret⟩ := Outcome.bind_eq_ret.mp hret
      cases hret
      exact hrest (Outcome.bind_eq_ret.mpr ⟨_, hcall, rfl⟩)
  | bg =>
      obtain ⟨⟨ret, shell⟩, hcall, hret⟩ := Outcome.bind_eq_ret.mp hret
      cases hret
      exact hrest (Outcome.bind_eq_ret.mpr ⟨_, hcall, rfl⟩)
  | exit =>
      obtain ⟨e, hcall, hret⟩ := Outcome.bind_eq_ret.mp hret
      cases e with
      | refused message =>
          cases hret
          exact hrest rfl
      | exits status c =>
          cases hret
          exact .exits rfl hcall

/-- A line that is for no builtin. -/
theorem Session.callCommand_left {ops : List (CString × Definition)} {p : Prepared}
    {toks : List CString} {arg0 : CString} {how : DispatchEnd}
    (h : HoldsDefinitions s.alTable stale ops v.defs) (hcontents : p.tokens.contents = .ret toks)
    (hret : s.callCommand fuel r p toks.length arg0 = .ret how) :
    Left s v r stale (if arg0 = cmdSplash then .splash
      else if arg0 = cmdAlias then .define toks else .execute p.fTokens) how := by
  unfold callCommand at hret
  split at hret
  · rename_i hsplash
    rw [if_pos hsplash]
    cases hret
    by_cases hzero : r.splash ≠ 0
    · rw [if_pos hzero]
      exact .skips hzero
    · rw [if_neg hzero]
      exact .served hzero rfl h rfl
  · rename_i hsplash
    rw [if_neg hsplash]
    split at hret
    · rename_i halias
      rw [if_pos halias]
      obtain ⟨tokens, htokens, hret⟩ := Outcome.bind_eq_ret.mp hret
      cases hcontents.symm.trans htokens
      obtain ⟨⟨ret, alTable⟩, hprocess, hret⟩ := Outcome.bind_eq_ret.mp hret
      cases hret
      obtain ⟨ops', defs, haliases, hdefs⟩ := processAlias_defines h hprocess
      exact .served (fun hskips => hskips.elim) rfl haliases hdefs
    · rename_i halias
      rw [if_neg halias]
      obtain ⟨shell, hexecute, hret⟩ := Outcome.bind_eq_ret.mp hret
      cases hret
      exact .served (fun hskips => hskips.elim) hexecute h rfl

/-- **How a line is left**: it makes the request that the view says, and is left as this
request may be. -/
theorem Session.dispatch_left {ops : List (CString × Definition)} {p : Prepared}
    {toks : List CString} {how : DispatchEnd} (h : HoldsDefinitions s.alTable stale ops v.defs)
    (hbuiltins : HoldsBuiltins s.biTable) (hcontents : p.tokens.contents = .ret toks)
    (hexpanded : p.fTokens = toks.flatMap v.expand)
    (hprep : prep r.freshArgv p.fTokens = .ret p.argv)
    (hret : s.dispatch fuel r p toks.length = .ret how) :
    ∃ arg0, v.BeginsWith toks arg0 ∧ Left s v r stale (v.request arg0 toks) how := by
  unfold dispatch at hret
  unfold View.request
  cases hline : p.fTokens with
  | nil =>
      simp only [hline] at hret
      cases hret
      refine ⟨.empty, ?_, ?_⟩
      · intro name rest hname _
        rw [← hexpanded, hline] at hname
        cases hname
      · rw [← hexpanded, hline]
        exact .served (fun hskips => hskips.elim) rfl h rfl
  | cons name rest =>
      simp only [hline] at hret
      obtain ⟨found, hget, hret⟩ := Outcome.bind_eq_ret.mp hret
      obtain rfl := hbuiltins.eq_of_ret hget
      cases hname : builtinOf name with
      | some b =>
          simp only [hname] at hret
          refine ⟨baseName name, ?_, ?_⟩
          · intro name' rest' hname' _
            rw [← hexpanded, hline] at hname'
            cases hname'
            rfl
          · rw [← hexpanded, hline]
            simp only [hname]
            exact callBuiltin_left h hret
      | none =>
          simp only [hname] at hret
          obtain ⟨cell, hread, hret⟩ := Outcome.bind_eq_ret.mp hret
          cases cell with
          | none => cases hret
          | some arg0 =>
              refine ⟨arg0, argv_beginsWith hexpanded hprep hline hread, ?_⟩
              rw [← hexpanded, hline]
              simp only [hname]
              have hleft := callCommand_left h hcontents hret
              rwa [hline] at hleft

end Parts

/-! ## Rounds and runs -/

/-- Every text in memory is the spelling of some tokens. -/
theorem exists_tokens {b : Block UInt8} {i : Nat} {text : List UInt8}
    (h : HoldsText b i text) :
    ∃ toks : List CString, Spaced tokDelim text (toks.map CString.bytes) := by
  obtain ⟨toks, hspaced⟩ := exists_spaced tokDelim text
  have hnul : ∀ tok ∈ toks, 0 ∉ tok := fun tok htok hzero =>
    h.noNul (hspaced.subset htok hzero)
  refine ⟨toks.pmap CString.mk hnul, ?_⟩
  rw [List.map_pmap]
  simpa using hspaced

/-- A text spells its tokens in one way. -/
theorem tokens_unique {text : List UInt8} {toks toks' : List CString}
    (h : Spaced tokDelim text (toks.map CString.bytes))
    (h' : Spaced tokDelim text (toks'.map CString.bytes)) : toks = toks' := by
  have hbytes : Injective CString.bytes := fun _ _ => CString.ext
  exact List.map_injective_iff.mpr hbytes (h.unique h')

section Rounds

variable {s s' : Session} {r : Round} {v : View} {stale fuel : Nat}

/-- A request that goes straight to the prompt changes neither aliases nor jobs. -/
theorem Request.served_of_skips {q : Request} (v : View) (hq : q.skips r) :
    v.Defines r q v.defs ∧ v.shell.turn (q.turn r) = .ret v.shell := by
  cases q with
  | splash =>
      refine ⟨rfl, ?_⟩
      rw [turn, if_pos hq]
      rfl
  | nothing => exact hq.elim
  | builtin b argv => exact hq.elim
  | define tokens => exact hq.elim
  | execute tokens => exact hq.elim

/-- **A round that ends** has served the request of its line, or has left the shell
for it. -/
theorem Session.round_serves {e : RoundEnd} (h : s.Shows stale v)
    (hret : s.round fuel r = .ret e) :
    ∃ toks q, (∃ v', v.Serves r toks q v' ∧
        ∃ s', e = .next s' ∧ s'.Shows stale v' ∧ s'.biTable = s.biTable) ∨
      ∃ arg0 argv status c, Spaced tokDelim r.text (toks.map CString.bytes) ∧
        v.request arg0 toks = .builtin .exit argv ∧ e = .exited status c ∧
        s.shell.binExit 0 0 argv = .ret (.exits status c) := by
  obtain ⟨completions, hinsert, hret⟩ := Outcome.bind_eq_ret.mp hret
  obtain ⟨p, hprepare, hret⟩ := Outcome.bind_eq_ret.mp hret
  obtain ⟨tokct, htokct, hret⟩ := Outcome.bind_eq_ret.mp hret
  obtain ⟨argc, _, hret⟩ := Outcome.bind_eq_ret.mp hret
  obtain ⟨how, hdispatch, hret⟩ := Outcome.bind_eq_ret.mp hret
  obtain ⟨ops, haliases⟩ := h.aliases
  obtain ⟨toks, hspaced⟩ := exists_tokens r.holds
  obtain ⟨hcontents, hexpanded, hprep, _⟩ :=
    prepare_spec (s := { s with completions := completions }) haliases hspaced hprepare
  obtain rfl : toks.length = tokct :=
    Outcome.ret.inj ((ppstrlen_eq hcontents).symm.trans htokct)
  obtain ⟨arg0, hbegins, hleft⟩ :=
    dispatch_left (s := { s with completions := completions }) haliases h.builtins hcontents
      hexpanded hprep hdispatch
  have hwords := h.words.insertListing hinsert
  refine ⟨toks, v.request arg0 toks, ?_⟩
  cases hleft with
  | @exits argv status c hq hexit =>
      cases hret
      exact .inr ⟨arg0, argv, status, c, hspaced, hq, rfl, hexit⟩
  | skips hq =>
      cases hret
      obtain ⟨hdefs, hturn⟩ := Request.served_of_skips v hq
      refine .inl ⟨{ v with words := v.words.map (· ∪ offeredWords r.listing) },
        ⟨hspaced, ⟨arg0, hbegins, rfl⟩, hdefs, ?_, hturn⟩, _, rfl,
        ⟨⟨ops, haliases⟩, h.builtins, hwords, h.shell⟩, rfl⟩
      rw [View.wordsAfter, if_pos hq]
  | @served alTable shell ops' defs hq hrun haliases' hdefs =>
      obtain ⟨shell', hreap, hret⟩ := Outcome.bind_eq_ret.mp hret
      obtain ⟨completions', hremove, hret⟩ := Outcome.bind_eq_ret.mp hret
      cases hret
      have hwords' := hwords.removeListing hremove
      refine .inl ⟨⟨defs, v.wordsAfter r (v.request arg0 toks), shell'⟩,
        ⟨hspaced, ⟨arg0, hbegins, rfl⟩, hdefs, rfl, ?_⟩, _, rfl,
        ⟨⟨ops', haliases'⟩, h.builtins, ?_, rfl⟩, rfl⟩
      · rw [Shell.turn, ← h.shell, hrun, Outcome.ret_bind, Request.turn, if_neg hq]
        exact hreap
      · rw [View.wordsAfter, if_neg hq]
        rwa [Option.bind_map] at hwords'

end Rounds

/-! ## Lines that are allowed -/

/-- The kernel allows the turn, or the line is refused before `fork`. -/
def Turn.Answered (sh : Shell) (t : Turn) : Prop :=
  t.Legal sh ∨
    (∃ tokens, t.command = .execute tokens ∧ ¬ Accepted tokens) ∧ sh.kernel.CanReport t.reports

/-- What the line asks for, where its first word has a base name. -/
def View.asked (v : View) (toks : List CString) : Request :=
  v.request (((toks.flatMap v.expand).head?.map baseName).getD .empty) toks

/-- The line and what memory and the kernel answer run into none of the faults of the
loop. -/
structure View.Allows (v : View) (stale : Nat) (r : Round) (toks : List CString) : Prop where
  spaced : Spaced tokDelim r.text (toks.map CString.bytes)
  prepares : v.Prepares stale r.starListing toks
  /-- The line does not begin with a redirection. -/
  named : ∀ name rest, toks.flatMap v.expand = name :: rest → builtinOf name = none →
    isWord name = true
  /-- Behind a definition that is stored the memory holds NULL. -/
  ended : ∀ cmd name definition,
    v.asked toks = .define (cmd :: name :: tokEquals :: definition) →
    r.freshDefinition definition.length = none
  stays : ∀ argv, v.asked toks = .builtin .exit argv → ExitRefused argv
  /-- A word is left when the names of the directory are taken away. -/
  words : ∃ S, v.words = some S ∧
    (offeredWords r.listing = ∅ ∨ (S \ offeredWords r.listing).Nonempty)
  answered : ((v.asked toks).turn r).Answered v.shell

section Allowed

variable {s : Session} {r : Round} {v : View} {stale fuel : Nat} {toks : List CString}
  {ops : List (CString × Definition)}

theorem turn_answered {sh : Shell} {t : Turn} (h : sh.Tracked) (hanswered : t.Answered sh) :
    (sh.turn t).Yields Shell.Tracked := by
  rcases hanswered with hlegal | ⟨⟨tokens, hcommand, hrefused⟩, hreports⟩
  · exact turn_tracked h hlegal
  · have hrun : ∃ sh', sh.run t = .ret sh' ∧ sh'.Tracked ∧ sh'.kernel = sh.kernel := by
      rw [Shell.run, hcommand]
      cases hscan : scan tokens with
      | ok redirection => exact absurd ⟨redirection, hscan⟩ hrefused
      | error e =>
          simp only [Shell.execute, hscan]
          exact ⟨sh.print (.text e.message), rfl, h, rfl⟩
    obtain ⟨sh', hrun, htracked, hkernel⟩ := hrun
    rw [Shell.turn, hrun, Outcome.ret_bind]
    exact reap_tracked t.reports htracked (hkernel ▸ hreports)

/-- `process_alias` comes back when the definition it stores has an end. -/
theorem processAlias_returns {t : AliasTable Definition} {fresh : Nat → Option CString}
    {defs : List (CString × List CString)} {tokens : List CString}
    (h : HoldsDefinitions t stale ops defs) (hfuel : grow t.size ≤ fuel)
    (hended : ∀ cmd name definition, tokens = cmd :: name :: tokEquals :: definition →
      fresh definition.length = none) :
    ∃ p, processAlias fuel fresh t tokens.length tokens false = .ret p := by
  unfold processAlias
  split
  · exact ⟨_, rfl⟩
  · rename_i hlong
    match tokens with
    | [] => simp at hlong
    | [_] => simp at hlong
    | [_, _] => simp at hlong
    | cmd :: name :: equals :: definition =>
        by_cases hequals : equals = tokEquals
        · subst hequals
          obtain ⟨tokDef, hcopy, hcap, hcells, hlast⟩ := copyDefinition_start definition fresh
          obtain ⟨t', hset⟩ := h.inv.counts.set_returns h.inv.two_le hfuel name tokDef
          have hcall : atSet fuel t name tokDef = .ret (0, t') := hset
          have hnull : tokDef.cell definition.length = none :=
            hlast.trans (hended cmd name definition rfl)
          obtain ⟨l, hprint⟩ := Block.exists_contents hnull hcap
          have hprint' : printArr tokDef = .ret l := hprint
          refine ⟨(0, t'), ?_⟩
          simp [hcopy, hcall, hprint']
        · exact ⟨(-1, t), by simp [hequals]⟩

section Asked

variable {name arg0 : CString} {rest : List CString}

theorem View.asked_nil (hline : toks.flatMap v.expand = []) : v.asked toks = .nothing := by
  simp only [asked, request, hline]

theorem View.asked_cons (hline : toks.flatMap v.expand = name :: rest) :
    v.asked toks = v.request (baseName name) toks := by
  rw [asked, hline]
  rfl

theorem View.request_builtin (hline : toks.flatMap v.expand = name :: rest) {b : Builtin}
    (hname : builtinOf name = some b) : v.request arg0 toks = .builtin b (name :: rest) := by
  simp only [request, hline, hname]

theorem View.request_command (hline : toks.flatMap v.expand = name :: rest)
    (hname : builtinOf name = none) :
    v.request arg0 toks = if arg0 = cmdSplash then .splash
      else if arg0 = cmdAlias then .define toks else .execute (name :: rest) := by
  simp only [request, hline, hname]

/-- The first word decides what is asked. -/
theorem View.Allows.asked_eq (h : v.Allows stale r toks) (hbegins : v.BeginsWith toks arg0) :
    v.request arg0 toks = v.asked toks := by
  cases hline : toks.flatMap v.expand with
  | nil =>
      rw [asked_nil hline]
      simp only [request, hline]
  | cons name rest =>
      rw [asked_cons hline]
      cases hname : builtinOf name with
      | some b => rw [request_builtin hline hname, request_builtin hline hname]
      | none => rw [hbegins name rest hline (h.named name rest hline hname)]

end Asked

/-- The dispatch of an allowed line returns. -/
theorem Session.dispatch_returns {p : Prepared} (h : HoldsDefinitions s.alTable stale ops v.defs)
    (hbuiltins : HoldsBuiltins s.biTable) (hallows : v.Allows stale r toks)
    (hcontents : p.tokens.contents = .ret toks) (hexpanded : p.fTokens = toks.flatMap v.expand)
    (hprep : prep r.freshArgv p.fTokens = .ret p.argv)
    (hrun : ∃ shell, s.shell.run ((v.asked toks).turn r) = .ret shell)
    (halias : grow s.alTable.size ≤ fuel) (hbuiltin : s.biTable.size ≤ fuel) :
    ∃ how, s.dispatch fuel r p toks.length = .ret how ∧
      ∀ status c, how ≠ .exited status c := by
  obtain ⟨shell, hrun⟩ := hrun
  have hended := hallows.ended
  have hstays := hallows.stays
  unfold dispatch
  cases hline : p.fTokens with
  | nil => exact ⟨_, rfl, fun _ _ h => by cases h⟩
  | cons name rest =>
      rw [hline] at hexpanded
      rw [View.asked_cons hexpanded.symm] at hrun hended hstays
      simp only [hbuiltins.get hbuiltin, Outcome.ret_bind]
      cases hname : builtinOf name with
      | some b =>
          simp only
          rw [View.request_builtin hexpanded.symm hname] at hrun hstays
          cases b with
          | clear => exact ⟨_, rfl, fun _ _ h => by cases h⟩
          | cd => exact ⟨_, rfl, fun _ _ h => by cases h⟩
          | ln => exact ⟨_, rfl, fun _ _ h => by cases h⟩
          | jobs =>
              obtain ⟨⟨ret, sh⟩, hcall, _⟩ := Outcome.bind_eq_ret.mp hrun
              exact ⟨_, Outcome.bind_eq_ret.mpr ⟨_, hcall, rfl⟩, fun _ _ h => by cases h⟩
          | fg =>
              obtain ⟨⟨ret, sh⟩, hcall, _⟩ := Outcome.bind_eq_ret.mp hrun
              exact ⟨_, Outcome.bind_eq_ret.mpr ⟨_, hcall, rfl⟩, fun _ _ h => by cases h⟩
          | bg =>
              obtain ⟨⟨ret, sh⟩, hcall, _⟩ := Outcome.bind_eq_ret.mp hrun
              exact ⟨_, Outcome.bind_eq_ret.mpr ⟨_, hcall, rfl⟩, fun _ _ h => by cases h⟩
          | exit =>
              have hrefused := hstays (name :: rest) rfl
              rcases s.shell.binExit_eq 0 0 (name :: rest) with ⟨_, message, hcall⟩ | ⟨hnot, _⟩
              · exact ⟨_, Outcome.bind_eq_ret.mpr ⟨_, hcall, rfl⟩, fun _ _ h => by cases h⟩
              · exact absurd hrefused hnot
      | none =>
          have hword := hallows.named name rest hexpanded.symm hname
          rw [hline] at hprep
          have hread := argv_zero hprep hword
          rw [View.request_command hexpanded.symm hname] at hrun hended
          simp only [hread, Outcome.ret_bind]
          unfold callCommand
          by_cases hsplash : baseName name = cmdSplash
          · rw [if_pos hsplash]
            refine ⟨_, rfl, fun _ _ h => ?_⟩
            split at h <;> cases h
          · rw [if_neg hsplash] at hrun hended ⊢
            by_cases hcmd : baseName name = cmdAlias
            · rw [if_pos hcmd] at hended ⊢
              obtain ⟨⟨ret, alTable⟩, hprocess⟩ := processAlias_returns h halias
                (fun cmd name definition htoks =>
                  hended cmd name definition (congrArg Request.define htoks))
              exact ⟨_, Outcome.bind_eq_ret.mpr ⟨toks, hcontents,
                Outcome.bind_eq_ret.mpr ⟨_, hprocess, rfl⟩⟩, fun _ _ h => by cases h⟩
            · rw [if_neg hcmd] at hrun ⊢
              refine ⟨_, Outcome.bind_eq_ret.mpr ⟨shell, ?_, rfl⟩, fun _ _ h => by cases h⟩
              rw [hline]
              exact hrun

/-- **A line that is prepared** comes to its dispatch, with the names of the directory
among the words. -/
theorem Session.round_prepared {S : Set LowerWord} (h : s.Shows stale v)
    (haliases : HoldsDefinitions s.alTable stale ops v.defs) (hS : v.words = some S)
    (hspaced : Spaced tokDelim r.text (toks.map CString.bytes))
    (hprepares : v.Prepares stale r.starListing toks) (hsize : s.alTable.size ≤ fuel)
    (hturns : toks.length < fuel) :
    ∃ t p, t ≠ null ∧ Holds t (S ∪ offeredWords r.listing) ∧ p.tokens.contents = .ret toks ∧
      p.fTokens = toks.flatMap v.expand ∧ prep r.freshArgv p.fTokens = .ret p.argv ∧
      s.round fuel r =
        ({ s with completions := .root t }.dispatch fuel r p toks.length >>= finish r) := by
  obtain ⟨t, hinsert, hne, hholds⟩ : ∃ t, s.completions.insertListing r.listing =
      .ret (.root t) ∧ t ≠ null ∧ Holds t (S ∪ offeredWords r.listing) := by
    have hwords := h.words
    rw [hS] at hwords
    cases hroot : s.completions with
    | freed =>
        rw [hroot] at hwords
        exact hwords.elim
    | root t =>
        rw [hroot] at hwords
        obtain ⟨t', hinsert, hne, hholds⟩ := insertListing_spec r.listing hwords.2 hwords.1
        exact ⟨t', by rw [CompletionsPtr.insertListing, hinsert]; rfl, hne, hholds⟩
  let top : Session := { s with completions := .root t }
  obtain ⟨p, hprepare⟩ : ∃ p, top.prepare fuel r = .ret p :=
    prepare_returns (s := top) haliases hspaced hprepares hsize hturns
  obtain ⟨hcontents, hexpanded, hprep, _⟩ :=
    prepare_spec (s := top) haliases hspaced hprepare
  have htokct := ppstrlen_eq hcontents
  obtain ⟨argc, hargc⟩ := exists_argc hprep
  refine ⟨t, p, hne, hholds, hcontents, hexpanded, hprep, ?_⟩
  have hprepare' : ({ s with completions := .root t } : Session).prepare fuel r = .ret p :=
    hprepare
  simp only [round, hinsert, Outcome.ret_bind, hprepare', htokct, hargc]

/-- **A line that is allowed is served.** -/
theorem Session.round_returns (h : s.Shows stale v) (htracked : v.shell.Tracked)
    (hallows : v.Allows stale r toks) : ∃ s', sessionStep s r s' := by
  obtain ⟨ops, haliases⟩ := h.aliases
  obtain ⟨S, hS, hleft⟩ := hallows.words
  let fuel := max (grow s.alTable.size) (max s.biTable.size (toks.length + 1))
  have hgrow : grow s.alTable.size ≤ fuel := Nat.le_max_left _ _
  have hbuiltin : s.biTable.size ≤ fuel :=
    Nat.le_trans (Nat.le_max_left _ _) (Nat.le_max_right _ _)
  have hturns : toks.length < fuel := Nat.le_trans (Nat.le_max_right _ _) (Nat.le_max_right _ _)
  have hsize := Nat.le_trans (Nat.le_of_lt (lt_grow haliases.inv.two_le)) hgrow
  obtain ⟨t, p, hne, hholds, hcontents, hexpanded, hprep, hround⟩ :=
    round_prepared h haliases hS hallows.spaced hallows.prepares hsize hturns
  let top : Session := { s with completions := .root t }
  obtain ⟨shell', hturn, _⟩ := turn_answered htracked hallows.answered
  obtain ⟨shell, hrun, hreap⟩ := Outcome.bind_eq_ret.mp hturn
  have hrun' : top.shell.run ((v.asked toks).turn r) = .ret shell := by
    rw [← hrun]
    exact congrArg (Shell.run · ((v.asked toks).turn r)) h.shell
  obtain ⟨how, hdispatch, hstays⟩ := dispatch_returns (s := top) haliases h.builtins hallows
    hcontents hexpanded hprep ⟨shell, hrun'⟩ hgrow hbuiltin
  obtain ⟨arg0, hbegins, hhow⟩ := dispatch_left (s := top) haliases h.builtins hcontents
    hexpanded hprep hdispatch
  rw [hallows.asked_eq hbegins] at hhow
  have hfinish : ∃ s', finish r how = .ret (.next s') := by
    cases hhow with
    | exits hq hexit => exact absurd rfl (hstays _ _)
    | skips hq => exact ⟨_, rfl⟩
    | @served alTable shell₁ ops' defs hq hrun₁ haliases' hdefs =>
        cases hrun'.symm.trans hrun₁
        have hreap' : shell.reap r.reports = .ret shell' := by
          rw [← hreap, Request.turn, if_neg hq]
        obtain ⟨c, hremove⟩ : ∃ c, removeListing r.listing (.root t) = .ret c := by
          rcases hleft with hempty | hnonempty
          · exact ⟨_, removeListing_of_empty hempty _⟩
          · have hmore : ((S ∪ offeredWords r.listing) \ offeredWords r.listing).Nonempty := by
              rw [Set.union_sdiff_right]
              exact hnonempty
            obtain ⟨t', hremove, _⟩ := removeListing_of_nonempty r.listing hholds hne hmore
            exact ⟨_, hremove⟩
        exact ⟨_, Outcome.bind_eq_ret.mpr ⟨shell', hreap',
          Outcome.bind_eq_ret.mpr ⟨c, hremove, rfl⟩⟩⟩
  obtain ⟨s', hfinish⟩ := hfinish
  refine ⟨s', fuel, ?_⟩
  show s.round fuel r = .ret (.next s')
  rw [hround]
  exact Outcome.bind_eq_ret.mpr ⟨how, hdispatch, hfinish⟩

end Allowed

end WizardShell.Ports
