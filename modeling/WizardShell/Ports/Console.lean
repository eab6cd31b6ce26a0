import WizardShell.Ports.EditorReturns
import WizardShell.Ports.SessionHistory
import WizardShell.Ports.Startup

/-!
# From the keys to what they do

`get_line` edits a line in a buffer of its own, over a history whose commands are pointers
to the buffers of the lines before; the buffer it returns is tokenized in place, and the
rest of the loop serves what the tokens ask.  So what Up brings back is what `strtok` left
of a line: its first word.

`console_refines`: a shell at whose prompts keys are pressed serves, prompt after prompt,
the lines that the walk over what is left of the earlier ones enters.  `console_serves`:
there is such a shell for every script of keys, and `wshMain_serves` starts it from the
environment.
`recall_servesFirstWord`: a line that is brought back with Up and entered asks for the
first word of what was entered then, and for nothing else.
-/

namespace WizardShell.Ports

open WizardShell.Verified
open WizardShell.Verified.Probing
open History (PrevLinked Linked)
open TrieNode (null)

/-! ## The shell with its prompt -/

/-- What one prompt is given: what the memory of the line buffer holds, the keys before Enter,
and what the rest of the loop is given. -/
structure Stroke where
  memory : Nat → UInt8
  keys : List WalkKey
  round : Round

def HistEntry.map {C D : Type} (f : C → D) (e : HistEntry C) : HistEntry D :=
  ⟨f e.command, e.prev⟩

/-- The history with what its commands point to. -/
def History.mapCommands {C D : Type} (f : C → D) (h : History C) : History D where
  heap := h.heap.map fun node => ⟨node.data.map f, node.next⟩
  first := h.first
  curr := h.curr
  count := h.count

/-- What a command points to, as it is now. -/
def PromptState.command (st : PromptState) (line : Nat) : CString :=
  match st.textOf line with
  | .ret text => .ofBytes text
  | _ => .empty

/-- At the prompt the keys are read in the state of the shell; what is entered is the line of
the round. -/
structure Stroke.Reads (i : Stroke) (c : Console) (p : Prompt) (x : TypedLine) : Prop where
  history : p.hist = c.prompt.hist.mapCommands c.prompt.command
  completions : c.session.completions.insertListing i.round.listing = .ret (.root p.completions)
  reads : ∃ e, p.readLine (.start i.memory) (i.keys.flatMap WalkKey.bytes ++ [10]) =
    .ok (some e) ∧ x.text = e.line
  line : i.round.line = x.buffer.set x.pos 0
  text : i.round.text = x.text
  fresh : i.round.freshTokens = x.fresh

/-- From one prompt to the next. -/
def consoleStep (c : Console) (i : Stroke) (c' : Console) : Prop :=
  ∃ p x, i.Reads c p x ∧ c.prompt.runLine x = .ret c'.prompt ∧
    sessionStep c.session i.round c'.session

/-! ## What the user sees -/

/-- The view of the session, and the lines recorded, newest first, as they were entered. -/
structure ConsoleView where
  view : View
  lines : List (List UInt8)

namespace ConsoleView

/-- What Up and Down walk over. -/
def commands (v : ConsoleView) : List (List UInt8) := v.lines.map firstPiece

/-- The walk enters the line, the line is served and recorded. -/
structure step (v : ConsoleView) (i : Stroke) (v' : ConsoleView) : Prop where
  entered : i.round.text = (Walk.after v.commands i.keys).line
  serves : v.view.step i.round v'.view
  lines : v'.lines = record v.lines i.round.text

/-- At the first prompt. -/
def start (words : Set LowerWord) (pgrp : Int) : ConsoleView := ⟨.start words pgrp, []⟩

end ConsoleView

/-- At each prompt the keys are typable, and there is room in the history. -/
inductive Typing : ConsoleView → List Stroke → Prop
  | nil {v : ConsoleView} : Typing v []
  | cons {v : ConsoleView} {i : Stroke} {rest : List Stroke} (htypable : Typable v.commands i.keys)
      (hroom : v.lines.length + 1 < histMax) (hrest : ∀ v', v.step i v' → Typing v' rest) :
      Typing v (i :: rest)

/-! ## The history -/

section Histories

variable {st st' : PromptState} {lines : List (List UInt8)} {cmd : Nat} {line : List UInt8}

theorem PromptState.Keeps.command (h : st.Keeps cmd line) :
    (st.command cmd).bytes = firstPiece line := by
  obtain ⟨b, _, htext⟩ := id h
  simp only [PromptState.command, h.textOf, CString.ofBytes]
  refine List.takeWhile_eq_self_iff.mpr fun c hc => ?_
  have hne : c ≠ 0 := fun hzero => htext.noNul (hzero ▸ hc)
  simp [hne]

theorem linked_mapCommands {C D : Type} (f : C → D) {h : History C}
    {nodes : List (Nat × HistEntry C)} (hlinked : h.Linked nodes) :
    (h.mapCommands f).Linked (nodes.map fun x => (x.1, x.2.map f)) where
  chain := hlinked.chain.map (HistEntry.map f)
  back := by
    have hback : ∀ {prev : Option Nat} {nodes : List (Nat × HistEntry C)},
        PrevLinked prev nodes → PrevLinked prev (nodes.map fun x => (x.1, x.2.map f)) := by
      intro prev nodes
      induction nodes generalizing prev with
      | nil => exact fun _ => trivial
      | cons x rest ih => exact fun h => ⟨h.1, ih h.2⟩
    exact hback hlinked.back

/-- What Up and Down walk over is what is left of the lines. -/
theorem PromptState.Recorded.commands (h : st.Recorded lines) {p : Prompt}
    (hp : p.hist = st.hist.mapCommands st.command) : p.commands = lines.map firstPiece := by
  obtain ⟨nodes, hlinked, hkeeps⟩ := h.linked
  have hchain := p.linked.chain
  rw [hp] at hchain
  have hnodes := hchain.unique (linked_mapCommands st.command hlinked).chain
  rw [Prompt.commands, hnodes, List.map_map, ← List.forall₂_eq_eq_eq,
    List.forall₂_map_left_iff, List.forall₂_map_right_iff]
  exact hkeeps.imp fun _ _ hkeep => hkeep.command

end Histories

/-! ## One prompt -/

/-- The shell is in the state that the view describes. -/
structure Console.Shows (c : Console) (stale : Nat) (v : ConsoleView) : Prop where
  session : c.session.Shows stale v.view
  history : c.prompt.Recorded v.lines
  short : ∀ line ∈ v.lines, line.length < rlBfs

section Step

variable {c c' : Console} {i : Stroke} {p : Prompt} {x : TypedLine} {v : ConsoleView}
  {stale : Nat} {commands : List (List UInt8)}

/-- What is entered is the line of the walk. -/
theorem Stroke.Reads.entered (h : i.Reads c p x) (hcommands : p.commands = commands)
    (htypable : Typable commands i.keys) : x.text = (Walk.after commands i.keys).line := by
  obtain ⟨e, hread, htext⟩ := h.reads
  subst commands
  rw [htext, readLine_walks hread htypable]

/-- **One prompt** is a step of the view, when its keys can be typed and there is room in
the history. -/
theorem consoleStep_shows (h : c.Shows stale v) (htypable : Typable v.commands i.keys)
    (hroom : v.lines.length + 1 < histMax) (hstep : consoleStep c i c') :
    ∃ v', v.step i v' ∧ c'.Shows stale v' := by
  obtain ⟨p, x, hreads, hline, hsession⟩ := hstep
  have htext := hreads.entered (h.history.commands hreads.history) htypable
  obtain ⟨view', hview, hshows⟩ := sessionStep_shows h.session hsession
  have hrecords : (record v.lines x.text).length < histMax :=
    Nat.lt_of_le_of_lt (length_record v.lines x.text).2 hroom
  obtain ⟨st', hrun, hrecorded⟩ := h.history.runLine hrecords
  cases hline.symm.trans hrun
  refine ⟨⟨view', record v.lines x.text⟩, ⟨hreads.text.trans htext, hview, ?_⟩,
    hshows, hrecorded, fun line hmem => ?_⟩
  · rw [hreads.text]
  · rcases mem_record hmem with rfl | hold
    · rw [htext]
      exact htypable.short i.keys [] (List.append_nil _).symm
    · exact h.short line hold

end Step

/-! ## Whole runs -/

/-- A shell from its first prompt, in the process group `pgrp`. -/
def ConsoleRun (staleAliases staleBuiltins : Nat) (completions : TrieNode) (pgrp : Int)
    (strokes : List Stroke) (c : Console) : Prop :=
  ∃ s₀, Outcome.Returns
      (fun fuel => Session.start fuel staleAliases staleBuiltins completions pgrp) s₀ ∧
    Run consoleStep ⟨s₀, .start⟩ strokes c

theorem Typing.shows {stale : Nat} {v : ConsoleView} {strokes : List Stroke}
    (hkeys : Typing v strokes) : ∀ {c c' : Console}, c.Shows stale v →
      Run consoleStep c strokes c' →
      ∃ v', Run ConsoleView.step v strokes v' ∧ c'.Shows stale v' := by
  induction hkeys with
  | nil =>
      intro c c' h hrun
      cases Run.nil_iff.mp hrun
      exact ⟨_, .start, h⟩
  | cons htypable hroom _ ih =>
      intro c c' h hrun
      obtain ⟨c₁, hstep, hrest⟩ := Run.cons_iff.mp hrun
      obtain ⟨v₁, hview, hshows⟩ := consoleStep_shows h htypable hroom hstep
      obtain ⟨v', hviews, hends⟩ := ih v₁ hview hshows hrest
      exact ⟨v', Run.cons_iff.mpr ⟨v₁, hview, hviews⟩, hends⟩

section Recall

variable {commands : List (List UInt8)} {k : Nat} {line : List UInt8}

/-- Up goes back one line at a time. -/
theorem after_ups (h : commands[k]? = some line) :
    Walk.after commands (List.replicate (k + 1) .up) = ⟨some k, line⟩ := by
  induction k generalizing line with
  | zero =>
      have hfirst : Walk.start.press commands .up = ⟨some 0, line⟩ := by
        simp only [Walk.press, Walk.start, Walk.next, h]
      exact hfirst
  | succ k ih =>
      obtain ⟨hk, _⟩ := List.getElem?_eq_some_iff.mp h
      have hbefore := ih (List.getElem?_eq_getElem (by omega : k < commands.length))
      rw [List.replicate_succ', Walk.after_snoc, hbefore]
      simp only [Walk.press, Walk.next, h]

theorem typable_ups (hshort : ∀ line ∈ commands, line.length < rlBfs) (hk : k < commands.length) :
    Typable commands (List.replicate (k + 1) .up) where
  short pre post hsplit := by
    have hpre : pre = List.replicate pre.length .up :=
      List.eq_replicate_of_mem fun key hkey => by
        have hmem : key ∈ List.replicate (k + 1) WalkKey.up := by
          rw [hsplit]
          exact List.mem_append_left _ hkey
        exact List.eq_of_mem_replicate hmem
    have hlen := congrArg List.length hsplit
    rw [List.length_replicate, List.length_append] at hlen
    cases hj : pre.length with
    | zero =>
        rw [List.length_eq_zero_iff.mp hj]
        exact Nat.zero_lt_of_lt (show 0 < rlBfs by decide)
    | succ j =>
        have hin : j < commands.length := by omega
        rw [hpre, hj, after_ups (List.getElem?_eq_getElem hin)]
        exact hshort _ (List.getElem_mem hin)
  calm pre post hsplit := by
    have hmem : WalkKey.down ∈ List.replicate (k + 1) WalkKey.up := by
      rw [hsplit]
      simp
    cases List.eq_of_mem_replicate hmem

/-- What is left of a line spells its first token. -/
theorem spaced_firstPiece {text : List UInt8} {toks : List (List UInt8)}
    (h : Spaced tokDelim text toks) : Spaced tokDelim (firstPiece text) (toks.take 1) := by
  cases h with
  | blank hds =>
      rw [firstPiece_of_delims hds]
      exact .blank hds
  | @token ds tok rest c toks hds htok hend _ =>
      rw [firstPiece_of_token rest hds htok hend, ← List.append_nil (ds ++ c :: tok)]
      exact .token hds htok (by simp) (.blank (by simp))

theorem length_firstPiece_le (text : List UInt8) : (firstPiece text).length ≤ text.length := by
  have hsplit : text.takeWhile tokDelim ++ text.dropWhile tokDelim = text :=
    List.takeWhile_append_dropWhile
  have hword := (List.takeWhile_prefix (fun c => !tokDelim c)
    (l := text.dropWhile tokDelim)).length_le
  have hlen := congrArg List.length hsplit
  rw [List.length_append] at hlen
  rw [firstPiece, List.length_append]
  omega

end Recall

/-! ## A shell that is typed at -/

/-- The prompt that `get_line` is called at. -/
theorem PromptState.Recorded.exists_prompt {st : PromptState} {lines : List (List UInt8)}
    (h : st.Recorded lines) (completions : TrieNode) :
    ∃ p : Prompt, p.hist = st.hist.mapCommands st.command ∧ p.completions = completions := by
  obtain ⟨commands, nodes, hgrown, _⟩ := h
  have hlen := congrArg List.length hgrown.all
  rw [List.length_map, List.length_reverse] at hlen
  have hcounted : st.hist.count = 0 ↔
      nodes.map (fun x => (x.1, x.2.map st.command)) = [] := by
    rw [List.map_eq_nil_iff, hgrown.count, ← hlen, List.length_eq_zero_iff]
  exact ⟨⟨_, _, linked_mapCommands st.command hgrown.linked, hcounted, completions, 0,
    fun _ => 0⟩, rfl, rfl⟩

/-- The keys are typed in memory that holds zeros, and end in a line that is allowed. -/
structure ConsoleView.Allows (v : ConsoleView) (stale : Nat) (i : Stroke) (toks : List CString) :
    Prop where
  memory : i.memory = fun _ => 0
  typable : Typable v.commands i.keys
  never : NeverBelow v.commands i.keys
  room : v.lines.length + 1 < histMax
  text : i.round.text = (Walk.after v.commands i.keys).line
  line : v.view.Allows stale i.round toks

/-- Each line is typed and allowed where the lines before it lead. -/
inductive ConsoleScript (stale : Nat) : ConsoleView → List Stroke → Prop
  | nil {v : ConsoleView} : ConsoleScript stale v []
  | cons {v : ConsoleView} {i : Stroke} {rest : List Stroke} {toks : List CString}
      (hallows : v.Allows stale i toks)
      (hrest : ∀ v', v.step i v' → ConsoleScript stale v' rest) :
      ConsoleScript stale v (i :: rest)

section Exists

variable {c : Console} {v : ConsoleView} {stale : Nat} {i : Stroke} {toks : List CString}

/-- The commands of the history are short. -/
theorem Console.Shows.shortLines (h : c.Shows stale v) {p : Prompt}
    (hhist : p.hist = c.prompt.hist.mapCommands c.prompt.command) : p.ShortLines := by
  intro y hy
  have hmem : y.2.command.bytes ∈ v.lines.map firstPiece :=
    h.history.commands hhist ▸ List.mem_map_of_mem hy
  obtain ⟨line, hline, heq⟩ := List.mem_map.mp hmem
  rw [← heq]
  exact Nat.lt_of_le_of_lt (length_firstPiece_le line) (h.short line hline)

/-- The trie with the names of the directory. -/
theorem Console.Shows.insertListing (h : c.Shows stale v) {S : Set LowerWord}
    (hS : v.view.words = some S) (listing : List CString) :
    ∃ t, c.session.completions.insertListing listing = .ret (.root t) := by
  have hwords := h.session.words
  rw [hS] at hwords
  cases hcompletions : c.session.completions with
  | freed =>
      rw [hcompletions] at hwords
      exact hwords.elim
  | root t =>
      rw [hcompletions] at hwords
      obtain ⟨t', hinsert, _⟩ := insertListing_spec listing hwords.2 hwords.1
      exact ⟨t', by rw [CompletionsPtr.insertListing, hinsert]; rfl⟩

/-- The keys of a script are typed. -/
theorem ConsoleScript.typing {strokes : List Stroke} (hscript : ConsoleScript stale v strokes) :
    Typing v strokes := by
  induction hscript with
  | nil => exact .nil
  | cons hallows _ ih => exact .cons hallows.typable hallows.room ih

/-- **A line that is allowed and typed** is read and served. -/
theorem exists_consoleStep (h : c.Shows stale v) (htracked : v.view.shell.Tracked)
    (hallows : v.Allows stale i toks) : ∃ c', consoleStep c i c' := by
  obtain ⟨S, hS, _⟩ := hallows.line.words
  obtain ⟨t, hinsert⟩ := h.insertListing hS i.round.listing
  obtain ⟨p, hhist, rfl⟩ := h.history.exists_prompt t
  have hcommands := h.history.commands hhist
  have htypable : Typable p.commands i.keys := hcommands ▸ hallows.typable
  obtain ⟨e, he⟩ := (readLine_returns_iff p i.keys (h.shortLines hhist) htypable).mpr
    (hcommands ▸ hallows.never)
  have hline : e.line = i.round.text := by
    rw [readLine_walks he htypable, hcommands]
    exact hallows.text.symm
  have hrecords : (record v.lines i.round.typed.text).length < histMax :=
    Nat.lt_of_le_of_lt (length_record _ _).2 hallows.room
  obtain ⟨st', hrun, _⟩ := h.history.runLine hrecords
  obtain ⟨s', hsession⟩ := Session.round_returns h.session htracked hallows.line
  rw [← hallows.memory] at he
  have htext := i.round.typed_text
  exact ⟨⟨s', st'⟩, p, i.round.typed, ⟨hhist, hinsert, ⟨e, he, htext.trans hline.symm⟩,
    i.round.typed_set.symm, htext.symm, rfl⟩, hrun, hsession⟩

/-- A shell for a script. -/
theorem ConsoleScript.exists_run {strokes : List Stroke} (hscript : ConsoleScript stale v strokes) :
    ∀ {c : Console}, c.Shows stale v → v.view.Sound →
      ∃ c' v', Run consoleStep c strokes c' ∧ Run ConsoleView.step v strokes v' ∧
        c'.Shows stale v' ∧ v'.view.Sound := by
  induction hscript with
  | nil => exact fun h hsound => ⟨_, _, .start, .start, h, hsound⟩
  | cons hallows _ ih =>
      intro c h hsound
      obtain ⟨c₁, hstep⟩ := exists_consoleStep h hsound.tracked hallows
      obtain ⟨v₁, hview, hshows⟩ := consoleStep_shows h hallows.typable hallows.room hstep
      obtain ⟨c', v', hrun, hviews, hends⟩ :=
        ih v₁ hview hshows (hallows.line.sound hsound hview.serves)
      exact ⟨c', v', Run.cons_iff.mpr ⟨c₁, hstep, hrun⟩, Run.cons_iff.mpr ⟨v₁, hview, hviews⟩,
        hends⟩

end Exists

/-! ## A line, and Up -/

/-- The text is entered in an empty directory and with cleared memory. -/
def entering (text : List UInt8) (hnul : 0 ∉ text) : Round :=
  { typing [] 0 with
    line := ⟨text.length + 1, fun i => text.getD i 0⟩
    text := text
    holds := .of_cells hnul (by simp) fun j _ => by simp }

def cdToks : List CString := [.lit ['c', 'd'], .lit ['x']]

/-- `cd x` and a blank -/
def cdKeys : List Printable :=
  [⟨99, by decide, by decide, by decide⟩, ⟨100, by decide, by decide, by decide⟩,
    ⟨32, by decide, by decide, by decide⟩, ⟨120, by decide, by decide, by decide⟩,
    ⟨32, by decide, by decide, by decide⟩]

/-- It is typed, -/
def cdStroke : Stroke where
  memory _ := 0
  keys := cdKeys.map fun c => .typing (.char c.typed)
  round := entering (typed cdToks) (typed_noNul _)

/-- and what is left of it is entered again. -/
def upStroke : Stroke where
  memory _ := 0
  keys := [.up]
  round := entering (firstPiece (typed cdToks)) (by decide)

section Lines

variable {S : Set LowerWord} {text : List UInt8} {toks : List CString}

theorem neverBelow_of_not_mem {commands : List (List UInt8)} {keys : List WalkKey}
    (h : WalkKey.down ∉ keys) : NeverBelow commands keys := by
  rintro pre post rfl
  exact absurd (List.mem_append_right _ List.mem_cons_self) h

theorem cdTypable : Typable [] cdStroke.keys :=
  ⟨linesShort_of_inits (p := .bare) (by decide), noneEmptied_of_inits (p := .bare) (by decide)⟩

theorem cdTyping : Typing (.start S 1) [cdStroke] :=
  .cons cdTypable (show 0 + 1 < histMax by decide) fun _ _ => .nil

/-- `cd` may be asked, with or without a name. -/
theorem cd_allowed (hnul : 0 ∉ text) (rest : List CString)
    (hspaced : Spaced tokDelim text (toks.map CString.bytes))
    (hplain : tokHome ∉ toks ∧ tokStar ∉ toks)
    (hexpand : toks.flatMap (View.start S 1).expand = .lit ['c', 'd'] :: rest)
    (hfits : rest.length + 1 < psBfs) :
    (View.start S 1).Allows 7 (entering text hnul) toks := by
  have hasked : (View.start S 1).asked toks = .builtin .cd (.lit ['c', 'd'] :: rest) := by
    rw [View.asked_cons hexpand, View.request_builtin hexpand (b := .cd) (by decide)]
  refine ⟨hspaced, ⟨hplain.1, fun hmem => absurd hmem hplain.2, fun hzero => ?_, ?_⟩, ?_, ?_, ?_,
    ⟨S, rfl, .inl offeredWords_nil⟩, ?_⟩
  · exact absurd hzero (by decide)
  · rw [hexpand]
    exact hfits
  · intro name rest' hline hname
    rw [hexpand] at hline
    cases hline
    exact absurd hname (by decide)
  · exact fun _ _ _ _ => rfl
  · intro argv hexit
    rw [hasked] at hexit
    cases hexit
  · rw [hasked]
    exact .inl ⟨show (0 : Int) < intMax by decide, trivial, fun _ _ => trivial⟩

/-- What is known does not change. -/
theorem cd_keeps (hnul : 0 ∉ text) (rest : List CString) {v : View}
    (hallows : (View.start S 1).Allows 7 (entering text hnul) toks)
    (hexpand : toks.flatMap (View.start S 1).expand = .lit ['c', 'd'] :: rest)
    (hstep : (View.start S 1).step (entering text hnul) v) : v = View.start S 1 := by
  have hserves := hallows.serves hstep
  rw [View.asked_cons hexpand, View.request_builtin hexpand (b := .cd) (by decide)] at hserves
  obtain ⟨defs, words, shell⟩ := v
  have hdefs : defs = [] := hserves.defs
  have hshell : Shell.init 1 = shell := Outcome.ret.inj hserves.shell
  have hwords : words = some S := by
    rw [show words = _ from hserves.words]
    simp [View.wordsAfter, View.withdraw, View.start, Request.skips, entering, typing,
      offeredWords_nil]
  rw [hdefs, hwords, ← hshell]
  rfl

theorem spaced_cd : Spaced tokDelim (typed cdToks) (cdToks.map CString.bytes) :=
  spaced_typed (by decide)

theorem cdLine_allowed : (View.start S 1).Allows 7 cdStroke.round cdToks :=
  cd_allowed (typed_noNul _) [.lit ['x']] spaced_cd (by decide) rfl (by decide)

theorem upLine_allowed : (View.start S 1).Allows 7 upStroke.round (cdToks.take 1) :=
  cd_allowed (by decide) [] (spaced_firstPiece spaced_cd) (by decide) rfl (by decide)

/-- What the line leaves. -/
theorem cdStroke_leaves {v : ConsoleView} (h : (ConsoleView.start S 1).step cdStroke v) :
    v = ⟨.start S 1, [typed cdToks]⟩ := by
  have hkept : v.view = View.start S 1 :=
    cd_keeps (typed_noNul _) [.lit ['x']] cdLine_allowed rfl h.serves
  have hlines : v.lines = [typed cdToks] := h.lines
  obtain ⟨view, lines⟩ := v
  cases hkept
  cases hlines
  rfl

theorem cdScript : ConsoleScript 7 (.start S 1) [cdStroke, upStroke] := by
  have hcd : (ConsoleView.start S 1).Allows 7 cdStroke cdToks :=
    { memory := rfl
      typable := cdTypable
      never := neverBelow_of_not_mem (by decide)
      room := show 0 + 1 < histMax by decide
      text := by rfl
      line := cdLine_allowed }
  refine .cons hcd fun v hstep => ?_
  cases cdStroke_leaves hstep
  have hups : Typable [firstPiece (typed cdToks)] upStroke.keys :=
    typable_ups (k := 0) (by decide) (by decide)
  have hup : ConsoleView.Allows ⟨.start S 1, [typed cdToks]⟩ 7 upStroke (cdToks.take 1) :=
    { memory := rfl
      typable := hups
      never := neverBelow_of_not_mem (by decide)
      room := show 1 + 1 < histMax by decide
      text := by rfl
      line := upLine_allowed }
  exact .cons hup fun _ _ => .nil

end Lines

section Results

variable {staleAliases staleBuiltins : Nat} {completions : TrieNode} {pgrp : Int}
  {S : Set LowerWord}

theorem ConsoleScript.exists_consoleRun (hne : completions ≠ null) (hholds : Holds completions S)
    {strokes : List Stroke} (hscript : ConsoleScript staleAliases (.start S pgrp) strokes) :
    ∃ c v, ConsoleRun staleAliases staleBuiltins completions pgrp strokes c ∧
      Run ConsoleView.step (.start S pgrp) strokes v ∧ c.Shows staleAliases v ∧ v.view.Sound := by
  have hnil : Script staleAliases (View.start S pgrp) [] := .nil
  obtain ⟨s, _, ⟨_, hstart, hrun⟩, hview, hsession, hsound⟩ :=
    @exists_sessionRun staleAliases staleBuiltins completions pgrp S hne hholds _ hnil
  cases Run.nil_iff.mp hrun
  cases Run.nil_iff.mp hview
  have hshows : Console.Shows ⟨s, .start⟩ staleAliases (.start S pgrp) :=
    ⟨hsession, recorded_start, by simp [ConsoleView.start]⟩
  obtain ⟨c, v, hruns, hviews, hends⟩ := hscript.exists_run hshows hsound
  exact ⟨c, v, ⟨s, hstart, hruns⟩, hviews, hends⟩

theorem ConsoleRun.shows {strokes : List Stroke} {c : Console} (hne : completions ≠ null)
    (hholds : Holds completions S) (hkeys : Typing (.start S pgrp) strokes)
    (hrun : ConsoleRun staleAliases staleBuiltins completions pgrp strokes c) :
    ∃ v, Run ConsoleView.step (.start S pgrp) strokes v ∧ c.Shows staleAliases v := by
  obtain ⟨s₀, ⟨fuel, hstart⟩, hrun⟩ := hrun
  have hshows : Console.Shows ⟨s₀, .start⟩ staleAliases (.start S pgrp) :=
    ⟨Session.start_shows hne hholds hstart, recorded_start, by simp [ConsoleView.start]⟩
  exact hkeys.shows hshows hrun

/-- A shell at which the line was typed, and Up behind it. -/
theorem exists_cdRun (hne : completions ≠ null) (hholds : Holds completions S) :
    ∃ c c', ConsoleRun 7 9 completions 1 [cdStroke] c ∧ consoleStep c upStroke c' := by
  obtain ⟨c', _, ⟨s₀, hstart, hrun⟩, _⟩ :=
    @ConsoleScript.exists_consoleRun 7 9 completions 1 S hne hholds _ cdScript
  obtain ⟨c, hcd, hup⟩ := Run.cons_iff.mp hrun
  exact ⟨c, c', ⟨s₀, hstart, Run.singleton_iff.mpr hcd⟩, Run.singleton_iff.mp hup⟩

/-- **From the keys to what they do.**  A shell at whose prompts typable keys are pressed,
and that has recorded fewer than 30 lines, comes from view to view: at each prompt the line
of the walk over what is left of the lines recorded is entered, served and recorded.  At
the end the session is in the state of the view, and the history, followed from its first
node, holds what is left of the lines. -/
theorem console_refines (hne : completions ≠ null) (hholds : Holds completions S)
    (strokes : List Stroke) (hkeys : Typing (.start S pgrp) strokes) (c : Console)
    (hrun : ConsoleRun staleAliases staleBuiltins completions pgrp strokes c) :
    ∃ v, Run ConsoleView.step (.start S pgrp) strokes v ∧
      c.session.Shows staleAliases v.view ∧
      ∃ nodes, c.prompt.hist.Linked nodes ∧
        nodes.map (fun x => c.prompt.textOf x.2.command) = v.commands.map .ret := by
  obtain ⟨v, hviews, hshows⟩ := hrun.shows hne hholds hkeys
  obtain ⟨nodes, hlinked, hkeeps⟩ := hshows.history.linked
  refine ⟨v, hviews, hshows.session, nodes, hlinked, ?_⟩
  rw [ConsoleView.commands, List.map_map, ← List.forall₂_eq_eq_eq,
    List.forall₂_map_left_iff, List.forall₂_map_right_iff]
  exact hkeeps.imp fun _ _ hkeep => hkeep.textOf

theorem console_refines_cd : ∃ completions S c, completions ≠ null ∧ Holds completions S ∧
    Typing (.start S 1) [cdStroke, upStroke] ∧
    ConsoleRun 7 9 completions 1 [cdStroke, upStroke] c ∧
    ∃ v, Run ConsoleView.step (.start S 1) [cdStroke, upStroke] v ∧
      c.session.Shows 7 v.view ∧
      ∃ nodes, c.prompt.hist.Linked nodes ∧
        nodes.map (fun x => c.prompt.textOf x.2.command) = v.commands.map .ret := by
  obtain ⟨t, S, hne, hholds⟩ := exists_words
  obtain ⟨c, _, hrun, _⟩ :=
    @ConsoleScript.exists_consoleRun 7 9 t 1 S hne hholds _ cdScript
  have hkeys : Typing (.start S 1) [cdStroke, upStroke] := cdScript.typing
  exact ⟨t, S, c, hne, hholds, hkeys, hrun, console_refines hne hholds _ hkeys c hrun⟩

/-- **A shell serves what is typed at it.**  For every script of keys, each line of which is
typed in memory that holds zeros and is one that the session allows, there is a shell that
comes to the prompt behind each line, whatever the memory of the two tables held; at the
end it is in the state of the view, and its job list tracks the children. -/
theorem console_serves (hne : completions ≠ null) (hholds : Holds completions S)
    (strokes : List Stroke) (hscript : ConsoleScript staleAliases (.start S pgrp) strokes) :
    ∃ c v, ConsoleRun staleAliases staleBuiltins completions pgrp strokes c ∧
      Run ConsoleView.step (.start S pgrp) strokes v ∧ c.Shows staleAliases v ∧
      ∃ elems, TracksChildren c.session.shell elems := by
  obtain ⟨c, v, hrun, hviews, hshows, hsound⟩ := hscript.exists_consoleRun hne hholds
  exact ⟨c, v, hrun, hviews, hshows, hsound.tracksChildren hshows.session⟩

theorem console_serves_cd : ∃ completions S, completions ≠ null ∧ Holds completions S ∧
    ConsoleScript 7 (.start S 1) [cdStroke, upStroke] ∧
    ∃ c v, ConsoleRun 7 9 completions 1 [cdStroke, upStroke] c ∧
      Run ConsoleView.step (.start S 1) [cdStroke, upStroke] v ∧ c.Shows 7 v ∧
      ∃ elems, TracksChildren c.session.shell elems := by
  obtain ⟨t, S, hne, hholds⟩ := exists_words
  exact ⟨t, S, hne, hholds, cdScript, console_serves hne hholds _ cdScript⟩

/-- **What Up brings back.**  At every prompt of such a shell, the line that is brought back
by pressing Up once for each line recorded since, and itself, and then entered, makes the
request of the first word that was entered then, and of nothing else. -/
theorem recall_servesFirstWord (hne : completions ≠ null) (hholds : Holds completions S)
    (strokes : List Stroke) (hkeys : Typing (.start S pgrp) strokes) (c : Console)
    (hrun : ConsoleRun staleAliases staleBuiltins completions pgrp strokes c) :
    ∃ v, Run ConsoleView.step (.start S pgrp) strokes v ∧
      ∀ (k : Nat) (line : List UInt8) (toks : List CString), v.lines[k]? = some line →
        Spaced tokDelim line (toks.map CString.bytes) →
        ∀ (i : Stroke) (c' : Console), i.keys = List.replicate (k + 1) .up →
          consoleStep c i c' →
          ∃ q v', v.view.Serves i.round (toks.take 1) q v' ∧ c'.session.Shows staleAliases v' := by
  obtain ⟨v, hviews, hshows⟩ := hrun.shows hne hholds hkeys
  refine ⟨v, hviews, fun k line toks hline hspaced i c' hups hstep => ?_⟩
  have hcommand : v.commands[k]? = some (firstPiece line) := by
    rw [ConsoleView.commands, List.getElem?_map, hline, Option.map_some]
  obtain ⟨hk, _⟩ := List.getElem?_eq_some_iff.mp hcommand
  have hshort : ∀ command ∈ v.commands, command.length < rlBfs := by
    intro command hmem
    obtain ⟨text, htext, rfl⟩ := List.mem_map.mp hmem
    exact Nat.lt_of_le_of_lt (length_firstPiece_le text) (hshows.short text htext)
  obtain ⟨p, x, hreads, _, hsession⟩ := hstep
  have hentered : x.text = (Walk.after v.commands i.keys).line :=
    hreads.entered (hshows.history.commands hreads.history) (hups ▸ typable_ups hshort hk)
  rw [← hreads.text, hups, after_ups hcommand] at hentered
  obtain ⟨v', ⟨toks', q, hserves⟩, hshows'⟩ := sessionStep_shows hshows.session hsession
  have hfirst : Spaced tokDelim i.round.text ((toks.take 1).map CString.bytes) := by
    rw [hentered, List.map_take]
    exact spaced_firstPiece hspaced
  obtain rfl : toks' = toks.take 1 := tokens_unique hserves.spaced hfirst
  exact ⟨q, v', hserves, hshows'⟩

/-- `cd x` is typed; Up and Enter then ask for `cd`. -/
theorem recall_servesFirstWord_cd : ∃ completions S c c', completions ≠ null ∧
    Holds completions S ∧ ConsoleRun 7 9 completions 1 [cdStroke] c ∧
    consoleStep c upStroke c' ∧
    ∃ v, Run ConsoleView.step (.start S 1) [cdStroke] v ∧
      ∃ q v', v.view.Serves upStroke.round (cdToks.take 1) q v' ∧ c'.session.Shows 7 v' := by
  obtain ⟨t, S, hne, hholds⟩ := exists_words
  obtain ⟨c, c', hrun, hup⟩ := exists_cdRun hne hholds
  obtain ⟨v, hviews, hrecall⟩ := recall_servesFirstWord hne hholds _ cdTyping c hrun
  have hlines : v.lines[0]? = some (typed cdToks) := by
    obtain ⟨v₁, hstep, hrest⟩ := Run.cons_iff.mp hviews
    cases Run.nil_iff.mp hrest
    rw [cdStroke_leaves hstep]
    rfl
  exact ⟨t, S, c, c', hne, hholds, hrun, hup, v, hviews,
    hrecall 0 _ _ hlines spaced_cd upStroke c' rfl hup⟩

/-- **From the environment to the last prompt.**  With room behind the copy of `PATH`,
directories that can be read and a name below 70 bytes, the shell shows its prompt text and
serves every script of keys that begins with the words of the shell and the lower-case
names in the directories. -/
theorem wshMain_serves (scandir : CString → Option (List CString)) (room : Nat)
    (stack : Nat → UInt8) (environ : Environ) (pathVar : CString) (dirs : List CString)
    (hpath : environ.path = some pathVar)
    (hspaced : Spaced pathDelim pathVar.bytes (dirs.map CString.bytes))
    (hroom : pathVar.bytes.length < room) (hdirs : ∀ dir ∈ dirs, scandir dir ≠ none)
    (huser : environ.uid.bytes.length < 70) (strokes : List Stroke)
    (hscript : ConsoleScript staleAliases
      (.start (wordsIn shellWords ∪ dirWords scandir dirs) pgrp) strokes) :
    ∃ completions bang c v, startup scandir room stack environ = .ret (completions, bang) ∧
      HoldsText bang 0 ([10] ++ environ.uid.bytes ++ bangEnd.bytes) ∧
      ConsoleRun staleAliases staleBuiltins completions pgrp strokes c ∧
      Run ConsoleView.step (.start (wordsIn shellWords ∪ dirWords scandir dirs) pgrp) strokes v ∧
      c.Shows staleAliases v ∧ ∃ elems, TracksChildren c.session.shell elems := by
  obtain ⟨htrie, hwords⟩ := startCompletions_iff scandir room stack hspaced
  obtain ⟨hbang, htext⟩ := makeBang_iff stack environ.uid
  obtain ⟨completions, hcompletions⟩ := htrie.mpr ⟨hroom, hdirs⟩
  obtain ⟨bang, hmake⟩ := hbang.mpr huser
  obtain ⟨hne, hholds⟩ := hwords completions hcompletions
  obtain ⟨c, v, hrun, hviews, hshows, hsound⟩ := hscript.exists_consoleRun hne hholds
  exact ⟨completions, bang, c, v, (startup_eq_ret hpath).mpr ⟨hcompletions, hmake⟩,
    htext bang hmake, hrun, hviews, hshows, hsound.tracksChildren hshows.session⟩

theorem wshMain_serves_cd : ∃ completions bang c v,
    startup twoListings 7 (fun _ => 255) twoDirs = .ret (completions, bang) ∧
      HoldsText bang 0 ([10] ++ twoDirs.uid.bytes ++ bangEnd.bytes) ∧
      ConsoleRun 7 9 completions 1 [cdStroke, upStroke] c ∧
      Run ConsoleView.step (.start (wordsIn shellWords ∪
        dirWords twoListings [.lit ['/', 'a'], .lit ['/', 'b']]) 1) [cdStroke, upStroke] v ∧
      c.Shows 7 v ∧ ∃ elems, TracksChildren c.session.shell elems := by
  have hdirs : ∀ dir ∈ [CString.lit ['/', 'a'], .lit ['/', 'b']], twoListings dir ≠ none := by
    intro dir _
    unfold twoListings
    split <;> simp
  exact wshMain_serves twoListings 7 (fun _ => 255) twoDirs _ _ rfl twoDirs_spaced (by decide)
    hdirs (by decide) _ cdScript

end Results

end WizardShell.Ports
