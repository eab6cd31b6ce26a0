import WizardShell.Ports.LineHistory
import WizardShell.Ports.SessionRuns

/-!
# The loop with its history

`get_line` pushes the line that was entered onto the history before the loop goes on with
it, and the commands of the history are pointers to the buffers that `wsh_tokenize` cuts.
The history takes 29 lines; the thirtieth frees a node that stays linked.

`Recorded` says what the history then holds.  `session_serves`: with fewer than 30 lines
recorded, the loop does come to the prompt behind every line that it is allowed to be
asked.
-/

namespace WizardShell.Ports

open WizardShell.Verified
open History (Linked)
open TrieNode (null)

/-- What is kept from prompt to prompt: what the loop keeps, and the line buffers with the
history. -/
structure Console where
  session : Session
  prompt : PromptState

/-- The line of the round, as it stands in the buffer of `get_line` at Enter. -/
def Round.typed (r : Round) : TypedLine where
  buffer := r.line
  pos := r.text.length
  inside := by
    have hend := r.holds.inside
    omega
  fresh := r.freshTokens

theorem Round.typed_set (r : Round) : r.typed.buffer.set r.typed.pos 0 = r.line := by
  have hnul := r.holds.nul
  rw [Nat.zero_add] at hnul
  exact Block.set_eq_self hnul

theorem Round.typed_text (r : Round) : r.typed.text = r.text :=
  holdsText_unique r.typed.holdsText (r.typed_set ▸ r.holds)

/-- From one prompt to the next, with the line of the round. -/
def lineStep (c : Console) (r : Round) (c' : Console) : Prop :=
  c.prompt.runLine r.typed = .ret c'.prompt ∧ sessionStep c.session r c'.session

/-- A shell from its first prompt, in the process group `pgrp`. -/
def LineRun (staleAliases staleBuiltins : Nat) (completions : TrieNode) (pgrp : Int)
    (rounds : List Round) (c : Console) : Prop :=
  ∃ s₀, Outcome.Returns
      (fun fuel => Session.start fuel staleAliases staleBuiltins completions pgrp) s₀ ∧
    Run lineStep ⟨s₀, .start⟩ rounds c

/-! ## What is recorded -/

/-- An empty line is not recorded, nor is one that is what the last one was cut to. -/
def record (lines : List (List UInt8)) (text : List UInt8) : List (List UInt8) :=
  if text = [] ∨ lines.head?.map firstPiece = some text then lines else text :: lines

/-- The lines recorded behind the rounds, newest first. -/
def recordAll (lines : List (List UInt8)) (rounds : List Round) : List (List UInt8) :=
  rounds.foldl (fun lines r => record lines r.text) lines

theorem mem_record {lines : List (List UInt8)} {text line : List UInt8}
    (h : line ∈ record lines text) : line = text ∨ line ∈ lines := by
  rw [record] at h
  split_ifs at h
  · exact .inr h
  · exact List.mem_cons.mp h

theorem length_record (lines : List (List UInt8)) (text : List UInt8) :
    lines.length ≤ (record lines text).length ∧
      (record lines text).length ≤ lines.length + 1 := by
  rw [record]
  split_ifs
  · exact ⟨Nat.le_refl _, Nat.le_succ _⟩
  · exact ⟨Nat.le_succ _, Nat.le_refl _⟩

theorem recordAll_snoc (lines : List (List UInt8)) (rounds : List Round) (r : Round) :
    recordAll lines (rounds ++ [r]) = record (recordAll lines rounds) r.text := by
  rw [recordAll, List.foldl_append]
  rfl

/-- The buffer of a command holds what was left of the line. -/
def PromptState.Keeps (st : PromptState) (command : Nat) (line : List UInt8) : Prop :=
  ∃ b, st.lines.cell command = some b ∧ HoldsText b 0 (firstPiece line)

/-- The history has the lines, in buffers that are cut. -/
def PromptState.Recorded (st : PromptState) (lines : List (List UInt8)) : Prop :=
  ∃ commands nodes, Grown commands st.hist nodes ∧
    List.Forall₂ st.Keeps commands.reverse lines

section Histories

variable {st st' : PromptState} {lines : List (List UInt8)} {cmd : Nat} {line : List UInt8}

theorem recorded_start : PromptState.start.Recorded [] := ⟨[], [], grown_empty, .nil⟩

theorem PromptState.Keeps.textOf (h : st.Keeps cmd line) :
    st.textOf cmd = .ret (firstPiece line) := by
  obtain ⟨b, hcell, htext⟩ := h
  rw [PromptState.textOf, Heap.read_of_live hcell, Outcome.ret_bind, bytesAt_eq htext]

/-- Following `next` from the first node one meets what is left of the lines. -/
theorem PromptState.Recorded.linked (h : st.Recorded lines) :
    ∃ nodes, st.hist.Linked nodes ∧ List.Forall₂ (fun x line => st.Keeps x.2.command line)
      nodes lines := by
  obtain ⟨commands, nodes, hgrown, hkeeps⟩ := h
  rw [← hgrown.all, List.forall₂_map_left_iff] at hkeeps
  exact ⟨nodes, hgrown.linked, hkeeps⟩

/-- The state with one more buffer keeps what it kept. -/
theorem PromptState.Keeps.mono (h : st.Keeps cmd line)
    (hsame : ∀ a b, st.lines.cell a = some b → st'.lines.cell a = some b) :
    st'.Keeps cmd line := by
  obtain ⟨b, hcell, htext⟩ := h
  exact ⟨b, hsame _ _ hcell, htext⟩

/-- What `get_line` makes of a line that was entered: it is pushed unless it is empty or what
is left of the last one. -/
theorem PromptState.Recorded.getLine (h : st.Recorded lines) (x : TypedLine) :
    st.getLine x =
      if x.text = [] ∨ lines.head?.map firstPiece = some x.text then
        .ret (st.lines.fresh, st.withLine x)
      else
        (st.withLine x).push st.lines.fresh >>= fun st' => .ret (st.lines.fresh, st') := by
  obtain ⟨commands, nodes, hgrown, hkeeps⟩ := h
  have hcount := hgrown.count
  have hnonempty : x.text.length > 0 ↔ x.text ≠ [] := List.length_pos_iff
  simp only [PromptState.getLine, Block.write_of_lt x.inside, Outcome.ret_bind,
    bytesAt_eq x.holdsText, Outcome.pure_eq]
  by_cases hempty : x.text = []
  · simp [hempty, PromptState.withLine]
  rw [if_pos (hnonempty.mpr hempty)]
  cases lines with
  | nil =>
      have hnil : commands = [] := by
        have hlen := hkeeps.length_eq
        rw [List.length_reverse] at hlen
        exact List.length_eq_zero_iff.mp hlen
      have hzero : ¬ st.hist.count > 0 := by simp [hcount, hnil]
      simp [hzero, hempty, PromptState.withLine]
  | cons line lines =>
      cases commands using List.reverseRecOn with
      | nil => cases hkeeps
      | append_singleton cs c =>
          rw [List.reverse_append, List.reverse_singleton, List.singleton_append,
            List.forall₂_cons] at hkeeps
          have hpos : st.hist.count > 0 := by simp [hcount]
          have hall := hgrown.all
          rw [List.reverse_append, List.reverse_singleton, List.singleton_append] at hall
          cases nodes with
          | nil => cases hall
          | cons y rest =>
              obtain ⟨hfirst, next, hcell, _⟩ := hgrown.linked.chain
              have hcommand : y.2.command = c := (List.cons.inj hall).1
              have hkept : (st.withLine x).Keeps c line :=
                hkeeps.1.mono fun a b => Heap.alloc_cell_of_live st.lines (x.buffer.set x.pos 0)
              obtain ⟨b, hb, htext⟩ := hkept
              have hread : PromptState.textOf
                  { st with lines := st.lines.alloc (x.buffer.set x.pos 0) } y.2.command =
                  .ret (firstPiece line) := by
                rw [hcommand, textOf]
                show (st.withLine x).lines.read c >>= _ = _
                rw [Heap.read_of_live hb, Outcome.ret_bind, bytesAt_eq htext]
              simp only [if_pos hpos, hfirst, Heap.read_of_live hcell, Outcome.ret_bind, hread,
                hempty, false_or, List.head?_cons, Option.map_some, Option.some.injEq]
              by_cases hsame : firstPiece line = x.text
              · rw [if_neg (by simp [hsame]), if_pos hsame]
                rfl
              · rw [if_pos (Ne.symm hsame), if_neg hsame]
                rfl

/-- What the rest of the loop does to the line's buffer. -/
theorem PromptState.runLine_spec {x : TypedLine} {st₁ : PromptState}
    (hget : st.getLine x = .ret (st.lines.fresh, st₁))
    (hlines : st₁.lines = st.lines.alloc (x.buffer.set x.pos 0)) :
    ∃ st', st.runLine x = .ret st' ∧ st'.hist = st₁.hist ∧
      (∀ a b, st.lines.cell a = some b → st'.lines.cell a = some b) ∧
      st'.Keeps st.lines.fresh x.text := by
  have hcell : st₁.lines.cell st.lines.fresh = some (x.buffer.set x.pos 0) := by
    rw [hlines]
    exact Heap.alloc_cell_self _ _
  obtain ⟨tokens, buffer, htokenize, _, hpiece⟩ := wshTokenize_spec x.fresh x.holdsText
  obtain ⟨lines, hwrite, _, hself, hothers⟩ := Heap.write_of_live hcell buffer
  refine ⟨{ st₁ with lines := lines }, ?_, rfl, fun a b ha => ?_, buffer, hself, hpiece⟩
  · simp only [PromptState.runLine, hget, Outcome.ret_bind, Heap.read_of_live hcell,
      htokenize, hwrite, Outcome.pure_eq]
  · show lines.cell a = some b
    rw [hothers a (Nat.ne_of_lt (Heap.lt_fresh ha)), hlines]
    exact Heap.alloc_cell_of_live _ _ ha

/-- **One line** is recorded, while there is room. -/
theorem PromptState.Recorded.runLine (h : st.Recorded lines) {x : TypedLine}
    (hroom : (record lines x.text).length < histMax) :
    ∃ st', st.runLine x = .ret st' ∧ st'.Recorded (record lines x.text) := by
  have hget := h.getLine x
  obtain ⟨commands, nodes, hgrown, hkeeps⟩ := h
  rw [record] at hroom ⊢
  split_ifs at hget hroom ⊢ with hskip
  · obtain ⟨st', hrun, hhist, hsame, _⟩ := runLine_spec hget rfl
    refine ⟨st', hrun, commands, nodes, ?_, hkeeps.imp fun _ _ hkeep => hkeep.mono hsame⟩
    rw [hhist]
    exact hgrown
  · have hlen : commands.length + 1 < histMax := by
      have hlen := hkeeps.length_eq
      rw [List.length_reverse] at hlen
      rw [hlen]
      exact hroom
    obtain ⟨hist', nodes', hpush, hgrown'⟩ := hgrown.push hlen st.lines.fresh
    have hpushed : (st.withLine x).push st.lines.fresh =
        .ret { st.withLine x with hist := hist' } := by
      rw [push]
      show st.hist.hPush st.lines.fresh >>= _ = _
      rw [hpush]
      rfl
    rw [hpushed, Outcome.ret_bind] at hget
    obtain ⟨st', hrun, hhist, hsame, hkept⟩ := runLine_spec hget rfl
    refine ⟨st', hrun, commands ++ [st.lines.fresh], nodes', ?_, ?_⟩
    · rw [hhist]
      exact hgrown'
    · rw [List.reverse_append, List.reverse_singleton, List.singleton_append]
      exact .cons hkept (hkeeps.imp fun _ _ hkeep => hkeep.mono hsame)

/-- **The rounds of a session are recorded**, while there is room. -/
theorem exists_lineRun {s s' : Session} {rounds : List Round} (h : st.Recorded lines)
    (hrun : Run sessionStep s rounds s') (hroom : (recordAll lines rounds).length < histMax) :
    ∃ st', Run lineStep ⟨s, st⟩ rounds ⟨s', st'⟩ ∧ st'.Recorded (recordAll lines rounds) := by
  induction hrun with
  | start => exact ⟨st, .start, h⟩
  | @next rounds _ _ r _ hstep ih =>
      rw [recordAll_snoc] at hroom ⊢
      have hless := (length_record (recordAll lines rounds) r.text).1
      obtain ⟨st₁, hlines, hrecorded⟩ := ih (Nat.lt_of_le_of_lt hless hroom)
      rw [← r.typed_text] at hroom ⊢
      obtain ⟨st', hline, hrecorded'⟩ := hrecorded.runLine hroom
      exact ⟨st', .next hlines ⟨hline, hstep⟩, hrecorded'⟩

end Histories

section Results

variable {staleAliases staleBuiltins : Nat} {completions : TrieNode} {pgrp : Int}
  {S : Set LowerWord}

/-- A shell for a script. -/
theorem Script.exists_lineRun (hne : completions ≠ null) (hholds : Holds completions S)
    {rounds : List Round} (hscript : Script staleAliases (View.start S pgrp) rounds)
    (hroom : (recordAll [] rounds).length < histMax) :
    ∃ c v, LineRun staleAliases staleBuiltins completions pgrp rounds c ∧
      Run View.step (View.start S pgrp) rounds v ∧ c.session.Shows staleAliases v ∧
      v.Sound ∧ c.prompt.Recorded (recordAll [] rounds) := by
  obtain ⟨s, v, ⟨s₀, hstart, hrun⟩, hviews, hshows, hsound⟩ := exists_sessionRun hne hholds hscript
  obtain ⟨st, hlines, hrecorded⟩ := Ports.exists_lineRun recorded_start hrun hroom
  exact ⟨⟨s, st⟩, v, ⟨s₀, hstart, hlines⟩, hviews, hshows, hsound, hrecorded⟩

/-- **A session serves what it is allowed to be asked.**  For every script of which fewer
than 30 lines are recorded there is a shell that comes to the prompt behind each line,
whatever the memory of the two tables held; at the end it is in the state of the view, its
history has the lines recorded, and its job list tracks the children. -/
theorem session_serves (hne : completions ≠ null) (hholds : Holds completions S)
    (rounds : List Round) (hscript : Script staleAliases (View.start S pgrp) rounds)
    (hroom : (recordAll [] rounds).length < histMax) :
    ∃ c v, LineRun staleAliases staleBuiltins completions pgrp rounds c ∧
      Run View.step (View.start S pgrp) rounds v ∧ c.session.Shows staleAliases v ∧
      c.prompt.Recorded (recordAll [] rounds) ∧
      ∃ elems, TracksChildren c.session.shell elems := by
  obtain ⟨c, v, hrun, hviews, hshows, hsound, hrecorded⟩ :=
    hscript.exists_lineRun hne hholds hroom
  exact ⟨c, v, hrun, hviews, hshows, hrecorded, hsound.tracksChildren hshows⟩

theorem twoLines_room :
    (recordAll [] [typing aliasLine 0, typing jobLine 100]).length + 1 < histMax := by
  decide

theorem session_serves_twoLines : ∃ completions S, completions ≠ null ∧
    Holds completions S ∧ Script 7 (View.start S 1) [typing aliasLine 0, typing jobLine 100] ∧
    (recordAll [] [typing aliasLine 0, typing jobLine 100]).length < histMax ∧
    ∃ c v, LineRun 7 9 completions 1 [typing aliasLine 0, typing jobLine 100] c ∧
      Run View.step (View.start S 1) [typing aliasLine 0, typing jobLine 100] v ∧
      c.session.Shows 7 v ∧
      c.prompt.Recorded (recordAll [] [typing aliasLine 0, typing jobLine 100]) ∧
      ∃ elems, TracksChildren c.session.shell elems := by
  obtain ⟨t, S, hne, hholds⟩ := exists_words
  have hroom : (recordAll [] [typing aliasLine 0, typing jobLine 100]).length < histMax :=
    Nat.lt_of_succ_lt twoLines_room
  exact ⟨t, S, hne, hholds, twoLines_script, hroom,
    session_serves hne hholds _ twoLines_script hroom⟩

end Results

end WizardShell.Ports
