import Mathlib.Data.List.Chain
import WizardShell.Ports.History
import WizardShell.Ports.Tokenize

/-!
# Lines shared between the history and the tokenizer

A line typed at the prompt lives in a buffer of its own.  On Enter `get_line`
stores the buffer in the history and returns it, and `wsh_tokenize` then cuts it
in place.  What follows in the iteration reads the line through the tokens; it
writes no byte of a line and no node of the history, so for these two an
iteration that comes back to the prompt is what the two functions did.

`historyFaithful_iff`: at every prompt the history has the texts as they were
typed exactly when no line was cut and the history never reached its capacity.
-/

namespace WizardShell.Ports

open WizardShell.Verified
open History (Linked hPush)

/-- The state of `get_line` when Enter is pressed: the buffer as editing left it
and the cursor; and what the memory for the tokens will hold. -/
structure TypedLine where
  buffer : Block UInt8
  pos : Nat
  inside : pos < buffer.cap
  fresh : Nat → Option Nat

/-- The text entered: what stands in front of the cursor. -/
def TypedLine.text (typed : TypedLine) : List UInt8 :=
  ((List.range' 0 typed.pos).map typed.buffer.cell).takeWhile (· ≠ 0)

/-- The line buffers and the history, whose commands point to buffers. -/
structure PromptState where
  lines : Heap (Block UInt8)
  hist : History Nat

namespace PromptState

/-- When the first prompt is shown. -/
def start : PromptState := ⟨.empty, .empty⟩

/-- The text in a line buffer. -/
def textOf (st : PromptState) (line : Nat) : Outcome (List UInt8) := do
  let buffer ← st.lines.read line
  bytesAt buffer 0

/-- `h_push(hist, buffer)`, its result not looked at. -/
def push (st : PromptState) (line : Nat) : Outcome PromptState := do
  let (_, hist) ← hPush st.hist line
  return { st with hist := hist }

/-- `get_line` from Enter on: the line returned, and the state. -/
def getLine (st : PromptState) (typed : TypedLine) : Outcome (Nat × PromptState) := do
  let buffer ← typed.buffer.write typed.pos 0
  let line := st.lines.fresh
  let st := { st with lines := st.lines.alloc buffer }
  let text ← bytesAt buffer 0
  if text.length > 0 then
    if st.hist.count > 0 then
      match st.hist.first with
      | none => .undefined
      | some first =>
          let node ← st.hist.heap.read first
          let command ← st.textOf node.data.command
          if text ≠ command then
            let st ← st.push line
            return (line, st)
          else return (line, st)
    else
      let st ← st.push line
      return (line, st)
  else return (line, st)

/-- One line entered and run: `get_line`, then `wsh_tokenize` on what it
returned. -/
def runLine (st : PromptState) (typed : TypedLine) : Outcome PromptState := do
  let (line, st) ← st.getLine typed
  let buffer ← st.lines.read line
  let (_, buffer) ← wshTokenize typed.fresh buffer
  let lines ← st.lines.write line buffer
  return { st with lines := lines }

/-- One line after another. -/
def runLines (st : PromptState) : List TypedLine → Outcome PromptState
  | [] => .ret st
  | typed :: rest => do
      let st ← st.runLine typed
      st.runLines rest

/-- After the lines `typed`, following `next` from the first node of the history
one meets live nodes up to NULL; each has the text of the line it was recorded
for, as that was typed, and no two neighbours have the same. -/
def Faithful (typed : List TypedLine) (st : PromptState) : Prop :=
  ∃ nodes, st.hist.Linked nodes ∧
    (∀ x ∈ nodes, ∃ line, typed[x.2.command]? = some line ∧
      st.textOf x.2.command = .ret line.text) ∧
    (nodes.map fun x => st.textOf x.2.command).IsChain (· ≠ ·)

end PromptState

open PromptState

/-- The lines go through, and at every prompt the history is faithful to what
was typed before. -/
def HistoryFaithful (typed : List TypedLine) : Prop :=
  ∀ before after, typed = before ++ after →
    ∃ st, start.runLines before = .ret st ∧ st.Faithful before

/-- The texts to record: no empty one, and none like the one before it. -/
def recorded (texts : List (List UInt8)) : List (List UInt8) :=
  texts.foldl
    (fun acc text => if text = [] ∨ acc.getLast? = some text then acc else acc ++ [text]) []

theorem recorded_snoc (texts : List (List UInt8)) (text : List UInt8) :
    recorded (texts ++ [text]) =
      if text = [] ∨ (recorded texts).getLast? = some text then recorded texts
      else recorded texts ++ [text] := by
  rw [recorded, List.foldl_append]
  rfl

theorem recorded_length_le (xs ys : List (List UInt8)) :
    (recorded xs).length ≤ (recorded (xs ++ ys)).length := by
  induction ys using List.reverseRecOn with
  | nil => simp
  | append_singleton ys y ih =>
      rw [← List.append_assoc, recorded_snoc]
      split
      · exact ih
      · rw [List.length_append]
        omega

theorem recorded_mem {texts : List (List UInt8)} {text : List UInt8}
    (h : text ∈ recorded texts) : text ∈ texts := by
  induction texts using List.reverseRecOn with
  | nil => cases h
  | append_singleton texts x ih =>
      rw [recorded_snoc] at h
      split at h
      · exact List.mem_append_left _ (ih h)
      · rcases List.mem_append.mp h with hold | hnew
        · exact List.mem_append_left _ (ih hold)
        · exact List.mem_append_right _ hnew

/-- No two neighbours among the texts recorded are equal. -/
theorem recorded_isChain (texts : List (List UInt8)) :
    (recorded texts).IsChain (· ≠ ·) := by
  induction texts using List.reverseRecOn with
  | nil => exact List.isChain_nil
  | append_singleton texts x ih =>
      rw [recorded_snoc]
      split
      · exact ih
      · rename_i hnew
        refine List.isChain_append.mpr ⟨ih, List.isChain_singleton _, ?_⟩
        intro a ha b hb
        simp only [List.head?_cons, Option.mem_def, Option.some.injEq] at ha hb
        subst hb
        rintro rfl
        exact hnew (.inr ha)

/-! ## The text in a buffer -/

theorem holdsText_takeWhile {b : Block UInt8} : ∀ {n i : Nat}, i + n < b.cap →
    b.cell (i + n) = 0 →
    HoldsText b i (((List.range' i n).map b.cell).takeWhile (· ≠ 0)) := by
  intro n
  induction n with
  | zero =>
      intro i hinside hnul
      exact HoldsText.nil_iff.mpr ⟨hinside, hnul⟩
  | succ n ih =>
      intro i hinside hnul
      rw [List.range'_succ, List.map_cons]
      by_cases hzero : b.cell i = 0
      · rw [List.takeWhile_cons_of_neg (by simp [hzero])]
        exact HoldsText.nil_iff.mpr ⟨by omega, hzero⟩
      · rw [List.takeWhile_cons_of_pos (by simp [hzero])]
        refine HoldsText.cons_iff.mpr ⟨rfl, hzero, ih (by omega) ?_⟩
        rw [← hnul]
        congr 1
        omega

/-- The NUL written on Enter ends the text entered. -/
theorem TypedLine.holdsText (typed : TypedLine) :
    HoldsText (typed.buffer.set typed.pos 0) 0 typed.text := by
  have hcells : (List.range' 0 typed.pos).map typed.buffer.cell =
      (List.range' 0 typed.pos).map (typed.buffer.set typed.pos 0).cell := by
    refine List.map_congr_left fun j hj => ?_
    rw [List.mem_range'_1] at hj
    exact (Block.set_cell_ne typed.buffer 0 (by omega)).symm
  rw [TypedLine.text, hcells]
  apply holdsText_takeWhile
  · rw [Nat.zero_add]
    exact typed.inside
  · rw [Nat.zero_add]
    exact Block.set_cell_self _ _ _

/-- The text a line was entered with, by the number of its buffer. -/
def lineText (typed : List TypedLine) (line : Nat) : List UInt8 :=
  ((typed[line]?).map TypedLine.text).getD []

theorem lineText_append {typed : List TypedLine} (x : TypedLine) {line : Nat}
    (h : line < typed.length) : lineText (typed ++ [x]) line = lineText typed line := by
  rw [lineText, lineText, List.getElem?_append_left h]

theorem lineText_last (typed : List TypedLine) (x : TypedLine) :
    lineText (typed ++ [x]) typed.length = x.text := by
  simp [lineText]

/-! ## Lines that are not cut -/

/-- Every line is whole in its buffer, and the history holds those recorded. -/
structure Clean (typed : List TypedLine) (st : PromptState) (commands : List Nat)
    (nodes : List (Nat × HistEntry Nat)) : Prop where
  grown : Grown commands st.hist nodes
  fresh : st.lines.fresh = typed.length
  whole : ∀ i line, typed[i]? = some line →
    ∃ b, st.lines.cell i = some b ∧ HoldsText b 0 line.text
  inside : ∀ i ∈ commands, i < typed.length
  texts : commands.map (lineText typed) = recorded (typed.map TypedLine.text)

theorem clean_start : Clean [] PromptState.start [] [] where
  grown := grown_empty
  fresh := rfl
  whole i line h := by simp at h
  inside i h := by cases h
  texts := rfl

variable {typed : List TypedLine} {st : PromptState} {commands : List Nat}
  {nodes : List (Nat × HistEntry Nat)}

theorem exists_line {i : Nat} (hi : i < typed.length) : ∃ line, typed[i]? = some line :=
  ⟨_, List.getElem?_eq_getElem hi⟩

theorem Clean.textOf (h : Clean typed st commands nodes) {i : Nat} (hi : i < typed.length) :
    st.textOf i = .ret (lineText typed i) := by
  obtain ⟨line, hline⟩ := exists_line hi
  obtain ⟨b, hcell, hholds⟩ := h.whole i line hline
  simp [PromptState.textOf, Heap.read_of_live hcell, bytesAt_eq hholds, lineText, hline]

theorem Clean.length_eq (h : Clean typed st commands nodes) :
    commands.length = (recorded (typed.map TypedLine.text)).length := by
  rw [← h.texts, List.length_map]

/-- When no line was cut, the history is faithful. -/
theorem Clean.faithful (h : Clean typed st commands nodes) : st.Faithful typed := by
  have hmem : ∀ x ∈ nodes, x.2.command < typed.length := by
    intro x hx
    apply h.inside
    have hcommand : x.2.command ∈ nodes.map fun x => x.2.command := List.mem_map_of_mem hx
    rw [h.grown.all] at hcommand
    exact List.mem_reverse.mp hcommand
  refine ⟨nodes, h.grown.linked, fun x hx => ?_, ?_⟩
  · obtain ⟨line, hline⟩ := exists_line (hmem x hx)
    refine ⟨line, hline, ?_⟩
    rw [h.textOf (hmem x hx), lineText, hline]
    rfl
  · have htexts : (nodes.map fun x => st.textOf x.2.command) =
        ((recorded (typed.map TypedLine.text)).reverse).map Outcome.ret := by
      rw [← h.texts, ← List.map_reverse, ← h.grown.all, List.map_map, List.map_map]
      exact List.map_congr_left fun x hx => h.textOf (hmem x hx)
    rw [htexts, List.isChain_map, List.isChain_reverse]
    refine (recorded_isChain _).imp fun a b hab heq => ?_
    exact hab (Outcome.ret.inj heq).symm

/-- The state with the line's buffer in memory. -/
def PromptState.withLine (st : PromptState) (x : TypedLine) : PromptState :=
  { st with lines := st.lines.alloc (x.buffer.set x.pos 0) }

/-- What `get_line` does with a line: it records a new one. -/
theorem Clean.getLine (h : Clean typed st commands nodes) (x : TypedLine) :
    st.getLine x =
      if x.text = [] ∨ (recorded (typed.map TypedLine.text)).getLast? = some x.text then
        .ret (typed.length, st.withLine x)
      else
        (st.withLine x).push typed.length >>= fun st => .ret (typed.length, st) := by
  have hcount := h.grown.count
  have htexts := h.texts
  have hnonempty : x.text.length > 0 ↔ x.text ≠ [] := List.length_pos_iff
  simp only [PromptState.getLine, Block.write_of_lt x.inside, Outcome.ret_bind,
    bytesAt_eq x.holdsText, h.fresh, Outcome.pure_eq]
  by_cases hempty : x.text = []
  · simp [hempty, PromptState.withLine]
  rw [if_pos (hnonempty.mpr hempty)]
  cases commands using List.reverseRecOn with
  | nil =>
      have hzero : ¬ st.hist.count > 0 := by simp [hcount]
      rw [← htexts, if_neg hzero]
      simp [hempty, PromptState.withLine]
  | append_singleton cs c =>
      have hpos : st.hist.count > 0 := by simp [hcount]
      have hc : c < typed.length := h.inside c (by simp)
      have hlast : (recorded (typed.map TypedLine.text)).getLast? = some (lineText typed c) := by
        rw [← htexts]
        simp
      have hall := h.grown.all
      rw [List.reverse_append, List.reverse_singleton, List.singleton_append] at hall
      cases nodes with
      | nil => cases hall
      | cons y rest =>
          obtain ⟨hfirst, next, hcell, _⟩ := h.grown.linked.chain
          have hcommand : y.2.command = c := (List.cons.inj hall).1
          have htext : (st.withLine x).textOf c = .ret (lineText typed c) := by
            obtain ⟨line, hline⟩ := exists_line hc
            obtain ⟨b, hb, hholds⟩ := h.whole c line hline
            have hb' := Heap.alloc_cell_of_live st.lines (x.buffer.set x.pos 0) hb
            simp [PromptState.textOf, PromptState.withLine, Heap.read_of_live hb',
              bytesAt_eq hholds, lineText, hline]
          have htext' : PromptState.textOf
              { st with lines := st.lines.alloc (x.buffer.set x.pos 0) } y.2.command =
              .ret (lineText typed c) := by
            rw [hcommand]
            exact htext
          simp only [if_pos hpos, hfirst, Heap.read_of_live hcell, Outcome.ret_bind, htext',
            hlast, Option.some.injEq, hempty, false_or]
          by_cases hsame : lineText typed c = x.text
          · rw [if_neg (by simp [hsame]), if_pos hsame]
            rfl
          · rw [if_pos (Ne.symm hsame), if_neg hsame]
            rfl

/-- The line is neither empty nor the same as the one recorded last. -/
def IsNew (typed : List TypedLine) (x : TypedLine) : Prop :=
  ¬ (x.text = [] ∨ (recorded (typed.map TypedLine.text)).getLast? = some x.text)

/-- A new line goes into the history. -/
theorem Clean.getLine_push (h : Clean typed st commands nodes) {x : TypedLine}
    (hnew : IsNew typed x) {hist' : History Nat}
    (hpush : hPush st.hist typed.length = .ret (0, hist')) :
    st.getLine x = .ret (typed.length, { st.withLine x with hist := hist' }) := by
  rw [h.getLine x, if_neg hnew]
  simp [PromptState.push, PromptState.withLine, hpush]

/-- What the rest of the iteration leaves of the line. -/
theorem runLine_of_getLine {x : TypedLine} {st₁ : PromptState}
    (hget : st.getLine x = .ret (typed.length, st₁)) (hfresh : st.lines.fresh = typed.length)
    (hlines : st₁.lines = st.lines.alloc (x.buffer.set x.pos 0)) :
    ∃ st', st.runLine x = .ret st' ∧ st'.hist = st₁.hist ∧
      st'.lines.fresh = typed.length + 1 ∧
      (∀ i, i < typed.length → st'.lines.cell i = st.lines.cell i) ∧
      ∃ b, st'.lines.cell typed.length = some b ∧ HoldsText b 0 (firstPiece x.text) := by
  have hcell : st₁.lines.cell typed.length = some (x.buffer.set x.pos 0) := by
    rw [hlines, ← hfresh]
    exact Heap.alloc_cell_self _ _
  obtain ⟨tokens, buffer, htokenize, _, hpiece⟩ := wshTokenize_spec x.fresh x.holdsText
  obtain ⟨lines, hwrite, hfresh', hself, hothers⟩ := Heap.write_of_live hcell buffer
  refine ⟨{ st₁ with lines := lines }, ?_, rfl, ?_, ?_, buffer, hself, hpiece⟩
  · simp only [PromptState.runLine, hget, Outcome.ret_bind, Heap.read_of_live hcell,
      htokenize, hwrite, Outcome.pure_eq]
  · show lines.fresh = typed.length + 1
    rw [hfresh', hlines, Heap.alloc_fresh, hfresh]
  · intro i hi
    show lines.cell i = st.lines.cell i
    rw [hothers i (Nat.ne_of_lt hi), hlines,
      Heap.alloc_cell_ne _ _ (by rw [hfresh]; exact Nat.ne_of_lt hi)]

/-- The lines after one more that was not cut. -/
theorem Clean.whole_snoc (h : Clean typed st commands nodes) {x : TypedLine}
    {st' : PromptState} (huncut : firstPiece x.text = x.text)
    (hsame : ∀ i, i < typed.length → st'.lines.cell i = st.lines.cell i)
    (hlast : ∃ b, st'.lines.cell typed.length = some b ∧
      HoldsText b 0 (firstPiece x.text)) :
    ∀ i line, (typed ++ [x])[i]? = some line →
      ∃ b, st'.lines.cell i = some b ∧ HoldsText b 0 line.text := by
  intro i line hline
  by_cases hi : i < typed.length
  · rw [List.getElem?_append_left hi] at hline
    rw [hsame i hi]
    exact h.whole i line hline
  · rw [List.getElem?_append_right (Nat.le_of_not_lt hi)] at hline
    obtain ⟨hi', hx⟩ := List.getElem?_eq_some_iff.mp hline
    have heq : i = typed.length := by
      rw [List.length_singleton] at hi'
      omega
    subst heq
    have hxline : x = line := by simpa using hx
    rw [← hxline, ← huncut]
    exact hlast

theorem Clean.texts_old (h : Clean typed st commands nodes) (x : TypedLine) :
    commands.map (lineText (typed ++ [x])) = recorded (typed.map TypedLine.text) := by
  rw [← h.texts]
  exact List.map_congr_left fun i hi => lineText_append x (h.inside i hi)

/-- A line that is not cut, while there is room in the history. -/
theorem Clean.step (h : Clean typed st commands nodes) (x : TypedLine)
    (huncut : ¬ IsCut x.text)
    (hroom : (recorded ((typed ++ [x]).map TypedLine.text)).length < histMax) :
    ∃ st' commands' nodes', st.runLine x = .ret st' ∧
      Clean (typed ++ [x]) st' commands' nodes' := by
  have hwhole : firstPiece x.text = x.text := (firstPiece_eq_self_iff x.text).mpr huncut
  rw [List.map_append, List.map_singleton, recorded_snoc] at hroom
  by_cases hskip : x.text = [] ∨
      (recorded (typed.map TypedLine.text)).getLast? = some x.text
  · have hget := h.getLine x
    rw [if_pos hskip] at hget
    obtain ⟨st', hrun, hhist, hfresh, hsame, hlast⟩ :=
      runLine_of_getLine hget h.fresh rfl
    refine ⟨st', commands, nodes, hrun, ?_, ?_, h.whole_snoc hwhole hsame hlast, ?_, ?_⟩
    · rw [hhist]
      exact h.grown
    · rw [hfresh, List.length_append, List.length_singleton]
    · intro i hi
      rw [List.length_append]
      exact Nat.lt_add_right _ (h.inside i hi)
    · rw [h.texts_old x, List.map_append, List.map_singleton, recorded_snoc, if_pos hskip]
  · rw [if_neg hskip, List.length_append, List.length_singleton, ← h.length_eq] at hroom
    obtain ⟨hist', nodes', hpush, hgrown⟩ := h.grown.push hroom typed.length
    obtain ⟨st', hrun, hhist, hfresh, hsame, hlast⟩ :=
      runLine_of_getLine (h.getLine_push hskip hpush) h.fresh rfl
    refine ⟨st', commands ++ [typed.length], nodes', hrun, ?_, ?_,
      h.whole_snoc hwhole hsame hlast, ?_, ?_⟩
    · rw [hhist]
      exact hgrown
    · rw [hfresh, List.length_append, List.length_singleton]
    · intro i hi
      rw [List.length_append, List.length_singleton]
      rcases List.mem_append.mp hi with hold | hnew
      · exact Nat.lt_succ_of_lt (h.inside i hold)
      · rw [List.mem_singleton.mp hnew]
        exact Nat.lt_succ_self _
    · rw [List.map_append, h.texts_old x, List.map_singleton, lineText_last,
        List.map_append, List.map_singleton, recorded_snoc, if_neg hskip]

/-! ## The line that breaks the history -/

/-- A line that is cut is new, for no line before was. -/
theorem isNew_of_isCut (huncut : ∀ y ∈ typed, ¬ IsCut y.text) {x : TypedLine}
    (hcut : IsCut x.text) : IsNew typed x := by
  rintro (hempty | hlast)
  · obtain ⟨pre, d, post, htext, _⟩ := hcut
    rw [hempty] at htext
    cases pre <;> cases htext
  · obtain ⟨y, hy, heq⟩ := List.mem_map.mp (recorded_mem (List.mem_of_getLast? hlast))
    exact huncut y hy (heq ▸ hcut)

/-- A new line that takes the last room leaves a chain into a freed node. -/
theorem Clean.spoil_full (h : Clean typed st commands nodes) {x : TypedLine}
    (hnew : IsNew typed x) (hfull : commands.length + 1 = histMax) {st' : PromptState}
    (hrun : st.runLine x = .ret st') : ¬ st'.Faithful (typed ++ [x]) := by
  obtain ⟨hist', nodes', freed, hpush, hcorrupt⟩ := h.grown.push_full hfull typed.length
  obtain ⟨st'', hrun', hhist, _⟩ :=
    runLine_of_getLine (h.getLine_push hnew hpush) h.fresh rfl
  cases hrun.symm.trans hrun'
  rintro ⟨nodes'', hlinked, _⟩
  have hchain := hlinked.chain
  rw [hhist] at hchain
  exact hcorrupt.chain.not_whole hcorrupt.dead hchain

/-- A new line that is cut leaves an entry with less than was typed. -/
theorem Clean.spoil_cut (h : Clean typed st commands nodes) {x : TypedLine}
    (hnew : IsNew typed x) (hroom : commands.length + 1 < histMax) (hcut : IsCut x.text)
    {st' : PromptState} (hrun : st.runLine x = .ret st') :
    ¬ st'.Faithful (typed ++ [x]) := by
  obtain ⟨hist', nodes', hpush, hgrown⟩ := h.grown.push hroom typed.length
  obtain ⟨st'', hrun', hhist, _, _, b, hcell, hpiece⟩ :=
    runLine_of_getLine (h.getLine_push hnew hpush) h.fresh rfl
  cases hrun.symm.trans hrun'
  rintro ⟨nodes'', hlinked, htexts, _⟩
  have hchain := hlinked.chain
  rw [hhist] at hchain
  have hnodes : nodes'' = nodes' := hchain.unique hgrown.linked.chain
  have hmem : typed.length ∈ nodes'.map fun x => x.2.command := by
    rw [hgrown.all]
    simp
  obtain ⟨y, hy, hcommand⟩ := List.mem_map.mp hmem
  obtain ⟨line, hline, htext⟩ := htexts y (hnodes ▸ hy)
  rw [hcommand] at hline htext
  have hxline : x = line := by simpa using hline
  simp only [PromptState.textOf, Heap.read_of_live hcell, Outcome.ret_bind,
    bytesAt_eq hpiece, Outcome.ret.injEq] at htext
  rw [← hxline] at htext
  exact (firstPiece_eq_self_iff x.text).mp htext hcut

/-- A line that is cut, or that takes the last room, spoils the history. -/
theorem Clean.spoil (h : Clean typed st commands nodes)
    (huncut : ∀ y ∈ typed, ¬ IsCut y.text)
    (hroom : (recorded (typed.map TypedLine.text)).length < histMax) {x : TypedLine}
    (hbad : IsCut x.text ∨
      histMax ≤ (recorded ((typed ++ [x]).map TypedLine.text)).length)
    {st' : PromptState} (hrun : st.runLine x = .ret st') :
    ¬ st'.Faithful (typed ++ [x]) := by
  rw [List.map_append, List.map_singleton, recorded_snoc] at hbad
  have hnew : IsNew typed x := by
    rcases hbad with hcut | hfull
    · exact isNew_of_isCut huncut hcut
    · intro hskip
      rw [if_pos hskip] at hfull
      omega
  rw [if_neg hnew, List.length_append, List.length_singleton, ← h.length_eq] at hbad
  rw [← h.length_eq] at hroom
  by_cases hfull : commands.length + 1 = histMax
  · exact h.spoil_full hnew hfull hrun
  · have hleft : commands.length + 1 < histMax := by omega
    exact h.spoil_cut hnew hleft (hbad.resolve_right (by omega)) hrun

/-! ## Runs of lines -/

theorem runLines_append (st : PromptState) (xs ys : List TypedLine) :
    st.runLines (xs ++ ys) = (st.runLines xs >>= fun st => st.runLines ys) := by
  induction xs generalizing st with
  | nil => rfl
  | cons x xs ih =>
      simp only [List.cons_append, PromptState.runLines, bind_assoc]
      congr 1
      funext st
      exact ih st

/-- No line was cut, and the history has not reached its capacity. -/
def LinesFit (typed : List TypedLine) : Prop :=
  (∀ x ∈ typed, ¬ IsCut x.text) ∧
    (recorded (typed.map TypedLine.text)).length < histMax

theorem LinesFit.before {xs ys : List TypedLine} (h : LinesFit (xs ++ ys)) :
    LinesFit xs := by
  refine ⟨fun x hx => h.1 x (List.mem_append_left _ hx), Nat.lt_of_le_of_lt ?_ h.2⟩
  rw [List.map_append]
  exact recorded_length_le _ _

theorem clean_of_fit {typed : List TypedLine} (hfit : LinesFit typed) :
    ∃ st commands nodes, PromptState.start.runLines typed = .ret st ∧
      Clean typed st commands nodes := by
  induction typed using List.reverseRecOn with
  | nil => exact ⟨PromptState.start, [], [], rfl, clean_start⟩
  | append_singleton typed x ih =>
      obtain ⟨st, commands, nodes, hall, hclean⟩ := ih hfit.before
      obtain ⟨st', commands', nodes', hrun, hclean'⟩ :=
        hclean.step x (hfit.1 x (by simp)) hfit.2
      refine ⟨st', commands', nodes', ?_, hclean'⟩
      rw [runLines_append, hall, Outcome.ret_bind]
      simp [PromptState.runLines, hrun]

/-- `ls -la`, as it stands in the buffer of 1024 bytes. -/
def lsLa : TypedLine where
  buffer := .alloc 1024 fun i => [108, 115, 32, 45, 108, 97].getD i 0
  pos := 6
  inside := by decide
  fresh _ := none

/-- After `ls -la` was run, the history has the text `ls`. -/
theorem not_historyFaithful_lsLa : ¬ HistoryFaithful [lsLa] := by
  intro hfaithful
  obtain ⟨st, hall, hst⟩ := hfaithful [lsLa] [] rfl
  have hrun : PromptState.start.runLine lsLa = .ret st := by
    simpa [PromptState.runLines] using hall
  have hcut : IsCut lsLa.text := ⟨[108, 115], 32, [45, 108, 97], by decide, by decide,
    108, by decide, by decide⟩
  exact clean_start.spoil (by simp) (by decide) (.inl hcut) hrun hst

/-- **When running commands leaves the history as it was typed.** -/
theorem historyFaithful_iff (typed : List TypedLine) :
    HistoryFaithful typed ↔ LinesFit typed := by
  constructor
  · intro hfaithful
    induction typed using List.reverseRecOn with
    | nil => exact ⟨by simp, by decide⟩
    | append_singleton typed x ih =>
        have hbefore : LinesFit typed := by
          refine ih fun before after hsplit => hfaithful before (after ++ [x]) ?_
          rw [hsplit, List.append_assoc]
        obtain ⟨st, commands, nodes, hall, hclean⟩ := clean_of_fit hbefore
        obtain ⟨st', hall', hst'⟩ := hfaithful (typed ++ [x]) [] (List.append_nil _).symm
        rw [runLines_append, hall, Outcome.ret_bind] at hall'
        have hrun : st.runLine x = .ret st' := by
          simpa [PromptState.runLines] using hall'
        by_contra hbad
        refine hclean.spoil hbefore.1 hbefore.2 ?_ hrun hst'
        by_contra hgood
        push Not at hgood
        refine hbad ⟨fun y hy => ?_, hgood.2⟩
        rcases List.mem_append.mp hy with hold | hnew
        · exact hbefore.1 y hold
        · rw [List.mem_singleton.mp hnew]
          exact hgood.1
  · intro hfit before after hsplit
    obtain ⟨st, commands, nodes, hall, hclean⟩ := clean_of_fit (hsplit ▸ hfit).before
    exact ⟨st, hall, hclean.faithful⟩

end WizardShell.Ports
