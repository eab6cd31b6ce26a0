import WizardShell.Ports.EditorTurns

/-!
# Reading past the buffer

Printable keys store no NUL, so `strlen` may run off the buffer.  It goes on through
what stands in memory behind it, and `get_line` goes on with the length it finds
there.  A key comes here with these bytes (`Press`); only where they hold no NUL either
does the read end in a fault.

The functions are those of the line editor, with each read of the buffer over the
memory that begins with it.  What is written is checked against the buffer alone.  With
nothing behind the buffer they are the line editor (`Overrun.edit_nil`).
-/

namespace WizardShell.Ports

open WizardShell.Verified
open Editor Prompt

/-- A key, and what stands in memory behind the buffer when it is pressed. -/
structure Press where
  key : Key
  behind : List UInt8

namespace Overrun

/-- `case 67` -/
def right (behind : List UInt8) (s : Editor) : Checked Editor := do
  let len ← (s.buffer.before behind).strlen
  if s.pos < len then
    let c ← (s.buffer.before behind).load s.pos
    return { s with pos := s.pos + 1, printed := s.printed ++ [c] }
  else return s

/-- `c == 127` -/
def backspace (behind : List UInt8) (s : Editor) : Checked Editor :=
  if s.pos > 0 then do
    let len ← (s.buffer.before behind).strlen
    let buffer ← s.buffer.store (s.pos - 1) 0
    let text ← (buffer.before behind).text
    return { s with
      buffer := buffer
      pos := s.pos - 1
      printed := s.printed ++ clearLineBuffer len s.pos ++ text }
  else .ok s.growIfFull

/-- Down at the newest command: an empty line again. -/
def clearNewest (behind : List UInt8) (s : Editor) : Checked Editor := do
  let len ← (s.buffer.before behind).strlen
  if len > 0 then
    let buffer ← s.buffer.memset (s.buffer.cap * sizeofPointer)
    return { s with
      buffer := buffer
      pos := 0
      histIter := false
      printed := s.printed ++ clearLineBuffer len s.pos }
  else return s

/-- The lines that Up and Down have in common. -/
def recallNode (p : Prompt) (behind : List UInt8) (a : Nat) (s : Editor) : Checked Editor := do
  let len ← (s.buffer.before behind).strlen
  let buffer ← s.buffer.memset s.buffer.cap
  let node ← p.node a
  let hcm := node.data.command.bytes
  let buffer ← buffer.strcpy hcm
  return {
    buffer := buffer
    pos := hcm.length
    curr := some a
    histIter := true
    printed := s.printed ++ clearLineBuffer len s.pos ++ hcm }

/-- `case 65` -/
def up (p : Prompt) (behind : List UInt8) (s : Editor) : Checked Editor :=
  match p.hist.first with
  | none => .ok s
  | some first =>
      if !s.histIter then recallNode p behind first s
      else do
        let curr ← follow s.curr
        let node ← p.node curr
        match node.next with
        | some next => recallNode p behind next s
        | none => return s

/-- `case 66` -/
def down (p : Prompt) (behind : List UInt8) (s : Editor) : Checked Editor :=
  if !s.histIter || p.hist.first.isNone then .ok s
  else do
    let curr ← follow s.curr
    let node ← p.node curr
    match node.data.prev with
    | some prev => recallNode p behind prev s
    | none => clearNewest behind s

/-- `buffer[pos - 1]` -/
def byteBefore (p : Prompt) (behind : List UInt8) (s : Editor) : Checked UInt8 :=
  match s.pos with
  | 0 => .ok p.front
  | i + 1 => (s.buffer.before behind).load i

/-- Is there nothing to complete? -/
def tabBlank (p : Prompt) (behind : List UInt8) (s : Editor) : Checked Bool := do
  let c ← byteBefore p behind s
  if c = 32 then return true
  else
    let len ← (s.buffer.before behind).strlen
    return len = 0 || c = 9

/-- Tab with a word to complete. -/
def complete (p : Prompt) (behind : List UInt8) (s : Editor) : Checked Editor := do
  let text ← (s.buffer.before behind).text
  let fTok := (CString.afterLast 32 text).getD text
  let pre ← (Block.alloc fTok.length p.stack).strcpy fTok
  let pre ← completionOf p.completions pre
  let buffer ← zeroBack s.buffer (text.length - 1) fTok.length
  let finish ← pre.text
  let len ← (buffer.before behind).strlen
  let buffer ← buffer.writeBytes len (finish ++ [0])
  let text ← (buffer.before behind).text
  return growIfFull { s with
    buffer := buffer
    pos := text.length
    printed := s.printed ++ clearLineBuffer sizeofPointer s.pos ++ text }

/-- `c == '\t'` -/
def tab (p : Prompt) (behind : List UInt8) (s : Editor) : Checked Editor := do
  let blank ← tabBlank p behind s
  if blank then placeBlanks 4 s else complete p behind s

/-- What a key does to the line. -/
def edit (p : Prompt) (s : Editor) (x : Press) : Checked Editor :=
  match x.key with
  | .char c => putChar c.byte s
  | .tab => tab p x.behind s
  | .backspace => backspace x.behind s
  | .up => up p x.behind s
  | .down => down p x.behind s
  | .right => right x.behind s
  | .left => left s

/-- `get_line(hist, completions)`, for these keys and then Enter. -/
def getLine (p : Prompt) (fresh : Nat → UInt8) (presses : List Press) : Checked Entered := do
  let s ← runAll (edit p) (.start fresh) presses
  p.enter s

/-! ## With nothing behind the buffer -/

variable {p : Prompt} {s : Editor}

theorem tabBlank_nil (p : Prompt) (s : Editor) : tabBlank p [] s = p.tabBlank s := by
  simp only [tabBlank, byteBefore, Block.before_nil]
  rfl

theorem complete_nil (p : Prompt) (s : Editor) : complete p [] s = p.complete s := by
  simp only [complete, Prompt.complete, Block.before_nil, Block.strcat, bind_assoc]

/-- **With nothing behind the buffer** a read past it is a fault, as in the line
editor. -/
theorem edit_nil (p : Prompt) (s : Editor) (k : Key) : edit p s ⟨k, []⟩ = p.edit s k := by
  cases k with
  | char c => rfl
  | tab =>
      simp only [edit, Prompt.edit, tab, Prompt.tab, tabBlank_nil, complete_nil]
  | backspace =>
      simp only [edit, Prompt.edit, backspace, Editor.backspace, Block.before_nil]
  | up =>
      simp only [edit, Prompt.edit, up, recallNode, Block.before_nil]
      rfl
  | down =>
      simp only [edit, Prompt.edit, down, recallNode, clearNewest, Block.before_nil]
      rfl
  | right =>
      simp only [edit, Prompt.edit, right, Block.before_nil]
      rfl
  | left => rfl

/-! ## What the keys do -/

/-- There is a buffer, and `hist->curr` is at an entry while the history is browsed.
The cursor may have gone past the buffer. -/
structure Sound (p : Prompt) (s : Editor) : Prop where
  room : 0 < s.buffer.cap
  browses : p.Browses s

variable {t : Editor} {x : Press} {a : Nat} {behind : List UInt8}

theorem recall_eq (h : p.IsEntry a) (behind : List UInt8) (s : Editor) :
    recallNode p behind a s = ((s.buffer.before behind).strlen >>= fun len =>
      if (p.commandAt a).length < s.buffer.cap then .ok (p.recalled a len s)
      else .error .write) :=
  congrArg ((s.buffer.before behind).strlen >>= ·) (funext fun len => h.recall_rest s len)

theorem up_eq (h : p.Browses s) (behind : List UInt8) :
    up p behind s =
      match p.upTarget s with
      | some a => recallNode p behind a s
      | none => .ok s :=
  h.up_target fun a => recallNode p behind a s

theorem down_eq (h : p.Browses s) (behind : List UInt8) :
    down p behind s =
      if s.histIter then
        match p.downTarget s with
        | some a => recallNode p behind a s
        | none => clearNewest behind s
      else .ok s :=
  h.down_target (fun a => recallNode p behind a s) (clearNewest behind s)

theorem clearNewest_eq (hroom : 0 < s.buffer.cap) (behind : List UInt8) :
    clearNewest behind s = ((s.buffer.before behind).strlen >>= fun len =>
      if len > 0 then .error .write else .ok s) := by
  have hover : s.buffer.cap < s.buffer.cap * sizeofPointer := by
    rw [sizeofPointer]
    omega
  rw [clearNewest, Block.memset_error hover]
  rfl

theorem backspace_eq (hpos : 0 < s.pos) (behind : List UInt8) :
    backspace behind s = ((s.buffer.before behind).strlen >>= fun len =>
      if s.pos ≤ s.buffer.cap then
        ((s.buffer.set (s.pos - 1) 0).before behind).text >>= fun text =>
          .ok { s with
            buffer := s.buffer.set (s.pos - 1) 0
            pos := s.pos - 1
            printed := s.printed ++ clearLineBuffer len s.pos ++ text }
      else .error .write) := by
  rw [backspace, if_pos hpos]
  congr 1
  funext len
  by_cases hinside : s.pos ≤ s.buffer.cap
  · rw [if_pos hinside, Block.store_ok (by omega)]
    rfl
  · rw [if_neg hinside, Block.store_error (by omega)]
    rfl

/-- There is no room for `prefix`, wherever the word to complete ends. -/
theorem complete_error {text : List UInt8} (h : HoldsText (s.buffer.before behind) 0 text) :
    complete p behind s = .error .write := by
  rw [complete, Block.text_eq h, Checked.ok_bind]
  show ((Block.alloc ((CString.afterLast 32 text).getD text).length p.stack).strcpy
    ((CString.afterLast 32 text).getD text) >>= _) = _
  rw [Block.strcpy_error (Nat.le_refl _), Checked.error_bind]

/-- Tab only looks: it finds blanks, or a text, or it cannot read. -/
theorem tabBlank_cases (p : Prompt) (behind : List UInt8) (s : Editor) :
    tabBlank p behind s = .ok true ∨
      (tabBlank p behind s = .ok false ∧
        ∃ text, HoldsText (s.buffer.before behind) 0 text) ∨
      tabBlank p behind s = .error .read := by
  have hbyte : (∃ c, byteBefore p behind s = .ok c) ∨ byteBefore p behind s = .error .read := by
    rw [byteBefore]
    cases s.pos with
    | zero => exact .inl ⟨p.front, rfl⟩
    | succ i =>
        by_cases hinside : i < (s.buffer.before behind).cap
        · exact .inl ⟨_, Block.load_ok hinside⟩
        · exact .inr (Block.load_error (Nat.le_of_not_lt hinside))
  rcases hbyte with ⟨c, hc⟩ | herror
  · rw [tabBlank, hc, Checked.ok_bind]
    by_cases hblank : c = 32
    · rw [if_pos hblank]
      exact .inl rfl
    rw [if_neg hblank]
    rcases (s.buffer.before behind).text_cases with ⟨text, htext, _⟩ | ⟨_, herror⟩
    · rw [Block.strlen_eq htext, Checked.ok_bind]
      cases decide (text.length = 0) || decide (c = 9) with
      | true => exact .inl rfl
      | false => exact .inr (.inl ⟨rfl, text, htext⟩)
    · rw [Block.strlen, herror]
      exact .inr (.inr rfl)
  · rw [tabBlank, herror]
    exact .inr (.inr rfl)

/-- Four blanks go in when there is room for them. -/
theorem placeBlanks_ne_write_iff :
    placeBlanks 4 s ≠ .error .write ↔ s.pos + 4 ≤ s.buffer.cap := by
  by_cases hroom : s.pos + 4 ≤ s.buffer.cap
  · obtain ⟨t, ht, _⟩ := placeBlanks_ok 4 hroom
    rw [ht]
    simp [hroom]
  · have herror : placeBlanks 4 s = .error .write := by
      by_cases hinside : s.pos ≤ s.buffer.cap
      · exact placeBlanks_error 4 hinside (Nat.lt_of_not_le hroom)
      · rw [placeBlanks, Block.store_error (Nat.le_of_not_le hinside), Checked.error_bind]
    rw [herror]
    simp [hroom]

end Overrun

end WizardShell.Ports
