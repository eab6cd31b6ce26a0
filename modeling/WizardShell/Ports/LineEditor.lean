import WizardShell.Ports.CompletionOf
import WizardShell.Ports.LineHistory
import WizardShell.Verified.Stepping

/-!
# The line editor

`get_line` takes one key after another, keeps the line in a buffer and prints
what changed.  The cursor is an index of its own beside the NUL that ends the
text: printable keys are stored without a NUL, and the end of the text is
whatever `strlen` finds.  Up and Down walk the history; each line recalled
replaces what stands in the buffer.

Writing or reading outside a buffer is a fault.  The one exception is
`buffer[pos - 1]`, which Tab reads with the cursor in the first column: the
byte in front of the buffer is given with the prompt.
-/

namespace WizardShell.Ports

open WizardShell.Verified
open History (Linked)

/-- `RL_BFS` -/
def rlBfs : Nat := 1024

/-- `sizeof(char *)` -/
def sizeofPointer : Nat := 8

/-- A byte that `get_line` puts into the buffer: no control character, and not
the one that reads as `EOF`. -/
structure Printable where
  byte : UInt8
  low : 32 ≤ byte
  notDel : byte ≠ 127
  notEof : byte ≠ 255

/-- What is pressed before Enter. -/
inductive Key where
  | char (c : Printable)
  | tab
  | backspace
  | up
  | down
  | right
  | left

/-- What `get_line` is given, and what happens to be in the memory around its
buffer: the byte in front of it, and the memory `prefix` will get. -/
structure Prompt where
  hist : History CString
  nodes : List (Nat × HistEntry CString)
  linked : hist.Linked nodes
  counted : hist.count = 0 ↔ nodes = []
  completions : TrieNode
  front : UInt8
  stack : Nat → UInt8

/-- The variables of `get_line`, with `hist->curr`; `bufsize` is the capacity of
the buffer.  What was printed is kept. -/
structure Editor where
  buffer : Block UInt8
  pos : Nat
  curr : Option Nat
  histIter : Bool
  printed : List UInt8

/-- What `get_line` returns, and what it pushed to the history. -/
structure Entered where
  line : List UInt8
  pushed : Option (List UInt8)
  deriving DecidableEq

/-- `back_up_buffer(n)`, what it prints -/
def backUpBuffer (n : Nat) : List UInt8 := List.replicate n 8

/-- `whitespace(n)` -/
def whitespace (n : Nat) : List UInt8 := List.replicate n 32

/-- `clear_line_buffer(len, p)` -/
def clearLineBuffer (len p : Nat) : List UInt8 :=
  backUpBuffer p ++ whitespace len ++ backUpBuffer len

namespace Editor

/-- When `get_line` begins, in memory that holds `fresh`. -/
def start (fresh : Nat → UInt8) : Editor := ⟨.alloc rlBfs fresh, 0, none, false, []⟩

/-- The check at the bottom of the loop. -/
def growIfFull (s : Editor) : Editor :=
  if s.pos ≥ s.buffer.cap then { s with buffer := s.buffer.resize (s.buffer.cap + rlBfs) }
  else s

/-- The last branch: a byte is stored and printed. -/
def putChar (c : UInt8) (s : Editor) : Checked Editor := do
  let buffer ← s.buffer.store s.pos c
  return growIfFull
    { s with buffer := buffer, pos := s.pos + 1, printed := s.printed ++ [c] }

/-- `case 67` -/
def right (s : Editor) : Checked Editor := do
  let len ← s.buffer.strlen
  if s.pos < len then
    let c ← s.buffer.load s.pos
    return { s with pos := s.pos + 1, printed := s.printed ++ [c] }
  else return s

/-- `case 68` -/
def left (s : Editor) : Checked Editor :=
  if s.pos > 0 then
    .ok { s with pos := s.pos - 1, printed := s.printed ++ [8] }
  else .ok s

/-- `c == 127` -/
def backspace (s : Editor) : Checked Editor :=
  if s.pos > 0 then do
    let len ← s.buffer.strlen
    let buffer ← s.buffer.store (s.pos - 1) 0
    let text ← buffer.text
    return { s with
      buffer := buffer
      pos := s.pos - 1
      printed := s.printed ++ clearLineBuffer len s.pos ++ text }
  else .ok s.growIfFull

/-- Down at the newest command: an empty line again. -/
def clearNewest (s : Editor) : Checked Editor := do
  let len ← s.buffer.strlen
  if len > 0 then
    let buffer ← s.buffer.memset (s.buffer.cap * sizeofPointer)
    return { s with
      buffer := buffer
      pos := 0
      histIter := false
      printed := s.printed ++ clearLineBuffer len s.pos }
  else return s

/-- `n` blanks at the cursor. -/
def placeBlanks : Nat → Editor → Checked Editor
  | 0, s => .ok s
  | n + 1, s => do
      let buffer ← s.buffer.store s.pos 32
      placeBlanks n
        { s with buffer := buffer, pos := s.pos + 1, printed := s.printed ++ [32] }

/-- `buffer[last - i] = '\0'` for `i` below `n` -/
def zeroBack (buffer : Block UInt8) (last : Nat) : Nat → Checked (Block UInt8)
  | 0 => .ok buffer
  | n + 1 => do
      let buffer ← zeroBack buffer last n
      buffer.store (last - n) 0

end Editor

open Editor

namespace Prompt

/-- The node a pointer of the history points to. -/
def node (p : Prompt) (a : Nat) : Checked (HistNode CString) :=
  (p.hist.heap.read a).orFault .deref

/-- A pointer that is followed without a look. -/
def follow (a : Option Nat) : Checked Nat :=
  match a with
  | some a => .ok a
  | none => .error .deref

/-- The lines that Up and Down have in common: the command of the node replaces
the line, and `hist->curr` moves to it.  `hist_iter` is 1 from then on. -/
def recallNode (p : Prompt) (a : Nat) (s : Editor) : Checked Editor := do
  let len ← s.buffer.strlen
  let buffer ← s.buffer.memset s.buffer.cap
  let node ← p.node a
  let hcm := node.data.command.bytes
  let buffer ← buffer.strcpy hcm
  return {
    buffer := buffer
    pos := hcm.length
    curr := some a
    histIter := true
    printed := s.printed ++ clearLineBuffer len s.pos ++ hcm }

/-- `case 65` -/
def up (p : Prompt) (s : Editor) : Checked Editor :=
  match p.hist.first with
  | none => .ok s
  | some first =>
      if !s.histIter then p.recallNode first s
      else do
        let curr ← follow s.curr
        let node ← p.node curr
        match node.next with
        | some next => p.recallNode next s
        | none => return s

/-- `case 66` -/
def down (p : Prompt) (s : Editor) : Checked Editor :=
  if !s.histIter || p.hist.first.isNone then .ok s
  else do
    let curr ← follow s.curr
    let node ← p.node curr
    match node.data.prev with
    | some prev => p.recallNode prev s
    | none => clearNewest s

/-- `buffer[pos - 1]` -/
def byteBefore (p : Prompt) (s : Editor) : Checked UInt8 :=
  match s.pos with
  | 0 => .ok p.front
  | i + 1 => s.buffer.load i

/-- Is there nothing to complete? -/
def tabBlank (p : Prompt) (s : Editor) : Checked Bool := do
  let c ← p.byteBefore s
  if c = 32 then return true
  else
    let len ← s.buffer.strlen
    return len = 0 || c = 9

/-- Tab with a word to complete. -/
def complete (p : Prompt) (s : Editor) : Checked Editor := do
  let text ← s.buffer.text
  let fTok := (CString.afterLast 32 text).getD text
  let pre ← (Block.alloc fTok.length p.stack).strcpy fTok
  let pre ← completionOf p.completions pre
  let buffer ← zeroBack s.buffer (text.length - 1) fTok.length
  let finish ← pre.text
  let buffer ← buffer.strcat finish
  let text ← buffer.text
  return growIfFull { s with
    buffer := buffer
    pos := text.length
    printed := s.printed ++ clearLineBuffer sizeofPointer s.pos ++ text }

/-- `c == '\t'` -/
def tab (p : Prompt) (s : Editor) : Checked Editor := do
  let blank ← p.tabBlank s
  if blank then placeBlanks 4 s else p.complete s

/-- The `switch` on the last byte of an arrow key. -/
def arrow (p : Prompt) (s : Editor) (c : UInt8) : Checked Editor :=
  if c = 65 then p.up s
  else if c = 66 then p.down s
  else if c = 67 then right s
  else if c = 68 then left s
  else .ok s

/-- The branches behind the arrow keys. -/
def press (p : Prompt) (s : Editor) (c : UInt8) : Checked Editor :=
  if c = 9 then p.tab s
  else if c = 127 then backspace s
  else putChar c s

/-- `c == EOF || c == '\n'` -/
def enter (p : Prompt) (s : Editor) : Checked Entered := do
  let buffer ← s.buffer.store s.pos 0
  let line ← buffer.text
  if line.length > 0 then
    if p.hist.count > 0 then
      let first ← follow p.hist.first
      let node ← p.node first
      if line ≠ node.data.command.bytes then return ⟨line, some line⟩
      else return ⟨line, none⟩
    else return ⟨line, some line⟩
  else return ⟨line, none⟩

/-- The loop, over the bytes that `getch` will return; nothing when it still waits
for one. -/
def readLine (p : Prompt) (s : Editor) : List UInt8 → Checked (Option Entered)
  | [] => .ok none
  | 10 :: _ => do
      let entered ← p.enter s
      return some entered
  | 255 :: _ => do
      let entered ← p.enter s
      return some entered
  | 27 :: 91 :: c :: rest => do
      let s ← p.arrow s c
      readLine p s rest
  | [27, 91] => .ok none
  | [27] => .ok none
  | 27 :: _ :: rest => do
      let s ← p.press s 27
      readLine p s rest
  | c :: rest => do
      let s ← p.press s c
      readLine p s rest
termination_by structural bytes => bytes

/-- What a key does to the line. -/
def edit (p : Prompt) (s : Editor) : Key → Checked Editor
  | .char c => putChar c.byte s
  | .tab => p.tab s
  | .backspace => backspace s
  | .up => p.up s
  | .down => p.down s
  | .right => right s
  | .left => left s

/-- `get_line(hist, completions)`, for these keys and then Enter. -/
def getLine (p : Prompt) (fresh : Nat → UInt8) (keys : List Key) : Checked Entered := do
  let s ← runAll p.edit (.start fresh) keys
  p.enter s

end Prompt

open Prompt

/-- Nothing was entered before, and no word is known. -/
def Prompt.bare : Prompt where
  hist := .empty
  nodes := []
  linked := ⟨rfl, trivial⟩
  counted := iff_of_true rfl rfl
  completions := tnGetNode
  front := 0
  stack _ := 0

/-- `a` -/
def letterA : Printable := ⟨97, by decide, by decide, by decide⟩

/-- `b` -/
def letterB : Printable := ⟨98, by decide, by decide, by decide⟩

/-! ## Keys and bytes -/

/-- What a key sends. -/
def Key.bytes : Key → List UInt8
  | .char c => [c.byte]
  | .tab => [9]
  | .backspace => [127]
  | .up => [27, 91, 65]
  | .down => [27, 91, 66]
  | .right => [27, 91, 67]
  | .left => [27, 91, 68]

theorem Printable.ne_of_lt (c : Printable) {b : UInt8} (h : b < 32) : c.byte ≠ b := by
  intro heq
  have hlow := c.low
  rw [heq] at hlow
  exact absurd (UInt8.lt_of_lt_of_le h hlow) (UInt8.lt_irrefl b)

theorem Printable.ne_zero (c : Printable) : c.byte ≠ 0 := c.ne_of_lt (by decide)

/-- The loop turns once for a byte that is none of the others. -/
theorem readLine_press (p : Prompt) (s : Editor) (rest : List UInt8) {c : UInt8}
    (h10 : c ≠ 10) (h255 : c ≠ 255) (h27 : c ≠ 27) :
    p.readLine s (c :: rest) = (p.press s c >>= fun s => p.readLine s rest) := by
  rw [readLine]
  all_goals simp [h10, h255, h27]

/-- The loop turns once a key. -/
theorem readLine_key (p : Prompt) (s : Editor) (k : Key) (rest : List UInt8) :
    p.readLine s (k.bytes ++ rest) = (p.edit s k >>= fun s => p.readLine s rest) := by
  cases k with
  | char c =>
      have h9 : c.byte ≠ 9 := c.ne_of_lt (by decide)
      have hpress : p.press s c.byte = p.edit s (.char c) := by
        rw [press, if_neg h9, if_neg c.notDel, edit]
      rw [← hpress]
      exact readLine_press p s rest (c.ne_of_lt (by decide)) c.notEof
        (c.ne_of_lt (by decide))
  | tab => rfl
  | backspace => rfl
  | up => rfl
  | down => rfl
  | right => rfl
  | left => rfl

/-- **The loop over bytes is the run over keys.** -/
theorem readLine_keys (p : Prompt) (s : Editor) (keys : List Key) :
    p.readLine s (keys.flatMap Key.bytes ++ [10]) =
      (runAll p.edit s keys >>= fun s => p.enter s >>= fun e => .ok (some e)) := by
  induction keys generalizing s with
  | nil => rfl
  | cons k keys ih =>
      rw [List.flatMap_cons, List.append_assoc, readLine_key]
      cases hedit : p.edit s k with
      | ok t =>
          rw [runAll_cons_ok hedit]
          exact ih t
      | error e =>
          rw [runAll_cons_error hedit]
          rfl

end WizardShell.Ports
