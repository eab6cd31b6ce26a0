import WizardShell.Ports.EditorTurns

/-!
# The line editor without its display

`get_line` measures the line before it clears it on the screen, and that `strlen` may
run behind a buffer that holds no NUL yet.  Here the branches for typing and for the
history keep only what they do to the buffer, the cursor and `hist->curr`.
`readLine_quiet` says what that has to do with `get_line` itself: whenever the display
lets it go through, it returns what is returned here.

Typing pushes and pops the bytes in front of the cursor, and what is behind them plays
no part (`HoldsLine`).  `getLineQuiet_typing`: Enter returns what is left of them, and
no write on the way is outside the buffer, however often it grew.
-/

namespace WizardShell.Ports

open WizardShell.Verified
open Editor Prompt

/-- A byte that the last branch of `get_line` stores. -/
structure Typed where
  byte : UInt8
  notNul : byte ≠ 0
  notTab : byte ≠ 9
  notEnter : byte ≠ 10
  notEscape : byte ≠ 27
  notDel : byte ≠ 127
  notEof : byte ≠ 255
  deriving DecidableEq

/-- What is pressed while a line is typed. -/
inductive TypingKey where
  | char (c : Typed)
  | backspace
  deriving DecidableEq

/-- What is pressed when the history is used as well. -/
inductive WalkKey where
  | typing (k : TypingKey)
  | up
  | down
  deriving DecidableEq

/-- What the key sends. -/
def TypingKey.byte : TypingKey → UInt8
  | .char c => c.byte
  | .backspace => 127

def WalkKey.bytes : WalkKey → List UInt8
  | .typing k => [k.byte]
  | .up => [27, 91, 65]
  | .down => [27, 91, 66]

/-- What typing means: a push, or a pop that does nothing on the empty line. -/
def TypingKey.apply (line : List UInt8) : TypingKey → List UInt8
  | .char c => line ++ [c.byte]
  | .backspace => line.dropLast

namespace Editor

/-- `buffer[pos++] = c` -/
def putCharQuiet (c : UInt8) (s : Editor) : Checked Editor := do
  let buffer ← s.buffer.store s.pos c
  return growIfFull { s with buffer := buffer, pos := s.pos + 1 }

/-- `c == 127` -/
def backspaceQuiet (s : Editor) : Checked Editor :=
  if s.pos > 0 then do
    let buffer ← s.buffer.store (s.pos - 1) 0
    return { s with buffer := buffer, pos := s.pos - 1 }
  else .ok s.growIfFull

def typeQuiet (s : Editor) : TypingKey → Checked Editor
  | .char c => putCharQuiet c.byte s
  | .backspace => backspaceQuiet s

/-- Down at the newest command.  The `memset` is taken to clear the buffer. -/
def clearQuiet (s : Editor) : Checked Editor := do
  let len ← s.buffer.strlen
  if len > 0 then
    let buffer ← s.buffer.memset s.buffer.cap
    return { s with buffer := buffer, pos := 0, histIter := false }
  else return s

/-- The editor with an empty screen. -/
def mute (s : Editor) : Editor := { s with printed := [] }

end Editor

namespace Prompt

/-- The command of the node replaces the line. -/
def recallQuiet (p : Prompt) (a : Nat) (s : Editor) : Checked Editor := do
  let buffer ← s.buffer.memset s.buffer.cap
  let node ← p.node a
  let hcm := node.data.command.bytes
  let buffer ← buffer.strcpy hcm
  return { s with buffer := buffer, pos := hcm.length, curr := some a, histIter := true }

/-- `case 65` -/
def upQuiet (p : Prompt) (s : Editor) : Checked Editor :=
  match p.hist.first with
  | none => .ok s
  | some first =>
      if !s.histIter then p.recallQuiet first s
      else do
        let curr ← follow s.curr
        let node ← p.node curr
        match node.next with
        | some next => p.recallQuiet next s
        | none => return s

/-- `case 66` -/
def downQuiet (p : Prompt) (s : Editor) : Checked Editor :=
  if !s.histIter || p.hist.first.isNone then .ok s
  else do
    let curr ← follow s.curr
    let node ← p.node curr
    match node.data.prev with
    | some prev => p.recallQuiet prev s
    | none => clearQuiet s

def walkQuiet (p : Prompt) (s : Editor) : WalkKey → Checked Editor
  | .typing k => s.typeQuiet k
  | .up => p.upQuiet s
  | .down => p.downQuiet s

/-- `get_line(hist, completions)`, for these keys and then Enter. -/
def getLineQuiet (p : Prompt) (fresh : Nat → UInt8) (keys : List WalkKey) :
    Checked Entered := do
  let s ← runAll p.walkQuiet (.start fresh) keys
  p.enter s

end Prompt

/-! ## The editor with its display -/

section Display

variable {p : Prompt} {s t : Editor}

@[simp] theorem mute_grow (s : Editor) : s.growIfFull.mute = s.mute.growIfFull := by
  unfold growIfFull
  by_cases hfull : s.pos ≥ s.buffer.cap
  · rw [if_pos hfull, if_pos (show s.mute.pos ≥ s.mute.buffer.cap from hfull)]
    rfl
  · rw [if_neg hfull, if_neg (show ¬ s.mute.pos ≥ s.mute.buffer.cap from hfull)]

theorem putChar_quiet {c : UInt8} (h : putChar c s = .ok t) :
    putCharQuiet c s.mute = .ok t.mute := by
  obtain ⟨buffer, hstore, ht⟩ := Checked.bind_eq_ok.mp h
  cases ht
  rw [putCharQuiet, show s.mute.buffer.store s.mute.pos c = .ok buffer from hstore,
    Checked.ok_bind, mute_grow]
  rfl

theorem backspace_quiet (h : backspace s = .ok t) : backspaceQuiet s.mute = .ok t.mute := by
  rw [backspace] at h
  rw [backspaceQuiet]
  by_cases hpos : s.pos > 0
  · rw [if_pos hpos] at h
    rw [if_pos (show s.mute.pos > 0 from hpos)]
    obtain ⟨len, _, h⟩ := Checked.bind_eq_ok.mp h
    obtain ⟨buffer, hstore, h⟩ := Checked.bind_eq_ok.mp h
    obtain ⟨text, _, h⟩ := Checked.bind_eq_ok.mp h
    cases h
    rw [show s.mute.buffer.store (s.mute.pos - 1) 0 = .ok buffer from hstore, Checked.ok_bind]
    rfl
  · rw [if_neg hpos] at h
    rw [if_neg (show ¬ s.mute.pos > 0 from hpos), ← mute_grow]
    cases h
    rfl

theorem recallNode_quiet {a : Nat} (h : p.recallNode a s = .ok t) :
    p.recallQuiet a s.mute = .ok t.mute := by
  obtain ⟨len, _, h⟩ := Checked.bind_eq_ok.mp h
  obtain ⟨zeros, hzeros, h⟩ := Checked.bind_eq_ok.mp h
  obtain ⟨node, hnode, h⟩ := Checked.bind_eq_ok.mp h
  obtain ⟨buffer, hbuffer, h⟩ := Checked.bind_eq_ok.mp h
  cases h
  rw [recallQuiet, show s.mute.buffer.memset s.mute.buffer.cap = .ok zeros from hzeros,
    Checked.ok_bind, hnode, Checked.ok_bind]
  simp only [hbuffer, Checked.ok_bind]
  rfl

theorem clearNewest_quiet (h : clearNewest s = .ok t) : clearQuiet s.mute = .ok t.mute := by
  obtain ⟨_, htext, _⟩ := Block.strlen_bind_eq_ok.mp h
  have hroom : 0 < s.buffer.cap := by
    have hinside := htext.inside
    omega
  obtain ⟨hempty, rfl⟩ := (clearNewest_eq_ok hroom).mp h
  rw [clearQuiet, show t.mute.buffer.strlen = .ok 0 from Block.strlen_eq hempty,
    Checked.ok_bind]
  rfl

theorem up_quiet (h : p.up s = .ok t) : p.upQuiet s.mute = .ok t.mute := by
  rw [up] at h
  rw [upQuiet]
  cases hfirst : p.hist.first with
  | none =>
      rw [hfirst] at h
      cases h
      rfl
  | some first =>
      rw [hfirst] at h
      cases hiter : s.histIter with
      | false =>
          simp only [hiter, Bool.not_false, if_true] at h
          simp only [show s.mute.histIter = false from hiter, Bool.not_false, if_true]
          exact recallNode_quiet h
      | true =>
          simp only [hiter, Bool.not_true, Bool.false_eq_true, if_false] at h
          simp only [show s.mute.histIter = true from hiter, Bool.not_true, Bool.false_eq_true,
            if_false]
          obtain ⟨curr, hcurr, h⟩ := Checked.bind_eq_ok.mp h
          obtain ⟨node, hnode, h⟩ := Checked.bind_eq_ok.mp h
          rw [show follow s.mute.curr = .ok curr from hcurr, Checked.ok_bind, hnode,
            Checked.ok_bind]
          cases hnext : node.next with
          | none =>
              rw [hnext] at h
              cases h
              rfl
          | some next =>
              rw [hnext] at h
              exact recallNode_quiet h

theorem down_quiet (h : p.down s = .ok t) : p.downQuiet s.mute = .ok t.mute := by
  rw [down] at h
  rw [downQuiet]
  by_cases hout : (!s.histIter || p.hist.first.isNone) = true
  · rw [if_pos hout] at h
    rw [if_pos (show (!s.mute.histIter || p.hist.first.isNone) = true from hout)]
    cases h
    rfl
  · rw [if_neg hout] at h
    rw [if_neg (show ¬ (!s.mute.histIter || p.hist.first.isNone) = true from hout)]
    obtain ⟨curr, hcurr, h⟩ := Checked.bind_eq_ok.mp h
    obtain ⟨node, hnode, h⟩ := Checked.bind_eq_ok.mp h
    rw [show follow s.mute.curr = .ok curr from hcurr, Checked.ok_bind, hnode,
      Checked.ok_bind]
    cases hprev : node.data.prev with
    | none =>
        rw [hprev] at h
        exact clearNewest_quiet h
    | some prev =>
        rw [hprev] at h
        exact recallNode_quiet h

theorem press_quiet {k : TypingKey} (h : p.press s k.byte = .ok t) :
    s.mute.typeQuiet k = .ok t.mute := by
  cases k with
  | char c =>
      rw [TypingKey.byte, press, if_neg c.notTab, if_neg c.notDel] at h
      exact putChar_quiet h
  | backspace => exact backspace_quiet h

/-- A turn of the loop that goes through does to the line what the key does here. -/
theorem readLine_walk {k : WalkKey} {rest : List UInt8} {r : Option Entered}
    (h : p.readLine s (k.bytes ++ rest) = .ok r) :
    ∃ t, p.walkQuiet s.mute k = .ok t.mute ∧ p.readLine t rest = .ok r := by
  cases k with
  | typing k =>
      have hplain : k.byte ≠ 10 ∧ k.byte ≠ 255 ∧ k.byte ≠ 27 := by
        cases k with
        | char c => exact ⟨c.notEnter, c.notEof, c.notEscape⟩
        | backspace => decide
      have hturn := readLine_press p s rest hplain.1 hplain.2.1 hplain.2.2
      obtain ⟨t, ht, hrest⟩ := Checked.bind_eq_ok.mp (hturn.symm.trans h)
      exact ⟨t, press_quiet ht, hrest⟩
  | up =>
      obtain ⟨t, ht, hrest⟩ := Checked.bind_eq_ok.mp h
      exact ⟨t, up_quiet ht, hrest⟩
  | down =>
      obtain ⟨t, ht, hrest⟩ := Checked.bind_eq_ok.mp h
      exact ⟨t, down_quiet ht, hrest⟩

theorem readLine_runQuiet {keys : List WalkKey} : ∀ {s : Editor} {r : Option Entered},
    p.readLine s (keys.flatMap WalkKey.bytes ++ [10]) = .ok r →
    ∃ t e, runAll p.walkQuiet s.mute keys = .ok t ∧ p.enter t = .ok e ∧ r = some e := by
  induction keys with
  | nil =>
      intro s r h
      obtain ⟨e, he, hr⟩ := Checked.bind_eq_ok.mp h
      cases hr
      exact ⟨s.mute, e, rfl, he, rfl⟩
  | cons k keys ih =>
      intro s r h
      rw [List.flatMap_cons, List.append_assoc] at h
      obtain ⟨u, hu, hrest⟩ := readLine_walk h
      obtain ⟨t, e, hrun, henter, hr⟩ := ih hrest
      exact ⟨t, e, by rw [runAll_cons_ok hu]; exact hrun, henter, hr⟩

/-- **What `get_line` returns is what is returned here**, whenever it gets that far. -/
theorem readLine_quiet {fresh : Nat → UInt8} {keys : List WalkKey} {r : Option Entered}
    (h : p.readLine (.start fresh) (keys.flatMap WalkKey.bytes ++ [10]) = .ok r) :
    ∃ e, p.getLineQuiet fresh keys = .ok e ∧ r = some e := by
  obtain ⟨t, e, hrun, henter, hr⟩ := readLine_runQuiet h
  refine ⟨e, ?_, hr⟩
  rw [getLineQuiet, show runAll p.walkQuiet (.start fresh) keys = .ok t from hrun,
    Checked.ok_bind, henter]

end Display

/-! ## Typing -/

/-- The line in front of the cursor, with room for one more byte. -/
structure HoldsLine (s : Editor) (line : List UInt8) : Prop where
  bytes : Spans s.buffer 0 line
  pos : s.pos = line.length
  room : s.pos < s.buffer.cap

section Typing

variable {p : Prompt} {s : Editor} {line : List UInt8}

/-- There is room for the byte, and the buffer grows once it is full. -/
theorem putCharQuiet_ok (h : s.pos < s.buffer.cap) (c : UInt8) :
    putCharQuiet c s =
      .ok { s with buffer := s.buffer.set s.pos c, pos := s.pos + 1 }.growIfFull := by
  rw [putCharQuiet, Block.store_ok h, Checked.ok_bind]
  rfl

theorem backspaceQuiet_ok (hpos : 0 < s.pos) (h : s.pos < s.buffer.cap) :
    backspaceQuiet s =
      .ok { s with buffer := s.buffer.set (s.pos - 1) 0, pos := s.pos - 1 } := by
  rw [backspaceQuiet, if_pos hpos, Block.store_ok (by omega), Checked.ok_bind]
  rfl

theorem backspaceQuiet_zero (hpos : ¬ 0 < s.pos) (h : s.pos < s.buffer.cap) :
    backspaceQuiet s = .ok s := by
  rw [backspaceQuiet, if_neg hpos, growIfFull_of_lt h]

/-- A byte stored behind the line. -/
theorem HoldsLine.push (h : HoldsLine s line) {c : UInt8} (hc : c ≠ 0) :
    HoldsLine { s with buffer := s.buffer.set s.pos c, pos := s.pos + 1 }.growIfFull
      (line ++ [c]) where
  bytes := by
    refine Spans.frame (b := s.buffer.set s.pos c) ?_ fun j _ _ => by rw [cell_grow]
    refine Spans.append_iff.mpr ⟨h.bytes.frame fun j _ hj => ?_, ?_, hc, trivial⟩
    · rw [Nat.zero_add, ← h.pos] at hj
      exact Block.set_cell_ne _ c (Nat.ne_of_lt hj)
    · rw [Nat.zero_add, ← h.pos, Block.set_cell_self]
  pos := by
    rw [pos_grow, List.length_append, ← h.pos]
    rfl
  room := by
    rw [pos_grow]
    exact pos_lt_grow (s := { s with buffer := s.buffer.set s.pos c, pos := s.pos + 1 }) h.room

/-- The last byte of the line taken back. -/
theorem HoldsLine.pop (h : HoldsLine s line) :
    HoldsLine { s with buffer := s.buffer.set (s.pos - 1) 0, pos := s.pos - 1 }
      line.dropLast where
  bytes := by
    obtain hnil | ⟨rest, c, hline⟩ := line.eq_nil_or_concat
    · rw [hnil]
      trivial
    · have hbytes := h.bytes
      rw [List.concat_eq_append] at hline
      rw [hline] at hbytes ⊢
      rw [List.dropLast_concat]
      refine (Spans.append_iff.mp hbytes).1.frame fun j _ hj => ?_
      have hpos := h.pos
      rw [hline, List.length_append, List.length_singleton] at hpos
      exact Block.set_cell_ne _ 0 (by omega)
  pos := by rw [List.length_dropLast, ← h.pos]
  room := Nat.lt_of_le_of_lt (Nat.sub_le _ _) h.room

/-- A key goes through, and does to the line what it means. -/
theorem HoldsLine.typing (h : HoldsLine s line) (k : TypingKey) :
    ∃ t, s.typeQuiet k = .ok t ∧ HoldsLine t (k.apply line) := by
  cases k with
  | char c => exact ⟨_, putCharQuiet_ok h.room c.byte, h.push c.notNul⟩
  | backspace =>
      by_cases hpos : 0 < s.pos
      · exact ⟨_, backspaceQuiet_ok hpos h.room, h.pop⟩
      · have hnil : line = [] := List.length_eq_zero_iff.mp (by rw [← h.pos]; omega)
        refine ⟨s, backspaceQuiet_zero hpos h.room, ?_⟩
        rw [hnil] at h ⊢
        exact h

theorem HoldsLine.runTyping {s : Editor} {line : List UInt8} (h : HoldsLine s line)
    (p : Prompt) (keys : List TypingKey) :
    ∃ t, runAll p.walkQuiet s (keys.map .typing) = .ok t ∧
      HoldsLine t (keys.foldl TypingKey.apply line) := by
  induction keys generalizing s line with
  | nil => exact ⟨s, rfl, h⟩
  | cons k keys ih =>
      obtain ⟨u, hu, hline⟩ := h.typing k
      obtain ⟨t, hrun, ht⟩ := ih hline
      have hwalk : p.walkQuiet s (.typing k) = .ok u := hu
      exact ⟨t, by rw [List.map_cons, runAll_cons_ok hwalk]; exact hrun, ht⟩

theorem holdsLine_start (fresh : Nat → UInt8) : HoldsLine (.start fresh) [] where
  bytes := trivial
  pos := rfl
  room := by
    show 0 < rlBfs
    decide

/-- Enter ends the line at the cursor. -/
theorem HoldsLine.enter (h : HoldsLine s line) (p : Prompt) :
    p.enter s = .ok ⟨line, p.pushed line⟩ := by
  have hend : 0 + line.length = s.pos := by rw [Nat.zero_add, h.pos]
  have htext : HoldsText (s.buffer.set s.pos 0) 0 line := by
    refine ⟨h.bytes.frame fun j _ hj => ?_, ?_, ?_⟩
    · exact Block.set_cell_ne _ 0 (Nat.ne_of_lt (by omega))
    · rw [hend]
      exact h.room
    · rw [hend, Block.set_cell_self]
  rw [enter_ok p h.room, holdsText_unique (holdsText_upTo h.room) htext]

end Typing

theorem flatMap_typing (keys : List TypingKey) :
    (keys.map .typing).flatMap WalkKey.bytes = keys.map TypingKey.byte := by
  rw [List.flatMap_map, List.map_eq_flatMap]
  rfl

/-- **Typing is a stack**: whatever bytes are typed and taken back at a fresh prompt, and
whatever the memory held, no write is outside the buffer, and Enter returns the bytes
that are left.  `get_line` returns nothing else, unless its display fails. -/
theorem getLineQuiet_typing (p : Prompt) (fresh : Nat → UInt8) (keys : List TypingKey) :
    ∃ e, p.getLineQuiet fresh (keys.map .typing) = .ok e ∧
      e.line = keys.foldl TypingKey.apply [] ∧
      ∀ r, p.readLine (.start fresh) (keys.map TypingKey.byte ++ [10]) = .ok r →
        r = some e := by
  have hstart := holdsLine_start fresh
  obtain ⟨t, hrun, hline⟩ := hstart.runTyping p keys
  have hreturn : p.getLineQuiet fresh (keys.map .typing) =
      .ok ⟨keys.foldl TypingKey.apply [], p.pushed (keys.foldl TypingKey.apply [])⟩ := by
    rw [getLineQuiet, hrun, Checked.ok_bind, hline.enter p]
  refine ⟨_, hreturn, rfl, fun r hread => ?_⟩
  rw [← flatMap_typing] at hread
  obtain ⟨e, he, hr⟩ := readLine_quiet hread
  rw [hreturn] at he
  rw [hr, Except.ok.inj he]

end WizardShell.Ports
