import WizardShell.Ports.LineEditor

/-!
# What the keys do

Each branch of `get_line` as one equation, for a cursor inside the buffer or at
its end and a browsed history whose `curr` is at one of its nodes.

A branch that measures the line returns what `strlen` returns and goes on from
there; the rest of it is a change of the state that cannot fail (`stored`,
`erased`, `recalled`), or a write outside the buffer.
-/

namespace WizardShell.Ports

open WizardShell.Verified
open History (PrevLinked)
open Editor Prompt

/-! ## The history under the cursor -/

/-- The pointer is to a node of the history. -/
def Prompt.IsEntry (p : Prompt) (a : Nat) : Prop := ∃ x ∈ p.nodes, x.1 = a

/-- The command of a node. -/
def Prompt.commandAt (p : Prompt) (a : Nat) : List UInt8 :=
  match p.hist.heap.cell a with
  | some node => node.data.command.bytes
  | none => []

/-- While the history is browsed, `hist->curr` is at one of its nodes. -/
def Prompt.Browses (p : Prompt) (s : Editor) : Prop :=
  s.histIter = true → ∃ a, s.curr = some a ∧ p.IsEntry a

/-- The node Up goes to. -/
def Prompt.upTarget (p : Prompt) (s : Editor) : Option Nat :=
  if s.histIter then s.curr.bind fun a => (p.hist.heap.cell a).bind fun node => node.next
  else p.hist.first

/-- The node Down goes to. -/
def Prompt.downTarget (p : Prompt) (s : Editor) : Option Nat :=
  if s.histIter then
    s.curr.bind fun a => (p.hist.heap.cell a).bind fun node => node.data.prev
  else none

theorem prevLinked_append {C : Type} {prev : Option Nat} {pre post : List (Nat × HistEntry C)}
    {x : Nat × HistEntry C} (h : PrevLinked prev (pre ++ x :: post)) :
    x.2.prev = (pre.getLast?.map Prod.fst).or prev := by
  induction pre generalizing prev with
  | nil => exact h.1
  | cons y pre ih =>
      rw [ih h.2, List.getLast?_cons]
      cases pre.getLast? <;> rfl

section Entries

variable {p : Prompt} {s : Editor} {a b : Nat}

theorem Prompt.IsEntry.of_mem {x : Nat × HistEntry CString} (h : x ∈ p.nodes) :
    p.IsEntry x.1 := ⟨x, h, rfl⟩

/-- An entry is live, and its neighbours are entries. -/
theorem Prompt.IsEntry.live (h : p.IsEntry a) :
    ∃ node, p.hist.heap.cell a = some node ∧
      (∃ x ∈ p.nodes, node.data.command = x.2.command) ∧
      (∀ b, node.next = some b → p.IsEntry b) ∧
      ∀ b, node.data.prev = some b → p.IsEntry b := by
  obtain ⟨x, hx, rfl⟩ := h
  obtain ⟨pre, post, hsplit⟩ := List.append_of_mem hx
  have hchain := p.linked.chain
  have hback := p.linked.back
  rw [hsplit] at hchain hback
  obtain ⟨_, _, _, next, hcell, hrest⟩ := Segment.append_iff.mp hchain
  refine ⟨⟨x.2, next⟩, hcell, ⟨x, hx, rfl⟩, fun b hb => ?_, fun b hb => ?_⟩
  · have hnext : next = post.head?.map Prod.fst := hrest.start_eq
    rw [hnext, Option.map_eq_some_iff] at hb
    obtain ⟨y, hy, rfl⟩ := hb
    exact .of_mem (by simp [hsplit, List.mem_of_head? hy])
  · have hprev : x.2.prev = some b := hb
    rw [prevLinked_append hback, Option.or_none, Option.map_eq_some_iff] at hprev
    obtain ⟨y, hy, rfl⟩ := hprev
    exact .of_mem (by simp [hsplit, List.mem_of_getLast? hy])

theorem Prompt.first_eq (p : Prompt) : p.hist.first = p.nodes.head?.map Prod.fst :=
  p.linked.chain.start_eq

theorem Prompt.isEntry_first (h : p.hist.first = some a) : p.IsEntry a := by
  rw [p.first_eq, Option.map_eq_some_iff] at h
  obtain ⟨x, hx, rfl⟩ := h
  exact .of_mem (List.mem_of_head? hx)

theorem Prompt.IsEntry.first_ne_none (h : p.IsEntry a) : p.hist.first ≠ none := by
  obtain ⟨x, hx, _⟩ := h
  rw [p.first_eq]
  cases hnodes : p.nodes with
  | nil =>
      rw [hnodes] at hx
      cases hx
  | cons y rest => simp

theorem Prompt.node_of_live {node : HistNode CString}
    (h : p.hist.heap.cell a = some node) : p.node a = .ok node := by
  rw [Prompt.node, Heap.read_of_live h, Outcome.orFault_ret]

/-- What Up goes to is an entry. -/
theorem Prompt.Browses.isEntry_up (hbrowses : p.Browses s) (h : p.upTarget s = some a) :
    p.IsEntry a := by
  rw [upTarget] at h
  cases hiter : s.histIter with
  | false =>
      rw [if_neg (by simp [hiter])] at h
      exact isEntry_first h
  | true =>
      obtain ⟨c, hcurr, hentry⟩ := hbrowses hiter
      obtain ⟨node, hcell, _, hnext, _⟩ := hentry.live
      rw [if_pos hiter, hcurr, Option.bind_some, hcell, Option.bind_some] at h
      exact hnext a h

/-- What Down goes to is an entry. -/
theorem Prompt.Browses.isEntry_down (hbrowses : p.Browses s)
    (h : p.downTarget s = some a) : p.IsEntry a := by
  rw [downTarget] at h
  cases hiter : s.histIter with
  | false =>
      rw [if_neg (by simp [hiter])] at h
      cases h
  | true =>
      obtain ⟨c, hcurr, hentry⟩ := hbrowses hiter
      obtain ⟨node, hcell, _, _, hprev⟩ := hentry.live
      rw [if_pos hiter, hcurr, Option.bind_some, hcell, Option.bind_some] at h
      exact hprev a h

/-- Up goes to its target, whatever is done there. -/
theorem Prompt.Browses.up_target (hbrowses : p.Browses s) (recallAt : Nat → Checked Editor) :
    (match p.hist.first with
      | none => .ok s
      | some first =>
          if !s.histIter then recallAt first
          else do
            let curr ← follow s.curr
            let node ← p.node curr
            match node.next with
            | some next => recallAt next
            | none => return s) =
      match p.upTarget s with
      | some a => recallAt a
      | none => .ok s := by
  rw [upTarget]
  cases hiter : s.histIter with
  | false => cases p.hist.first <;> rfl
  | true =>
      obtain ⟨c, hcurr, hentry⟩ := hbrowses hiter
      obtain ⟨node, hcell, _⟩ := hentry.live
      obtain ⟨first, hfirst⟩ := Option.ne_none_iff_exists'.mp hentry.first_ne_none
      cases hnext : node.next <;>
        simp only [hfirst, hcurr, hcell, hnext, follow, node_of_live hcell, Checked.ok_bind,
          Option.bind_some, Bool.not_true, Bool.false_eq_true, if_false, if_true,
          Checked.pure_eq]

/-- Up recalls its target. -/
theorem Prompt.Browses.up_eq (hbrowses : p.Browses s) :
    p.up s =
      match p.upTarget s with
      | some a => p.recallNode a s
      | none => .ok s :=
  hbrowses.up_target fun a => p.recallNode a s

/-- Down goes to its target or, at the newest command, to none, whatever is done
there. -/
theorem Prompt.Browses.down_target (hbrowses : p.Browses s) (recallAt : Nat → Checked Editor)
    (newest : Checked Editor) :
    (if !s.histIter || p.hist.first.isNone then .ok s
      else do
        let curr ← follow s.curr
        let node ← p.node curr
        match node.data.prev with
        | some prev => recallAt prev
        | none => newest) =
      if s.histIter then
        match p.downTarget s with
        | some a => recallAt a
        | none => newest
      else .ok s := by
  rw [downTarget]
  cases hiter : s.histIter with
  | false => rfl
  | true =>
      obtain ⟨c, hcurr, hentry⟩ := hbrowses hiter
      obtain ⟨node, hcell, _⟩ := hentry.live
      obtain ⟨first, hfirst⟩ := Option.ne_none_iff_exists'.mp hentry.first_ne_none
      cases hprev : node.data.prev <;>
        simp only [hfirst, hcurr, hcell, hprev, follow, node_of_live hcell, Checked.ok_bind,
          Option.bind_some, Bool.not_true, Option.isNone_some, Bool.or_false,
          Bool.false_eq_true, if_false, if_true]

/-- Down recalls its target, or leaves the newest command. -/
theorem Prompt.Browses.down_eq (hbrowses : p.Browses s) :
    p.down s =
      if s.histIter then
        match p.downTarget s with
        | some a => p.recallNode a s
        | none => clearNewest s
      else .ok s :=
  hbrowses.down_target (fun a => p.recallNode a s) (clearNewest s)

end Entries

/-! ## What each key does -/

/-- The bytes in front of a place, up to the first NUL among them. -/
def upTo (b : Block UInt8) (i : Nat) : List UInt8 :=
  ((List.range' 0 i).map b.cell).takeWhile (· ≠ 0)

/-- A NUL ends the text in front of it. -/
theorem holdsText_upTo {b : Block UInt8} {i : Nat} (h : i < b.cap) :
    HoldsText (b.set i 0) 0 (upTo b i) := TypedLine.holdsText ⟨b, i, h, fun _ => none⟩

/-- What stands behind a place, when some NUL does. -/
theorem exists_holdsText_of_nul {b : Block UInt8} {i j : Nat} (hij : i ≤ j) (hj : j < b.cap)
    (hnul : b.cell j = 0) : ∃ text, HoldsText b i text := by
  refine ⟨_, holdsText_takeWhile (n := j - i) ?_ ?_⟩
  · rw [Nat.add_sub_cancel' hij]
    exact hj
  · rw [Nat.add_sub_cancel' hij]
    exact hnul

namespace Editor

variable {s : Editor} {text : List UInt8} {c : UInt8}

@[simp] theorem pos_grow (s : Editor) : s.growIfFull.pos = s.pos := by
  rw [growIfFull]
  split <;> rfl

@[simp] theorem cell_grow (s : Editor) : s.growIfFull.buffer.cell = s.buffer.cell := by
  rw [growIfFull]
  split <;> rfl

@[simp] theorem curr_grow (s : Editor) : s.growIfFull.curr = s.curr := by
  rw [growIfFull]
  split <;> rfl

@[simp] theorem histIter_grow (s : Editor) : s.growIfFull.histIter = s.histIter := by
  rw [growIfFull]
  split <;> rfl

@[simp] theorem printed_grow (s : Editor) : s.growIfFull.printed = s.printed := by
  rw [growIfFull]
  split <;> rfl

theorem cap_le_grow (s : Editor) : s.buffer.cap ≤ s.growIfFull.buffer.cap := by
  rw [growIfFull]
  split
  · exact Nat.le_add_right _ _
  · exact Nat.le_refl _

theorem growIfFull_of_lt (h : s.pos < s.buffer.cap) : s.growIfFull = s := if_neg (by omega)

/-- Behind the check there is room for the next byte. -/
theorem pos_lt_grow (h : s.pos ≤ s.buffer.cap) : s.pos < s.growIfFull.buffer.cap := by
  rw [growIfFull]
  split
  · show s.pos < s.buffer.cap + rlBfs
    rw [rlBfs]
    omega
  · omega

/-- The line after a byte was stored. -/
def stored (c : UInt8) (s : Editor) : Editor :=
  { s with
    buffer := s.buffer.set s.pos c
    pos := s.pos + 1
    printed := s.printed ++ [c] }

theorem putChar_ok (h : s.pos < s.buffer.cap) (c : UInt8) :
    putChar c s = .ok (s.stored c).growIfFull := by
  rw [putChar, Block.store_ok h, Checked.ok_bind]
  rfl

theorem putChar_error (h : s.buffer.cap ≤ s.pos) (c : UInt8) :
    putChar c s = .error .write := by
  rw [putChar, Block.store_error h, Checked.error_bind]

/-- The line after Backspace, which found a text of `len` bytes. -/
def erased (len : Nat) (s : Editor) : Editor :=
  { s with
    buffer := s.buffer.set (s.pos - 1) 0
    pos := s.pos - 1
    printed := s.printed ++ clearLineBuffer len s.pos ++ upTo s.buffer (s.pos - 1) }

theorem backspace_eq (hpos : 0 < s.pos) (hcap : s.pos ≤ s.buffer.cap) :
    backspace s = (s.buffer.strlen >>= fun len => .ok (s.erased len)) := by
  have hlt : s.pos - 1 < s.buffer.cap := by omega
  rw [backspace, if_pos hpos, Block.store_ok hlt]
  simp only [Checked.ok_bind, Block.text_eq (holdsText_upTo hlt)]
  rfl

theorem backspace_zero (h : ¬ 0 < s.pos) : backspace s = .ok s.growIfFull := if_neg h

/-- Blanks for which there is room. -/
theorem placeBlanks_ok : ∀ (n : Nat) {s : Editor}, s.pos + n ≤ s.buffer.cap →
    ∃ t, placeBlanks n s = .ok t ∧ t.pos = s.pos + n ∧ t.buffer.cap = s.buffer.cap ∧
      t.curr = s.curr ∧ t.histIter = s.histIter := by
  intro n
  induction n with
  | zero =>
      intro s _
      exact ⟨s, rfl, rfl, rfl, rfl, rfl⟩
  | succ n ih =>
      intro s hroom
      have hrest : (s.stored 32).pos + n ≤ (s.stored 32).buffer.cap := by
        show s.pos + 1 + n ≤ s.buffer.cap
        omega
      obtain ⟨t, ht, hpos, hcap, hcurr, hiter⟩ := ih hrest
      refine ⟨t, ?_, ?_, hcap, hcurr, hiter⟩
      · rw [placeBlanks, Block.store_ok (by omega), Checked.ok_bind]
        exact ht
      · rw [hpos]
        show s.pos + 1 + n = s.pos + (n + 1)
        omega

theorem placeBlanks_error : ∀ (n : Nat) {s : Editor}, s.pos ≤ s.buffer.cap →
    s.buffer.cap < s.pos + n → placeBlanks n s = .error .write := by
  intro n
  induction n with
  | zero =>
      intro s hle hlt
      omega
  | succ n ih =>
      intro s hle hlt
      rw [placeBlanks]
      by_cases hroom : s.pos < s.buffer.cap
      · rw [Block.store_ok hroom, Checked.ok_bind]
        apply ih (by show s.pos + 1 ≤ s.buffer.cap; omega)
        show s.buffer.cap < s.pos + 1 + n
        omega
      · rw [Block.store_error (Nat.le_of_not_lt hroom), Checked.error_bind]

end Editor

namespace Prompt

variable {p : Prompt} {s : Editor} {a : Nat}

/-- The line after a node was recalled in place of a text of `len` bytes. -/
def recalled (p : Prompt) (a len : Nat) (s : Editor) : Editor where
  buffer := s.buffer.refill (p.commandAt a)
  pos := (p.commandAt a).length
  curr := some a
  histIter := true
  printed := s.printed ++ clearLineBuffer len s.pos ++ p.commandAt a

/-- What is left of a recall behind its `strlen`. -/
theorem IsEntry.recall_rest (h : p.IsEntry a) (s : Editor) (len : Nat) :
    (do let buffer ← s.buffer.memset s.buffer.cap
        let node ← p.node a
        let buffer ← buffer.strcpy node.data.command.bytes
        return ({
          buffer := buffer
          pos := node.data.command.bytes.length
          curr := some a
          histIter := true
          printed := s.printed ++ clearLineBuffer len s.pos ++ node.data.command.bytes } :
            Editor)) =
      if (p.commandAt a).length < s.buffer.cap then .ok (p.recalled a len s)
      else .error .write := by
  obtain ⟨node, hcell, _⟩ := h.live
  have hcommand : p.commandAt a = node.data.command.bytes := by rw [commandAt, hcell]
  obtain ⟨b, hmemset, hstrcpy⟩ := s.buffer.memset_strcpy node.data.command.bytes
  rw [hmemset, node_of_live hcell, hcommand]
  simp only [Checked.ok_bind, hstrcpy]
  by_cases hlt : node.data.command.bytes.length < s.buffer.cap
  · rw [if_pos hlt, if_pos hlt, recalled, hcommand]
    rfl
  · rw [if_neg hlt, if_neg hlt]
    rfl

theorem IsEntry.recall_eq (h : p.IsEntry a) (s : Editor) :
    p.recallNode a s = (s.buffer.strlen >>= fun len =>
      if (p.commandAt a).length < s.buffer.cap then .ok (p.recalled a len s)
      else .error .write) :=
  congrArg (s.buffer.strlen >>= ·) (funext fun len => h.recall_rest s len)

/-- The command of an entry has no NUL. -/
theorem commandAt_noNul (p : Prompt) (a : Nat) : 0 ∉ p.commandAt a := by
  rw [commandAt]
  split
  · rename_i node _
    exact node.data.command.noNul
  · simp

/-- What Enter pushes. -/
def pushed (p : Prompt) (line : List UInt8) : Option (List UInt8) :=
  if line = [] then none
  else
    match p.nodes.head? with
    | none => some line
    | some x => if line = x.2.command.bytes then none else some line

/-- Enter with the cursor inside the buffer. -/
theorem enter_ok (p : Prompt) (h : s.pos < s.buffer.cap) :
    p.enter s = .ok ⟨upTo s.buffer s.pos, p.pushed (upTo s.buffer s.pos)⟩ := by
  rw [enter, Block.store_ok h, Checked.ok_bind, Block.text_eq (holdsText_upTo h),
    Checked.ok_bind, pushed]
  by_cases hempty : upTo s.buffer s.pos = []
  · simp [hempty]
  rw [if_pos (List.length_pos_iff.mpr hempty), if_neg hempty]
  have hcounted := p.counted
  cases hnodes : p.nodes with
  | nil =>
      rw [if_neg (by rw [hcounted.mpr hnodes]; exact Nat.lt_irrefl 0)]
      rfl
  | cons x rest =>
      have hpos : p.hist.count > 0 := by
        refine Nat.pos_of_ne_zero fun hzero => ?_
        rw [hcounted.mp hzero] at hnodes
        cases hnodes
      have hfirst : p.hist.first = some x.1 := by rw [p.first_eq, hnodes]; rfl
      obtain ⟨node, hcell⟩ := p.linked.chain.live (x := x) (by simp [hnodes])
      rw [if_pos hpos, hfirst, follow, Checked.ok_bind, node_of_live hcell]
      simp only [Checked.ok_bind, List.head?_cons]
      by_cases hsame : upTo s.buffer s.pos = x.2.command.bytes
      · rw [if_neg (by simp [hsame]), if_pos hsame]
        rfl
      · rw [if_pos hsame, if_neg hsame]
        rfl

theorem enter_error (p : Prompt) (h : s.buffer.cap ≤ s.pos) :
    p.enter s = .error .write := by
  rw [enter, Block.store_error h, Checked.error_bind]

/-- After the keys comes Enter. -/
theorem getLine_eq {fresh : Nat → UInt8} {keys : List Key}
    (h : runAll p.edit (.start fresh) keys = .ok s) : p.getLine fresh keys = p.enter s := by
  rw [getLine, h, Checked.ok_bind]

/-- There is no room for `prefix`. -/
theorem complete_error {text : List UInt8} (h : HoldsText s.buffer 0 text) :
    p.complete s = .error .write := by
  rw [complete, Block.text_eq h, Checked.ok_bind]
  show ((Block.alloc ((CString.afterLast 32 text).getD text).length p.stack).strcpy
    ((CString.afterLast 32 text).getD text) >>= _) = _
  rw [Block.strcpy_error (Nat.le_refl _), Checked.error_bind]

end Prompt

end WizardShell.Ports
