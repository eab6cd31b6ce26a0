import WizardShell.Ports.EditorQuiet

/-!
# Walking through the history

Up and Down are meant as a clamped walk over the commands, newest first, from a place in
front of the newest one; typing changes the line and not the place (`Walk`).  `get_line`
keeps the place in `hist_iter` and `hist->curr`, and leaves it in front of the newest
command only when there is a line to clear.

`walksAlong_iff`: the two stay in step, line and place, exactly when Down is never pressed
at the newest command with nothing left of it.  `walksHistory_of`: the line in front of
the cursor is then that of the walk after every key.
-/

namespace WizardShell.Ports

open WizardShell.Verified
open Editor Prompt

/-- The walk: the place, if any, and the line. -/
structure Walk where
  place : Option Nat
  line : List UInt8

namespace Walk

/-- At a fresh prompt. -/
def start : Walk := ⟨none, []⟩

/-- The place behind this one. -/
def next : Option Nat → Nat
  | none => 0
  | some i => i + 1

/-- One key, over these commands. -/
def press (entries : List (List UInt8)) (w : Walk) : WalkKey → Walk
  | .typing k => { w with line := k.apply w.line }
  | .up =>
      match entries[next w.place]? with
      | some entry => ⟨some (next w.place), entry⟩
      | none => w
  | .down =>
      match w.place with
      | none => w
      | some 0 => ⟨none, []⟩
      | some (i + 1) => ⟨some i, entries.getD i []⟩

/-- The walk after the keys. -/
def after (entries : List (List UInt8)) (keys : List WalkKey) : Walk :=
  keys.foldl (press entries) start

/-- The newest command was recalled, and nothing is left of the line. -/
def Emptied (w : Walk) : Prop := w.place = some 0 ∧ w.line = []

instance (w : Walk) : Decidable w.Emptied := inferInstanceAs (Decidable (_ ∧ _))

theorem after_snoc (entries : List (List UInt8)) (keys : List WalkKey) (k : WalkKey) :
    after entries (keys ++ [k]) = (after entries keys).press entries k := by
  rw [after, List.foldl_append]
  rfl

end Walk

open Walk

/-- The commands of the history, newest first. -/
def Prompt.commands (p : Prompt) : List (List UInt8) :=
  p.nodes.map fun x => x.2.command.bytes

/-- The text in front of the cursor. -/
def Editor.before (s : Editor) : List UInt8 := (List.range s.pos).map s.buffer.cell

/-- After each of the keys the text in front of the cursor is the line of the walk. -/
def WalksHistory (p : Prompt) (fresh : Nat → UInt8) (keys : List WalkKey) : Prop :=
  ∀ pre post, keys = pre ++ post →
    ∃ s, runAll p.walkQuiet (.start fresh) pre = .ok s ∧
      s.before = (after p.commands pre).line

/-- The lines of the walk are shorter than 1024 bytes. -/
def LinesShort (p : Prompt) (keys : List WalkKey) : Prop :=
  ∀ pre post, keys = pre ++ post → (after p.commands pre).line.length < rlBfs

/-- Down never finds the newest command recalled and erased. -/
def NoneEmptied (p : Prompt) (keys : List WalkKey) : Prop :=
  ∀ pre post, keys = pre ++ .down :: post → ¬ (after p.commands pre).Emptied

/-- The place, as `get_line` has it. -/
def Prompt.AtPlace (p : Prompt) (s : Editor) : Option Nat → Prop
  | none => s.histIter = false
  | some i => s.histIter = true ∧ ∃ x, p.nodes[i]? = some x ∧ s.curr = some x.1

/-- The editor stands where the walk does.  While the history is browsed, zeros follow
the line. -/
structure InStep (p : Prompt) (s : Editor) (w : Walk) : Prop where
  line : HoldsLine s w.line
  cap : rlBfs ≤ s.buffer.cap
  place : p.AtPlace s w.place
  ended : s.histIter = true → ∀ j, s.pos ≤ j → j < s.buffer.cap → s.buffer.cell j = 0

/-- After each of the keys the editor stands where the walk does. -/
def WalksAlong (p : Prompt) (fresh : Nat → UInt8) (keys : List WalkKey) : Prop :=
  ∀ pre post, keys = pre ++ post →
    ∃ s, runAll p.walkQuiet (.start fresh) pre = .ok s ∧ InStep p s (after p.commands pre)

/-! ## The nodes of the history -/

section Nodes

variable {p : Prompt} {x : Nat × HistEntry CString} {i : Nat}

theorem Prompt.nodes_split (hx : p.nodes[i]? = some x) :
    p.nodes = p.nodes.take i ++ x :: p.nodes.drop (i + 1) := by
  obtain ⟨hi, hget⟩ := List.getElem?_eq_some_iff.mp hx
  rw [← hget, List.getElem_cons_drop, List.take_append_drop]

/-- A node is live, and `next` is the node behind it. -/
theorem Prompt.node_at (hx : p.nodes[i]? = some x) :
    p.hist.heap.cell x.1 = some ⟨x.2, (p.nodes[i + 1]?).map Prod.fst⟩ := by
  have hchain := p.linked.chain
  rw [nodes_split hx] at hchain
  obtain ⟨_, _, _, next, hcell, hrest⟩ := Segment.append_iff.mp hchain
  rw [hcell, hrest.start_eq, List.head?_drop]

/-- `prev` is the node in front of it. -/
theorem Prompt.prev_at (hx : p.nodes[i]? = some x) :
    x.2.prev = if i = 0 then none else (p.nodes[i - 1]?).map Prod.fst := by
  obtain ⟨hi, _⟩ := List.getElem?_eq_some_iff.mp hx
  have hback := p.linked.back
  rw [nodes_split hx] at hback
  rw [prevLinked_append hback, Option.or_none, List.getLast?_take]
  by_cases hzero : i = 0
  · rw [if_pos hzero, if_pos hzero]
    rfl
  · rw [if_neg hzero, if_neg hzero,
      List.getElem?_eq_getElem (by omega : i - 1 < p.nodes.length)]
    rfl

theorem Prompt.commands_get (p : Prompt) (i : Nat) :
    p.commands[i]? = (p.nodes[i]?).map fun x => x.2.command.bytes := List.getElem?_map

/-- The command of a node replaces the line. -/
theorem Prompt.recallQuiet_ok {s : Editor} (hx : p.nodes[i]? = some x)
    (hroom : x.2.command.bytes.length < s.buffer.cap) :
    p.recallQuiet x.1 s = .ok { s with
      buffer := s.buffer.refill x.2.command.bytes
      pos := x.2.command.bytes.length
      curr := some x.1
      histIter := true } := by
  obtain ⟨b, hmemset, hstrcpy⟩ := s.buffer.memset_strcpy x.2.command.bytes
  rw [if_pos hroom] at hstrcpy
  rw [recallQuiet, hmemset, Checked.ok_bind, node_of_live (node_at hx), Checked.ok_bind]
  simp only [hstrcpy, Checked.ok_bind]
  rfl

end Nodes

/-! ## One key -/

section Step

variable {p : Prompt} {s : Editor} {w : Walk} {x : Nat × HistEntry CString} {i : Nat}

theorem inStep_start (p : Prompt) (fresh : Nat → UInt8) : InStep p (.start fresh) .start where
  line := holdsLine_start fresh
  cap := Nat.le_refl _
  place := rfl
  ended h := by cases h

/-- The place is kept by what leaves `hist_iter` and `hist->curr` alone. -/
theorem Prompt.AtPlace.congr {t : Editor} {place : Option Nat} (h : p.AtPlace s place)
    (hiter : t.histIter = s.histIter) (hcurr : t.curr = s.curr) : p.AtPlace t place := by
  cases place with
  | none => exact hiter.trans h
  | some i =>
      obtain ⟨hbrowsed, x, hx, hat⟩ := h
      exact ⟨hiter.trans hbrowsed, x, hx, hcurr.trans hat⟩

/-- While the history is browsed, the line is all of the text. -/
theorem InStep.text (h : InStep p s w) (hiter : s.histIter = true) :
    HoldsText s.buffer 0 w.line := by
  have hend : 0 + w.line.length = s.pos := by rw [Nat.zero_add, h.line.pos]
  refine ⟨h.line.bytes, ?_, ?_⟩
  · rw [hend]
    exact h.line.room
  · rw [hend]
    exact h.ended hiter s.pos (Nat.le_refl _) h.line.room

theorem InStep.typing (h : InStep p s w) (k : TypingKey)
    (hshort : (k.apply w.line).length < rlBfs) :
    ∃ t, s.typeQuiet k = .ok t ∧ InStep p t { w with line := k.apply w.line } := by
  have hpos := h.line.pos
  have hcap := h.cap
  cases k with
  | char c =>
      rw [TypingKey.apply, List.length_append, List.length_singleton] at hshort
      have hroom : s.pos + 1 < s.buffer.cap := by omega
      have hline := h.line.push c.notNul
      rw [growIfFull_of_lt hroom] at hline
      refine ⟨{ s with buffer := s.buffer.set s.pos c.byte, pos := s.pos + 1 }, ?_,
        hline, hcap, h.place.congr rfl rfl, fun hiter j hlow hhigh => ?_⟩
      · rw [typeQuiet, putCharQuiet_ok h.line.room, growIfFull_of_lt hroom]
      · rw [Block.set_cell_ne _ _ (Nat.ne_of_gt hlow)]
        exact h.ended hiter j (Nat.le_of_succ_le hlow) hhigh
  | backspace =>
      by_cases hzero : 0 < s.pos
      · refine ⟨_, backspaceQuiet_ok hzero h.line.room, h.line.pop, hcap,
          h.place.congr rfl rfl, fun hiter j hlow hhigh => ?_⟩
        by_cases hself : j = s.pos - 1
        · rw [hself, Block.set_cell_self]
        · rw [Block.set_cell_ne _ _ hself]
          have hnext : s.pos - 1 ≤ j := hlow
          exact h.ended hiter j (by omega) hhigh
      · have hnil : w.line = [] := List.length_eq_zero_iff.mp (by omega)
        refine ⟨s, backspaceQuiet_zero hzero h.line.room, ?_, hcap, h.place, h.ended⟩
        have hline := h.line
        rw [hnil] at hline
        rw [hnil]
        exact hline

/-- A command that was recalled. -/
theorem InStep.recall (h : InStep p s w) (hx : p.nodes[i]? = some x)
    (hshort : x.2.command.bytes.length < rlBfs) :
    ∃ t, p.recallQuiet x.1 s = .ok t ∧ InStep p t ⟨some i, x.2.command.bytes⟩ := by
  have hroom : x.2.command.bytes.length < s.buffer.cap := Nat.lt_of_lt_of_le hshort h.cap
  refine ⟨_, recallQuiet_ok hx hroom, ⟨?_, rfl, hroom⟩, h.cap, ⟨rfl, x, hx, rfl⟩, ?_⟩
  · exact (Block.holdsText_refill x.2.command.noNul hroom).bytes
  · intro _ j hlow hhigh
    have hcell : (s.buffer.refill x.2.command.bytes).cell j = x.2.command.bytes.getD j 0 :=
      Block.refill_cell_of_lt hhigh
    exact hcell.trans (List.getD_eq_default _ _ hlow)

theorem InStep.up_eq (h : InStep p s w) :
    p.upQuiet s =
      match p.nodes[next w.place]? with
      | some x => p.recallQuiet x.1 s
      | none => .ok s := by
  have hplace := h.place
  rw [upQuiet, p.first_eq, List.head?_eq_getElem?]
  cases hw : w.place with
  | none =>
      rw [hw] at hplace
      cases hfirst : p.nodes[0]? with
      | none => simp only [next, hfirst, Option.map_none]
      | some x =>
          simp only [next, hfirst, Option.map_some, show s.histIter = false from hplace,
            Bool.not_false, if_true]
  | some i =>
      rw [hw] at hplace
      obtain ⟨hiter, x, hx, hcurr⟩ := hplace
      obtain ⟨first, hfirst⟩ : ∃ first, p.nodes[0]? = some first :=
        Option.isSome_iff_exists.mp (by
          obtain ⟨hi, _⟩ := List.getElem?_eq_some_iff.mp hx
          rw [List.getElem?_eq_getElem (by omega)]
          rfl)
      cases hnext : p.nodes[i + 1]? <;>
        simp only [next, hfirst, hnext, Option.map_some, Option.map_none, hiter, hcurr, follow,
          node_of_live (node_at hx), Checked.ok_bind, Checked.pure_eq, Bool.not_true,
          Bool.false_eq_true, if_false]

theorem InStep.down_eq (h : InStep p s w) :
    p.downQuiet s =
      match w.place with
      | none => .ok s
      | some 0 => clearQuiet s
      | some (i + 1) =>
          match p.nodes[i]? with
          | some x => p.recallQuiet x.1 s
          | none => .ok s := by
  have hplace := h.place
  rw [downQuiet]
  cases hw : w.place with
  | none =>
      rw [hw] at hplace
      simp only [show s.histIter = false from hplace, Bool.not_false, Bool.true_or, if_true]
  | some i =>
      rw [hw] at hplace
      obtain ⟨hiter, x, hx, hcurr⟩ := hplace
      obtain ⟨hi, _⟩ := List.getElem?_eq_some_iff.mp hx
      have hfirst : p.hist.first.isNone = false := by
        rw [p.first_eq, List.head?_eq_getElem?, List.getElem?_eq_getElem (by omega)]
        rfl
      have hprev := prev_at hx
      simp only [hiter, hfirst, hcurr, follow, node_of_live (node_at hx), Checked.ok_bind,
        Bool.not_true, Bool.or_false, Bool.false_eq_true, if_false]
      cases i with
      | zero => simp only [hprev, if_true]
      | succ i =>
          obtain ⟨y, hy⟩ : ∃ y, p.nodes[i]? = some y :=
            ⟨_, List.getElem?_eq_getElem (by omega)⟩
          simp only [hprev, hy, Nat.succ_ne_zero, if_false, Nat.add_sub_cancel, Option.map_some]

/-- Down at the newest command, with something left of it. -/
theorem InStep.clear (h : InStep p s w) (hiter : s.histIter = true) (hline : w.line ≠ []) :
    ∃ t, clearQuiet s = .ok t ∧ InStep p t ⟨none, []⟩ := by
  have htext := h.text hiter
  refine ⟨{ s with buffer := s.buffer.refill [], pos := 0, histIter := false }, ?_,
    ⟨trivial, rfl, ?_⟩, h.cap, rfl, fun hfalse => by cases hfalse⟩
  · rw [clearQuiet, Block.strlen_eq htext, Checked.ok_bind,
      if_pos (List.length_pos_iff.mpr hline), Block.memset_all, Checked.ok_bind]
    rfl
  · show 0 < s.buffer.cap
    exact Nat.lt_of_le_of_lt (Nat.zero_le _) h.line.room

/-- **One key**: the editor goes with the walk, unless it is Down at the newest command
with nothing left of it. -/
theorem InStep.press (h : InStep p s w) (k : WalkKey)
    (hshort : (w.press p.commands k).line.length < rlBfs) (hdown : k = .down → ¬ w.Emptied) :
    ∃ t, p.walkQuiet s k = .ok t ∧ InStep p t (w.press p.commands k) := by
  cases k with
  | typing k => exact h.typing k hshort
  | up =>
      rw [Walk.press, p.commands_get] at hshort ⊢
      rw [walkQuiet, h.up_eq]
      cases hx : p.nodes[next w.place]? with
      | none => exact ⟨s, rfl, h⟩
      | some x =>
          rw [hx] at hshort
          exact h.recall hx hshort
  | down =>
      rw [walkQuiet, h.down_eq]
      rw [Walk.press] at hshort ⊢
      have hplace := h.place
      cases hw : w.place with
      | none => exact ⟨s, rfl, h⟩
      | some i =>
          rw [hw] at hplace hshort
          obtain ⟨hiter, x, hx, _⟩ := hplace
          cases i with
          | zero => exact h.clear hiter fun hnil => hdown rfl ⟨hw, hnil⟩
          | succ i =>
              obtain ⟨hi, _⟩ := List.getElem?_eq_some_iff.mp hx
              have hy : p.nodes[i]? = some p.nodes[i] := List.getElem?_eq_getElem (by omega)
              have hentry : p.commands.getD i [] = p.nodes[i].2.command.bytes := by
                rw [List.getD_eq_getElem?_getD, p.commands_get, hy]
                rfl
              simp only [hentry] at hshort ⊢
              rw [hy]
              exact h.recall hy hshort

end Step

/-! ## Whole runs -/

section Run

variable {p : Prompt} {fresh : Nat → UInt8} {keys : List WalkKey}

/-- As long as Down does not find the newest command erased, the editor keeps step. -/
theorem walksAlong_of (hshort : LinesShort p keys) (hnone : NoneEmptied p keys) :
    WalksAlong p fresh keys := by
  intro pre
  induction pre using List.reverseRecOn with
  | nil => exact fun _ _ => ⟨.start fresh, rfl, inStep_start p fresh⟩
  | append_singleton pre k ih =>
      intro post hkeys
      obtain ⟨s, hrun, hstep⟩ := ih (k :: post) (by rw [hkeys, List.append_assoc]; rfl)
      have hline := hshort (pre ++ [k]) post hkeys
      rw [after_snoc] at hline
      obtain ⟨t, hturn, ht⟩ := hstep.press k hline (by
        rintro rfl
        exact hnone pre post (by rw [hkeys, List.append_assoc]; rfl))
      refine ⟨t, ?_, by rw [after_snoc]; exact ht⟩
      rw [runAll_append_ok hrun, runAll_cons_ok hturn, runAll_nil]

/-- Down with nothing left of the newest command: the editor stays at it. -/
theorem InStep.down_emptied {s : Editor} {w : Walk} (h : InStep p s w) (hempty : w.Emptied) :
    p.walkQuiet s .down = .ok s ∧ ¬ InStep p s (w.press p.commands .down) := by
  obtain ⟨hw, hline⟩ := hempty
  have hplace := h.place
  rw [hw] at hplace
  have htext := h.text hplace.1
  rw [hline] at htext
  constructor
  · rw [walkQuiet, h.down_eq, hw]
    show clearQuiet s = _
    rw [clearQuiet, Block.strlen_eq htext, Checked.ok_bind]
    rfl
  · intro hnext
    have hfront := hnext.place
    rw [Walk.press, hw] at hfront
    exact Bool.false_ne_true (hfront.symm.trans hplace.1)

/-- **When the editor keeps step with the walk**: exactly when Down is never pressed at the
newest command with nothing left of it. -/
theorem walksAlong_iff (hshort : LinesShort p keys) :
    WalksAlong p fresh keys ↔ NoneEmptied p keys := by
  refine ⟨fun h pre post hkeys hempty => ?_, walksAlong_of hshort⟩
  obtain ⟨s, hrun, hs⟩ := h pre (.down :: post) hkeys
  obtain ⟨hturn, hnot⟩ := hs.down_emptied hempty
  obtain ⟨t, hrun', ht⟩ := h (pre ++ [.down]) post (by rw [hkeys, List.append_assoc]; rfl)
  rw [runAll_append_ok hrun, runAll_cons_ok hturn, runAll_nil] at hrun'
  cases hrun'
  rw [after_snoc] at ht
  exact hnot ht

theorem HoldsLine.before {s : Editor} {line : List UInt8} (h : HoldsLine s line) :
    s.before = line := by
  have hcells := (Spans.iff_cells.mp h.bytes).2
  refine List.ext_getElem? fun j => ?_
  rw [Editor.before, List.getElem?_map, h.pos]
  by_cases hj : j < line.length
  · have hcell := hcells j hj
    rw [Nat.zero_add] at hcell
    rw [List.getElem?_range hj, Option.map_some, hcell, List.getD_eq_getElem _ _ hj,
      List.getElem?_eq_getElem hj]
  · rw [List.getElem?_eq_none (by rw [List.length_range]; omega),
      List.getElem?_eq_none (by omega)]
    rfl

end Run

/-- A history with one command. -/
def Prompt.once (command : CString) : Prompt where
  hist := ⟨.alloc .empty ⟨⟨command, none⟩, none⟩, some 0, none, 1⟩
  nodes := [(0, ⟨command, none⟩)]
  linked := ⟨⟨rfl, none, rfl, rfl⟩, rfl, trivial⟩
  counted := by simp
  completions := tnGetNode
  front := 0
  stack _ := 0

/-- A printable byte is stored. -/
def Printable.typed (c : Printable) : Typed where
  byte := c.byte
  notNul := c.ne_zero
  notTab := c.ne_of_lt (by decide)
  notEnter := c.ne_of_lt (by decide)
  notEscape := c.ne_of_lt (by decide)
  notDel := c.notDel
  notEof := c.notEof

/-- `b` recalled, taken back, and Down: the next Down clears the `a` typed since. -/
def erasedNewest : List WalkKey :=
  [.up, .typing .backspace, .down, .typing (.char letterA.typed), .down]

theorem linesShort_of_inits {p : Prompt} {keys : List WalkKey}
    (h : ∀ pre ∈ keys.inits, (after p.commands pre).line.length < rlBfs) :
    LinesShort p keys := by
  rintro pre post rfl
  exact h pre ((List.mem_inits _ _).mpr (List.prefix_append pre post))

theorem noneEmptied_of_inits {p : Prompt} {keys : List WalkKey}
    (h : ∀ pre ∈ keys.inits, pre ++ [.down] ∈ keys.inits →
      ¬ (after p.commands pre).Emptied) :
    NoneEmptied p keys := by
  rintro pre post rfl
  refine h pre ((List.mem_inits _ _).mpr (List.prefix_append _ _)) ((List.mem_inits _ _).mpr ?_)
  exact ⟨post, by rw [List.append_assoc]; rfl⟩

theorem not_walksHistory_erased :
    (∀ entry ∈ (Prompt.once (.lit ['b'])).commands, entry ≠ []) ∧
      LinesShort (.once (.lit ['b'])) erasedNewest ∧
      ¬ WalksHistory (.once (.lit ['b'])) (fun _ => 0) erasedNewest := by
  refine ⟨by decide, linesShort_of_inits (by decide), fun h => ?_⟩
  obtain ⟨t, hrun, ht⟩ := h erasedNewest [] (List.append_nil _).symm
  -- The first Down changes nothing, so the keys do what they do without it.
  have hkeeps : WalksAlong (.once (.lit ['b'])) (fun _ => 0)
      [.up, .typing .backspace, .typing (.char letterA.typed), .down] :=
    walksAlong_of (linesShort_of_inits (by decide)) (noneEmptied_of_inits (by decide))
  obtain ⟨s, hpre, hs⟩ := hkeeps [.up, .typing .backspace] _ rfl
  obtain ⟨t', hrun', ht'⟩ := hkeeps _ [] (List.append_nil _).symm
  have hsplit : erasedNewest =
      [.up, .typing .backspace] ++ [.down, .typing (.char letterA.typed), .down] := rfl
  have hskip : runAll (Prompt.once (.lit ['b'])).walkQuiet (.start fun _ => 0) erasedNewest =
      runAll (Prompt.once (.lit ['b'])).walkQuiet s
        [.down, .typing (.char letterA.typed), .down] := by
    rw [hsplit, runAll_append_ok hpre]
  rw [runAll_cons_ok (hs.down_emptied ⟨rfl, rfl⟩).1, ← runAll_append_ok hpre] at hskip
  cases hrun.symm.trans (hskip.trans hrun')
  have hcode : t.before = [] := ht'.line.before
  have hline : (after (Prompt.once (.lit ['b'])).commands erasedNewest).line = [97] := by rfl
  rw [ht, hline] at hcode
  cases hcode

/-- **The line of the walk**: in every run in which Down is never pressed at the newest
command with nothing left of it, the text in front of the cursor is the line of the walk
after every key, whatever the memory held. -/
theorem walksHistory_of (p : Prompt) (fresh : Nat → UInt8) (keys : List WalkKey)
    (hshort : LinesShort p keys) (hnone : NoneEmptied p keys) : WalksHistory p fresh keys := by
  intro pre post hkeys
  obtain ⟨s, hrun, hstep⟩ := walksAlong_of hshort hnone pre post hkeys
  exact ⟨s, hrun, hstep.line.before⟩

/-- `b` recalled, and Down. -/
theorem walksHistory_of_once :
    LinesShort (.once (.lit ['b'])) [.up, .down] ∧
    NoneEmptied (.once (.lit ['b'])) [.up, .down] ∧
    WalksHistory (.once (.lit ['b'])) (fun _ => 0) [.up, .down] := by
  have hshort : LinesShort (.once (.lit ['b'])) [.up, .down] := linesShort_of_inits (by decide)
  have hnone : NoneEmptied (.once (.lit ['b'])) [.up, .down] :=
    noneEmptied_of_inits (by decide)
  exact ⟨hshort, hnone, walksHistory_of _ _ _ hshort hnone⟩

end WizardShell.Ports
