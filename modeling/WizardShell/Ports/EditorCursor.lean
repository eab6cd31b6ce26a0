import WizardShell.Ports.EditorTurns

/-!
# The cursor and the text

In memory that holds zeros the bytes in front of the cursor belong to the text,
and some NUL ends it (`Tidy`).  The text may reach past the cursor: Left moves
back over it, and what a byte stored in the middle is followed by comes back.

Enter puts its NUL at the cursor, so the line is the text in front of the cursor
and not the text (`upTo_eq_take`).  Moving the cursor before Enter therefore
keeps the line only when the cursor comes back to where it was
(`sameLine_iff`).
-/

namespace WizardShell.Ports

open WizardShell.Verified
open Editor Prompt

/-- Every byte in front of the cursor is one of the text, and zeros follow. -/
structure Tidy (s : Editor) : Prop where
  inside : s.pos < s.buffer.cap
  typed : ∀ j, j < s.pos → s.buffer.cell j ≠ 0
  zeros : ∃ used, used < s.buffer.cap ∧ ∀ j, used ≤ j → s.buffer.cell j = 0

section Text

variable {p : Prompt} {s t : Editor} {text : List UInt8} {k : Key}

/-- Behind every place in the buffer some text stands. -/
theorem Tidy.exists_text_from (h : Tidy s) {i : Nat} (hi : i < s.buffer.cap) :
    ∃ text, HoldsText s.buffer i text := by
  obtain ⟨used, hused, hzeros⟩ := h.zeros
  by_cases hle : i ≤ used
  · exact exists_holdsText_of_nul hle hused (hzeros used (Nat.le_refl _))
  · exact exists_holdsText_of_nul (Nat.le_refl i) hi (hzeros i (by omega))

theorem Tidy.exists_text (h : Tidy s) : ∃ text, HoldsText s.buffer 0 text :=
  h.exists_text_from (by have hinside := h.inside; omega)

/-- The cursor is in the text or at its end. -/
theorem Tidy.pos_le (h : Tidy s) (htext : HoldsText s.buffer 0 text) :
    s.pos ≤ text.length := by
  by_contra hlt
  have hnul := htext.nul
  rw [Nat.zero_add] at hnul
  exact h.typed text.length (by omega) hnul

/-- A NUL put into a text cuts it. -/
theorem upTo_eq_take {b : Block UInt8} (htext : HoldsText b 0 text) {i : Nat}
    (hi : i ≤ text.length) : upTo b i = text.take i := by
  have hinside := htext.inside
  have hlen : (text.take i).length = i := List.length_take_of_le hi
  refine holdsText_unique (holdsText_upTo (by omega)) (.of_cells ?_ ?_ fun j hj => ?_)
  · exact fun hmem => htext.noNul (List.mem_of_mem_take hmem)
  · rw [hlen, Block.set_cap]
    omega
  · rw [hlen] at hj
    rw [Nat.zero_add]
    by_cases hlt : j < i
    · have hcell := htext.cell (j := j) (by omega)
      rw [Nat.zero_add] at hcell
      rw [Block.set_cell_ne _ _ (Nat.ne_of_lt hlt), hcell,
        List.getD_eq_getElem?_getD, List.getD_eq_getElem?_getD, List.getElem?_take_of_lt hlt]
    · have hend : j = i := by omega
      rw [hend, Block.set_cell_self, List.getD_eq_default _ _ (Nat.le_of_eq hlen)]

/-- A byte of the text, stored at the cursor. -/
theorem Tidy.stored (h : Tidy s) {c : UInt8} (hc : c ≠ 0) : Tidy (s.stored c).growIfFull := by
  obtain ⟨used, hused, hzeros⟩ := h.zeros
  have hinside : s.pos + 1 < (s.stored c).growIfFull.buffer.cap :=
    pos_lt_grow (s := s.stored c) h.inside
  have hcap : s.buffer.cap ≤ (s.stored c).growIfFull.buffer.cap := cap_le_grow (s.stored c)
  have hcell : (s.stored c).growIfFull.buffer.cell = (s.buffer.set s.pos c).cell := cell_grow _
  refine ⟨by rw [pos_grow]; exact hinside, fun j hj => ?_, ?_⟩
  · rw [pos_grow] at hj
    rw [hcell]
    by_cases hself : j = s.pos
    · rw [hself, Block.set_cell_self]
      exact hc
    · rw [Block.set_cell_ne _ _ hself]
      have hlt : j < s.pos + 1 := hj
      exact h.typed j (by omega)
  · by_cases hlow : used ≤ s.pos
    · refine ⟨s.pos + 1, hinside, fun j hj => ?_⟩
      rw [hcell, Block.set_cell_ne _ _ (by omega)]
      exact hzeros j (by omega)
    · refine ⟨used, by omega, fun j hj => ?_⟩
      rw [hcell, Block.set_cell_ne _ _ (by omega)]
      exact hzeros j hj

theorem Tidy.erased (h : Tidy s) (len : Nat) : Tidy (s.erased len) := by
  obtain ⟨used, hused, hzeros⟩ := h.zeros
  refine ⟨Nat.lt_of_le_of_lt (Nat.sub_le _ _) h.inside, fun j hj => ?_, used, hused,
    fun j hj => ?_⟩
  · have hlt : j < s.pos - 1 := hj
    show (s.buffer.set (s.pos - 1) 0).cell j ≠ 0
    rw [Block.set_cell_ne _ _ (Nat.ne_of_lt hlt)]
    exact h.typed j (by omega)
  · show (s.buffer.set (s.pos - 1) 0).cell j = 0
    by_cases hself : j = s.pos - 1
    · rw [hself, Block.set_cell_self]
    · rw [Block.set_cell_ne _ _ hself]
      exact hzeros j hj

theorem Tidy.recalled (h : Tidy s) {a : Nat} (len : Nat)
    (hroom : (p.commandAt a).length < s.buffer.cap) : Tidy (p.recalled a len s) := by
  obtain ⟨used, hused, hzeros⟩ := h.zeros
  refine ⟨hroom, fun j hj => ?_, _, hroom, fun j hj => ?_⟩
  · have hlt : j < (p.commandAt a).length := hj
    show (s.buffer.refill (p.commandAt a)).cell j ≠ 0
    rw [Block.refill_cell_of_lt (by omega), List.getD_eq_getElem _ _ hlt]
    intro hzero
    exact p.commandAt_noNul a (hzero ▸ List.getElem_mem hlt)
  · show (s.buffer.refill (p.commandAt a)).cell j = 0
    by_cases hin : j < s.buffer.cap
    · rw [Block.refill_cell_of_lt hin, List.getD_eq_default _ _ hj]
    · rw [Block.refill_cell_of_ge (Nat.le_of_not_lt hin)]
      exact hzeros j (by omega)

/-- Every key but Tab keeps the line tidy. -/
theorem Tidy.turn (h : Tidy s) (hkey : k ≠ .tab) (hturn : Turns p s k t) : Tidy t := by
  cases hturn with
  | char c _ => exact h.stored c.ne_zero
  | blanks _ _ => exact absurd rfl hkey
  | erase _ _ => exact h.erased _
  | eraseNone _ => exact h
  | up _ _ hroom => exact h.recalled _ hroom
  | upNone _ => exact h
  | down _ _ hroom => exact h.recalled _ hroom
  | downNewest _ _ _ => exact h
  | downNone _ => exact h
  | right htext hlt =>
      refine ⟨?_, fun j hj => ?_, h.zeros⟩
      · have hend := htext.inside
        show s.pos + 1 < s.buffer.cap
        omega
      · have hle : j < s.pos + 1 := hj
        have hcell := htext.cell (j := j) (by omega)
        rw [Nat.zero_add, List.getD_eq_getElem _ _ (by omega)] at hcell
        show s.buffer.cell j ≠ 0
        rw [hcell]
        intro hzero
        exact htext.noNul (hzero ▸ List.getElem_mem _)
  | rightNone _ _ => exact h
  | left _ =>
      refine ⟨Nat.lt_of_le_of_lt (Nat.sub_le _ _) h.inside, fun j hj => ?_, h.zeros⟩
      have hlt : j < s.pos - 1 := hj
      exact h.typed j (by omega)
  | leftNone _ => exact h

theorem tidy_start : Tidy (.start fun _ => 0) where
  inside := by
    show 0 < rlBfs
    decide
  typed j hj := absurd hj (Nat.not_lt_zero j)
  zeros := ⟨0, by show 0 < rlBfs; decide, fun _ _ => rfl⟩

end Text

/-! ## Moving the cursor -/

/-- The keys that edit a line without history and completions. -/
def Key.edits : Key → Bool
  | .char _ => true
  | .backspace => true
  | .left => true
  | .right => true
  | .tab => false
  | .up => false
  | .down => false

/-- A key that moves the cursor. -/
inductive Move where
  | left
  | right

def Move.key : Move → Key
  | .left => .left
  | .right => .right

/-- Where the cursor goes in a text of `len` bytes. -/
def Move.shift (len pos : Nat) : Move → Nat
  | .left => pos - 1
  | .right => if pos < len then pos + 1 else pos

/-- The two runs, with the moves before Enter and without them, both return, and
return the same line. -/
def SameLine (p : Prompt) (keys : List Key) (moves : List Move) : Prop :=
  ∃ e e', p.getLine (fun _ => 0) keys = .ok e ∧
    p.getLine (fun _ => 0) (keys ++ moves.map Move.key) = .ok e' ∧ e.line = e'.line

section Moves

variable {p : Prompt} {s : Editor} {text : List UInt8}

/-- An editing key goes through on a tidy line. -/
theorem Tidy.edit_ok (h : Tidy s) {k : Key} (hkey : k.edits = true) :
    ∃ t, p.edit s k = .ok t ∧ Turns p s k t := by
  have hinside := h.inside
  obtain ⟨text, htext⟩ := h.exists_text
  cases k with
  | char c => exact ⟨_, putChar_ok hinside c.byte, .char c hinside⟩
  | backspace =>
      by_cases hpos : 0 < s.pos
      · refine ⟨s.erased text.length, ?_, .erase hpos htext⟩
        rw [edit, backspace_eq hpos (Nat.le_of_lt hinside), Block.strlen_eq htext,
          Checked.ok_bind]
      · refine ⟨s, ?_, .eraseNone (by omega)⟩
        rw [edit, backspace_zero hpos, growIfFull_of_lt hinside]
  | left =>
      obtain ⟨t, ht⟩ : ∃ t, p.edit s .left = .ok t := by
        rw [edit, Editor.left]
        split <;> exact ⟨_, rfl⟩
      exact ⟨t, ht, turn_left.mp ht⟩
  | right => exact ⟨_, right_eq_ok.mpr ⟨text, htext, rfl⟩,
      turn_right.mp (right_eq_ok.mpr ⟨text, htext, rfl⟩)⟩
  | tab => cases hkey
  | up => cases hkey
  | down => cases hkey

theorem Key.ne_tab {k : Key} (h : k.edits = true) : k ≠ .tab := by
  rintro rfl
  cases h

/-- Editing keys lead from one tidy line to another. -/
theorem Tidy.runAll_ok {keys : List Key} (hkeys : ∀ k ∈ keys, k.edits = true)
    (h : Tidy s) : ∃ t, runAll p.edit s keys = .ok t ∧ Tidy t := by
  induction keys generalizing s with
  | nil => exact ⟨s, rfl, h⟩
  | cons k keys ih =>
      have hkey := hkeys k (by simp)
      obtain ⟨t, ht, hturn⟩ := h.edit_ok (p := p) hkey
      obtain ⟨u, hu, htidy⟩ :=
        ih (fun k hk => hkeys k (by simp [hk])) (h.turn (Key.ne_tab hkey) hturn)
      exact ⟨u, by rw [runAll_cons_ok ht, hu], htidy⟩

/-- A move changes the cursor and nothing else of the line. -/
theorem edit_move (htext : HoldsText s.buffer 0 text) (m : Move) :
    ∃ t, p.edit s m.key = .ok t ∧ t.buffer = s.buffer ∧
      t.pos = m.shift text.length s.pos := by
  cases m with
  | left =>
      by_cases hpos : 0 < s.pos
      · exact ⟨_, if_pos hpos, rfl, rfl⟩
      · refine ⟨s, if_neg hpos, rfl, ?_⟩
        show s.pos = s.pos - 1
        omega
  | right =>
      refine ⟨_, right_eq_ok.mpr ⟨text, htext, rfl⟩, ?_, ?_⟩
      · split <;> rfl
      · show _ = if s.pos < text.length then s.pos + 1 else s.pos
        split <;> rfl

/-- Moves change the cursor and nothing else of the line. -/
theorem runAll_moves (htext : HoldsText s.buffer 0 text) (moves : List Move) :
    ∃ t, runAll p.edit s (moves.map Move.key) = .ok t ∧ t.buffer = s.buffer ∧
      t.pos = moves.foldl (Move.shift text.length) s.pos := by
  induction moves generalizing s with
  | nil => exact ⟨s, rfl, rfl, rfl⟩
  | cons m moves ih =>
      obtain ⟨t, ht, hbuffer, hpos⟩ := edit_move (p := p) htext m
      obtain ⟨u, hu, hbuffer', hpos'⟩ := ih (hbuffer.symm ▸ htext)
      refine ⟨u, ?_, hbuffer'.trans hbuffer, ?_⟩
      · rw [List.map_cons, runAll_cons_ok ht, hu]
      · rw [List.foldl_cons, hpos', hpos]

/-- The cursor stays in the text. -/
theorem shift_le {len : Nat} (moves : List Move) {pos : Nat} (h : pos ≤ len) :
    moves.foldl (Move.shift len) pos ≤ len := by
  induction moves generalizing pos with
  | nil => exact h
  | cons m moves ih =>
      apply ih
      cases m with
      | left => exact Nat.le_trans (Nat.sub_le _ _) h
      | right =>
          show (if pos < len then pos + 1 else pos) ≤ len
          split <;> omega

/-- The line that Enter returns is the text in front of the cursor. -/
theorem enter_line (p : Prompt) (htext : HoldsText s.buffer 0 text)
    (hpos : s.pos ≤ text.length) :
    ∃ e, p.enter s = .ok e ∧ e.line = text.take s.pos := by
  have hinside := htext.inside
  exact ⟨_, enter_ok p (by omega), upTo_eq_take htext hpos⟩

end Moves

/-- `ab`, one move to the left, and Enter: the line is `a`. -/
theorem not_sameLine_ab : ¬ SameLine .bare [.char letterA, .char letterB] [.left] := by
  rintro ⟨e, e', he, he', hsame⟩
  cases he
  cases he'
  revert hsame
  decide

/-- **When moving the cursor keeps the line**: exactly when the moves bring it back
to where it was, for every history, every keys that edit the line and every
moves before Enter. -/
theorem sameLine_iff (p : Prompt) (keys : List Key) (moves : List Move)
    (hkeys : ∀ k ∈ keys, k.edits = true) :
    SameLine p keys moves ↔
      ∃ s text, runAll p.edit (.start fun _ => 0) keys = .ok s ∧
        HoldsText s.buffer 0 text ∧ moves.foldl (Move.shift text.length) s.pos = s.pos := by
  obtain ⟨s, hs, htidy⟩ := tidy_start.runAll_ok (p := p) hkeys
  obtain ⟨text, htext⟩ := htidy.exists_text
  have hpos := htidy.pos_le htext
  obtain ⟨t, ht, hbuffer, hshift⟩ := runAll_moves (p := p) htext moves
  have hshift_le := shift_le moves hpos
  have hrun : runAll p.edit (.start fun _ => 0) (keys ++ moves.map Move.key) = .ok t := by
    rw [runAll_append_ok hs, ht]
  obtain ⟨e, he, hline⟩ := enter_line p htext hpos
  obtain ⟨e', he', hline'⟩ :=
    enter_line p (s := t) (hbuffer.symm ▸ htext) (by rw [hshift]; exact hshift_le)
  rw [hshift] at hline'
  constructor
  · rintro ⟨d, d', hd, hd', hsame⟩
    rw [getLine_eq hs, he] at hd
    rw [getLine_eq hrun, he'] at hd'
    cases hd
    cases hd'
    refine ⟨s, text, hs, htext, ?_⟩
    have hlen := congrArg List.length hsame
    rw [hline, hline', List.length_take_of_le hpos, List.length_take_of_le hshift_le] at hlen
    exact hlen.symm
  · rintro ⟨u, text', hu, htext', hback⟩
    cases hs.symm.trans hu
    rw [holdsText_unique htext' htext] at hback
    refine ⟨e, e', by rw [getLine_eq hs, he], by rw [getLine_eq hrun, he'], ?_⟩
    rw [hline, hline', hback]

/-- `a`, and a move there and back. -/
theorem sameLine_iff_a :
    (∀ k ∈ [Key.char letterA], k.edits = true) ∧
      SameLine .bare [.char letterA] [.left, .right] := by
  refine ⟨by decide, ?_⟩
  apply (sameLine_iff .bare [.char letterA] [.left, .right] (by decide)).mpr
  refine ⟨_, [97], rfl, HoldsText.cons_iff.mpr ⟨rfl, by decide, ?_⟩, rfl⟩
  exact HoldsText.nil_iff.mpr ⟨by decide, rfl⟩

end WizardShell.Ports
