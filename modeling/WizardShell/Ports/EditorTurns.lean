import WizardShell.Ports.EditorKeys

/-!
# One turn of the loop

`Turns` lists the turns that go through: the key, what has to hold before it, and
the state after it.  In a state that is `Sound` these are all of them
(`edit_eq_ok_iff`), and sound states lead to sound ones (`Sound.turn`), so that
what a key does is a case analysis over `Turns` and no longer a look at the
code.
-/

namespace WizardShell.Ports

open WizardShell.Verified
open Editor Prompt

/-- The cursor is inside the buffer or at its end, and `hist->curr` is at an entry
while the history is browsed. -/
structure Sound (p : Prompt) (s : Editor) : Prop where
  room : 0 < s.buffer.cap
  inside : s.pos ≤ s.buffer.cap
  browses : p.Browses s

/-- The turns of the loop that go through: the key, what has to hold before it,
and the state after it. -/
inductive Turns (p : Prompt) (s : Editor) : Key → Editor → Prop where
  | char (c : Printable) (hroom : s.pos < s.buffer.cap) :
      Turns p s (.char c) (s.stored c.byte).growIfFull
  | blanks {t : Editor} (hblank : p.tabBlank s = .ok true)
      (hplace : placeBlanks 4 s = .ok t) : Turns p s .tab t
  | erase {text : List UInt8} (hpos : 0 < s.pos) (htext : HoldsText s.buffer 0 text) :
      Turns p s .backspace (s.erased text.length)
  | eraseNone (hpos : s.pos = 0) : Turns p s .backspace s
  | up {a : Nat} {text : List UInt8} (htarget : p.upTarget s = some a)
      (htext : HoldsText s.buffer 0 text)
      (hroom : (p.commandAt a).length < s.buffer.cap) :
      Turns p s .up (p.recalled a text.length s)
  | upNone (htarget : p.upTarget s = none) : Turns p s .up s
  | down {a : Nat} {text : List UInt8} (htarget : p.downTarget s = some a)
      (htext : HoldsText s.buffer 0 text)
      (hroom : (p.commandAt a).length < s.buffer.cap) :
      Turns p s .down (p.recalled a text.length s)
  | downNewest (hiter : s.histIter = true) (htarget : p.downTarget s = none)
      (htext : HoldsText s.buffer 0 []) : Turns p s .down s
  | downNone (hiter : s.histIter = false) : Turns p s .down s
  | right {text : List UInt8} (htext : HoldsText s.buffer 0 text)
      (hlt : s.pos < text.length) :
      Turns p s .right
        { s with pos := s.pos + 1, printed := s.printed ++ [s.buffer.cell s.pos] }
  | rightNone {text : List UInt8} (htext : HoldsText s.buffer 0 text)
      (hle : text.length ≤ s.pos) : Turns p s .right s
  | left (hpos : 0 < s.pos) :
      Turns p s .left { s with pos := s.pos - 1, printed := s.printed ++ [8] }
  | leftNone (hpos : s.pos = 0) : Turns p s .left s

section Turn

variable {p : Prompt} {s t : Editor} {a : Nat}

theorem histIter_of_downTarget (h : p.downTarget s = some a) : s.histIter = true := by
  by_contra hiter
  rw [downTarget, if_neg hiter] at h
  cases h

theorem Prompt.IsEntry.recall_eq_ok (h : p.IsEntry a) :
    p.recallNode a s = .ok t ↔ ∃ text, HoldsText s.buffer 0 text ∧
      (p.commandAt a).length < s.buffer.cap ∧ t = p.recalled a text.length s := by
  rw [h.recall_eq, Block.strlen_bind_eq_ok]
  refine exists_congr fun text => and_congr_right fun _ => ?_
  by_cases hroom : (p.commandAt a).length < s.buffer.cap
  · simp [hroom, eq_comm]
  · simp [hroom]

/-- The `memset` of Down at the newest command is longer than the buffer. -/
theorem clearNewest_eq (hroom : 0 < s.buffer.cap) :
    clearNewest s =
      (s.buffer.strlen >>= fun len => if len > 0 then .error .write else .ok s) := by
  have hover : s.buffer.cap < s.buffer.cap * sizeofPointer := by
    rw [sizeofPointer]
    omega
  rw [clearNewest, Block.memset_error hover]
  rfl

theorem clearNewest_eq_ok (hroom : 0 < s.buffer.cap) :
    clearNewest s = .ok t ↔ HoldsText s.buffer 0 [] ∧ t = s := by
  rw [clearNewest_eq hroom, Block.strlen_bind_eq_ok]
  constructor
  · rintro ⟨text, htext, h⟩
    split at h
    · cases h
    · rename_i hlen
      cases h
      have hnil : text = [] := List.length_eq_zero_iff.mp (by omega)
      exact ⟨hnil ▸ htext, rfl⟩
  · rintro ⟨htext, rfl⟩
    exact ⟨[], htext, rfl⟩

theorem right_eq (s : Editor) :
    right s = (s.buffer.strlen >>= fun len =>
      if s.pos < len then
        s.buffer.load s.pos >>= fun c =>
          .ok { s with pos := s.pos + 1, printed := s.printed ++ [c] }
      else .ok s) := rfl

theorem right_eq_ok :
    right s = .ok t ↔ ∃ text, HoldsText s.buffer 0 text ∧
      t = if s.pos < text.length then
          { s with pos := s.pos + 1, printed := s.printed ++ [s.buffer.cell s.pos] }
        else s := by
  rw [right_eq, Block.strlen_bind_eq_ok]
  refine exists_congr fun text => and_congr_right fun htext => ?_
  by_cases hlt : s.pos < text.length
  · have hinside : s.pos < s.buffer.cap := by
      have hend := htext.inside
      omega
    simp only [if_pos hlt, Block.load_ok hinside, Checked.ok_bind, Except.ok.injEq]
    exact eq_comm
  · simp only [if_neg hlt, Except.ok.injEq]
    exact eq_comm

/-- Tab goes through with blanks only. -/
theorem tab_eq_ok :
    p.tab s = .ok t ↔ p.tabBlank s = .ok true ∧ placeBlanks 4 s = .ok t := by
  rw [Prompt.tab]
  cases hblank : p.tabBlank s with
  | error e => simp
  | ok blank =>
      cases blank with
      | true => simp
      | false =>
          rw [Checked.ok_bind, if_neg Bool.false_ne_true]
          refine iff_of_false (fun h => ?_) (by simp)
          rcases s.buffer.text_cases with ⟨text, htext, _⟩ | ⟨_, herror⟩
          · rw [complete_error htext] at h
            cases h
          · rw [complete, herror] at h
            cases h

theorem turn_char (c : Printable) :
    p.edit s (.char c) = .ok t ↔ Turns p s (.char c) t := by
  rw [edit]
  by_cases hroom : s.pos < s.buffer.cap
  · rw [putChar_ok hroom]
    constructor
    · rintro ⟨⟩
      exact .char c hroom
    · rintro ⟨⟩
      rfl
  · rw [putChar_error (Nat.le_of_not_lt hroom)]
    apply iff_of_false (by simp)
    rintro ⟨⟩
    contradiction

theorem turn_tab : p.edit s .tab = .ok t ↔ Turns p s .tab t := by
  rw [edit, tab_eq_ok]
  constructor
  · rintro ⟨hblank, hplace⟩
    exact .blanks hblank hplace
  · rintro ⟨⟩
    exact ⟨‹_›, ‹_›⟩

theorem turn_backspace (hsound : Sound p s) :
    p.edit s .backspace = .ok t ↔ Turns p s .backspace t := by
  rw [edit]
  by_cases hpos : 0 < s.pos
  · rw [backspace_eq hpos hsound.inside, Block.strlen_bind_eq_ok]
    constructor
    · rintro ⟨text, htext, ⟨⟩⟩
      exact .erase hpos htext
    · intro h
      cases h with
      | erase _ htext => exact ⟨_, htext, rfl⟩
      | eraseNone hzero => omega
  · have hzero : s.pos = 0 := by omega
    have hgrow : s.growIfFull = s := growIfFull_of_lt (by rw [hzero]; exact hsound.room)
    rw [backspace_zero hpos, hgrow]
    constructor
    · rintro ⟨⟩
      exact .eraseNone hzero
    · intro h
      cases h with
      | erase hpos' _ => exact absurd hpos' hpos
      | eraseNone _ => rfl

theorem turns_up_of_none (htarget : p.upTarget s = none) :
    Turns p s .up t ↔ t = s := by
  constructor
  · intro h
    cases h with
    | up htarget' _ _ =>
        rw [htarget] at htarget'
        cases htarget'
    | upNone _ => rfl
  · rintro rfl
    exact .upNone htarget

theorem turns_up_of_some (htarget : p.upTarget s = some a) :
    Turns p s .up t ↔ ∃ text, HoldsText s.buffer 0 text ∧
      (p.commandAt a).length < s.buffer.cap ∧ t = p.recalled a text.length s := by
  constructor
  · intro h
    cases h with
    | up htarget' htext hroom =>
        rw [htarget] at htarget'
        cases htarget'
        exact ⟨_, htext, hroom, rfl⟩
    | upNone htarget' =>
        rw [htarget] at htarget'
        cases htarget'
  · rintro ⟨text, htext, hroom, rfl⟩
    exact .up htarget htext hroom

theorem turn_up (hsound : Sound p s) : p.edit s .up = .ok t ↔ Turns p s .up t := by
  rw [edit, hsound.browses.up_eq]
  cases htarget : p.upTarget s with
  | none =>
      rw [turns_up_of_none htarget, Except.ok.injEq]
      exact eq_comm
  | some a =>
      rw [turns_up_of_some htarget]
      exact (hsound.browses.isEntry_up htarget).recall_eq_ok

theorem turns_down_of_not (hiter : s.histIter = false) : Turns p s .down t ↔ t = s := by
  constructor
  · intro h
    cases h with
    | down htarget _ _ =>
        rw [histIter_of_downTarget htarget] at hiter
        cases hiter
    | downNewest _ _ _ => rfl
    | downNone _ => rfl
  · rintro rfl
    exact .downNone hiter

theorem turns_down_of_newest (hiter : s.histIter = true) (htarget : p.downTarget s = none) :
    Turns p s .down t ↔ HoldsText s.buffer 0 [] ∧ t = s := by
  constructor
  · intro h
    cases h with
    | down htarget' _ _ =>
        rw [htarget] at htarget'
        cases htarget'
    | downNewest _ _ htext => exact ⟨htext, rfl⟩
    | downNone hiter' =>
        rw [hiter] at hiter'
        cases hiter'
  · rintro ⟨htext, rfl⟩
    exact .downNewest hiter htarget htext

theorem turns_down_of_some (htarget : p.downTarget s = some a) :
    Turns p s .down t ↔ ∃ text, HoldsText s.buffer 0 text ∧
      (p.commandAt a).length < s.buffer.cap ∧ t = p.recalled a text.length s := by
  constructor
  · intro h
    cases h with
    | down htarget' htext hroom =>
        rw [htarget] at htarget'
        cases htarget'
        exact ⟨_, htext, hroom, rfl⟩
    | downNewest _ htarget' _ =>
        rw [htarget] at htarget'
        cases htarget'
    | downNone hiter =>
        rw [histIter_of_downTarget htarget] at hiter
        cases hiter
  · rintro ⟨text, htext, hroom, rfl⟩
    exact .down htarget htext hroom

theorem turn_down (hsound : Sound p s) : p.edit s .down = .ok t ↔ Turns p s .down t := by
  rw [edit, hsound.browses.down_eq]
  cases hiter : s.histIter with
  | false =>
      rw [turns_down_of_not hiter, if_neg Bool.false_ne_true, Except.ok.injEq]
      exact eq_comm
  | true =>
      rw [if_pos rfl]
      cases htarget : p.downTarget s with
      | none =>
          rw [turns_down_of_newest hiter htarget]
          exact clearNewest_eq_ok hsound.room
      | some a =>
          rw [turns_down_of_some htarget]
          exact (hsound.browses.isEntry_down htarget).recall_eq_ok

theorem turn_right : p.edit s .right = .ok t ↔ Turns p s .right t := by
  rw [edit, right_eq_ok]
  constructor
  · rintro ⟨text, htext, rfl⟩
    by_cases hlt : s.pos < text.length
    · rw [if_pos hlt]
      exact .right htext hlt
    · rw [if_neg hlt]
      exact .rightNone htext (Nat.le_of_not_lt hlt)
  · intro h
    cases h with
    | right htext hlt => exact ⟨_, htext, (if_pos hlt).symm⟩
    | rightNone htext hle => exact ⟨_, htext, (if_neg (Nat.not_lt.mpr hle)).symm⟩

theorem turn_left : p.edit s .left = .ok t ↔ Turns p s .left t := by
  rw [edit, Editor.left]
  by_cases hpos : 0 < s.pos
  · rw [if_pos hpos]
    constructor
    · rintro ⟨⟩
      exact .left hpos
    · intro h
      cases h with
      | left _ => rfl
      | leftNone hzero => omega
  · rw [if_neg hpos]
    constructor
    · rintro ⟨⟩
      exact .leftNone (by omega)
    · intro h
      cases h with
      | left hpos' => exact absurd hpos' hpos
      | leftNone _ => rfl

/-- **The turns that go through, and what they do.** -/
theorem edit_eq_ok_iff (hsound : Sound p s) (k : Key) :
    p.edit s k = .ok t ↔ Turns p s k t := by
  cases k with
  | char c => exact turn_char c
  | tab => exact turn_tab
  | backspace => exact turn_backspace hsound
  | up => exact turn_up hsound
  | down => exact turn_down hsound
  | right => exact turn_right
  | left => exact turn_left

theorem room_of_placeBlanks {n : Nat} (hinside : s.pos ≤ s.buffer.cap)
    (h : placeBlanks n s = .ok t) : s.pos + n ≤ s.buffer.cap := by
  by_contra hover
  rw [placeBlanks_error n hinside (Nat.lt_of_not_le hover)] at h
  cases h

theorem Sound.recalled (h : Sound p s) (hentry : p.IsEntry a) (len : Nat)
    (hroom : (p.commandAt a).length < s.buffer.cap) : Sound p (p.recalled a len s) where
  room := h.room
  inside := Nat.le_of_lt hroom
  browses _ := ⟨a, rfl, hentry⟩

/-- The loop keeps the cursor inside and the history under it. -/
theorem Sound.turn {k : Key} (h : Sound p s) (hturn : Turns p s k t) : Sound p t := by
  cases hturn with
  | char c hroom =>
      have hle : (s.stored c.byte).pos ≤ (s.stored c.byte).buffer.cap := hroom
      refine ⟨?_, ?_, ?_⟩
      · exact Nat.lt_of_lt_of_le h.room (cap_le_grow (s.stored c.byte))
      · rw [pos_grow]
        exact Nat.le_trans hle (cap_le_grow _)
      · rw [Browses, histIter_grow, curr_grow]
        exact h.browses
  | blanks _ hplace =>
      have hroom := room_of_placeBlanks h.inside hplace
      obtain ⟨t', ht', hpos, hcap, hcurr, hiter⟩ := placeBlanks_ok 4 hroom
      cases hplace.symm.trans ht'
      refine ⟨?_, ?_, ?_⟩
      · rw [hcap]
        exact h.room
      · rw [hpos, hcap]
        exact hroom
      · rw [Browses, hiter, hcurr]
        exact h.browses
  | erase hpos _ => exact ⟨h.room, Nat.le_trans (Nat.sub_le _ _) h.inside, h.browses⟩
  | eraseNone _ => exact h
  | up htarget _ hroom => exact h.recalled (h.browses.isEntry_up htarget) _ hroom
  | upNone _ => exact h
  | down htarget _ hroom => exact h.recalled (h.browses.isEntry_down htarget) _ hroom
  | downNewest _ _ _ => exact h
  | downNone _ => exact h
  | right htext hlt =>
      have hend := htext.inside
      refine ⟨h.room, ?_, h.browses⟩
      show s.pos + 1 ≤ s.buffer.cap
      omega
  | rightNone _ _ => exact h
  | left _ => exact ⟨h.room, Nat.le_trans (Nat.sub_le _ _) h.inside, h.browses⟩
  | leftNone _ => exact h

theorem sound_start (p : Prompt) (fresh : Nat → UInt8) : Sound p (.start fresh) where
  room := by
    show 0 < rlBfs
    decide
  inside := Nat.zero_le _
  browses h := by cases h

/-- Every state the loop reaches is sound. -/
theorem Sound.edit {k : Key} (h : Sound p s) (hedit : p.edit s k = .ok t) : Sound p t :=
  h.turn ((edit_eq_ok_iff h k).mp hedit)

end Turn

end WizardShell.Ports
