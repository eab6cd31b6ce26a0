import WizardShell.Ports.EditorOverrun

/-!
# Where the line editor writes

Only printable keys come to the check that grows the buffer with something
written.  Tab places its four blanks and goes on without it, and a command is
recalled into a buffer of whatever size there is; the `prefix` that Tab
declares has no cell for the NUL, and Down at the newest command clears as many
pointers as the buffer has bytes.  Right follows a `strlen` that ran off the buffer
past its end, where the next key writes.

`staysInside_iff`: nothing is written outside exactly when every key finds the
room it needs, and Enter finds room for the NUL, whatever stands behind the buffer.
-/

namespace WizardShell.Ports

open WizardShell.Verified
open Editor Prompt

/-- `get_line` writes no byte outside its buffers. -/
def StaysInside (p : Prompt) (fresh : Nat → UInt8) (presses : List Press) : Prop :=
  Overrun.getLine p fresh presses ≠ .error .write

/-- What a key needs in order to write inside the buffers: a printable key a cell;
Tab that it finds nothing to complete, and four cells; Backspace a cell in front of
the cursor; Up and Down that the command they recall is shorter than the buffer; Down
at the newest command an empty line.  Where no NUL ends the line, not even behind the
buffer, nothing is written. -/
def Press.Fits (x : Press) (p : Prompt) (s : Editor) : Prop :=
  match x.key with
  | .char _ => s.pos < s.buffer.cap
  | .tab => ∀ blank, Overrun.tabBlank p x.behind s = .ok blank →
      blank = true ∧ s.pos + 4 ≤ s.buffer.cap
  | .up => ∀ a text, p.upTarget s = some a → HoldsText (s.buffer.before x.behind) 0 text →
      (p.commandAt a).length < s.buffer.cap
  | .down => s.histIter = true → ∀ text, HoldsText (s.buffer.before x.behind) 0 text →
      match p.downTarget s with
      | some a => (p.commandAt a).length < s.buffer.cap
      | none => text = []
  | .backspace => 0 < s.pos → ∀ text, HoldsText (s.buffer.before x.behind) 0 text →
      s.pos ≤ s.buffer.cap
  | .right => True
  | .left => True

/-- What a key needs with nothing behind the buffer. -/
def Fits (p : Prompt) (s : Editor) : Key → Prop
  | .char _ => s.pos < s.buffer.cap
  | .tab => ∀ blank, p.tabBlank s = .ok blank → blank = true ∧ s.pos + 4 ≤ s.buffer.cap
  | .up => ∀ a text, p.upTarget s = some a → HoldsText s.buffer 0 text →
      (p.commandAt a).length < s.buffer.cap
  | .down => s.histIter = true → ∀ text, HoldsText s.buffer 0 text →
      match p.downTarget s with
      | some a => (p.commandAt a).length < s.buffer.cap
      | none => text = []
  | .backspace => True
  | .right => True
  | .left => True

section Keys

variable {p : Prompt} {s t : Editor} {a : Nat} {x : Press} {behind : List UInt8}

/-! ## What a key writes -/

theorem char_ne_write_iff (c : Printable) :
    putChar c.byte s ≠ .error .write ↔ s.pos < s.buffer.cap := by
  by_cases hroom : s.pos < s.buffer.cap
  · rw [putChar_ok hroom]
    simp [hroom]
  · rw [putChar_error (Nat.le_of_not_lt hroom)]
    simp [hroom]

theorem tab_ne_write_iff :
    Overrun.tab p behind s ≠ .error .write ↔
      ∀ blank, Overrun.tabBlank p behind s = .ok blank →
        blank = true ∧ s.pos + 4 ≤ s.buffer.cap := by
  rw [Overrun.tab]
  rcases Overrun.tabBlank_cases p behind s with htrue | ⟨hfalse, text, htext⟩ | herror
  · rw [htrue, Checked.ok_bind, if_pos rfl, Overrun.placeBlanks_ne_write_iff]
    simp
  · rw [hfalse, Checked.ok_bind, if_neg Bool.false_ne_true, Overrun.complete_error htext]
    simp
  · rw [herror]
    simp

theorem backspace_ne_write_iff :
    Overrun.backspace behind s ≠ .error .write ↔
      (0 < s.pos → ∀ text, HoldsText (s.buffer.before behind) 0 text →
        s.pos ≤ s.buffer.cap) := by
  by_cases hpos : 0 < s.pos
  · rw [Overrun.backspace_eq hpos, Ne, Block.strlen_bind_eq_write]
    push Not
    simp only [hpos, forall_const]
    refine forall_congr' fun text => imp_congr_right fun _ => ?_
    by_cases hinside : s.pos ≤ s.buffer.cap
    · rw [if_pos hinside]
      rcases ((s.buffer.set (s.pos - 1) 0).before behind).text_cases with
        ⟨text', _, hread⟩ | ⟨_, hread⟩ <;>
      · rw [hread]
        simp [hinside]
    · simp [hinside]
  · rw [Overrun.backspace, if_neg hpos]
    simp [hpos]

theorem right_ne_write : Overrun.right behind s ≠ .error .write := by
  rw [Overrun.right, Ne, Block.strlen_bind_eq_write]
  rintro ⟨text, htext, h⟩
  split at h
  · rename_i hlt
    have hinside : s.pos < (s.buffer.before behind).cap := by
      have hend := htext.inside
      omega
    rw [Block.load_ok hinside] at h
    cases h
  · cases h

theorem left_ne_write : Editor.left s ≠ .error .write := by
  rw [Editor.left]
  split <;> simp

/-- A command is recalled inside the buffer when it is shorter than that. -/
theorem recall_ne_write_iff (hentry : p.IsEntry a) :
    Overrun.recallNode p behind a s ≠ .error .write ↔
      ∀ text, HoldsText (s.buffer.before behind) 0 text →
        (p.commandAt a).length < s.buffer.cap := by
  rw [Overrun.recall_eq hentry, Ne, Block.strlen_bind_eq_write]
  push Not
  refine forall_congr' fun text => imp_congr_right fun _ => ?_
  by_cases hroom : (p.commandAt a).length < s.buffer.cap
  · simp [hroom]
  · simp [hroom]

theorem up_ne_write_iff (hbrowses : p.Browses s) :
    Overrun.up p behind s ≠ .error .write ↔
      ∀ a text, p.upTarget s = some a → HoldsText (s.buffer.before behind) 0 text →
        (p.commandAt a).length < s.buffer.cap := by
  rw [Overrun.up_eq hbrowses]
  cases htarget : p.upTarget s with
  | none => simp
  | some a =>
      simp only [recall_ne_write_iff (hbrowses.isEntry_up htarget), Option.some.injEq]
      constructor
      · rintro h _ text rfl
        exact h text
      · intro h text
        exact h a text rfl

/-- Down at the newest command writes outside the buffer, unless the line is
empty. -/
theorem clearNewest_ne_write_iff (hroom : 0 < s.buffer.cap) :
    Overrun.clearNewest behind s ≠ .error .write ↔
      ∀ text, HoldsText (s.buffer.before behind) 0 text → text = [] := by
  rw [Overrun.clearNewest_eq hroom, Ne, Block.strlen_bind_eq_write]
  push Not
  refine forall_congr' fun text => imp_congr_right fun _ => ?_
  cases text <;> simp

theorem down_ne_write_iff (hroom : 0 < s.buffer.cap) (hbrowses : p.Browses s) :
    Overrun.down p behind s ≠ .error .write ↔
      (s.histIter = true → ∀ text, HoldsText (s.buffer.before behind) 0 text →
        match p.downTarget s with
        | some a => (p.commandAt a).length < s.buffer.cap
        | none => text = []) := by
  rw [Overrun.down_eq hbrowses]
  cases hiter : s.histIter with
  | false => simp
  | true =>
      cases htarget : p.downTarget s with
      | none => simp [clearNewest_ne_write_iff hroom]
      | some a => simp [recall_ne_write_iff (hbrowses.isEntry_down htarget)]

/-- **When a key writes inside the buffers**, whatever stands behind them. -/
theorem press_ne_write_iff (hsound : Overrun.Sound p s) (x : Press) :
    Overrun.edit p s x ≠ .error .write ↔ x.Fits p s := by
  obtain ⟨k, behind⟩ := x
  cases k with
  | char c => exact char_ne_write_iff c
  | tab => exact tab_ne_write_iff
  | backspace => exact backspace_ne_write_iff
  | up => exact up_ne_write_iff hsound.browses
  | down => exact down_ne_write_iff hsound.room hsound.browses
  | right => exact iff_of_true right_ne_write trivial
  | left => exact iff_of_true left_ne_write trivial

/-! ## With nothing behind the buffer -/

theorem byteBefore_ok (hsound : Sound p s) : ∃ c, p.byteBefore s = .ok c := by
  rw [byteBefore]
  cases hpos : s.pos with
  | zero => exact ⟨p.front, rfl⟩
  | succ i =>
      have hinside := hsound.inside
      exact ⟨s.buffer.cell i, Block.load_ok (by omega)⟩

/-- Tab only looks: it finds blanks, or a text, or no end of the line. -/
theorem tabBlank_cases (p : Prompt) (s : Editor) :
    p.tabBlank s = .ok true ∨
      (p.tabBlank s = .ok false ∧ ∃ text, HoldsText s.buffer 0 text) ∨
      p.tabBlank s = .error .read := by
  have hcases := Overrun.tabBlank_cases p [] s
  rwa [Overrun.tabBlank_nil, Block.before_nil] at hcases

theorem fits_iff (hsound : Sound p s) (k : Key) :
    Press.Fits ⟨k, []⟩ p s ↔ Fits p s k := by
  cases k with
  | char c => exact Iff.rfl
  | tab => simp only [Press.Fits, Fits, Overrun.tabBlank_nil]
  | backspace => exact iff_of_true (fun _ _ _ => hsound.inside) trivial
  | up => simp only [Press.Fits, Fits, Block.before_nil]
  | down => simp only [Press.Fits, Fits, Block.before_nil]
  | right => exact Iff.rfl
  | left => exact Iff.rfl

/-- **When a key writes inside the buffers**, with nothing behind them. -/
theorem edit_ne_write_iff (hsound : Sound p s) (k : Key) :
    p.edit s k ≠ .error .write ↔ Fits p s k := by
  rw [← Overrun.edit_nil, press_ne_write_iff ⟨hsound.room, hsound.browses⟩, fits_iff hsound]

/-! ## Runs -/

/-- There stays a buffer, and an entry under `hist->curr`. -/
theorem Overrun.Sound.edit (hsound : Overrun.Sound p s) (hedit : Overrun.edit p s x = .ok t) :
    Overrun.Sound p t := by
  obtain ⟨k, behind⟩ := x
  have hfits := (press_ne_write_iff hsound ⟨k, behind⟩).mp (by rw [hedit]; simp)
  have hrecalled : ∀ {a}, p.IsEntry a → Overrun.recallNode p behind a s = .ok t →
      Overrun.Sound p t := by
    intro a hentry h
    rw [Overrun.recall_eq hentry, Block.strlen_bind_eq_ok] at h
    obtain ⟨text, _, h⟩ := h
    split at h
    · cases h
      exact ⟨hsound.room, fun _ => ⟨a, rfl, hentry⟩⟩
    · cases h
  cases k with
  | char c =>
      have h : putChar c.byte s = .ok t := hedit
      rw [putChar_ok hfits] at h
      cases h
      refine ⟨Nat.lt_of_lt_of_le hsound.room (cap_le_grow (s.stored c.byte)), ?_⟩
      rw [Browses, histIter_grow, curr_grow]
      exact hsound.browses
  | tab =>
      have h : Overrun.tab p behind s = .ok t := hedit
      obtain ⟨blank, hblank, hplace⟩ := Checked.bind_eq_ok.mp h
      obtain ⟨rfl, hroom⟩ := hfits blank hblank
      obtain ⟨t', ht', _, hcap, hcurr, hiter⟩ := placeBlanks_ok 4 hroom
      cases ht'.symm.trans hplace
      refine ⟨by rw [hcap]; exact hsound.room, ?_⟩
      rw [Browses, hiter, hcurr]
      exact hsound.browses
  | backspace =>
      have h : Overrun.backspace behind s = .ok t := hedit
      by_cases hpos : 0 < s.pos
      · rw [Overrun.backspace_eq hpos, Block.strlen_bind_eq_ok] at h
        obtain ⟨text, _, h⟩ := h
        split at h
        · obtain ⟨text', _, h⟩ := Checked.bind_eq_ok.mp h
          cases h
          exact ⟨hsound.room, hsound.browses⟩
        · cases h
      · rw [Overrun.backspace, if_neg hpos] at h
        cases h
        refine ⟨Nat.lt_of_lt_of_le hsound.room (cap_le_grow s), ?_⟩
        rw [Browses, histIter_grow, curr_grow]
        exact hsound.browses
  | up =>
      have h : Overrun.up p behind s = .ok t := hedit
      rw [Overrun.up_eq hsound.browses] at h
      cases htarget : p.upTarget s with
      | none =>
          rw [htarget] at h
          cases h
          exact hsound
      | some a =>
          rw [htarget] at h
          exact hrecalled (hsound.browses.isEntry_up htarget) h
  | down =>
      have h : Overrun.down p behind s = .ok t := hedit
      rw [Overrun.down_eq hsound.browses] at h
      split at h
      · cases htarget : p.downTarget s with
        | none =>
            rw [htarget] at h
            obtain ⟨text, _, h⟩ := Block.strlen_bind_eq_ok.mp
              ((Overrun.clearNewest_eq hsound.room behind).symm.trans h)
            split at h
            · cases h
            · cases h
              exact hsound
        | some a =>
            rw [htarget] at h
            exact hrecalled (hsound.browses.isEntry_down htarget) h
      · cases h
        exact hsound
  | right =>
      have h : Overrun.right behind s = .ok t := hedit
      obtain ⟨text, _, h⟩ := Block.strlen_bind_eq_ok.mp h
      split at h
      · obtain ⟨c, _, h⟩ := Checked.bind_eq_ok.mp h
        cases h
        exact ⟨hsound.room, hsound.browses⟩
      · cases h
        exact hsound
  | left =>
      have h : Editor.left s = .ok t := hedit
      rw [Editor.left] at h
      split at h
      · cases h
        exact ⟨hsound.room, hsound.browses⟩
      · cases h
        exact hsound

end Keys

/-- The word `a` does not fit into the `prefix` that Tab declares for it. -/
theorem not_staysInside_tab :
    ¬ StaysInside .bare (fun _ => 0) [⟨.char letterA, []⟩, ⟨.tab, []⟩] := by
  intro hinside
  exact hinside rfl

/-- **When the line editor stays inside its buffers**, for every history, every
trie, whatever the memory in and behind the buffer holds, and every sequence of
keys. -/
theorem staysInside_iff (p : Prompt) (fresh : Nat → UInt8) (presses : List Press) :
    StaysInside p fresh presses ↔
      EveryInput (Overrun.edit p) (.start fresh) presses (fun s x => x.Fits p s) ∧
        ∀ s, runAll (Overrun.edit p) (.start fresh) presses = .ok s →
          s.pos < s.buffer.cap := by
  have hstart : Overrun.Sound p (.start fresh) :=
    ⟨(sound_start p fresh).room, (sound_start p fresh).browses⟩
  have hrun : runAll (Overrun.edit p) (.start fresh) presses ≠ .error .write ↔
      EveryInput (Overrun.edit p) (.start fresh) presses fun s x => x.Fits p s :=
    runAll_ne_error_iff (Overrun.Sound p) (fun _ _ _ hsound hedit => hsound.edit hedit)
      (fun _ x hsound => press_ne_write_iff hsound x) hstart
  rw [← hrun, StaysInside, Overrun.getLine]
  cases h : runAll (Overrun.edit p) (.start fresh) presses with
  | error e => simp
  | ok s =>
      rw [Checked.ok_bind]
      by_cases hroom : s.pos < s.buffer.cap
      · rw [enter_ok p hroom]
        simp [hroom]
      · rw [enter_error p (Nat.le_of_not_lt hroom)]
        simp [hroom]

end WizardShell.Ports
