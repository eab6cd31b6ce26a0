import WizardShell.Ports.EditorCursor
import WizardShell.Verified.Screen

/-!
# What is shown and what is in the buffer

What `get_line` prints is sent to a line of a screen that was blank behind the
prompt.  Line and buffer are changed by different code in every branch; they
agree (`InSync`) as long as what is shown is the text in the buffer and the two
cursors are at the same place.

A byte stored over the NUL of the text joins to it whatever stood behind that
NUL, and none of this is printed.  `shownRight_iff`: apart from a `'\b'` in a
command and from Down at the newest command, which writes outside the buffer,
nothing else puts the two out of step.
-/

namespace WizardShell.Ports

open WizardShell.Verified
open Editor Prompt

/-- The line of the terminal behind the prompt. -/
def Editor.screen (s : Editor) : Screen := Screen.blank.write s.printed

/-- What is shown is the text in the buffer, with blanks behind it, and the column
of the cursor is `pos`. -/
def InSync (s : Editor) : Prop :=
  ∃ text, HoldsText s.buffer 0 text ∧ s.screen.Shows text ∧ s.screen.col = s.pos

/-- In memory that holds zeros the keys go through, and screen and buffer agree
before the first key and after each. -/
def ShownRight (p : Prompt) (keys : List Key) : Prop :=
  EveryState p.edit (.start fun _ => 0) keys InSync

/-- The commands are lines shorter than `RL_BFS`. -/
def Prompt.ShortLines (p : Prompt) : Prop :=
  ∀ x ∈ p.nodes, x.2.command.bytes.length < rlBfs

/-- What keeps screen and buffer in step: where a printable key goes to the end of
the text, there are only blanks up to the next NUL behind that end; no `'\b'` is
in a command that Up or Down recalls; and Down at the newest command finds an
empty line. -/
def KeepsStep (p : Prompt) (s : Editor) : Key → Prop
  | .char _ => ∀ text stale, HoldsText s.buffer 0 text → s.pos = text.length →
      HoldsText s.buffer (s.pos + 1) stale → ∀ b ∈ stale, b = 32
  | .up => ∀ a, p.upTarget s = some a → 8 ∉ p.commandAt a
  | .down => s.histIter = true →
      match p.downTarget s with
      | some a => 8 ∉ p.commandAt a
      | none => HoldsText s.buffer 0 []
  | .tab => True
  | .backspace => True
  | .right => True
  | .left => True

section Screens

variable {p : Prompt} {s t : Editor} {text stale : List UInt8} {c : UInt8}

theorem screen_append {bytes : List UInt8} (h : t.printed = s.printed ++ bytes) :
    t.screen = s.screen.write bytes := by
  rw [Editor.screen, h, Screen.write_append]
  rfl

/-- No cell shows a `'\b'`. -/
theorem screen_cell_ne_back (s : Editor) (i : Int) : s.screen.cell i ≠ 8 :=
  Screen.cell_ne_back (s := .blank) (fun _ => (by decide : (32 : UInt8) ≠ 8)) s.printed i

theorem inSync_iff (htext : HoldsText s.buffer 0 text) :
    InSync s ↔ s.screen.Shows text ∧ s.screen.col = s.pos := by
  constructor
  · rintro ⟨text', htext', h⟩
    rw [holdsText_unique htext htext']
    exact h
  · intro h
    exact ⟨text, htext, h⟩

/-- A text that is shown can be printed again. -/
theorem InSync.no_back (h : InSync s) (htext : HoldsText s.buffer 0 text) : 8 ∉ text :=
  ((inSync_iff htext).mp h).1.no_back (screen_cell_ne_back s)

/-- Clearing the line and printing another text. -/
theorem InSync.reprint (h : InSync s) (htext : HoldsText s.buffer 0 text)
    {shown : List UInt8} (h8 : 8 ∉ shown)
    (hprinted : t.printed = s.printed ++ clearLineBuffer text.length s.pos ++ shown) :
    t.screen.Shows shown ∧ t.screen.col = shown.length := by
  obtain ⟨hshows, hcol⟩ := (inSync_iff htext).mp h
  obtain ⟨hclear, hzero⟩ := hshows.clear hcol
  rw [List.append_assoc] at hprinted
  rw [screen_append hprinted, Screen.write_append]
  exact hclear.write hzero h8

theorem InSync.erased (h : InSync s) (htidy : Tidy s) (hpos : 0 < s.pos)
    (htext : HoldsText s.buffer 0 text) : InSync (s.erased text.length) := by
  have hinside := htidy.inside
  have hle := htidy.pos_le htext
  have htake := upTo_eq_take htext (i := s.pos - 1) (by omega)
  have h8 : 8 ∉ upTo s.buffer (s.pos - 1) := by
    rw [htake]
    exact fun hmem => h.no_back htext (List.mem_of_mem_take hmem)
  obtain ⟨hshows, hcol⟩ := h.reprint htext (t := s.erased text.length) h8 rfl
  refine ⟨_, holdsText_upTo (by omega), hshows, ?_⟩
  rw [hcol, htake, List.length_take_of_le (by omega)]
  rfl

/-- A command recalled is shown, unless printing it moves the cursor back. -/
theorem inSync_recalled_iff (h : InSync s) (htext : HoldsText s.buffer 0 text) {a : Nat}
    (hroom : (p.commandAt a).length < s.buffer.cap) :
    InSync (p.recalled a text.length s) ↔ 8 ∉ p.commandAt a := by
  have hcommand : HoldsText (p.recalled a text.length s).buffer 0 (p.commandAt a) :=
    Block.holdsText_refill (p.commandAt_noNul a) hroom
  constructor
  · intro hsync
    exact hsync.no_back hcommand
  · intro h8
    obtain ⟨hshows, hcol⟩ := h.reprint htext (t := p.recalled a text.length s) h8 rfl
    exact ⟨_, hcommand, hshows, hcol⟩

/-- Right prints the byte that is shown already. -/
theorem InSync.right (h : InSync s) (htext : HoldsText s.buffer 0 text)
    (hlt : s.pos < text.length) :
    InSync { s with pos := s.pos + 1, printed := s.printed ++ [s.buffer.cell s.pos] } := by
  obtain ⟨hshows, hcol⟩ := (inSync_iff htext).mp h
  have hcell : s.buffer.cell s.pos = text.getD s.pos 32 := by
    have hzero := htext.cell (j := s.pos) (by omega)
    rw [Nat.zero_add, List.getD_eq_getElem _ _ hlt] at hzero
    rw [hzero, List.getD_eq_getElem _ _ hlt]
  have h8 : s.buffer.cell s.pos ≠ 8 := by
    rw [hcell, ← hshows]
    exact screen_cell_ne_back s _
  have hscreen : Editor.screen
      { s with pos := s.pos + 1, printed := s.printed ++ [s.buffer.cell s.pos] } =
      s.screen.putchar (s.buffer.cell s.pos) := by
    rw [screen_append (s := s) rfl, Screen.write_cons, Screen.write_nil]
  refine ⟨text, htext, fun i => ?_, ?_⟩
  · rw [hscreen, hshows.putchar hcol h8]
    by_cases hself : i = s.pos
    · rw [if_pos hself, hcell, hself]
    · rw [if_neg hself]
  · rw [hscreen, Screen.putchar_col h8, hcol]
    exact Int.natCast_succ s.pos

theorem InSync.left (h : InSync s) (hpos : 0 < s.pos) :
    InSync { s with pos := s.pos - 1, printed := s.printed ++ [8] } := by
  obtain ⟨text, htext, hshows, hcol⟩ := h
  have hscreen : Editor.screen { s with pos := s.pos - 1, printed := s.printed ++ [8] } =
      { s.screen with col := s.screen.col - 1 } := by
    rw [screen_append (s := s) rfl, Screen.write_cons, Screen.write_nil, Screen.putchar_back]
  refine ⟨text, htext, ?_, ?_⟩
  · rw [hscreen]
    exact hshows
  · rw [hscreen]
    show s.screen.col - 1 = ((s.pos - 1 : Nat) : Int)
    omega

theorem screen_stored (s : Editor) (c : UInt8) :
    (s.stored c).growIfFull.screen = s.screen.putchar c := by
  have hprinted : (s.stored c).growIfFull.printed = s.printed ++ [c] := printed_grow _
  rw [screen_append hprinted, Screen.write_cons, Screen.write_nil]

theorem col_stored (h : s.screen.col = s.pos) (c : Printable) :
    (s.stored c.byte).growIfFull.screen.col = (s.stored c.byte).growIfFull.pos := by
  rw [screen_stored, Screen.putchar_col (c.ne_of_lt (by decide)), h, pos_grow]
  exact Int.natCast_succ s.pos

/-- A byte over one of the text. -/
theorem inSync_stored_of_lt (h : InSync s) (htext : HoldsText s.buffer 0 text)
    (hlt : s.pos < text.length) (c : Printable) : InSync (s.stored c.byte).growIfFull := by
  obtain ⟨hshows, hcol⟩ := (inSync_iff htext).mp h
  have hset : HoldsText (s.stored c.byte).buffer 0 (text.set s.pos c.byte) :=
    htext.set hlt c.ne_zero
  refine ⟨_, hset.mono (cap_le_grow _) fun j _ => by rw [cell_grow], ?_, col_stored hcol c⟩
  rw [screen_stored]
  exact hshows.set hcol (c.ne_of_lt (by decide)) hlt

/-- What stands behind the cursor is not touched by a byte stored there. -/
theorem holdsText_stored (c : UInt8) {i : Nat} (hi : s.pos < i)
    (h : HoldsText s.buffer i text) : HoldsText (s.stored c).growIfFull.buffer i text := by
  refine h.mono (cap_le_grow (s.stored c)) fun j hj => ?_
  rw [cell_grow]
  exact Block.set_cell_ne _ _ (by omega)

/-- A byte stored over the NUL joins the text to what stands behind it. -/
theorem holdsText_join (htext : HoldsText s.buffer 0 text) (hend : s.pos = text.length)
    (c : Printable)
    (hstale : HoldsText (s.stored c.byte).growIfFull.buffer (s.pos + 1) stale) :
    HoldsText (s.stored c.byte).growIfFull.buffer 0 (text ++ [c.byte] ++ stale) := by
  have hlen : 0 + (text ++ [c.byte]).length = s.pos + 1 := by simp [hend]
  refine HoldsText.glue ?_ (by rw [hlen]; exact hstale)
  refine Spans.append_iff.mpr ⟨htext.bytes.frame fun j _ hhigh => ?_, ?_, c.ne_zero, .nil⟩
  · rw [cell_grow]
    exact Block.set_cell_ne _ _ (by omega)
  · rw [cell_grow, Nat.zero_add, ← hend]
    exact Block.set_cell_self _ _ _

/-- What stands behind the cursor after a byte was stored stood there before, or the
buffer has just grown and nothing stands there. -/
theorem stale_of_stored (htidy : Tidy s) (c : UInt8)
    (hstale : HoldsText (s.stored c).growIfFull.buffer (s.pos + 1) stale) :
    HoldsText s.buffer (s.pos + 1) stale ∨ stale = [] := by
  by_cases hroom : s.pos + 1 < s.buffer.cap
  · obtain ⟨stale', hstale'⟩ := htidy.exists_text_from hroom
    rw [holdsText_unique hstale (holdsText_stored c (Nat.lt_succ_self _) hstale')]
    exact .inl hstale'
  · obtain ⟨used, hused, hzeros⟩ := htidy.zeros
    have hnil : HoldsText (s.stored c).growIfFull.buffer (s.pos + 1) [] := by
      refine HoldsText.nil_iff.mpr ⟨hstale.inside.trans_le' (Nat.le_add_right _ _), ?_⟩
      rw [cell_grow]
      show (s.buffer.set s.pos c).cell (s.pos + 1) = 0
      rw [Block.set_cell_ne _ _ (by omega)]
      exact hzeros _ (by omega)
    exact .inr (holdsText_unique hstale hnil)

/-- A byte at the end of the text. -/
theorem inSync_stored_of_eq (h : InSync s) (htidy : Tidy s)
    (htext : HoldsText s.buffer 0 text) (hend : s.pos = text.length) (c : Printable) :
    InSync (s.stored c.byte).growIfFull ↔
      ∀ stale, HoldsText s.buffer (s.pos + 1) stale → ∀ b ∈ stale, b = 32 := by
  obtain ⟨hshows, hcol⟩ := (inSync_iff htext).mp h
  have htidy' := htidy.stored c.ne_zero
  obtain ⟨stale, hstale⟩ := htidy'.exists_text_from htidy'.inside
  rw [pos_grow] at hstale
  have hshows' : (s.stored c.byte).growIfFull.screen.Shows (text ++ [c.byte]) := by
    rw [screen_stored]
    exact hshows.snoc (by rw [hcol, hend]) (c.ne_of_lt (by decide))
  rw [inSync_iff (holdsText_join htext hend c hstale), hshows'.append_iff,
    and_iff_left (col_stored hcol c)]
  constructor
  · intro hblank stale' hstale'
    rw [holdsText_unique (holdsText_stored c.byte (Nat.lt_succ_self _) hstale') hstale]
    exact hblank
  · intro hall
    rcases stale_of_stored htidy c.byte hstale with hold | rfl
    · exact hall stale hold
    · simp

end Screens

/-! ## Runs of keys -/

/-- What holds of every state on the way. -/
structure Shown (p : Prompt) (s : Editor) : Prop where
  sound : Sound p s
  tidy : Tidy s
  sync : InSync s
  room : rlBfs ≤ s.buffer.cap

section Runs

variable {p : Prompt} {s t : Editor} {k : Key} {a : Nat}

theorem Prompt.ShortLines.command (h : p.ShortLines) (hentry : p.IsEntry a) :
    (p.commandAt a).length < rlBfs := by
  obtain ⟨node, hcell, ⟨x, hx, hcommand⟩, _⟩ := hentry.live
  have heq : p.commandAt a = x.2.command.bytes := by rw [commandAt, hcell, ← hcommand]
  rw [heq]
  exact h x hx

theorem shown_start (p : Prompt) : Shown p (.start fun _ => 0) where
  sound := sound_start p _
  tidy := tidy_start
  sync := ⟨[], HoldsText.nil_iff.mpr ⟨by show 0 < rlBfs; decide, rfl⟩, .blank, rfl⟩
  room := Nat.le_refl _

/-- No turn makes the buffer smaller. -/
theorem cap_le_turn (hkey : k ≠ .tab) (hturn : Turns p s k t) :
    s.buffer.cap ≤ t.buffer.cap := by
  cases hturn with
  | char c _ => exact cap_le_grow (s.stored c.byte)
  | blanks _ _ => exact absurd rfl hkey
  | erase _ _ => exact Nat.le_refl _
  | eraseNone _ => exact Nat.le_refl _
  | up _ _ _ => exact Nat.le_refl _
  | upNone _ => exact Nat.le_refl _
  | down _ _ _ => exact Nat.le_refl _
  | downNewest _ _ _ => exact Nat.le_refl _
  | downNone _ => exact Nat.le_refl _
  | right _ _ => exact Nat.le_refl _
  | rightNone _ _ => exact Nat.le_refl _
  | left _ => exact Nat.le_refl _
  | leftNone _ => exact Nat.le_refl _

theorem Shown.edit (h : Shown p s) (hkey : k ≠ .tab) (hedit : p.edit s k = .ok t)
    (hsync : InSync t) : Shown p t := by
  have hturn := (edit_eq_ok_iff h.sound k).mp hedit
  exact ⟨h.sound.turn hturn, h.tidy.turn hkey hturn, hsync,
    Nat.le_trans h.room (cap_le_turn hkey hturn)⟩

/-- A turn after which screen and buffer agree. -/
theorem Shown.goes (h : Shown p s) (hturn : Turns p s k t) (hsync : InSync t) :
    ∃ t, p.edit s k = .ok t ∧ InSync t :=
  ⟨t, (edit_eq_ok_iff h.sound k).mpr hturn, hsync⟩

theorem Shown.char (h : Shown p s) (c : Printable) :
    (∃ t, p.edit s (.char c) = .ok t ∧ InSync t) ↔ KeepsStep p s (.char c) := by
  obtain ⟨text, htext, _⟩ := h.sync
  have honly : (∃ t, p.edit s (.char c) = .ok t ∧ InSync t) ↔
      InSync (s.stored c.byte).growIfFull := by
    rw [Prompt.edit, putChar_ok h.tidy.inside]
    simp
  rw [honly]
  rcases Nat.lt_or_eq_of_le (h.tidy.pos_le htext) with hlt | hend
  · refine iff_of_true (inSync_stored_of_lt h.sync htext hlt c) ?_
    intro text' stale htext' hend
    rw [holdsText_unique htext' htext] at hend
    omega
  · rw [inSync_stored_of_eq h.sync h.tidy htext hend]
    constructor
    · intro hblank _ stale _ _ hstale
      exact hblank stale hstale
    · intro hall stale hstale
      exact hall text stale htext hend hstale

/-- A turn that recalls a command. -/
theorem Shown.recallNode (h : Shown p s) (hshort : p.ShortLines) (hentry : p.IsEntry a) :
    (∃ t, p.recallNode a s = .ok t ∧ InSync t) ↔ 8 ∉ p.commandAt a := by
  obtain ⟨text, htext, _⟩ := h.sync
  have hroom : (p.commandAt a).length < s.buffer.cap :=
    Nat.lt_of_lt_of_le (hshort.command hentry) h.room
  rw [← inSync_recalled_iff h.sync htext hroom]
  constructor
  · rintro ⟨t, hrecall, hsync⟩
    obtain ⟨text', htext', _, rfl⟩ := hentry.recall_eq_ok.mp hrecall
    rw [holdsText_unique htext htext']
    exact hsync
  · intro hsync
    exact ⟨_, hentry.recall_eq_ok.mpr ⟨text, htext, hroom, rfl⟩, hsync⟩

theorem Shown.up (h : Shown p s) (hshort : p.ShortLines) :
    (∃ t, p.edit s .up = .ok t ∧ InSync t) ↔ KeepsStep p s .up := by
  rw [Prompt.edit, h.sound.browses.up_eq, KeepsStep]
  cases htarget : p.upTarget s with
  | none => exact iff_of_true ⟨s, rfl, h.sync⟩ (by simp)
  | some a =>
      rw [h.recallNode hshort (h.sound.browses.isEntry_up htarget)]
      simp

theorem Shown.down (h : Shown p s) (hshort : p.ShortLines) :
    (∃ t, p.edit s .down = .ok t ∧ InSync t) ↔ KeepsStep p s .down := by
  rw [Prompt.edit, h.sound.browses.down_eq, KeepsStep]
  cases hiter : s.histIter with
  | false => exact iff_of_true ⟨s, rfl, h.sync⟩ (by simp)
  | true =>
      rw [if_pos rfl, forall_prop_of_true rfl]
      cases htarget : p.downTarget s with
      | none =>
          constructor
          · rintro ⟨t, hclear, _⟩
            exact ((clearNewest_eq_ok h.sound.room).mp hclear).1
          · intro hempty
            exact ⟨s, (clearNewest_eq_ok h.sound.room).mpr ⟨hempty, rfl⟩, h.sync⟩
      | some a => exact h.recallNode hshort (h.sound.browses.isEntry_down htarget)

theorem Shown.backspace (h : Shown p s) : ∃ t, p.edit s .backspace = .ok t ∧ InSync t := by
  obtain ⟨text, htext, _⟩ := h.sync
  by_cases hpos : 0 < s.pos
  · exact h.goes (.erase hpos htext) (h.sync.erased h.tidy hpos htext)
  · exact h.goes (.eraseNone (by omega)) h.sync

theorem Shown.right (h : Shown p s) : ∃ t, p.edit s .right = .ok t ∧ InSync t := by
  obtain ⟨text, htext, _⟩ := h.sync
  by_cases hlt : s.pos < text.length
  · exact h.goes (.right htext hlt) (h.sync.right htext hlt)
  · exact h.goes (.rightNone htext (Nat.le_of_not_lt hlt)) h.sync

theorem Shown.left (h : Shown p s) : ∃ t, p.edit s .left = .ok t ∧ InSync t := by
  by_cases hpos : 0 < s.pos
  · exact h.goes (.left hpos) (h.sync.left hpos)
  · exact h.goes (.leftNone (by omega)) h.sync

/-- **When a key keeps screen and buffer in step.** -/
theorem Shown.keepsStep_iff (h : Shown p s) (hshort : p.ShortLines) (hkey : k ≠ .tab) :
    (∃ t, p.edit s k = .ok t ∧ InSync t) ↔ KeepsStep p s k := by
  cases k with
  | char c => exact h.char c
  | tab => exact absurd rfl hkey
  | backspace => exact iff_of_true h.backspace trivial
  | up => exact h.up hshort
  | down => exact h.down hshort
  | right => exact iff_of_true h.right trivial
  | left => exact iff_of_true h.left trivial

end Runs

/-- `ab`, Left over the `b`, Backspace over the `a` and another `a` in its place: the
`b` is in the text again and not on the screen. -/
theorem not_shownRight_stale :
    ¬ ShownRight .bare
      [.char letterA, .char letterB, .left, .backspace, .char letterA] := by
  intro hshown
  obtain ⟨t, hrun, text, htext, hshows, _⟩ := hshown _ [] (List.append_nil _).symm
  cases hrun
  have hab : text = [97, 98] := by
    refine holdsText_unique htext (HoldsText.cons_iff.mpr ⟨rfl, by decide, ?_⟩)
    refine HoldsText.cons_iff.mpr ⟨rfl, by decide, ?_⟩
    exact HoldsText.nil_iff.mpr ⟨by decide, rfl⟩
  have hcell := hshows 1
  rw [hab] at hcell
  revert hcell
  decide

/-- **When the screen shows what is in the buffer**, for every history of lines
shorter than `RL_BFS` and all keys but Tab. -/
theorem shownRight_iff (p : Prompt) (keys : List Key) (hshort : p.ShortLines)
    (hkeys : ∀ k ∈ keys, k ≠ .tab) :
    ShownRight p keys ↔ EveryInput p.edit (.start fun _ => 0) keys (KeepsStep p) :=
  everyState_iff (Shown p)
    (fun _ k _ hk hshown hedit hsync => hshown.edit (hkeys k hk) hedit hsync)
    (fun _ k hk hshown => hshown.keepsStep_iff hshort (hkeys k hk))
    (shown_start p) (shown_start p).sync

/-- One byte, and the cursor in front of it. -/
theorem shownRight_iff_a :
    (Prompt.bare.ShortLines ∧ ∀ k ∈ [Key.char letterA, .left], k ≠ .tab) ∧
      ShownRight .bare [.char letterA, .left] := by
  have hshort : Prompt.bare.ShortLines := fun x hx => absurd hx List.not_mem_nil
  have hkeys : ∀ k ∈ [Key.char letterA, .left], k ≠ .tab := by simp
  refine ⟨⟨hshort, hkeys⟩, (shownRight_iff .bare _ hshort hkeys).mpr ?_⟩
  refine everyInput_cons.mpr ⟨?_, fun t _ =>
    everyInput_cons.mpr ⟨trivial, fun u _ => everyInput_nil⟩⟩
  · intro text stale _ hend hstale
    have hnil : stale = [] := by
      refine holdsText_unique hstale (HoldsText.nil_iff.mpr ⟨?_, rfl⟩)
      show 0 + 1 < rlBfs
      decide
    rw [hnil]
    simp

end WizardShell.Ports
