import WizardShell.Ports.EditorBounds

/-!
# The line and the memory it is typed into

A printable key is stored without a NUL behind it, so where the end of the line
is depends on what the memory held, until the editor has written a NUL itself.

Memory that holds no NUL decides it.  A run over such memory in which `strlen`
always finds a NUL has found one that the editor wrote; every other run then
looks at the same bytes (`Agrees`) and returns the same line
(`getLine_of_noNul`).  `dependsOnKeys_iff` says for which keys that is.
-/

namespace WizardShell.Ports

open WizardShell.Verified
open Editor Prompt

/-- What `get_line` returns and pushes is the same, whatever the memory it gets
holds. -/
def DependsOnKeys (p : Prompt) (keys : List Key) : Prop :=
  ∃ e, ∀ fresh, p.getLine fresh keys = .ok e

/-- Memory without a NUL. -/
def noNul : Nat → UInt8 := fun _ => 1

/-- The key asks `strlen` where the line ends. -/
def Measures (p : Prompt) (s : Editor) : Key → Prop
  | .char _ => False
  | .tab => p.byteBefore s ≠ .ok 32
  | .backspace => 0 < s.pos
  | .up => p.upTarget s ≠ none
  | .down => s.histIter = true
  | .right => True
  | .left => False

/-- The key finds the room it needs, and the end of the line when it asks for it. -/
def FindsEnd (p : Prompt) (s : Editor) (k : Key) : Prop :=
  Fits p s k ∧ (Measures p s k → ∃ text, HoldsText s.buffer 0 text)

section Keys

variable {p : Prompt} {s t : Editor} {k : Key}

/-- Blanks in front of the cursor, or a line that `strlen` measures. -/
theorem tabBlank_eq_true (hsound : Sound p s) (h : p.tabBlank s = .ok true) :
    Measures p s .tab → ∃ text, HoldsText s.buffer 0 text := by
  intro hmeasures
  obtain ⟨c, hc⟩ := byteBefore_ok hsound
  have hne : c ≠ 32 := by
    rintro rfl
    exact hmeasures hc
  rw [tabBlank, hc, Checked.ok_bind, if_neg hne] at h
  obtain ⟨text, htext, _⟩ := Block.strlen_bind_eq_ok.mp h
  exact ⟨text, htext⟩

/-- A key that went through found the end of the line when it asked for it. -/
theorem Turns.findsEnd (hsound : Sound p s) (h : Turns p s k t) :
    Measures p s k → ∃ text, HoldsText s.buffer 0 text := by
  intro hmeasures
  cases h with
  | char c _ => exact hmeasures.elim
  | blanks hblank _ => exact tabBlank_eq_true hsound hblank hmeasures
  | erase _ htext => exact ⟨_, htext⟩
  | eraseNone hzero => exact absurd hzero (Nat.ne_of_gt hmeasures)
  | up _ htext _ => exact ⟨_, htext⟩
  | upNone htarget => exact absurd htarget hmeasures
  | down _ htext _ => exact ⟨_, htext⟩
  | downNewest _ _ htext => exact ⟨_, htext⟩
  | downNone hiter =>
      have hbrowsing : s.histIter = true := hmeasures
      rw [hiter] at hbrowsing
      cases hbrowsing
  | right htext _ => exact ⟨_, htext⟩
  | rightNone htext _ => exact ⟨_, htext⟩
  | left _ => exact hmeasures.elim
  | leftNone _ => exact hmeasures.elim

/-- Tab finds blanks when there is nothing to complete. -/
theorem FindsEnd.tabBlank (hsound : Sound p s) (h : FindsEnd p s .tab) :
    p.tabBlank s = .ok true := by
  rcases tabBlank_cases p s with htrue | ⟨hfalse, _⟩ | herror
  · exact htrue
  · cases (h.1 false hfalse).1
  · obtain ⟨c, hc⟩ := byteBefore_ok hsound
    by_cases hblank : c = 32
    · rw [Prompt.tabBlank, hc, Checked.ok_bind, if_pos hblank] at herror
      cases herror
    · obtain ⟨text, htext⟩ := h.2 (by rw [Measures, hc]; simpa using hblank)
      rw [Prompt.tabBlank, hc, Checked.ok_bind, if_neg hblank,
        Block.strlen_eq htext] at herror
      cases herror

/-- A key that finds the room and the end of the line goes through. -/
theorem FindsEnd.turns (hsound : Sound p s) (h : FindsEnd p s k) : ∃ t, Turns p s k t := by
  have hfits := h.1
  have hend := h.2
  cases k with
  | char c => exact ⟨_, .char c hfits⟩
  | tab =>
      have htrue := h.tabBlank hsound
      obtain ⟨t, ht, _⟩ := placeBlanks_ok 4 (hfits true htrue).2
      exact ⟨t, .blanks htrue ht⟩
  | backspace =>
      by_cases hpos : 0 < s.pos
      · obtain ⟨text, htext⟩ := hend hpos
        exact ⟨_, .erase hpos htext⟩
      · exact ⟨s, .eraseNone (by omega)⟩
  | up =>
      cases htarget : p.upTarget s with
      | none => exact ⟨s, .upNone htarget⟩
      | some a =>
          obtain ⟨text, htext⟩ := hend (by simp [Measures, htarget])
          exact ⟨_, .up htarget htext (hfits a text htarget htext)⟩
  | down =>
      cases hiter : s.histIter with
      | false => exact ⟨s, .downNone hiter⟩
      | true =>
          obtain ⟨text, htext⟩ := hend hiter
          have hroom := hfits hiter text htext
          cases htarget : p.downTarget s with
          | none =>
              rw [htarget] at hroom
              exact ⟨s, .downNewest hiter htarget (hroom ▸ htext)⟩
          | some a =>
              rw [htarget] at hroom
              exact ⟨_, .down htarget htext hroom⟩
  | right =>
      obtain ⟨text, htext⟩ := hend trivial
      by_cases hlt : s.pos < text.length
      · exact ⟨_, .right htext hlt⟩
      · exact ⟨s, .rightNone htext (Nat.le_of_not_lt hlt)⟩
  | left =>
      by_cases hpos : 0 < s.pos
      · exact ⟨_, .left hpos⟩
      · exact ⟨s, .leftNone (by omega)⟩

/-- **When a key goes through.** -/
theorem edit_ok_iff (hsound : Sound p s) : (∃ t, p.edit s k = .ok t) ↔ FindsEnd p s k := by
  constructor
  · rintro ⟨t, hedit⟩
    refine ⟨(edit_ne_write_iff hsound k).mp (by rw [hedit]; simp), ?_⟩
    exact ((edit_eq_ok_iff hsound k).mp hedit).findsEnd hsound
  · intro h
    obtain ⟨t, hturn⟩ := h.turns hsound
    exact ⟨t, (edit_eq_ok_iff hsound k).mpr hturn⟩

end Keys

/-! ## Two runs -/

/-- Two blocks of one size hold the same bytes up to some place, and behind it the
second has no NUL. -/
structure SameUpTo (b b' : Block UInt8) (used : Nat) : Prop where
  cap : b.cap = b'.cap
  inside : used ≤ b'.cap
  same : ∀ j, j < used → b.cell j = b'.cell j
  noNul : ∀ j, used ≤ j → b'.cell j ≠ 0

namespace SameUpTo

variable {b b' : Block UInt8} {used i : Nat} {text : List UInt8}

/-- A text in the second block stands in the first one too. -/
theorem holdsText (h : SameUpTo b b' used) (htext : HoldsText b' 0 text) :
    text.length < used ∧ HoldsText b 0 text := by
  have hnul := htext.nul
  rw [Nat.zero_add] at hnul
  have hlt : text.length < used := by
    by_contra hle
    exact h.noNul _ (Nat.le_of_not_lt hle) hnul
  exact ⟨hlt, htext.frame h.cap fun j _ hj => h.same j (by omega)⟩

theorem set_of_lt (h : SameUpTo b b' used) (hi : i < used) (c : UInt8) :
    SameUpTo (b.set i c) (b'.set i c) used := by
  refine ⟨h.cap, h.inside, fun j hj => ?_, fun j hj => ?_⟩
  · by_cases hself : j = i
    · rw [hself, Block.set_cell_self, Block.set_cell_self]
    · rw [Block.set_cell_ne _ _ hself, Block.set_cell_ne _ _ hself]
      exact h.same j hj
  · rw [Block.set_cell_ne _ _ (by omega)]
    exact h.noNul j hj

/-- A byte more. -/
theorem set_end (h : SameUpTo b b' used) (hroom : used < b'.cap) (c : UInt8) :
    SameUpTo (b.set used c) (b'.set used c) (used + 1) := by
  refine ⟨h.cap, hroom, fun j hj => ?_, fun j hj => ?_⟩
  · by_cases hself : j = used
    · rw [hself, Block.set_cell_self, Block.set_cell_self]
    · rw [Block.set_cell_ne _ _ hself, Block.set_cell_ne _ _ hself]
      exact h.same j (by omega)
  · rw [Block.set_cell_ne _ _ (by omega)]
    exact h.noNul j (by omega)

/-- What is cleared is the same all over. -/
theorem refill (h : SameUpTo b b' used) (text : List UInt8) :
    SameUpTo (b.refill text) (b'.refill text) b'.cap := by
  refine ⟨h.cap, Nat.le_refl _, fun j hj => ?_, fun j hj => ?_⟩
  · rw [Block.refill_cell_of_lt hj, Block.refill_cell_of_lt (by rw [h.cap]; exact hj)]
  · rw [Block.refill_cell_of_ge hj]
    exact h.noNul j (Nat.le_trans h.inside hj)

theorem resize (h : SameUpTo b b' used) {n : Nat} (hn : b'.cap ≤ n) :
    SameUpTo (b.resize n) (b'.resize n) used :=
  ⟨rfl, Nat.le_trans h.inside hn, h.same, h.noNul⟩

theorem upTo_eq (h : SameUpTo b b' used) (hi : i ≤ used) : upTo b i = upTo b' i := by
  rw [upTo, upTo]
  congr 1
  refine List.map_congr_left fun j hj => h.same j ?_
  obtain ⟨k, hk, rfl⟩ := List.mem_range'.mp hj
  omega

end SameUpTo

/-- The first line is over some memory and the second over memory without a NUL;
nothing else is different, and all that is in front of the cursor is the same. -/
structure Agrees (s s' : Editor) : Prop where
  pos : s.pos = s'.pos
  curr : s.curr = s'.curr
  histIter : s.histIter = s'.histIter
  buffer : ∃ used, s'.pos ≤ used ∧ SameUpTo s.buffer s'.buffer used

section Two

variable {p : Prompt} {s s' t' : Editor} {text : List UInt8} {k : Key}

theorem Agrees.cap (h : Agrees s s') : s.buffer.cap = s'.buffer.cap := by
  obtain ⟨used, _, hsame⟩ := h.buffer
  exact hsame.cap

theorem Agrees.holdsText (h : Agrees s s') (htext : HoldsText s'.buffer 0 text) :
    HoldsText s.buffer 0 text := by
  obtain ⟨used, _, hsame⟩ := h.buffer
  exact (hsame.holdsText htext).2

theorem Agrees.upTarget (h : Agrees s s') : p.upTarget s = p.upTarget s' := by
  rw [Prompt.upTarget, Prompt.upTarget, h.histIter, h.curr]

theorem Agrees.downTarget (h : Agrees s s') : p.downTarget s = p.downTarget s' := by
  rw [Prompt.downTarget, Prompt.downTarget, h.histIter, h.curr]

/-- The same byte stands in front of both cursors. -/
theorem Agrees.byteBefore (h : Agrees s s') (hsound : Sound p s) :
    p.byteBefore s = p.byteBefore s' := by
  obtain ⟨used, hused, hsame⟩ := h.buffer
  have hpos := h.pos
  have hcap := hsame.cap
  have hinside := hsound.inside
  rw [Prompt.byteBefore, Prompt.byteBefore, ← hpos]
  cases hs : s.pos with
  | zero => rfl
  | succ i =>
      show s.buffer.load i = s'.buffer.load i
      rw [Block.load_ok (by omega), Block.load_ok (by omega), hsame.same i (by omega)]

theorem Agrees.tabBlank (h : Agrees s s') (hsound : Sound p s) {blank : Bool}
    (hblank : p.tabBlank s' = .ok blank) : p.tabBlank s = .ok blank := by
  rw [Prompt.tabBlank, ← h.byteBefore hsound] at hblank
  rw [Prompt.tabBlank]
  obtain ⟨c, hc⟩ := byteBefore_ok hsound
  rw [hc, Checked.ok_bind] at hblank ⊢
  by_cases hspace : c = 32
  · rw [if_pos hspace] at hblank ⊢
    exact hblank
  · rw [if_neg hspace] at hblank ⊢
    obtain ⟨text, htext, hlen⟩ := Block.strlen_bind_eq_ok.mp hblank
    exact Block.strlen_bind_eq_ok.mpr ⟨text, h.holdsText htext, hlen⟩

theorem Agrees.growIfFull (h : Agrees s s') : Agrees s.growIfFull s'.growIfFull := by
  obtain ⟨used, hused, hsame⟩ := h.buffer
  have hpos := h.pos
  have hcap := hsame.cap
  by_cases hfull : s'.pos ≥ s'.buffer.cap
  · rw [Editor.growIfFull, Editor.growIfFull, if_pos hfull, if_pos (by omega), hcap]
    exact ⟨hpos, h.curr, h.histIter, used, hused, hsame.resize (Nat.le_add_right _ _)⟩
  · rw [Editor.growIfFull, Editor.growIfFull, if_neg hfull, if_neg (by omega)]
    exact h

theorem Agrees.stored (h : Agrees s s') (hroom : s'.pos < s'.buffer.cap) (c : UInt8) :
    Agrees (s.stored c) (s'.stored c) := by
  obtain ⟨used, hused, hsame⟩ := h.buffer
  refine ⟨congrArg (· + 1) h.pos, h.curr, h.histIter, ?_⟩
  show ∃ used, s'.pos + 1 ≤ used ∧
    SameUpTo (s.buffer.set s.pos c) (s'.buffer.set s'.pos c) used
  rw [h.pos]
  rcases Nat.lt_or_eq_of_le hused with hlt | rfl
  · exact ⟨used, hlt, hsame.set_of_lt hlt c⟩
  · exact ⟨s'.pos + 1, Nat.le_refl _, hsame.set_end hroom c⟩

theorem Agrees.placeBlanks : ∀ (n : Nat) {s s' t' : Editor}, Agrees s s' →
    Editor.placeBlanks n s' = .ok t' → ∃ t, Editor.placeBlanks n s = .ok t ∧ Agrees t t' := by
  intro n
  induction n with
  | zero =>
      intro s s' t' h ht
      cases ht
      exact ⟨s, rfl, h⟩
  | succ n ih =>
      intro s s' t' h ht
      have hpos := h.pos
      have hcap := h.cap
      rw [Editor.placeBlanks] at ht ⊢
      by_cases hroom : s'.pos < s'.buffer.cap
      · rw [Block.store_ok hroom, Checked.ok_bind] at ht
        rw [Block.store_ok (by omega), Checked.ok_bind]
        exact ih (h.stored hroom 32) ht
      · rw [Block.store_error (Nat.le_of_not_lt hroom), Checked.error_bind] at ht
        cases ht

theorem Agrees.erased (h : Agrees s s') (hpos : 0 < s'.pos) (len len' : Nat) :
    Agrees (s.erased len) (s'.erased len') := by
  obtain ⟨used, hused, hsame⟩ := h.buffer
  refine ⟨congrArg (· - 1) h.pos, h.curr, h.histIter, used, ?_, ?_⟩
  · exact Nat.le_trans (Nat.sub_le _ _) hused
  · show SameUpTo (s.buffer.set (s.pos - 1) 0) (s'.buffer.set (s'.pos - 1) 0) used
    rw [h.pos]
    exact hsame.set_of_lt (by omega) 0

theorem Agrees.recalled (h : Agrees s s') {a : Nat} (len len' : Nat)
    (hroom : (p.commandAt a).length < s'.buffer.cap) :
    Agrees (p.recalled a len s) (p.recalled a len' s') := by
  obtain ⟨used, _, hsame⟩ := h.buffer
  exact ⟨rfl, rfl, rfl, _, Nat.le_of_lt hroom, hsame.refill _⟩

/-- **A turn over memory without a NUL is followed over any other.** -/
theorem Agrees.turn (h : Agrees s s') (hsound : Sound p s) (hturn : Turns p s' k t') :
    ∃ t, Turns p s k t ∧ Agrees t t' := by
  have hpos := h.pos
  have hcap := h.cap
  cases hturn with
  | char c hroom => exact ⟨_, .char c (by omega), (h.stored hroom c.byte).growIfFull⟩
  | blanks hblank hplace =>
      obtain ⟨t, ht, hagrees⟩ := Agrees.placeBlanks 4 h hplace
      exact ⟨t, .blanks (h.tabBlank hsound hblank) ht, hagrees⟩
  | erase hlt htext =>
      exact ⟨_, .erase (by omega) (h.holdsText htext), h.erased hlt _ _⟩
  | eraseNone hzero => exact ⟨s, .eraseNone (by omega), h⟩
  | up htarget htext hroom =>
      rw [← h.upTarget] at htarget
      exact ⟨_, .up htarget (h.holdsText htext) (by omega), h.recalled _ _ hroom⟩
  | upNone htarget =>
      rw [← h.upTarget] at htarget
      exact ⟨s, .upNone htarget, h⟩
  | down htarget htext hroom =>
      rw [← h.downTarget] at htarget
      exact ⟨_, .down htarget (h.holdsText htext) (by omega), h.recalled _ _ hroom⟩
  | downNewest hiter htarget htext =>
      rw [← h.downTarget] at htarget
      rw [← h.histIter] at hiter
      exact ⟨s, .downNewest hiter htarget (h.holdsText htext), h⟩
  | downNone hiter =>
      rw [← h.histIter] at hiter
      exact ⟨s, .downNone hiter, h⟩
  | right htext hlt =>
      obtain ⟨used, hused, hsame⟩ := h.buffer
      refine ⟨_, .right (h.holdsText htext) (by omega), congrArg (· + 1) hpos, h.curr,
        h.histIter, used, ?_, hsame⟩
      have hend := (hsame.holdsText htext).1
      show s'.pos + 1 ≤ used
      omega
  | rightNone htext hle => exact ⟨s, .rightNone (h.holdsText htext) (by omega), h⟩
  | left hlt =>
      obtain ⟨used, hused, hsame⟩ := h.buffer
      exact ⟨_, .left (by omega), congrArg (· - 1) hpos, h.curr, h.histIter, used,
        Nat.le_trans (Nat.sub_le _ _) hused, hsame⟩
  | leftNone hzero => exact ⟨s, .leftNone (by omega), h⟩

theorem agrees_start (fresh : Nat → UInt8) : Agrees (.start fresh) (.start noNul) where
  pos := rfl
  curr := rfl
  histIter := rfl
  buffer := by
    refine ⟨0, Nat.le_refl _, rfl, Nat.zero_le _, fun j hj => absurd hj (Nat.not_lt_zero j),
      fun j _ => ?_⟩
    show (1 : UInt8) ≠ 0
    decide

theorem Agrees.enter (h : Agrees s s') : p.enter s = p.enter s' := by
  obtain ⟨used, hused, hsame⟩ := h.buffer
  have hpos := h.pos
  have hcap := hsame.cap
  by_cases hroom : s'.pos < s'.buffer.cap
  · rw [enter_ok p hroom, enter_ok p (by omega), hpos, hsame.upTo_eq hused]
  · rw [enter_error p (Nat.le_of_not_lt hroom), enter_error p (by omega)]

end Two

/-- **Memory without a NUL decides**: what a run over it returns, every run
returns. -/
theorem getLine_of_noNul (p : Prompt) (fresh : Nat → UInt8) {keys : List Key} {e : Entered}
    (h : p.getLine noNul keys = .ok e) : p.getLine fresh keys = .ok e := by
  rw [getLine] at h ⊢
  obtain ⟨s', hrun, henter⟩ := Checked.bind_eq_ok.mp h
  have hstart : Sound p (.start fresh) ∧ Sound p (.start noNul) ∧
      Agrees (.start fresh) (.start noNul) :=
    ⟨sound_start p fresh, sound_start p noNul, agrees_start fresh⟩
  have hstep : ∀ s s' k t', (Sound p s ∧ Sound p s' ∧ Agrees s s') →
      p.edit s' k = .ok t' → ∃ t, p.edit s k = .ok t ∧
        Sound p t ∧ Sound p t' ∧ Agrees t t' := by
    rintro s s' k t' ⟨hsound, hsound', hagrees⟩ hedit
    have hturn' := (edit_eq_ok_iff hsound' k).mp hedit
    obtain ⟨t, hturn, hagrees'⟩ := hagrees.turn hsound hturn'
    exact ⟨t, (edit_eq_ok_iff hsound k).mpr hturn, hsound.turn hturn,
      hsound'.turn hturn', hagrees'⟩
  obtain ⟨s, hs, _, _, hagrees⟩ := runAll_simulates hstep hstart hrun
  rw [hs, Checked.ok_bind, hagrees.enter]
  exact henter

/-- `a` and Right: what is returned depends on what the memory held behind the
`a`. -/
theorem not_dependsOnKeys_right : ¬ DependsOnKeys .bare [.char letterA, .right] := by
  rintro ⟨e, he⟩
  have hzero : e.line = [97] := by
    have hrun := he fun _ => 0
    cases hrun
    rfl
  have hstale : e.line = [97, 120] := by
    have hrun := he fun i => if i = 1 then 120 else 0
    cases hrun
    rfl
  rw [hzero] at hstale
  cases hstale

/-- **When the line depends only on the keys**: exactly when over memory without a
NUL every key finds the room it needs, and the end of the line when it asks for
it, and Enter finds room for the NUL; for every history, every trie and every
sequence of keys. -/
theorem dependsOnKeys_iff (p : Prompt) (keys : List Key) :
    DependsOnKeys p keys ↔
      EveryInput p.edit (.start noNul) keys (FindsEnd p) ∧
        ∀ s, runAll p.edit (.start noNul) keys = .ok s → s.pos < s.buffer.cap := by
  have hall : EveryState p.edit (.start noNul) keys (fun _ => True) ↔
      EveryInput p.edit (.start noNul) keys (FindsEnd p) :=
    everyState_iff (Sound p) (fun _ _ _ _ hsound hedit _ => hsound.edit hedit)
      (fun _ _ _ hsound => by simpa using edit_ok_iff hsound) (sound_start p noNul) trivial
  rw [← hall]
  constructor
  · rintro ⟨e, he⟩
    have hnoNul := he noNul
    rw [getLine] at hnoNul
    obtain ⟨s, hrun, henter⟩ := Checked.bind_eq_ok.mp hnoNul
    refine ⟨fun pre post hkeys => ?_, fun t ht => ?_⟩
    · rw [hkeys] at hrun
      obtain ⟨t, ht, _⟩ := exists_of_runAll_append hrun
      exact ⟨t, ht, trivial⟩
    · cases hrun.symm.trans ht
      by_contra hroom
      rw [enter_error p (Nat.le_of_not_lt hroom)] at henter
      cases henter
  · rintro ⟨hruns, hroom⟩
    obtain ⟨s, hrun, _⟩ := hruns keys [] (List.append_nil _).symm
    have henter := enter_ok p (hroom s hrun)
    rw [← getLine_eq hrun] at henter
    exact ⟨_, fun fresh => getLine_of_noNul p fresh henter⟩

end WizardShell.Ports
