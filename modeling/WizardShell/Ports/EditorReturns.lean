import WizardShell.Ports.EditorMemory
import WizardShell.Ports.EditorScreen
import WizardShell.Ports.EditorWalk

/-!
# When a prompt comes back with a line

Down at the newest command clears eight times the length of the buffer.  In memory that
holds zeros nothing else is in the way of a line that is typed and recalled:
`readLine_returns_iff` says that `get_line` then returns exactly when Down is never pressed
at the newest command.  What it returns is the line of the walk (`readLine_walks`).
-/

namespace WizardShell.Ports

open WizardShell.Verified
open Editor Prompt Walk

/-- The lines stay shorter than 1024 bytes, and Down never finds the newest command
erased. -/
structure Typable (commands : List (List UInt8)) (keys : List WalkKey) : Prop where
  short : ∀ pre post, keys = pre ++ post → (after commands pre).line.length < rlBfs
  calm : ∀ pre post, keys = pre ++ .down :: post → ¬ (after commands pre).Emptied

/-- Down is never pressed at the newest command. -/
def NeverBelow (commands : List (List UInt8)) (keys : List WalkKey) : Prop :=
  ∀ pre post, keys = pre ++ .down :: post → (after commands pre).place ≠ some 0

section Key

variable {p : Prompt} {s t : Editor} {w : Walk} {k : WalkKey}

/-- What `get_line` returns is the line of the walk. -/
theorem readLine_walks {memory : Nat → UInt8} {keys : List WalkKey} {e : Entered}
    (h : p.readLine (.start memory) (keys.flatMap WalkKey.bytes ++ [10]) = .ok (some e))
    (htypable : Typable p.commands keys) : e.line = (after p.commands keys).line := by
  obtain ⟨e', hquiet, heq⟩ := readLine_quiet h
  cases heq
  have halong : WalksAlong p memory keys := walksAlong_of htypable.short htypable.calm
  obtain ⟨s, hrun, hstep⟩ := halong keys [] (List.append_nil _).symm
  rw [getLineQuiet, hrun, Checked.ok_bind, hstep.line.enter p] at hquiet
  cases hquiet
  rfl

/-- What stands in step does so whatever was printed. -/
theorem inStep_mute : InStep p s.mute w ↔ InStep p s w :=
  ⟨fun h => ⟨⟨h.line.bytes, h.line.pos, h.line.room⟩, h.cap, h.place.congr rfl rfl, h.ended⟩,
    fun h => ⟨⟨h.line.bytes, h.line.pos, h.line.room⟩, h.cap, h.place.congr rfl rfl, h.ended⟩⟩

/-- The editor that stands where the walk does is sound. -/
theorem InStep.sound (h : InStep p s w) : Sound p s where
  room := Nat.lt_of_le_of_lt (Nat.zero_le _) h.line.room
  inside := Nat.le_of_lt h.line.room
  browses hiter := by
    have hplace := h.place
    cases hw : w.place with
    | none =>
        rw [hw] at hplace
        exact absurd (hiter.symm.trans hplace) Bool.noConfusion
    | some i =>
        rw [hw] at hplace
        obtain ⟨_, x, hx, hcurr⟩ := hplace
        exact ⟨x.1, hcurr, .of_mem (List.mem_of_getElem? hx)⟩

/-- Where Down leads to. -/
theorem InStep.downTarget_eq (h : InStep p s w) (hiter : s.histIter = true) :
    ∃ i x, w.place = some i ∧ p.nodes[i]? = some x ∧
      p.downTarget s = if i = 0 then none else (p.nodes[i - 1]?).map Prod.fst := by
  have hplace := h.place
  cases hw : w.place with
  | none =>
      rw [hw] at hplace
      exact absurd (hiter.symm.trans hplace) Bool.noConfusion
  | some i =>
      rw [hw] at hplace
      obtain ⟨_, x, hx, hcurr⟩ := hplace
      refine ⟨i, x, rfl, hx, ?_⟩
      rw [downTarget, if_pos hiter, hcurr, Option.bind_some, node_at hx, Option.bind_some]
      exact prev_at hx

/-- In step with the walk, in memory that holds zeros behind the line. -/
structure Ready (p : Prompt) (s : Editor) (w : Walk) : Prop where
  tidy : Tidy s
  step : InStep p s w

theorem ready_start (p : Prompt) : Ready p (.start fun _ => 0) .start :=
  ⟨tidy_start, inStep_start p _⟩

/-- An editing key that has the room it needs goes through. -/
theorem Ready.edit (h : Ready p s w) (key : Key) (htab : key ≠ .tab) (hfits : Fits p s key) :
    ∃ t, p.edit s key = .ok t ∧ Tidy t := by
  have hsound := h.step.sound
  obtain ⟨t, ht⟩ := (edit_ok_iff hsound).mpr ⟨hfits, fun _ => h.tidy.exists_text⟩
  exact ⟨t, ht, h.tidy.turn htab ((edit_eq_ok_iff hsound key).mp ht)⟩

/-- A key of the walk goes through, unless it is Down at the newest command. -/
theorem Ready.turns (h : Ready p s w) (hshort : p.ShortLines)
    (hdown : k = .down → w.place ≠ some 0) :
    ∃ t, (∀ rest, p.readLine s (k.bytes ++ rest) = p.readLine t rest) ∧ Tidy t ∧
      p.walkQuiet s.mute k = .ok t.mute := by
  have hroom : ∀ {a : Nat}, p.IsEntry a → (p.commandAt a).length < s.buffer.cap :=
    fun hentry => Nat.lt_of_lt_of_le (hshort.command hentry) h.step.cap
  cases k with
  | typing k =>
      cases k with
      | char c =>
          have hpress : p.press s c.byte = .ok (s.stored c.byte).growIfFull := by
            rw [Prompt.press, if_neg c.notTab, if_neg c.notDel, putChar_ok h.tidy.inside]
          have hbyte : p.press s (TypingKey.char c).byte = .ok (s.stored c.byte).growIfFull :=
            hpress
          refine ⟨_, fun rest => ?_, h.tidy.stored c.notNul, press_quiet hbyte⟩
          exact (readLine_press p s rest c.notEnter c.notEof c.notEscape).trans
            (by rw [hpress, Checked.ok_bind])
      | backspace =>
          obtain ⟨t, ht, htidy⟩ := h.edit .backspace Key.noConfusion trivial
          exact ⟨t, fun rest => (readLine_key p s .backspace rest).trans (by rw [ht]; rfl), htidy,
            backspace_quiet ht⟩
  | up =>
      obtain ⟨t, ht, htidy⟩ := h.edit .up Key.noConfusion fun a _ htarget _ =>
        hroom (h.step.sound.browses.isEntry_up htarget)
      exact ⟨t, fun rest => (readLine_key p s .up rest).trans (by rw [ht]; rfl), htidy,
        up_quiet ht⟩
  | down =>
      have hfits : Fits p s .down := by
        intro hiter text _
        obtain ⟨i, x, hplace, hx, htarget⟩ := h.step.downTarget_eq hiter
        have hne : i ≠ 0 := fun hzero => hdown rfl (hzero ▸ hplace)
        obtain ⟨hi, _⟩ := List.getElem?_eq_some_iff.mp hx
        rw [if_neg hne, List.getElem?_eq_getElem (by omega), Option.map_some] at htarget
        rw [htarget]
        exact hroom (h.step.sound.browses.isEntry_down htarget)
      obtain ⟨t, ht, htidy⟩ := h.edit .down Key.noConfusion hfits
      exact ⟨t, fun rest => (readLine_key p s .down rest).trans (by rw [ht]; rfl), htidy,
        down_quiet ht⟩

/-- **One key**, and the walk goes along. -/
theorem Ready.press (h : Ready p s w) (hshort : p.ShortLines)
    (hline : (w.press p.commands k).line.length < rlBfs)
    (hdown : k = .down → w.place ≠ some 0) :
    ∃ t, (∀ rest, p.readLine s (k.bytes ++ rest) = p.readLine t rest) ∧
      Ready p t (w.press p.commands k) := by
  obtain ⟨t, hread, htidy, hquiet⟩ := h.turns hshort hdown
  obtain ⟨u, hu, hstep⟩ := (inStep_mute.mpr h.step).press k hline
    fun heq hempty => hdown heq hempty.1
  cases hquiet.symm.trans hu
  exact ⟨t, hread, htidy, inStep_mute.mp hstep⟩

/-- Down at the newest command, with something left of it, clears too much. -/
theorem Ready.down_newest (h : Ready p s w) (hplace : w.place = some 0) (hline : w.line ≠ [])
    (rest : List UInt8) (r : Option Entered) :
    p.readLine s (WalkKey.down.bytes ++ rest) ≠ .ok r := by
  intro hret
  obtain ⟨t, ht, _⟩ := Checked.bind_eq_ok.mp ((readLine_key p s .down rest).symm.trans hret)
  have hat := h.step.place
  rw [hplace] at hat
  have hiter := hat.1
  obtain ⟨i, _, hplace', _, htarget⟩ := h.step.downTarget_eq hiter
  cases hplace.symm.trans hplace'
  obtain ⟨htext, _⟩ := (turns_down_of_newest hiter htarget).mp
    ((edit_eq_ok_iff h.step.sound .down).mp ht)
  exact hline (holdsText_unique (h.step.text hiter) htext)

end Key

section Line

variable {p : Prompt} {keys : List WalkKey}

/-- While Down is not pressed at the newest command, the loop goes with the walk. -/
theorem readLine_reaches (hshort : p.ShortLines) (htypable : Typable p.commands keys) :
    ∀ pre post, keys = pre ++ post → NeverBelow p.commands pre →
      ∃ s, (∀ rest, p.readLine (.start fun _ => 0) (pre.flatMap WalkKey.bytes ++ rest) =
        p.readLine s rest) ∧ Ready p s (after p.commands pre) := by
  intro pre
  induction pre using List.reverseRecOn with
  | nil => exact fun _ _ _ => ⟨_, fun _ => rfl, ready_start p⟩
  | append_singleton pre k ih =>
      intro post hkeys hnever
      have hsplit : keys = pre ++ k :: post := by
        rw [hkeys, List.append_assoc]
        rfl
      have hbefore : NeverBelow p.commands pre := fun pre' post' heq =>
        hnever pre' (post' ++ [k]) (by rw [heq, List.append_assoc, List.cons_append])
      obtain ⟨s, hread, hready⟩ := ih (k :: post) hsplit hbefore
      have hline := htypable.short (pre ++ [k]) post hkeys
      rw [after_snoc] at hline
      have hdown : k = .down → (after p.commands pre).place ≠ some 0 := by
        rintro rfl
        exact hnever pre [] rfl
      obtain ⟨t, hnext, hready'⟩ := hready.press hshort hline hdown
      refine ⟨t, fun rest => ?_, by rw [after_snoc]; exact hready'⟩
      rw [List.flatMap_append, List.flatMap_singleton, List.append_assoc, hread, hnext]

/-- **When a prompt comes back with a line.**  In memory that holds zeros, over a history of
lines below 1024 bytes, the keys that are typable make `get_line` return exactly when Down
is never pressed at the newest command. -/
theorem readLine_returns_iff (p : Prompt) (keys : List WalkKey) (hshort : p.ShortLines)
    (htypable : Typable p.commands keys) :
    (∃ e, p.readLine (.start fun _ => 0) (keys.flatMap WalkKey.bytes ++ [10]) = .ok (some e)) ↔
      NeverBelow p.commands keys := by
  constructor
  · rintro ⟨e, he⟩
    have hall : ∀ n pre post, pre.length = n → keys = pre ++ .down :: post →
        (after p.commands pre).place ≠ some 0 := by
      intro n
      induction n using Nat.strong_induction_on with
      | _ n ih =>
          intro pre post hlen hkeys hplace
          -- The presses in front of the first one at the newest command go through.
          have hnever : NeverBelow p.commands pre := by
            intro pre' post' heq
            have hshorter := congrArg List.length heq
            rw [List.length_append, List.length_cons] at hshorter
            refine ih pre'.length (by omega) pre' (post' ++ .down :: post) rfl ?_
            rw [hkeys, heq, List.append_assoc, List.cons_append]
          obtain ⟨s, hread, hready⟩ := readLine_reaches hshort htypable pre _ hkeys hnever
          have hline : (after p.commands pre).line ≠ [] := fun hnil =>
            htypable.calm pre post hkeys ⟨hplace, hnil⟩
          rw [hkeys, List.flatMap_append, List.flatMap_cons, List.append_assoc, hread,
            List.append_assoc] at he
          exact hready.down_newest hplace hline _ _ he
    exact fun pre post hkeys => hall pre.length pre post rfl hkeys
  · intro hnever
    obtain ⟨s, hread, hready⟩ :=
      readLine_reaches hshort htypable keys [] (List.append_nil _).symm hnever
    refine ⟨⟨upTo s.buffer s.pos, p.pushed (upTo s.buffer s.pos)⟩, ?_⟩
    rw [hread]
    show (p.enter s >>= fun e => .ok (some e)) = _
    rw [enter_ok p hready.tidy.inside, Checked.ok_bind]

/-- `b` recalled, and `a` typed behind it. -/
theorem readLine_returns_iff_once :
    (Prompt.once (.lit ['b'])).ShortLines ∧
      Typable (Prompt.once (.lit ['b'])).commands [.up, .typing (.char letterA.typed)] ∧
      ((∃ e, (Prompt.once (.lit ['b'])).readLine (.start fun _ => 0)
        ([WalkKey.up, .typing (.char letterA.typed)].flatMap WalkKey.bytes ++ [10]) =
          .ok (some e)) ↔
        NeverBelow (Prompt.once (.lit ['b'])).commands [.up, .typing (.char letterA.typed)]) := by
  have hshort : (Prompt.once (.lit ['b'])).ShortLines := by
    intro x hx
    cases List.mem_singleton.mp hx
    decide
  have htypable : Typable (Prompt.once (.lit ['b'])).commands
      [.up, .typing (.char letterA.typed)] :=
    ⟨linesShort_of_inits (by decide), noneEmptied_of_inits (by decide)⟩
  exact ⟨hshort, htypable, readLine_returns_iff _ _ hshort htypable⟩

end Line

end WizardShell.Ports
