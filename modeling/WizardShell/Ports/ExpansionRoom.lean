import WizardShell.Ports.Expansion
import WizardShell.Verified.Fault

/-!
# Room for the expanded line

Whether `resolve_alias_shortcuts` writes inside its output array, for lines and
directories of any size.  Only `~` and `*` make that array grow, by one step each;
an alias that finds it full makes the array of input tokens grow instead, and
afterwards the capacity the source believes in is larger than the real one; any
other token is stored without a check.

The model is the one of `Resolve`, as checked code (`resolve_agrees`), so that a
write outside is told from the other ways to go wrong.  The counting is abstracted
from it: what a token asks of the array (`Demand`), and whether a line `LineFits`.

`expandsInside_iff`: no index outside is written exactly when the line fits.
-/

namespace WizardShell.Ports

open WizardShell.Verified

/-- `f_tokens[pos++] = …` for one pointer after another. -/
def pushAllChecked (ps : List TokenPtr) (st : ResolveState) : Checked ResolveState :=
  (pushAll ps st).orFault .write

/-- One turn of the loop, where `listing` is what `scandir` gives.  `home` is what
`strcpy` through the pointer that was never set comes to: it stops the shell, or
happens to find memory, and the token put reads as this. -/
def resolveTokenChecked (fuel : Nat) (alTable : AliasTable Definition)
    (home : Option CString) (listing : List CString) (st : ResolveState) (tok : CString) :
    Checked ResolveState :=
  if tok = tokHome then
    let st := if st.pos + 1 ≥ st.bufsize then growOutput st else st
    match home with
    | none => .error .deref
    | some home => pushAllChecked [.text home] st
  else if tok = tokStar then
    let st := if st.pos + listing.length ≥ st.bufsize then growOutput st else st
    pushAllChecked ((listing.filter isVisible).map .freed) st
  else do
    match ← (atGet fuel alTable tok).orFault .deref with
    | some aliasToks =>
        let alLen ← (ppstrlen aliasToks).orFault .read
        let st := if st.pos + alLen ≥ st.bufsize then growTokens st else st
        let definition ← aliasToks.contents.orFault .read
        pushAllChecked (definition.map .text) st
    | none => pushAllChecked [.text tok] st

/-- The loop over the tokens.  A loop that needs more turns than it is given stops
like a lookup that needs more fuel. -/
def resolveLoopChecked (fuel : Nat) (alTable : AliasTable Definition)
    (home : Option CString) (listing : List CString) : Nat → Nat → ResolveState →
    Checked ResolveState
  | 0, _, _ => Outcome.outOfFuel.orFault .deref
  | turns + 1, i, st => do
      match ← (st.tokens.read i).orFault .read with
      | none => return st
      | some tok =>
          let st ← resolveTokenChecked fuel alTable home listing st tok
          resolveLoopChecked fuel alTable home listing turns (i + 1) st

/-- `f_tokens[pos] = NULL` -/
def endOutput (st : ResolveState) : Checked (Block (Option TokenPtr)) :=
  (st.fTokens.write st.pos none).orFault .write

/-- `resolve_alias_shortcuts(tokens)` -/
def resolveAliasShortcutsChecked (fuel : Nat) (fresh : Nat → Option TokenPtr)
    (alTable : AliasTable Definition) (home : Option CString) (listing : List CString)
    (tokens : Block (Option CString)) : Checked (Block (Option TokenPtr)) := do
  let st ← resolveLoopChecked fuel alTable home listing fuel 0
    { bufsize := psBfs, pos := 0, tokens := tokens, fTokens := Block.alloc psBfs fresh }
  endOutput st

/-! ## The two models agree -/

section Agree

variable {fuel : Nat} {alTable : AliasTable Definition} {listing : List CString}

theorem resolveToken_agrees (st : ResolveState) (tok : CString) :
    (resolveToken fuel alTable (some listing) st tok).Agrees
      (resolveTokenChecked fuel alTable none listing st tok) := by
  unfold resolveToken resolveTokenChecked
  by_cases hhome : tok = tokHome
  · rw [if_pos hhome, if_pos hhome]
    exact .undefined _
  rw [if_neg hhome, if_neg hhome]
  by_cases hstar : tok = tokStar
  · rw [if_pos hstar, if_pos hstar]
    exact .orFault _ _
  rw [if_neg hstar, if_neg hstar]
  refine (Outcome.Agrees.orFault _ _).bind fun r => ?_
  cases r with
  | none => exact .orFault _ _
  | some aliasToks =>
      refine (Outcome.Agrees.orFault _ _).bind fun alLen => ?_
      refine (Outcome.Agrees.orFault _ _).bind fun definition => ?_
      exact .orFault _ _

theorem resolveLoop_agrees (turns : Nat) : ∀ (i : Nat) (st : ResolveState),
    (resolveLoop fuel alTable (some listing) turns i st).Agrees
      (resolveLoopChecked fuel alTable none listing turns i st) := by
  induction turns with
  | zero => exact fun i st => .orFault _ _
  | succ turns ih =>
      intro i st
      refine (Outcome.Agrees.orFault _ _).bind fun r => ?_
      cases r with
      | none =>
          intro st'
          simp
      | some tok =>
          exact (resolveToken_agrees st tok).bind fun st' => ih (i + 1) st'

/-- Where the `strcpy` of `~` stops the shell, the checked model is the one that the
expansion was proved of. -/
theorem resolve_agrees (fresh : Nat → Option TokenPtr) (tokens : Block (Option CString)) :
    (resolveAliasShortcuts fuel fresh alTable (some listing) tokens).Agrees
      (resolveAliasShortcutsChecked fuel fresh alTable none listing tokens) :=
  (resolveLoop_agrees fuel 0 _).bind fun _ => .orFault _ _

end Agree

/-! ## Counting the room -/

/-- What a token asks of the output. -/
inductive Demand where
  /-- The home path. -/
  | home
  /-- The names to show of a directory with so many entries. -/
  | star (entries names : Nat)
  /-- The words of an alias. -/
  | words (n : Nat)
  /-- The token itself. -/
  | plain
  /-- Nothing: the lookup of the token, or the definition found, has no end. -/
  | endless
  deriving DecidableEq

/-- The number of pointers put. -/
def Demand.count : Demand → Nat
  | home => 1
  | star _ names => names
  | words n => n
  | plain => 1
  | endless => 0

def demand (t : AliasTable Definition) (m : CString → Option Definition)
    (listing : List CString) (tok : CString) : Demand :=
  if tok = tokHome then .home
  else if tok = tokStar then .star listing.length (listing.filter isVisible).length
  else
    match m tok with
    | some definition =>
        match definition.contents with
        | .ret words => .words words.length
        | _ => .endless
    | none => if t.count < t.size then .plain else .endless

/-- The capacity the source believes in, those of the output and of the array of
tokens, and the number of pointers put so far. -/
structure Room where
  bufsize : Nat
  cap : Nat
  tokens : Nat
  pos : Nat

/-- The room in which the pointers of a token are put: `~` and `*` add a step to the
output when they find it full, an alias adds one to the tokens. -/
def Room.before (r : Room) : Demand → Room
  | .home =>
      if r.pos + 1 ≥ r.bufsize then
        { r with bufsize := r.bufsize + psBfs, cap := r.bufsize + psBfs }
      else r
  | .star entries _ =>
      if r.pos + entries ≥ r.bufsize then
        { r with bufsize := r.bufsize + psBfs, cap := r.bufsize + psBfs }
      else r
  | .words n =>
      if r.pos + n ≥ r.bufsize then
        { r with bufsize := r.bufsize + psBfs, tokens := r.bufsize + psBfs }
      else r
  | .plain => r
  | .endless => r

/-- The room behind the token. -/
def Room.after (r : Room) (d : Demand) : Room := { r.before d with pos := r.pos + d.count }

/-- The pointers of the tokens from index `i` on, and the NULL behind them, fit.
Nothing is put any more behind an endless lookup, or when the tokens themselves do
not go on. -/
def LineFits : Room → Nat → List Demand → Prop
  | r, i, [] => i < r.tokens → r.pos < r.cap
  | _, _, .endless :: _ => True
  | r, i, d :: rest =>
      i < r.tokens → r.pos + d.count ≤ (r.before d).cap ∧ LineFits (r.after d) (i + 1) rest

/-- The room at the start, with an array of so many tokens. -/
def Room.start (tokens : Nat) : Room := ⟨psBfs, psBfs, tokens, 0⟩

/-- The room in a state of the loop. -/
def ResolveState.room (st : ResolveState) : Room :=
  ⟨st.bufsize, st.fTokens.cap, st.tokens.cap, st.pos⟩

/-- Whatever the memory held, the `strcpy` of `~` comes to, and as far as the run is
followed: every index of `f_tokens` that is written, that of the final NULL
included, is below the capacity it has at that moment. -/
def ExpandsInside (t : AliasTable Definition) (listing : List CString)
    (tokens : Block (Option CString)) : Prop :=
  ∀ fuel home fresh,
    resolveAliasShortcutsChecked fuel fresh t home listing tokens ≠ .error .write

theorem lineFits_cons {r : Room} {i : Nat} {d : Demand} {rest : List Demand} (hd : d ≠ .endless) :
    LineFits r i (d :: rest) ↔
      (i < r.tokens → r.pos + d.count ≤ (r.before d).cap ∧ LineFits (r.after d) (i + 1) rest) := by
  cases d <;> first | rfl | exact absurd rfl hd

/-- The pointers put lie below the capacity, and the source does not believe in too
small a one. -/
structure Room.Sound (r : Room) : Prop where
  pos_le : r.pos ≤ r.cap
  cap_le : r.cap ≤ r.bufsize

/-- What a token can do to the room: nothing, a step for the output, or one for the
tokens. -/
theorem Room.before_cases (r : Room) (d : Demand) :
    r.before d = r ∨
      r.before d = { r with bufsize := r.bufsize + psBfs, cap := r.bufsize + psBfs } ∨
      r.before d = { r with bufsize := r.bufsize + psBfs, tokens := r.bufsize + psBfs } := by
  cases d with
  | home =>
      rw [before]
      split
      · exact .inr (.inl rfl)
      · exact .inl rfl
  | star entries names =>
      rw [before]
      split
      · exact .inr (.inl rfl)
      · exact .inl rfl
  | words n =>
      rw [before]
      split
      · exact .inr (.inr rfl)
      · exact .inl rfl
  | plain => exact .inl rfl
  | endless => exact .inl rfl

theorem Room.before_pos (r : Room) (d : Demand) : (r.before d).pos = r.pos := by
  rcases r.before_cases d with h | h | h
  · rw [h]
  · rw [h]
  · rw [h]

theorem Room.Sound.before {r : Room} (h : r.Sound) (d : Demand) : (r.before d).Sound := by
  have hgrown : r.cap ≤ r.bufsize + psBfs := Nat.le_trans h.cap_le (Nat.le_add_right _ _)
  rcases r.before_cases d with heq | heq | heq
  · rw [heq]
    exact h
  · rw [heq]
    exact ⟨Nat.le_trans h.pos_le hgrown, Nat.le_refl _⟩
  · rw [heq]
    exact ⟨h.pos_le, hgrown⟩

theorem Room.Sound.cap_le_before {r : Room} (h : r.Sound) (d : Demand) :
    r.cap ≤ (r.before d).cap := by
  rcases r.before_cases d with heq | heq | heq
  · rw [heq]
  · rw [heq]
    exact Nat.le_trans h.cap_le (Nat.le_add_right _ _)
  · rw [heq]

/-- Behind the array of tokens nothing is put any more. -/
theorem lineFits_behind {r : Room} {i : Nat} (hbehind : ¬ i < r.tokens) (ds : List Demand) :
    LineFits r i ds := by
  cases ds with
  | nil => exact fun hinside => absurd hinside hbehind
  | cons d rest =>
      by_cases hd : d = .endless
      · rw [hd]
        trivial
      · rw [lineFits_cons hd]
        exact fun hinside => absurd hinside hbehind

/-! ## One turn -/

section Turn

variable {ps : List TokenPtr} {st : ResolveState}

theorem pushAllChecked_ok (hroom : st.pos + ps.length ≤ st.fTokens.cap) :
    ∃ st', pushAllChecked ps st = .ok st' ∧
      st'.room = { st.room with pos := st.pos + ps.length } ∧ st'.tokens = st.tokens := by
  obtain ⟨st', hrun, htokens, hbufsize, hcap⟩ := pushAll_returns hroom
  refine ⟨st', by rw [pushAllChecked, hrun]; rfl, ?_, htokens⟩
  rw [ResolveState.room, hbufsize, hcap, htokens, (pushAll_puts hrun).pos]
  rfl

theorem pushAllChecked_error (hpos : st.pos ≤ st.fTokens.cap)
    (hover : st.fTokens.cap < st.pos + ps.length) : pushAllChecked ps st = .error .write := by
  have hrun : pushAll ps st = .undefined := by
    induction ps generalizing st with
    | nil =>
        rw [List.length_nil] at hover
        omega
    | cons p rest ih =>
        rw [List.length_cons] at hover
        rw [pushAll]
        by_cases hlt : st.pos < st.fTokens.cap
        · rw [Block.write_of_lt hlt, Outcome.ret_bind]
          refine ih ?_ ?_
          · show st.pos + 1 ≤ st.fTokens.cap
            omega
          · show st.fTokens.cap < st.pos + 1 + rest.length
            omega
        · rw [Block.write_of_le (Nat.le_of_not_lt hlt), Outcome.undefined_bind]
  rw [pushAllChecked, hrun, Outcome.orFault_undefined]

/-- A lookup without an end, whatever the fuel, and one that only lacks fuel. -/
theorem atGet_cases (fuel : Nat) {t : AliasTable Definition}
    {m : CString → Option Definition} (h : TableInv t m) (tok : CString) :
    (atGet fuel t tok).orFault .deref = .ok (m tok) ∧ LookupEnds t m tok ∨
      (atGet fuel t tok).orFault .deref = .error .deref ∧
        (t.size ≤ fuel → ¬ LookupEnds t m tok) := by
  cases hget : atGet fuel t tok with
  | ret r =>
      obtain ⟨hends, rfl⟩ := lookupEnds_of_ret h hget
      exact .inl ⟨rfl, hends⟩
  | undefined =>
      refine .inr ⟨rfl, fun hfuel hends => ?_⟩
      rw [atGet_eq_ret h hfuel hends] at hget
      cases hget
  | outOfFuel =>
      refine .inr ⟨rfl, fun hfuel hends => ?_⟩
      rw [atGet_eq_ret h hfuel hends] at hget
      cases hget

/-- A turn stops without a write outside, or puts as many pointers as the token
demands, in the room that it finds. -/
theorem resolveTokenChecked_eq (fuel : Nat) {t : AliasTable Definition}
    {m : CString → Option Definition} (h : TableInv t m) (home : Option CString)
    (listing : List CString) (st : ResolveState) (tok : CString) :
    (∃ e, resolveTokenChecked fuel t home listing st tok = .error e ∧ e ≠ .write ∧
        (t.size ≤ fuel → home ≠ none → demand t m listing tok = .endless)) ∨
      (demand t m listing tok ≠ .endless ∧ ∃ ps st₀,
        resolveTokenChecked fuel t home listing st tok = pushAllChecked ps st₀ ∧
        ps.length = (demand t m listing tok).count ∧
        st₀.room = st.room.before (demand t m listing tok) ∧
        st₀.tokens.cell = st.tokens.cell) := by
  unfold resolveTokenChecked demand
  by_cases hhome : tok = tokHome
  · rw [if_pos hhome, if_pos hhome]
    cases home with
    | none => exact .inl ⟨.deref, rfl, by decide, fun _ hne => absurd rfl hne⟩
    | some home =>
        refine .inr ⟨by decide, [.text home], _, rfl, rfl, ?_, ?_⟩
        · show ResolveState.room _ = if st.pos + 1 ≥ st.bufsize then _ else _
          split <;> rfl
        · split <;> rfl
  rw [if_neg hhome, if_neg hhome]
  by_cases hstar : tok = tokStar
  · rw [if_pos hstar, if_pos hstar]
    refine .inr ⟨by simp, _, _, rfl, List.length_map _, ?_, ?_⟩
    · show ResolveState.room _ = if st.pos + listing.length ≥ st.bufsize then _ else _
      split <;> rfl
    · split <;> rfl
  rw [if_neg hstar, if_neg hstar]
  rcases atGet_cases fuel h tok with ⟨hget, hends⟩ | ⟨hget, hends⟩
  · rw [hget, Checked.ok_bind]
    cases hkey : m tok with
    | none =>
        have hroom : t.count < t.size := hends.resolve_left fun hne => hne hkey
        simp only [if_pos hroom]
        exact .inr ⟨by decide, [.text tok], st, rfl, rfl, rfl, rfl⟩
    | some definition =>
        simp only [ppstrlen, Block.nullIndex_eq]
        cases hread : definition.contents with
        | ret words =>
            refine .inr ⟨by simp, words.map .text, _, rfl, List.length_map _, ?_, ?_⟩
            · show ResolveState.room _ = if st.pos + words.length ≥ st.bufsize then _ else _
              split <;> rfl
            · split <;> rfl
        | undefined => exact .inl ⟨.read, rfl, by decide, fun _ _ => rfl⟩
        | outOfFuel => exact .inl ⟨.read, rfl, by decide, fun _ _ => rfl⟩
  · rw [hget, Checked.error_bind]
    refine .inl ⟨.deref, rfl, by decide, fun hfuel _ => ?_⟩
    obtain ⟨hkey, hroom⟩ := not_or.mp (hends hfuel)
    rw [not_not.mp hkey]
    simp only [if_neg hroom]

end Turn

/-! ## The loop -/

section Loop

variable {fuel : Nat} {t : AliasTable Definition} {m : CString → Option Definition}
  {home : Option CString} {listing : List CString}

/-- The final NULL. -/
theorem endOutput_error (st : ResolveState) :
    endOutput st = .error .write ↔ ¬ st.pos < st.fTokens.cap := by
  rw [endOutput]
  by_cases hlt : st.pos < st.fTokens.cap
  · rw [Block.write_of_lt hlt]
    simp [hlt]
  · rw [Block.write_of_le (Nat.le_of_not_lt hlt)]
    simp [hlt]

/-- A loop that has come behind the array of tokens stops. -/
theorem resolveLoopChecked_behind {turns i : Nat} {st : ResolveState}
    (hbehind : ¬ i < st.tokens.cap) :
    (resolveLoopChecked fuel t home listing turns i st >>= endOutput) ≠ .error .write := by
  cases turns with
  | zero => simp [resolveLoopChecked, Outcome.orFault]
  | succ turns => simp [resolveLoopChecked, Block.read, hbehind]

theorem resolveLoopChecked_null {turns i : Nat} {st : ResolveState}
    (hinside : i < st.tokens.cap) (hcell : st.tokens.cell i = none) :
    (resolveLoopChecked fuel t home listing (turns + 1) i st >>= endOutput) = endOutput st := by
  rw [resolveLoopChecked, Block.read_of_lt hinside, Outcome.orFault_ret, Checked.ok_bind, hcell]
  rfl

theorem resolveLoopChecked_token {turns i : Nat} {st : ResolveState} {tok : CString}
    (hinside : i < st.tokens.cap) (hcell : st.tokens.cell i = some tok) :
    (resolveLoopChecked fuel t home listing (turns + 1) i st >>= endOutput) =
      (resolveTokenChecked fuel t home listing st tok >>= fun st' =>
        resolveLoopChecked fuel t home listing turns (i + 1) st' >>= endOutput) := by
  rw [resolveLoopChecked, Block.read_of_lt hinside, Outcome.orFault_ret, Checked.ok_bind, hcell]
  exact bind_assoc _ _ _

/-- The run writes outside only when it does not fit, and, given enough, then it
does. -/
structure Decides {α : Type} (enough : Prop) (run : Checked α) (fits : Prop) : Prop where
  outside : run = .error .write → ¬ fits
  found : enough → ¬ fits → run = .error .write

/-- A loop without turns writes nothing. -/
theorem resolveLoopChecked_zero {enough fits : Prop} {n i : Nat} (st : ResolveState) :
    Decides (enough ∧ home ≠ none ∧ n < 0)
      (resolveLoopChecked fuel t home listing 0 i st >>= endOutput) fits := by
  refine ⟨fun hrun => ?_, fun henough => absurd henough.2.2 (Nat.not_lt_zero _)⟩
  cases hrun

/-- The pointers of a token are put, and the rest follows where they fit. -/
theorem pushAllChecked_decides {enough fits : Prop} {α : Type} {ps : List TokenPtr}
    {st : ResolveState} {rest : ResolveState → Checked α} (hsound : st.room.Sound)
    (hrest : ∀ st', st'.room = { st.room with pos := st.pos + ps.length } →
      st'.tokens = st.tokens → st'.room.Sound → Decides enough (rest st') fits) :
    Decides enough (pushAllChecked ps st >>= rest)
      (st.pos + ps.length ≤ st.fTokens.cap ∧ fits) := by
  by_cases hput : st.pos + ps.length ≤ st.fTokens.cap
  · obtain ⟨st', hpush, hroom, htokens⟩ := pushAllChecked_ok hput
    have hsound' : st'.room.Sound := by
      rw [hroom]
      exact ⟨hput, hsound.cap_le⟩
    obtain ⟨houtside, hfound⟩ := hrest st' hroom htokens hsound'
    rw [hpush, Checked.ok_bind]
    exact ⟨fun hrun hf => houtside hrun hf.2,
      fun henough hf => hfound henough fun hfits => hf ⟨hput, hfits⟩⟩
  · rw [pushAllChecked_error hsound.pos_le (Nat.lt_of_not_le hput), Checked.error_bind]
    exact ⟨fun _ hf => hput hf.1, fun _ _ => rfl⟩

/-- The loop, the final NULL included, decides whether the line fits. -/
theorem resolveLoopChecked_decides (fuel : Nat) (h : TableInv t m) (home : Option CString)
    (listing : List CString) {l : List CString} : ∀ (turns i : Nat) (st : ResolveState),
    (∀ k, k ≤ l.length → st.tokens.cell (i + k) = l[k]?) → st.room.Sound →
    Decides (t.size ≤ fuel ∧ home ≠ none ∧ l.length < turns)
      (resolveLoopChecked fuel t home listing turns i st >>= endOutput)
      (LineFits st.room i (l.map (demand t m listing))) := by
  induction l with
  | nil =>
      intro turns i st hcells hsound
      by_cases hinside : i < st.tokens.cap
      · have hfits : LineFits st.room i [] ↔ st.pos < st.fTokens.cap :=
          ⟨fun hf => hf hinside, fun hlt _ => hlt⟩
        rw [List.map_nil, hfits]
        cases turns with
        | zero => exact resolveLoopChecked_zero st
        | succ turns =>
            rw [resolveLoopChecked_null hinside (hcells 0 (Nat.le_refl _))]
            exact ⟨(endOutput_error st).mp, fun _ => (endOutput_error st).mpr⟩
      · exact ⟨fun hrun => absurd hrun (resolveLoopChecked_behind hinside),
          fun _ hfits => absurd (lineFits_behind hinside _) hfits⟩
  | cons tok rest ih =>
      intro turns i st hcells hsound
      rw [List.map_cons, List.length_cons]
      by_cases hinside : i < st.tokens.cap
      · cases turns with
        | zero => exact resolveLoopChecked_zero st
        | succ turns =>
        rw [resolveLoopChecked_token hinside (hcells 0 (Nat.zero_le _)),
          Nat.succ_lt_succ_iff]
        rcases resolveTokenChecked_eq fuel h home listing st tok with
          ⟨e, hturn, he, hstop⟩ | ⟨hd, ps, st₀, hturn, hcount, hroom, htokens⟩
        · -- The turn stops.
          rw [hturn, Checked.error_bind]
          refine ⟨fun hrun => absurd (Except.error.inj hrun) he, fun henough hfits => ?_⟩
          rw [hstop henough.1 henough.2.1] at hfits
          exact absurd trivial hfits
        · have hpos₀ : st₀.pos = st.pos := by
            have hpos := st.room.before_pos (demand t m listing tok)
            rw [← hroom] at hpos
            exact hpos
          have hfits : LineFits st.room i
              (demand t m listing tok :: rest.map (demand t m listing)) ↔
              st₀.pos + ps.length ≤ st₀.fTokens.cap ∧
                LineFits { st₀.room with pos := st₀.pos + ps.length } (i + 1)
                  (rest.map (demand t m listing)) := by
            rw [lineFits_cons hd, Room.after, ← hroom, ← hcount, hpos₀]
            exact ⟨fun hf => hf hinside, fun hf _ => hf⟩
          rw [hturn, hfits]
          refine pushAllChecked_decides (by rw [hroom]; exact hsound.before _) ?_
          intro st₁ hroom₁ htokens₁ hsound₁
          rw [← hroom₁]
          refine ih turns (i + 1) st₁ (fun k hk => ?_) hsound₁
          have hnext := hcells (k + 1) (Nat.succ_le_succ hk)
          rw [htokens₁, htokens, Nat.add_assoc, Nat.add_comm 1, hnext,
            List.getElem?_cons_succ]
      · exact ⟨fun hrun => absurd hrun (resolveLoopChecked_behind hinside),
          fun _ hfits => absurd (lineFits_behind hinside _) hfits⟩

end Loop

/-- The function writes inside exactly when the line fits. -/
theorem expandsInside_of_table {t : AliasTable Definition} {m : CString → Option Definition}
    (h : TableInv t m) (listing : List CString) {tokens : Block (Option CString)}
    {l : List CString} (htokens : tokens.contents = .ret l) :
    ExpandsInside t listing tokens ↔
      LineFits (.start tokens.cap) 0 (l.map (demand t m listing)) := by
  have hsound : (Room.start tokens.cap).Sound := ⟨Nat.zero_le _, Nat.le_refl _⟩
  constructor
  · intro hinside
    by_contra hfits
    obtain ⟨_, hfound⟩ := resolveLoopChecked_decides (max t.size (l.length + 1)) h
      (some .empty) listing (max t.size (l.length + 1)) 0
      { bufsize := psBfs, pos := 0, tokens := tokens, fTokens := Block.alloc psBfs fun _ => none }
      (contents_cell htokens) hsound
    refine hinside (max t.size (l.length + 1)) (some .empty) (fun _ => none) (hfound ?_ hfits)
    exact ⟨Nat.le_max_left _ _, by simp, by omega⟩
  · intro hfits fuel home fresh hrun
    obtain ⟨houtside, _⟩ := resolveLoopChecked_decides fuel h home listing fuel 0
      { bufsize := psBfs, pos := 0, tokens := tokens, fTokens := Block.alloc psBfs fresh }
      (contents_cell htokens) hsound
    exact houtside hrun hfits

/-- With fewer than 512 pointers in all, no step is needed. -/
theorem lineFits_of_lt {ds : List Demand} : ∀ {r : Room} {i : Nat}, r.Sound → psBfs ≤ r.cap →
    r.pos + (ds.map Demand.count).sum < psBfs → LineFits r i ds := by
  induction ds with
  | nil =>
      intro r i _ hcap hfew _
      rw [List.map_nil, List.sum_nil] at hfew
      omega
  | cons d rest ih =>
      intro r i hsound hcap hfew
      rw [List.map_cons, List.sum_cons] at hfew
      by_cases hd : d = .endless
      · rw [hd]
        trivial
      rw [lineFits_cons hd]
      intro _
      have hgrown : psBfs ≤ (r.before d).cap := Nat.le_trans hcap (hsound.cap_le_before d)
      have hput : r.pos + d.count ≤ (r.before d).cap := by omega
      refine ⟨hput, ih ⟨hput, (hsound.before d).cap_le⟩ hgrown ?_⟩
      show r.pos + d.count + (rest.map Demand.count).sum < psBfs
      omega

/-- A line for which fewer than 512 pointers are put is safe. -/
theorem expandsInside_of_few {t : AliasTable Definition} {m : CString → Option Definition}
    (h : TableInv t m) (listing : List CString) {tokens : Block (Option CString)}
    {l : List CString} (htokens : tokens.contents = .ret l)
    (hfew : (l.map fun tok => (demand t m listing tok).count).sum < psBfs) :
    ExpandsInside t listing tokens := by
  rw [expandsInside_of_table h listing htokens]
  refine lineFits_of_lt ⟨Nat.zero_le _, Nat.le_refl _⟩ (Nat.le_refl _) ?_
  rw [List.map_map]
  show 0 + _ < psBfs
  rw [Nat.zero_add]
  exact hfew

end WizardShell.Ports
