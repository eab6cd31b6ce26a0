import WizardShell.Ports.Redirection

/-!
# Building `argv`

`prep` copies the words of a command into a fresh array and cuts the first of
them to what follows its last `/`.  It uses one index for reading the tokens
and for writing the array, so a token that it skips leaves a cell of the array
as the allocator gave it, and it checks for room only after writing.

`receivesWords_iff_plain`: the program gets its words, whatever the fresh
memory held, exactly when there is nothing to skip and the tokens fit.
`prepInside_iff`: nothing is written outside the array exactly for fewer tokens
than it has cells.
-/

namespace WizardShell.Ports

open Function
open WizardShell.Verified

/-- `PS_BFS`, the first capacity and the growth of the token arrays. -/
def psBfs : Nat := 512

/-- The tokens `prep` copies. -/
def isWord (tok : CString) : Bool := isNotRedirect tok && tok ≠ tokAmp

/-- The copying loop: `pos` indexes both the tokens and `argv`. -/
def prepLoop : List CString → Nat → Nat → Block (Option CString) →
    Outcome (Nat × Block (Option CString))
  | [], _, pos, argv => .ret (pos, argv)
  | tok :: rest, bufsize, pos, argv =>
      if isWord tok then do
        let argv ← argv.write pos (some tok)
        if pos ≥ bufsize then
          prepLoop rest (bufsize + psBfs) (pos + 1)
            (argv.resize (bufsize + psBfs))
        else prepLoop rest bufsize (pos + 1) argv
      else prepLoop rest bufsize (pos + 1) argv

/-- `prep(tokens)`, with `fresh` what the memory for `argv` held. -/
def prep (fresh : Nat → Option CString) (tokens : List CString) :
    Outcome (Block (Option CString)) := do
  let (pos, argv) ← prepLoop tokens psBfs 0 (Block.alloc psBfs fresh)
  let argv ← argv.write pos none
  match argv.cell 0 with
  | none => return argv
  | some arg0 =>
      match arg0.strrchrNext 47 with
      | none => return argv
      | some last => argv.write 0 (some last)

/-! ## What the program should receive -/

/-- The tokens that are not `<`, `>`, `>>` or `&` and do not stand right
behind a redirection operator; `prev` is the token before the list. -/
def words (prev : CString) : List CString → List CString
  | [] => []
  | tok :: rest =>
      if isWord tok && isNotRedirect prev then tok :: words tok rest
      else words tok rest

/-- The part of a word behind its last `/`. -/
def baseName (tok : CString) : CString := (tok.strrchrNext 47).getD tok

/-- The words with only the first cut to its base name. -/
def cutFirst : List CString → List CString
  | [] => []
  | tok :: rest => baseName tok :: rest

/-- `execvp` gets the command `firstNonredirect` finds, and an `argv` that
reads as the words of the line, whatever the fresh memory held. -/
def ReceivesWords (tokens : List CString) : Prop :=
  ∀ fresh : Nat → Option CString, ∃ argv command,
    prep fresh tokens = .ret argv ∧
    argv.contents = .ret (cutFirst (words .empty tokens)) ∧
    firstNonredirect tokens .empty = .ret command ∧
    argv.cell 0 = some (baseName command)

/-- `ls > out` is accepted, but a stale pointer stays between its two cells. -/
theorem not_receivesWords_redirect :
    Accepted [.lit ['l', 's'], tokOut, .lit ['o', 'u', 't']] ∧
    ¬ ReceivesWords [.lit ['l', 's'], tokOut, .lit ['o', 'u', 't']] := by
  constructor
  · exact ⟨{ input := .empty, output := .lit ['o', 'u', 't'],
             isOutputDouble := false }, by rfl⟩
  · intro h
    obtain ⟨argv, command, hprep, hcontents, _⟩ := h fun _ => some (.lit ['x'])
    obtain ⟨hlen, hcells⟩ := Block.contents_eq_ret.mp hcontents
    have hstale : ((prep (fun _ => some (.lit ['x']))
        [.lit ['l', 's'], tokOut, .lit ['o', 'u', 't']]).value?.map
          fun b => b.cell 1) = some (some (.lit ['x'])) := by rfl
    rw [hprep] at hstale
    have h1 : argv.cell 1 = some (.lit ['x']) := by simpa using hstale
    have h2 := hcells 1 (by decide)
    rw [h1] at h2
    exact absurd h2 (by decide)

/-! ## Nothing to skip and room for all -/

/-- Tokens that are all words and fit are copied one after another. -/
theorem prepLoop_of_words {tokens : List CString}
    (hwords : ∀ tok ∈ tokens, isWord tok = true) :
    ∀ (pos : Nat) (b : Block (Option CString)), pos + tokens.length ≤ b.cap →
    ∃ b', prepLoop tokens b.cap pos b = .ret (pos + tokens.length, b') ∧
      b'.cap = b.cap ∧ (∀ i, i < pos → b'.cell i = b.cell i) ∧
      ∀ i, i < tokens.length → b'.cell (pos + i) = tokens[i]? := by
  induction tokens with
  | nil =>
      intro pos b _
      exact ⟨b, rfl, rfl, fun _ _ => rfl, by simp⟩
  | cons tok rest ih =>
      intro pos b hfit
      rw [List.length_cons] at hfit
      have htok : isWord tok = true := hwords tok (by simp)
      obtain ⟨b', hloop, hcap, hlow, hhigh⟩ :=
        ih (fun t ht => hwords t (by simp [ht])) (pos + 1)
          (b.set pos (some tok)) (by rw [Block.set_cap]; omega)
      refine ⟨b', ?_, hcap, fun i hi => ?_, fun i hi => ?_⟩
      · have hroom : ¬ pos ≥ b.cap := by omega
        simp only [prepLoop, if_pos htok, Block.write_of_lt (by omega : pos < b.cap),
          Outcome.ret_bind, if_neg hroom]
        rw [← Block.set_cap b pos (some tok), hloop, List.length_cons,
          Nat.add_assoc pos 1, Nat.add_comm 1]
      · rw [hlow i (by omega), Block.set_cell_ne b _ (by omega)]
      · cases i with
        | zero =>
            rw [Nat.add_zero, hlow pos (by omega), Block.set_cell_self]
            rfl
        | succ i =>
            rw [List.length_cons] at hi
            have h := hhigh i (by omega)
            rw [show pos + (i + 1) = pos + 1 + i by omega, h]
            simp

/-- Words that do not fit are written behind the end of the array before it
is grown. -/
theorem prepLoop_overflow {tokens : List CString}
    (hwords : ∀ tok ∈ tokens, isWord tok = true) :
    ∀ (pos : Nat) (b : Block (Option CString)), pos ≤ b.cap →
    b.cap < pos + tokens.length →
    prepLoop tokens b.cap pos b = .undefined := by
  induction tokens with
  | nil =>
      intro pos b hpos hover
      simp at hover
      omega
  | cons tok rest ih =>
      intro pos b hpos hover
      rw [List.length_cons] at hover
      have htok : isWord tok = true := hwords tok (by simp)
      by_cases hroom : pos < b.cap
      · have hno : ¬ pos ≥ b.cap := by omega
        simp only [prepLoop, if_pos htok, Block.write_of_lt hroom,
          Outcome.ret_bind, if_neg hno]
        exact ih (fun t ht => hwords t (by simp [ht])) (pos + 1)
          (b.set pos (some tok)) (by rw [Block.set_cap]; omega)
          (by rw [Block.set_cap]; omega)
      · simp [prepLoop, htok, Block.write_of_le (Nat.le_of_not_lt hroom)]

/-- Whatever the tokens, the loop ends behind the last of them, and a cell
that held a pointer still holds one. -/
theorem prepLoop_keeps {tokens : List CString} :
    ∀ {bufsize pos pos' : Nat} {b b' : Block (Option CString)},
    prepLoop tokens bufsize pos b = .ret (pos', b') →
    pos' = pos + tokens.length ∧
      ∀ i, b.cell i ≠ none → b'.cell i ≠ none := by
  induction tokens with
  | nil =>
      intro bufsize pos pos' b b' h
      cases h
      exact ⟨rfl, fun _ h => h⟩
  | cons tok rest ih =>
      intro bufsize pos pos' b b' h
      rw [List.length_cons]
      unfold prepLoop at h
      split at h
      · obtain ⟨mid, hwrite, h⟩ := Outcome.bind_eq_ret.mp h
        obtain ⟨_, rfl⟩ := Block.write_eq_ret.mp hwrite
        split at h
        · obtain ⟨hpos, hcells⟩ := ih h
          exact ⟨by omega, fun i hi => hcells i (Block.set_cell_ne_none hi)⟩
        · obtain ⟨hpos, hcells⟩ := ih h
          exact ⟨by omega, fun i hi => hcells i (Block.set_cell_ne_none hi)⟩
      · obtain ⟨hpos, hcells⟩ := ih h
        exact ⟨by omega, hcells⟩

/-- In memory full of stale pointers the array reads as long as the tokens. -/
theorem prep_length_of_stale {tokens : List CString} {stale : CString}
    {argv : Block (Option CString)} {l : List CString}
    (hprep : prep (fun _ => some stale) tokens = .ret argv)
    (hread : argv.contents = .ret l) : tokens.length ≤ l.length := by
  obtain ⟨⟨pos, b⟩, hloop, hrest⟩ := Outcome.bind_eq_ret.mp hprep
  obtain ⟨hpos, hkeep⟩ := prepLoop_keeps hloop
  rw [Nat.zero_add] at hpos
  subst hpos
  obtain ⟨b', hwrite, hrest⟩ := Outcome.bind_eq_ret.mp hrest
  obtain ⟨_, rfl⟩ := Block.write_eq_ret.mp hwrite
  -- Below the final NULL every cell holds a pointer, also after the cut.
  have hcells : ∀ i, i < tokens.length → argv.cell i ≠ none := by
    intro i hi
    have hb : b.cell i ≠ none := hkeep i (by simp)
    have hbelow : (b.set tokens.length none).cell i ≠ none := by
      rwa [Block.set_cell_ne b _ (Nat.ne_of_lt hi)]
    split at hrest
    · cases hrest
      exact hbelow
    · split at hrest
      · cases hrest
        exact hbelow
      · obtain ⟨_, rfl⟩ := Block.write_eq_ret.mp hrest
        exact Block.set_cell_ne_none hbelow
  obtain ⟨_, hl⟩ := Block.contents_eq_ret.mp hread
  by_contra hlt
  have hnull := hl l.length (Nat.le_refl _)
  rw [List.getElem?_eq_none (Nat.le_refl _)] at hnull
  exact hcells l.length (by omega) hnull

/-! ## The exact condition -/

theorem words_length_le (prev : CString) (tokens : List CString) :
    (words prev tokens).length ≤ tokens.length := by
  induction tokens generalizing prev with
  | nil => simp [words]
  | cons tok rest ih =>
      have h := ih tok
      unfold words
      split <;> simp only [List.length_cons] <;> omega

/-- A token that is no word is missing from the words. -/
theorem words_length_lt (prev : CString) {tokens : List CString}
    (h : ∃ tok ∈ tokens, isWord tok = false) :
    (words prev tokens).length < tokens.length := by
  induction tokens generalizing prev with
  | nil => simp at h
  | cons tok rest ih =>
      have hle := words_length_le tok rest
      cases htok : isWord tok with
      | false =>
          simp only [words, htok, Bool.false_and, List.length_cons]
          exact Nat.lt_succ_of_le hle
      | true =>
          obtain ⟨t, ht, hbad⟩ := h
          have hrest : ∃ t ∈ rest, isWord t = false := by
            rcases List.mem_cons.mp ht with rfl | ht
            · rw [htok] at hbad
              cases hbad
            · exact ⟨t, ht, hbad⟩
          have hlt := ih tok hrest
          unfold words
          split <;> simp only [List.length_cons] <;> omega

theorem isNotRedirect_of_isWord {tok : CString} (h : isWord tok = true) :
    isNotRedirect tok = true := by
  simp only [isWord, Bool.and_eq_true] at h
  exact h.1

/-- Tokens that are all words are their own words. -/
theorem words_of_plain {prev : CString} {tokens : List CString}
    (hprev : isNotRedirect prev = true)
    (hwords : ∀ tok ∈ tokens, isWord tok = true) : words prev tokens = tokens := by
  induction tokens generalizing prev with
  | nil => rfl
  | cons tok rest ih =>
      have htok : isWord tok = true := hwords tok (by simp)
      have hrest := ih (isNotRedirect_of_isWord htok)
        fun t ht => hwords t (by simp [ht])
      simp [words, htok, hprev, hrest]

@[simp] theorem cutFirst_length (l : List CString) :
    (cutFirst l).length = l.length := by
  cases l <;> rfl

/-- Behind the loop `prep` ends the array and cuts its first cell. -/
theorem prep_of_loop {fresh : Nat → Option CString} {tokens : List CString} {pos : Nat}
    {b : Block (Option CString)} {tok : CString}
    (hloop : prepLoop tokens psBfs 0 (Block.alloc psBfs fresh) = .ret (pos, b))
    (hroom : pos < b.cap) (hfirst : (b.set pos none).cell 0 = some tok) :
    prep fresh tokens = .ret ((b.set pos none).set 0 (some (baseName tok))) := by
  unfold prep
  simp only [hloop, Outcome.ret_bind, Block.write_of_lt hroom, hfirst, baseName]
  cases tok.strrchrNext 47 with
  | none =>
      show Outcome.ret (b.set pos none) = _
      rw [Option.getD_none, Block.set_eq_self hfirst]
  | some last =>
      show (b.set pos none).write 0 (some last) = _
      exact Block.write_of_lt (by rw [Block.set_cap]; omega) _

/-- An array of words, ended behind them, reads as these words. -/
theorem contents_of_words {b : Block (Option CString)} {tok arg0 : CString}
    {rest : List CString} (hroom : rest.length + 1 < b.cap)
    (hcells : ∀ i, i < rest.length + 1 → b.cell i = (tok :: rest)[i]?) :
    ((b.set (rest.length + 1) none).set 0 (some arg0)).contents = .ret (arg0 :: rest) := by
  rw [Block.contents_eq_ret]
  refine ⟨by simp only [List.length_cons, Block.set_cap]; omega, fun i hi => ?_⟩
  rw [List.length_cons] at hi
  cases i with
  | zero => exact Block.set_cell_self _ 0 _
  | succ i =>
      rw [Block.set_cell_ne _ _ (by omega), List.getElem?_cons_succ]
      by_cases hlast : i = rest.length
      · subst hlast
        rw [Block.set_cell_self, List.getElem?_eq_none (Nat.le_refl _)]
      · rw [Block.set_cell_ne b _ (by omega), hcells (i + 1) (by omega),
          List.getElem?_cons_succ]

/-- With nothing to skip and fewer than 512 tokens, the array reads as the
words. -/
theorem receivesWords_of_plain {tokens : List CString} (hne : tokens ≠ [])
    (hwords : ∀ tok ∈ tokens, isWord tok = true)
    (hfit : tokens.length < psBfs) : ReceivesWords tokens := by
  intro fresh
  cases tokens with
  | nil => exact absurd rfl hne
  | cons tok rest =>
      rw [List.length_cons] at hfit
      have htok : isWord tok = true := hwords tok (by simp)
      obtain ⟨b, hloop, hcap, _, hcells⟩ :=
        prepLoop_of_words hwords 0 (Block.alloc psBfs fresh)
          (by simp only [List.length_cons, Block.alloc_cap]; omega)
      rw [Block.alloc_cap] at hloop hcap
      simp only [Nat.zero_add, List.length_cons] at hloop hcells
      have hroom : rest.length + 1 < b.cap := by omega
      have hfirst : (b.set (rest.length + 1) none).cell 0 = some tok := by
        rw [Block.set_cell_ne b _ (by omega)]
        simpa using hcells 0 (by omega)
      refine ⟨_, tok, prep_of_loop hloop hroom hfirst, ?_,
        firstNonredirect_of_plain (isNotRedirect_of_isWord htok), Block.set_cell_self _ 0 _⟩
      rw [words_of_plain isNotRedirect_empty hwords, cutFirst]
      exact contents_of_words hroom hcells

/-- **When the program receives its words.**  For a non-empty line, accepted
or not: exactly when no token is an operator or `&`, and there are fewer than
512. -/
theorem receivesWords_iff_plain (tokens : List CString) (hne : tokens ≠ []) :
    ReceivesWords tokens ↔
      (∀ tok ∈ tokens, tok ≠ tokIn ∧ tok ≠ tokOut ∧ tok ≠ tokAppend ∧
        tok ≠ tokAmp) ∧ tokens.length < 512 := by
  have hplain : (∀ tok ∈ tokens, tok ≠ tokIn ∧ tok ≠ tokOut ∧
      tok ≠ tokAppend ∧ tok ≠ tokAmp) ↔ ∀ tok ∈ tokens, isWord tok = true := by
    refine forall₂_congr fun tok _ => ?_
    simp [isWord, isNotRedirect, and_assoc]
  rw [hplain]
  constructor
  · intro h
    obtain ⟨argv, _, hprep, hread, _⟩ := h fun _ => some .empty
    have hlen := prep_length_of_stale hprep hread
    rw [cutFirst_length] at hlen
    have hwords : ∀ tok ∈ tokens, isWord tok = true := by
      intro tok htok
      by_contra hbad
      have hlt := words_length_lt .empty
        ⟨tok, htok, Bool.eq_false_iff.mpr hbad⟩
      omega
    refine ⟨hwords, ?_⟩
    by_contra hlong
    -- The array has 512 cells: cell 511 is its last.
    obtain ⟨⟨pos, b⟩, hloop, hrest⟩ := Outcome.bind_eq_ret.mp hprep
    by_cases hexact : tokens.length = 512
    · obtain ⟨b', hloop', hcap, _⟩ := prepLoop_of_words hwords 0
        (Block.alloc psBfs fun _ => some .empty) (by simp [hexact, psBfs])
      rw [Block.alloc_cap, hloop, Outcome.ret.injEq, Prod.mk.injEq] at hloop'
      obtain ⟨rfl, rfl⟩ := hloop'
      rw [Block.alloc_cap] at hcap
      have hover : b.cap ≤ tokens.length := by
        rw [hcap, hexact]
        decide
      simp [Block.write_of_le hover] at hrest
    · have hover := prepLoop_overflow hwords 0
        (Block.alloc psBfs fun _ => some .empty) (Nat.zero_le _)
        (by simp only [Block.alloc_cap, psBfs]; omega)
      rw [Block.alloc_cap, hloop] at hover
      cases hover
  · rintro ⟨hwords, hfit⟩
    exact receivesWords_of_plain hne hwords hfit

/-- `/bin/ls -l` is such a line. -/
theorem receivesWords_iff_plain_ls :
    [CString.lit ['/', 'b', 'i', 'n', '/', 'l', 's'], .lit ['-', 'l']] ≠ [] ∧
    (ReceivesWords [.lit ['/', 'b', 'i', 'n', '/', 'l', 's'], .lit ['-', 'l']] ↔
      (∀ tok ∈ [CString.lit ['/', 'b', 'i', 'n', '/', 'l', 's'], .lit ['-', 'l']],
        tok ≠ tokIn ∧ tok ≠ tokOut ∧ tok ≠ tokAppend ∧ tok ≠ tokAmp) ∧
      [CString.lit ['/', 'b', 'i', 'n', '/', 'l', 's'], .lit ['-', 'l']].length
        < 512) :=
  ⟨by decide, receivesWords_iff_plain _ (by decide)⟩

/-! ## Writing inside the array -/

/-- `prep` runs through: every index that it writes, the final NULL included, is
below the capacity `argv` has at that moment. -/
def PrepInside (fresh : Nat → Option CString) (tokens : List CString) : Prop :=
  ∃ argv, prep fresh tokens = .ret argv

/-- With room for all tokens the loop stays inside, whichever of them it
copies. -/
theorem prepLoop_inside {tokens : List CString} :
    ∀ (pos : Nat) (b : Block (Option CString)), pos + tokens.length ≤ b.cap →
    ∃ b', prepLoop tokens b.cap pos b = .ret (pos + tokens.length, b') ∧ b'.cap = b.cap := by
  induction tokens with
  | nil => exact fun pos b _ => ⟨b, rfl, rfl⟩
  | cons tok rest ih =>
      intro pos b hfit
      rw [List.length_cons, Nat.add_comm rest.length, ← Nat.add_assoc] at hfit ⊢
      by_cases hword : isWord tok = true
      · have hroom : pos < b.cap := by omega
        obtain ⟨b', hloop, hcap⟩ := ih (pos + 1) (b.set pos (some tok)) hfit
        refine ⟨b', ?_, hcap⟩
        rw [prepLoop, if_pos hword, Block.write_of_lt hroom, Outcome.ret_bind,
          if_neg (Nat.not_le.mpr hroom)]
        exact hloop
      · obtain ⟨b', hloop, hcap⟩ := ih (pos + 1) b hfit
        refine ⟨b', ?_, hcap⟩
        rw [prepLoop, if_neg hword]
        exact hloop

/-- The array grows only after a write behind its end, so a loop that stays
inside leaves it as long as it was. -/
theorem prepLoop_cap {tokens : List CString} :
    ∀ {pos pos' : Nat} {b b' : Block (Option CString)},
    prepLoop tokens b.cap pos b = .ret (pos', b') → b'.cap = b.cap := by
  induction tokens with
  | nil =>
      intro pos pos' b b' h
      cases h
      rfl
  | cons tok rest ih =>
      intro pos pos' b b' h
      rw [prepLoop] at h
      split at h
      · obtain ⟨c, hwrite, h⟩ := Outcome.bind_eq_ret.mp h
        obtain ⟨hroom, rfl⟩ := Block.write_eq_ret.mp hwrite
        rw [if_neg (Nat.not_le.mpr hroom), ← Block.set_cap b pos (some tok)] at h
        have hcap := ih h
        exact hcap
      · exact ih h

/-- From 512 tokens on, at the latest the final NULL is written outside. -/
theorem not_prepInside_of_long (fresh : Nat → Option CString) {tokens : List CString}
    (hlong : 512 ≤ tokens.length) : ¬ PrepInside fresh tokens := by
  rintro ⟨argv, h⟩
  obtain ⟨⟨pos, b⟩, hloop, h⟩ := Outcome.bind_eq_ret.mp h
  obtain ⟨b', hwrite, _⟩ := Outcome.bind_eq_ret.mp h
  have hcap : b.cap = 512 := prepLoop_cap (b := Block.alloc psBfs fresh) hloop
  have hpos : pos = 0 + tokens.length := (prepLoop_keeps hloop).1
  have hroom : pos < b.cap := (Block.write_eq_ret.mp hwrite).1
  omega

/-- Behind the loop `prep` writes the NULL and, at most, the first cell. -/
theorem prepInside_of_loop {fresh : Nat → Option CString} {tokens : List CString} {pos : Nat}
    {b : Block (Option CString)}
    (hloop : prepLoop tokens psBfs 0 (Block.alloc psBfs fresh) = .ret (pos, b))
    (hroom : pos < b.cap) : PrepInside fresh tokens := by
  cases hfirst : (b.set pos none).cell 0 with
  | none =>
      refine ⟨b.set pos none, ?_⟩
      simp only [prep, hloop, Outcome.ret_bind, Block.write_of_lt hroom, hfirst,
        Outcome.pure_eq]
  | some tok => exact ⟨_, prep_of_loop hloop hroom hfirst⟩

/-- 512 words. -/
theorem not_prepInside_words :
    ¬ PrepInside (fun _ => none) (List.replicate 512 (.lit ['x'])) :=
  not_prepInside_of_long _ (Nat.le_of_eq List.length_replicate.symm)

/-- **When `argv` is written inside**: exactly for fewer than 512 tokens, whatever
they are. -/
theorem prepInside_iff (fresh : Nat → Option CString) (tokens : List CString) :
    PrepInside fresh tokens ↔ tokens.length < 512 := by
  constructor
  · intro h
    by_contra hlong
    exact not_prepInside_of_long fresh (Nat.not_lt.mp hlong) h
  · intro hfit
    have hroom : 0 + tokens.length ≤ (Block.alloc psBfs fresh).cap := by
      rw [Nat.zero_add, Block.alloc_cap, psBfs]
      exact Nat.le_of_lt hfit
    obtain ⟨b, hloop, hcap⟩ := prepLoop_inside 0 (Block.alloc psBfs fresh) hroom
    apply prepInside_of_loop hloop
    rw [hcap, Block.alloc_cap, psBfs, Nat.zero_add]
    exact hfit

/-! ## The cells of `argv` -/

/-- What stands in `argv` for the token at `i`: the token, or what was there. -/
def argvCell (fresh : Nat → Option CString) (tokens : List CString) (i : Nat) :
    Option CString := (tokens[i]?.filter isWord).or (fresh i)

/-- The loop fills the cells of the words, and leaves the others as they were. -/
theorem prepLoop_cells {tokens : List CString} :
    ∀ {bufsize pos pos' : Nat} {b b' : Block (Option CString)},
    prepLoop tokens bufsize pos b = .ret (pos', b') →
    (∀ i, i < pos → b'.cell i = b.cell i) ∧
      ∀ k, b'.cell (pos + k) = argvCell (fun k => b.cell (pos + k)) tokens k := by
  induction tokens with
  | nil =>
      intro bufsize pos pos' b b' h
      cases h
      exact ⟨fun _ _ => rfl, fun k => by simp [argvCell]⟩
  | cons tok rest ih =>
      intro bufsize pos pos' b b' h
      obtain ⟨bufsize₁, b₁, hother, hself, hloop⟩ : ∃ bufsize₁ b₁,
          (∀ i, i ≠ pos → b₁.cell i = b.cell i) ∧
          b₁.cell pos = ((some tok).filter isWord).or (b.cell pos) ∧
          prepLoop rest bufsize₁ (pos + 1) b₁ = .ret (pos', b') := by
        unfold prepLoop at h
        split at h
        · rename_i hword
          obtain ⟨mid, hwrite, h⟩ := Outcome.bind_eq_ret.mp h
          obtain ⟨_, rfl⟩ := Block.write_eq_ret.mp hwrite
          have hself : (b.set pos (some tok)).cell pos =
              ((some tok).filter isWord).or (b.cell pos) := by
            rw [Block.set_cell_self, Option.filter_some, if_pos hword]
            rfl
          have hother : ∀ i, i ≠ pos → (b.set pos (some tok)).cell i = b.cell i :=
            fun i hi => Block.set_cell_ne b _ hi
          split at h
          · exact ⟨_, (b.set pos (some tok)).resize (bufsize + psBfs), hother, hself, h⟩
          · exact ⟨_, b.set pos (some tok), hother, hself, h⟩
        · rename_i hword
          refine ⟨_, b, fun _ _ => rfl, ?_, h⟩
          rw [Option.filter_some, if_neg hword]
          rfl
      obtain ⟨hlow, hhigh⟩ := ih hloop
      refine ⟨fun i hi => ?_, fun k => ?_⟩
      · rw [hlow i (Nat.lt_succ_of_lt hi), hother i (Nat.ne_of_lt hi)]
      · cases k with
        | zero =>
            rw [Nat.add_zero, hlow pos (Nat.lt_succ_self pos), hself]
            rfl
        | succ k =>
            have hcell := hhigh k
            rw [Nat.add_assoc, Nat.add_comm 1] at hcell
            rw [hcell]
            show (rest[k]?.filter isWord).or (b₁.cell (pos + 1 + k)) =
              ((tok :: rest)[k + 1]?.filter isWord).or (b.cell (pos + (k + 1)))
            rw [List.getElem?_cons_succ, hother _ (by omega), Nat.add_assoc, Nat.add_comm 1]

/-- **What `prep` makes of any tokens**: the words in their places, the first one cut
to its base name, in the other places what the memory held, and a NULL behind. -/
theorem prep_cells {fresh : Nat → Option CString} {tokens : List CString}
    {argv : Block (Option CString)} (h : prep fresh tokens = .ret argv) :
    tokens.length < argv.cap ∧ argv.cell tokens.length = none ∧
      (tokens ≠ [] → argv.cell 0 = (argvCell fresh tokens 0).map baseName) ∧
      ∀ k, 0 < k → k < tokens.length → argv.cell k = argvCell fresh tokens k := by
  obtain ⟨⟨pos, b⟩, hloop, h⟩ := Outcome.bind_eq_ret.mp h
  obtain ⟨c, hwrite, h⟩ := Outcome.bind_eq_ret.mp h
  obtain ⟨hroom, rfl⟩ := Block.write_eq_ret.mp hwrite
  obtain ⟨hpos, _⟩ := prepLoop_keeps hloop
  obtain ⟨_, hcells⟩ := prepLoop_cells hloop
  rw [Nat.zero_add] at hpos
  subst hpos
  have hcell : ∀ k, k ≠ tokens.length →
      (b.set tokens.length none).cell k = argvCell fresh tokens k := by
    intro k hk
    have hk' : b.cell (0 + k) = (tokens[k]?.filter isWord).or (fresh (0 + k)) := hcells k
    rw [Nat.zero_add] at hk'
    rw [Block.set_cell_ne b _ hk, hk']
    rfl
  -- The cut leaves all but the first cell alone.
  have hcut : argv.cap = b.cap ∧ argv.cell 0 = ((b.set tokens.length none).cell 0).map baseName ∧
      ∀ k, 0 < k → argv.cell k = (b.set tokens.length none).cell k := by
    cases hfirst : (b.set tokens.length none).cell 0 with
    | none =>
        simp only [hfirst] at h
        cases h
        exact ⟨rfl, hfirst, fun _ _ => rfl⟩
    | some tok =>
        simp only [hfirst] at h
        cases hlast : tok.strrchrNext 47 with
        | none =>
            simp only [hlast] at h
            cases h
            refine ⟨rfl, ?_, fun _ _ => rfl⟩
            rw [hfirst, Option.map_some, baseName, hlast]
            rfl
        | some last =>
            simp only [hlast] at h
            obtain ⟨_, rfl⟩ := Block.write_eq_ret.mp h
            refine ⟨rfl, ?_, fun k hk => Block.set_cell_ne _ _ (Nat.ne_of_gt hk)⟩
            rw [Block.set_cell_self, Option.map_some, baseName, hlast]
            rfl
  obtain ⟨hcap, hzero, hrest⟩ := hcut
  refine ⟨by rwa [hcap], ?_, fun hne => ?_, fun k hk hlt => ?_⟩
  · by_cases hlen : tokens.length = 0
    · rw [hlen, hzero, hlen, Block.set_cell_self]
      rfl
    · rw [hrest _ (Nat.pos_of_ne_zero hlen), Block.set_cell_self]
  · rw [hzero, hcell 0 fun hlen => hne (List.length_eq_zero_iff.mp hlen.symm)]
  · rw [hrest k hk, hcell k (Nat.ne_of_lt hlt)]

end WizardShell.Ports
