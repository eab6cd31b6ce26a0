import WizardShell.Ports.ChildSetup
import WizardShell.Ports.SessionRuns

/-!
# A command and the line that spells it

What one means by a line without aliases is a program, its arguments, a file for the
input, one for the output, and whether to wait (`CommandLine`).  Such a command is
spelled out by its words, the redirections in either order, and `&`, with blanks as one
likes (`CommandLine.Spells`).

`commandLine_runs_iff`: from the tokenizer to `execvp` the shell keeps what was meant, if
the program has no name that the loop takes for itself, except that `argv` has no end of
its own in front of a redirection or `&`: there it ends where the memory of the array
happened to hold NULL.
-/

namespace WizardShell.Ports

open Function
open WizardShell.Verified
open TrieNode (null)

/-- A token that is no operator and no shortcut. -/
structure PlainWord where
  text : CString
  nonempty : text ≠ .empty
  isWord : isWord text = true
  noHome : text ≠ tokHome
  noStar : text ≠ tokStar

/-- What one means by a line. -/
structure CommandLine where
  program : PlainWord
  args : List PlainWord
  input : Option PlainWord
  /-- The file for the output, and whether the output goes behind what is in it. -/
  output : Option (PlainWord × Bool)
  isBackground : Bool

namespace CommandLine

def words (c : CommandLine) : List CString := (c.program :: c.args).map PlainWord.text

def inputTokens (c : CommandLine) : List CString :=
  match c.input with
  | none => []
  | some file => [tokIn, file.text]

def outputTokens (c : CommandLine) : List CString :=
  match c.output with
  | none => []
  | some (file, false) => [tokOut, file.text]
  | some (file, true) => [tokAppend, file.text]

def ampTokens (c : CommandLine) : List CString := if c.isBackground then [tokAmp] else []

/-- The tokens are those of the command, with the redirections in either order. -/
inductive Spells (c : CommandLine) : List CString → Prop
  | inputFirst : Spells c (c.words ++ (c.inputTokens ++ c.outputTokens ++ c.ampTokens))
  | outputFirst : Spells c (c.words ++ (c.outputTokens ++ c.inputTokens ++ c.ampTokens))

/-- The redirection that the scan should find. -/
def redirection (c : CommandLine) : Redirection where
  input := c.input.elim .empty PlainWord.text
  output := c.output.elim .empty fun out => out.1.text
  isOutputDouble := c.output.elim false Prod.snd

/-- The program is none that the loop looks for before it forks: no builtin, and neither
`splash` nor `alias` in whatever directory. -/
structure NamesProgram (c : CommandLine) : Prop where
  noBuiltin : builtinOf c.program.text = none
  noSplash : baseName c.program.text ≠ cmdSplash
  noAlias : baseName c.program.text ≠ cmdAlias

/-- There is nothing behind the words. -/
def IsSimple (c : CommandLine) : Prop :=
  c.input = none ∧ c.output = none ∧ c.isBackground = false

end CommandLine

/-! ## The scan -/

section Scan

variable {s s' : ScanState} {tokens rest : List CString} {file : CString}

theorem ne_amp_of_isWord {tok : CString} (h : isWord tok = true) : tok ≠ tokAmp := by
  rw [isWord, Bool.and_eq_true] at h
  exact of_decide_eq_true h.2

/-- Tokens that are no operators leave the accumulators alone. -/
theorem scanLoop_plain (h : ∀ tok ∈ tokens, isNotRedirect tok = true) :
    scanLoop s (tokens ++ rest) = .ok s' ↔ scanLoop s rest = .ok s' := by
  induction tokens with
  | nil => rfl
  | cons tok tokens ih =>
      have htok := h tok List.mem_cons_self
      simp only [isNotRedirect, ne_eq, Bool.and_eq_true, decide_eq_true_eq] at htok
      obtain ⟨⟨hin, hout⟩, happend⟩ := htok
      rw [List.cons_append, scanLoop_cons, scanStep_word hin hout happend,
        ← ih fun tok' htok' => h tok' (List.mem_cons_of_mem tok htok')]
      simp

/-- An operator takes the token behind it. -/
theorem scanLoop_operand {op : CString} {t : ScanState}
    (hstep : scanStep s op (some file) = .ok t) (hfile : isNotRedirect file = true) :
    scanLoop s (op :: file :: rest) = .ok s' ↔ scanLoop t rest = .ok s' := by
  have hplain : scanLoop t (file :: rest) = .ok s' ↔ scanLoop t rest = .ok s' :=
    scanLoop_plain (List.forall_mem_singleton.mpr hfile)
  rw [scanLoop_cons, List.head?_cons, hstep]
  simp [hplain]

end Scan

namespace CommandLine

variable {c : CommandLine} {tokens : List CString}

theorem words_isWord (c : CommandLine) : ∀ tok ∈ c.words, isWord tok = true := by
  intro tok htok
  obtain ⟨w, _, rfl⟩ := List.mem_map.mp htok
  exact w.isWord

/-- The accumulator for the input behind its tokens. -/
theorem scanLoop_input {s s' : ScanState} {rest : List CString} (hs : s.input = .empty) :
    scanLoop s (c.inputTokens ++ rest) = .ok s' ↔
      scanLoop { s with input := c.redirection.input } rest = .ok s' := by
  unfold inputTokens redirection
  cases hinput : c.input with
  | none =>
      have hsame : ({ s with input := .empty } : ScanState) = s := by
        cases s
        cases hs
        rfl
      show scanLoop s rest = .ok s' ↔ _
      rw [← hsame]
      rfl
  | some file =>
      exact scanLoop_operand (scanStep_in.mpr ⟨hs, _, rfl, rfl⟩)
        (isNotRedirect_of_isWord file.isWord)

/-- The accumulators for the output. -/
def scanned (c : CommandLine) (s : ScanState) : ScanState :=
  match c.output with
  | none => s
  | some (file, false) => { s with clobber := file.text }
  | some (file, true) => { s with dclobber := file.text }

theorem scanLoop_output {s s' : ScanState} {rest : List CString} (hs : s.clobber = .empty)
    (hs' : s.dclobber = .empty) :
    scanLoop s (c.outputTokens ++ rest) = .ok s' ↔ scanLoop (c.scanned s) rest = .ok s' := by
  unfold outputTokens scanned
  match c.output with
  | none => rfl
  | some (file, false) =>
      exact scanLoop_operand (scanStep_out.mpr ⟨hs, _, rfl, rfl⟩)
        (isNotRedirect_of_isWord file.isWord)
  | some (file, true) =>
      exact scanLoop_operand (scanStep_append.mpr ⟨hs', _, rfl, rfl⟩)
        (isNotRedirect_of_isWord file.isWord)

theorem scanned_input (s : ScanState) (file : CString) :
    { c.scanned s with input := file } = c.scanned { s with input := file } := by
  unfold scanned
  split <;> rfl

/-- **The scan finds what was meant.** -/
theorem Spells.scan_eq (h : c.Spells tokens) : scan tokens = .ok c.redirection := by
  have hamp : ∀ s : ScanState, scanLoop s c.ampTokens = .ok s := by
    intro s
    refine scanLoop_of_plain s fun tok htok => ?_
    unfold ampTokens at htok
    split at htok
    · rw [List.mem_singleton.mp htok]
      decide
    · cases htok
  have hplain : ∀ tok ∈ c.words, isNotRedirect tok = true :=
    fun tok htok => isNotRedirect_of_isWord (c.words_isWord tok htok)
  have hloop : scanLoop .start tokens =
      .ok (c.scanned { ScanState.start with input := c.redirection.input }) := by
    cases h with
    | inputFirst =>
        rw [scanLoop_plain hplain, List.append_assoc, scanLoop_input rfl,
          scanLoop_output rfl rfl, hamp]
    | outputFirst =>
        have hinput : (c.scanned .start).input = .empty := by
          unfold scanned
          split <;> rfl
        rw [scanLoop_plain hplain, List.append_assoc, scanLoop_output rfl rfl,
          scanLoop_input hinput, hamp, scanned_input]
  refine scan_eq_ok.mpr ⟨_, hloop, ?_, ?_⟩
  · unfold scanned
    split
    · exact .inl rfl
    · exact .inr rfl
    · exact .inl rfl
  · unfold scanned redirection ScanState.redirection
    match c.output with
    | none => rfl
    | some (file, false) => rfl
    | some (file, true) =>
        simp [file.nonempty]

/-! ## The command and its `argv` -/

theorem Spells.firstNonredirect_eq (h : c.Spells tokens) :
    firstNonredirect tokens .empty = .ret c.program.text := by
  have hprogram : isNotRedirect c.program.text = true :=
    isNotRedirect_of_isWord c.program.isWord
  cases h with
  | inputFirst => exact firstNonredirect_found hprogram rfl
  | outputFirst => exact firstNonredirect_found hprogram rfl

theorem ppstrFinal_eq (tokens : List CString) : ppstrFinal tokens = tokens.getLast? := by
  induction tokens with
  | nil => rfl
  | cons tok rest ih =>
      cases rest with
      | nil => rfl
      | cons next rest => rw [ppstrFinal, ih, List.getLast?_cons_cons]; exact fun h => by cases h

theorem inputTokens_spec (c : CommandLine) : (c.inputTokens = [] ↔ c.input = none) ∧
    (∀ tok ∈ c.inputTokens.head?, isWord tok = false) ∧ tokAmp ∉ c.inputTokens := by
  unfold inputTokens
  cases c.input with
  | none => simp
  | some file =>
      have hfile := ne_amp_of_isWord file.isWord
      refine ⟨by simp, fun tok htok => ?_, ?_⟩
      · cases htok
        rfl
      · simp only [List.mem_cons, List.not_mem_nil, or_false, not_or]
        exact ⟨by decide, Ne.symm hfile⟩

theorem outputTokens_spec (c : CommandLine) : (c.outputTokens = [] ↔ c.output = none) ∧
    (∀ tok ∈ c.outputTokens.head?, isWord tok = false) ∧ tokAmp ∉ c.outputTokens := by
  have hop : ∀ (op : CString) (file : PlainWord), isWord op = false → op ≠ tokAmp →
      (∀ tok ∈ [op, file.text].head?, isWord tok = false) ∧ tokAmp ∉ [op, file.text] := by
    intro op file hword hne
    refine ⟨fun tok htok => ?_, ?_⟩
    · cases htok
      exact hword
    · simp only [List.mem_cons, List.not_mem_nil, or_false, not_or]
      exact ⟨Ne.symm hne, Ne.symm (ne_amp_of_isWord file.isWord)⟩
  unfold outputTokens
  match c.output with
  | none => simp
  | some (file, false) => exact ⟨by simp, hop tokOut file (by decide) (by decide)⟩
  | some (file, true) => exact ⟨by simp, hop tokAppend file (by decide) (by decide)⟩

/-- The tokens are the words, and what stands behind them begins with no word. -/
theorem Spells.exists_rest (h : c.Spells tokens) : ∃ rest, tokens = c.words ++ rest ∧
    (rest = [] ↔ c.IsSimple) ∧ (∀ tok ∈ rest.head?, isWord tok = false) ∧
    (ppstrFinal tokens = some tokAmp ↔ c.isBackground = true) := by
  obtain ⟨hinNil, hinHead, hinAmp⟩ := c.inputTokens_spec
  obtain ⟨houtNil, houtHead, houtAmp⟩ := c.outputTokens_spec
  have hwords : tokAmp ∉ c.words := fun hmem =>
    ne_amp_of_isWord (c.words_isWord tokAmp hmem) rfl
  have hmid : ∃ mid, tokens = c.words ++ (mid ++ c.ampTokens) ∧
      (mid = [] ↔ c.input = none ∧ c.output = none) ∧
      (∀ tok ∈ mid.head?, isWord tok = false) ∧ tokAmp ∉ mid := by
    have happend : ∀ {xs ys : List CString}, (∀ tok ∈ xs.head?, isWord tok = false) →
        (∀ tok ∈ ys.head?, isWord tok = false) →
        ∀ tok ∈ (xs ++ ys).head?, isWord tok = false := by
      intro xs ys hxs hys
      cases xs with
      | nil => exact hys
      | cons x xs => exact hxs
    cases h with
    | inputFirst =>
        refine ⟨_, rfl, ?_, happend hinHead houtHead, by simp [hinAmp, houtAmp]⟩
        rw [List.append_eq_nil_iff, hinNil, houtNil]
    | outputFirst =>
        refine ⟨_, rfl, ?_, happend houtHead hinHead, by simp [hinAmp, houtAmp]⟩
        rw [List.append_eq_nil_iff, hinNil, houtNil, and_comm]
  obtain ⟨mid, rfl, hnil, hhead, hnone⟩ := hmid
  refine ⟨mid ++ c.ampTokens, rfl, ?_, ?_, ?_⟩
  · rw [List.append_eq_nil_iff, hnil, IsSimple, and_assoc]
    cases hback : c.isBackground <;> simp [ampTokens, hback]
  · cases mid with
    | cons tok mid => exact hhead
    | nil =>
        intro tok htok
        unfold ampTokens at htok
        split at htok
        · cases htok
          rfl
        · cases htok
  · rw [ppstrFinal_eq]
    cases hback : c.isBackground with
    | true => simp [ampTokens, hback]
    | false =>
        have hamp : c.ampTokens = [] := by simp [ampTokens, hback]
        rw [hamp, List.append_nil]
        refine iff_of_false (fun hlast => ?_) (by simp)
        rcases List.mem_append.mp (List.mem_of_getLast? hlast) with hmem | hmem
        · exact hwords hmem
        · exact hnone hmem

/-- What `prep` makes of the tokens reads as the words when nothing stands behind them,
or when the memory has a NULL there. -/
theorem Spells.argv_reads_iff (h : c.Spells tokens) {fresh : Nat → Option CString}
    {argv : Block (Option CString)} (hprep : prep fresh tokens = .ret argv) :
    argv.contents = .ret (cutFirst c.words) ↔ c.IsSimple ∨ fresh c.words.length = none := by
  obtain ⟨rest, rfl, hsimple, hhead, _⟩ := h.exists_rest
  obtain ⟨hcap, hnull, hfirst, hcells⟩ := prep_cells hprep
  have hlen : (cutFirst c.words).length = c.words.length := rfl
  have hwords : ∀ i, i < c.words.length → argv.cell i = (cutFirst c.words)[i]? := by
    intro i hi
    have hcell : argvCell fresh (c.words ++ rest) i = c.words[i]? := by
      have hword := c.words_isWord c.words[i] (List.getElem_mem hi)
      rw [argvCell, List.getElem?_append_left hi, List.getElem?_eq_getElem hi,
        Option.filter_some, if_pos hword]
      rfl
    cases i with
    | zero =>
        rw [hfirst (by simp [words]), hcell]
        rfl
    | succ i =>
        rw [hcells (i + 1) (Nat.succ_pos i) (by rw [List.length_append]; omega), hcell]
        rfl
  have hend : argv.cell c.words.length = none ↔
      c.IsSimple ∨ fresh c.words.length = none := by
    cases rest with
    | nil =>
        rw [List.append_nil] at hnull
        exact iff_of_true hnull (.inl (hsimple.mp rfl))
    | cons tok rest =>
        have hnot : ¬ c.IsSimple := fun h => by cases hsimple.mpr h
        have hword : isWord tok = false := hhead tok rfl
        have hpos : 0 < c.words.length := Nat.succ_pos _
        rw [hcells c.words.length hpos (by simp), argvCell, List.getElem?_append_right
          (Nat.le_refl _), Nat.sub_self, List.getElem?_cons_zero, Option.filter_some, hword]
        simp [hnot]
  rw [← hend, Block.contents_eq_ret]
  have hinside : c.words.length < argv.cap := by
    rw [List.length_append] at hcap
    omega
  constructor
  · rintro ⟨_, hall⟩
    rw [hall _ (Nat.le_of_eq hlen.symm), List.getElem?_eq_none (Nat.le_of_eq hlen)]
  · intro hnone
    refine ⟨hinside, fun i hi => ?_⟩
    rcases Nat.lt_or_eq_of_le hi with hlt | rfl
    · exact hwords i hlt
    · rw [List.getElem?_eq_none (Nat.le_refl _)]
      exact hnone

/-! ## What the child becomes -/

/-- The flags that go with the output. -/
def flags (isAppend : Bool) : OpenFlags := if isAppend then .append else .trunc

section Child

variable {ι : Type} [DecidableEq ι]

/-- What the kernel has to grant for the command to be run: the shell has standard streams,
the files can be opened, the program can be run, and a shell that waits ignores `SIGTTOU`. -/
structure Granted (c : CommandLine) (env : Environment ι) (q : Process ι) : Prop where
  stdin : q.descriptors.file 0 ≠ none
  stdout : q.descriptors.file 1 ≠ none
  input : ∀ file ∈ c.input, env.opens file.text .rdonly ≠ none
  output : ∀ out ∈ c.output, env.opens out.1.text (flags out.2) ≠ none
  executable : env.executable c.program.text = true
  terminal : c.isBackground = false → q.disposition .ttou = .ign

/-- The program has the streams that were meant, and nothing else was done to the files. -/
structure Streams (c : CommandLine) (env : Environment ι) (q q' : Process ι)
    (sys sys' : System ι) : Prop where
  noInput : c.input = none → q'.descriptors.file 0 = q.descriptors.file 0
  input : ∀ file ∈ c.input, ∃ i, env.opens file.text .rdonly = some i ∧
    q'.descriptors.file 0 = some (OpenFlags.rdonly.openFile i)
  noOutput : c.output = none →
    q'.descriptors.file 1 = q.descriptors.file 1 ∧ sys'.content = sys.content
  output : ∀ out ∈ c.output, ∃ i, env.opens out.1.text (flags out.2) = some i ∧
    q'.descriptors.file 1 = some ((flags out.2).openFile i) ∧
    sys'.content = (flags out.2).opened i sys.content
  others : ∀ fd, 2 ≤ fd → q'.descriptors.file fd = q.descriptors.file fd

/-- The child becomes the program with its words and its streams. -/
def RunsAs (c : CommandLine) (env : Environment ι) (q : Process ι) (sys : System ι)
    (tokens : List CString) (argv : Block (Option CString)) : Prop :=
  ∃ sys' q', q.child env sys c.redirection tokens argv c.isBackground =
      .ret (sys', .exec c.program.text (cutFirst c.words) q') ∧
    c.Streams env q q' sys sys'

theorem input_redirection (c : CommandLine) :
    (c.redirection.input = .empty ↔ c.input = none) ∧
      ∀ file ∈ c.input, c.redirection.input = file.text := by
  unfold redirection
  cases c.input with
  | none => simp
  | some file => simp [file.nonempty]

theorem output_redirection (c : CommandLine) :
    (c.redirection.output = .empty ↔ c.output = none) ∧
      ∀ out ∈ c.output, c.redirection.output = out.1.text ∧
        outputFlags c.redirection = flags out.2 := by
  unfold redirection
  cases c.output with
  | none => simp
  | some out =>
      refine ⟨by simp [out.1.nonempty], fun out' hout => ?_⟩
      cases hout
      exact ⟨rfl, rfl⟩

/-- The streams, from what the scan found. -/
theorem streams_of_child {env : Environment ι} {q q' : Process ι} {sys sys' : System ι}
    (hstdin : q.descriptors.file 0 ≠ none)
    (h : ChildStreams env c.redirection q q' sys sys') : c.Streams env q q' sys sys' := by
  obtain ⟨hinNone, hinFile⟩ := c.input_redirection
  obtain ⟨houtNone, houtFile⟩ := c.output_redirection
  refine
    { noInput := fun hnone => h.noInput (hinNone.mpr hnone) (.inr hstdin)
      input := fun file hfile => ?_
      noOutput := fun hnone => (h.noOutput (houtNone.mpr hnone)).symm
      output := fun out hout => ?_
      others := h.others }
  · have hne : c.redirection.input ≠ .empty := by
      rw [hinFile file hfile]
      exact file.nonempty
    obtain ⟨_, i, hopens, hzero⟩ := h.input hne
    exact ⟨i, hinFile file hfile ▸ hopens, hzero⟩
  · obtain ⟨hname, hflags⟩ := houtFile out hout
    have hne : c.redirection.output ≠ .empty := by
      rw [hname]
      exact out.1.nonempty
    obtain ⟨i, hopens, hcontent, hone⟩ := h.output hne
    rw [if_neg hstdin, hflags] at hone
    rw [hname, hflags] at hopens
    rw [hflags] at hcontent
    exact ⟨i, hopens, hone, hcontent⟩

/-- **What is run is what was spelled**, when `argv` ends where the words do. -/
theorem Spells.runsAs_iff (h : c.Spells tokens) {fresh : Nat → Option CString}
    {argv : Block (Option CString)} (hprep : prep fresh tokens = .ret argv)
    {env : Environment ι} {q : Process ι} (sys : System ι) (hgranted : c.Granted env q) :
    c.RunsAs env q sys tokens argv ↔ c.IsSimple ∨ fresh c.words.length = none := by
  rw [← h.argv_reads_iff hprep]
  constructor
  · rintro ⟨sys', q', hchild, _⟩
    exact (Process.child_exec hchild).2.2.2.1
  · intro hargs
    obtain ⟨hinNone, hinFile⟩ := c.input_redirection
    obtain ⟨houtNone, houtFile⟩ := c.output_redirection
    have hgoes : ¬ (c.isBackground = false ∧ q.pid ≠ sys.foreground ∧
        q.disposition .ttou = .dfl) := by
      rintro ⟨hfore, _, hdfl⟩
      rw [hgranted.terminal hfore] at hdfl
      cases hdfl
    have hinput : c.redirection.input ≠ .empty → q.descriptors.file 0 ≠ none ∧
        env.opens c.redirection.input .rdonly ≠ none := by
      intro hne
      obtain ⟨file, hfile⟩ := Option.ne_none_iff_exists'.mp (mt hinNone.mpr hne)
      rw [hinFile file hfile]
      exact ⟨hgranted.stdin, hgranted.input file hfile⟩
    have houtput : c.redirection.output ≠ .empty → q.descriptors.file 1 ≠ none ∧
        env.opens c.redirection.output (outputFlags c.redirection) ≠ none := by
      intro hne
      obtain ⟨out, hout⟩ := Option.ne_none_iff_exists'.mp (mt houtNone.mpr hne)
      obtain ⟨hname, hflags⟩ := houtFile out hout
      rw [hname, hflags]
      exact ⟨hgranted.stdout, hgranted.output out hout⟩
    obtain ⟨sys', q', hchild⟩ := q.child_returns env sys c.redirection c.isBackground hgoes
      hinput houtput h.firstNonredirect_eq hargs hgranted.executable
    exact ⟨sys', q', hchild, streams_of_child hgranted.stdin (Process.child_streams hchild)⟩

end Child

/-- Each of the tokens is a plain word, an operator or `&`. -/
theorem Spells.mem_cases (h : c.Spells tokens) {tok : CString} (htok : tok ∈ tokens) :
    (∃ w : PlainWord, w.text = tok) ∨ tok ∈ [tokIn, tokOut, tokAppend, tokAmp] := by
  have hword : tok ∈ c.words → ∃ w : PlainWord, w.text = tok := fun hmem => by
    obtain ⟨w, _, hw⟩ := List.mem_map.mp hmem
    exact ⟨w, hw⟩
  have hfile : ∀ {op : CString} {file : PlainWord}, tok ∈ [op, file.text] →
      (∃ w : PlainWord, w.text = tok) ∨ tok = op := by
    intro op file hmem
    rcases List.mem_cons.mp hmem with hop | hmem
    · exact .inr hop
    · exact .inl ⟨file, (List.mem_singleton.mp hmem).symm⟩
  have hinput : tok ∈ c.inputTokens → (∃ w : PlainWord, w.text = tok) ∨ tok = tokIn := by
    unfold inputTokens
    cases c.input with
    | none => exact fun hmem => absurd hmem List.not_mem_nil
    | some file => exact hfile
  have houtput : tok ∈ c.outputTokens →
      (∃ w : PlainWord, w.text = tok) ∨ tok = tokOut ∨ tok = tokAppend := by
    unfold outputTokens
    match c.output with
    | none => exact fun hmem => absurd hmem List.not_mem_nil
    | some (file, false) => exact fun hmem => (hfile hmem).imp_right .inl
    | some (file, true) => exact fun hmem => (hfile hmem).imp_right .inr
  have hamp : tok ∈ c.ampTokens → tok = tokAmp := by
    unfold ampTokens
    split
    · exact List.mem_singleton.mp
    · exact fun hmem => absurd hmem List.not_mem_nil
  have hall : tok ∈ c.words ∨ tok ∈ c.inputTokens ∨ tok ∈ c.outputTokens ∨
      tok ∈ c.ampTokens := by
    cases h with
    | inputFirst => simpa only [List.mem_append, or_assoc] using htok
    | outputFirst =>
        simp only [List.mem_append, or_assoc] at htok
        exact htok.imp_right or_left_comm.mp
  rcases hall with hmem | hmem | hmem | hmem
  · exact .inl (hword hmem)
  · exact (hinput hmem).imp_right fun heq => by simp [heq]
  · exact (houtput hmem).imp_right fun heq => by rcases heq with heq | heq <;> simp [heq]
  · exact .inr (by simp [hamp hmem])

theorem Spells.noShortcut (h : c.Spells tokens) {tok : CString} (htok : tok ∈ tokens) :
    tok ≠ tokHome ∧ tok ≠ tokStar := by
  have hops : ∀ op ∈ [tokIn, tokOut, tokAppend, tokAmp], op ≠ tokHome ∧ op ≠ tokStar := by
    decide
  rcases h.mem_cases htok with ⟨w, rfl⟩ | hop
  · exact ⟨w.noHome, w.noStar⟩
  · exact hops tok hop

/-- The tokens of a command stand for themselves where none of them is an alias. -/
theorem Spells.expand_eq (h : c.Spells tokens) {v : View}
    (hplain : ∀ tok ∈ tokens, lastWrite v.defs tok = none) :
    tokens.flatMap v.expand = tokens := by
  have hsingle : ∀ tok ∈ tokens, v.expand tok = [tok] := by
    intro tok htok
    rw [View.expand, if_neg (h.noShortcut htok).2, hplain tok htok]
    rfl
  rw [List.flatMap_congr hsingle]
  exact List.flatMap_singleton' tokens

/-- Such a line gets past its aliases, unless a lookup hangs or it is too long. -/
theorem Spells.prepares (h : c.Spells tokens) {v : View} {r : Round} {stale : Nat}
    (hplain : ∀ tok ∈ tokens, lastWrite v.defs tok = none)
    (hroom : stale = 0 → ¬ FillsTable 50 v.defs) (hshort : tokens.length < psBfs) :
    v.Prepares stale r.starListing tokens where
  noHome hmem := (h.noShortcut hmem).1 rfl
  star hmem := absurd rfl (h.noShortcut hmem).2
  lookups hstale hfill := absurd hfill (hroom hstale)
  fits := by rwa [h.expand_eq hplain]

end CommandLine

/-- The loop hands the tokens to `execute`, whatever the trie is by then. -/
def Session.Executes (s : Session) (r : Round) (p : Prepared) (isBackground : Bool) : Prop :=
  ∃ fuel, ∀ completions tokct,
    { s with completions := completions }.dispatch fuel r p tokct =
      s.shell.execute p.fTokens isBackground r.fork r.wait >>= fun shell =>
        .ret (.bottom { s with completions := completions, shell := shell })

/-- **The line of a program is executed**, and no builtin is called. -/
theorem CommandLine.Spells.executes {c : CommandLine} {s : Session} {r : Round} {p : Prepared}
    (h : c.Spells p.fTokens) (hbuiltins : HoldsBuiltins s.biTable) (hprogram : c.NamesProgram)
    (hprep : prep r.freshArgv p.fTokens = .ret p.argv) : s.Executes r p c.isBackground := by
  obtain ⟨rest, hline, _, _, hback⟩ := h.exists_rest
  have hcons : p.fTokens = c.program.text :: (c.args.map PlainWord.text ++ rest) := hline
  have hget : btGet s.biTable.size s.biTable c.program.text = .ret none := by
    rw [hbuiltins.get (Nat.le_refl _), hprogram.noBuiltin]
  have hread : p.argv.read 0 = .ret (some (baseName c.program.text)) := by
    rw [hcons] at hprep
    exact argv_zero hprep c.program.isWord
  have hflag : decide (ppstrFinal p.fTokens = some tokAmp) = c.isBackground := by
    cases hamp : c.isBackground with
    | true => exact decide_eq_true (hback.mpr hamp)
    | false => exact decide_eq_false fun hlast => by cases hamp.symm.trans (hback.mp hlast)
  refine ⟨s.biTable.size, fun completions tokct => ?_⟩
  have hcall : { s with completions := completions }.callCommand s.biTable.size r p tokct
      (baseName c.program.text) =
      s.shell.execute p.fTokens c.isBackground r.fork r.wait >>= fun shell =>
        .ret (.bottom { s with completions := completions, shell := shell }) := by
    rw [Session.callCommand, if_neg hprogram.noSplash, if_neg hprogram.noAlias, hflag]
    rfl
  rw [← hcall, Session.dispatch, hcons]
  simp only [hget, hread, Outcome.ret_bind]

section Sessions

variable {staleAliases staleBuiltins : Nat} {completions : TrieNode} {pgrp : Int}
  {S : Set LowerWord}

/-- **A command is run as it was meant.**  At every prompt of every session at which the
last definition has not filled the alias table, a line of fewer than 512 tokens that spells
a program, with no alias among them, is prepared, is executed and not served by the shell
itself, is scanned for the redirections of the command and is waited for as it says; and
where the kernel grants what it needs, the child becomes the program with its words and its
streams exactly when nothing stands behind the words, or the memory of `argv` had a NULL
there. -/
theorem commandLine_runs_iff (hne : completions ≠ null) (hholds : Holds completions S)
    (rounds : List Round) (s : Session)
    (hrun : SessionRun staleAliases staleBuiltins completions pgrp rounds s) :
    ∃ v, Run View.step (View.start S pgrp) rounds v ∧
      ((staleAliases = 0 → ¬ FillsTable 50 v.defs) →
        ∀ (r : Round) (c : CommandLine) (tokens : List CString), c.Spells tokens →
          c.NamesProgram → Spaced tokDelim r.text (tokens.map CString.bytes) →
          tokens.length < 512 → (∀ tok ∈ tokens, lastWrite v.defs tok = none) →
          ∃ p, Outcome.Returns (fun fuel => s.prepare fuel r) p ∧ p.fTokens = tokens ∧
            s.Executes r p c.isBackground ∧ scan p.fTokens = .ok c.redirection ∧
            ∀ (ι : Type) [DecidableEq ι] (env : Environment ι) (q : Process ι)
              (sys : System ι), c.Granted env q →
              (c.RunsAs env q sys p.fTokens p.argv ↔
                c.IsSimple ∨ r.freshArgv c.words.length = none)) := by
  obtain ⟨v, hview, hshows⟩ := hrun.shows hne hholds
  obtain ⟨ops, haliases⟩ := hshows.aliases
  refine ⟨v, hview, fun hroom r c tokens hspells hprogram hspaced hshort hplain => ?_⟩
  obtain ⟨p, fuel, hret⟩ := (Session.prepare_returns_iff haliases hspaced).mpr
    (hspells.prepares hplain hroom hshort)
  obtain ⟨_, hexpanded, hprep, _⟩ := Session.prepare_spec haliases hspaced hret
  rw [hspells.expand_eq hplain] at hexpanded
  rw [← hexpanded] at hspells
  exact ⟨p, ⟨fuel, hret⟩, hexpanded, hspells.executes hshows.builtins hprogram hprep,
    hspells.scan_eq, fun ι _ env q sys hgranted => hspells.runsAs_iff hprep sys hgranted⟩

theorem commandLine_runs_iff_twoLines : ∃ completions S s, completions ≠ null ∧
    Holds completions S ∧
    SessionRun 7 9 completions 1 [typing aliasLine 0, typing jobLine 100] s ∧
    ∃ v, Run View.step (View.start S 1) [typing aliasLine 0, typing jobLine 100] v ∧
      ((7 = 0 → ¬ FillsTable 50 v.defs) →
        ∀ (r : Round) (c : CommandLine) (tokens : List CString), c.Spells tokens →
          c.NamesProgram → Spaced tokDelim r.text (tokens.map CString.bytes) →
          tokens.length < 512 → (∀ tok ∈ tokens, lastWrite v.defs tok = none) →
          ∃ p, Outcome.Returns (fun fuel => s.prepare fuel r) p ∧ p.fTokens = tokens ∧
            s.Executes r p c.isBackground ∧ scan p.fTokens = .ok c.redirection ∧
            ∀ (ι : Type) [DecidableEq ι] (env : Environment ι) (q : Process ι)
              (sys : System ι), c.Granted env q →
              (c.RunsAs env q sys p.fTokens p.argv ↔
                c.IsSimple ∨ r.freshArgv c.words.length = none)) := by
  obtain ⟨t, S, hne, hholds⟩ := exists_words
  obtain ⟨s, _, hrun, _⟩ := exists_sessionRun hne hholds twoLines_script
  exact ⟨t, S, s, hne, hholds, hrun, commandLine_runs_iff hne hholds _ s hrun⟩

end Sessions

end WizardShell.Ports
