import WizardShell.Ports.Misc

/-!
# The redirection scan of `execute`

Before forking, `execute` goes over the tokens once and collects the operands
of `<`, `>` and `>>` in three strings, which start empty and double as flags
for having seen the operator.  The line is rejected with a message when an
operand is missing or an operator is repeated.

Each operator collects for itself (`collect`), so the scan is three independent
searches, of which two must not both find something.  `scan_language`: it accepts
the lines that are `WellRedirected`, and redirects them as their tokens say.
-/

namespace WizardShell.Ports

/-- Why the scan rejects a line. -/
inductive ScanError where
  | noInputFile
  | multipleInputFiles
  | noOutputFile
  | multipleOutputFiles
  /-- `>` and `>>` were both given. -/
  | clobberAndAppend
  deriving DecidableEq, Repr

/-- The text printed for it. -/
def ScanError.message : ScanError → String
  | .noInputFile => "\n\t\x7bwsh @ execute\x7d -- no input file specified\n"
  | .multipleInputFiles =>
      "\n\t\x7bwsh @ execute\x7d -- syntax error: multiple input files\n"
  | .noOutputFile => "\n\t\x7bwsh @ execute\x7d -- no output file specified\n"
  | .multipleOutputFiles =>
      "\n\t\x7bwsh @ execute\x7d -- syntax error: multiple output files\n"
  | .clobberAndAppend =>
      "\n\t\x7bwsh @ execute\x7dsyntax error: multiple output files\n"

/-- The accumulators of the scan. -/
structure ScanState where
  input : CString
  clobber : CString
  dclobber : CString

def ScanState.start : ScanState :=
  { input := .empty, clobber := .empty, dclobber := .empty }

/-- One turn of the scan, at token `tok` with `next` behind it. -/
def scanStep (s : ScanState) (tok : CString) (next : Option CString) :
    Except ScanError ScanState :=
  if tok = tokIn then
    if s.input = .empty then
      match next with
      | none => .error .noInputFile
      | some file => .ok { s with input := file }
    else .error .multipleInputFiles
  else if tok = tokOut then
    if s.clobber = .empty then
      match next with
      | none => .error .noOutputFile
      | some file => .ok { s with clobber := file }
    else .error .multipleOutputFiles
  else if tok = tokAppend then
    if s.dclobber = .empty then
      match next with
      | none => .error .noOutputFile
      | some file => .ok { s with dclobber := file }
    else .error .multipleOutputFiles
  else .ok s

/-- The loop of the scan. -/
def scanLoop (s : ScanState) : List CString → Except ScanError ScanState
  | [] => .ok s
  | tok :: rest => do
      let s ← scanStep s tok rest.head?
      scanLoop s rest

/-- What an accepted line asks for. -/
structure Redirection where
  input : CString
  output : CString
  isOutputDouble : Bool

/-- The scan, with the check behind the loop. -/
def scan (tokens : List CString) : Except ScanError Redirection := do
  let s ← scanLoop .start tokens
  if s.clobber ≠ .empty ∧ s.dclobber ≠ .empty then throw .clobberAndAppend
  let isOutputDouble : Bool := s.dclobber ≠ .empty
  return {
    input := s.input
    output := if isOutputDouble then s.dclobber else s.clobber
    isOutputDouble := isOutputDouble }

/-- The scan gets past its errors. -/
def Accepted (tokens : List CString) : Prop := ∃ r, scan tokens = .ok r

/-- Words without operators are accepted, and redirect nothing. -/
theorem scanLoop_of_plain {tokens : List CString} (s : ScanState)
    (h : ∀ tok ∈ tokens, isNotRedirect tok = true) :
    scanLoop s tokens = .ok s := by
  induction tokens with
  | nil => rfl
  | cons tok rest ih =>
      have htok : isNotRedirect tok = true := h tok (by simp)
      have hrest := ih fun t ht => h t (by simp [ht])
      unfold isNotRedirect at htok
      simp only [ne_eq, Bool.and_eq_true, decide_eq_true_eq] at htok
      obtain ⟨⟨hin, hout⟩, happend⟩ := htok
      simp only [scanLoop, scanStep, if_neg hin, if_neg hout, if_neg happend]
      exact hrest

theorem accepted_of_plain {tokens : List CString}
    (h : ∀ tok ∈ tokens, isNotRedirect tok = true) : Accepted tokens := by
  refine ⟨{ input := .empty, output := .empty, isOutputDouble := false }, ?_⟩
  unfold scan
  rw [scanLoop_of_plain .start h]
  rfl

/-! ## The language of the scan -/

/-- What the scan does about one operator: what its accumulator holds behind the
tokens, or nothing when they are rejected. -/
def collect (op : CString) : CString → List CString → Option CString
  | acc, [] => some acc
  | acc, tok :: rest =>
      if tok = op then
        if acc = .empty then rest.head?.bind fun file => collect op file rest else none
      else collect op acc rest

theorem collect_self {op acc acc' : CString} {rest : List CString} :
    collect op acc (op :: rest) = some acc' ↔
      acc = .empty ∧ ∃ file, rest.head? = some file ∧ collect op file rest = some acc' := by
  rw [collect, if_pos rfl]
  by_cases hseen : acc = .empty
  · rw [if_pos hseen, Option.bind_eq_some_iff]
    simp [hseen]
  · simp [hseen]

theorem collect_other {op tok acc : CString} {rest : List CString} (h : tok ≠ op) :
    collect op acc (tok :: rest) = collect op acc rest := by
  rw [collect, if_neg h]

section Turn

variable {s s' t : ScanState} {tok : CString} {next : Option CString} {rest : List CString}

theorem scanStep_in :
    scanStep s tokIn next = .ok t ↔
      s.input = .empty ∧ ∃ file, next = some file ∧ t = { s with input := file } := by
  unfold scanStep
  rw [if_pos rfl]
  by_cases hseen : s.input = .empty
  · cases next <;> simp [hseen, eq_comm]
  · simp [hseen]

theorem scanStep_out :
    scanStep s tokOut next = .ok t ↔
      s.clobber = .empty ∧ ∃ file, next = some file ∧ t = { s with clobber := file } := by
  unfold scanStep
  rw [if_neg (by decide), if_pos rfl]
  by_cases hseen : s.clobber = .empty
  · cases next <;> simp [hseen, eq_comm]
  · simp [hseen]

theorem scanStep_append :
    scanStep s tokAppend next = .ok t ↔
      s.dclobber = .empty ∧ ∃ file, next = some file ∧ t = { s with dclobber := file } := by
  unfold scanStep
  rw [if_neg (by decide), if_neg (by decide), if_pos rfl]
  by_cases hseen : s.dclobber = .empty
  · cases next <;> simp [hseen, eq_comm]
  · simp [hseen]

theorem scanStep_word (hin : tok ≠ tokIn) (hout : tok ≠ tokOut) (happend : tok ≠ tokAppend) :
    scanStep s tok next = .ok s := by
  unfold scanStep
  rw [if_neg hin, if_neg hout, if_neg happend]

theorem scanLoop_cons :
    scanLoop s (tok :: rest) = .ok s' ↔
      ∃ t, scanStep s tok rest.head? = .ok t ∧ scanLoop t rest = .ok s' := by
  rw [scanLoop]
  cases scanStep s tok rest.head? with
  | ok t =>
      show scanLoop t rest = .ok s' ↔ _
      simp
  | error e =>
      show Except.error e = .ok s' ↔ _
      simp

end Turn

/-- The accumulators have nothing to do with each other. -/
theorem scanLoop_eq_ok {tokens : List CString} {s s' : ScanState} :
    scanLoop s tokens = .ok s' ↔
      collect tokIn s.input tokens = some s'.input ∧
      collect tokOut s.clobber tokens = some s'.clobber ∧
      collect tokAppend s.dclobber tokens = some s'.dclobber := by
  induction tokens generalizing s with
  | nil =>
      cases s
      cases s'
      simp [scanLoop, collect]
  | cons tok rest ih =>
      have hinout : tokIn ≠ tokOut := by decide
      have hinapp : tokIn ≠ tokAppend := by decide
      have houtapp : tokOut ≠ tokAppend := by decide
      rw [scanLoop_cons]
      by_cases hin : tok = tokIn
      · subst hin
        rw [collect_self, collect_other hinout, collect_other hinapp]
        simp only [scanStep_in]
        constructor
        · rintro ⟨t, ⟨hempty, file, hnext, rfl⟩, hloop⟩
          obtain ⟨hinput, hrest⟩ := ih.mp hloop
          exact ⟨⟨hempty, file, hnext, hinput⟩, hrest⟩
        · rintro ⟨⟨hempty, file, hnext, hinput⟩, hrest⟩
          exact ⟨_, ⟨hempty, file, hnext, rfl⟩, ih.mpr ⟨hinput, hrest⟩⟩
      by_cases hout : tok = tokOut
      · subst hout
        rw [collect_other hin, collect_self, collect_other houtapp]
        simp only [scanStep_out]
        constructor
        · rintro ⟨t, ⟨hempty, file, hnext, rfl⟩, hloop⟩
          obtain ⟨hinput, houtput, hrest⟩ := ih.mp hloop
          exact ⟨hinput, ⟨hempty, file, hnext, houtput⟩, hrest⟩
        · rintro ⟨hinput, ⟨hempty, file, hnext, houtput⟩, hrest⟩
          exact ⟨_, ⟨hempty, file, hnext, rfl⟩, ih.mpr ⟨hinput, houtput, hrest⟩⟩
      by_cases happend : tok = tokAppend
      · subst happend
        rw [collect_other hin, collect_other hout, collect_self]
        simp only [scanStep_append]
        constructor
        · rintro ⟨t, ⟨hempty, file, hnext, rfl⟩, hloop⟩
          obtain ⟨hinput, houtput, hrest⟩ := ih.mp hloop
          exact ⟨hinput, houtput, hempty, file, hnext, hrest⟩
        · rintro ⟨hinput, houtput, hempty, file, hnext, hrest⟩
          exact ⟨_, ⟨hempty, file, hnext, rfl⟩, ih.mpr ⟨hinput, houtput, hrest⟩⟩
      · rw [collect_other hin, collect_other hout, collect_other happend,
          scanStep_word hin hout happend, ← ih]
        simp

/-- Once an operand is collected, the operator must not come again. -/
theorem collect_of_seen {op acc acc' : CString} (hseen : acc ≠ .empty) {tokens : List CString} :
    collect op acc tokens = some acc' ↔ op ∉ tokens ∧ acc' = acc := by
  induction tokens with
  | nil => simp [collect, eq_comm]
  | cons tok rest ih =>
      rw [collect]
      by_cases hop : tok = op
      · simp [hop, hseen]
      · rw [if_neg hop, ih, List.mem_cons, not_or]
        simp [Ne.symm hop]

/-- From the start, the tokens hold the operator not at all, or once and in front
of the operand collected. -/
theorem collect_start {op acc : CString} {tokens : List CString}
    (hne : ∀ tok ∈ tokens, tok ≠ .empty) :
    collect op .empty tokens = some acc ↔
      (op ∉ tokens ∧ acc = .empty) ∨
      ∃ pre post, tokens = pre ++ op :: acc :: post ∧ op ∉ pre ∧ op ∉ acc :: post := by
  induction tokens with
  | nil => simp [collect, eq_comm]
  | cons tok rest ih =>
      have hrest : ∀ t ∈ rest, t ≠ .empty := fun t ht => hne t (List.mem_cons_of_mem tok ht)
      rw [collect]
      by_cases hop : tok = op
      · subst hop
        rw [if_pos rfl, if_pos rfl]
        cases rest with
        | nil =>
            apply iff_of_false (by simp)
            rintro (⟨hmem, _⟩ | ⟨pre, post, hsplit, hpre, _⟩)
            · exact hmem (List.mem_cons_self)
            · have hlen := congrArg List.length hsplit
              simp only [List.length_append, List.length_cons, List.length_nil] at hlen
              omega
        | cons file rest =>
            rw [List.head?_cons, Option.bind_some,
              collect_of_seen (hrest file List.mem_cons_self)]
            constructor
            · rintro ⟨hmem, rfl⟩
              exact .inr ⟨[], rest, rfl, List.not_mem_nil, hmem⟩
            · rintro (⟨hmem, _⟩ | ⟨pre, post, hsplit, hpre, hpost⟩)
              · exact absurd List.mem_cons_self hmem
              · cases pre with
                | nil =>
                    cases hsplit
                    exact ⟨hpost, rfl⟩
                | cons x pre =>
                    obtain ⟨rfl, _⟩ := List.cons.inj hsplit
                    exact absurd List.mem_cons_self hpre
      · rw [if_neg hop, ih hrest]
        refine or_congr ?_ ?_
        · rw [List.mem_cons, not_or]
          simp [Ne.symm hop]
        · constructor
          · rintro ⟨pre, post, rfl, hpre, hpost⟩
            refine ⟨tok :: pre, post, rfl, ?_, hpost⟩
            rw [List.mem_cons, not_or]
            exact ⟨Ne.symm hop, hpre⟩
          · rintro ⟨pre, post, hsplit, hpre, hpost⟩
            cases pre with
            | nil => exact absurd (List.cons.inj hsplit).1 hop
            | cons x pre =>
                obtain ⟨_, hsplit⟩ := List.cons.inj hsplit
                exact ⟨pre, post, hsplit, fun h => hpre (List.mem_cons_of_mem x h), hpost⟩

/-- What the tokens may hold of an operator. -/
theorem exists_collect {op : CString} {tokens : List CString}
    (hne : ∀ tok ∈ tokens, tok ≠ .empty) :
    (∃ acc, collect op .empty tokens = some acc) ↔
      tokens.count op ≤ 1 ∧ tokens.getLast? ≠ some op := by
  constructor
  · rintro ⟨acc, h⟩
    rcases (collect_start hne).mp h with ⟨hmem, _⟩ | ⟨pre, post, rfl, hpre, hpost⟩
    · refine ⟨by rw [List.count_eq_zero_of_not_mem hmem]; omega, fun hlast => ?_⟩
      exact hmem (List.mem_of_getLast? hlast)
    · refine ⟨?_, fun hlast => ?_⟩
      · rw [List.count_append, List.count_eq_zero_of_not_mem hpre, List.count_cons_self,
          List.count_eq_zero_of_not_mem hpost]
      · have hmem : op ∈ acc :: post := by
          rw [List.getLast?_append, List.getLast?_cons_cons] at hlast
          refine List.mem_of_getLast? (?_ : (acc :: post).getLast? = some op)
          cases hrest : (acc :: post).getLast? with
          | none => simp at hrest
          | some last =>
              rw [hrest] at hlast
              exact hlast
        exact hpost hmem
  · rintro ⟨hcount, hlast⟩
    by_cases hmem : op ∈ tokens
    · obtain ⟨pre, rest, rfl, hpre⟩ := List.eq_append_cons_of_mem hmem
      rw [List.count_append, List.count_cons_self] at hcount
      have hrest : op ∉ rest := List.count_eq_zero.mp (by omega)
      cases rest with
      | nil =>
          rw [List.getLast?_append] at hlast
          exact absurd rfl hlast
      | cons acc post =>
          exact ⟨acc, (collect_start hne).mpr (.inr ⟨pre, post, rfl, hpre, hrest⟩)⟩
    · exact ⟨.empty, (collect_start hne).mpr (.inl ⟨hmem, rfl⟩)⟩

/-- A token right behind the operator is what is collected. -/
theorem collect_operand {op acc file : CString} {pre post : List CString}
    (hne : ∀ tok ∈ pre ++ op :: file :: post, tok ≠ .empty)
    (h : collect op .empty (pre ++ op :: file :: post) = some acc) : acc = file := by
  rcases (collect_start hne).mp h with ⟨hmem, _⟩ | ⟨pre', post', hsplit, hpre, hpost⟩
  · exact absurd (by simp) hmem
  · obtain ⟨_, _, hrest⟩ := (List.append_cons_inj_of_notMem hpre hpost).mp hsplit.symm
    exact (List.cons.inj hrest).1

/-- An operand was collected exactly when the operator is there. -/
theorem collect_ne_empty {op acc : CString} {tokens : List CString}
    (hne : ∀ tok ∈ tokens, tok ≠ .empty) (h : collect op .empty tokens = some acc) :
    acc ≠ .empty ↔ op ∈ tokens := by
  rcases (collect_start hne).mp h with ⟨hmem, rfl⟩ | ⟨pre, post, rfl, _, _⟩
  · simp [hmem]
  · exact iff_of_true (hne acc (by simp)) (by simp)

/-- `<` at most once, `>` and `>>` at most once together, and none of them last. -/
structure WellRedirected (tokens : List CString) : Prop where
  input : tokens.count tokIn ≤ 1
  output : tokens.count tokOut + tokens.count tokAppend ≤ 1
  last : ∀ tok ∈ tokens.getLast?, isNotRedirect tok = true

/-- The redirection is the one that the tokens spell out: a file is the token right
behind its operator, and there is none without the operator. -/
structure Redirects (tokens : List CString) (r : Redirection) : Prop where
  input : ∀ pre file post, tokens = pre ++ tokIn :: file :: post → r.input = file
  noInput : tokIn ∉ tokens → r.input = .empty
  output : ∀ pre op file post, tokens = pre ++ op :: file :: post →
    op = tokOut ∨ op = tokAppend → r.output = file
  noOutput : tokOut ∉ tokens → tokAppend ∉ tokens → r.output = .empty
  append : r.isOutputDouble = true ↔ tokAppend ∈ tokens

/-- What the accumulators say about the line. -/
def ScanState.redirection (s : ScanState) : Redirection where
  input := s.input
  output := if s.dclobber ≠ .empty then s.dclobber else s.clobber
  isOutputDouble := s.dclobber ≠ .empty

theorem scan_of_loop {tokens : List CString} {s : ScanState}
    (hloop : scanLoop .start tokens = .ok s) :
    scan tokens = if s.clobber ≠ .empty ∧ s.dclobber ≠ .empty then .error .clobberAndAppend
      else .ok s.redirection := by
  unfold scan
  rw [hloop]
  show (if s.clobber ≠ .empty ∧ s.dclobber ≠ .empty then _ else _) = _
  split
  · rfl
  · simp [ScanState.redirection]
    rfl

/-- What the scan accepts, and what it returns. -/
theorem scan_eq_ok {tokens : List CString} {r : Redirection} :
    scan tokens = .ok r ↔ ∃ s, scanLoop .start tokens = .ok s ∧
      (s.clobber = .empty ∨ s.dclobber = .empty) ∧ r = s.redirection := by
  cases hloop : scanLoop .start tokens with
  | error e =>
      refine iff_of_false (fun h => ?_) (by simp)
      rw [scan, hloop] at h
      cases h
  | ok s =>
      rw [scan_of_loop hloop]
      by_cases hboth : s.clobber ≠ .empty ∧ s.dclobber ≠ .empty
      · rw [if_pos hboth]
        apply iff_of_false (by simp)
        rintro ⟨s', hs, hone | hone, _⟩
        · cases hs
          exact hboth.1 hone
        · cases hs
          exact hboth.2 hone
      · rw [if_neg hboth]
        have hone : s.clobber = .empty ∨ s.dclobber = .empty := by
          rcases not_and_or.mp hboth with h | h
          · exact .inl (not_not.mp h)
          · exact .inr (not_not.mp h)
        rw [Except.ok.injEq]
        constructor
        · rintro rfl
          exact ⟨s, rfl, hone, rfl⟩
        · rintro ⟨s', hs, _, rfl⟩
          cases hs
          rfl

/-- The scan accepts its language. -/
theorem accepted_iff {tokens : List CString} (hne : ∀ tok ∈ tokens, tok ≠ .empty) :
    Accepted tokens ↔ WellRedirected tokens := by
  constructor
  · rintro ⟨r, h⟩
    obtain ⟨s, hloop, hone, _⟩ := scan_eq_ok.mp h
    obtain ⟨hinput, hclobber, hdclobber⟩ := scanLoop_eq_ok.mp hloop
    obtain ⟨hin, hinlast⟩ := (exists_collect hne).mp ⟨_, hinput⟩
    obtain ⟨hout, houtlast⟩ := (exists_collect hne).mp ⟨_, hclobber⟩
    obtain ⟨happend, happendlast⟩ := (exists_collect hne).mp ⟨_, hdclobber⟩
    refine ⟨hin, ?_, fun tok htok => ?_⟩
    · rcases hone with hempty | hempty
      · have hmem : tokOut ∉ tokens := fun h => (collect_ne_empty hne hclobber).mpr h hempty
        rw [List.count_eq_zero_of_not_mem hmem]
        omega
      · have hmem : tokAppend ∉ tokens :=
          fun h => (collect_ne_empty hne hdclobber).mpr h hempty
        rw [List.count_eq_zero_of_not_mem hmem]
        omega
    · have hlast : tokens.getLast? = some tok := htok
      rw [hlast] at hinlast houtlast happendlast
      simp only [ne_eq, Option.some.injEq] at hinlast houtlast happendlast
      simp [isNotRedirect, hinlast, houtlast, happendlast]
  · rintro ⟨hin, hout, hlast⟩
    have hnot : ∀ op, isNotRedirect op = false → tokens.getLast? ≠ some op := by
      intro op hop heq
      rw [hlast op heq] at hop
      cases hop
    obtain ⟨input, hinput⟩ := (exists_collect hne).mpr ⟨hin, hnot tokIn (by decide)⟩
    obtain ⟨clobber, hclobber⟩ := (exists_collect hne).mpr
      ⟨(by omega : tokens.count tokOut ≤ 1), hnot tokOut (by decide)⟩
    obtain ⟨dclobber, hdclobber⟩ := (exists_collect hne).mpr
      ⟨(by omega : tokens.count tokAppend ≤ 1), hnot tokAppend (by decide)⟩
    refine ⟨_, scan_eq_ok.mpr ⟨⟨input, clobber, dclobber⟩,
      scanLoop_eq_ok.mpr ⟨hinput, hclobber, hdclobber⟩, ?_, rfl⟩⟩
    by_contra hboth
    rw [not_or] at hboth
    have hmemout := List.count_pos_iff.mpr ((collect_ne_empty hne hclobber).mp hboth.1)
    have hmemapp := List.count_pos_iff.mpr ((collect_ne_empty hne hdclobber).mp hboth.2)
    omega

/-- What it returns is what the tokens spell out. -/
theorem redirects_of_scan {tokens : List CString} (hne : ∀ tok ∈ tokens, tok ≠ .empty)
    {r : Redirection} (h : scan tokens = .ok r) : Redirects tokens r := by
  obtain ⟨s, hloop, hone, rfl⟩ := scan_eq_ok.mp h
  obtain ⟨hinput, hclobber, hdclobber⟩ := scanLoop_eq_ok.mp hloop
  have hin := collect_ne_empty hne hinput
  have hout := collect_ne_empty hne hclobber
  have happend := collect_ne_empty hne hdclobber
  refine
    { input := ?_
      noInput := fun hmem => ?_
      output := ?_
      noOutput := fun hmemout hmemapp => ?_
      append := ?_ }
  · rintro pre file post rfl
    exact collect_operand hne hinput
  · exact not_not.mp fun hne' => hmem (hin.mp hne')
  · rintro pre op file post rfl (rfl | rfl)
    · have hempty : s.dclobber = .empty := by
        refine hone.resolve_left (hout.mpr ?_)
        simp
      show (if s.dclobber ≠ .empty then s.dclobber else s.clobber) = file
      rw [if_neg (not_not.mpr hempty)]
      exact collect_operand hne hclobber
    · have hsome : s.dclobber ≠ .empty := happend.mpr (by simp)
      show (if s.dclobber ≠ .empty then s.dclobber else s.clobber) = file
      rw [if_pos hsome]
      exact collect_operand hne hdclobber
  · have hclobber' : s.clobber = .empty := not_not.mp fun hne' => hmemout (hout.mp hne')
    have hdclobber' : s.dclobber = .empty := not_not.mp fun hne' => hmemapp (happend.mp hne')
    show (if s.dclobber ≠ .empty then s.dclobber else s.clobber) = .empty
    rw [if_neg (not_not.mpr hdclobber'), hclobber']
  · show decide (s.dclobber ≠ .empty) = true ↔ _
    rw [decide_eq_true_iff, happend]

/-- **The scan accepts exactly its language**, and an accepted line is redirected
as its tokens say. -/
theorem scan_language (tokens : List CString) (hne : ∀ tok ∈ tokens, tok ≠ .empty) :
    (Accepted tokens ↔ WellRedirected tokens) ∧
      ∀ r, scan tokens = .ok r → Redirects tokens r :=
  ⟨accepted_iff hne, fun _ h => redirects_of_scan hne h⟩

/-- `sort < > f` -/
theorem scan_language_sort :
    (∀ tok ∈ [CString.lit ['s'], tokIn, tokOut, .lit ['f']], tok ≠ .empty) ∧
    (Accepted [.lit ['s'], tokIn, tokOut, .lit ['f']] ↔
      WellRedirected [.lit ['s'], tokIn, tokOut, .lit ['f']]) ∧
    ∀ r, scan [.lit ['s'], tokIn, tokOut, .lit ['f']] = .ok r →
      Redirects [.lit ['s'], tokIn, tokOut, .lit ['f']] r :=
  have hne : ∀ tok ∈ [CString.lit ['s'], tokIn, tokOut, .lit ['f']], tok ≠ .empty := by decide
  ⟨hne, scan_language _ hne⟩

end WizardShell.Ports
