import WizardShell.Ports.Prep
import WizardShell.Verified.Strtok

/-!
# Tokenizing a line in place

`wsh_tokenize` cuts a line into tokens with `strtok`, so the tokens are pointers
into the line, and the line itself is cut: what is left at its start ends with
its first token.  `wshTokenize_spec` says so, and that no index of the growing
array of tokens is ever outside it.
-/

namespace WizardShell.Ports

open WizardShell.Verified

/-- `TOK_DELIM` -/
def tokDelim (c : UInt8) : Bool := c = 32 || c = 9 || c = 10

/-- The loop of `wsh_tokenize` for a bounded number of turns: `token` is what
`strtok` returned last and `next` where it goes on in the line. -/
def tokenizeLoop : Nat → Nat → Nat → Block (Option Nat) → Option Nat → Nat →
    Block UInt8 → Outcome (Block (Option Nat) × Block UInt8)
  | 0, _, _, _, _, _, _ => .outOfFuel
  | _ + 1, _, pos, tokens, none, _, line => do
      let tokens ← tokens.write pos none
      return (tokens, line)
  | fuel + 1, bufsize, pos, tokens, some token, next, line => do
      let tokens ← tokens.write pos (some token)
      if pos + 1 ≥ bufsize then
        let (token, next, line) ← strtok tokDelim line next
        tokenizeLoop fuel (bufsize + psBfs) (pos + 1) (tokens.resize (bufsize + psBfs))
          token next line
      else
        let (token, next, line) ← strtok tokDelim line next
        tokenizeLoop fuel bufsize (pos + 1) tokens token next line

/-- `wsh_tokenize(line)`: the tokens, as indices into the line, and the line
afterwards.  Every turn takes a byte of the line, so there are enough turns. -/
def wshTokenize (fresh : Nat → Option Nat) (line : Block UInt8) :
    Outcome (Block (Option Nat) × Block UInt8) := do
  let (token, next, cut) ← strtok tokDelim line 0
  tokenizeLoop (line.cap + 1) psBfs 0 (Block.alloc psBfs fresh) token next cut

/-! ## What is left of the line -/

/-- The leading delimiters of a text and its first token. -/
def firstPiece (text : List UInt8) : List UInt8 :=
  text.takeWhile tokDelim ++
    (text.dropWhile tokDelim).takeWhile fun c => !tokDelim c

theorem firstPiece_of_delims {text : List UInt8} (h : ∀ c ∈ text, tokDelim c = true) :
    firstPiece text = text := by
  rw [firstPiece, List.takeWhile_eq_self_iff.mpr h, List.dropWhile_eq_nil_iff.mpr h]
  simp

theorem firstPiece_of_token {ds tok : List UInt8} {c : UInt8} (rest : List UInt8)
    (hds : ∀ d ∈ ds, tokDelim d = true) (htok : ∀ x ∈ c :: tok, tokDelim x = false)
    (hrest : ∀ d ∈ rest.head?, tokDelim d = true) :
    firstPiece (ds ++ (c :: tok) ++ rest) = ds ++ c :: tok := by
  have hc : tokDelim c = false := htok c (by simp)
  have hword : ∀ x ∈ c :: tok, (!tokDelim x) = true := fun x hx => by simp [htok x hx]
  rw [firstPiece, List.append_assoc, List.takeWhile_append_of_pos hds,
    List.dropWhile_append_of_pos hds, List.cons_append, List.takeWhile_cons_of_neg (by simp [hc]),
    List.dropWhile_cons_of_neg (by simp [hc]), List.append_nil, ← List.cons_append,
    List.takeWhile_append_of_pos hword]
  cases rest with
  | nil => simp
  | cons d rest =>
      have hd : tokDelim d = true := hrest d (by simp)
      rw [List.takeWhile_cons_of_neg (by simp [hd]), List.append_nil]

/-- Does a delimiter stand behind a byte that is none? -/
def IsCut (text : List UInt8) : Prop :=
  ∃ pre d post, text = pre ++ d :: post ∧ tokDelim d = true ∧ ∃ c ∈ pre, tokDelim c = false

/-- Tokenizing leaves a text whole exactly when no delimiter stands behind a
byte that is none. -/
theorem firstPiece_eq_self_iff (text : List UInt8) :
    firstPiece text = text ↔ ¬ IsCut text := by
  rcases exists_split tokDelim text with
    hall | ⟨ds, c, tok, rfl, hds, htok⟩ | ⟨ds, c, tok, d, rest, rfl, hds, htok, hd⟩
  · apply iff_of_true (firstPiece_of_delims hall)
    rintro ⟨pre, d, post, rfl, _, c, hc, hnot⟩
    rw [hall c (by simp [hc])] at hnot
    cases hnot
  · have hpiece : firstPiece (ds ++ c :: tok) = ds ++ c :: tok := by
      have := firstPiece_of_token [] hds htok (by simp)
      rwa [List.append_nil] at this
    apply iff_of_true hpiece
    rintro ⟨pre, d, post, htext, hd, x, hx, hnot⟩
    rcases List.append_eq_append_iff.mp htext with ⟨more, hpre, htail⟩ | ⟨more, hds', htail⟩
    · have hmem : d ∈ c :: tok := by
        rw [htail]
        simp
      rw [htok d hmem] at hd
      cases hd
    · have hmem : x ∈ ds := by
        rw [hds']
        simp [hx]
      rw [hds x hmem] at hnot
      cases hnot
  · have hpiece := firstPiece_of_token (d :: rest) hds htok (by simpa using hd)
    refine iff_of_false ?_ (not_not_intro ⟨ds ++ c :: tok, d, rest, rfl, hd, c, by simp,
      htok c (by simp)⟩)
    rw [hpiece]
    intro hself
    have hlen := congrArg List.length hself
    simp only [List.length_append, List.length_cons] at hlen
    omega

/-! ## The loop -/

/-- A turn with a token stores it, with room left for the next pointer. -/
theorem tokenizeLoop_some {pos : Nat} {tokens : Block (Option Nat)}
    (fuel token next : Nat) (line : Block UInt8) (hpos : pos < tokens.cap) :
    ∃ tokens' : Block (Option Nat), pos + 1 < tokens'.cap ∧
      tokens'.cell = (tokens.set pos (some token)).cell ∧
      tokenizeLoop (fuel + 1) tokens.cap pos tokens (some token) next line =
        (strtok tokDelim line next >>= fun r =>
          tokenizeLoop fuel tokens'.cap (pos + 1) tokens' r.1 r.2.1 r.2.2) := by
  by_cases hgrow : pos + 1 ≥ tokens.cap
  · refine ⟨(tokens.set pos (some token)).resize (tokens.cap + psBfs), ?_, rfl, ?_⟩
    · show pos + 1 < tokens.cap + psBfs
      unfold psBfs
      omega
    · simp only [tokenizeLoop, Block.write_of_lt hpos, Outcome.ret_bind, if_pos hgrow]
      rfl
  · refine ⟨tokens.set pos (some token), Nat.lt_of_not_le hgrow, rfl, ?_⟩
    simp only [tokenizeLoop, Block.write_of_lt hpos, Outcome.ret_bind, if_neg hgrow]
    rfl

/-- What the loop makes of the array `tokens` from `pos` on and of the line from `i`
on, where a text with these tokens stood. -/
structure Tokenized (i pos : Nat) (text : List UInt8) (toks : List (List UInt8))
    (tokens : Block (Option Nat)) (line : Block UInt8) (tokens' : Block (Option Nat))
    (line' : Block UInt8) : Prop where
  cap : line'.cap = line.cap
  before : ∀ j, j < i → line'.cell j = line.cell j
  kept : ∀ j, j < pos → tokens'.cell j = tokens.cell j
  room : pos + toks.length < tokens'.cap
  ended : tokens'.cell (pos + toks.length) = none
  points : ∀ k tok, toks[k]? = some tok → ∃ start,
    tokens'.cell (pos + k) = some start ∧ HoldsText line' start tok
  piece : HoldsText line' i (firstPiece text)

/-- The loop over a token and over what follows it. -/
theorem Tokenized.cons {i pos next start : Nat} {ds tok rest text : List UInt8}
    {toks : List (List UInt8)} {tokens tokens₁ tokens₂ : Block (Option Nat)}
    {line line₁ line₂ : Block UInt8}
    (hcells : tokens₁.cell = (tokens.set pos (some start)).cell)
    (hstart : start = i + ds.length) (hnext : i + (ds ++ tok).length ≤ next)
    (hcap : line₁.cap = line.cap) (hbefore : ∀ j, j < i → line₁.cell j = line.cell j)
    (hpiece : firstPiece text = ds ++ tok) (htok : HoldsText line₂ i (ds ++ tok))
    (h : Tokenized next (pos + 1) rest toks tokens₁ line₁ tokens₂ line₂) :
    Tokenized i pos text (tok :: toks) tokens line tokens₂ line₂ where
  cap := h.cap.trans hcap
  before j hj := by
    rw [h.before j (by omega), hbefore j hj]
  kept j hj := by
    rw [h.kept j (by omega), hcells, Block.set_cell_ne _ _ (Nat.ne_of_lt hj)]
  room := by
    have hroom := h.room
    rw [List.length_cons]
    omega
  ended := by
    have hended := h.ended
    rw [Nat.add_assoc, Nat.add_comm 1] at hended
    exact hended
  points k tok' hk := by
    cases k with
    | zero =>
        cases hk
        refine ⟨start, ?_, ?_⟩
        · rw [Nat.add_zero, h.kept pos (Nat.lt_succ_self pos), hcells, Block.set_cell_self]
        · rw [hstart]
          exact htok.drop
    | succ k =>
        obtain ⟨start', hcell, htext⟩ := h.points k tok' hk
        refine ⟨start', ?_, htext⟩
        rw [← hcell]
        congr 1
        omega
  piece := by
    rw [hpiece]
    exact htok

/-- The loop ends, stays inside its array, and finds the tokens. -/
theorem tokenizeLoop_spaced : ∀ {fuel i pos : Nat} (tokens : Block (Option Nat))
    {line : Block UInt8} {text : List UInt8} {toks : List (List UInt8)},
    Spaced tokDelim text toks → HoldsText line i text → toks.length < fuel →
    pos < tokens.cap →
    ∃ tokens' line',
      (strtok tokDelim line i >>= fun r =>
        tokenizeLoop fuel tokens.cap pos tokens r.1 r.2.1 r.2.2) = .ret (tokens', line') ∧
      Tokenized i pos text toks tokens line tokens' line' := by
  intro fuel
  induction fuel with
  | zero =>
      intro i pos tokens line text toks _ _ hfuel
      simp at hfuel
  | succ fuel ih =>
      intro i pos tokens line text toks hspaced h hfuel hpos
      cases hspaced with
      | blank hall =>
          refine ⟨tokens.set pos none, line, ?_, ?_⟩
          · rw [strtok_none h (by decide) hall]
            simp only [Outcome.ret_bind, tokenizeLoop, Block.write_of_lt hpos, Outcome.pure_eq]
          · exact
              { cap := rfl
                before := fun _ _ => rfl
                kept := fun j hj => Block.set_cell_ne _ _ (Nat.ne_of_lt hj)
                room := hpos
                ended := Block.set_cell_self _ _ _
                points := fun k tok hk => by simp at hk
                piece := by rwa [firstPiece_of_delims hall] }
      | @token ds tok rest c toks hds htok hend hrest =>
          rw [List.length_cons] at hfuel
          have hroom : toks.length < fuel := Nat.lt_of_succ_lt_succ hfuel
          have hpiece : firstPiece (ds ++ (c :: tok) ++ rest) = ds ++ c :: tok :=
            firstPiece_of_token rest hds htok hend
          cases rest with
          | nil =>
              -- The token ends at the NUL, where the next call finds no other.
              rw [List.append_nil] at h
              obtain ⟨tokens₁, hpos₁, hcells, hloop⟩ := tokenizeLoop_some fuel
                (i + ds.length) (i + (ds ++ c :: tok).length) line hpos
              have hnul : HoldsText line (i + (ds ++ c :: tok).length) [] :=
                HoldsText.nil_iff.mpr ⟨h.inside, h.nul⟩
              obtain ⟨tokens₂, line₂, hrun, hdone⟩ := ih tokens₁ hrest hnul hroom hpos₁
              refine ⟨tokens₂, line₂, ?_, ?_⟩
              · rw [strtok_last h hds htok, Outcome.ret_bind, hloop]
                exact hrun
              · have htext : HoldsText line₂ i (ds ++ c :: tok) := by
                  rw [← List.append_nil (ds ++ c :: tok)]
                  apply HoldsText.glue (h.bytes.frame fun j _ hj => hdone.before j hj)
                  have hempty := hdone.piece
                  exact hempty
                exact hdone.cons hcells rfl (Nat.le_refl _) rfl (fun _ _ => rfl) hpiece htext
          | cons d rest =>
              -- The token is cut off, and the loop goes on behind the cut.
              have hd : tokDelim d = true := hend d rfl
              obtain ⟨tokens₁, hpos₁, hcells, hloop⟩ := tokenizeLoop_some fuel
                (i + ds.length) (i + (ds ++ c :: tok).length + 1)
                (line.set (i + (ds ++ c :: tok).length) 0) hpos
              obtain ⟨hleft, hright⟩ := h.cut
              obtain ⟨tokens₂, line₂, hrun, hdone⟩ :=
                ih tokens₁ (hrest.of_cons hd) hright hroom hpos₁
              refine ⟨tokens₂, line₂, ?_, ?_⟩
              · rw [strtok_cut h hds htok hd, Outcome.ret_bind, hloop]
                exact hrun
              · have htext : HoldsText line₂ i (ds ++ c :: tok) :=
                  hleft.frame hdone.cap fun j _ hj => hdone.before j (by omega)
                have hbefore : ∀ j, j < i →
                    (line.set (i + (ds ++ c :: tok).length) 0).cell j = line.cell j :=
                  fun j hj => Block.set_cell_ne line 0 (by omega)
                exact hdone.cons hcells rfl (Nat.le_succ _) (Block.set_cap line _ 0) hbefore
                  hpiece htext

/-- The array of pointers that `wsh_tokenize` returns reads as these tokens in the
line as it left it. -/
def ReadsTokens (tokens : Block (Option Nat)) (line : Block UInt8)
    (toks : List (List UInt8)) : Prop :=
  ∃ starts, tokens.contents = .ret starts ∧ List.Forall₂ (HoldsText line) starts toks

/-- Tokenizing gives the tokens, and leaves the first piece of the line in its
place. -/
theorem wshTokenize_spaced (fresh : Nat → Option Nat) {line : Block UInt8}
    {text : List UInt8} {toks : List (List UInt8)} (h : HoldsText line 0 text)
    (hspaced : Spaced tokDelim text toks) :
    ∃ tokens line', wshTokenize fresh line = .ret (tokens, line') ∧
      Tokenized 0 0 text toks (.alloc psBfs fresh) line tokens line' := by
  have hinside := h.inside
  have hlen := hspaced.length_le
  exact tokenizeLoop_spaced (Block.alloc psBfs fresh) hspaced h (by omega)
    (by decide : 0 < psBfs)

/-- An array of pointers reads in one way only. -/
theorem ReadsTokens.unique {tokens : Block (Option Nat)} {line : Block UInt8}
    {toks toks' : List (List UInt8)} (h : ReadsTokens tokens line toks)
    (h' : ReadsTokens tokens line toks') : toks = toks' := by
  obtain ⟨starts, hcontents, htexts⟩ := h
  obtain ⟨starts', hcontents', htexts'⟩ := h'
  cases hcontents.symm.trans hcontents'
  clear hcontents hcontents'
  induction htexts generalizing toks' with
  | nil =>
      cases htexts'
      rfl
  | cons htext _ ih =>
      cases htexts' with
      | cons htext' hrest' => rw [holdsText_unique htext htext', ih hrest']

/-- What the loop makes of the whole line reads as the tokens. -/
theorem Tokenized.reads {text : List UInt8} {toks : List (List UInt8)}
    {tokens tokens' : Block (Option Nat)} {line line' : Block UInt8}
    (h : Tokenized 0 0 text toks tokens line tokens' line') : ReadsTokens tokens' line' toks := by
  have hroom := h.room
  have hended := h.ended
  have hpoints := h.points
  simp only [Nat.zero_add] at hroom hended hpoints
  refine ⟨toks.mapIdx fun k _ => (tokens'.cell k).getD 0, ?_, ?_⟩
  · rw [Block.contents_eq_ret, List.length_mapIdx]
    refine ⟨hroom, fun k hk => ?_⟩
    rw [List.getElem?_mapIdx]
    rcases Nat.lt_or_eq_of_le hk with hlt | heq
    · obtain ⟨start, hcell, _⟩ := hpoints k toks[k] (List.getElem?_eq_getElem hlt)
      rw [List.getElem?_eq_getElem hlt, hcell]
      rfl
    · rw [heq, hended, List.getElem?_eq_none (Nat.le_refl _)]
      rfl
  · rw [List.forall₂_iff_get]
    refine ⟨by rw [List.length_mapIdx], fun k hk hk' => ?_⟩
    obtain ⟨start, hcell, htext⟩ := hpoints k toks[k] (List.getElem?_eq_getElem hk')
    simp only [List.get_eq_getElem, List.getElem_mapIdx, hcell, Option.getD_some]
    exact htext

/-- **Tokenizing leaves the first piece of the line** in its place. -/
theorem wshTokenize_spec (fresh : Nat → Option Nat) {line : Block UInt8} {text : List UInt8}
    (h : HoldsText line 0 text) :
    ∃ tokens line', wshTokenize fresh line = .ret (tokens, line') ∧
      line'.cap = line.cap ∧ HoldsText line' 0 (firstPiece text) := by
  obtain ⟨toks, hspaced⟩ := exists_spaced tokDelim text
  obtain ⟨tokens, line', hrun, hdone⟩ := wshTokenize_spaced fresh h hspaced
  exact ⟨tokens, line', hrun, hdone.cap, hdone.piece⟩

/-- **Tokenizing inverts spacing.**  In every line, however its tokens are spaced and
however many there are, `wsh_tokenize` writes inside its array, and the array reads
as exactly the tokens the line is spaced as; every line is spaced. -/
theorem wshTokenize_inverts (fresh : Nat → Option Nat) {line : Block UInt8}
    {text : List UInt8} (h : HoldsText line 0 text) :
    ∃ tokens line', wshTokenize fresh line = .ret (tokens, line') ∧
      (∃ toks, Spaced tokDelim text toks) ∧
      ∀ toks, Spaced tokDelim text toks ↔ ReadsTokens tokens line' toks := by
  obtain ⟨toks₀, hspaced₀⟩ := exists_spaced tokDelim text
  obtain ⟨tokens, line', hrun, hdone⟩ := wshTokenize_spaced fresh h hspaced₀
  refine ⟨tokens, line', hrun, ⟨toks₀, hspaced₀⟩, fun toks => ⟨fun hspaced => ?_, fun hreads => ?_⟩⟩
  · obtain ⟨tokens₁, line₁, hrun₁, hdone₁⟩ := wshTokenize_spaced fresh h hspaced
    cases hrun.symm.trans hrun₁
    exact hdone₁.reads
  · rw [hreads.unique hdone.reads]
    exact hspaced₀

/-- The line `ls -l`. -/
theorem wshTokenize_inverts_ls :
    HoldsText ⟨1024, fun i => [108, 115, 32, 45, 108].getD i 0⟩ 0 [108, 115, 32, 45, 108] ∧
    ∃ tokens line', wshTokenize (fun _ => none)
        ⟨1024, fun i => [108, 115, 32, 45, 108].getD i 0⟩ = .ret (tokens, line') ∧
      (∃ toks, Spaced tokDelim [108, 115, 32, 45, 108] toks) ∧
      ∀ toks, Spaced tokDelim [108, 115, 32, 45, 108] toks ↔
        ReadsTokens tokens line' toks :=
  have h : HoldsText ⟨1024, fun i => [108, 115, 32, 45, 108].getD i 0⟩ 0
      [108, 115, 32, 45, 108] := .of_cells (by decide) (by decide) fun j _ => by simp
  ⟨h, wshTokenize_inverts (fun _ => none) h⟩

end WizardShell.Ports
