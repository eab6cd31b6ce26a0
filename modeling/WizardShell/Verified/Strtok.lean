import Mathlib.Data.List.GetD
import WizardShell.Verified.Block
import WizardShell.Verified.Spaced

/-!
# Text in memory and `strtok`

A block of bytes holds a text at an index when the bytes of the text stand
there, none of them NUL, and a NUL follows them inside the block.  Reading
bytes up to the NUL gives the text (`bytesAt_eq`), and a scan for a byte
stops where the text says (`scan_eq`).

`strtok` is the function of the C standard: it skips delimiters, returns the
start of the token that follows, and writes a NUL over the delimiter that ends
it, so that the next call goes on behind it.  What it does depends on how the
text splits (`exists_split`): there is no token, or one that ends at the NUL, or
one that is cut off (`strtok_none`, `strtok_last`, `strtok_cut`).
-/

namespace WizardShell.Verified

/-- The cells from `i` on hold these bytes, none of them NUL. -/
def Spans (b : Block UInt8) : Nat → List UInt8 → Prop
  | _, [] => True
  | i, c :: rest => b.cell i = c ∧ c ≠ 0 ∧ Spans b (i + 1) rest

/-- The block holds the text at `i`, with its NUL. -/
structure HoldsText (b : Block UInt8) (i : Nat) (text : List UInt8) : Prop where
  bytes : Spans b i text
  inside : i + text.length < b.cap
  nul : b.cell (i + text.length) = 0

namespace Spans

variable {b b' : Block UInt8} {i : Nat} {c : UInt8} {xs ys : List UInt8}

@[simp] theorem nil : Spans b i [] := trivial

@[simp] theorem cons_iff :
    Spans b i (c :: xs) ↔ b.cell i = c ∧ c ≠ 0 ∧ Spans b (i + 1) xs := Iff.rfl

theorem append_iff :
    Spans b i (xs ++ ys) ↔ Spans b i xs ∧ Spans b (i + xs.length) ys := by
  induction xs generalizing i with
  | nil => simp
  | cons c xs ih =>
      simp only [List.cons_append, cons_iff, ih, List.length_cons, and_assoc,
        Nat.add_assoc, Nat.add_comm 1]

/-- Bytes are untouched by a change elsewhere. -/
theorem frame (h : Spans b i xs)
    (hsame : ∀ j, i ≤ j → j < i + xs.length → b'.cell j = b.cell j) : Spans b' i xs := by
  induction xs generalizing i with
  | nil => trivial
  | cons c xs ih =>
      obtain ⟨hc, hne, hrest⟩ := h
      rw [List.length_cons] at hsame
      refine ⟨by rw [hsame i (by omega) (by omega), hc], hne, ih hrest ?_⟩
      intro j hlow hhigh
      exact hsame j (by omega) (by omega)

theorem noNul (h : Spans b i xs) : 0 ∉ xs := by
  induction xs generalizing i with
  | nil => simp
  | cons c xs ih =>
      obtain ⟨_, hne, hrest⟩ := h
      exact List.not_mem_cons_of_ne_of_not_mem (Ne.symm hne) (ih hrest)

/-- The bytes as cells. -/
theorem iff_cells :
    Spans b i xs ↔ 0 ∉ xs ∧ ∀ j, j < xs.length → b.cell (i + j) = xs.getD j 0 := by
  induction xs generalizing i with
  | nil => simp
  | cons c xs ih =>
      rw [cons_iff, ih]
      constructor
      · rintro ⟨hc, hne, hnul, hcells⟩
        refine ⟨List.not_mem_cons_of_ne_of_not_mem (Ne.symm hne) hnul, fun j hj => ?_⟩
        cases j with
        | zero => exact hc
        | succ j =>
            have hcell := hcells j (Nat.lt_of_succ_lt_succ hj)
            rw [Nat.add_assoc, Nat.add_comm 1 j] at hcell
            exact hcell
      · rintro ⟨hnul, hcells⟩
        rw [List.mem_cons, not_or] at hnul
        refine ⟨hcells 0 (Nat.succ_pos _), Ne.symm hnul.1, hnul.2, fun j hj => ?_⟩
        rw [Nat.add_assoc, Nat.add_comm 1 j]
        exact hcells (j + 1) (Nat.succ_lt_succ hj)

end Spans

namespace HoldsText

variable {b b' : Block UInt8} {i : Nat} {c : UInt8} {text : List UInt8}

theorem nil_iff : HoldsText b i [] ↔ i < b.cap ∧ b.cell i = 0 :=
  ⟨fun h => ⟨h.inside, h.nul⟩, fun h => ⟨trivial, h.1, h.2⟩⟩

theorem cons_iff :
    HoldsText b i (c :: text) ↔ b.cell i = c ∧ c ≠ 0 ∧ HoldsText b (i + 1) text := by
  have hindex : i + (text.length + 1) = i + 1 + text.length := by omega
  constructor
  · rintro ⟨⟨hc, hne, hrest⟩, hinside, hnul⟩
    rw [List.length_cons, hindex] at hinside hnul
    exact ⟨hc, hne, hrest, hinside, hnul⟩
  · rintro ⟨hc, hne, hrest, hinside, hnul⟩
    rw [← hindex] at hinside hnul
    exact ⟨⟨hc, hne, hrest⟩, hinside, hnul⟩

theorem noNul (h : HoldsText b i text) : 0 ∉ text := h.bytes.noNul

/-- The text as cells; behind its end `getD` says NUL. -/
theorem cell (h : HoldsText b i text) {j : Nat} (hj : j ≤ text.length) :
    b.cell (i + j) = text.getD j 0 := by
  by_cases hlt : j < text.length
  · exact (Spans.iff_cells.mp h.bytes).2 j hlt
  · have hend : j = text.length := by omega
    rw [hend, h.nul, List.getD_eq_default _ _ (Nat.le_refl _)]

theorem of_cells (hnul : 0 ∉ text) (hinside : i + text.length < b.cap)
    (hcells : ∀ j, j ≤ text.length → b.cell (i + j) = text.getD j 0) :
    HoldsText b i text where
  bytes := Spans.iff_cells.mpr ⟨hnul, fun j hj => hcells j (Nat.le_of_lt hj)⟩
  inside := hinside
  nul := by rw [hcells _ (Nat.le_refl _), List.getD_eq_default _ _ (Nat.le_refl _)]

/-- A text is untouched by a change elsewhere. -/
theorem frame (h : HoldsText b i text) (hcap : b'.cap = b.cap)
    (hsame : ∀ j, i ≤ j → j ≤ i + text.length → b'.cell j = b.cell j) :
    HoldsText b' i text where
  bytes := h.bytes.frame fun j hlow hhigh => hsame j hlow (Nat.le_of_lt hhigh)
  inside := by
    rw [hcap]
    exact h.inside
  nul := by rw [hsame _ (Nat.le_add_right _ _) (Nat.le_refl _), h.nul]

/-- A text is untouched by a change in front of it, and by more room. -/
theorem mono (h : HoldsText b i text) (hcap : b.cap ≤ b'.cap)
    (hsame : ∀ j, i ≤ j → b'.cell j = b.cell j) : HoldsText b' i text := by
  refine .of_cells h.noNul (Nat.lt_of_lt_of_le h.inside hcap) fun j hj => ?_
  rw [hsame _ (Nat.le_add_right _ _), h.cell hj]

/-- One byte of a text replaced. -/
theorem set (h : HoldsText b 0 text) {pos : Nat} (hpos : pos < text.length) (hc : c ≠ 0) :
    HoldsText (b.set pos c) 0 (text.set pos c) := by
  refine .of_cells (fun hmem => ?_) (by rw [List.length_set]; exact h.inside) fun j hj => ?_
  · rcases List.mem_or_eq_of_mem_set hmem with hold | hnew
    · exact h.noNul hold
    · exact hc hnew.symm
  · rw [List.length_set] at hj
    have hcell := h.cell hj
    rw [Nat.zero_add] at hcell ⊢
    by_cases hself : j = pos
    · rw [hself, Block.set_cell_self]
      simp [hpos]
    · rw [Block.set_cell_ne _ _ hself, hcell]
      simp [List.getElem?_set_ne (Ne.symm hself)]

/-- Behind the first part of a text stands the rest of it. -/
theorem drop {xs ys : List UInt8} (h : HoldsText b i (xs ++ ys)) :
    HoldsText b (i + xs.length) ys := by
  obtain ⟨hbytes, hinside, hnul⟩ := h
  rw [List.length_append, ← Nat.add_assoc] at hinside hnul
  exact ⟨(Spans.append_iff.mp hbytes).2, hinside, hnul⟩

/-- Bytes in front of a text make a longer one. -/
theorem glue {xs ys : List UInt8} (hbytes : Spans b i xs)
    (h : HoldsText b (i + xs.length) ys) : HoldsText b i (xs ++ ys) where
  bytes := Spans.append_iff.mpr ⟨hbytes, h.bytes⟩
  inside := by
    rw [List.length_append, ← Nat.add_assoc]
    exact h.inside
  nul := by
    rw [List.length_append, ← Nat.add_assoc]
    exact h.nul

/-- A NUL written into a text cuts it there. -/
theorem cut {xs ys : List UInt8} (h : HoldsText b i (xs ++ c :: ys)) :
    HoldsText (b.set (i + xs.length) 0) i xs ∧
      HoldsText (b.set (i + xs.length) 0) (i + xs.length + 1) ys := by
  have hinside := h.inside
  rw [List.length_append, List.length_cons] at hinside
  constructor
  · refine ⟨(Spans.append_iff.mp h.bytes).1.frame fun j _ hhigh => ?_, ?_, ?_⟩
    · exact Block.set_cell_ne b 0 (Nat.ne_of_lt hhigh)
    · show i + xs.length < b.cap
      omega
    · exact Block.set_cell_self b _ 0
  · refine HoldsText.frame (cons_iff.mp h.drop).2.2 rfl fun j hlow _ => ?_
    exact Block.set_cell_ne b 0 (by omega)

end HoldsText

/-! ## Reading and scanning -/

/-- The bytes from cell `i` to the first NUL, looking at no more than `room`
cells. -/
def bytesFrom (b : Block UInt8) : Nat → Nat → Outcome (List UInt8)
  | 0, _ => .undefined
  | room + 1, i =>
      if b.cell i = 0 then .ret []
      else do
        let rest ← bytesFrom b room (i + 1)
        return b.cell i :: rest

/-- The text at `i`; undefined when there is no NUL in the block. -/
def bytesAt (b : Block UInt8) (i : Nat) : Outcome (List UInt8) := bytesFrom b (b.cap - i) i

theorem bytesFrom_eq {b : Block UInt8} {text : List UInt8} :
    ∀ {room i : Nat}, HoldsText b i text → text.length < room →
      bytesFrom b room i = .ret text := by
  induction text with
  | nil =>
      intro room i h hroom
      cases room with
      | zero => simp at hroom
      | succ room => simp [bytesFrom, (HoldsText.nil_iff.mp h).2]
  | cons c text ih =>
      intro room i h hroom
      obtain ⟨hc, hne, hrest⟩ := HoldsText.cons_iff.mp h
      cases room with
      | zero => simp at hroom
      | succ room => simp [bytesFrom, hc, hne, ih hrest (by simpa using hroom)]

/-- **Reading gives the text that is there.** -/
theorem bytesAt_eq {b : Block UInt8} {i : Nat} {text : List UInt8}
    (h : HoldsText b i text) : bytesAt b i = .ret text :=
  bytesFrom_eq h (by have := h.inside; omega)

/-- Two texts at one place are the same. -/
theorem holdsText_unique {b : Block UInt8} {i : Nat} {xs ys : List UInt8}
    (hxs : HoldsText b i xs) (hys : HoldsText b i ys) : xs = ys :=
  Outcome.ret.inj ((bytesAt_eq hxs).symm.trans (bytesAt_eq hys))

/-- The first index from `i` on whose byte makes the scan stop. -/
def scan (stop : UInt8 → Bool) (b : Block UInt8) : Nat → Nat → Outcome Nat
  | 0, _ => .undefined
  | room + 1, i => if stop (b.cell i) then .ret i else scan stop b room (i + 1)

/-- A scan passes the bytes it does not stop at, and stops at the next. -/
theorem scan_eq {stop : UInt8 → Bool} {b : Block UInt8} {xs : List UInt8}
    (hpass : ∀ c ∈ xs, stop c = false) :
    ∀ {room i : Nat}, Spans b i xs → stop (b.cell (i + xs.length)) = true →
      xs.length < room → scan stop b room i = .ret (i + xs.length) := by
  induction xs with
  | nil =>
      intro room i _ hstop hroom
      cases room with
      | zero => simp at hroom
      | succ room =>
          have hhere : stop (b.cell i) = true := hstop
          simp [scan, hhere]
  | cons c xs ih =>
      intro room i hspans hstop hroom
      obtain ⟨hc, _, hrest⟩ := hspans
      have hindex : i + (c :: xs).length = i + 1 + xs.length := by
        rw [List.length_cons]
        omega
      cases room with
      | zero => simp at hroom
      | succ room =>
          have hgo : stop (b.cell i) = false := by
            rw [hc]
            exact hpass c (by simp)
          rw [hindex] at hstop ⊢
          simp only [scan, hgo, Bool.false_eq_true, if_false]
          exact ih (fun x hx => hpass x (by simp [hx])) hrest hstop (by simpa using hroom)

/-! ## `strtok` -/

/-- `strtok` on what is left of a line from index `i` on: the token's start, or
NULL, where the next call goes on, and the line. -/
def strtok (isDelim : UInt8 → Bool) (b : Block UInt8) (i : Nat) :
    Outcome (Option Nat × Nat × Block UInt8) := do
  let start ← scan (fun c => !isDelim c) b (b.cap - i) i
  if b.cell start = 0 then
    return (none, start, b)
  else
    let stop ← scan (fun c => isDelim c || c = 0) b (b.cap - start) start
    if b.cell stop = 0 then
      return (some start, stop, b)
    else
      let b ← b.write stop 0
      return (some start, stop + 1, b)

variable {isDelim : UInt8 → Bool} {b : Block UInt8} {i : Nat}

theorem skip_eq {ds : List UInt8} (rest : List UInt8) (h : HoldsText b i (ds ++ rest))
    (hds : ∀ d ∈ ds, isDelim d = true)
    (hstop : isDelim (b.cell (i + ds.length)) = false) :
    scan (fun c => !isDelim c) b (b.cap - i) i = .ret (i + ds.length) := by
  refine scan_eq (fun c hc => by simp [hds c hc]) (Spans.append_iff.mp h.bytes).1
    (by simp [hstop]) ?_
  have hinside := h.inside
  rw [List.length_append] at hinside
  omega

theorem strtok_none {text : List UInt8} (h : HoldsText b i text)
    (hnul : isDelim 0 = false) (hall : ∀ c ∈ text, isDelim c = true) :
    strtok isDelim b i = .ret (none, i + text.length, b) := by
  have hskip : scan (fun c => !isDelim c) b (b.cap - i) i = .ret (i + text.length) := by
    apply skip_eq [] (by rwa [List.append_nil]) hall
    rw [h.nul, hnul]
  simp [strtok, hskip, h.nul]

theorem strtok_last {ds tok : List UInt8} {c : UInt8} (h : HoldsText b i (ds ++ c :: tok))
    (hds : ∀ d ∈ ds, isDelim d = true) (htok : ∀ x ∈ c :: tok, isDelim x = false) :
    strtok isDelim b i = .ret (some (i + ds.length), i + (ds ++ c :: tok).length, b) := by
  obtain ⟨hc, hne, _⟩ := HoldsText.cons_iff.mp h.drop
  have hskip := skip_eq _ h hds (by rw [hc]; exact htok c (by simp))
  have hnonul : 0 ∉ c :: tok := h.drop.bytes.noNul
  have hend := h.drop.nul
  have hscan : scan (fun x => isDelim x || x = 0) b (b.cap - (i + ds.length))
      (i + ds.length) = .ret (i + ds.length + (c :: tok).length) := by
    refine scan_eq (fun x hx => ?_) h.drop.bytes ?_ ?_
    · have hx0 : x ≠ 0 := fun h0 => hnonul (h0 ▸ hx)
      simp [htok x hx, hx0]
    · rw [hend]
      simp
    · have hinside := h.drop.inside
      omega
  have hindex : i + (ds ++ c :: tok).length = i + ds.length + (c :: tok).length := by
    rw [List.length_append, Nat.add_assoc]
  rw [hindex]
  simp only [strtok, hskip, Outcome.ret_bind, hc, hne, if_false, hscan, hend, if_true,
    Outcome.pure_eq]

theorem strtok_cut {ds tok rest : List UInt8} {c d : UInt8}
    (h : HoldsText b i (ds ++ (c :: tok) ++ d :: rest))
    (hds : ∀ d ∈ ds, isDelim d = true) (htok : ∀ x ∈ c :: tok, isDelim x = false)
    (hd : isDelim d = true) :
    strtok isDelim b i = .ret (some (i + ds.length), i + (ds ++ c :: tok).length + 1,
      b.set (i + (ds ++ c :: tok).length) 0) := by
  rw [List.append_assoc] at h
  have hdrop := h.drop
  obtain ⟨hc, hne, _⟩ := HoldsText.cons_iff.mp hdrop
  have hskip := skip_eq _ h hds (by rw [hc]; exact htok c (by simp))
  obtain ⟨hspans, hspans'⟩ := Spans.append_iff.mp hdrop.bytes
  obtain ⟨hdcell, hd0, _⟩ := hspans'
  have hinside := hdrop.inside
  rw [List.length_append, List.length_cons] at hinside
  have hscan : scan (fun x => isDelim x || x = 0) b (b.cap - (i + ds.length))
      (i + ds.length) = .ret (i + ds.length + (c :: tok).length) := by
    refine scan_eq (fun x hx => ?_) hspans ?_ ?_
    · have hx0 : x ≠ 0 := fun h0 => hspans.noNul (h0 ▸ hx)
      simp [htok x hx, hx0]
    · rw [hdcell]
      simp [hd]
    · rw [List.length_cons]
      omega
  have hindex : i + (ds ++ c :: tok).length = i + ds.length + (c :: tok).length := by
    rw [List.length_append, Nat.add_assoc]
  have hwrite := Block.write_of_lt (b := b)
    (by rw [List.length_cons]; omega : i + ds.length + (c :: tok).length < b.cap) 0
  rw [hindex]
  simp only [strtok, hskip, Outcome.ret_bind, hc, hne, if_false, hscan, hdcell, hd0, hwrite,
    Outcome.pure_eq]

/-- **One call of `strtok`** takes the first token of a text, and the next call goes on in a
text with the others. -/
theorem strtok_token {tok text : List UInt8} {toks : List (List UInt8)}
    (h : HoldsText b i text) (hspaced : Spaced isDelim text (tok :: toks)) :
    ∃ start next b' rest, strtok isDelim b i = .ret (some start, next, b') ∧
      HoldsText b' start tok ∧ HoldsText b' next rest ∧ Spaced isDelim rest toks := by
  cases hspaced with
  | @token ds tok rest c toks hds htok hend hrest =>
      cases rest with
      | nil =>
          rw [List.append_nil] at h
          refine ⟨_, _, b, [], strtok_last h hds htok, h.drop, ?_, hrest⟩
          exact HoldsText.nil_iff.mpr ⟨h.inside, h.nul⟩
      | cons d rest =>
          have hd : isDelim d = true := hend d rfl
          obtain ⟨hleft, hright⟩ := h.cut
          exact ⟨_, _, _, rest, strtok_cut h hds htok hd, hleft.drop, hright, hrest.of_cons hd⟩

end WizardShell.Verified
