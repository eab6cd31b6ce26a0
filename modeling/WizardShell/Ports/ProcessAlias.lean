import WizardShell.Ports.AliasTable
import WizardShell.Ports.Prep

/-!
# Defining an alias

`process_alias` copies the words of a definition into a fresh array and stores
it in the alias table.  It does not end the array: the cell behind the last
word keeps what the allocator left there, and it is that cell which decides
where a reader stops.

`definitionReads_iff`: a stored definition reads back as it was given exactly
when that cell happened to hold NULL.
-/

namespace WizardShell.Ports

open Function
open WizardShell.Verified

/-- The value of an alias: an array of words. -/
abbrev Definition := Block (Option CString)

/-- The copying loop: `i` indexes the tokens, the definition starts at 3. -/
def copyDefinition : List CString → Nat → Nat → Definition → Outcome Definition
  | [], _, _, tokDef => .ret tokDef
  | tok :: rest, i, bufsize, tokDef => do
      let tokDef ← tokDef.write (i - 3) (some tok)
      if i + 1 ≥ bufsize then
        copyDefinition rest (i + 1) (bufsize + psBfs)
          (tokDef.resize (bufsize + psBfs))
      else copyDefinition rest (i + 1) bufsize tokDef

/-- `print_arr`: the strings it prints, up to the first NULL. -/
def printArr (out : Definition) : Outcome (List CString) := out.contents

/-- `process_alias(tok_count, tokens, suppress_output)`, with `fresh` what the
memory for the definition held.  Returns -1, with the table unchanged, when a
definition or the `=` is missing. -/
def processAlias (fuel : Nat) (fresh : Nat → Option CString)
    (alTable : AliasTable Definition) (tokCount : Nat) (tokens : List CString)
    (suppressOutput : Bool) : Outcome (Int × AliasTable Definition) :=
  if tokCount < 4 then .ret (-1, alTable)
  else
    match tokens with
    | _ :: name :: equals :: definition =>
        if equals ≠ tokEquals then .ret (-1, alTable)
        else do
          let tokDef ← copyDefinition definition 3 psBfs (Block.alloc psBfs fresh)
          let (ret, alTable) ← atSet fuel alTable name tokDef
          if ret ≠ 0 then return (-1, alTable)
          if !suppressOutput then
            let _ ← printArr tokDef
          return (0, alTable)
    | _ => .undefined

/-- What `at_get(name)` yields reads, up to the NULL where `ppstrlen` stops,
as the words `l`. -/
def DefinitionReads (alTable : AliasTable Definition) (name : CString)
    (l : List CString) : Prop :=
  ∃ tokDef, Outcome.Returns (fun fuel => atGet fuel alTable name) (some tokDef) ∧
    ppstrlen tokDef = .ret l.length ∧
    ∀ j, j < l.length → tokDef.cell j = l[j]?

/-! ## The array that is stored -/

/-- The loop grows the array before it is full, so it always has room for one
more word; it writes the words and nothing else. -/
theorem copyDefinition_spec (rest : List CString) :
    ∀ (i : Nat) (b : Definition), 3 ≤ i → i < b.cap →
    ∃ b', copyDefinition rest i b.cap b = .ret b' ∧
      i + rest.length < b'.cap ∧
      (∀ j, j < i - 3 → b'.cell j = b.cell j) ∧
      (∀ j, j < rest.length → b'.cell (i - 3 + j) = rest[j]?) ∧
      (∀ j, i - 3 + rest.length ≤ j → b'.cell j = b.cell j) := by
  induction rest with
  | nil =>
      intro i b _ hcap
      exact ⟨b, rfl, hcap, fun _ _ => rfl, by simp, fun _ _ => rfl⟩
  | cons tok rest ih =>
      intro i b hi hcap
      -- The block after this turn: written, and grown if need be.
      obtain ⟨c, hloop, hccap, hcell⟩ : ∃ c : Definition,
          copyDefinition (tok :: rest) i b.cap b =
            copyDefinition rest (i + 1) c.cap c ∧
          i + 1 < c.cap ∧ c.cell = (b.set (i - 3) (some tok)).cell := by
        simp only [copyDefinition, Outcome.ret_bind,
          Block.write_of_lt (by omega : i - 3 < b.cap)]
        by_cases hgrow : i + 1 ≥ b.cap
        · rw [if_pos hgrow]
          refine ⟨(b.set (i - 3) (some tok)).resize (b.cap + psBfs), rfl, ?_, rfl⟩
          simp only [Block.resize_cap, psBfs]
          omega
        · rw [if_neg hgrow]
          exact ⟨b.set (i - 3) (some tok), rfl, by rw [Block.set_cap]; omega, rfl⟩
      obtain ⟨b', hb', hcap', hlow, hmid, hhigh⟩ := ih (i + 1) c (by omega) hccap
      refine ⟨b', hloop.trans hb', ?_, fun j hj => ?_, fun j hj => ?_,
        fun j hj => ?_⟩
      · rw [List.length_cons]
        omega
      · rw [hlow j (by omega), hcell, Block.set_cell_ne b _ (by omega)]
      · cases j with
        | zero =>
            rw [Nat.add_zero, hlow (i - 3) (by omega), hcell,
              Block.set_cell_self, List.getElem?_cons_zero]
        | succ j =>
            rw [List.length_cons] at hj
            rw [show i - 3 + (j + 1) = i + 1 - 3 + j by omega,
              hmid j (by omega), List.getElem?_cons_succ]
      · rw [List.length_cons] at hj
        rw [hhigh j (by omega), hcell, Block.set_cell_ne b _ (by omega)]

/-- The array `process_alias` stores: the words, then whatever was there. -/
theorem copyDefinition_start (definition : List CString)
    (fresh : Nat → Option CString) :
    ∃ tokDef : Definition,
      copyDefinition definition 3 psBfs (Block.alloc psBfs fresh) = .ret tokDef ∧
      definition.length < tokDef.cap ∧
      (∀ j, j < definition.length → tokDef.cell j = definition[j]?) ∧
      tokDef.cell definition.length = fresh definition.length := by
  obtain ⟨tokDef, hloop, hcap, _, hmid, hhigh⟩ :=
    copyDefinition_spec definition 3 (Block.alloc psBfs fresh) (Nat.le_refl 3)
      (by show 3 < psBfs; decide)
  refine ⟨tokDef, hloop, by omega, fun j hj => ?_, ?_⟩
  · simpa using hmid j hj
  · exact hhigh definition.length (by omega)

/-- An array of given words reads as these words exactly when the next cell is
NULL. -/
theorem reads_iff_null {tokDef : Definition} {l : List CString}
    (hcap : l.length < tokDef.cap)
    (hcells : ∀ j, j < l.length → tokDef.cell j = l[j]?) :
    ppstrlen tokDef = .ret l.length ↔ tokDef.cell l.length = none := by
  unfold ppstrlen
  rw [Block.nullIndex_eq, Outcome.bind_eq_ret]
  constructor
  · rintro ⟨read, hread, hlen⟩
    obtain ⟨_, hr⟩ := Block.contents_eq_ret.mp hread
    have hnull := hr read.length (Nat.le_refl _)
    rwa [List.getElem?_eq_none (Nat.le_refl _), Outcome.ret.inj hlen] at hnull
  · intro hnull
    refine ⟨l, Block.contents_eq_ret.mpr ⟨hcap, fun i hi => ?_⟩, rfl⟩
    rcases Nat.lt_or_eq_of_le hi with hlt | heq
    · exact hcells i hlt
    · rw [heq, hnull, List.getElem?_eq_none (Nat.le_refl _)]

/-! ## Storing it -/

/-- When `process_alias` succeeds, it has stored the copied array. -/
theorem processAlias_stores {fuel : Nat} {fresh : Nat → Option CString}
    {t t' : AliasTable Definition} {cmd name : CString}
    {definition : List CString} (hne : definition ≠ []) {suppress : Bool}
    (hret : processAlias fuel fresh t (definition.length + 3)
      (cmd :: name :: tokEquals :: definition) suppress = .ret (0, t')) :
    ∃ tokDef : Definition, atSetStep t (name, tokDef) t' ∧
      definition.length < tokDef.cap ∧
      (∀ j, j < definition.length → tokDef.cell j = definition[j]?) ∧
      tokDef.cell definition.length = fresh definition.length := by
  have hcount : ¬ definition.length + 3 < 4 := by
    have hpos := List.length_pos_iff.mpr hne
    omega
  obtain ⟨tokDef, hcopy, hcap, hcells, hlast⟩ :=
    copyDefinition_start definition fresh
  refine ⟨tokDef, ?_, hcap, hcells, hlast⟩
  simp only [processAlias, if_neg hcount, ne_eq, not_true_eq_false, if_false,
    hcopy, Outcome.ret_bind] at hret
  obtain ⟨⟨r, t1⟩, hset, hrest⟩ := Outcome.bind_eq_ret.mp hret
  by_cases hr : r = 0
  · subst hr
    refine ⟨fuel, ?_⟩
    cases suppress with
    | true =>
        simp only [not_true_eq_false, if_false, Bool.not_true, Bool.false_eq_true,
          Outcome.pure_eq, Outcome.ret.injEq, Prod.mk.injEq, true_and] at hrest
        rw [← hrest]
        exact hset
    | false =>
        simp only [not_true_eq_false, if_false, Bool.not_false, if_true] at hrest
        obtain ⟨_, _, hrest⟩ := Outcome.bind_eq_ret.mp hrest
        simp only [Outcome.pure_eq, Outcome.ret.injEq, Prod.mk.injEq, true_and] at hrest
        rw [← hrest]
        exact hset
  · simp [hr] at hrest

/-- A stored array of the words reads as them exactly when the cell behind is
NULL. -/
theorem stored_reads_iff {t : AliasTable Definition}
    {m : CString → Option Definition} (hmap : TableInv t m) {name : CString}
    {tokDef : Definition} (hkey : m name = some tokDef)
    {definition : List CString} (hcap : definition.length < tokDef.cap)
    (hcells : ∀ j, j < definition.length → tokDef.cell j = definition[j]?) :
    DefinitionReads t name definition ↔
      tokDef.cell definition.length = none := by
  rw [← reads_iff_null hcap hcells]
  constructor
  · rintro ⟨got, ⟨fuel, hgot⟩, hread, _⟩
    have hsame : some got = some tokDef := by
      rw [tableGet_spec hmap hgot, hkey]
    cases hsame
    exact hread
  · intro hread
    exact ⟨tokDef, tableGet_hit hmap hkey, hread, hcells⟩

/-- **What a definition reads as.**  After `alias name = d1 … dm` succeeds on a
table the shell can have, and any later definitions of other names, `name`
yields exactly `d1 … dm` if and only if cell `m` of the fresh memory held
NULL. -/
theorem definitionReads_iff (n : Nat) (hn : 2 ≤ n)
    (ops : List (CString × Definition)) (t t' t'' : AliasTable Definition)
    (hrun : AtRun n ops t) (fuel : Nat) (fresh : Nat → Option CString)
    (cmd name : CString) (definition : List CString) (hne : definition ≠ [])
    (suppress : Bool)
    (hret : processAlias fuel fresh t (definition.length + 3)
      (cmd :: name :: tokEquals :: definition) suppress = .ret (0, t'))
    (later : List (CString × Definition)) (hother : name ∉ later.map Prod.fst)
    (hlater : Run atSetStep t' later t'') :
    DefinitionReads t'' name definition ↔ fresh definition.length = none := by
  obtain ⟨tokDef, hstep, hcap, hcells, hlast⟩ := processAlias_stores hne hret
  have hall : AtRun n (ops ++ [(name, tokDef)] ++ later) t'' :=
    Run.append_iff.mpr ⟨t', .next hrun hstep, hlater⟩
  have hmap := (hall.inv hn).map
  have hkey : lastWrite (ops ++ [(name, tokDef)] ++ later) name = some tokDef := by
    rw [List.append_assoc]
    exact lastWrite_of_last hother
  rw [← hlast]
  exact stored_reads_iff hmap hkey hcap hcells

/-- Memory that held one stale pointer, in cell 1. -/
def staleCell : Nat → Option CString :=
  fun i => if i = 1 then some (.lit ['-', 'x']) else none

/-- `alias l = ls` in the shell's fresh table, in memory that held NULL. -/
theorem definitionReads_iff_ls :
    ∃ t' : AliasTable Definition,
      processAlias 1 (fun _ => none) (atNewAt 50 0) 4
        [.lit ['a', 'l', 'i', 'a', 's'], .lit ['l'], tokEquals, .lit ['l', 's']]
        true = .ret (0, t') ∧
      (DefinitionReads t' (.lit ['l']) [.lit ['l', 's']] ↔
        (fun _ : Nat => (none : Option CString)) 1 = none) :=
  have hret := rfl
  ⟨_, hret, definitionReads_iff 50 (by decide) [] (atNewAt 50 0) _ _ .start 1
    (fun _ => none) (.lit ['a', 'l', 'i', 'a', 's']) (.lit ['l'])
    [.lit ['l', 's']] (by decide) true hret [] (by simp) .start⟩

/-- With a stale pointer behind the word, `alias l = ls` stores a definition
that reads as `ls -x`. -/
theorem not_definitionReads_stale :
    ∃ t' : AliasTable Definition,
      processAlias 1 staleCell (atNewAt 50 0) 4
        [.lit ['a', 'l', 'i', 'a', 's'], .lit ['l'], tokEquals, .lit ['l', 's']]
        false = .ret (0, t') ∧
      ¬ DefinitionReads t' (.lit ['l']) [.lit ['l', 's']] := by
  obtain ⟨t', hret⟩ : ∃ t', processAlias 1 staleCell (atNewAt 50 0) 4
      [.lit ['a', 'l', 'i', 'a', 's'], .lit ['l'], tokEquals, .lit ['l', 's']]
      false = .ret (0, t') := ⟨_, rfl⟩
  refine ⟨t', hret, fun h => ?_⟩
  obtain ⟨tokDef, hstep, hcap, hcells, hlast⟩ :=
    processAlias_stores (List.cons_ne_nil _ _) hret
  have hmap := (AtRun.inv (by decide : 2 ≤ 50) (.next .start hstep)).map
  have hkey : lastWrite ([] ++ [(CString.lit ['l'], tokDef)]) (.lit ['l']) =
      some tokDef := lastWrite_of_last (by simp)
  have hnull := (stored_reads_iff hmap hkey hcap hcells).mp h
  rw [hlast] at hnull
  exact absurd hnull (by decide)

end WizardShell.Ports
