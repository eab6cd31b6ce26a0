import WizardShell.Ports.SessionRuns
import WizardShell.Ports.TableMemory

/-!
# The tables of a session, in memory

A session works on tables with a slot for every index below their size.  The tables that
`at_new_at` and `bt_new_bt` allocate are so, those of `at_blowup` and `bt_blowup` are not
(`TableMemory`).

`session_staysInside`: at every prompt the tables are those of the start exactly when no
definition, and no builtin, met a count of 50; and then they are tables in memory, in
which every call so far stayed inside the array, and every lookup does.
-/

namespace WizardShell.Ports

open WizardShell.Verified
open WizardShell.Verified.Probing
open TrieNode (null)

variable {V : Type}

namespace MemTable

/-- `at_new_at(size)`, where the memory of the count held `count` -/
def atNewAt (size count : Nat) : MemTable V := ⟨callocNodes (size * sizeofNode), size, count⟩

/-- A call of `at_set` that returns. -/
def setStep (t : MemTable V) (op : CString × V) (t' : MemTable V) : Prop :=
  Outcome.Returns (fun fuel => atSet fuel t op.1 op.2) (0, t')

/-- The calls lead to this table in memory, each inside the array; it is the table `t`, and
a lookup in it stays inside the array as well. -/
structure Backs (m : MemTable V) (stale : Nat) (ops : List (CString × V)) (t : Table V) :
    Prop where
  run : Run setStep (.atNewAt t.size stale) ops m
  table : m.toTable = t
  whole : m.entries.cap = t.size
  lookup : ∀ fuel name, m.atGet fuel name = tableGet fuel t name ∧
    m.atGet fuel name ≠ .undefined

end MemTable

/-- Before each of the calls the count, which began at `stale`, is below `n`. -/
def NeverFull (n stale : Nat) (names : List CString) : Prop :=
  ∀ pre name post, names = pre ++ name :: post → stale + pre.toFinset.card < n

section NeverFull

variable {n stale : Nat} {names : List CString} {name : CString}

theorem neverFull_nil : NeverFull n stale [] := by
  intro pre name post h
  cases pre <;> cases h

theorem neverFull_snoc :
    NeverFull n stale (names ++ [name]) ↔
      NeverFull n stale names ∧ stale + names.toFinset.card < n := by
  constructor
  · intro h
    refine ⟨fun pre name' post heq => h pre name' (post ++ [name]) ?_, h names name [] rfl⟩
    rw [heq, List.append_assoc, List.cons_append]
  · rintro ⟨hbefore, hlast⟩ pre name' post heq
    cases post using List.reverseRecOn with
    | nil =>
        obtain ⟨rfl, _⟩ := List.append_inj' heq rfl
        exact hlast
    | append_singleton post last =>
        rw [← List.cons_append, ← List.append_assoc] at heq
        obtain ⟨hnames, _⟩ := List.append_inj' heq rfl
        exact hbefore pre name' post hnames

end NeverFull

section Grown

variable {n stale : Nat} {ops : List (CString × V)} {t : Table V}

/-- **When a table has never grown.** -/
theorem StaleRun.size_eq_iff (hn : 2 ≤ n) (hrun : StaleRun n stale ops t) :
    t.size = n ↔ NeverFull n stale (ops.map Prod.fst) := by
  induction ops using List.reverseRecOn generalizing t with
  | nil =>
      cases Run.nil_iff.mp hrun
      exact iff_of_true rfl neverFull_nil
  | append_singleton pre op ih =>
      obtain ⟨s, hpre, fuel, hset⟩ := Run.snoc_iff.mp hrun
      have hinv := StaleRun.inv hn hpre
      obtain ⟨_, _, hsize, _⟩ := hinv.counts.set_spec hset
      have hgrow := lt_grow hinv.two_le
      have hle := hinv.le_size
      have hcount : s.count = stale + (pre.map Prod.fst).toFinset.card := by
        rw [hinv.counts.count, hinv.distinct, distinctKeys]
      rw [List.map_append, List.map_singleton, neverFull_snoc, ← ih hpre, hsize, sizeAfterSet]
      split <;> omega

end Grown

namespace MemTable

variable {n stale : Nat} {ops : List (CString × V)} {t : Table V} {m : MemTable V}

theorem callocNodes_whole (size : Nat) :
    (callocNodes (size * sizeofNode) : NodeArray V).cap = size := by
  show size * 16 / 16 = size
  omega

/-- Where the table need not grow, `at_set` is that of the table. -/
theorem atSet_eq (hwhole : m.entries.cap = m.size) (hroom : m.count < m.size) (fuel : Nat)
    (abbr : CString) (tokExt : V) :
    atSet fuel m abbr tokExt = (tableSet fuel m.toTable abbr tokExt >>= fun r =>
      .ret (r.1, ⟨⟨m.size, r.2.entries⟩, r.2.size, r.2.count⟩)) := by
  obtain ⟨⟨cap, cell⟩, size, count⟩ := m
  obtain rfl : cap = size := hwhole
  have hinside : cap ≤ (⟨cap, cell⟩ : NodeArray V).cap := Nat.le_refl cap
  have hcall := atSetInternal_eq (Nat.zero_lt_of_lt hroom) hinside fuel (some count) abbr tokExt
  have hmem : atRoom fuel (⟨⟨cap, cell⟩, cap, count⟩ : MemTable V) =
      .ret ⟨⟨cap, cell⟩, cap, count⟩ := if_neg (Nat.not_le.mpr hroom)
  have htable : tableRoom fuel (⟨cell, cap, count⟩ : Table V) = .ret ⟨cell, cap, count⟩ :=
    if_neg (Nat.not_le.mpr hroom)
  simp only [atSet, hmem, Outcome.ret_bind, hcall, toTable, tableSet, htable, bind_assoc]
  rfl

/-- No lookup in a table leaves it. -/
theorem tableGet_ne_undefined (fuel : Nat) (t : Table V) (key : CString) :
    tableGet fuel t key ≠ .undefined := by
  have hprobe : ∀ fuel ind, Probing.probe t.size t.entries key fuel ind ≠ .undefined := by
    intro fuel
    induction fuel with
    | zero => simp [Probing.probe]
    | succ fuel ih =>
        intro ind
        rw [Probing.probe]
        cases t.entries ind with
        | none => simp
        | some entry =>
            simp only
            split
            · simp
            · exact ih _
  rw [tableGet]
  cases hret : Probing.probe t.size t.entries key fuel (home t.size key) with
  | ret i =>
      rw [Outcome.ret_bind]
      cases t.entries i with
      | none => simp
      | some entry => simp
  | undefined => exact absurd hret (hprobe _ _)
  | outOfFuel => simp

theorem backs_start (hn : 2 ≤ n) (stale : Nat) :
    (atNewAt n stale : MemTable V).Backs stale [] (tableNew n stale) where
  run := .start
  table := rfl
  whole := callocNodes_whole n
  lookup fuel name := by
    have heq := atGet_eq (t := (atNewAt n stale : MemTable V)) (Nat.lt_of_lt_of_le (by decide) hn)
      (Nat.le_of_eq (callocNodes_whole n).symm) fuel name
    exact ⟨heq, heq ▸ tableGet_ne_undefined fuel _ name⟩

/-- One more call, where the table need not grow. -/
theorem Backs.set {op : CString × V} {fuel : Nat} {t' : Table V} (h : m.Backs stale ops t)
    (hset : tableSet fuel t op.1 op.2 = .ret (0, t')) (hroom : t.count < t.size)
    (hsize : t'.size = t.size) : ∃ m' : MemTable V, m'.Backs stale (ops ++ [op]) t' := by
  obtain ⟨entries, size, count⟩ := t'
  obtain rfl : size = t.size := hsize
  obtain ⟨hrun, htable, hwhole, _⟩ := h
  have hcap : m.entries.cap = m.size := by
    rw [hwhole, ← htable]
    rfl
  have hless : m.count < m.size := by
    rw [← htable] at hroom
    exact hroom
  have hcall := atSet_eq hcap hless fuel op.1 op.2
  rw [htable, hset, Outcome.ret_bind] at hcall
  have hsame : m.size = t.size := hcap.symm.trans hwhole
  have hpos : 0 < t.size := Nat.zero_lt_of_lt hroom
  refine ⟨⟨⟨m.size, entries⟩, t.size, count⟩, .next hrun ⟨fuel, hcall⟩, rfl, hsame,
    fun fuel name => ?_⟩
  have heq := atGet_eq (t := ⟨⟨m.size, entries⟩, t.size, count⟩) hpos (Nat.le_of_eq hsame.symm)
    fuel name
  exact ⟨heq, heq ▸ tableGet_ne_undefined fuel _ name⟩

/-- **A table that has never grown** is one in memory. -/
theorem backs_of_run (hn : 2 ≤ n) (hrun : StaleRun n stale ops t) (hsize : t.size = n) :
    ∃ m : MemTable V, m.Backs stale ops t := by
  induction ops using List.reverseRecOn generalizing t with
  | nil =>
      cases Run.nil_iff.mp hrun
      exact ⟨_, backs_start hn stale⟩
  | append_singleton pre op ih =>
      obtain ⟨s, hpre, fuel, hset⟩ := Run.snoc_iff.mp hrun
      have hinv := StaleRun.inv hn hpre
      obtain ⟨_, _, hkept, _⟩ := hinv.counts.set_spec hset
      rw [hsize, sizeAfterSet] at hkept
      have hgrow := lt_grow hinv.two_le
      have hle := hinv.le_size
      have hroom : s.count < s.size ∧ s.size = n := by
        split at hkept <;> omega
      obtain ⟨m, hbacks⟩ := ih hpre hroom.2
      exact hbacks.set hset hroom.1 (hsize.trans hroom.2.symm)

end MemTable

/-! ## The tables of the shell -/

section Builtins

variable {stale fuel : Nat} {ops : List (CString × Builtin)} {t t' : BuiltinsTable Builtin}

/-- The calls of `bt_set` make a run. -/
theorem btSetAll_run {pre : List (CString × Builtin)} (hrun : StaleRun 50 stale pre t)
    (hret : btSetAll fuel t ops = .ret t') : StaleRun 50 stale (pre ++ ops) t' := by
  induction ops generalizing pre t with
  | nil =>
      cases hret
      rwa [List.append_nil]
  | cons op rest ih =>
      obtain ⟨⟨ret, u⟩, hset, hret⟩ := Outcome.bind_eq_ret.mp hret
      have hcall : tableSet fuel t op.1 op.2 = .ret (ret, u) := hset
      have hinv := StaleRun.inv (by decide) hrun
      obtain ⟨rfl, _⟩ := hinv.counts.set_spec hcall
      have hmore := ih (.next hrun ⟨fuel, hcall⟩) hret
      rwa [List.append_assoc] at hmore

/-- The seven names are different. -/
theorem neverFull_registered : NeverFull 50 stale (registered.map Prod.fst) ↔ stale + 7 ≤ 50 := by
  constructor
  · intro h
    have hlast := h ((registered.map Prod.fst).take 6) (.lit ['e', 'x', 'i', 't']) [] rfl
    have hsix : ((registered.map Prod.fst).take 6).toFinset.card = 6 := by decide
    omega
  · intro hle pre name post heq
    have hlen := congrArg List.length heq
    rw [List.length_append, List.length_cons] at hlen
    have hseven : (registered.map Prod.fst).length = 7 := rfl
    have hcard := List.toFinset_card_le pre
    omega

end Builtins

section Sessions

variable {staleAliases staleBuiltins : Nat} {completions : TrieNode} {pgrp : Int}
  {S : Set LowerWord}

/-- The builtins of a session are those of the start. -/
theorem SessionRun.builtins {rounds : List Round} {s : Session} (hne : completions ≠ null)
    (hholds : Holds completions S)
    (hrun : SessionRun staleAliases staleBuiltins completions pgrp rounds s) :
    StaleRun 50 staleBuiltins registered s.biTable := by
  obtain ⟨s₀, ⟨fuel, hstart⟩, hrun⟩ := hrun
  let Kept (_ : List Round) (s : Session) : Prop :=
    ∃ v, s.Shows staleAliases v ∧ s.biTable = s₀.biTable
  have hstep : ∀ rounds s r s', Kept rounds s → sessionStep s r s' → Kept (rounds ++ [r]) s' := by
    rintro _ s r s' ⟨v, hshows, hsame⟩ hstep
    obtain ⟨v', _, hshows', hsame'⟩ := sessionStep_serves hshows hstep
    exact ⟨v', hshows', hsame'.trans hsame⟩
  have hkept : Kept rounds s :=
    Run.invariant ⟨_, Session.start_shows hne hholds hstart, rfl⟩ hstep hrun
  obtain ⟨_, _, hsame⟩ := hkept
  obtain ⟨biTable, hbuiltins, hret⟩ := Outcome.bind_eq_ret.mp hstart
  cases hret
  rw [hsame]
  exact btSetAll_run .start hbuiltins

/-- **Which sessions stay inside their tables.**  At every prompt of every session the
alias table has 50 slots exactly when every definition met a count below 50, and the builtins
table exactly when its count began at 43 or less.  A table of 50 slots is one in memory: the
calls that made it stayed inside the array that was allocated at the start, and so does
every lookup, with the same answer. -/
theorem session_staysInside (hne : completions ≠ null) (hholds : Holds completions S)
    (rounds : List Round) (s : Session)
    (hrun : SessionRun staleAliases staleBuiltins completions pgrp rounds s) :
    ∃ v ops, Run View.step (View.start S pgrp) rounds v ∧
      v.defs = ops.map (fun op => (op.1, definitionWords op.2)) ∧
      (s.alTable.size = 50 ↔ NeverFull 50 staleAliases (v.defs.map Prod.fst)) ∧
      (s.biTable.size = 50 ↔ staleBuiltins + 7 ≤ 50) ∧
      (s.alTable.size = 50 →
        ∃ m : MemTable Definition, m.Backs staleAliases ops s.alTable) ∧
      (s.biTable.size = 50 →
        ∃ m : MemTable Builtin, m.Backs staleBuiltins registered s.biTable) := by
  obtain ⟨v, hview, hshows⟩ := hrun.shows hne hholds
  obtain ⟨ops, haliases⟩ := hshows.aliases
  have hbuiltins := hrun.builtins hne hholds
  have hnames : v.defs.map Prod.fst = ops.map Prod.fst := by
    rw [haliases.words, List.map_map]
    rfl
  refine ⟨v, ops, hview, haliases.words, ?_, ?_, fun hsize => ?_, fun hsize => ?_⟩
  · rw [hnames]
    exact StaleRun.size_eq_iff (by decide) haliases.run
  · rw [← neverFull_registered]
    exact StaleRun.size_eq_iff (by decide) hbuiltins
  · exact MemTable.backs_of_run (by decide) haliases.run hsize
  · exact MemTable.backs_of_run (by decide) hbuiltins hsize

/-- After `alias l = ls` and `l &`, where the counts began at 7 and 9. -/
theorem session_staysInside_twoLines : ∃ completions S s, completions ≠ null ∧
    Holds completions S ∧
    SessionRun 7 9 completions 1 [typing aliasLine 0, typing jobLine 100] s ∧
    ∃ v ops, Run View.step (View.start S 1) [typing aliasLine 0, typing jobLine 100] v ∧
      v.defs = ops.map (fun op => (op.1, definitionWords op.2)) ∧
      (s.alTable.size = 50 ↔ NeverFull 50 7 (v.defs.map Prod.fst)) ∧
      (s.biTable.size = 50 ↔ 9 + 7 ≤ 50) ∧
      (s.alTable.size = 50 → ∃ m : MemTable Definition, m.Backs 7 ops s.alTable) ∧
      (s.biTable.size = 50 → ∃ m : MemTable Builtin, m.Backs 9 registered s.biTable) := by
  obtain ⟨t, S, hne, hholds⟩ := exists_words
  obtain ⟨s, _, hrun, _⟩ := exists_sessionRun hne hholds twoLines_script
  exact ⟨t, S, s, hne, hholds, hrun, session_staysInside hne hholds _ s hrun⟩

end Sessions

end WizardShell.Ports
