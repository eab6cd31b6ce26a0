import Mathlib.Data.List.Induction
import WizardShell.Verified.Heap

/-!
# The command history

The functions of `history.c`, on a heap of `hist_node` objects.  What a node
holds for a command is left open; `malloc` succeeds.

`h_push` counts the command, then frees the last node once the count has
reached `HIST_MAX`, and then puts the new node in front.  The node that is
freed is not taken out of the list, and the count is never lowered, so the
history is a correct list of the recent commands exactly for fewer than
`HIST_MAX` pushes (`recentKept_iff`).
-/

namespace WizardShell.Ports

open WizardShell.Verified

/-- `HIST_MAX` -/
def histMax : Nat := 30

/-- What a `hist_node` holds besides `next`. -/
structure HistEntry (C : Type) where
  command : C
  prev : Option Nat
  deriving DecidableEq

/-- `hist_node` -/
abbrev HistNode (C : Type) := Node (HistEntry C)

/-- `history`, with the heap its nodes live in. -/
structure History (C : Type) where
  heap : Heap (HistNode C)
  first : Option Nat
  curr : Option Nat
  count : Nat

namespace History

variable {C : Type}

/-- The history `wsh_main` starts with. -/
def empty : History C := ⟨.empty, none, none, 0⟩

/-- `h_isEmpty(h)` -/
def hIsEmpty (h : History C) : Bool := h.count = 0

/-- `h_length(h)` -/
def hLength (h : History C) : Nat := h.count

/-- `pop_back(h)` -/
def popBack (h : History C) : Outcome (Int × History C) :=
  match h.first with
  | none => .ret (-1, h)
  | some first => do
      let curr ← lastNode h.heap (h.heap.fresh + 1) first
      let heap ← h.heap.free curr
      return (1, { h with heap := heap })

/-- The part of `h_push` behind the capacity check: a new node in front. -/
def pushFront (h : History C) (command : C) : Outcome (History C) := do
  let new := h.heap.fresh
  let heap := h.heap.alloc ⟨⟨command, none⟩, h.first⟩
  let heap ←
    match h.first with
    | none => Outcome.ret heap
    | some first => do
        let e ← heap.read first
        heap.write first { e with data := { e.data with prev := some new } }
  return { h with heap := heap, first := some new }

/-- `h_push(h, command)` -/
def hPush (h : History C) (command : C) : Outcome (Int × History C) := do
  let h := { h with count := h.count + 1 }
  let h ←
    if h.count ≥ histMax then h.popBack >>= fun r => Outcome.ret r.2
    else Outcome.ret h
  let h ← h.pushFront command
  return (0, h)

/-- One `h_push` after another. -/
def pushAll (h : History C) : List C → Outcome (History C)
  | [] => .ret h
  | command :: rest => do
      let (_, h) ← h.hPush command
      h.pushAll rest

/-! ## What the history should be -/

/-- Each node's `prev` is the node before it, and that of the first is `prev`. -/
def PrevLinked (prev : Option Nat) : List (Nat × HistEntry C) → Prop
  | [] => True
  | (a, e) :: rest => e.prev = prev ∧ PrevLinked (some a) rest

/-- Following `next` from `first` visits the live nodes `nodes` up to NULL, and
`prev` goes the other way. -/
structure Linked (h : History C) (nodes : List (Nat × HistEntry C)) : Prop where
  chain : Segment h.heap h.first nodes none
  back : PrevLinked none nodes

/-- After the pushes `commands` the history holds the most recent of them. -/
structure HoldsRecent (commands : List C) (h : History C)
    (nodes : List (Nat × HistEntry C)) : Prop where
  linked : h.Linked nodes
  recent : nodes.map (fun x => x.2.command) = commands.reverse.take histMax
  length : h.hLength = nodes.length

end History

open History

variable {C : Type}

/-- The pushes go through, and the history then holds the most recent commands,
newest first. -/
def RecentKept (commands : List C) : Prop :=
  ∃ h nodes, History.empty.pushAll commands = .ret h ∧ h.HoldsRecent commands nodes

/-! ## One push -/

/-- The list with a new node in front of it. -/
def setFirstPrev (new : Nat) : List (Nat × HistEntry C) → List (Nat × HistEntry C)
  | [] => []
  | (a, e) :: rest => (a, { e with prev := some new }) :: rest

theorem setFirstPrev_addrs (new : Nat) (nodes : List (Nat × HistEntry C)) :
    (setFirstPrev new nodes).map Prod.fst = nodes.map Prod.fst := by
  cases nodes <;> rfl

theorem setFirstPrev_commands (new : Nat) (nodes : List (Nat × HistEntry C)) :
    (setFirstPrev new nodes).map (fun x => x.2.command) =
      nodes.map fun x => x.2.command := by
  cases nodes <;> rfl

theorem setFirstPrev_linked {new : Nat} {prev : Option Nat}
    {nodes : List (Nat × HistEntry C)} (h : PrevLinked prev nodes) :
    PrevLinked (some new) (setFirstPrev new nodes) := by
  cases nodes with
  | nil => trivial
  | cons x rest => exact ⟨rfl, h.2⟩

/-- A push in front, of a list that may end at a freed node `q`. -/
theorem pushFront_spec {h : History C} {nodes : List (Nat × HistEntry C)}
    {q : Option Nat} (hchain : Segment h.heap h.first nodes q)
    (hnodup : (nodes.map Prod.fst).Nodup) (hq : nodes = [] → q = none) (command : C) :
    ∃ h', h.pushFront command = .ret h' ∧ h'.count = h.count ∧
      h'.heap.fresh = h.heap.fresh + 1 ∧
      Segment h'.heap h'.first
        ((h.heap.fresh, ⟨command, none⟩) :: setFirstPrev h.heap.fresh nodes) q ∧
      ∀ a, a < h.heap.fresh → h.heap.cell a = none → h'.heap.cell a = none := by
  have hdead : ∀ (v : HistNode C) (a : Nat), a < h.heap.fresh → h.heap.cell a = none →
      (h.heap.alloc v).cell a = none := by
    intro v a hlt ha
    rw [Heap.alloc_cell_ne h.heap v (Nat.ne_of_lt hlt), ha]
  cases nodes with
  | nil =>
      have hfirst : h.first = none := (Segment.nil_iff.mp hchain).trans (hq rfl)
      refine ⟨{ h with
                heap := h.heap.alloc ⟨⟨command, none⟩, h.first⟩
                first := some h.heap.fresh },
        by simp [pushFront, hfirst], rfl, rfl, ?_, hdead _⟩
      exact ⟨rfl, none, by rw [Heap.alloc_cell_self, hfirst], (hq rfl).symm⟩
  | cons x rest =>
      obtain ⟨first, e⟩ := x
      obtain ⟨hfirst, next, hcell, hrest⟩ := hchain
      have hlive := Heap.alloc_cell_of_live h.heap ⟨⟨command, none⟩, h.first⟩ hcell
      obtain ⟨heap', hwrite, hfresh, hself, hothers⟩ :=
        Heap.write_of_live hlive ⟨{ e with prev := some h.heap.fresh }, next⟩
      have hne : h.heap.fresh ≠ first := Nat.ne_of_gt (Heap.lt_fresh hcell)
      refine ⟨{ h with heap := heap', first := some h.heap.fresh }, ?_, rfl, hfresh, ?_, ?_⟩
      · rw [hfirst] at hlive hwrite
        simp only [pushFront, hfirst, Heap.read_of_live hlive, Outcome.ret_bind, hwrite,
          Outcome.pure_eq]
      · refine ⟨rfl, some first, ?_, rfl, next, hself, ?_⟩
        · rw [hothers _ hne, Heap.alloc_cell_self, hfirst]
        · refine (hrest.alloc _).frame fun y hy => hothers y.1 ?_
          intro heq
          have hmem : y.1 ∈ rest.map Prod.fst := List.mem_map_of_mem hy
          rw [heq] at hmem
          exact (List.nodup_cons.mp hnodup).1 hmem
      · intro a hlt ha
        have hafirst : a ≠ first := by
          rintro rfl
          rw [hcell] at ha
          cases ha
        rw [hothers a hafirst]
        exact hdead _ a hlt ha

/-- The history while nothing has been evicted: all commands are there. -/
structure Grown (commands : List C) (h : History C) (nodes : List (Nat × HistEntry C)) :
    Prop where
  linked : h.Linked nodes
  nodup : (nodes.map Prod.fst).Nodup
  all : nodes.map (fun x => x.2.command) = commands.reverse
  count : h.count = commands.length

/-- The history once a node that is still linked has been freed. -/
structure Corrupt (h : History C) (nodes : List (Nat × HistEntry C)) (freed : Nat) :
    Prop where
  chain : Segment h.heap h.first nodes (some freed)
  nodup : (nodes.map Prod.fst).Nodup
  dead : h.heap.cell freed = none
  first : h.first ≠ none
  count : histMax ≤ h.count

theorem grown_empty : Grown ([] : List C) History.empty [] where
  linked := ⟨rfl, trivial⟩
  nodup := List.nodup_nil
  all := rfl
  count := rfl

theorem nodup_push {h : History C} {nodes : List (Nat × HistEntry C)} {q : Option Nat}
    {e : HistEntry C} (hchain : Segment h.heap h.first nodes q)
    (hnodup : (nodes.map Prod.fst).Nodup) :
    (((h.heap.fresh, e) :: setFirstPrev h.heap.fresh nodes).map Prod.fst).Nodup := by
  rw [List.map_cons, setFirstPrev_addrs]
  refine List.nodup_cons.mpr ⟨fun hmem => ?_, hnodup⟩
  obtain ⟨x, hx, hfresh⟩ := List.mem_map.mp hmem
  exact Nat.ne_of_lt (hchain.lt_fresh hx) hfresh

/-- Below the capacity a push puts the command in front. -/
theorem Grown.push {commands : List C} {h : History C} {nodes : List (Nat × HistEntry C)}
    (hgrown : Grown commands h nodes) (hroom : commands.length + 1 < histMax) (command : C) :
    ∃ h' nodes', h.hPush command = .ret (0, h') ∧
      Grown (commands ++ [command]) h' nodes' := by
  have hcount : ¬ h.count + 1 ≥ histMax := by
    rw [hgrown.count]
    omega
  obtain ⟨h', hpush, hcount', _, hchain, _⟩ :=
    pushFront_spec (h := { h with count := h.count + 1 }) hgrown.linked.chain hgrown.nodup
      (fun _ => rfl) command
  refine ⟨h', _, ?_, ⟨hchain, rfl, setFirstPrev_linked hgrown.linked.back⟩,
    nodup_push hgrown.linked.chain hgrown.nodup, ?_, ?_⟩
  · simp only [hPush, if_neg hcount, Outcome.ret_bind, hpush, Outcome.pure_eq]
  · simp [setFirstPrev_commands, hgrown.all]
  · rw [hcount', List.length_append, ← hgrown.count]
    rfl

/-- The push that reaches the capacity frees the last node and leaves it
linked. -/
theorem Grown.push_full {commands : List C} {h : History C}
    {nodes : List (Nat × HistEntry C)} (hgrown : Grown commands h nodes)
    (hfull : commands.length + 1 = histMax) (command : C) :
    ∃ h' nodes' freed, h.hPush command = .ret (0, h') ∧ Corrupt h' nodes' freed := by
  have hlen : nodes.length + 1 = histMax := by
    have hlength := congrArg List.length hgrown.all
    rw [List.length_map, List.length_reverse] at hlength
    rw [hlength, hfull]
  have hchain := hgrown.linked.chain
  have hturns := hchain.length_le hgrown.nodup
  have hcount : h.count + 1 ≥ histMax := by
    rw [hgrown.count]
    omega
  cases nodes using List.reverseRecOn with
  | nil => exact absurd hlen (by simp [histMax])
  | append_singleton pre last =>
      obtain ⟨t, e⟩ := last
      obtain ⟨m, hpre, rfl, next, hcell, _⟩ := Segment.append_iff.mp hchain
      have hnodup := hgrown.nodup
      rw [List.map_append, List.nodup_append] at hnodup
      obtain ⟨hnodup, _, hdisjoint⟩ := hnodup
      have hnot : t ∉ pre.map Prod.fst := fun hmem => hdisjoint t hmem t (by simp) rfl
      rw [List.length_append, List.length_singleton] at hlen hturns
      have hpop : { h with count := h.count + 1 }.popBack =
          .ret (1, { h with count := h.count + 1, heap := h.heap.drop t }) := by
        obtain ⟨first, hfirst⟩ : ∃ first, h.first = some first := by
          cases pre with
          | nil => exact ⟨t, hpre⟩
          | cons y pre => exact ⟨y.1, hpre.1⟩
        rw [hfirst] at hchain
        have hlast := lastNode_eq hchain (by omega : pre.length < h.heap.fresh + 1)
        simp only [popBack, hfirst, hlast, Outcome.ret_bind, Heap.free_of_live hcell,
          Outcome.pure_eq]
      obtain ⟨h', hpush, hcount', _, hchain', hdead⟩ :=
        pushFront_spec (h := { h with count := h.count + 1, heap := h.heap.drop t })
          (hpre.drop hnot) hnodup
          (fun hnil => absurd hlen (by simp [hnil, histMax])) command
      refine ⟨h', _, t, ?_, hchain', nodup_push (hpre.drop hnot) hnodup, ?_, ?_, ?_⟩
      · simp only [hPush, if_pos hcount, hpop, Outcome.ret_bind, hpush, Outcome.pure_eq]
      · have hlt : t < h.heap.fresh := Heap.lt_fresh hcell
        exact hdead t hlt (Heap.drop_cell_self _ _)
      · rw [hchain'.1]
        exact Option.some_ne_none _
      · rw [hcount']
        exact hcount

/-- From then on a push walks into the freed node. -/
theorem Corrupt.push {h : History C} {nodes : List (Nat × HistEntry C)} {freed : Nat}
    (hcorrupt : Corrupt h nodes freed) (command : C) :
    h.hPush command = .undefined := by
  have hcount : h.count + 1 ≥ histMax := Nat.le_succ_of_le hcorrupt.count
  have hturns := hcorrupt.chain.length_le hcorrupt.nodup
  obtain ⟨first, hfirst⟩ := Option.ne_none_iff_exists'.mp hcorrupt.first
  have hchain := hcorrupt.chain
  rw [hfirst] at hchain
  have hdead := lastNode_dead hcorrupt.dead hchain
    (by omega : nodes.length < h.heap.fresh + 1)
  simp [hPush, hcount, popBack, hfirst, hdead]

/-! ## Runs of pushes -/

theorem pushAll_append (h : History C) (xs ys : List C) :
    h.pushAll (xs ++ ys) = (h.pushAll xs >>= fun h => h.pushAll ys) := by
  induction xs generalizing h with
  | nil => rfl
  | cons x xs ih =>
      simp only [List.cons_append, pushAll, bind_assoc]
      congr 1
      funext r
      exact ih r.2

/-- Below the capacity every run of pushes goes through and keeps everything. -/
theorem grown_of_lt {commands : List C} (hlt : commands.length < histMax) :
    ∃ h nodes, History.empty.pushAll commands = .ret h ∧ Grown commands h nodes := by
  induction commands using List.reverseRecOn with
  | nil => exact ⟨History.empty, [], rfl, grown_empty⟩
  | append_singleton commands command ih =>
      rw [List.length_append, List.length_singleton] at hlt
      obtain ⟨h, nodes, hall, hgrown⟩ := ih (by omega)
      obtain ⟨h', nodes', hpush, hgrown'⟩ := hgrown.push hlt command
      refine ⟨h', nodes', ?_, hgrown'⟩
      rw [pushAll_append, hall, Outcome.ret_bind]
      simp [pushAll, hpush]

/-- From the capacity on the history is no list of live nodes, if the pushes go
through at all. -/
theorem not_recentKept_of_le {commands : List C} (hle : histMax ≤ commands.length) :
    ¬ RecentKept commands := by
  rintro ⟨h, nodes, hall, hholds⟩
  obtain ⟨xs, rest, rfl, hxs⟩ : ∃ xs rest, commands = xs ++ rest ∧ xs.length + 1 = histMax :=
    ⟨commands.take 29, commands.drop 29, (List.take_append_drop 29 commands).symm, by
      rw [List.length_take]
      unfold histMax at hle ⊢
      omega⟩
  obtain ⟨h₁, nodes₁, hall₁, hgrown⟩ := grown_of_lt (by omega : xs.length < histMax)
  rw [pushAll_append, hall₁, Outcome.ret_bind] at hall
  cases rest with
  | nil =>
      rw [List.append_nil] at hle
      omega
  | cons command rest =>
      obtain ⟨h₂, nodes₂, freed, hpush, hcorrupt⟩ := hgrown.push_full hxs command
      simp only [pushAll, hpush, Outcome.ret_bind] at hall
      cases rest with
      | nil =>
          cases hall
          exact hcorrupt.chain.not_whole hcorrupt.dead hholds.linked.chain
      | cons command' rest =>
          simp [pushAll, hcorrupt.push command'] at hall

/-- Thirty commands are not kept. -/
theorem not_recentKept_thirty : ¬ RecentKept (List.range 30) :=
  not_recentKept_of_le (by decide)

/-- **When the history keeps the most recent commands.** -/
theorem recentKept_iff (commands : List C) :
    RecentKept commands ↔ commands.length < histMax := by
  constructor
  · intro hkept
    by_contra hle
    exact not_recentKept_of_le (Nat.le_of_not_lt hle) hkept
  · intro hlt
    obtain ⟨h, nodes, hall, hgrown⟩ := grown_of_lt hlt
    refine ⟨h, nodes, hall, hgrown.linked, ?_, ?_⟩
    · rw [hgrown.all, List.take_of_length_le]
      rw [List.length_reverse]
      exact Nat.le_of_lt hlt
    · rw [hLength, hgrown.count, ← List.length_reverse, ← hgrown.all, List.length_map]

end WizardShell.Ports
