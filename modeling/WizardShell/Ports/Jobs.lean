import WizardShell.Ports.CString
import WizardShell.Verified.CursorList
import WizardShell.Verified.Heap

/-!
# The job list

The functions of `jobs.c`, on a heap of `job_element_t` objects linked by
`next`.  The list itself is never NULL, a job's command is a string of its own,
and `malloc` succeeds.  Every loop walks the list; it is given a turn more than
there ever were elements, so it runs out of them only on a cyclic list.

`Lists l elems` says that the elements are linked in the order of `elems`.  Each
function returns on such a list, and a lemma says what it makes of `elems`.
-/

namespace WizardShell.Ports

open WizardShell.Verified

/-- `process_state_t` -/
inductive ProcessState where
  | running
  | stopped
  deriving DecidableEq, Repr

/-- What a `job_element_t` holds besides `next`. -/
structure Job where
  jid : Int
  pid : Int
  state : ProcessState
  command : CString
  deriving DecidableEq

/-- `job_element_t` -/
abbrev JobElement := Node Job

/-- `job_list_t`, with the heap its elements live in. -/
structure JobList where
  heap : Heap JobElement
  head : Option Nat
  current : Option Nat

/-- `init_job_list()` -/
def initJobList : JobList := ⟨.empty, none, none⟩

namespace JobList

/-- The turns a loop over the list may take. -/
def turns (l : JobList) : Nat := l.heap.fresh + 1

/-- `add_job(job_list, jid, pid, state, command)` -/
def addJob (l : JobList) (jid pid : Int) (state : ProcessState) (command : CString) :
    Outcome (Int × JobList) := do
  let new := l.heap.fresh
  let heap := l.heap.alloc ⟨⟨jid, pid, state, command⟩, none⟩
  match l.head with
  | none => return (0, { heap := heap, head := some new, current := some new })
  | some head =>
      let cur ← lastNode heap l.turns head
      let e ← heap.read cur
      let heap ← heap.write cur { e with next := some new }
      return (0, { l with heap := heap })

/-- Take the element `cur`, found behind `prev`, out of the list. -/
def unlink (l : JobList) (prev : Option Nat) (cur : Nat) (next : Option Nat) :
    Outcome JobList := do
  let heap ←
    match prev with
    | none => Outcome.ret l.heap
    | some p => do
        let e ← l.heap.read p
        l.heap.write p { e with next := next }
  let heap ← heap.free cur
  return { heap := heap
           head := if l.head = some cur then next else l.head
           current := if l.current = some cur then next else l.current }

/-- The loop `while (cur != NULL)` of the functions that look for a job: the
first element found is a hit, and the end of the list a miss. -/
def searchFrom {β : Type} (found : Job → Bool)
    (hit : Option Nat → Nat → JobElement → Outcome β) (miss : β)
    (heap : Heap JobElement) : Nat → Option Nat → Option Nat → Outcome β
  | 0, _, _ => .outOfFuel
  | _ + 1, _, none => .ret miss
  | fuel + 1, prev, some cur => do
      let e ← heap.read cur
      if found e.data then hit prev cur e
      else searchFrom found hit miss heap fuel (some cur) e.next

def search {β : Type} (l : JobList) (found : Job → Bool)
    (hit : Option Nat → Nat → JobElement → Outcome β) (miss : β) : Outcome β :=
  searchFrom found hit miss l.heap l.turns none l.head

/-- Remove the first job found: `remove_job_jid` and `remove_job_pid`. -/
def remove (l : JobList) (found : Job → Bool) : Outcome (Int × JobList) :=
  l.search found
    (fun prev cur e => do
      let l ← l.unlink prev cur e.next
      return (0, l))
    (-1, l)

/-- Set the state of the first job found: `update_job_jid` and
`update_job_pid`. -/
def update (l : JobList) (found : Job → Bool) (state : ProcessState) :
    Outcome (Int × JobList) :=
  l.search found
    (fun _ cur e => do
      let heap ← l.heap.write cur { e with data := { e.data with state := state } }
      return (0, { l with heap := heap }))
    (-1, l)

/-- A field of the first job found: `get_job_pid` and `get_job_jid`. -/
def get (l : JobList) (found : Job → Bool) (field : Job → Int) : Outcome Int :=
  l.search found (fun _ _ e => .ret (field e.data)) (-1)

/-- `remove_job_jid(job_list, jid)` -/
def removeJobJid (l : JobList) (jid : Int) : Outcome (Int × JobList) :=
  l.remove fun j => j.jid = jid

/-- `remove_job_pid(job_list, pid)` -/
def removeJobPid (l : JobList) (pid : Int) : Outcome (Int × JobList) :=
  l.remove fun j => j.pid = pid

/-- `update_job_jid(job_list, jid, state)` -/
def updateJobJid (l : JobList) (jid : Int) (state : ProcessState) :
    Outcome (Int × JobList) :=
  l.update (fun j => j.jid = jid) state

/-- `update_job_pid(job_list, pid, state)` -/
def updateJobPid (l : JobList) (pid : Int) (state : ProcessState) :
    Outcome (Int × JobList) :=
  l.update (fun j => j.pid = pid) state

/-- `get_job_pid(job_list, jid)` -/
def getJobPid (l : JobList) (jid : Int) : Outcome Int :=
  l.get (fun j => j.jid = jid) Job.pid

/-- `get_job_jid(job_list, pid)` -/
def getJobJid (l : JobList) (pid : Int) : Outcome Int :=
  l.get (fun j => j.pid = pid) Job.jid

/-- `get_next_pid(job_list)` -/
def getNextPid (l : JobList) : Outcome (Int × JobList) :=
  match l.current with
  | none => .ret (-1, { l with current := l.head })
  | some cur => do
      let e ← l.heap.read cur
      return (e.data.pid, { l with current := e.next })

/-- The loop of `jobs`: the job of each element, in the order printed. -/
def jobsFrom (heap : Heap JobElement) : Nat → Option Nat → Outcome (List Job)
  | 0, _ => .outOfFuel
  | _ + 1, none => .ret []
  | fuel + 1, some cur => do
      let e ← heap.read cur
      let rest ← jobsFrom heap fuel e.next
      return e.data :: rest

/-- `jobs(job_list)`: the jobs it prints a line about. -/
def jobs (l : JobList) : Outcome (List Job) := jobsFrom l.heap l.turns l.head

/-! ## The list as its elements -/

/-- The elements, with their addresses, in the order of the list. -/
structure Lists (l : JobList) (elems : List (Nat × Job)) : Prop where
  chain : Segment l.heap l.head elems none
  sorted : (elems.map Prod.fst).Pairwise (· < ·)
  current : ∀ c, l.current = some c → c ∈ elems.map Prod.fst

/-- The list and its cursor, without the jobs. -/
def cursorList (l : JobList) (elems : List (Nat × Job)) : CursorList :=
  ⟨elems.map Prod.fst, l.current, l.heap.fresh⟩

theorem lists_init : Lists initJobList [] where
  chain := rfl
  sorted := List.Pairwise.nil
  current _ h := by cases h

variable {l : JobList} {elems : List (Nat × Job)}

theorem Lists.valid (h : Lists l elems) : (l.cursorList elems).Valid where
  sorted := h.sorted
  cursor_mem := h.current
  lt_fresh a ha := by
    obtain ⟨x, hx, rfl⟩ := List.mem_map.mp ha
    exact h.chain.lt_fresh hx

theorem Lists.nodup (h : Lists l elems) : (elems.map Prod.fst).Nodup :=
  h.sorted.imp Nat.ne_of_lt

theorem Lists.length_lt_turns (h : Lists l elems) : elems.length < l.turns :=
  Nat.lt_succ_of_le (h.chain.length_le h.nodup)

/-! ### Adding -/

/-- A new address comes behind the others. -/
theorem Lists.sorted_snoc (h : Lists l elems) (j : Job) :
    ((elems ++ [(l.heap.fresh, j)]).map Prod.fst).Pairwise (· < ·) := by
  rw [List.map_append]
  refine List.pairwise_append.mpr ⟨h.sorted, List.pairwise_singleton _ _, ?_⟩
  intro a ha b hb
  rw [List.mem_singleton.mp hb]
  exact h.valid.lt_fresh a ha

/-- `add_job` puts the job behind the others. -/
theorem Lists.addJob (h : Lists l elems) (jid pid : Int) (state : ProcessState)
    (command : CString) :
    ∃ l', l.addJob jid pid state command = .ret (0, l') ∧
      Lists l' (elems ++ [(l.heap.fresh, ⟨jid, pid, state, command⟩)]) ∧
      l'.heap.fresh = l.heap.fresh + 1 ∧
      l'.current = if elems = [] then some l.heap.fresh else l.current := by
  have hsorted := h.sorted_snoc ⟨jid, pid, state, command⟩
  cases elems using List.reverseRecOn with
  | nil =>
      have hhead : l.head = none := Segment.nil_iff.mp h.chain
      refine ⟨_, by simp [JobList.addJob, hhead]; rfl, ⟨?_, hsorted, ?_⟩, rfl, by simp⟩
      · exact ⟨rfl, none, Heap.alloc_cell_self _ _, rfl⟩
      · intro c hc
        cases hc
        simp
  | append_singleton pre x =>
      obtain ⟨a, j⟩ := x
      have hne : pre ++ [(a, j)] ≠ [] := by simp
      have hseg := h.chain.alloc ⟨⟨jid, pid, state, command⟩, none⟩
      obtain ⟨p, hp⟩ : ∃ p, l.head = some p := by
        cases pre with
        | nil => exact ⟨a, h.chain.1⟩
        | cons y pre => exact ⟨y.1, h.chain.1⟩
      have hlast := hseg
      rw [hp] at hlast
      have hlen : pre.length < l.turns := by
        have := h.length_lt_turns
        simp only [List.length_append] at this
        omega
      obtain ⟨m, _, _, next, hcell, _⟩ := Segment.append_iff.mp hseg
      obtain ⟨heap', hwrite, hfresh, hself, hothers⟩ :=
        Heap.write_of_live hcell ⟨j, some l.heap.fresh⟩
      have hnodup : a ∉ pre.map Prod.fst := by
        have := h.nodup
        rw [List.map_append, List.nodup_append] at this
        exact fun hmem => this.2.2 a hmem a (by simp) rfl
      have halloc : a ≠ l.heap.fresh := Nat.ne_of_lt (h.chain.lt_fresh (by simp : (a, j) ∈ _))
      refine ⟨{ l with heap := heap' }, ?_, ⟨?_, hsorted, ?_⟩, hfresh, by simp⟩
      · simp [JobList.addJob, hp, lastNode_eq hlast hlen, Heap.read_of_live hcell, hwrite]
      · refine Segment.append_iff.mpr
          ⟨_, hseg.relink hnodup hself hothers, rfl, none, ?_, rfl⟩
        rw [hothers _ (Ne.symm halloc)]
        exact Heap.alloc_cell_self _ _
      · intro c hc
        rw [List.map_append]
        exact List.mem_append_left _ (h.current c hc)

/-- What an element with its job found makes of a list around it. -/
theorem Lists.split {pre post : List (Nat × Job)} {a : Nat} {j : Job}
    (h : Lists l (pre ++ (a, j) :: post)) :
    ∃ next, l.heap.cell a = some ⟨j, next⟩ ∧ Segment l.heap l.head pre (some a) ∧
      Segment l.heap next post none ∧ a ∉ pre.map Prod.fst ∧ a ∉ post.map Prod.fst := by
  obtain ⟨m, hpre, hm, next, hcell, hpost⟩ := Segment.append_iff.mp h.chain
  have hnodup := h.nodup
  rw [List.map_append, List.map_cons, List.nodup_append, List.nodup_cons] at hnodup
  obtain ⟨_, ⟨hnotpost, _⟩, hdisjoint⟩ := hnodup
  refine ⟨next, hcell, hm ▸ hpre, hpost, fun hmem => ?_, hnotpost⟩
  exact hdisjoint a hmem a (by simp) rfl

/-- A chain of the others, with a cursor at the element moved to the one behind
it, is the list without the element. -/
theorem Lists.without {pre post : List (Nat × Job)} {a : Nat} {j : Job}
    {next head : Option Nat} {heap : Heap JobElement}
    (h : Lists l (pre ++ (a, j) :: post)) (hpost : Segment l.heap next post none)
    (hchain : Segment heap head (pre ++ post) none) :
    Lists ⟨heap, head, if l.current = some a then next else l.current⟩ (pre ++ post) where
  chain := hchain
  sorted := by
    refine h.sorted.sublist (List.Sublist.map _ ?_)
    exact List.Sublist.append_left (List.sublist_cons_self _ _) pre
  current := by
    intro c hc
    show c ∈ (pre ++ post).map Prod.fst
    rw [List.map_append, List.mem_append]
    by_cases hcursor : l.current = some a
    · right
      rw [if_pos hcursor, hpost.start_eq] at hc
      obtain ⟨x, hx, rfl⟩ := Option.map_eq_some_iff.mp hc
      exact List.mem_map_of_mem (List.mem_of_mem_head? hx)
    · rw [if_neg hcursor] at hc
      have hmem := h.current c hc
      simp only [List.map_append, List.map_cons, List.mem_append, List.mem_cons] at hmem
      rcases hmem with hmem | rfl | hmem
      · exact .inl hmem
      · exact absurd hc hcursor
      · exact .inr hmem

/-- The addresses around two neighbours. -/
theorem Lists.neighbours {pre post : List (Nat × Job)} {c a : Nat} {d j : Job}
    (h : Lists l ((pre ++ [(c, d)]) ++ (a, j) :: post)) :
    c ∉ pre.map Prod.fst ∧ c ≠ a ∧ c ∉ post.map Prod.fst := by
  have hnodup := h.nodup
  rw [List.append_assoc, List.singleton_append, List.map_append, List.map_cons,
    List.map_cons, List.nodup_middle, List.nodup_cons] at hnodup
  have hnot := hnodup.1
  simp only [List.mem_append, List.mem_cons, not_or] at hnot
  exact hnot

/-- Taking an element out leaves the others, in their order; a cursor at it
moves to the one behind it. -/
theorem Lists.unlink {pre post : List (Nat × Job)} {a : Nat} {j : Job}
    {next : Option Nat} (h : Lists l (pre ++ (a, j) :: post))
    (hcell : l.heap.cell a = some ⟨j, next⟩) :
    ∃ l', l.unlink (pre.getLast?.map Prod.fst) a next = .ret l' ∧
      Lists l' (pre ++ post) ∧ l'.heap.fresh = l.heap.fresh ∧
      l'.current = if l.current = some a then post.head?.map Prod.fst else l.current := by
  obtain ⟨next', hcell', hpre, hpost, hnotpre, hnotpost⟩ := h.split
  have hsame : next' = next := by
    rw [hcell, Option.some.injEq] at hcell'
    exact congrArg Node.next hcell'.symm
  subst hsame
  cases pre using List.reverseRecOn with
  | nil =>
      -- the first element: the head moves on
      have hhead : l.head = some a := hpre
      refine ⟨_, ?_, h.without hpost (hpost.drop hnotpost), rfl, by rw [hpost.start_eq]⟩
      simp [JobList.unlink, hhead, Heap.free_of_live hcell]
  | append_singleton pre x =>
      -- an element behind `c`: its link goes around the one taken out
      obtain ⟨c, d⟩ := x
      obtain ⟨m, _, _, _, hc, hend⟩ := Segment.append_iff.mp hpre
      cases hend
      obtain ⟨hcpre, hca, hcpost⟩ := h.neighbours
      obtain ⟨heap', hwrite, hfresh, hself, hothers⟩ :=
        Heap.write_of_live hc ⟨d, next'⟩
      have ha : heap'.cell a = some ⟨j, next'⟩ := by
        rw [hothers a (Ne.symm hca), hcell]
      have hhead : l.head ≠ some a := by
        intro hhead
        rw [h.chain.start_eq] at hhead
        apply hnotpre
        cases pre with
        | nil => exact absurd (Option.some.inj hhead) hca
        | cons y pre => exact List.mem_cons.mpr (.inl (Option.some.inj hhead).symm)
      have hchain : Segment (heap'.drop a) l.head ((pre ++ [(c, d)]) ++ post) none := by
        refine Segment.append_iff.mpr
          ⟨next', (hpre.relink hcpre hself hothers).drop hnotpre, ?_⟩
        refine Segment.drop (hpost.frame fun x hx => hothers x.1 ?_) hnotpost
        rintro rfl
        exact hcpost (List.mem_map_of_mem hx)
      refine ⟨_, ?_, h.without hpost hchain, hfresh, by rw [hpost.start_eq]⟩
      simp [JobList.unlink, Heap.read_of_live hc, hwrite, Heap.free_of_live ha, hhead]

/-! ### Searching -/

variable {β : Type} {found : Job → Bool} {hit : Option Nat → Nat → JobElement → Outcome β}
  {miss : β}

theorem searchFrom_none {heap : Heap JobElement} {rest : List (Nat × Job)}
    (hnone : ∀ x ∈ rest, found x.2 = false) :
    ∀ {fuel : Nat} {prev p : Option Nat}, Segment heap p rest none →
      rest.length < fuel → searchFrom found hit miss heap fuel prev p = .ret miss := by
  induction rest with
  | nil =>
      intro fuel prev p hseg hfuel
      cases hseg
      cases fuel with
      | zero => simp at hfuel
      | succ fuel => rfl
  | cons x rest ih =>
      intro fuel prev p hseg hfuel
      obtain ⟨rfl, next, hcell, hrest⟩ := hseg
      cases fuel with
      | zero => simp at hfuel
      | succ fuel =>
          have hx : found x.2 = false := hnone x (by simp)
          simp only [searchFrom, Heap.read_of_live hcell, Outcome.ret_bind, hx,
            Bool.false_eq_true, if_false]
          exact ih (fun y hy => hnone y (by simp [hy])) hrest (by simpa using hfuel)

/-- `prev` is the element the loop saw before. -/
theorem searchFrom_found {heap : Heap JobElement} {pre post : List (Nat × Job)} {a : Nat}
    {j : Job} {next : Option Nat} (hnone : ∀ x ∈ pre, found x.2 = false)
    (hfound : found j = true) (hcell : heap.cell a = some ⟨j, next⟩) :
    ∀ {fuel : Nat} {prev p : Option Nat},
      Segment heap p (pre ++ (a, j) :: post) none → pre.length < fuel →
      searchFrom found hit miss heap fuel prev p =
        hit ((pre.getLast?.map Prod.fst).or prev) a ⟨j, next⟩ := by
  induction pre with
  | nil =>
      intro fuel prev p hseg hfuel
      obtain ⟨rfl, _⟩ := hseg
      cases fuel with
      | zero => simp at hfuel
      | succ fuel => simp [searchFrom, Heap.read_of_live hcell, hfound]
  | cons x pre ih =>
      intro fuel prev p hseg hfuel
      obtain ⟨rfl, next', hcell', hrest⟩ := hseg
      cases fuel with
      | zero => simp at hfuel
      | succ fuel =>
          have hx : found x.2 = false := hnone x (by simp)
          simp only [searchFrom, Heap.read_of_live hcell', Outcome.ret_bind, hx,
            Bool.false_eq_true, if_false]
          rw [ih (fun y hy => hnone y (by simp [hy])) hrest (by simpa using hfuel)]
          cases pre with
          | nil => rfl
          | cons y pre => simp [List.getLast?_cons]

/-- A search without a job to find misses. -/
theorem Lists.search_none (h : Lists l elems) (hnone : ∀ x ∈ elems, found x.2 = false) :
    l.search found hit miss = .ret miss :=
  searchFrom_none hnone h.chain h.length_lt_turns

/-- A search hits the first job there is to find. -/
theorem Lists.search_found {pre post : List (Nat × Job)} {a : Nat} {j : Job}
    {next : Option Nat} (h : Lists l (pre ++ (a, j) :: post))
    (hnone : ∀ x ∈ pre, found x.2 = false) (hfound : found j = true)
    (hcell : l.heap.cell a = some ⟨j, next⟩) :
    l.search found hit miss = hit (pre.getLast?.map Prod.fst) a ⟨j, next⟩ := by
  have hlen : pre.length < l.turns := by
    have := h.length_lt_turns
    simp only [List.length_append] at this
    omega
  rw [search, searchFrom_found hnone hfound hcell h.chain hlen, Option.or_none]

/-- A list has no job to find, or a first one. -/
theorem first_found (found : Job → Bool) (elems : List (Nat × Job)) :
    (∀ x ∈ elems, found x.2 = false) ∨
      ∃ pre a j post, elems = pre ++ (a, j) :: post ∧
        (∀ x ∈ pre, found x.2 = false) ∧ found j = true := by
  induction elems with
  | nil => exact .inl (List.forall_mem_nil _)
  | cons y rest ih =>
      cases hy : found y.2 with
      | true => exact .inr ⟨[], y.1, y.2, rest, rfl, List.forall_mem_nil _, hy⟩
      | false =>
          rcases ih with hnone | ⟨pre, a, j, post, rfl, hnone, hfound⟩
          · exact .inl (List.forall_mem_cons.mpr ⟨hy, hnone⟩)
          · exact .inr ⟨y :: pre, a, j, post, rfl, List.forall_mem_cons.mpr ⟨hy, hnone⟩,
              hfound⟩

/-- A removal that finds no job returns −1 and changes nothing. -/
theorem Lists.remove_none (h : Lists l elems) (hnone : ∀ x ∈ elems, found x.2 = false) :
    l.remove found = .ret (-1, l) := h.search_none hnone

/-- A removal takes out the first job it finds, and no other. -/
theorem Lists.remove_found {pre post : List (Nat × Job)} {a : Nat} {j : Job}
    (h : Lists l (pre ++ (a, j) :: post)) (hnone : ∀ x ∈ pre, found x.2 = false)
    (hfound : found j = true) :
    ∃ l', l.remove found = .ret (0, l') ∧
      Lists l' (pre ++ post) ∧ l'.heap.fresh = l.heap.fresh ∧
      l'.current = if l.current = some a then post.head?.map Prod.fst else l.current := by
  obtain ⟨next, hcell, _⟩ := h.split
  obtain ⟨l', hunlink, hlists, hfresh, hcurrent⟩ := h.unlink hcell
  refine ⟨l', ?_, hlists, hfresh, hcurrent⟩
  rw [remove, h.search_found hnone hfound hcell, hunlink]
  rfl

/-- An update that finds no job returns −1 and changes nothing. -/
theorem Lists.update_none {state : ProcessState} (h : Lists l elems)
    (hnone : ∀ x ∈ elems, found x.2 = false) :
    l.update found state = .ret (-1, l) := h.search_none hnone

/-- An update changes the state of the first job it finds, and nothing else. -/
theorem Lists.update_found {state : ProcessState} {pre post : List (Nat × Job)} {a : Nat}
    {j : Job} (h : Lists l (pre ++ (a, j) :: post))
    (hnone : ∀ x ∈ pre, found x.2 = false) (hfound : found j = true) :
    ∃ l', l.update found state = .ret (0, l') ∧
      Lists l' (pre ++ (a, { j with state := state }) :: post) ∧
      l'.heap.fresh = l.heap.fresh ∧ l'.current = l.current := by
  obtain ⟨next, hcell, hpre, hpost, hnotpre, hnotpost⟩ := h.split
  obtain ⟨heap', hwrite, hfresh, hself, hothers⟩ :=
    Heap.write_of_live hcell ⟨{ j with state := state }, next⟩
  have hframe : ∀ {p q : Option Nat} {rest : List (Nat × Job)}, a ∉ rest.map Prod.fst →
      Segment l.heap p rest q → Segment heap' p rest q := by
    intro p q rest hnot hseg
    refine hseg.frame fun x hx => hothers x.1 ?_
    rintro rfl
    exact hnot (List.mem_map_of_mem hx)
  have haddr : (pre ++ (a, { j with state := state }) :: post).map Prod.fst =
      (pre ++ (a, j) :: post).map Prod.fst := by simp
  refine ⟨{ l with heap := heap' }, ?_, ⟨?_, ?_, ?_⟩, hfresh, rfl⟩
  · rw [update, h.search_found hnone hfound hcell, hwrite]
    rfl
  · exact Segment.append_iff.mpr
      ⟨some a, hframe hnotpre hpre, rfl, next, hself, hframe hnotpost hpost⟩
  · rw [haddr]
    exact h.sorted
  · rw [haddr]
    exact h.current

theorem Lists.get_none {field : Job → Int} (h : Lists l elems)
    (hnone : ∀ x ∈ elems, found x.2 = false) : l.get found field = .ret (-1) :=
  h.search_none hnone

theorem Lists.get_found {field : Job → Int} {pre post : List (Nat × Job)} {a : Nat}
    {j : Job} (h : Lists l (pre ++ (a, j) :: post))
    (hnone : ∀ x ∈ pre, found x.2 = false) (hfound : found j = true) :
    l.get found field = .ret (field j) := by
  obtain ⟨next, hcell, _⟩ := h.split
  rw [get, h.search_found hnone hfound hcell]

theorem jobsFrom_eq {heap : Heap JobElement} {rest : List (Nat × Job)} :
    ∀ {fuel : Nat} {p : Option Nat}, Segment heap p rest none → rest.length < fuel →
      jobsFrom heap fuel p = .ret (rest.map Prod.snd) := by
  induction rest with
  | nil =>
      intro fuel p hseg hfuel
      cases hseg
      cases fuel with
      | zero => simp at hfuel
      | succ fuel => rfl
  | cons x rest ih =>
      intro fuel p hseg hfuel
      obtain ⟨rfl, next, hcell, hrest⟩ := hseg
      cases fuel with
      | zero => simp at hfuel
      | succ fuel =>
          simp [jobsFrom, Heap.read_of_live hcell, ih hrest (by simpa using hfuel)]

/-- `jobs` prints every job once, in the order of the list. -/
theorem Lists.jobs (h : Lists l elems) : l.jobs = .ret (elems.map Prod.snd) :=
  jobsFrom_eq h.chain h.length_lt_turns

/-- At the end `get_next_pid` returns −1 and goes back to the front. -/
theorem Lists.next_end (h : Lists l elems) (hcurrent : l.current = none) :
    ∃ l', l.getNextPid = .ret (-1, l') ∧ Lists l' elems ∧
      l'.heap = l.heap ∧ l'.current = elems.head?.map Prod.fst := by
  refine ⟨{ l with current := l.head }, by simp [getNextPid, hcurrent],
    ⟨h.chain, h.sorted, fun c hc => ?_⟩, rfl, h.chain.start_eq⟩
  have hhead : l.head = some c := hc
  rw [h.chain.start_eq] at hhead
  obtain ⟨x, hx, rfl⟩ := Option.map_eq_some_iff.mp hhead
  exact List.mem_map_of_mem (List.mem_of_mem_head? hx)

/-- At an element `get_next_pid` returns its pid and goes on to the next. -/
theorem Lists.next_elem {pre post : List (Nat × Job)} {a : Nat} {j : Job}
    (h : Lists l (pre ++ (a, j) :: post)) (hcurrent : l.current = some a) :
    ∃ l', l.getNextPid = .ret (j.pid, l') ∧ Lists l' (pre ++ (a, j) :: post) ∧
      l'.heap = l.heap ∧ l'.current = post.head?.map Prod.fst := by
  obtain ⟨next, hcell, _, hpost, _⟩ := h.split
  refine ⟨{ l with current := next }, by simp [getNextPid, hcurrent, Heap.read_of_live hcell],
    ⟨h.chain, h.sorted, fun c hc => ?_⟩, rfl, hpost.start_eq⟩
  have hnext : next = some c := hc
  rw [hpost.start_eq] at hnext
  obtain ⟨x, hx, rfl⟩ := Option.map_eq_some_iff.mp hnext
  have hmem := List.mem_of_mem_head? hx
  exact List.mem_map_of_mem (by simp [hmem])

end JobList

end WizardShell.Ports
