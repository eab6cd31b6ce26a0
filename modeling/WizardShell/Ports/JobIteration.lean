import WizardShell.Ports.Jobs
import WizardShell.Verified.Run

/-!
# Iterating over the jobs while they change

Runs of calls on the job list, in any order, with `get_next_pid` walking the
list through its cursor.  An element is known by its address, which names one
allocation for good, so that two jobs may have one pid.  What a call returns says
what it did to the elements (`JobEvent.Answers`): `get_next_pid` returns the pid of
a listed element, and a removal that returns 0 has taken one element out.

Each call is an operation on the list with a cursor (`Lists.simulates`), and so
between two wraps `get_next_pid` returns every job that stays listed exactly once
and in list order (`iteration_sound`).
-/

namespace WizardShell.Ports

open WizardShell.Verified
open JobList (Lists)

/-- A call on the job list. -/
inductive JobCall where
  | addJob (jid pid : Int) (state : ProcessState) (command : CString)
  | removeJobJid (jid : Int)
  | removeJobPid (pid : Int)
  | updateJobJid (jid : Int) (state : ProcessState)
  | updateJobPid (pid : Int) (state : ProcessState)
  | getNextPid

namespace JobCall

/-- What the call returns, and the list afterwards. -/
def run (l : JobList) : JobCall → Outcome (Int × JobList)
  | addJob jid pid state command => l.addJob jid pid state command
  | removeJobJid jid => l.removeJobJid jid
  | removeJobPid pid => l.removeJobPid pid
  | updateJobJid jid state => l.updateJobJid jid state
  | updateJobPid pid state => l.updateJobPid pid state
  | getNextPid => l.getNextPid

/-- The element whose pid the call reads out of the list. -/
def visits (l : JobList) : JobCall → Option Nat
  | getNextPid => l.current
  | _ => none

/-- A pid that the call lists is not negative. -/
def ListsPid : JobCall → Prop
  | addJob _ pid _ _ => 0 ≤ pid
  | _ => True

end JobCall

/-- A call that returned. -/
structure JobEvent where
  call : JobCall
  result : Int
  /-- The element whose pid `get_next_pid` returned. -/
  element : Option Nat

/-- The call returns on `l` with this result and leaves `l'`. -/
def jobStep (l : JobList) (ev : JobEvent) (l' : JobList) : Prop :=
  ev.call.run l = .ret (ev.result, l') ∧ ev.element = ev.call.visits l

/-- The run of calls `evs` from `init_job_list()` leads to `l`. -/
abbrev JobRun (evs : List JobEvent) (l : JobList) : Prop :=
  Run jobStep initJobList evs l

/-- The call was a `get_next_pid` that returned −1. -/
def JobEvent.Wraps (ev : JobEvent) : Prop :=
  ev.call = .getNextPid ∧ ev.result = -1

/-- The elements whose pids `get_next_pid` returned, in order. -/
def returned (evs : List JobEvent) : List Nat := evs.filterMap JobEvent.element

theorem returned_snoc (evs : List JobEvent) (ev : JobEvent) :
    returned (evs ++ [ev]) = returned evs ++ ev.element.toList := by
  rw [returned, List.filterMap_append]
  cases helem : ev.element <;> simp [returned, helem]

/-- What a call does that goes to the first job found.  It returns 0 and has put
`change` in the place of this element, or there is none, and it returns −1 and has
changed nothing. -/
inductive AtFirst (found : Job → Bool) (change : Nat × Job → List (Nat × Job)) :
    List (Nat × Job) → Int → List (Nat × Job) → Prop where
  | hit {pre post : List (Nat × Job)} {x : Nat × Job} (hnone : ∀ y ∈ pre, found y.2 = false)
      (hfound : found x.2 = true) :
      AtFirst found change (pre ++ x :: post) 0 (pre ++ change x ++ post)
  | miss {elems : List (Nat × Job)} (hnone : ∀ y ∈ elems, found y.2 = false) :
      AtFirst found change elems (-1) elems

/-- What the result of a call says: what it made of the elements `elems`, and, of
`get_next_pid`, whose pid it is. -/
def JobEvent.Answers (ev : JobEvent) (elems elems' : List (Nat × Job)) : Prop :=
  match ev.call with
  | .addJob jid pid state command =>
      ev.result = 0 ∧ ev.element = none ∧ ∃ a, a ∉ elems.map Prod.fst ∧
        elems' = elems ++ [(a, ⟨jid, pid, state, command⟩)]
  | .removeJobJid jid =>
      ev.element = none ∧
        AtFirst (fun j => j.jid = jid) (fun _ => []) elems ev.result elems'
  | .removeJobPid pid =>
      ev.element = none ∧
        AtFirst (fun j => j.pid = pid) (fun _ => []) elems ev.result elems'
  | .updateJobJid jid state =>
      ev.element = none ∧ AtFirst (fun j => j.jid = jid)
        (fun x => [(x.1, { x.2 with state := state })]) elems ev.result elems'
  | .updateJobPid pid state =>
      ev.element = none ∧ AtFirst (fun j => j.pid = pid)
        (fun x => [(x.1, { x.2 with state := state })]) elems ev.result elems'
  | .getNextPid =>
      elems' = elems ∧
        ((ev.element = none ∧ ev.result = -1) ∨
          ∃ x ∈ elems, ev.element = some x.1 ∧ ev.result = x.2.pid)

/-- The element is reached from the head of the list. -/
def Listed (l : JobList) (a : Nat) : Prop :=
  ∃ elems, Segment l.heap l.head elems none ∧ a ∈ elems.map Prod.fst

/-- The calls `mid`, made from `l` on, return what is listed. -/
structure SweepsList (l : JobList) (mid : List JobEvent) : Prop where
  /-- Every job listed for the whole stretch is returned exactly once. -/
  once : ∀ a, (∀ pre post u, mid = pre ++ post → Run jobStep l pre u → Listed u a) →
    (returned mid).count a = 1
  /-- At each moment of the stretch, the listed ones among the returned jobs
  come in the order of the list. -/
  inOrder : ∀ pre post u elems, mid = pre ++ post → Run jobStep l pre u →
    Segment u.heap u.head elems none →
      ((returned mid).filter fun a => decide (a ∈ elems.map Prod.fst)).Sublist
        (elems.map Prod.fst)

/-- What holds of a run of calls that leads to `l`. -/
structure IterationSound (evs : List JobEvent) (l : JobList) : Prop where
  /-- Every further call returns. -/
  returns : ∀ call : JobCall, ∃ r l', call.run l = .ret (r, l')
  /-- `current` is NULL or an element of the list. -/
  current : ∀ a, l.current = some a → Listed l a
  /-- Every call did to the list what its result says. -/
  answers : ∀ pre ev post s u elems, evs = pre ++ ev :: post → JobRun pre s →
    jobStep s ev u → Segment s.heap s.head elems none →
      ∃ elems', Segment u.heap u.head elems' none ∧ ev.Answers elems elems'
  /-- `get_next_pid` returned −1 exactly where it returned no element's pid. -/
  wraps : ∀ ev ∈ evs, ev.call = .getNextPid → (ev.result = -1 ↔ ev.element = none)
  /-- A job that was listed and is no more is not returned later. -/
  removed : ∀ pre mid post s u a, evs = pre ++ mid ++ post → JobRun pre s →
    Run jobStep s mid u → Listed s a → ¬ Listed u a → a ∉ returned post
  /-- Between two consecutive calls of `get_next_pid` that return −1. -/
  sweeps : ∀ pre e₁ mid e₂ s, evs = pre ++ [e₁] ++ mid ++ [e₂] → e₁.Wraps → e₂.Wraps →
    (∀ e ∈ mid, ¬ e.Wraps) → JobRun (pre ++ [e₁]) s → SweepsList s mid

/-! ## Calls as operations on a list with a cursor -/

theorem listed_iff {l : JobList} {elems : List (Nat × Job)} (h : Lists l elems)
    {a : Nat} : Listed l a ↔ a ∈ elems.map Prod.fst := by
  constructor
  · rintro ⟨elems', hseg, hmem⟩
    rwa [h.chain.unique hseg]
  · exact fun hmem => ⟨elems, h.chain, hmem⟩

/-- The call returns `r` and leaves `l'`, and does `op` to list and cursor. -/
structure Simulates (l : JobList) (elems : List (Nat × Job)) (call : JobCall)
    (r : Int) (l' : JobList) (elems' : List (Nat × Job)) (op : CursorOp) : Prop where
  run : call.run l = .ret (r, l')
  lists : Lists l' elems'
  step : l'.cursorList elems' = (l.cursorList elems).step op
  visits : call.visits l = (l.cursorList elems).visited op
  next : call = .getNextPid ↔ op = .next
  answers : JobEvent.Answers ⟨call, r, call.visits l⟩ elems elems'

theorem simulates_remove {l : JobList} {elems : List (Nat × Job)} (h : Lists l elems)
    {call : JobCall} {found : Job → Bool} (hrun : call.run l = l.remove found)
    (hcall : call ≠ .getNextPid) (hvisits : call.visits l = none)
    (hanswers : ∀ r elems', AtFirst found (fun _ => []) elems r elems' →
      JobEvent.Answers ⟨call, r, call.visits l⟩ elems elems') :
    ∃ r l' elems' op, Simulates l elems call r l' elems' op := by
  rcases JobList.first_found found elems with
    hnone | ⟨pre, a, j, post, rfl, hnone, hfound⟩
  · exact ⟨-1, l, elems, .keep, hrun.trans (h.remove_none hnone), h, rfl, hvisits,
      by simp [hcall], hanswers _ _ (.miss hnone)⟩
  · obtain ⟨l', hremove, hlists, hfresh, hcurrent⟩ := h.remove_found hnone hfound
    have hnotpre : a ∉ pre.map Prod.fst := h.split.choose_spec.2.2.2.1
    have hfirst : AtFirst found (fun _ => []) (pre ++ (a, j) :: post) 0 (pre ++ [] ++ post) :=
      .hit hnone hfound
    rw [List.append_nil] at hfirst
    refine ⟨0, l', pre ++ post, .remove a, hrun.trans hremove, hlists, ?_, hvisits,
      by simp [hcall], hanswers _ _ hfirst⟩
    have hsorted := h.sorted
    rw [List.map_append, List.map_cons] at hsorted
    have hbehind := CursorList.behind_eq_head? hsorted
    simp only [JobList.cursorList, CursorList.step, List.map_append, List.map_cons,
      hfresh, hcurrent]
    rw [hbehind, List.erase_append_right _ hnotpre, List.erase_cons_head]
    simp

theorem simulates_update {l : JobList} {elems : List (Nat × Job)} (h : Lists l elems)
    {call : JobCall} {found : Job → Bool} {state : ProcessState}
    (hrun : call.run l = l.update found state)
    (hcall : call ≠ .getNextPid) (hvisits : call.visits l = none)
    (hanswers : ∀ r elems',
      AtFirst found (fun x => [(x.1, { x.2 with state := state })]) elems r elems' →
        JobEvent.Answers ⟨call, r, call.visits l⟩ elems elems') :
    ∃ r l' elems' op, Simulates l elems call r l' elems' op := by
  rcases JobList.first_found found elems with
    hnone | ⟨pre, a, j, post, rfl, hnone, hfound⟩
  · exact ⟨-1, l, elems, .keep, hrun.trans (h.update_none hnone), h, rfl, hvisits,
      by simp [hcall], hanswers _ _ (.miss hnone)⟩
  · obtain ⟨l', hupdate, hlists, hfresh, hcurrent⟩ := h.update_found hnone hfound
    have hfirst : AtFirst found (fun x => [(x.1, { x.2 with state := state })])
        (pre ++ (a, j) :: post) 0 (pre ++ [(a, { j with state := state })] ++ post) :=
      .hit hnone hfound
    rw [List.append_assoc, List.singleton_append] at hfirst
    refine ⟨0, l', _, .keep, hrun.trans hupdate, hlists, ?_, hvisits,
      by simp [hcall], hanswers _ _ hfirst⟩
    simp [JobList.cursorList, CursorList.step, hfresh, hcurrent]

theorem simulates_next {l : JobList} {elems : List (Nat × Job)} (h : Lists l elems) :
    ∃ r l' elems' op, Simulates l elems .getNextPid r l' elems' op := by
  cases hcurrent : l.current with
  | none =>
      obtain ⟨l', hnext, hlists, hheap, hcurrent'⟩ := h.next_end hcurrent
      refine ⟨-1, l', elems, .next, hnext, hlists, ?_, rfl, by simp, rfl,
        .inl ⟨hcurrent, rfl⟩⟩
      simp [JobList.cursorList, CursorList.step, hheap, hcurrent', hcurrent]
  | some a =>
      obtain ⟨x, hx, rfl⟩ := List.mem_map.mp (h.current a hcurrent)
      obtain ⟨pre, post, rfl⟩ := List.append_of_mem hx
      obtain ⟨l', hnext, hlists, hheap, hcurrent'⟩ := h.next_elem hcurrent
      have hsorted := h.sorted
      rw [List.map_append, List.map_cons] at hsorted
      have hbehind := CursorList.behind_eq_head? hsorted
      refine ⟨x.2.pid, l', _, .next, hnext, hlists, ?_, rfl, by simp, rfl,
        .inr ⟨x, hx, hcurrent, rfl⟩⟩
      simp only [JobList.cursorList, CursorList.step, hheap, hcurrent', hcurrent,
        List.map_append, List.map_cons]
      rw [hbehind, List.head?_map]

/-- **Each call is an operation on the list with a cursor**, and returns. -/
theorem JobList.Lists.simulates {l : JobList} {elems : List (Nat × Job)} (h : Lists l elems)
    (call : JobCall) : ∃ r l' elems' op, Simulates l elems call r l' elems' op := by
  cases call with
  | addJob jid pid state command =>
      obtain ⟨l', hadd, hlists, hfresh, hcurrent⟩ := h.addJob jid pid state command
      have hnew : l.heap.fresh ∉ elems.map Prod.fst := fun hmem =>
        Nat.lt_irrefl _ (h.valid.lt_fresh _ hmem)
      refine ⟨0, l', _, .append, hadd, hlists, ?_, rfl, by simp, rfl, rfl, _, hnew, rfl⟩
      simp [JobList.cursorList, CursorList.step, hfresh, hcurrent]
  | removeJobJid jid =>
      exact simulates_remove h rfl (by simp) rfl fun _ _ hfirst => ⟨rfl, hfirst⟩
  | removeJobPid pid =>
      exact simulates_remove h rfl (by simp) rfl fun _ _ hfirst => ⟨rfl, hfirst⟩
  | updateJobJid jid state =>
      exact simulates_update h rfl (by simp) rfl fun _ _ hfirst => ⟨rfl, hfirst⟩
  | updateJobPid pid state =>
      exact simulates_update h rfl (by simp) rfl fun _ _ hfirst => ⟨rfl, hfirst⟩
  | getNextPid => exact simulates_next h

/-! ## Invariants of runs -/

section Steps

variable {l l' : JobList} {elems elems' : List (Nat × Job)} {ev : JobEvent}

theorem jobStep_unique (s : JobList) (ev : JobEvent) (t u : JobList)
    (ht : jobStep s ev t) (hu : jobStep s ev u) : t = u := by
  have hret := ht.1.symm.trans hu.1
  simpa using hret

/-- What one call does to the list and the cursor. -/
theorem step_lists (h : Lists l elems) (hstep : jobStep l ev l') :
    ∃ elems' op, Lists l' elems' ∧ l'.cursorList elems' = (l.cursorList elems).step op ∧
      ev.element = (l.cursorList elems).visited op ∧ (ev.call = .getNextPid ↔ op = .next) ∧
      ev.Answers elems elems' := by
  obtain ⟨r, l'', elems', op, hsim⟩ := h.simulates ev.call
  have hret := hsim.run.symm.trans hstep.1
  simp only [Outcome.ret.injEq, Prod.mk.injEq] at hret
  obtain ⟨rfl, rfl⟩ := hret
  have hanswers := hsim.answers
  rw [← hstep.2] at hanswers
  exact ⟨elems', op, hsim.lists, hsim.step, hstep.2.trans hsim.visits, hsim.next, hanswers⟩

/-- Every state of a run is a well-linked list, and addresses only go up. -/
theorem run_lists {evs : List JobEvent} (h : Lists l elems) (hrun : Run jobStep l evs l') :
    (∃ elems', Lists l' elems') ∧ l.heap.fresh ≤ l'.heap.fresh := by
  induction hrun with
  | start => exact ⟨⟨elems, h⟩, Nat.le_refl _⟩
  | @next _ t u _ _ hstep ih =>
      obtain ⟨⟨elems', hlists⟩, hle⟩ := ih
      obtain ⟨elems'', op, hlists', hview, _⟩ := step_lists hlists hstep
      refine ⟨⟨elems'', hlists'⟩, Nat.le_trans hle ?_⟩
      have hfresh := congrArg CursorList.fresh hview
      show (t.cursorList elems').fresh ≤ (u.cursorList elems'').fresh
      rw [hfresh]
      exact CursorList.fresh_le_step _ op

/-- Where no element's pid was returned, −1 was. -/
theorem JobEvent.Answers.result_of_none (h : ev.Answers elems elems')
    (hcall : ev.call = .getNextPid) (hnone : ev.element = none) : ev.result = -1 := by
  rw [JobEvent.Answers, hcall] at h
  obtain ⟨_, ⟨_, hresult⟩ | ⟨x, _, hsome, _⟩⟩ := h
  · exact hresult
  · rw [hnone] at hsome
    cases hsome

/-! ### Pids that are not negative -/

/-- No pid in the list is negative. -/
def PidsListed (elems : List (Nat × Job)) : Prop := ∀ x ∈ elems, 0 ≤ x.2.pid

theorem AtFirst.pidsListed {found : Job → Bool} {change : Nat × Job → List (Nat × Job)}
    {r : Int} (h : AtFirst found change elems r elems') (hpids : PidsListed elems)
    (hchange : ∀ x, ∀ y ∈ change x, y.2.pid = x.2.pid) : PidsListed elems' := by
  cases h with
  | @hit pre post x _ _ =>
      intro y hy
      rcases List.mem_append.mp hy with hy | hpost
      · rcases List.mem_append.mp hy with hpre | hnew
        · exact hpids y (List.mem_append_left _ hpre)
        · rw [hchange x y hnew]
          exact hpids x (List.mem_append_right _ List.mem_cons_self)
      · exact hpids y (List.mem_append_right _ (List.mem_cons_of_mem x hpost))
  | miss _ => exact hpids

theorem JobEvent.Answers.pidsListed (h : ev.Answers elems elems') (hpids : PidsListed elems)
    (hcall : ev.call.ListsPid) : PidsListed elems' := by
  unfold JobEvent.Answers at h
  split at h
  · rename_i jid pid state command heq
    obtain ⟨_, _, a, _, rfl⟩ := h
    rw [heq] at hcall
    intro x hx
    rcases List.mem_append.mp hx with hold | hnew
    · exact hpids x hold
    · rw [List.mem_singleton.mp hnew]
      exact hcall
  · exact h.2.pidsListed hpids fun _ _ hy => absurd hy List.not_mem_nil
  · exact h.2.pidsListed hpids fun _ _ hy => absurd hy List.not_mem_nil
  · exact h.2.pidsListed hpids fun _ _ hy => by rw [List.mem_singleton.mp hy]
  · exact h.2.pidsListed hpids fun _ _ hy => by rw [List.mem_singleton.mp hy]
  · rw [h.1]
    exact hpids

/-- −1 is no element's pid. -/
theorem JobEvent.Answers.result_iff (h : ev.Answers elems elems') (hpids : PidsListed elems)
    (hcall : ev.call = .getNextPid) : ev.result = -1 ↔ ev.element = none := by
  refine ⟨fun hresult => ?_, h.result_of_none hcall⟩
  rw [JobEvent.Answers, hcall] at h
  obtain ⟨_, ⟨hnone, _⟩ | ⟨x, hx, _, hpid⟩⟩ := h
  · exact hnone
  · have hpos : 0 ≤ x.2.pid := hpids x hx
    omega

theorem run_pidsListed {evs : List JobEvent} (h : Lists l elems) (hpids : PidsListed elems)
    (hrun : Run jobStep l evs l') (hcalls : ∀ ev ∈ evs, ev.call.ListsPid) :
    ∃ elems', Lists l' elems' ∧ PidsListed elems' := by
  induction hrun with
  | start => exact ⟨elems, h, hpids⟩
  | @next evs t u ev _ hstep ih =>
      obtain ⟨elems', hlists, hpids'⟩ := ih fun e he => hcalls e (List.mem_append_left _ he)
      obtain ⟨elems'', op, hlists', _, _, _, hanswers⟩ := step_lists hlists hstep
      exact ⟨elems'', hlists', hanswers.pidsListed hpids' (hcalls ev (by simp))⟩

/-- A wrap finds the cursor at the end, and sends it to the front. -/
theorem wrap_cursor (h : Lists l elems) (hpids : PidsListed elems) (hstep : jobStep l ev l')
    (hwraps : ev.Wraps) :
    l.current = none ∧ ∃ elems', Lists l' elems' ∧ l'.current = elems'.head?.map Prod.fst := by
  obtain ⟨elems', op, hlists, hview, helem, hnext, hanswers⟩ := step_lists h hstep
  obtain rfl : op = .next := hnext.mp hwraps.1
  have hcursor : l.current = none :=
    helem.symm.trans ((hanswers.result_iff hpids hwraps.1).mp hwraps.2)
  have hmoved := congrArg CursorList.cursor hview
  have hitems := congrArg CursorList.items hview
  simp only [JobList.cursorList, CursorList.step, hcursor] at hmoved hitems
  refine ⟨hcursor, elems', hlists, ?_⟩
  rw [hmoved, ← hitems, List.head?_map]

end Steps

/-- What is gone is not returned, and stays gone. -/
theorem gone_run {l l' : JobList} {elems : List (Nat × Job)} {evs : List JobEvent}
    {a : Nat} (h : Lists l elems) (hgone : (l.cursorList elems).Gone a)
    (hrun : Run jobStep l evs l') :
    a ∉ returned evs ∧ ∃ elems', Lists l' elems' ∧ (l'.cursorList elems').Gone a := by
  induction hrun with
  | start => exact ⟨by simp [returned], elems, h, hgone⟩
  | next _ hstep ih =>
      obtain ⟨hnot, elems', hlists, hgone'⟩ := ih
      obtain ⟨elems'', op, hlists', hview, helem, _⟩ := step_lists hlists hstep
      refine ⟨?_, elems'', hlists', by rw [hview]; exact hgone'.step op⟩
      have hvisit := hgone'.not_visited hlists.valid op
      rw [← helem] at hvisit
      rw [returned_snoc, List.mem_append, not_or]
      exact ⟨hnot, by simpa using hvisit⟩

/-- A sweep goes on as long as no call wraps. -/
theorem sweep_run {l l' : JobList} {elems : List (Nat × Job)} {evs : List JobEvent}
    (h : Lists l elems) (hcurrent : l.current = elems.head?.map Prod.fst)
    (hrun : Run jobStep l evs l') (hwraps : ∀ e ∈ evs, ¬ e.Wraps) :
    ∃ elems', Lists l' elems' ∧
      CursorList.Sweep l.heap.fresh (returned evs) (l'.cursorList elems') := by
  induction hrun with
  | start =>
      refine ⟨elems, h, CursorList.Sweep.start h.valid ?_⟩
      simpa [JobList.cursorList] using hcurrent
  | @next pre t u ev hpre hstep ih =>
      obtain ⟨elems', hlists, hsweep⟩ := ih fun e he => hwraps e (by simp [he])
      obtain ⟨elems'', op, hlists', hview, helem, hnext, hanswers⟩ := step_lists hlists hstep
      have hcursor : op = .next → (t.cursorList elems').cursor ≠ none := by
        rintro rfl hnone
        have hcall := hnext.mpr rfl
        exact hwraps ev (by simp) ⟨hcall, hanswers.result_of_none hcall (helem.trans hnone)⟩
      refine ⟨elems'', hlists', ?_⟩
      have hon := hsweep.step hlists.valid op hcursor
      rwa [hview, returned_snoc, helem]

theorem sweeps_list {l : JobList} {elems : List (Nat × Job)} {mid : List JobEvent}
    {s : JobList} (h : Lists l elems) (hcurrent : l.current = elems.head?.map Prod.fst)
    (hrun : Run jobStep l mid s) (hwraps : ∀ e ∈ mid, ¬ e.Wraps)
    (hend : s.current = none) : SweepsList l mid where
  once a hlisted := by
    obtain ⟨elems', hlists', hsweep⟩ := sweep_run h hcurrent hrun hwraps
    have hstart : a ∈ elems.map Prod.fst :=
      (listed_iff h).mp (hlisted [] mid l rfl .start)
    have hfinal : a ∈ elems'.map Prod.fst :=
      (listed_iff hlists').mp (hlisted mid [] s (List.append_nil mid).symm hrun)
    have hmem : a ∈ returned mid :=
      hsweep.mem_of_old hend hfinal (h.valid.lt_fresh a hstart)
    have hnodup : (returned mid).Nodup := hsweep.sorted.imp Nat.ne_of_lt
    exact List.count_eq_one_of_mem hnodup hmem
  inOrder pre post u elems' hmid hpre hseg := by
    obtain ⟨_, _, hsweep⟩ := sweep_run h hcurrent hrun hwraps
    obtain ⟨⟨elems'', hlists⟩, _⟩ := run_lists h hpre
    rw [hseg.unique hlists.chain]
    exact hsweep.filter_sublist hlists.sorted

/-- **Iteration over jobs survives modification**, for runs that list no negative
pid. -/
theorem iteration_sound (evs : List JobEvent) (l : JobList) (hrun : JobRun evs l)
    (hpids : ∀ ev ∈ evs, ev.call.ListsPid) : IterationSound evs l where
  returns call := by
    obtain ⟨⟨elems, h⟩, _⟩ := run_lists JobList.lists_init hrun
    obtain ⟨r, l', _, _, hsim⟩ := h.simulates call
    exact ⟨r, l', hsim.run⟩
  current a ha := by
    obtain ⟨⟨elems, h⟩, _⟩ := run_lists JobList.lists_init hrun
    exact (listed_iff h).mpr (h.current a ha)
  answers pre ev post s u elems hevs hpre hstep hseg := by
    obtain ⟨⟨elems', h⟩, _⟩ := run_lists JobList.lists_init hpre
    obtain rfl : elems' = elems := h.chain.unique hseg
    obtain ⟨elems'', _, hlists, _, _, _, hanswers⟩ := step_lists h hstep
    exact ⟨elems'', hlists.chain, hanswers⟩
  wraps ev hev hcall := by
    obtain ⟨pre, post, rfl⟩ := List.append_of_mem hev
    obtain ⟨s, hpre, hrest⟩ := Run.append_iff.mp hrun
    obtain ⟨t, hstep, _⟩ := Run.cons_iff.mp hrest
    obtain ⟨elems, h, hlisted⟩ := run_pidsListed JobList.lists_init (List.forall_mem_nil _) hpre
      fun e he => hpids e (List.mem_append_left _ he)
    obtain ⟨_, _, _, _, _, _, hanswers⟩ := step_lists h hstep
    exact hanswers.result_iff hlisted hcall
  removed pre mid post s u a hevs hpre hmid hlisted hnot := by
    obtain ⟨⟨elems, hs⟩, _⟩ := run_lists JobList.lists_init hpre
    obtain ⟨⟨elems', hu⟩, hfresh⟩ := run_lists hs hmid
    rw [hevs] at hrun
    obtain ⟨u', hpremid, hpost⟩ := Run.append_iff.mp hrun
    have heq : u' = u := Run.unique jobStep_unique hpremid
      (Run.append_iff.mpr ⟨s, hpre, hmid⟩)
    subst heq
    refine (gone_run hu ⟨?_, (listed_iff hu).not.mp hnot⟩ hpost).1
    exact Nat.lt_of_lt_of_le (hs.valid.lt_fresh a ((listed_iff hs).mp hlisted)) hfresh
  sweeps pre e₁ mid e₂ s hevs hfirst hlast hwraps hs := by
    rw [hevs] at hrun hpids
    obtain ⟨t, hmid, hlaststep⟩ := Run.snoc_iff.mp hrun
    obtain ⟨s', hs', hmid'⟩ := Run.append_iff.mp hmid
    have heq : s' = s := Run.unique jobStep_unique hs' hs
    subst heq
    obtain ⟨q, hq, hstep⟩ := Run.snoc_iff.mp hs
    obtain ⟨elemsq, hlistsq, hpidsq⟩ :=
      run_pidsListed JobList.lists_init (List.forall_mem_nil _) hq fun e he =>
        hpids e (by simp [he])
    obtain ⟨elemst, hlistst, hpidst⟩ :=
      run_pidsListed JobList.lists_init (List.forall_mem_nil _) hmid fun e he =>
        hpids e (List.mem_append_left _ he)
    obtain ⟨_, elems, hlists, hfront⟩ := wrap_cursor hlistsq hpidsq hstep hfirst
    exact sweeps_list hlists hfront hmid' hwraps (wrap_cursor hlistst hpidst hlaststep hlast).1

/-- A job is added while the cursor is at the end, returned, and removed before
the next wrap. -/
def oneJob : List JobEvent :=
  [⟨.getNextPid, -1, none⟩, ⟨.addJob 1 100 .running (.lit ['l', 's']), 0, none⟩,
    ⟨.getNextPid, 100, some 0⟩, ⟨.removeJobJid 1, 0, none⟩, ⟨.getNextPid, -1, none⟩]

theorem iteration_sound_oneJob :
    ∃ l, JobRun oneJob l ∧ (∀ ev ∈ oneJob, ev.call.ListsPid) ∧ IterationSound oneJob l := by
  have hrun : ∃ l, JobRun oneJob l :=
    ⟨_, Run.cons_iff.mpr ⟨_, ⟨rfl, rfl⟩, Run.cons_iff.mpr ⟨_, ⟨rfl, rfl⟩,
      Run.cons_iff.mpr ⟨_, ⟨rfl, rfl⟩, Run.cons_iff.mpr ⟨_, ⟨rfl, rfl⟩,
        Run.singleton_iff.mpr ⟨rfl, rfl⟩⟩⟩⟩⟩⟩
  obtain ⟨l, hl⟩ := hrun
  have hpids : ∀ ev ∈ oneJob, ev.call.ListsPid := by
    simp [oneJob, JobCall.ListsPid]
  exact ⟨l, hl, hpids, iteration_sound oneJob l hl hpids⟩

end WizardShell.Ports
