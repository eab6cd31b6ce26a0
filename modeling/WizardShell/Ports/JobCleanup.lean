import WizardShell.Ports.JobIteration
import WizardShell.Ports.JobTracking
import WizardShell.Verified.Ownership

/-!
# Leaving the shell

`cleanup_job_list` of `jobs.c` and `bin_exit` of `builtin.c`.  The cleanup goes
over the list once more, kills the process group of every job, unless it runs in
a child of the shell, and frees what is left.

The functions of `jobs.c` free what they unlink, so the elements of the list are
all that is allocated (`jobList_leaksNothing`), and the cleanup leaves nothing.
Together with the list tracking the children, `exit` kills the children not yet
reaped, each once, and no other process (`exit_killsChildren`).
-/

namespace WizardShell.Ports

open WizardShell.Verified
open JobList (Lists)

/-- What `cleanup_job_list` does: the process groups it sends `SIGKILL`, in order,
and the elements still allocated behind it. -/
structure Cleanup where
  killed : List Int
  heap : Heap JobElement

namespace JobList

/-- The loop of `cleanup_job_list`; `ours` says that it runs in the process that made
the list. -/
def cleanupFrom (ours : Bool) : Nat → Option Nat → Heap JobElement → Outcome Cleanup
  | 0, _, _ => .outOfFuel
  | _ + 1, none, heap => .ret ⟨[], heap⟩
  | fuel + 1, some cur, heap => do
      let e ← heap.read cur
      let killed := if ours then [e.data.pid] else []
      let heap ← heap.free cur
      let rest ← cleanupFrom ours fuel e.next heap
      return { rest with killed := killed ++ rest.killed }

/-- `cleanup_job_list(job_list)` in the process `pid`, of a list that the process
`shellPid` made. -/
def cleanup (l : JobList) (shellPid pid : Int) : Outcome Cleanup :=
  cleanupFrom (pid = shellPid) l.turns l.head l.heap

end JobList

/-- How `bin_exit` ends. -/
inductive ExitEnd where
  /-- It prints this and returns −1. -/
  | refused (message : String)
  /-- `exit(status)`, behind the cleanup. -/
  | exits (status : Int) (c : Cleanup)

/-- `bin_exit(argc, argv)` in the process `pid`. -/
def Shell.binExit (sh : Shell) (shellPid pid : Int) (argv : List CString) : Outcome ExitEnd :=
  let exits (ec : Int) : Outcome ExitEnd := do
    let c ← sh.jobsList.cleanup shellPid pid
    return .exits ec c
  match argv with
  | [_, arg] =>
      let ec := atoi arg.bytes
      if arg.bytes.head? ≠ some 48 ∧ ec = 0 then
        .ret (.refused
          ("\n\texit: syntax error -- seems something besides" ++
            "              an integer was passed as the argument"))
      else exits ec
  | _ =>
      if argv.length > 2 then
        .ret (.refused "\n\texit: syntax error -- too many arguments")
      else exits 0

/-! ## The elements are all that is allocated -/

/-- The list in memory, with nothing besides. -/
def JobList.OwnsHeap (l : JobList) (elems : List (Nat × Job)) : Prop :=
  Lists l elems ∧ Owns l.heap l.head elems

section Calls

variable {l l' : JobList} {elems : List (Nat × Job)} {r : Int} {found : Job → Bool}

theorem addJob_live {jid pid : Int} {state : ProcessState} {command : CString}
    (h : l.addJob jid pid state command = .ret (r, l')) :
    l'.heap.live = insert l.heap.fresh l.heap.live := by
  rw [← Heap.live_alloc l.heap ⟨⟨jid, pid, state, command⟩, none⟩]
  unfold JobList.addJob at h
  split at h
  · cases h
    rfl
  · obtain ⟨cur, _, h⟩ := Outcome.bind_eq_ret.mp h
    obtain ⟨e, _, h⟩ := Outcome.bind_eq_ret.mp h
    obtain ⟨heap, hwrite, h⟩ := Outcome.bind_eq_ret.mp h
    cases h
    exact Heap.live_write hwrite

theorem unlink_live {prev next : Option Nat} {cur : Nat}
    (h : l.unlink prev cur next = .ret l') : l'.heap.live = l.heap.live \ {cur} := by
  unfold JobList.unlink at h
  cases prev with
  | none =>
      simp only [Outcome.ret_bind, Outcome.bind_eq_ret, Outcome.pure_eq,
        Outcome.ret.injEq] at h
      obtain ⟨heap, hfree, rfl⟩ := h
      exact Heap.live_free hfree
  | some p =>
      simp only [Outcome.bind_eq_ret, Outcome.pure_eq, Outcome.ret.injEq] at h
      obtain ⟨e, _, mid, hwrite, heap, hfree, rfl⟩ := h
      rw [← Heap.live_write hwrite]
      exact Heap.live_free hfree

theorem JobList.ownsHeap_init : initJobList.OwnsHeap [] :=
  ⟨JobList.lists_init, JobList.lists_init.chain, List.nodup_nil, by
    rw [initJobList, Heap.live_empty]
    simp⟩

theorem JobList.OwnsHeap.addJob (h : l.OwnsHeap elems) {jid pid : Int} {state : ProcessState}
    {command : CString} (hrun : l.addJob jid pid state command = .ret (r, l')) :
    ∃ elems', l'.OwnsHeap elems' := by
  obtain ⟨hlists, hown⟩ := h
  obtain ⟨l₁, hadd, hlists₁, _⟩ := hlists.addJob jid pid state command
  cases hadd.symm.trans hrun
  refine ⟨_, hlists₁, hlists₁.chain, hlists₁.nodup, ?_⟩
  rw [addJob_live hrun, hown.live]
  ext a
  simp only [Set.mem_insert_iff, Set.mem_ofPred_eq, List.map_append, List.mem_append,
    List.map_cons, List.map_nil, List.mem_singleton]
  exact or_comm

theorem JobList.OwnsHeap.remove (h : l.OwnsHeap elems) (hrun : l.remove found = .ret (r, l')) :
    ∃ elems', l'.OwnsHeap elems' := by
  obtain ⟨hlists, hown⟩ := h
  rcases JobList.first_found found elems with
    hnone | ⟨pre, a, j, post, rfl, hnone, hfound⟩
  · cases (hlists.remove_none hnone).symm.trans hrun
    exact ⟨elems, hlists, hown⟩
  · obtain ⟨next, hcell, _, _, hnotpre, hnotpost⟩ := hlists.split
    obtain ⟨l₁, hremove, hlists₁, _⟩ := hlists.remove_found hnone hfound
    cases hremove.symm.trans hrun
    rw [JobList.remove, hlists.search_found hnone hfound hcell] at hrun
    obtain ⟨l₂, hunlink, hrun⟩ := Outcome.bind_eq_ret.mp hrun
    cases hrun
    refine ⟨_, hlists₁, hlists₁.chain, hlists₁.nodup, ?_⟩
    rw [unlink_live hunlink, hown.live]
    ext b
    simp only [Set.mem_sdiff, Set.mem_singleton_iff, Set.mem_ofPred_eq, List.map_append,
      List.map_cons, List.mem_append, List.mem_cons]
    constructor
    · rintro ⟨hpre | rfl | hpost, hne⟩
      · exact .inl hpre
      · exact absurd rfl hne
      · exact .inr hpost
    · rintro (hpre | hpost)
      · exact ⟨.inl hpre, fun heq => hnotpre (heq ▸ hpre)⟩
      · exact ⟨.inr (.inr hpost), fun heq => hnotpost (heq ▸ hpost)⟩

theorem JobList.OwnsHeap.update (h : l.OwnsHeap elems) {state : ProcessState}
    (hrun : l.update found state = .ret (r, l')) : ∃ elems', l'.OwnsHeap elems' := by
  obtain ⟨hlists, hown⟩ := h
  rcases JobList.first_found found elems with
    hnone | ⟨pre, a, j, post, rfl, hnone, hfound⟩
  · cases (hlists.update_none hnone).symm.trans hrun
    exact ⟨elems, hlists, hown⟩
  · obtain ⟨next, hcell, _⟩ := hlists.split
    have hfirst : ∃ l₁, l.update found state = .ret (0, l₁) ∧
        Lists l₁ (pre ++ (a, { j with state := state }) :: post) := by
      obtain ⟨l₁, hupdate, hlists₁, _⟩ := hlists.update_found hnone hfound
      exact ⟨l₁, hupdate, hlists₁⟩
    obtain ⟨l₁, hupdate, hlists₁⟩ := hfirst
    cases hupdate.symm.trans hrun
    rw [JobList.update, hlists.search_found hnone hfound hcell] at hrun
    obtain ⟨heap, hwrite, hrun⟩ := Outcome.bind_eq_ret.mp hrun
    cases hrun
    refine ⟨_, hlists₁, hlists₁.chain, hlists₁.nodup, ?_⟩
    show heap.live = _
    rw [Heap.live_write hwrite, hown.live]
    ext b
    simp

theorem JobList.OwnsHeap.getNextPid (h : l.OwnsHeap elems) (hrun : l.getNextPid = .ret (r, l')) :
    ∃ elems', l'.OwnsHeap elems' := by
  obtain ⟨hlists, hown⟩ := h
  cases hcurrent : l.current with
  | none =>
      obtain ⟨l₁, hnext, hlists₁, hheap, _⟩ := hlists.next_end hcurrent
      cases hnext.symm.trans hrun
      refine ⟨elems, hlists₁, hlists₁.chain, hlists₁.nodup, ?_⟩
      rw [hheap]
      exact hown.live
  | some a =>
      obtain ⟨x, hx, rfl⟩ := List.mem_map.mp (hlists.current a hcurrent)
      obtain ⟨pre, post, rfl⟩ := List.append_of_mem hx
      obtain ⟨l₁, hnext, hlists₁, hheap, _⟩ := hlists.next_elem hcurrent
      cases hnext.symm.trans hrun
      refine ⟨_, hlists₁, hlists₁.chain, hlists₁.nodup, ?_⟩
      rw [hheap]
      exact hown.live

end Calls

/-! ## The cleanup -/

/-- The loop meets every element once. -/
theorem cleanupFrom_eq (ours : Bool) {elems : List (Nat × Job)} :
    ∀ {fuel : Nat} {p : Option Nat} {heap : Heap JobElement}, Owns heap p elems →
      elems.length < fuel →
      ∃ c, JobList.cleanupFrom ours fuel p heap = .ret c ∧ c.heap.live = ∅ ∧
        c.killed = if ours then elems.map fun x => x.2.pid else [] := by
  induction elems with
  | nil =>
      intro fuel p heap hown hfuel
      have hp : p = none := hown.chain
      subst hp
      cases fuel with
      | zero => simp at hfuel
      | succ fuel =>
          refine ⟨⟨[], heap⟩, rfl, ?_, by simp⟩
          rw [hown.live]
          simp
  | cons x rest ih =>
      intro fuel p heap hown hfuel
      obtain ⟨a, j⟩ := x
      obtain ⟨next, rfl, hcell, hrest⟩ := hown.free_first
      cases fuel with
      | zero => simp at hfuel
      | succ fuel =>
          obtain ⟨c, hrun, hlive, hkilled⟩ := ih hrest (by simpa using hfuel)
          refine ⟨{ c with killed := (if ours then [j.pid] else []) ++ c.killed }, ?_, hlive, ?_⟩
          · simp only [JobList.cleanupFrom, Heap.read_of_live hcell, Heap.free_of_live hcell,
              Outcome.ret_bind, hrun, Outcome.pure_eq]
          · rw [hkilled]
            cases ours <;> rfl

theorem JobList.OwnsHeap.cleanup {l : JobList} {elems : List (Nat × Job)} (h : l.OwnsHeap elems)
    (shellPid pid : Int) :
    ∃ c, l.cleanup shellPid pid = .ret c ∧ c.heap.live = ∅ ∧
      c.killed = if pid = shellPid then elems.map fun x => x.2.pid else [] := by
  obtain ⟨c, hrun, hlive, hkilled⟩ := cleanupFrom_eq (pid = shellPid) h.2 h.1.length_lt_turns
  refine ⟨c, hrun, hlive, ?_⟩
  rw [hkilled]
  simp

/-- Any call keeps it. -/
theorem JobCall.ownsHeap {l l' : JobList} {elems : List (Nat × Job)} {r : Int}
    (h : l.OwnsHeap elems) {call : JobCall} (hrun : call.run l = .ret (r, l')) :
    ∃ elems', l'.OwnsHeap elems' := by
  cases call with
  | addJob jid pid state command => exact h.addJob hrun
  | removeJobJid jid => exact h.remove hrun
  | removeJobPid pid => exact h.remove hrun
  | updateJobJid jid state => exact h.update hrun
  | updateJobPid pid state => exact h.update hrun
  | getNextPid => exact h.getNextPid hrun

/-- **The job list leaks nothing.**  After any calls, in any order, the elements
reached from the head are all that is allocated; the cleanup frees each of them once,
so that nothing is left, and kills their groups in the order of the list, or none in
another process than the shell. -/
theorem jobList_leaksNothing (evs : List JobEvent) (l : JobList) (hrun : JobRun evs l)
    (shellPid pid : Int) :
    ∃ elems, Segment l.heap l.head elems none ∧
      l.heap.live = { a | a ∈ elems.map Prod.fst } ∧
      ∃ c, l.cleanup shellPid pid = .ret c ∧ c.heap.live = ∅ ∧
        c.killed = if pid = shellPid then elems.map fun x => x.2.pid else [] := by
  have howns : ∃ elems, l.OwnsHeap elems := by
    induction hrun with
    | start => exact ⟨[], JobList.ownsHeap_init⟩
    | next _ hstep ih =>
        obtain ⟨elems, howns⟩ := ih
        exact JobCall.ownsHeap howns hstep.1
  obtain ⟨elems, howns⟩ := howns
  exact ⟨elems, howns.1.chain, howns.2.live, howns.cleanup shellPid pid⟩

/-- Two jobs, of which the first is removed again. -/
theorem jobList_leaksNothing_two : ∃ evs l, JobRun evs l ∧ ∃ elems,
    Segment l.heap l.head elems none ∧ l.heap.live = { a | a ∈ elems.map Prod.fst } ∧
      ∃ c, l.cleanup 1 1 = .ret c ∧ c.heap.live = ∅ ∧
        c.killed = if (1 : Int) = 1 then elems.map fun x => x.2.pid else [] := by
  let evs : List JobEvent :=
    [⟨.addJob 1 100 .running .empty, 0, none⟩, ⟨.addJob 2 101 .stopped .empty, 0, none⟩,
      ⟨.removeJobPid 100, 0, none⟩]
  have hrun : ∃ l, JobRun evs l :=
    ⟨_, Run.cons_iff.mpr ⟨_, ⟨rfl, rfl⟩, Run.cons_iff.mpr ⟨_, ⟨rfl, rfl⟩,
      Run.singleton_iff.mpr ⟨rfl, rfl⟩⟩⟩⟩
  obtain ⟨l, hrun⟩ := hrun
  exact ⟨evs, l, hrun, jobList_leaksNothing evs l hrun 1 1⟩

/-! ## The job list of the shell -/

/-- The functions that change the list keep a property of it and of `jcount`. -/
structure KeptByCalls (P : JobList → Int → Prop) : Prop where
  issue : ∀ {l n}, P l n → n < intMax → P l (n + 1)
  add : ∀ {l l' n r pid state command}, P l n → n < intMax → 0 < pid →
    l.addJob (n + 1) pid state command = .ret (r, l') → P l' (n + 1)
  remove : ∀ {l l' n r found}, P l n → JobList.remove l found = .ret (r, l') → P l' n
  update : ∀ {l l' n r found state}, P l n → JobList.update l found state = .ret (r, l') →
    P l' n

theorem ownsHeap_keptByCalls : KeptByCalls fun l _ => ∃ elems, l.OwnsHeap elems where
  issue h _ := h
  add h _ _ hrun := by
    obtain ⟨elems, h⟩ := h
    exact h.addJob hrun
  remove h hrun := by
    obtain ⟨elems, h⟩ := h
    exact h.remove hrun
  update h hrun := by
    obtain ⟨elems, h⟩ := h
    exact h.update hrun

namespace KeptByCalls

variable {P : JobList → Int → Prop} {sh sh' : Shell} {tokens argv : List CString}
  {pid r : Int} {wait : Option Report}

theorem startJob (h : KeptByCalls P) {state : ProcessState} (hpid : 0 < pid)
    (hrun : sh.startJob tokens pid state = .ret sh') (hP : P sh.jobsList sh.jcount) :
    P sh'.jobsList sh'.jcount := by
  obtain ⟨jcount, hcount, hrun⟩ := Outcome.bind_eq_ret.mp hrun
  obtain ⟨command, _, hrun⟩ := Outcome.bind_eq_ret.mp hrun
  obtain ⟨⟨r, l⟩, hadd, hrun⟩ := Outcome.bind_eq_ret.mp hrun
  cases hrun
  obtain ⟨hlt, rfl⟩ := succInt_eq_ret.mp hcount
  exact h.add hP hlt hpid hadd

theorem afterWait (h : KeptByCalls P) (hpid : 0 < pid)
    (hrun : sh.afterWait tokens pid wait = .ret sh') (hP : P sh.jobsList sh.jcount) :
    P sh'.jobsList sh'.jcount := by
  unfold Shell.afterWait at hrun
  split at hrun
  · cases hrun
    exact hP
  · rename_i wret status
    split at hrun
    · cases hrun
      exact hP
    · cases hrun
      exact hP
    · obtain ⟨jcount, hcount, hrun⟩ := Outcome.bind_eq_ret.mp hrun
      cases hrun
      obtain ⟨hlt, rfl⟩ := succInt_eq_ret.mp hcount
      exact h.issue hP hlt
    · obtain ⟨sh₁, hstart, hrun⟩ := Outcome.bind_eq_ret.mp hrun
      cases hrun
      have hstarted := h.startJob hpid hstart hP
      exact hstarted

theorem execute (h : KeptByCalls P) {isBackground : Bool} (hpid : Accepted tokens → 0 < pid)
    (hrun : sh.execute tokens isBackground pid wait = .ret sh')
    (hP : P sh.jobsList sh.jcount) : P sh'.jobsList sh'.jcount := by
  unfold Shell.execute at hrun
  split at hrun
  · cases hrun
    exact hP
  · rename_i redirection hscan
    have hpos : 0 < pid := hpid ⟨redirection, hscan⟩
    cases isBackground with
    | true =>
        obtain ⟨sh₁, hstart, hrun⟩ := Outcome.bind_eq_ret.mp hrun
        cases hrun
        have hstarted := h.startJob hpos hstart hP
        exact hstarted
    | false =>
        obtain ⟨sh₁, hafter, hrun⟩ := Outcome.bind_eq_ret.mp hrun
        cases hrun
        have hwaited := h.afterWait hpos hafter hP
        exact hwaited

theorem afterFgWait (h : KeptByCalls P) {jid : Int}
    (hrun : sh.afterFgWait jid wait = .ret sh') (hP : P sh.jobsList sh.jcount) :
    P sh'.jobsList sh'.jcount := by
  unfold Shell.afterFgWait at hrun
  split at hrun
  · cases hrun
    exact hP
  · rename_i wret status
    split at hrun
    · obtain ⟨⟨r, l⟩, hremove, hrun⟩ := Outcome.bind_eq_ret.mp hrun
      cases hrun
      exact h.remove hP hremove
    · obtain ⟨⟨r, l⟩, hremove, hrun⟩ := Outcome.bind_eq_ret.mp hrun
      cases hrun
      exact h.remove hP hremove
    · obtain ⟨⟨r, l⟩, hupdate, hrun⟩ := Outcome.bind_eq_ret.mp hrun
      cases hrun
      exact h.update hP hupdate
    · cases hrun
      exact hP

theorem binFg (h : KeptByCalls P) {kill : Int}
    (hrun : sh.binFg argv kill wait = .ret (r, sh')) (hP : P sh.jobsList sh.jcount) :
    P sh'.jobsList sh'.jcount := by
  obtain ⟨arg, _, hrun⟩ := Outcome.bind_eq_ret.mp hrun
  cases arg with
  | error text =>
      cases hrun
      exact hP
  | ok found =>
      obtain ⟨jid, pid⟩ := found
      dsimp only at hrun
      split at hrun
      · cases hrun
        exact hP
      · obtain ⟨sh₁, hafter, hrun⟩ := Outcome.bind_eq_ret.mp hrun
        cases hrun
        have hwaited := h.afterFgWait hafter hP
        exact hwaited

theorem reap (h : KeptByCalls P) {reports : List Report} :
    ∀ {sh : Shell}, sh.reap reports = .ret sh' → P sh.jobsList sh.jcount →
      P sh'.jobsList sh'.jcount := by
  induction reports with
  | nil =>
      intro sh hrun hP
      cases hrun
      exact hP
  | cons report rest ih =>
      intro sh hrun hP
      obtain ⟨wret, status⟩ := report
      obtain ⟨wjid, _, hrun⟩ := Outcome.bind_eq_ret.mp hrun
      obtain ⟨⟨r, l⟩, hlist, hrun⟩ := Outcome.bind_eq_ret.mp hrun
      refine ih hrun ?_
      show P l sh.jcount
      cases status with
      | exited code => exact h.remove hP hlist
      | signaled sig => exact h.remove hP hlist
      | stopped sig => exact h.update hP hlist
      | continued => exact h.update hP hlist

/-- A turn changes the list through these functions only. -/
theorem turn (h : KeptByCalls P) {t : Turn}
    (hfork : ∀ tokens, t.command = .execute tokens → Accepted tokens → 0 < t.fork)
    (hrun : sh.turn t = .ret sh') (hP : P sh.jobsList sh.jcount) :
    P sh'.jobsList sh'.jcount := by
  obtain ⟨sh₁, hline, hreap⟩ := Outcome.bind_eq_ret.mp hrun
  refine h.reap hreap ?_
  unfold Shell.run at hline
  split at hline
  · rename_i tokens hcommand
    exact h.execute (hfork tokens hcommand) hline hP
  · obtain ⟨⟨r, sh₂⟩, hfg, hline⟩ := Outcome.bind_eq_ret.mp hline
    cases hline
    exact h.binFg hfg hP
  · obtain ⟨⟨r, sh₂⟩, hbg, hline⟩ := Outcome.bind_eq_ret.mp hline
    cases hline
    obtain ⟨hlist, hcount, _⟩ := Shell.binBg_keeps hbg
    rwa [hlist, hcount]
  · obtain ⟨⟨r, sh₂⟩, hjobs, hline⟩ := Outcome.bind_eq_ret.mp hline
    cases hline
    obtain ⟨hlist, hcount, _⟩ := Shell.binJobs_keeps hjobs
    rwa [hlist, hcount]
  · cases hline
    exact hP

/-- What the functions keep holds at every prompt. -/
theorem shellRun (h : KeptByCalls P) (hstart : P initJobList 0) {pgrp : Int} {ts : List Turn}
    (hrun : ShellRun pgrp ts sh) : P sh.jobsList sh.jcount := by
  induction hrun with
  | start => exact hstart
  | next _ hstep ih =>
      refine h.turn (fun tokens hcommand _ => ?_) hstep.2 ih
      have hcan := hstep.1.run
      rw [Turn.CanRun, hcommand] at hcan
      exact hcan.2.2.1

end KeptByCalls

/-! ## `exit` -/

/-- The cleanup of a list in step with the children. -/
theorem cleanup_kills {sh : Shell} (htracked : sh.Tracked)
    (howns : ∃ elems, sh.jobsList.OwnsHeap elems) (shellPid pid : Int) :
    ∃ c, sh.jobsList.cleanup shellPid pid = .ret c ∧ c.heap.live = ∅ ∧
      ∀ child, c.killed.count child =
        if pid = shellPid ∧ (sh.kernel.children child).isSome then 1 else 0 := by
  obtain ⟨elems, howns⟩ := howns
  obtain ⟨elems', htracks⟩ := htracked.tracksChildren
  obtain rfl : elems' = elems := htracks.elements.unique howns.1.chain
  obtain ⟨c, hcleanup, hlive, hkilled⟩ := howns.cleanup shellPid pid
  refine ⟨c, hcleanup, hlive, fun child => ?_⟩
  rw [hkilled]
  by_cases hours : pid = shellPid
  · rw [if_pos hours, htracks.pids child]
    simp [hours]
  · rw [if_neg hours, if_neg fun h => hours h.1, List.count_nil]

/-- The arguments that `exit` refuses: more than one, and one that reads as 0 without
beginning with a zero. -/
def ExitRefused (argv : List CString) : Prop :=
  2 < argv.length ∨
    ∃ name arg, argv = [name, arg] ∧ arg.bytes.head? ≠ some 48 ∧ atoi arg.bytes = 0

/-- The status that `exit` gives. -/
def exitStatus : List CString → Int
  | [_, arg] => atoi arg.bytes
  | _ => 0

theorem Shell.binExit_eq (sh : Shell) (shellPid pid : Int) (argv : List CString) :
    (ExitRefused argv ∧
        ∃ message, sh.binExit shellPid pid argv = .ret (.refused message)) ∨
      (¬ ExitRefused argv ∧ sh.binExit shellPid pid argv =
        sh.jobsList.cleanup shellPid pid >>= fun c => .ret (.exits (exitStatus argv) c)) := by
  unfold binExit
  split
  · rename_i name arg
    by_cases hbad : arg.bytes.head? ≠ some 48 ∧ atoi arg.bytes = 0
    · refine .inl ⟨.inr ⟨name, arg, rfl, hbad⟩, ?_⟩
      simp only [if_pos hbad]
      exact ⟨_, rfl⟩
    · refine .inr ⟨?_, ?_⟩
      · rintro (hlen | ⟨name', arg', hargv, hbad'⟩)
        · simp at hlen
        · cases hargv
          exact hbad hbad'
      · simp only [if_neg hbad]
        rfl
  · rename_i hshape
    by_cases hlen : argv.length > 2
    · refine .inl ⟨.inl hlen, ?_⟩
      rw [if_pos hlen]
      exact ⟨_, rfl⟩
    · refine .inr ⟨?_, ?_⟩
      · rintro (hlen' | ⟨name, arg, hargv, _⟩)
        · exact hlen hlen'
        · exact hshape name arg hargv
      · have hstatus : exitStatus argv = 0 := by
          unfold exitStatus
          split
          · exact absurd rfl (hshape _ _)
          · rfl
        rw [if_neg hlen, hstatus]
        rfl

/-- **`exit` kills what the shell has started.**  At every prompt, `exit` with an
argument that it does not refuse frees all elements of the job list and, in the process
of the shell, sends `SIGKILL` to the process group of each child not yet reaped, once,
and to no other. -/
theorem exit_killsChildren (pgrp : Int) (ts : List Turn) (sh : Shell)
    (hrun : ShellRun pgrp ts sh) (shellPid pid : Int) (argv : List CString) :
    (ExitRefused argv ∧
        ∃ message, sh.binExit shellPid pid argv = .ret (.refused message)) ∨
      (¬ ExitRefused argv ∧ ∃ c,
        sh.binExit shellPid pid argv = .ret (.exits (exitStatus argv) c) ∧
        c.heap.live = ∅ ∧
        ∀ child, c.killed.count child =
          if pid = shellPid ∧ (sh.kernel.children child).isSome then 1 else 0) := by
  have howns := ownsHeap_keptByCalls.shellRun ⟨[], JobList.ownsHeap_init⟩ hrun
  rcases sh.binExit_eq shellPid pid argv with hrefused | ⟨haccepted, hexit⟩
  · exact .inl hrefused
  · obtain ⟨c, hcleanup, hlive, hkilled⟩ :=
      cleanup_kills (shellRun_tracked hrun) howns shellPid pid
    exact .inr ⟨haccepted, c, by rw [hexit, hcleanup, Outcome.ret_bind], hlive, hkilled⟩

/-- `cc &`, as the process 100. -/
def backgroundTurn : Turn where
  command := .execute [.lit ['c', 'c'], tokAmp]
  fork := 100
  kill := 0
  wait := none
  reports := []

theorem exists_backgroundRun : ∃ sh, ShellRun 1 [backgroundTurn] sh ∧
    sh.jobsList.jobs = .ret [⟨1, 100, .running, .lit ['c', 'c']⟩] := by
  refine ⟨_, Run.singleton_iff.mpr ⟨⟨by decide, ?_, ?_⟩, rfl⟩, rfl⟩
  · exact ⟨accepted_of_plain (by decide), ⟨_, rfl⟩, by decide, rfl, fun h => absurd rfl h⟩
  · intro sh' _
    trivial

/-- `exit` with a job in the background. -/
theorem exit_killsChildren_one : ∃ sh, ShellRun 1 [backgroundTurn] sh ∧
    ((ExitRefused [.lit ['e', 'x', 'i', 't']] ∧
        ∃ message, sh.binExit 1 1 [.lit ['e', 'x', 'i', 't']] = .ret (.refused message)) ∨
      (¬ ExitRefused [.lit ['e', 'x', 'i', 't']] ∧ ∃ c,
        sh.binExit 1 1 [.lit ['e', 'x', 'i', 't']] =
          .ret (.exits (exitStatus [.lit ['e', 'x', 'i', 't']]) c) ∧
        c.heap.live = ∅ ∧
        ∀ child, c.killed.count child =
          if (1 : Int) = 1 ∧ (sh.kernel.children child).isSome then 1 else 0)) := by
  obtain ⟨sh, hrun, _⟩ := exists_backgroundRun
  exact ⟨sh, hrun, exit_killsChildren 1 _ sh hrun 1 1 _⟩

end WizardShell.Ports
