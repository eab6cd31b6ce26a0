import WizardShell.Ports.JobCleanup
import WizardShell.Verified.Numeral

/-!
# Job numbers

`jobs` prints `[%d]` with the number of a job, and `fg %n` reads it back with `atoi`.
Numbers are issued in increasing order and the list stays in this order, so `jobs` prints
the children as they were started (`jobs_inOrder`); and the number that was printed brings
back the job that it was printed for, and no other (`fg_resumes`).
-/

namespace WizardShell.Ports

open Function
open WizardShell.Verified
open JobList (Lists)

/-! ## Numbers as text -/

/-- What `%d` prints for a number that is not negative. -/
def printed (n : Nat) : List UInt8 := (numeral 10 n).map fun d => UInt8.ofNat (48 + d)

section Printed

variable {n d : Nat}

theorem digit_toNat (hd : d < 10) : (UInt8.ofNat (48 + d)).toNat = 48 + d := by
  rw [UInt8.toNat_ofNat']
  omega

theorem printed_isdigit {c : UInt8} (hc : c ∈ printed n) : isdigit c = true := by
  obtain ⟨d, hd, rfl⟩ := List.mem_map.mp hc
  have hlt := lt_of_mem_numeral (by decide) hd
  have hnat := digit_toNat hlt
  rw [isdigit, Bool.and_eq_true, decide_eq_true_iff, decide_eq_true_iff, UInt8.le_iff_toNat_le,
    UInt8.le_iff_toNat_le, hnat]
  exact ⟨Nat.le_add_right 48 d, show 48 + d ≤ 57 by omega⟩

theorem digitsValue_printed (n : Nat) : digitsValue (printed n) = n := by
  have hread : ∀ (digits : List Nat), (∀ d ∈ digits, d < 10) → ∀ m : Nat,
      (digits.map fun d => UInt8.ofNat (48 + d)).foldl (fun m c => 10 * m + (c.toNat - 48)) m =
        digits.foldl (fun m d => 10 * m + d) m := by
    intro digits
    induction digits with
    | nil => exact fun _ _ => rfl
    | cons d digits ih =>
        intro hlt m
        rw [List.map_cons, List.foldl_cons, List.foldl_cons, digit_toNat (hlt d (by simp)),
          Nat.add_sub_cancel_left]
        exact ih (fun e he => hlt e (List.mem_cons_of_mem d he)) _
  rw [digitsValue, printed, hread _ fun d hd => lt_of_mem_numeral (by decide) hd]
  exact horner_numeral 10 n

theorem not_isspace_of_isdigit {c : UInt8} (h : isdigit c = true) : isspace c = false := by
  simp only [isdigit, isspace, Bool.and_eq_true, decide_eq_true_eq, Bool.or_eq_false_iff,
    Bool.and_eq_false_iff, decide_eq_false_iff_not, UInt8.le_iff_toNat_le,
    ← UInt8.toNat_inj] at h ⊢
  have h48 : (48 : UInt8).toNat = 48 := rfl
  have h32 : (32 : UInt8).toNat = 32 := rfl
  have h13 : (13 : UInt8).toNat = 13 := rfl
  omega

/-- `atoi` reads what `%d` printed. -/
theorem atoi_printed (h : (n : Int) ≤ intMax) : atoi (printed n) = n := by
  have hskip : (printed n).dropWhile isspace = printed n := by
    cases hbytes : printed n with
    | nil => rfl
    | cons c rest =>
        have hc : c ∈ printed n := by
          rw [hbytes]
          exact List.mem_cons_self
        rw [List.dropWhile_cons_of_neg]
        rw [not_isspace_of_isdigit (printed_isdigit hc)]
        exact Bool.false_ne_true
  have htake : (printed n).takeWhile isdigit = printed n :=
    List.takeWhile_eq_self_iff.mpr fun c hc => printed_isdigit hc
  have hread : strtol (printed n) = n := by
    unfold strtol
    simp only [hskip]
    split
    · rename_i rest hsign
      have hbad : isdigit 45 = true := printed_isdigit (hsign ▸ List.mem_cons_self)
      cases hbad
    · rename_i rest hsign
      have hbad : isdigit 43 = true := printed_isdigit (hsign ▸ List.mem_cons_self)
      cases hbad
    · rw [htake, digitsValue_printed, if_pos]
      · rfl
      · unfold intMax at h
        unfold longMax
        omega
  rw [atoi, hread]
  unfold intMax at h
  exact Int.bmod_eq_of_le (by omega) (by omega)

theorem printed_noNul (n : Nat) : 0 ∉ 37 :: printed n := by
  intro hmem
  rcases List.mem_cons.mp hmem with hzero | hzero
  · cases hzero
  · have hbad : isdigit 0 = true := printed_isdigit hzero
    cases hbad

/-- The argument that names the job with this number. -/
def percent (n : Nat) : CString := ⟨37 :: printed n, printed_noNul n⟩

end Printed

/-! ## The order of the list -/

/-- The jobs stand in the order of their numbers, which have been issued, and have pids of
processes. -/
structure Ordered (js : List Job) (jcount : Int) : Prop where
  jids : (js.map Job.jid).Pairwise (· < ·)
  issued : ∀ j ∈ js, 1 ≤ j.jid ∧ j.jid ≤ jcount ∧ 0 < j.pid

section Ordered

variable {js js' : List Job} {jcount : Int} {j : Job}

theorem Ordered.issue (h : Ordered js jcount) : Ordered js (jcount + 1) where
  jids := h.jids
  issued j hj := by
    have hj' := h.issued j hj
    omega

theorem Ordered.sublist (h : Ordered js jcount) (hsub : js'.Sublist js) : Ordered js' jcount where
  jids := h.jids.sublist (hsub.map Job.jid)
  issued j hj := h.issued j (hsub.subset hj)

/-- The next number goes to the end of the list. -/
theorem Ordered.snoc (h : Ordered js jcount) (hcount : 0 ≤ jcount) (hjid : j.jid = jcount + 1)
    (hpid : 0 < j.pid) : Ordered (js ++ [j]) (jcount + 1) where
  jids := by
    rw [List.map_append, List.pairwise_append]
    refine ⟨h.jids, List.pairwise_singleton _ _, fun a ha b hb => ?_⟩
    obtain ⟨i, hi, rfl⟩ := List.mem_map.mp ha
    have hi' := h.issued i hi
    rw [List.mem_singleton.mp hb, hjid]
    omega
  issued i hi := by
    rcases List.mem_append.mp hi with hold | hnew
    · have hi' := h.issued i hold
      omega
    · rw [List.mem_singleton.mp hnew, hjid]
      omega

/-- A job with another state keeps its place. -/
theorem Ordered.revise {pre post : List Job} (h : Ordered (pre ++ j :: post) jcount)
    (state : ProcessState) : Ordered (pre ++ { j with state := state } :: post) jcount where
  jids := by
    have hjids := h.jids
    rw [List.map_append, List.map_cons] at hjids ⊢
    exact hjids
  issued i hi := by
    rcases List.mem_append.mp hi with hpre | hpost
    · exact h.issued i (List.mem_append_left _ hpre)
    · rcases List.mem_cons.mp hpost with rfl | hpost
      · exact h.issued j (List.mem_append_right _ List.mem_cons_self)
      · exact h.issued i (List.mem_append_right _ (List.mem_cons_of_mem j hpost))

end Ordered

/-- The list in memory is ordered. -/
def InOrder (l : JobList) (jcount : Int) : Prop :=
  (0 ≤ jcount ∧ jcount ≤ intMax) ∧
    ∃ elems, Lists l elems ∧ Ordered (elems.map Prod.snd) jcount

theorem inOrder_init : InOrder initJobList 0 :=
  ⟨by decide, [], JobList.lists_init, List.Pairwise.nil, List.forall_mem_nil _⟩

/-- The functions of `jobs.c` keep the order. -/
theorem inOrder_keptByCalls : KeptByCalls InOrder where
  issue h hlt := by
    obtain ⟨hcount, elems, hlists, hordered⟩ := h
    exact ⟨⟨by omega, Int.add_one_le_of_lt hlt⟩, elems, hlists, hordered.issue⟩
  add h hlt hpid hrun := by
    obtain ⟨hcount, elems, hlists, hordered⟩ := h
    obtain ⟨l₁, hadd, hlists₁, _⟩ := hlists.addJob _ _ _ _
    cases hadd.symm.trans hrun
    refine ⟨⟨by omega, Int.add_one_le_of_lt hlt⟩, _, hlists₁, ?_⟩
    rw [List.map_append]
    exact hordered.snoc hcount.1 rfl hpid
  remove h hrun := by
    obtain ⟨hcount, elems, hlists, hordered⟩ := h
    rcases JobList.first_found _ elems with hnone | ⟨pre, a, j, post, rfl, hnone, hfound⟩
    · cases (hlists.remove_none hnone).symm.trans hrun
      exact ⟨hcount, elems, hlists, hordered⟩
    · obtain ⟨l₁, hremove, hlists₁, _⟩ := hlists.remove_found hnone hfound
      cases hremove.symm.trans hrun
      have hsub : (pre ++ post).Sublist (pre ++ (a, j) :: post) :=
        (List.sublist_cons_self _ _).append_left pre
      exact ⟨hcount, _, hlists₁, hordered.sublist (hsub.map Prod.snd)⟩
  update h hrun := by
    obtain ⟨hcount, elems, hlists, hordered⟩ := h
    rcases JobList.first_found _ elems with hnone | ⟨pre, a, j, post, rfl, hnone, hfound⟩
    · cases (hlists.update_none hnone).symm.trans hrun
      exact ⟨hcount, elems, hlists, hordered⟩
    · obtain ⟨l₁, hupdate, hlists₁, _⟩ := hlists.update_found hnone hfound
      cases hupdate.symm.trans hrun
      refine ⟨hcount, _, hlists₁, ?_⟩
      rw [List.map_append, List.map_cons] at hordered ⊢
      exact hordered.revise _

/-! ## `jobs` and `fg` -/

theorem Represents.jobs {l : JobList} {r : JobRegistry} (h : Represents l r) :
    l.jobs = .ret r.records := by
  obtain ⟨elems, hlists, hrecords⟩ := h
  rw [hlists.jobs, hrecords]

section Runs

variable {pgrp : Int} {ts : List Turn} {sh : Shell}

/-- What the list has at a prompt. -/
theorem ShellRun.exists_jobs (hrun : ShellRun pgrp ts sh) : ∃ (r : JobRegistry),
    Tracks sh.jobsList sh.jcount sh.kernel.children r ∧
      sh.jobsList.jobs = .ret r.records ∧ Ordered r.records sh.jcount ∧ sh.jcount ≤ intMax := by
  obtain ⟨r, htracks⟩ := shellRun_tracked hrun
  obtain ⟨elems, hlists, hrecords⟩ := htracks.list
  obtain ⟨hcount, elems', hlists', hordered⟩ := inOrder_keptByCalls.shellRun inOrder_init hrun
  obtain rfl : elems' = elems := hlists'.chain.unique hlists.chain
  rw [hrecords] at hordered
  exact ⟨r, htracks, htracks.list.jobs, hordered, hcount.2⟩

/-- **`jobs` prints the children as they were started.**  At every prompt the list has one
job for each child not yet reaped, in the order of the job numbers, and `jobs` prints them
so, unless no number was issued yet. -/
theorem jobs_inOrder (pgrp : Int) (ts : List Turn) (sh : Shell) (hrun : ShellRun pgrp ts sh)
    (name : CString) :
    ∃ js, sh.jobsList.jobs = .ret js ∧ (js.map Job.jid).Pairwise (· < ·) ∧
      (∀ pid, (js.map Job.pid).count pid = if (sh.kernel.children pid).isSome then 1 else 0) ∧
      sh.binJobs [name] = .ret (0, { sh with output := sh.output ++
        if sh.jcount = 0 then [.text "\n\tNo jobs to report"] else js.map .job }) := by
  obtain ⟨r, htracks, hjobs, hordered, _⟩ := hrun.exists_jobs
  refine ⟨r.records, hjobs, hordered.jids, fun pid => ?_, ?_⟩
  · rw [Registry.count_key, htracks.isSome_lookup]
  · unfold Shell.binJobs
    rw [if_neg (by simp)]
    by_cases hzero : sh.jcount = 0
    · rw [if_pos hzero, if_pos hzero]
      rfl
    · rw [if_neg hzero, if_neg hzero, hjobs]
      rfl

theorem jobs_inOrder_one : ∃ sh, ShellRun 1 [backgroundTurn] sh ∧
    ∃ js, sh.jobsList.jobs = .ret js ∧ (js.map Job.jid).Pairwise (· < ·) ∧
      (∀ pid, (js.map Job.pid).count pid = if (sh.kernel.children pid).isSome then 1 else 0) ∧
      sh.binJobs [.lit ['j']] = .ret (0, { sh with output := sh.output ++
        if sh.jcount = 0 then [.text "\n\tNo jobs to report"] else js.map .job }) := by
  obtain ⟨sh, hrun, _⟩ := exists_backgroundRun
  exact ⟨sh, hrun, jobs_inOrder 1 _ sh hrun _⟩

/-- A number that is listed names its job. -/
theorem ShellRun.jobArgument (hrun : ShellRun pgrp ts sh) {r : JobRegistry}
    (hlist : Represents sh.jobsList r) {j : Job} (hj : j ∈ r.records)
    (errors : Shell.ArgumentErrors) (name : CString) :
    Shell.jobArgument sh.jobsList errors [name, percent j.jid.toNat] =
      .ret (.ok (j.jid, j.pid)) := by
  obtain ⟨r', _, hjobs, hordered, hmax⟩ := hrun.exists_jobs
  have hsame : r'.records = r.records := Outcome.ret.inj (hjobs.symm.trans hlist.jobs)
  obtain ⟨hone, hle, hpid⟩ := hordered.issued j (hsame ▸ hj)
  have hcast : (j.jid.toNat : Int) = j.jid := Int.toNat_of_nonneg (by omega)
  have hread : atoi (percent j.jid.toNat).bytes.tail = j.jid := by
    show atoi (printed j.jid.toNat) = j.jid
    rw [atoi_printed (by omega), hcast]
  have hget : sh.jobsList.getJobPid j.jid = .ret j.pid := by
    have hfound := hlist.get (finds_jid hj) Job.pid
    rwa [Registry.lookup_eq_some.mpr ⟨hj, rfl⟩] at hfound
  have hpercent : (percent j.jid.toNat).bytes.head? = some 37 := rfl
  unfold Shell.jobArgument
  simp only [hpercent, if_true, hread, hget, Outcome.ret_bind, Outcome.pure_eq,
    if_neg (Int.not_lt.mpr (Int.le_of_lt hpid))]

/-- The jobs behind an `fg` whose wait ended with the status. -/
def resumed (status : WaitStatus) (jid : Int) (js : List Job) : List Job :=
  if status.reaps then js.filter fun j => j.jid ≠ jid
  else js.map fun j => if j.jid = jid then { j with state := .stopped } else j

/-- **The number that `jobs` prints brings the job back.**  At every prompt, `fg` with `%`
and the printed number of a listed job finds the number and the pid of this job; where the
job is continued, and a wait for this pid ends, the shell has its terminal back, and the list
has lost the job if the child is gone, has it stopped if it was stopped, and has all other
jobs as before. -/
theorem fg_resumes (pgrp : Int) (ts : List Turn) (sh : Shell) (hrun : ShellRun pgrp ts sh)
    (js : List Job) (hjobs : sh.jobsList.jobs = .ret js) (j : Job) (hj : j ∈ js)
    (name : CString) (kill : Int) (hkill : 0 ≤ kill) (status : WaitStatus)
    (hstatus : status ≠ .continued) :
    Shell.jobArgument sh.jobsList Shell.fgErrors [name, percent j.jid.toNat] =
        .ret (.ok (j.jid, j.pid)) ∧
    ∃ sh', sh.binFg [name, percent j.jid.toNat] kill (some (j.pid, status)) =
        .ret (0, sh') ∧
      sh'.jobsList.jobs = .ret (resumed status j.jid js) ∧
      sh'.kernel.foreground = sh.kernel.pgrp := by
  obtain ⟨r, htracks, hrecords, _⟩ := hrun.exists_jobs
  obtain rfl : r.records = js := Outcome.ret.inj (hrecords.symm.trans hjobs)
  have harg := hrun.jobArgument htracks.list hj Shell.fgErrors name
  have hsame : ∀ i ∈ r.records, i.pid = j.pid ↔ i.jid = j.jid := fun i hi =>
    ((finds_jid hj) i hi).symm.trans decide_eq_true_iff
  have hremoves : ∃ ret l, sh.jobsList.removeJobJid j.jid = .ret (ret, l) ∧
      l.jobs = .ret (r.records.filter fun i => i.jid ≠ j.jid) := by
    obtain ⟨⟨ret, l⟩, hremove, hlist⟩ := htracks.list.remove (finds_jid hj)
    refine ⟨ret, l, hremove, ?_⟩
    rw [hlist.jobs]
    exact congrArg Outcome.ret
      (List.filter_congr fun i hi => decide_eq_decide.mpr (not_congr (hsame i hi)))
  have hupdates : ∃ ret l, sh.jobsList.updateJobJid j.jid .stopped = .ret (ret, l) ∧
      l.jobs = .ret (r.records.map fun i =>
        if i.jid = j.jid then { i with state := .stopped } else i) := by
    obtain ⟨⟨ret, l⟩, hupdate, hlist⟩ := htracks.list.update (finds_jid hj) .stopped
    refine ⟨ret, l, hupdate, ?_⟩
    rw [hlist.jobs]
    refine congrArg Outcome.ret (List.map_congr_left fun i hi => ?_)
    simp only [hsame i hi]
  refine ⟨harg, ?_⟩
  unfold Shell.binFg
  simp only [harg, Outcome.ret_bind, if_neg (Int.not_lt.mpr hkill)]
  cases status with
  | exited code =>
      obtain ⟨ret, l, hremove, hleft⟩ := hremoves
      simp only [Shell.afterFgWait, Kernel.tcsetpgrp, hremove, Outcome.ret_bind, Outcome.pure_eq]
      exact ⟨_, rfl, hleft, rfl⟩
  | signaled sig =>
      obtain ⟨ret, l, hremove, hleft⟩ := hremoves
      simp only [Shell.afterFgWait, Kernel.tcsetpgrp, hremove, Outcome.ret_bind, Outcome.pure_eq]
      exact ⟨_, rfl, hleft, rfl⟩
  | stopped sig =>
      obtain ⟨ret, l, hupdate, hleft⟩ := hupdates
      simp only [Shell.afterFgWait, Kernel.tcsetpgrp, hupdate, Outcome.ret_bind, Outcome.pure_eq]
      exact ⟨_, rfl, hleft, rfl⟩
  | continued => exact absurd rfl hstatus

/-- `fg %1`, and the program is stopped again. -/
theorem fg_resumes_one : ∃ sh js, ShellRun 1 [backgroundTurn] sh ∧ sh.jobsList.jobs = .ret js ∧
    ⟨1, 100, .running, .lit ['c', 'c']⟩ ∈ js ∧ (0 : Int) ≤ 0 ∧
    WaitStatus.stopped 20 ≠ .continued ∧
    Shell.jobArgument sh.jobsList Shell.fgErrors [.lit ['f', 'g'], percent 1] =
        .ret (.ok (1, 100)) ∧
    ∃ sh', sh.binFg [.lit ['f', 'g'], percent 1] 0 (some (100, .stopped 20)) = .ret (0, sh') ∧
      sh'.jobsList.jobs = .ret (resumed (.stopped 20) 1 js) ∧
      sh'.kernel.foreground = sh.kernel.pgrp := by
  obtain ⟨sh, hrun, hjobs⟩ := exists_backgroundRun
  exact ⟨sh, _, hrun, hjobs, List.mem_cons_self, Int.le_refl 0, by decide,
    fg_resumes 1 _ sh hrun _ hjobs _ List.mem_cons_self _ 0 (Int.le_refl 0) (.stopped 20)
      (by decide)⟩

end Runs

end WizardShell.Ports
