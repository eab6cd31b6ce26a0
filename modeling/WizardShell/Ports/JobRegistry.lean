import WizardShell.Ports.Jobs
import WizardShell.Verified.Registry

/-!
# The job list as a registry

A job list whose jids and pids are distinct is a registry of jobs under the two
(`Represents`).  A job of it is found by its jid exactly where it is found by
its pid (`finds_jid`), so each function of `jobs.c` is an operation of the
registry whichever of the two it goes by.
-/

namespace WizardShell.Ports

open WizardShell.Verified
open JobList (Lists)

abbrev JobRegistry := Registry Job.jid Job.pid

/-- The list has the records of the registry, in their order. -/
def Represents (l : JobList) (r : JobRegistry) : Prop :=
  ∃ elems, Lists l elems ∧ elems.map Prod.snd = r.records

/-- Among the records, the test finds the job with this pid. -/
def Finds (r : JobRegistry) (found : Job → Bool) (pid : Int) : Prop :=
  ∀ j ∈ r.records, found j = true ↔ j.pid = pid

/-- The registry with a state changed. -/
def setState (r : JobRegistry) (pid : Int) (state : ProcessState) : JobRegistry :=
  r.revise pid (fun j => { j with state := state }) (fun _ => rfl) (fun _ => rfl)

theorem represents_init : Represents initJobList .empty :=
  ⟨[], JobList.lists_init, rfl⟩

theorem finds_pid (r : JobRegistry) (pid : Int) : Finds r (fun j => j.pid = pid) pid :=
  fun _ _ => decide_eq_true_iff

/-- A jid in use finds what the pid of its job does. -/
theorem finds_jid {r : JobRegistry} {j : Job} (hj : j ∈ r.records) :
    Finds r (fun i => i.jid = j.jid) j.pid := by
  intro i hi
  rw [decide_eq_true_iff]
  constructor
  · intro hjid
    rw [r.eq_of_num hi hj hjid]
  · intro hpid
    rw [r.eq_of_key hi hj hpid]

section Represents

variable {l : JobList} {r : JobRegistry} {found : Job → Bool} {pid : Int}

theorem Finds.lookup_eq_none (hfinds : Finds r found pid)
    (hnone : ∀ j ∈ r.records, found j = false) : r.lookup pid = none := by
  refine Registry.lookup_eq_none.mpr fun j hj hpid => ?_
  have hfound := (hfinds j hj).mpr hpid
  rw [hnone j hj] at hfound
  cases hfound

/-- Either the list has no job to find, or the one with the pid. -/
theorem Represents.find (h : Represents l r) (hfinds : Finds r found pid) :
    (∃ elems, Lists l elems ∧ elems.map Prod.snd = r.records ∧
        (∀ x ∈ elems, found x.2 = false) ∧ r.lookup pid = none) ∨
      ∃ pre a j post, Lists l (pre ++ (a, j) :: post) ∧
        r.records = pre.map Prod.snd ++ j :: post.map Prod.snd ∧
        (∀ x ∈ pre, found x.2 = false) ∧ found j = true ∧ j.pid = pid := by
  obtain ⟨elems, hlists, hrecords⟩ := h
  rcases JobList.first_found found elems with
    hnone | ⟨pre, a, j, post, rfl, hnone, hfound⟩
  · refine .inl ⟨elems, hlists, hrecords, hnone, hfinds.lookup_eq_none fun j hj => ?_⟩
    rw [← hrecords] at hj
    obtain ⟨x, hx, rfl⟩ := List.mem_map.mp hj
    exact hnone x hx
  · have hsplit : r.records = pre.map Prod.snd ++ j :: post.map Prod.snd := by
      rw [← hrecords, List.map_append, List.map_cons]
    have hj : j ∈ r.records := by
      rw [hsplit]
      simp
    exact .inr ⟨pre, a, j, post, hlists, hsplit, hnone, hfound, (hfinds j hj).mp hfound⟩

/-- A removal removes the record under the pid. -/
theorem Represents.remove (h : Represents l r) (hfinds : Finds r found pid) :
    (l.remove found).Yields fun p => Represents p.2 (r.remove pid) := by
  rcases h.find hfinds with
    ⟨elems, hlists, hrecords, hnone, hlookup⟩ |
      ⟨pre, a, j, post, hlists, hsplit, hnone, hfound, rfl⟩
  · refine ⟨(-1, l), hlists.remove_none hnone, elems, hlists, ?_⟩
    rw [hrecords, Registry.remove_of_none hlookup]
  · obtain ⟨l', hremove, hlists', _⟩ := hlists.remove_found hnone hfound
    refine ⟨(0, l'), hremove, pre ++ post, hlists', ?_⟩
    rw [List.map_append, Registry.remove_of_split hsplit]

/-- An update sets the state of the record under the pid. -/
theorem Represents.update (h : Represents l r) (hfinds : Finds r found pid)
    (state : ProcessState) :
    (l.update found state).Yields fun p => Represents p.2 (setState r pid state) := by
  rcases h.find hfinds with
    ⟨elems, hlists, hrecords, hnone, hlookup⟩ |
      ⟨pre, a, j, post, hlists, hsplit, hnone, hfound, rfl⟩
  · refine ⟨(-1, l), hlists.update_none hnone, elems, hlists, ?_⟩
    rw [hrecords, setState, Registry.revise_of_none _ _ hlookup]
  · obtain ⟨l', hupdate, hlists', _⟩ := hlists.update_found hnone hfound
    refine ⟨(0, l'), hupdate, _, hlists', ?_⟩
    rw [setState, Registry.revise_of_split _ _ hsplit, List.map_append, List.map_cons]

/-- A getter returns a field of the record under the pid, or −1. -/
theorem Represents.get (h : Represents l r) (hfinds : Finds r found pid)
    (field : Job → Int) :
    l.get found field = .ret (((r.lookup pid).map field).getD (-1)) := by
  rcases h.find hfinds with
    ⟨elems, hlists, hrecords, hnone, hlookup⟩ |
      ⟨pre, a, j, post, hlists, hsplit, hnone, hfound, hpid⟩
  · rw [hlists.get_none hnone, hlookup]
    rfl
  · have hj : j ∈ r.records := by
      rw [hsplit]
      simp
    rw [hlists.get_found hnone hfound, Registry.lookup_eq_some.mpr ⟨hj, hpid⟩]
    rfl

/-- A new job is entered under the next jid. -/
theorem Represents.addJob (h : Represents l r) {j : Job} (hjid : j.jid = r.issued + 1)
    (hpid : ∀ i ∈ r.records, i.pid ≠ j.pid) :
    (l.addJob j.jid j.pid j.state j.command).Yields fun p =>
      Represents p.2 (r.enter j hjid hpid) := by
  obtain ⟨elems, hlists, hrecords⟩ := h
  obtain ⟨l', hadd, hlists', _⟩ := hlists.addJob j.jid j.pid j.state j.command
  refine ⟨(0, l'), hadd, _, hlists', ?_⟩
  rw [List.map_append, hrecords]
  rfl

end Represents

end WizardShell.Ports
