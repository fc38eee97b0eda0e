import Mathlib.Data.Finset.Basic
import Yos.Proc.Orphans

/-!
# What a process leaves behind

`yos_exit` and the default action of a signal call `yos_proc_post_exit_cleanup`, which closes the
descriptors of the process and gives its children to the root process; `yos_exit` and the end of
`fork_thread_func` broadcast `any_exit_cond`.  Only `yos_exit` does all of it: a process that ended
by `yos_exit`, or that had no children and no descriptors when it trapped, failed to load a program or
returned from `_start`, leaves nothing behind (`process_end_complete`).  A process that trapped leaves
its children and its descriptors (`trap_leaves_children`).
-/

namespace Yos

/-! ## Parents -/

/-- The pid of the process that its thread has read from the slot. -/
def ProcPc.ownPid : ProcPc → Option ℕ
  | .alloc ppid _ => some ppid
  | .cleanup (.ppid pid) | .cleanup (.orphan pid _) => some pid
  | .cleanup (.lock pid _ _) | .cleanup (.loop _ pid _ _) => some pid
  | _ => none

/-- A process is older than its children, and a thread knows its pid. -/
structure ParentInv (s : ProcTable) : Prop where
  older : ∀ k, (s.procs k).state ≠ .free → (s.procs k).ppid < (s.procs k).pid
  knows : ∀ t th pid, s.threads t = some th → th.pc.ownPid = some pid → pid = t

section Parents

variable {s : ProcTable} {t : ℕ} {th : ProcThread} {e : ProcEvent} {effect : ProcEffect} {pc : ProcPc}

/-- The step gives the process in slot `k` to the root process. -/
def Reparents (s : ProcTable) (th : ProcThread) (k : Fin maxProcs) : Prop :=
  match th.pc with
  | .cleanup (.loop i pid _ _) => k.val = i ∧ (s.procs k).ppid = pid ∧ (s.procs k).pid ≠ pid
  | _ => False

theorem Reparents.place {k : Fin maxProcs} (given : Reparents s th k) :
    ∃ pid ppid ignores, th.pc = .cleanup (.loop k pid ppid ignores) ∧ (s.procs k).ppid = pid ∧
      (s.procs k).pid ≠ pid := by
  unfold Reparents at given
  split at given
  · next pid ppid ignores place =>
    rw [← given.1] at place
    exact ⟨pid, ppid, ignores, place, given.2⟩
  · exact absurd given id

/-- The parent of a slot that is in use after a step. -/
theorem OwnInv.parent_cases (inv : OwnInv s) (here : s.threads t = some th)
    (arrow : ProcArrow s t th e th.pc effect pc) {k : Fin maxProcs}
    (used : (effect.slot s k).state ≠ .free) :
    (∃ ppid, effect = .allocate k ppid ∧ th.pc = .alloc ppid (.init k)) ∨
      ((s.procs k).state ≠ .free ∧ (effect.slot s k).pid = (s.procs k).pid ∧
        ((¬ Reparents s th k ∧ (effect.slot s k).ppid = (s.procs k).ppid) ∨
          (Reparents s th k ∧ (effect.slot s k).ppid = 1))) := by
  obtain ⟨-, alive, -, -, -, expected⟩ := inv.owns t th here
  by_cases target : effect.target = some k
  · cases effect with
    | quiet | acquire | release | born => cases target
    | allocate j ppid =>
      cases target
      generalize th.pc = at_ at *
      cases arrow
      exact .inl ⟨ppid, rfl, rfl⟩
    | reap j r | abandon child j =>
      cases target
      simp [ProcEffect.slot] at used
    | write j f =>
      cases target
      rw [ProcEffect.slot_write_self] at used ⊢
      right
      unfold Reparents
      generalize th.pc = at_ at *
      cases arrow with
      | start child =>
        have live := inv.child_live (expected child rfl)
        exact ⟨(Proc.not_free_of_live live).1, rfl, .inl ⟨id, rfl⟩⟩
      | markState => exact ⟨(Proc.not_free_of_live (alive rfl)).1, rfl, .inl ⟨id, rfl⟩⟩
      | markCode | markTerm | markFlag => exact ⟨used, rfl, .inl ⟨id, rfl⟩⟩
      | cleanupFree => exact absurd rfl used
      | cleanupLoop _ pid =>
        rw [orphan_state] at used
        refine ⟨used, orphan_pid pid _, ?_⟩
        unfold ProcTable.orphan
        by_cases mine : (s.procs k).state ≠ .free ∧ (s.procs k).ppid = pid ∧ (s.procs k).pid ≠ pid
        · rw [if_pos mine]
          exact .inr ⟨⟨rfl, mine.2⟩, rfl⟩
        · rw [if_neg mine]
          exact .inl ⟨fun given => mine ⟨used, given.2⟩, rfl⟩
  · rw [ProcEffect.slot_of_ne target] at used ⊢
    refine .inr ⟨used, rfl, .inl ⟨fun given => target ?_, rfl⟩⟩
    unfold Reparents at given
    generalize th.pc = at_ at *
    cases arrow with
    | cleanupLoop j => exact congrArg some (Fin.ext given.1.symm)
    | cleanupEnd i pid ppid ignores answer outside =>
      rw [← given.1] at outside
      exact absurd k.isLt (Nat.not_lt_of_le outside)
    | _ => exact absurd given id

/-- The pid a thread has read after its step is its own. -/
theorem ParentInv.knows_self (own : OwnInv s) (inv : ParentInv s) (here : s.threads t = some th)
    (arrow : ProcArrow s t th e th.pc effect pc) {pid : ℕ} (read : pc.ownPid = some pid) : pid = t := by
  have slotPid := (own.owns t th here).slotPid arrow.active.1
  have before := fun pid => inv.knows t th pid here
  generalize th.pc = at_ at *
  cases arrow with
  | fork | cleanupPid =>
    cases read
    exact slotPid
  | waitLock w again answer free => cases again <;> cases read
  | waitUnlock w again answer => cases again <;> cases read
  | allocUnlock ppid child answer => cases child <;> cases read
  | pumpUnlock child found answer => cases found <;> cases read
  | markCode path answer | markFlag path answer => cases path <;> cases read
  | _ => first | exact before pid read | cases read

/-- Every step that `ReuseOk` allows keeps the invariant. -/
theorem ParentInv.step {s' : ProcTable} {a : ℕ × ProcEvent} (own : OwnInv s) (inv : ParentInv s)
    (ok : ReuseOk s a) (positive : 0 < a.1) (next : procSystem.step s a s') : ParentInv s' := by
  obtain ⟨t, e⟩ := a
  obtain ⟨th, here, effect, pc, fate, arrow, rfl⟩ := step_arrow next
  have tame := own.tame here ok arrow
  constructor
  · intro k used
    rw [procs_moved] at used ⊢
    rcases own.parent_cases here arrow used with ⟨ppid, rfl, place⟩ | ⟨before, pid, same | ⟨given, root⟩⟩
    · have mine : ppid = t := inv.knows t th ppid here (by rw [place]; rfl)
      simp only [ProcEffect.slot, if_true, Proc.fresh]
      rw [mine]
      exact own.created t th here
    · rw [pid, same.2]
      exact inv.older k before
    · obtain ⟨pid', ppid, ignores, place, same, -⟩ := given.place
      have mine : pid' = t := inv.knows t th pid' here (by rw [place]; rfl)
      have older := inv.older k before
      rw [pid, root]
      rw [same, mine] at older
      exact Nat.lt_of_le_of_lt positive older
  · intro u thu pid thread read
    by_cases mine : u = t
    · subst mine
      rw [own.self_moved here arrow.active.2 tame] at thread
      cases thread
      exact inv.knows_self own here arrow read
    · rcases own.thread_cases tame mine thread with before | ⟨parent, -, place | place⟩ | ⟨-, -, parent, place⟩
      · exact inv.knows u thu pid before read
      all_goals
        rw [place] at read
        cases read

theorem ParentInv.initial : ParentInv .initial := by
  constructor
  · intro k used
    obtain rfl := initial_used used
    decide
  · intro t th pid thread read
    obtain ⟨-, rfl⟩ := initial_thread thread
    cases read

theorem parents_of_reachable (run : procSystem.ReachableIf ReuseOk s) : ParentInv s := by
  induction run with
  | init start =>
    rw [show _ = ProcTable.initial from start]
    exact .initial
  | @step s s' a before ok next ih =>
    obtain ⟨th, here, -⟩ := step_arrow next
    exact ih.step (own_of_reachable before) ok (pid_bounds before here).1 next

end Parents

/-! ## The rest of the end of a process -/

/-- What the end of a process is about besides the table: the host descriptors in `fd_map`, the way
the process ended, whether it had no children and no descriptors then, and whether it has broadcast
`any_exit_cond`. -/
structure EndNote where
  fds : ℕ → Finset ℕ
  via : ℕ → Option ExitPath
  bare : ℕ → Bool
  told : ℕ → Bool

/-- A process gets or closes a descriptor, or broadcasts. -/
inductive EndEvent where
  | opened (t fd : ℕ)
  | closed (t fd : ℕ)
  | tell (t : ℕ)

/-- No entry of the table has `t` as its parent. -/
def ProcTable.Childless (s : ProcTable) (t : ℕ) : Prop :=
  ∀ k, (s.procs k).state ≠ .free → (s.procs k).ppid ≠ t

instance (s : ProcTable) (t : ℕ) : Decidable (s.Childless t) :=
  inferInstanceAs (Decidable (∀ _, _))

/-- The way an event of guest code ends the process. -/
def ProcEvent.path : ProcEvent → Option ExitPath
  | .exit _ => some .exit
  | .trap _ => some .trap
  | .finish => some .finish
  | .signal _ => some .signal
  | .kill => some .kill
  | .next _ | .wait _ _ | .fork | .vanish => none

/-- In guest code or in a call, or not yet born. -/
def ProcPc.guest : ProcPc → Bool
  | .unborn _ | .run | .wait _ _ | .alloc _ _ | .pump _ _ => true
  | _ => false

/-- The path ends with a broadcast. -/
def ExitPath.tells : ExitPath → Bool
  | .exit | .trap | .finish => true
  | .signal | .kill => false

namespace EndNote

variable (x : EndNote)

def initial : EndNote := ⟨fun _ => ∅, fun _ => none, fun _ => false, fun _ => false⟩

/-- The process `t` ends by `path`. -/
def ends (s : ProcTable) (t : ℕ) (path : ExitPath) : EndNote :=
  { x with
    via := Function.update x.via t (some path)
    bare := Function.update x.bare t (decide (x.fds t = ∅ ∧ s.Childless t)) }

/-- The loop of `yos_proc_post_exit_cleanup` that closes the descriptors. -/
def close (t : ℕ) : EndNote :=
  { x with fds := Function.update x.fds t ((x.fds t).filter (· < 3)) }

/-- What a step of `t` at `pc` does. -/
def after (s : ProcTable) (t : ℕ) (e : ProcEvent) : ProcPc → EndNote
  | .run =>
    match e.path with
    | some path => x.ends s t path
    | none => x
  | .cleanup (.orphan _ _) => x.close t
  | _ => x

def follow (s : ProcTable) (a : ℕ × ProcEvent) : EndNote :=
  match s.threads a.1 with
  | some th => x.after s a.1 a.2 th.pc
  | none => x

end EndNote

/-- The steps besides those of the table. -/
def EndNote.step (x : EndNote) (s : ProcTable) : EndEvent → Option EndNote
  | .opened t fd =>
    if (s.threads t).any fun th => th.pc.guest then
      some { x with fds := Function.update x.fds t (insert fd (x.fds t)) }
    else none
  | .closed t fd =>
    if (s.threads t).any fun th => th.pc.guest then
      some { x with fds := Function.update x.fds t ((x.fds t).erase fd) }
    else none
  | .tell t =>
    if ((s.threads t).any fun th => th.pc == .done) && (x.via t).any ExitPath.tells then
      some { x with told := Function.update x.told t true }
    else none

/-- The threads, their descriptors and their broadcasts. -/
def endSystem : System (ProcTable × EndNote) ((ℕ × ProcEvent) ⊕ EndEvent) :=
  procSystem.beside .initial (fun s a x => x.follow s a) fun s x b x' => x.step s b = some x'

/-- Slots are reused late, and a process does not get one of the first three host descriptors. -/
def EndOk (p : ProcTable × EndNote) : (ℕ × ProcEvent) ⊕ EndEvent → Prop
  | .inl a => ReuseOk p.1 a
  | .inr (.opened _ fd) => 3 ≤ fd
  | .inr _ => True

/-- The process has ended, and so has what follows its cleanup. -/
def Gone (p : ProcTable × EndNote) (t : ℕ) (path : ExitPath) : Prop :=
  (∃ th, p.1.threads t = some th ∧ th.pc = .done) ∧ p.2.via t = some path ∧
    (path.tells = true → p.2.told t = true)

/-- Nothing of the process is left. -/
structure LeavesNothing (p : ProcTable × EndNote) (t : ℕ) : Prop where
  children : p.1.Childless t
  fds : p.2.fds t = ∅
  told : p.2.told t = true

/-! ## The invariant -/

/-- The cleanup is past slot `k`. -/
def ProcPc.passed (k : Fin maxProcs) : ProcPc → Bool
  | .cleanup (.loop i _ _ _) => k.val < i
  | .cleanup (.test _) | .cleanup .free | .cleanup .unlock => true
  | _ => false

/-- The cleanup has closed the descriptors. -/
def ProcPc.shut : ProcPc → Bool
  | .cleanup .pid | .cleanup (.ppid _) | .cleanup (.orphan _ _) => false
  | .cleanup _ => true
  | _ => false

/-- The way a process ended fits the place of its thread. -/
def PathFits (via : Option ExitPath) : ProcPc → Prop
  | .exitTest | .mark .exit _ => via = some .exit
  | .mark .signal _ => via = some .signal
  | .mark .kill _ => via = some .kill
  | .mark .trap _ | .finalLock true => via = some .trap
  | .finalLock false => via = some .finish
  | .finalTest _ | .mark .finish _ | .finalUnlock => via = some .trap ∨ via = some .finish
  | .cleanup _ => via = some .exit ∨ via = some .signal
  | .done => True
  | .unborn _ | .run | .wait _ _ | .alloc _ _ | .pump _ _ => via = none

/-- The cleanup of a process is over, or it did not need one. -/
def EndNote.Over (x : EndNote) (t : ℕ) (pc : ProcPc) : Prop :=
  (pc = .done ∧ (x.via t = some .exit ∨ x.via t = some .signal)) ∨ x.bare t = true

/-- What the steps of the end of a process keep. -/
structure EndInv (s : ProcTable) (x : EndNote) : Prop where
  fits : ∀ t th, s.threads t = some th → PathFits (x.via t) th.pc
  unused : ∀ t, s.threads t = none → x.via t = none
  bare : ∀ t, x.bare t = true → x.via t ≠ none
  low : ∀ t fd, fd ∈ x.fds t → 3 ≤ fd
  swept : ∀ t th k, t ≠ 1 → s.threads t = some th → th.pc.passed k = true ∨ x.Over t th.pc →
    (s.procs k).state ≠ .free → (s.procs k).ppid ≠ t
  shut : ∀ t th, s.threads t = some th → th.pc.shut = true ∨ x.Over t th.pc → x.fds t = ∅

section Notes

variable {s : ProcTable} {x : EndNote} {t u : ℕ} {th : ProcThread} {e : ProcEvent} {at_ pc : ProcPc}
  {effect : ProcEffect}

theorem pathFits_guest {via : Option ExitPath} (guest : pc.guest = true) (fits : PathFits via pc) :
    via = none := by
  cases pc <;> first | exact fits | cases guest

theorem after_other (other : u ≠ t) :
    (x.after s t e at_).via u = x.via u ∧ (x.after s t e at_).bare u = x.bare u ∧
      (x.after s t e at_).fds u = x.fds u := by
  unfold EndNote.after
  split
  · split
    · exact ⟨Function.update_of_ne other _ _, Function.update_of_ne other _ _, rfl⟩
    · exact ⟨rfl, rfl, rfl⟩
  · exact ⟨rfl, rfl, Function.update_of_ne other _ _⟩
  · exact ⟨rfl, rfl, rfl⟩

theorem after_low (low : ∀ t fd, fd ∈ x.fds t → 3 ≤ fd) (u fd : ℕ)
    (mem : fd ∈ (x.after s t e at_).fds u) : 3 ≤ fd := by
  unfold EndNote.after at mem
  split at mem
  · split at mem
    · exact low u fd mem
    · exact low u fd mem
  · by_cases mine : u = t
    · subst mine
      simp only [EndNote.close, Function.update_self, Finset.mem_filter] at mem
      exact low u fd mem.1
    · simp only [EndNote.close, Function.update_of_ne mine] at mem
      exact low u fd mem
  · exact low u fd mem

theorem after_bare (bare : ∀ t, x.bare t = true → x.via t ≠ none) (u : ℕ)
    (set : (x.after s t e at_).bare u = true) : (x.after s t e at_).via u ≠ none := by
  unfold EndNote.after at set ⊢
  split at set
  · split at set
    · by_cases mine : u = t
      · subst mine
        simp [EndNote.ends]
      · simp only [EndNote.ends, Function.update_of_ne mine] at set ⊢
        exact bare u set
    · exact bare u set
  · exact bare u set
  · exact bare u set

/-- The way a process ended fits its place after a step. -/
theorem fits_self (arrow : ProcArrow s t th e at_ effect pc) (fits : PathFits (x.via t) at_) :
    PathFits ((x.after s t e at_).via t) pc := by
  cases arrow with
  | exit | trap | finish | signal | kill => exact Function.update_self ..
  | waitLock w again => cases again <;> exact fits
  | waitUnlock w again => cases again <;> exact fits
  | allocUnlock ppid child => cases child <;> exact fits
  | pumpUnlock child found => cases found <;> exact fits
  | exitLate => exact .inl fits
  | markState path | markCode path | markTerm path => cases path <;> exact fits
  | markFlag path =>
    cases path with
    | exit => exact .inl fits
    | signal => exact .inr fits
    | trap => exact fits
    | kill => trivial
    | finish => exact fits
  | finalLock trapped =>
    cases trapped with
    | true => exact .inl fits
    | false => exact .inr fits
  | vanish | finalUnlock | cleanupUnlock => trivial
  | _ => exact fits

/-- A cleanup that is over after a step was over before it, or guest code ends without children and
descriptors. -/
theorem over_before (arrow : ProcArrow s t th e at_ effect pc) (fits : PathFits (x.via t) at_)
    (over_ : (x.after s t e at_).Over t pc) :
    at_ = .cleanup .unlock ∨ x.Over t at_ ∨ at_ = .run ∧ x.fds t = ∅ ∧ s.Childless t := by
  have none_ : pc ≠ .done → (x.after s t e at_).bare t = true := by
    intro going
    exact over_.resolve_left fun done => going done.1
  cases arrow with
  | exit | trap | finish | signal | kill =>
    have bare := none_ nofun
    simp only [EndNote.after, ProcEvent.path, EndNote.ends, Function.update_self,
      decide_eq_true_eq] at bare
    exact .inr (.inr ⟨rfl, bare⟩)
  | vanish =>
    rcases over_ with ⟨-, via | via⟩ | bare
    · exact absurd (fits.symm.trans via) nofun
    · exact absurd (fits.symm.trans via) nofun
    · exact .inr (.inl (.inr bare))
  | finalUnlock =>
    rcases over_ with ⟨-, via | via⟩ | bare
    · rcases fits with fits | fits <;> exact absurd (fits.symm.trans via) nofun
    · rcases fits with fits | fits <;> exact absurd (fits.symm.trans via) nofun
    · exact .inr (.inl (.inr bare))
  | cleanupUnlock => exact .inl rfl
  | waitLock w again => exact .inr (.inl (.inr (none_ (by cases again <;> nofun))))
  | waitUnlock w again => exact .inr (.inl (.inr (none_ (by cases again <;> nofun))))
  | allocUnlock ppid child => exact .inr (.inl (.inr (none_ (by cases child <;> nofun))))
  | pumpUnlock child found => exact .inr (.inl (.inr (none_ (by cases found <;> nofun))))
  | markCode path => exact .inr (.inl (.inr (none_ (by cases path <;> nofun))))
  | markFlag path =>
    rcases over_ with ⟨done, via⟩ | bare
    · cases path with
      | exit | trap | signal | finish => cases done
      | kill => rcases via with via | via <;> exact absurd (fits.symm.trans via) nofun
    · exact .inr (.inl (.inr bare))
  | _ => exact .inr (.inl (.inr (none_ nofun)))

/-- Where the cleanup of a process comes to be past a slot. -/
theorem passed_before {k : Fin maxProcs} (arrow : ProcArrow s t th e at_ effect pc)
    (passed : pc.passed k = true) :
    at_.passed k = true ∨ ∃ pid ppid ignores, at_ = .cleanup (.loop k pid ppid ignores) := by
  cases arrow with
  | cleanupLoop j pid ppid ignores answer =>
    have order : k.val < j.val + 1 := by simpa [ProcPc.passed] using passed
    rcases Nat.lt_succ_iff_lt_or_eq.mp order with before | same
    · exact .inl (by simpa [ProcPc.passed] using before)
    · exact .inr ⟨pid, ppid, ignores, by rw [same]⟩
  | cleanupEnd i pid ppid ignores answer outside =>
    exact .inl (by simpa [ProcPc.passed] using Nat.lt_of_lt_of_le k.isLt outside)
  | cleanupLock => simp [ProcPc.passed] at passed
  | waitLock w again => cases again <;> cases passed
  | waitUnlock w again => cases again <;> cases passed
  | allocUnlock ppid child => cases child <;> cases passed
  | pumpUnlock child found => cases found <;> cases passed
  | markCode path | markFlag path => cases path <;> cases passed
  | _ => first | exact .inl rfl | cases passed

/-- Where the cleanup of a process closes the descriptors. -/
theorem shut_before (arrow : ProcArrow s t th e at_ effect pc) (shut : pc.shut = true) :
    at_.shut = true ∨ ∃ pid ppid, at_ = .cleanup (.orphan pid ppid) := by
  cases arrow with
  | cleanupOrphan pid ppid => exact .inr ⟨pid, ppid, rfl⟩
  | waitLock w again => cases again <;> cases shut
  | waitUnlock w again => cases again <;> cases shut
  | allocUnlock ppid child => cases child <;> cases shut
  | pumpUnlock child found => cases found <;> cases shut
  | markCode path | markFlag path => cases path <;> cases shut
  | _ => first | exact .inl rfl | cases shut

/-- No entry is left to a process whose cleanup is past it, after a step of its thread. -/
theorem EndInv.swept_self (own : OwnInv s) (parents : ParentInv s) (inv : EndInv s x)
    (here : s.threads t = some th) (arrow : ProcArrow s t th e th.pc effect pc) (root : t ≠ 1)
    {k : Fin maxProcs} (swept : pc.passed k = true ∨ (x.after s t e th.pc).Over t pc)
    (used : (effect.slot s k).state ≠ .free) : (effect.slot s k).ppid ≠ t := by
  intro mine
  have fits := inv.fits t th here
  rcases own.parent_cases here arrow used with
    ⟨ppid, rfl, place⟩ | ⟨before, -, ⟨kept, same⟩ | ⟨-, one⟩⟩
  · rw [place] at arrow swept fits
    have none_ : x.via t = none := fits
    cases arrow
    rcases swept with passed | ⟨done, -⟩ | bare
    · cases passed
    · cases done
    · exact inv.bare t bare none_
  · rw [same] at mine
    have left := fun before' => inv.swept t th k root here before' before mine
    rcases swept with passed | over_
    · rcases passed_before arrow passed with earlier | ⟨pid, ppid, ignores, place⟩
      · exact left (.inl earlier)
      · have isPid : pid = t := parents.knows t th pid here (by rw [place]; rfl)
        have older := parents.older k before
        have different : (s.procs k).pid ≠ pid := by omega
        unfold Reparents at kept
        rw [place] at kept
        exact kept ⟨rfl, mine.trans isPid.symm, different⟩
    · rcases over_before arrow fits over_ with place | earlier | ⟨-, -, childless⟩
      · exact left (.inl (by rw [place]; rfl))
      · exact left (.inr earlier)
      · exact childless k before mine
  · exact root (mine.symm.trans one)

/-- The descriptors are closed after a step of a thread whose cleanup has closed them. -/
theorem EndInv.shut_self (inv : EndInv s x) (here : s.threads t = some th)
    (arrow : ProcArrow s t th e th.pc effect pc)
    (shut : pc.shut = true ∨ (x.after s t e th.pc).Over t pc) : (x.after s t e th.pc).fds t = ∅ := by
  have before : (th.pc.shut = true ∨ x.Over t th.pc) ∨ (∃ pid ppid, th.pc = .cleanup (.orphan pid ppid)) ∨
      th.pc = .run ∧ x.fds t = ∅ := by
    rcases shut with shut | over_
    · rcases shut_before arrow shut with earlier | closes
      · exact .inl (.inl earlier)
      · exact .inr (.inl closes)
    · rcases over_before arrow (inv.fits t th here) over_ with place | earlier | ⟨place, fds, -⟩
      · exact .inl (.inl (by rw [place]; rfl))
      · exact .inl (.inr earlier)
      · exact .inr (.inr ⟨place, fds⟩)
  unfold EndNote.after
  rcases before with before | ⟨pid, ppid, place⟩ | ⟨place, fds⟩
  · have fds := inv.shut t th here before
    split
    · split <;> exact fds
    · simp [EndNote.close, fds]
    · exact fds
  · rw [place]
    simp only [EndNote.close, Function.update_self, Finset.filter_eq_empty_iff]
    exact fun fd mem => Nat.not_lt_of_le (inv.low t fd mem)
  · simp only [place]
    split <;> exact fds

/-- Every step of the table keeps the invariant. -/
theorem EndInv.step {s' : ProcTable} {a : ℕ × ProcEvent} (own : OwnInv s) (parents : ParentInv s)
    (inv : EndInv s x) (ok : ReuseOk s a) (next : procSystem.step s a s') :
    EndInv s' (x.follow s a) := by
  obtain ⟨t, e⟩ := a
  obtain ⟨th, here, effect, pc, fate, arrow, rfl⟩ := step_arrow next
  change s.threads t = some th at here
  have tame := own.tame here ok arrow
  have note : x.follow s (t, e) = x.after s t e th.pc := by
    simp only [EndNote.follow, here]
  have self : (s.moved t ⟨th.slot, pc, fate⟩ effect).threads t = some ⟨th.slot, pc, fate⟩ :=
    own.self_moved here arrow.active.2 tame
  rw [note]
  -- what the cleanup of another process has done is what it had done before
  have earlier : ∀ u thu, u ≠ t → (s.moved t ⟨th.slot, pc, fate⟩ effect).threads u = some thu →
      (x.after s t e th.pc).Over u thu.pc → ∃ thu', s.threads u = some thu' ∧ x.Over u thu'.pc := by
    intro u thu other thread over_
    unfold EndNote.Over at over_
    rw [(after_other other).1, (after_other other).2.1] at over_
    rcases own.thread_cases tame other thread with before | ⟨parent, before, -⟩ | ⟨-, before, -⟩
    · exact ⟨thu, before, over_⟩
    · refine ⟨_, before, over_.imp_left fun done => ?_⟩
      have none_ : x.via u = none := inv.fits u _ before
      rcases done.2 with path | path <;> exact absurd (none_.symm.trans path) nofun
    · have none_ := inv.unused u before
      rcases over_ with ⟨-, path | path⟩ | bare'
      · exact absurd (none_.symm.trans path) nofun
      · exact absurd (none_.symm.trans path) nofun
      · exact absurd none_ (inv.bare u bare')
  have cleaning : ∀ u thu k, u ≠ t → (s.moved t ⟨th.slot, pc, fate⟩ effect).threads u = some thu →
      thu.pc.passed k = true ∨ thu.pc.shut = true → s.threads u = some thu := by
    intro u thu k other thread cleans
    rcases own.thread_cases tame other thread with before | ⟨-, -, place | place⟩ | ⟨-, -, parent, place⟩
    · exact before
    all_goals
      rw [place] at cleans
      rcases cleans with cleans | cleans <;> cases cleans
  refine ⟨fun u thu thread => ?_, fun u none_ => ?_, fun u bare => ?_, after_low inv.low,
    fun u thu k root thread swept used => ?_, fun u thu thread shut => ?_⟩
  · by_cases mine : u = t
    · subst mine
      rw [self] at thread
      cases thread
      exact fits_self arrow (inv.fits u th here)
    · rw [(after_other mine).1]
      rcases own.thread_cases tame mine thread with
        before | ⟨parent, before, place | place⟩ | ⟨-, before, parent, place⟩
      · exact inv.fits u thu before
      · rw [place]
        exact inv.fits u _ before
      · rw [place]
        trivial
      · rw [place]
        exact inv.unused u before
  · obtain ⟨other, before⟩ := own.none_before here arrow.active.2 (by rfl) tame none_
    rw [(after_other other).1]
    exact inv.unused u before
  · exact after_bare inv.bare u bare
  · rw [procs_moved] at used ⊢
    by_cases mine : u = t
    · subst mine
      rw [self] at thread
      cases thread
      exact inv.swept_self own parents here arrow root swept used
    · obtain ⟨thu', before, swept'⟩ : ∃ thu', s.threads u = some thu' ∧
          (thu'.pc.passed k = true ∨ x.Over u thu'.pc) := by
        rcases swept with passed | over_
        · exact ⟨thu, cleaning u thu k mine thread (.inl passed), .inl passed⟩
        · obtain ⟨thu', before, over'⟩ := earlier u thu mine thread over_
          exact ⟨thu', before, .inr over'⟩
      rcases own.parent_cases here arrow used with
        ⟨ppid, rfl, place⟩ | ⟨used', -, ⟨-, same⟩ | ⟨-, one⟩⟩
      · have isPid : ppid = t := parents.knows t th ppid here (by rw [place]; rfl)
        simp only [ProcEffect.slot, if_true, Proc.fresh, isPid]
        exact Ne.symm mine
      · rw [same]
        exact inv.swept u thu' k root before swept' used'
      · rw [one]
        exact Ne.symm root
  · by_cases mine : u = t
    · subst mine
      rw [self] at thread
      cases thread
      exact inv.shut_self here arrow shut
    · rw [(after_other mine).2.2]
      rcases shut with shut | over_
      · exact inv.shut u thu (cleaning u thu th.slot mine thread (.inr shut)) (.inl shut)
      · obtain ⟨thu', before, over'⟩ := earlier u thu mine thread over_
        exact inv.shut u thu' before (.inr over')

/-- Every other step keeps the invariant. -/
theorem EndInv.alone {x' : EndNote} {b : EndEvent} (inv : EndInv s x) (ok : EndOk (s, x) (.inr b))
    (next : x.step s b = some x') : EndInv s x' := by
  -- a process in guest code has not closed its descriptors for good
  have open_ : ∀ {t th}, s.threads t = some th → th.pc.guest = true →
      ¬ (th.pc.shut = true ∨ x.Over t th.pc) := by
    rintro t th here guest (shut | ⟨done, -⟩ | bare)
    · cases place : th.pc <;> rw [place] at shut guest <;> first | cases shut | cases guest
    · rw [done] at guest
      cases guest
    · exact inv.bare t bare (pathFits_guest guest (inv.fits t th here))
  -- so that its descriptors may change
  have change_ : ∀ {t th} (fds : Finset ℕ), s.threads t = some th → th.pc.guest = true →
      (∀ fd ∈ fds, 3 ≤ fd) → EndInv s { x with fds := Function.update x.fds t fds } := by
    intro t th fds here guest low
    refine ⟨inv.fits, inv.unused, inv.bare, fun u fd mem => ?_, inv.swept, fun u thu thread shut => ?_⟩
    · by_cases mine : u = t
      · subst mine
        simp only [Function.update_self] at mem
        exact low fd mem
      · simp only [Function.update_of_ne mine] at mem
        exact inv.low u fd mem
    · have other : u ≠ t := by
        rintro rfl
        rw [here] at thread
        cases thread
        exact open_ here guest shut
      simp only [Function.update_of_ne other]
      exact inv.shut u thu thread shut
  cases b with
  | opened t fd =>
    simp only [EndNote.step] at next
    split at next
    · next guest =>
      obtain ⟨th, here, guest⟩ := (Option.any_eq_true _ _).mp guest
      cases next
      refine change_ _ here guest fun fd' mem => ?_
      rcases Finset.mem_insert.mp mem with rfl | mem
      · exact ok
      · exact inv.low t fd' mem
    · cases next
  | closed t fd =>
    simp only [EndNote.step] at next
    split at next
    · next guest =>
      obtain ⟨th, here, guest⟩ := (Option.any_eq_true _ _).mp guest
      cases next
      exact change_ _ here guest fun fd' mem => inv.low t fd' (Finset.mem_of_mem_erase mem)
    · cases next
  | tell t =>
    simp only [EndNote.step] at next
    split at next
    · cases next
      exact ⟨inv.fits, inv.unused, inv.bare, inv.low, inv.swept, inv.shut⟩
    · cases next

end Notes

theorem EndInv.initial : EndInv .initial .initial := by
  refine ⟨fun t th thread => ?_, fun t _ => rfl, fun t bare => ?_, fun t fd mem => ?_,
    fun t th k _ thread swept => ?_, fun t th thread shut => rfl⟩
  · obtain ⟨-, rfl⟩ := initial_thread thread
    rfl
  · cases bare
  · exact absurd mem (Finset.notMem_empty fd)
  · obtain ⟨-, rfl⟩ := initial_thread thread
    rcases swept with passed | ⟨done, -⟩ | bare
    · cases passed
    · cases done
    · cases bare

/-- A process other than the root process that ended by `yos_exit`, or that had no children and no
descriptors when it trapped, failed to load a program or returned from `_start`, leaves nothing
behind. -/
theorem process_end_complete {p : ProcTable × EndNote} (run : endSystem.ReachableIf EndOk p) {t : ℕ}
    {path : ExitPath} (root : t ≠ 1) (gone : Gone p t path)
    (ended : path = .exit ∨ (path = .trap ∨ path = .finish) ∧ p.2.bare t = true) :
    LeavesNothing p t := by
  have inv : EndInv p.1 p.2 := by
    refine System.ReachableIf.beside_invariant ReuseOk (fun _ _ holds => holds) (fun s start => ?_)
      (fun s x a s' before inv ok next => ?_) (fun s x b x' _ inv ok next => inv.alone ok next) run
    · rw [show s = .initial from start]
      exact .initial
    · exact inv.step (own_of_reachable before) (parents_of_reachable before) ok next
  obtain ⟨⟨th, here, done⟩, via, told⟩ := gone
  have over_ : p.2.Over t th.pc := by
    rcases ended with rfl | ⟨-, bare⟩
    · exact .inl ⟨done, .inl via⟩
    · exact .inr bare
  refine ⟨fun k used => inv.swept t th k root here (.inr over_) used, inv.shut t th here (.inr over_),
    told ?_⟩
  rcases ended with rfl | ⟨rfl | rfl, -⟩ <;> rfl

/-- Make a list of steps; slots are reused late. -/
def endRun (steps : List ((ℕ × ProcEvent) ⊕ EndEvent)) : Option (ProcTable × EndNote) :=
  System.runIf (System.besideStep (fun s a => s.step a.1 a.2) (fun s a x => EndNote.follow x s a)
      fun s x b => x.step s b)
    (fun p a => match a with
      | .inl a => reuseTest p.1 a
      | .inr (.opened _ fd) => 3 ≤ fd
      | .inr _ => true)
    (.initial, .initial) steps

theorem reachable_endRun {p : ProcTable × EndNote} {steps : List ((ℕ × ProcEvent) ⊕ EndEvent)}
    (made : endRun steps = some p) : endSystem.ReachableIf EndOk p := by
  have start : endSystem.ReachableIf EndOk (.initial, .initial) := .init ⟨rfl, rfl⟩
  refine start.runIf (fun p a p' next => ?_) (fun p a run test => ?_) made
  · exact System.beside_step (fun _ _ _ next => next) (fun _ _ _ _ next => next) next
  · rcases a with a | ⟨t, fd⟩ | ⟨t, fd⟩ | t
    · exact reuseOk_of_test (run.fst ReuseOk fun _ _ holds => holds) test
    · exact (decide_eq_true_iff (p := 3 ≤ fd)).mp test
    · trivial
    · trivial

/-- The child traps. -/
def childTraps : List (ℕ × ProcEvent) := (2, .trap 139) :: List.replicate 6 (2, .next true)

/-- A child without children and descriptors that has trapped leaves nothing behind. -/
theorem process_end_complete_trap :
    ∃ p, endSystem.ReachableIf EndOk p ∧ Gone p 2 .trap ∧ p.2.bare 2 = true ∧ LeavesNothing p 2 := by
  have look : (endRun ((rootForks ++ childTraps).map .inl ++ [.inr (.tell 2)])).map
      (fun p => (p.1.threads 2, p.2.via 2, p.2.bare 2, p.2.told 2)) =
      some (some ⟨⟨1, by decide⟩, .done, some (139, 0)⟩, some .trap, true, true) := by decide +kernel
  obtain ⟨p, made, seen⟩ := Option.map_eq_some_iff.mp look
  simp only [Prod.mk.injEq] at seen
  obtain ⟨thread, via, bare, told⟩ := seen
  have run := reachable_endRun made
  have gone : Gone p 2 .trap := ⟨⟨_, thread, rfl⟩, via, fun _ => told⟩
  exact ⟨p, run, gone, bare, process_end_complete run (by decide) gone (.inr ⟨.inl rfl, bare⟩)⟩

/-- A child that has a child and a descriptor traps; the entry of its child keeps its pid as the
parent, and the descriptor stays open. -/
theorem trap_leaves_children :
    ∃ p, endSystem.Reachable p ∧ Gone p 2 .trap ∧
      p.1.procs ⟨2, by decide⟩ = ⟨3, 2, .running, 0, 0, false, false⟩ ∧ p.2.fds 2 = {7} ∧
      ¬ LeavesNothing p 2 := by
  have look : (endRun (rootForks.map .inl ++ .inr (.opened 2 7) ::
      (childForks ++ childTraps).map .inl ++ [.inr (.tell 2)])).map
      (fun p => (p.1.threads 2, p.2.via 2, p.2.told 2, p.1.procs ⟨2, by decide⟩, p.2.fds 2)) =
      some (some ⟨⟨1, by decide⟩, .done, some (139, 0)⟩, some .trap, true,
        ⟨3, 2, .running, 0, 0, false, false⟩, {7}) := by decide +kernel
  obtain ⟨p, made, seen⟩ := Option.map_eq_some_iff.mp look
  simp only [Prod.mk.injEq] at seen
  obtain ⟨thread, via, told, slot, fds⟩ := seen
  refine ⟨p, (reachable_endRun made).reachable, ⟨⟨_, thread, rfl⟩, via, fun _ => told⟩, slot, fds,
    fun left => ?_⟩
  exact left.children ⟨2, by decide⟩ (by simp [slot]) (by rw [slot])

end Yos
