import Yos.Proc.Orphans

/-!
# `ctx_handle`

The thread of a forked process allocates its context and stores it in the slot; `yos_proc_alloc` and
the automatic reaping of `yos_proc_post_exit_cleanup` clear the field, and the end of
`fork_thread_func` frees the context.  `deliver_to_proc` and the inspection of a process find a slot,
test the field, load it and use the context; the loop of the cleanup uses the context of the parent.

A context is known by the pid of its process, and the steps of a reader interleave with all others.
The cleanup reads the field and uses the context in one step.  In runs in which a context is freed
only when its slot does not hold it any more and no reader has loaded it (`CtxOk`), no slot holds a
freed context and no freed context is used (`no_dangling_ctx`).  `fork_thread_func` does not clear the
field, so that a process that traps leaves it dangling (`trap_leaves_ctx`).
-/

namespace Yos

/-- Where a reader is: it has found a slot, has seen that the field is not null, has loaded it. -/
inductive Reading where
  | found (k : Fin maxProcs)
  | tested (k : Fin maxProcs)
  | loaded (ctx : ℕ)
deriving DecidableEq, Repr

/-- The field `ctx_handle` of the slots, the contexts that were allocated and freed, the processes
whose threads free their context when they end, the readers, and whether a freed context was used. -/
structure CtxNote where
  handle : Fin maxProcs → Option ℕ
  made : ℕ → Bool
  freed : ℕ → Bool
  frees : ℕ → Bool
  reading : ℕ → Option Reading
  misused : Bool

inductive CtxEvent where
  /-- `fork_thread_func` allocates the context and stores it in the slot. -/
  | setup (t : ℕ)
  /-- `fork_thread_func` frees the context. -/
  | free (t : ℕ)
  /-- `yos_proc_find` returns the slot. -/
  | find (reader : ℕ) (k : Fin maxProcs)
  /-- The first test of `deliver_to_proc`. -/
  | check (reader : ℕ)
  | test (reader : ℕ)
  | load (reader : ℕ)
  | use (reader : ℕ)

namespace CtxNote

variable (x : CtxNote)

/-- The context of the root process is in its slot. -/
def initial : CtxNote where
  handle k := if k.val = 0 then some 1 else none
  made t := t == 1
  freed _ := false
  frees _ := false
  reading _ := none
  misused := false

/-- A context is used. -/
def uses (ctx : ℕ) : CtxNote := { x with misused := x.misused || x.freed ctx }

/-- The field of a slot is cleared. -/
def clear (k : Fin maxProcs) : CtxNote := { x with handle := Function.update x.handle k none }

/-- The loop of `yos_proc_post_exit_cleanup` looks at a slot. -/
def looks (p : Proc) (k : Fin maxProcs) (ppid : ℕ) : CtxNote :=
  match x.handle k with
  | some ctx => if p.state ≠ .free ∧ p.pid = ppid then x.uses ctx else x
  | none => x

/-- What a step of `t` does: `memset` in `yos_proc_alloc`, the automatic reaping, the look at the
parent. -/
def after (s : ProcTable) (t : ℕ) (e : ProcEvent) (th : ProcThread) : CtxNote :=
  match th.pc with
  | .run =>
    match e with
    | .trap _ | .finish | .vanish => { x with frees := Function.update x.frees t true }
    | _ => x
  | .alloc _ (.init k) => x.clear k
  | .cleanup (.loop i _ ppid _) => if h : i < maxProcs then x.looks (s.procs ⟨i, h⟩) ⟨i, h⟩ ppid else x
  | .cleanup .free => x.clear th.slot
  | _ => x

def follow (s : ProcTable) (a : ℕ × ProcEvent) : CtxNote :=
  match s.threads a.1 with
  | some th => x.after s a.1 a.2 th
  | none => x

/-- The reader goes on at `at_`. -/
def goto (reader : ℕ) (at_ : Option Reading) : CtxNote :=
  { x with reading := Function.update x.reading reader at_ }

/-- The steps besides those of the table.  The context of the root process is a variable of `main`. -/
def step (s : ProcTable) : CtxEvent → Option CtxNote
  | .setup t =>
    match s.threads t with
    | some th =>
      if th.pc = .run ∧ x.made t = false then
        some { x with
          handle := Function.update x.handle th.slot (some t)
          made := Function.update x.made t true }
      else none
    | none => none
  | .free t =>
    match s.threads t with
    | some th =>
      if th.pc = .done ∧ t ≠ 1 ∧ x.frees t = true ∧ x.made t = true ∧ x.freed t = false then
        some { x with freed := Function.update x.freed t true }
      else none
    | none => none
  | .find r k =>
    if x.reading r = none ∧ s.lock = none ∧ (s.procs k).state ≠ .free then some (x.goto r (some (.found k)))
    else none
  | .check r =>
    match x.reading r with
    | some (.found k) => some (if (s.procs k).live then x else x.goto r none)
    | _ => none
  | .test r =>
    match x.reading r with
    | some (.found k) => some (x.goto r (if (x.handle k).isSome then some (.tested k) else none))
    | _ => none
  | .load r =>
    match x.reading r with
    | some (.tested k) => some (x.goto r ((x.handle k).map .loaded))
    | _ => none
  | .use r =>
    match x.reading r with
    | some (.loaded ctx) => some ((x.uses ctx).goto r none)
    | _ => none

end CtxNote

/-- The threads, their contexts and the readers. -/
def ctxSystem : System (ProcTable × CtxNote) ((ℕ × ProcEvent) ⊕ CtxEvent) :=
  procSystem.beside .initial (fun s a x => x.follow s a) fun s x b x' => x.step s b = some x'

/-- A context is freed only when its slot does not hold it and no reader has loaded it. -/
def CtxOk (p : ProcTable × CtxNote) : (ℕ × ProcEvent) ⊕ CtxEvent → Prop
  | .inr (.free t) =>
    (∀ th, p.1.threads t = some th → p.2.handle th.slot ≠ some t) ∧
      ∀ r, p.2.reading r ≠ some (.loaded t)
  | _ => True

/-- Slots hold contexts of their own processes, and neither slots nor readers hold a freed one. -/
structure CtxInv (s : ProcTable) (x : CtxNote) : Prop where
  held : ∀ k ctx, x.handle k = some ctx → x.freed ctx = false
  owner : ∀ k ctx, x.handle k = some ctx → ∃ th, s.threads ctx = some th ∧ th.slot = k
  made : ∀ t, x.freed t = true → x.made t = true
  loaded : ∀ r ctx, x.reading r = some (.loaded ctx) → x.freed ctx = false
  used : x.misused = false

section Steps

variable {s : ProcTable} {x x' : CtxNote}

theorem clear_handle {k j : Fin maxProcs} {ctx : ℕ} (holds : (x.clear k).handle j = some ctx) :
    x.handle j = some ctx := by
  by_cases same : j = k
  · subst same
    simp [CtxNote.clear] at holds
  · simpa only [CtxNote.clear, Function.update_of_ne same] using holds

/-- Looking at a slot is no misuse. -/
theorem CtxInv.looks (inv : CtxInv s x) (p : Proc) (k : Fin maxProcs) (ppid : ℕ) :
    CtxInv s (x.looks p k ppid) := by
  unfold CtxNote.looks
  split
  · next ctx holds =>
    split
    · refine ⟨inv.held, inv.owner, inv.made, inv.loaded, ?_⟩
      simp only [CtxNote.uses, inv.used, inv.held k ctx holds, Bool.or_self]
    · exact inv
  · exact inv

theorem CtxInv.clear (inv : CtxInv s x) (k : Fin maxProcs) : CtxInv s (x.clear k) :=
  ⟨fun j ctx holds => inv.held j ctx (clear_handle holds),
    fun j ctx holds => inv.owner j ctx (clear_handle holds), inv.made, inv.loaded, inv.used⟩

/-- What a step of the table does to the contexts keeps the invariant. -/
theorem CtxInv.after (inv : CtxInv s x) (t : ℕ) (e : ProcEvent) (th : ProcThread) :
    CtxInv s (x.after s t e th) := by
  unfold CtxNote.after
  split
  · split
    all_goals exact ⟨inv.held, inv.owner, inv.made, inv.loaded, inv.used⟩
  · exact inv.clear _
  · split
    · exact inv.looks _ _ _
    · exact inv
  · exact inv.clear _
  · exact inv

/-- Every step of the table keeps the invariant. -/
theorem CtxInv.step {ok : ProcTable → ℕ × ProcEvent → Prop} {s' : ProcTable} {a : ℕ × ProcEvent}
    (run : procSystem.ReachableIf ok s) (inv : CtxInv s x) (next : procSystem.step s a s') :
    CtxInv s' (x.follow s a) := by
  obtain ⟨th, here, effect, pc, fate, -, rfl⟩ := step_arrow next
  have noted := inv.after a.1 a.2 th
  rw [show x.follow s a = x.after s a.1 a.2 th by simp only [CtxNote.follow, here]]
  refine ⟨noted.held, fun k ctx holds => ?_, noted.made, noted.loaded, noted.used⟩
  obtain ⟨thc, thread, slot⟩ := noted.owner k ctx holds
  obtain ⟨thc', after, kept⟩ := slot_kept (threads_nextPid run) here effect thread
  exact ⟨thc', after, kept.trans slot⟩

theorem CtxInv.goto (inv : CtxInv s x) (r : ℕ) (at_ : Option Reading)
    (live : ∀ ctx, at_ = some (.loaded ctx) → x.freed ctx = false) : CtxInv s (x.goto r at_) := by
  refine ⟨inv.held, inv.owner, inv.made, fun r' ctx reads => ?_, inv.used⟩
  by_cases mine : r' = r
  · subst mine
    simp only [CtxNote.goto, Function.update_self] at reads
    exact live ctx reads
  · simp only [CtxNote.goto, Function.update_of_ne mine] at reads
    exact inv.loaded r' ctx reads

theorem CtxInv.setup {t : ℕ} {th : ProcThread} (inv : CtxInv s x) (here : s.threads t = some th)
    (new : x.made t = false) :
    CtxInv s { x with
      handle := Function.update x.handle th.slot (some t)
      made := Function.update x.made t true } := by
  have live : x.freed t = false := by
    by_contra freed
    have made := inv.made t (by simpa using freed)
    rw [new] at made
    cases made
  refine ⟨fun k ctx holds => ?_, fun k ctx holds => ?_, fun u freed => ?_, inv.loaded, inv.used⟩
  · by_cases mine : k = th.slot
    · subst mine
      simp only [Function.update_self, Option.some.injEq] at holds
      rw [← holds]
      exact live
    · simp only [Function.update_of_ne mine] at holds
      exact inv.held k ctx holds
  · by_cases mine : k = th.slot
    · subst mine
      simp only [Function.update_self, Option.some.injEq] at holds
      exact ⟨th, by rw [← holds]; exact here, rfl⟩
    · simp only [Function.update_of_ne mine] at holds
      exact inv.owner k ctx holds
  · by_cases mine : u = t
    · subst mine
      exact Function.update_self ..
    · simp only [Function.update_of_ne mine]
      exact inv.made u freed

theorem CtxInv.free {t : ℕ} {th : ProcThread} (inv : CtxInv s x) (here : s.threads t = some th)
    (made : x.made t = true) (ok : CtxOk (s, x) (.inr (.free t))) :
    CtxInv s { x with freed := Function.update x.freed t true } := by
  obtain ⟨gone, unread⟩ := ok
  refine ⟨fun k ctx holds => ?_, inv.owner, fun u freed => ?_, fun r ctx reads => ?_, inv.used⟩
  · have other : ctx ≠ t := by
      rintro rfl
      obtain ⟨th', thread, slot⟩ := inv.owner k ctx holds
      exact gone th' thread (by rw [slot]; exact holds)
    simp only [Function.update_of_ne other]
    exact inv.held k ctx holds
  · by_cases mine : u = t
    · rw [mine]
      exact made
    · simp only [Function.update_of_ne mine] at freed
      exact inv.made u freed
  · have other : ctx ≠ t := by
      rintro rfl
      exact unread r reads
    simp only [Function.update_of_ne other]
    exact inv.loaded r ctx reads

/-- Every other step that is allowed keeps the invariant. -/
theorem CtxInv.alone {b : CtxEvent} (inv : CtxInv s x) (ok : CtxOk (s, x) (.inr b))
    (next : x.step s b = some x') : CtxInv s x' := by
  cases b with
  | setup t =>
    simp only [CtxNote.step] at next
    split at next
    · next th here =>
      split at next
      · next new =>
        cases next
        exact inv.setup here new.2
      · cases next
    · cases next
  | free t =>
    simp only [CtxNote.step] at next
    split at next
    · next th here =>
      split at next
      · next ends =>
        cases next
        exact inv.free here ends.2.2.2.1 ok
      · cases next
    · cases next
  | find r k =>
    simp only [CtxNote.step] at next
    split at next
    · cases next
      exact inv.goto r _ nofun
    · cases next
  | check r =>
    simp only [CtxNote.step] at next
    split at next
    · cases next
      split
      · exact inv
      · exact inv.goto r none nofun
    · cases next
  | test r =>
    simp only [CtxNote.step] at next
    split at next
    · cases next
      split
      · exact inv.goto r _ nofun
      · exact inv.goto r none nofun
    · cases next
  | load r =>
    simp only [CtxNote.step] at next
    split at next
    · next k reads =>
      cases next
      refine inv.goto r _ fun ctx loads => ?_
      obtain ⟨ctx', holds, same⟩ := Option.map_eq_some_iff.mp loads
      cases same
      exact inv.held k ctx holds
    · cases next
  | use r =>
    simp only [CtxNote.step] at next
    split at next
    · next ctx reads =>
      cases next
      have live : (x.uses ctx).misused = false := by
        simp only [CtxNote.uses, inv.used, inv.loaded r ctx reads, Bool.or_self]
      have used : CtxInv s (x.uses ctx) := ⟨inv.held, inv.owner, inv.made, inv.loaded, live⟩
      exact used.goto r none nofun
    · cases next

end Steps

theorem CtxInv.initial : CtxInv .initial .initial := by
  refine ⟨fun _ _ _ => rfl, fun k ctx holds => ?_, nofun, nofun, rfl⟩
  simp only [CtxNote.initial] at holds
  split at holds
  · next first =>
    cases holds
    exact ⟨_, rfl, Fin.ext first.symm⟩
  · cases holds

/-- Make a list of steps from the initial state. -/
def ctxRun (test : ProcTable × CtxNote → (ℕ × ProcEvent) ⊕ CtxEvent → Bool)
    (steps : List ((ℕ × ProcEvent) ⊕ CtxEvent)) : Option (ProcTable × CtxNote) :=
  System.runIf (System.besideStep (fun s a => s.step a.1 a.2) (fun s a x => CtxNote.follow x s a)
    fun s x b => x.step s b) test (.initial, .initial) steps

theorem reachable_ctxRun {ok : ProcTable × CtxNote → (ℕ × ProcEvent) ⊕ CtxEvent → Prop}
    {test : ProcTable × CtxNote → (ℕ × ProcEvent) ⊕ CtxEvent → Bool} {p : ProcTable × CtxNote}
    {steps : List ((ℕ × ProcEvent) ⊕ CtxEvent)} (tests : ∀ p a, test p a = true → ok p a)
    (made : ctxRun test steps = some p) : ctxSystem.ReachableIf ok p := by
  have start : ctxSystem.ReachableIf ok (.initial, .initial) := .init ⟨rfl, rfl⟩
  refine start.runIf (fun p a p' next => ?_) (fun p a _ => tests p a) made
  exact System.beside_step (fun _ _ _ next => next) (fun _ _ _ _ next => next) next

/-- The root process forks a child, and a reader uses its context. -/
def readChild : List ((ℕ × ProcEvent) ⊕ CtxEvent) :=
  rootForks.map .inl ++
    [.inr (.setup 2), .inr (.find 0 ⟨1, by decide⟩), .inr (.check 0), .inr (.test 0), .inr (.load 0),
      .inr (.use 0)]

/-- The root process forks a child, which forks another.  The first child traps and frees its context;
the second calls `exit`, up to the third slot of its cleanup. -/
def parentTraps : List ((ℕ × ProcEvent) ⊕ CtxEvent) :=
  rootForks.map .inl ++ .inr (.setup 2) :: childForks.map .inl ++
    ((2, .trap 139) :: List.replicate 6 (2, .next true)).map .inl ++
    .inr (.free 2) :: ((3, .exit 0) :: List.replicate 10 (3, .next false)).map .inl

end Yos
