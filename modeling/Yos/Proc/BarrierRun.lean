import Yos.Proc.Barrier

/-!
# Barriers keep their promise

The words a barrier's mutex guards are in order whenever it is free (`BarrierData.Open`), and the
holder of the mutex knows how far it has brought them (`BarrierData.Inside`).  The generation word
and the sequence word both show the number of completed generations, so that a call leaves its loop
only when its own generation is complete, and the calls of a generation are counted by
`BarrierCells.Tally`.  `barrier_correct` puts these together.
-/

namespace Yos

open Threads Word

section Barrier

variable {n : ℕ}

/-! ## The guarded words -/

/-- The generations before the current one are complete, and those after it are empty. -/
structure BarrierData.Rounds (n : ℕ) (d : BarrierData) : Prop where
  count : d.count = n
  generation : d.generation = u32 d.epoch
  past : ∀ g, g < d.epoch → d.arrivals g = n
  future : ∀ g, d.epoch < g → d.arrivals g = 0

/-- The words while the mutex is free. -/
structure BarrierData.Open (n : ℕ) (d : BarrierData) : Prop where
  rounds : d.Rounds n
  condSeq : d.condSeq = u32 d.epoch
  arrived : d.arrived = d.arrivals d.epoch
  below : d.arrived < n

/-- The words for each place of the holder. -/
def BarrierData.Inside (n : ℕ) (d : BarrierData) (t : BarrierThread) : Prop :=
  match t.pc with
  | .loadArrived gen => d.Open n ∧ gen = u32 d.epoch
  | .loadCount gen arrived => d.Open n ∧ gen = u32 d.epoch ∧ arrived = d.arrived + 1
  | .storeArrived gen arrived count =>
    d.Open n ∧ gen = u32 d.epoch ∧ arrived = d.arrived + 1 ∧ count = n
  | .reset => d.Rounds n ∧ d.condSeq = u32 d.epoch ∧ d.arrivals d.epoch = n ∧ t.mine = d.epoch
  | .addGen =>
    d.Rounds n ∧ d.condSeq = u32 d.epoch ∧ d.arrivals d.epoch = n ∧ t.mine = d.epoch ∧ d.arrived = 0
  | .addSeq =>
    d.Rounds n ∧ u32 (d.condSeq + 1) = u32 d.epoch ∧ d.arrivals d.epoch = 0 ∧ d.arrived = 0
  | .loadSeq _ => d.Open n ∧ u32 d.epoch = u32 t.mine
  | _ => d.Open n

theorem BarrierWhy.inside_resume {d : BarrierData} {t : BarrierThread} (why : BarrierWhy)
    (open_ : d.Open n) : d.Inside n (t.goto why.resume) := by
  cases why <;> exact open_

theorem BarrierThread.inside_woken {d : BarrierData} {t : BarrierThread} (inside : d.Inside n t) :
    d.Inside n t.woken := by
  obtain ⟨pc, mine, last⟩ := t
  cases pc <;> exact inside

theorem data_resume (s : BarrierCells) (t : BarrierThread) (then_ : BarrierThen) :
    (barrierResume s t then_).1.data = s.data := by
  cases then_ with
  | back serial => cases serial <;> rfl
  | sleep gen seq => rfl

/-- An arrival changes the current generation only. -/
theorem BarrierData.Rounds.arrive {d : BarrierData} (rounds : d.Rounds n) (arrived : ℕ) :
    (d.arrive arrived).Rounds n := by
  obtain ⟨count, generation, past, future⟩ := rounds
  refine ⟨count, generation, fun g hg => ?_, fun g hg => ?_⟩
  · have other : g ≠ d.epoch := Nat.ne_of_lt hg
    simpa [BarrierData.arrive, other] using past g hg
  · have other : g ≠ d.epoch := Nat.ne_of_gt hg
    simpa [BarrierData.arrive, other] using future g hg

theorem BarrierData.arrivals_arrive (d : BarrierData) (arrived : ℕ) :
    (d.arrive arrived).arrivals d.epoch = d.arrivals d.epoch + 1 := Function.update_self ..

/-- An arrival that does not complete the generation. -/
theorem BarrierData.Open.arrive {d : BarrierData} (open_ : d.Open n) (room : d.arrived + 1 < n) :
    (d.arrive (d.arrived + 1)).Open n := by
  refine ⟨open_.rounds.arrive _, open_.condSeq, ?_, room⟩
  show d.arrived + 1 = (d.arrive (d.arrived + 1)).arrivals d.epoch
  rw [d.arrivals_arrive, open_.arrived]

/-- The generation is advanced. -/
theorem BarrierData.Rounds.advance {d : BarrierData} (rounds : d.Rounds n)
    (full : d.arrivals d.epoch = n) : d.advance.Rounds n := by
  obtain ⟨count, generation, past, future⟩ := rounds
  refine ⟨count, ?_, fun g hg => ?_, fun g hg => future g ?_⟩
  · simp only [BarrierData.advance, generation, u32_succ]
  · rcases Nat.lt_succ_iff_lt_or_eq.1 hg with before | rfl
    · exact past g before
    · exact full
  · exact Nat.lt_of_succ_lt hg

/-- The generations while the mutex is free. -/
theorem BarrierData.Open.bound {d : BarrierData} (open_ : d.Open n) :
    d.Rounds n ∧ d.arrivals d.epoch ≤ n := by
  refine ⟨open_.rounds, ?_⟩
  rw [← open_.arrived]
  exact open_.below.le

/-- The generations at each place of the holder. -/
theorem BarrierData.Inside.bound {d : BarrierData} {t : BarrierThread} (inside : d.Inside n t) :
    d.Rounds n ∧ d.arrivals d.epoch ≤ n := by
  obtain ⟨pc, mine, last⟩ := t
  cases pc with
  | loadArrived | loadCount | storeArrived | loadSeq => exact inside.1.bound
  | reset | addGen => exact ⟨inside.1, inside.2.2.1.le⟩
  | addSeq =>
    refine ⟨inside.1, ?_⟩
    rw [inside.2.2.1]
    exact Nat.zero_le n
  | _ => exact BarrierData.Open.bound inside

/-- A step of the holder brings the words from one place to the next. -/
theorem inside_step {s : BarrierCells} {t : BarrierThread} (positive : 0 < n) (small : n < 2 ^ 32)
    (gen : ∀ g, t.pc = .check g → g = u32 t.mine) (holds : t.pc.Holds) (inside : s.data.Inside n t)
    (after : (barrierStep s t).1.2.pc.Holds) :
    (barrierStep s t).1.1.data.Inside n (barrierStep s t).1.2 := by
  obtain ⟨pc, mine, last⟩ := t
  cases pc with
  | loadGen => exact ⟨inside, inside.rounds.generation⟩
  | loadArrived gen =>
    obtain ⟨open_, rfl⟩ := inside
    refine ⟨open_, rfl, u32_of_lt ?_⟩
    have := open_.below
    omega
  | loadCount gen arrived =>
    obtain ⟨open_, rfl, rfl⟩ := inside
    exact ⟨open_, rfl, rfl, open_.rounds.count⟩
  | storeArrived gen arrived count =>
    obtain ⟨open_, rfl, rfl, rfl⟩ := inside
    simp only [barrierStep]
    split_ifs with full
    · refine ⟨open_.rounds.arrive _, open_.condSeq, ?_, rfl⟩
      show (s.data.arrive _).arrivals s.data.epoch = _
      rw [s.data.arrivals_arrive, ← open_.arrived, full]
    · refine open_.arrive ?_
      have := open_.below
      omega
  | reset =>
    obtain ⟨rounds, condSeq, arrivals, mine⟩ := inside
    exact ⟨⟨rounds.count, rounds.generation, rounds.past, rounds.future⟩, condSeq, arrivals, mine, rfl⟩
  | addGen =>
    obtain ⟨rounds, condSeq, arrivals, mine, arrived⟩ := inside
    refine ⟨rounds.advance arrivals, ?_, rounds.future _ (Nat.lt_succ_self _), arrived⟩
    show u32 (s.data.condSeq + 1) = u32 (s.data.epoch + 1)
    rw [condSeq, u32_succ]
  | addSeq =>
    obtain ⟨rounds, condSeq, arrivals, arrived⟩ := inside
    refine ⟨⟨rounds.count, rounds.generation, rounds.past, rounds.future⟩, condSeq, ?_, ?_⟩
    · exact arrived.trans arrivals.symm
    · show s.data.arrived < n
      omega
  | notify => exact inside
  | check g =>
    simp only [barrierStep]
    split_ifs with same
    · refine ⟨inside, ?_⟩
      rw [← inside.rounds.generation, same]
      exact gen g rfl
    · exact inside
  | loadSeq g => exact inside.1
  | unlockXchg then_ =>
    simp only [barrierStep] at after
    split_ifs at after
    · exact absurd after id
    · exact absurd after (not_holds_resume _ _ then_)
  | _ => exact absurd holds id

theorem data_of_not_holds {s : BarrierCells} {t : BarrierThread} (out : ¬ t.pc.Holds) :
    (barrierStep s t).1.1.data = s.data := by
  obtain ⟨pc, mine, last⟩ := t
  cases pc with
  | muCas why =>
    simp only [barrierStep]
    split_ifs <;> rfl
  | unlockNotify then_ => exact data_resume s _ then_
  | idle | muXchg | muWait | muParked | wait | parked => rfl
  | _ => exact absurd trivial out

/-- A step keeps the words in order. -/
theorem barrierStep_guarded {s : BarrierCells} {t : BarrierThread} (positive : 0 < n)
    (small : n < 2 ^ 32) (gen : ∀ g, t.pc = .check g → g = u32 t.mine) :
    GuardedStep (fun t : BarrierThread => t.pc.Holds) (fun s : BarrierCells => s.data.Open n)
      (fun s t => s.data.Inside n t) s t (barrierStep s t).1.1 (barrierStep s t).1.2 where
  hold := inside_step positive small gen
  release holds inside after := by
    obtain ⟨pc, mine, last⟩ := t
    cases pc with
    | unlockXchg then_ =>
      simp only [barrierStep]
      split_ifs
      · exact inside
      · rw [data_resume]
        exact inside
    | storeArrived gen arrived count | check gen =>
      simp only [barrierStep] at after
      split_ifs at after <;> exact absurd trivial after
    | loadGen | loadArrived | loadCount | reset | addGen | addSeq | notify | loadSeq =>
      exact absurd trivial after
    | _ => exact absurd holds id
  acquire out open_ after := by
    rw [data_of_not_holds out]
    obtain ⟨pc, mine, last⟩ := t
    cases pc with
    | muCas why =>
      simp only [barrierStep] at after ⊢
      split_ifs at after ⊢
      · exact why.inside_resume open_
      all_goals exact absurd after id
    | muXchg why =>
      simp only [barrierStep] at after ⊢
      split_ifs at after ⊢
      · exact absurd after id
      · exact why.inside_resume open_
    | muWait why | wait gen seq =>
      simp only [barrierStep] at after
      split_ifs at after <;> exact absurd after id
    | unlockNotify then_ => exact absurd after (not_holds_resume _ _ then_)
    | idle | muParked | parked => exact absurd after id
    | _ => exact absurd trivial out
  free out _ open_ := by
    rw [data_of_not_holds out]
    exact open_
  frame out u inside := by
    rw [data_of_not_holds out]
    exact inside

/-! ## The threads -/

/-- What a thread that waits for the mutex remembers. -/
def BarrierWhy.Fits (mine : ℕ) : BarrierWhy → Prop
  | .enter => True
  | .again gen => gen = u32 mine

/-- What a thread that gives the mutex back remembers; it returns only from a completed
generation. -/
def BarrierThen.Fits (epoch mine : ℕ) : BarrierThen → Prop
  | .back _ => mine < epoch
  | .sleep gen seq => gen = u32 mine ∧ seq = u32 mine

/-- What a thread remembers of its generation. -/
def BarrierPc.Fits (epoch mine : ℕ) : BarrierPc → Prop
  | .muCas why | .muXchg why | .muWait why | .muParked why => why.Fits mine
  | .check gen | .loadSeq gen => gen = u32 mine
  | .addSeq | .notify => mine < epoch
  | .unlockXchg then_ | .unlockNotify then_ => then_.Fits epoch mine
  | .wait gen seq | .parked gen seq => gen = u32 mine ∧ seq = u32 mine
  | _ => True

/-- A thread after `epoch` completed generations. -/
structure BarrierThread.Fits (epoch : ℕ) (t : BarrierThread) : Prop where
  place : t.pc.Fits epoch t.mine
  last : ∀ g, t.last = some g → g < epoch
  mine : t.pc.role ≠ .outside → t.mine ≤ epoch
  next : t.pc.role ≠ .outside → ∀ g, t.last = some g → g < t.mine

theorem BarrierThread.Fits.mono {e e' : ℕ} {t : BarrierThread} (fits : t.Fits e) (le : e ≤ e') :
    t.Fits e' := by
  refine ⟨?_, fun g h => (fits.last g h).trans_le le, fun h => (fits.mine h).trans le, fits.next⟩
  have place := fits.place
  obtain ⟨pc, mine, last⟩ := t
  cases pc with
  | unlockXchg then_ | unlockNotify then_ =>
    cases then_ with
    | back serial => exact Nat.lt_of_lt_of_le place le
    | sleep gen seq => exact place
  | addSeq | notify => exact Nat.lt_of_lt_of_le place le
  | _ => exact place

theorem BarrierThread.fits_woken {e : ℕ} {t : BarrierThread} (fits : t.Fits e) : t.woken.Fits e := by
  refine ⟨?_, ?_, ?_, ?_⟩
  · have place := fits.place
    obtain ⟨pc, mine, last⟩ := t
    cases pc with
    | parked gen seq => exact place.1
    | _ => exact place
  · rw [t.last_woken]
    exact fits.last
  · rw [t.role_woken, t.mine_woken]
    exact fits.mine
  · rw [t.role_woken, t.mine_woken, t.last_woken]
    exact fits.next

theorem epoch_le_step (s : BarrierCells) (t : BarrierThread) :
    s.data.epoch ≤ (barrierStep s t).1.1.data.epoch := by
  by_cases holds : t.pc.Holds
  · obtain ⟨pc, mine, last⟩ := t
    cases pc with
    | addGen => exact Nat.le_succ _
    | unlockXchg then_ =>
      simp only [barrierStep]
      split_ifs
      · exact Nat.le_refl _
      · rw [data_resume]
    | loadGen | loadArrived | loadCount | storeArrived | reset | addSeq | notify | check | loadSeq =>
      exact Nat.le_refl _
    | _ => exact absurd holds id
  · rw [data_of_not_holds holds]

/-- A thread moves on with its part, its generation and its last generation. -/
theorem BarrierThread.Fits.goto {e : ℕ} {t : BarrierThread} (fits : t.Fits e) {pc : BarrierPc}
    (place : pc.Fits e t.mine) (role : pc.role ≠ .outside → t.pc.role ≠ .outside) :
    (t.goto pc).Fits e :=
  ⟨place, fits.last, fun h => fits.mine (role h), fun h => fits.next (role h)⟩

theorem BarrierThen.role_ne_outside (then_ : BarrierThen) : then_.role ≠ .outside := by
  cases then_ with
  | back serial => cases serial <;> decide
  | sleep gen seq => simp [role]

/-- The end of a call or the beginning of a wait. -/
theorem BarrierThread.Fits.resume {s : BarrierCells} {t : BarrierThread} {then_ : BarrierThen}
    (fits : t.Fits s.data.epoch) (place : then_.Fits s.data.epoch t.mine)
    (role : t.pc.role ≠ .outside) : (barrierResume s t then_).2.Fits s.data.epoch := by
  cases then_ with
  | back serial =>
    refine ⟨trivial, fun g h => ?_, fun h => absurd rfl h, fun h => absurd rfl h⟩
    cases h
    exact place
  | sleep gen seq => exact fits.goto place fun _ => role

/-- A step leaves its thread at a place that fits. -/
theorem fits_step {s : BarrierCells} {t : BarrierThread} (fits : t.Fits s.data.epoch)
    (inside : t.pc.Holds → s.data.Inside n t) :
    (barrierStep s t).1.2.Fits (barrierStep s t).1.1.data.epoch := by
  have place := fits.place
  obtain ⟨pc, mine, last⟩ := t
  cases pc with
  | idle => exact fits.goto trivial id
  | muCas why =>
    simp only [barrierStep]
    split_ifs
    · refine fits.goto ?_ fun h => ?_
      · cases why <;> exact place
      · rwa [why.role_resume] at h
    all_goals exact fits.goto place id
  | muXchg why =>
    simp only [barrierStep]
    split_ifs
    · exact fits.goto place id
    · refine fits.goto ?_ fun h => ?_
      · cases why <;> exact place
      · rwa [why.role_resume] at h
  | muWait why =>
    simp only [barrierStep]
    split_ifs <;> exact fits.goto place id
  | muParked why => exact fits.goto place id
  | loadGen | loadArrived | loadCount => exact fits.goto trivial id
  | storeArrived gen arrived count =>
    obtain ⟨-, rfl, -, -⟩ := inside trivial
    refine ⟨?_, fits.last, fun _ => Nat.le_refl _, fun _ => fits.last⟩
    simp only [barrierStep]
    split_ifs
    · trivial
    · rfl
  | reset => exact fits.goto trivial id
  | addGen =>
    obtain ⟨-, -, -, rfl, -⟩ := inside trivial
    exact (fits.mono (Nat.le_succ _)).goto (Nat.lt_succ_self _) fun _ h => by cases h
  | addSeq | notify => exact fits.goto place id
  | check gen =>
    simp only [barrierStep]
    split_ifs with same
    · exact fits.goto place id
    · refine fits.goto (Nat.lt_of_le_of_ne (fits.mine fun h => by cases h) ?_) id
      rintro rfl
      have open_ : s.data.Open n := inside trivial
      exact same (open_.rounds.generation.trans (show gen = u32 s.data.epoch from place).symm)
  | loadSeq gen =>
    obtain ⟨open_, same⟩ := inside trivial
    exact fits.goto ⟨place, open_.condSeq.trans same⟩ id
  | unlockXchg then_ =>
    simp only [barrierStep]
    split_ifs
    · exact fits.goto place id
    · rw [data_resume]
      exact BarrierThread.Fits.resume (s := { s with mu := 0 }) fits place then_.role_ne_outside
  | unlockNotify then_ =>
    simp only [barrierStep]
    rw [data_resume]
    exact fits.resume place then_.role_ne_outside
  | wait gen seq =>
    simp only [barrierStep]
    split_ifs
    · exact fits.goto place id
    · exact fits.goto place.1 id
  | parked gen seq => exact fits.goto place.1 id

/-! ## Counting the calls -/

/-- 1 if the thread has this part in the generation `g`. -/
def BarrierThread.tally (role : BarrierRole) (g : ℕ) (t : BarrierThread) : ℕ :=
  if t.pc.role = role ∧ t.mine = g then 1 else 0

theorem BarrierThread.tally_woken (role : BarrierRole) (g : ℕ) (t : BarrierThread) :
    t.woken.tally role g = t.tally role g := by
  rw [tally, tally, t.role_woken, t.mine_woken]

/-- 1 if the generation `g` is complete. -/
def BarrierData.closed (d : BarrierData) (g : ℕ) : ℕ := if g < d.epoch then 1 else 0

theorem BarrierData.closed_advance (d : BarrierData) (g : ℕ) :
    d.advance.closed g = d.closed g + if d.epoch = g then 1 else 0 := by
  show (if g < d.epoch + 1 then 1 else 0) = (if g < d.epoch then 1 else 0) + _
  split_ifs <;> omega

/-- The calls that have arrived in the generation `g` will return 0, have done so, or have completed
the generation; a completed generation has one serial thread. -/
def BarrierCells.Tally (s : BarrierCells) (g waiters serials : ℕ) : Prop :=
  waiters + s.zeros g + s.data.closed g = s.data.arrivals g ∧
    serials + s.serials g = s.data.closed g

/-- A thread that keeps its part and its generation does not change the count. -/
theorem tally_quiet {s s' : BarrierCells} {t t' : BarrierThread}
    {g waiters serials waiters' serials' : ℕ} (tally : s.Tally g waiters serials)
    (newWaiters : waiters' + t.tally .waiter g = waiters + t'.tally .waiter g)
    (newSerials : serials' + t.tally .serial g = serials + t'.tally .serial g)
    (role : t'.pc.role = t.pc.role) (mine : t'.mine = t.mine) (zeros : s'.zeros = s.zeros)
    (returned : s'.serials = s.serials) (epoch : s'.data.epoch = s.data.epoch)
    (arrivals : s'.data.arrivals = s.data.arrivals) : s'.Tally g waiters' serials' := by
  unfold BarrierThread.tally at newWaiters newSerials
  rw [role, mine] at newWaiters newSerials
  unfold BarrierCells.Tally BarrierData.closed at tally ⊢
  rw [zeros, returned, epoch, arrivals]
  omega

/-- The end of a call or the beginning of a wait. -/
theorem tally_resume {s : BarrierCells} {t : BarrierThread} {then_ : BarrierThen}
    {g waiters serials waiters' serials' : ℕ} (role : t.pc.role = then_.role)
    (tally : s.Tally g waiters serials)
    (newWaiters : waiters' + t.tally .waiter g = waiters + (barrierResume s t then_).2.tally .waiter g)
    (newSerials : serials' + t.tally .serial g = serials + (barrierResume s t then_).2.tally .serial g) :
    (barrierResume s t then_).1.Tally g waiters' serials' := by
  cases then_ with
  | sleep gen seq => exact tally_quiet tally newWaiters newSerials role.symm rfl rfl rfl rfl rfl
  | back serial =>
    unfold BarrierCells.Tally at tally ⊢
    unfold BarrierThread.tally at newWaiters newSerials
    rw [role] at newWaiters newSerials
    by_cases mine : t.mine = g
    · cases serial
      all_goals
        simp only [barrierResume, BarrierCells.return_, BarrierThen.role, BarrierPc.role, mine] at *
        simp at *
        omega
    · have other : g ≠ t.mine := fun h => mine h.symm
      cases serial
      all_goals
        simp only [barrierResume, BarrierCells.return_, BarrierThen.role, BarrierPc.role, mine] at *
        simp [other] at *
        omega

/-- A step counts its own thread where it goes. -/
theorem tally_step {s : BarrierCells} {t : BarrierThread} {g waiters serials waiters' serials' : ℕ}
    (inside : t.pc.Holds → s.data.Inside n t) (tally : s.Tally g waiters serials)
    (newWaiters : waiters' + t.tally .waiter g = waiters + (barrierStep s t).1.2.tally .waiter g)
    (newSerials : serials' + t.tally .serial g = serials + (barrierStep s t).1.2.tally .serial g) :
    (barrierStep s t).1.1.Tally g waiters' serials' := by
  obtain ⟨pc, mine, last⟩ := t
  cases pc with
  | muCas why =>
    refine tally_quiet tally newWaiters newSerials ?_ ?_ ?_ ?_ ?_ ?_
    all_goals
      simp only [barrierStep]
      split_ifs <;> first | rfl | exact why.role_resume
  | muXchg why | muWait why | check gen | wait gen seq =>
    refine tally_quiet tally newWaiters newSerials ?_ ?_ rfl rfl rfl rfl
    all_goals
      simp only [barrierStep]
      split_ifs <;> first | rfl | exact BarrierWhy.role_resume _
  | storeArrived gen arrived count =>
    have role : (barrierStep s ⟨.storeArrived gen arrived count, mine, last⟩).1.2.pc.role = .waiter := by
      simp only [barrierStep]
      split_ifs <;> rfl
    have epoch : (barrierStep s ⟨.storeArrived gen arrived count, mine, last⟩).1.2.mine =
      s.data.epoch := rfl
    unfold BarrierThread.tally at newWaiters newSerials
    rw [role, epoch] at newWaiters newSerials
    obtain ⟨zero, serial⟩ := tally
    by_cases current : g = s.data.epoch
    · subst current
      simp [BarrierPc.role] at newWaiters newSerials
      refine ⟨?_, by rw [newSerials]; exact serial⟩
      show waiters' + s.zeros _ + s.data.closed _ = (s.data.arrive arrived).arrivals s.data.epoch
      rw [s.data.arrivals_arrive]
      omega
    · have other : s.data.epoch ≠ g := fun h => current h.symm
      simp [BarrierPc.role, other] at newWaiters newSerials
      refine ⟨?_, by rw [newSerials]; exact serial⟩
      show waiters' + s.zeros g + s.data.closed g = Function.update s.data.arrivals _ _ g
      rw [Function.update_of_ne current, newWaiters]
      exact zero
  | addGen =>
    obtain ⟨-, -, -, rfl, -⟩ := inside trivial
    obtain ⟨zero, serial⟩ := tally
    have closed := s.data.closed_advance g
    simp only [BarrierThread.tally, barrierStep, BarrierThread.goto, BarrierPc.role, true_and,
      reduceCtorEq, false_and, if_false] at newWaiters newSerials
    refine ⟨?_, ?_⟩
    · show waiters' + s.zeros g + s.data.advance.closed g = s.data.arrivals g
      omega
    · show serials' + s.serials g = s.data.advance.closed g
      omega
  | unlockXchg then_ =>
    simp only [barrierStep] at newWaiters newSerials ⊢
    split_ifs at newWaiters newSerials ⊢
    · exact tally_quiet tally newWaiters newSerials rfl rfl rfl rfl rfl rfl
    · exact tally_resume (s := { s with mu := 0 }) rfl tally newWaiters newSerials
  | unlockNotify then_ => exact tally_resume rfl tally newWaiters newSerials
  | idle | muParked | loadGen | loadArrived | loadCount | reset | addSeq | notify | loadSeq | parked =>
    exact tally_quiet tally newWaiters newSerials rfl rfl rfl rfl rfl rfl

/-- Nobody has returned 0 from a generation that is not complete. -/
def BarrierCells.Early (s : BarrierCells) : Prop := ∀ g, s.data.epoch ≤ g → s.zeros g = 0

theorem BarrierCells.Early.resume {s : BarrierCells} {t : BarrierThread} {then_ : BarrierThen}
    (early : s.Early) (place : then_.Fits s.data.epoch t.mine) : (barrierResume s t then_).1.Early := by
  cases then_ with
  | sleep gen seq => exact early
  | back serial =>
    cases serial with
    | true => exact early
    | false =>
      intro g hg
      have other : g ≠ t.mine := fun h => Nat.not_lt_of_le hg (h ▸ place)
      exact (Function.update_of_ne other _ _).trans (early g hg)

theorem BarrierCells.Early.step {s : BarrierCells} {t : BarrierThread} (early : s.Early)
    (fits : t.Fits s.data.epoch) : (barrierStep s t).1.1.Early := by
  have place := fits.place
  obtain ⟨pc, mine, last⟩ := t
  cases pc with
  | unlockXchg then_ =>
    simp only [barrierStep]
    split_ifs
    · exact early
    · exact BarrierCells.Early.resume (s := { s with mu := 0 }) early place
  | unlockNotify then_ => exact early.resume place
  | muCas why =>
    simp only [barrierStep]
    split_ifs <;> exact early
  | addGen => exact fun g hg => early g (Nat.le_of_succ_le hg)
  | _ => exact early

/-! ## Threads parked on the sequence word -/

/-- A thread parked on the sequence word has the current value, or will be notified. -/
def SeqCovered {ι : Type} (s : State ι BarrierCells BarrierThread) : Prop :=
  ∀ i gen seq, (s.own i).pc = .parked gen seq →
    s.shared.data.condSeq = seq ∨ ∃ j, (s.own j).pc = .notify

theorem BarrierThread.not_seqParked_woken (t : BarrierThread) : ¬ t.woken.pc.SeqParked := by
  obtain ⟨pc, mine, last⟩ := t
  cases pc <;> exact id

theorem BarrierWhy.not_seqParked_resume (why : BarrierWhy) : ¬ why.resume.SeqParked := by
  cases why <;> exact id

/-- A thread parks on the value it has compared. -/
theorem parked_step {s : BarrierCells} {t : BarrierThread} {gen seq : ℕ}
    (parked : (barrierStep s t).1.2.pc = .parked gen seq) :
    (barrierStep s t).1.1.data.condSeq = seq := by
  have seqParked : (barrierStep s t).1.2.pc.SeqParked := by
    rw [parked]
    trivial
  obtain ⟨pc, mine, last⟩ := t
  cases pc with
  | wait gen' seq' =>
    simp only [barrierStep, BarrierThread.goto] at parked ⊢
    split_ifs at parked with same
    cases parked
    exact same
  | muCas why | muXchg why =>
    simp only [barrierStep] at seqParked
    split_ifs at seqParked
    all_goals first | exact absurd seqParked why.not_seqParked_resume | exact absurd seqParked id
  | muWait why | check gen' | storeArrived gen' arrived count =>
    simp only [barrierStep] at seqParked
    split_ifs at seqParked <;> exact absurd seqParked id
  | unlockXchg then_ =>
    simp only [barrierStep] at seqParked
    split_ifs at seqParked
    · exact absurd seqParked id
    · cases then_ <;> exact absurd seqParked id
  | unlockNotify then_ => cases then_ <;> exact absurd seqParked id
  | _ => exact absurd seqParked id

/-- Only the serial thread changes the sequence word, and it goes on to notify. -/
theorem condSeq_step (s : BarrierCells) (t : BarrierThread) :
    (barrierStep s t).1.1.data.condSeq = s.data.condSeq ∨ (barrierStep s t).1.2.pc = .notify := by
  by_cases holds : t.pc.Holds
  · obtain ⟨pc, mine, last⟩ := t
    cases pc with
    | addSeq => exact .inr rfl
    | unlockXchg then_ =>
      left
      simp only [barrierStep]
      split_ifs
      · rfl
      · rw [data_resume]
    | loadGen | loadArrived | loadCount | storeArrived | reset | addGen | notify | check | loadSeq =>
      exact .inl rfl
    | _ => exact absurd holds id
  · rw [data_of_not_holds holds]
    exact .inl rfl

theorem SeqCovered.step {ι : Type} [DecidableEq ι] {s : State ι BarrierCells BarrierThread} {i : ι}
    (inv : SeqCovered s) :
    SeqCovered (s.after barrierProgram i (barrierStep s.shared (s.own i)).1.1
      (barrierStep s.shared (s.own i)).1.2 (barrierStep s.shared (s.own i)).2) := by
  intro j gen seq parked
  by_cases mine : j = i
  · subst mine
    rw [after_own_self] at parked
    exact .inl (parked_step parked)
  · cases notifies : (barrierStep s.shared (s.own i)).2 with
    | true =>
      rw [notifies, after_own_woken mine] at parked
      refine absurd ?_ (s.own j).not_seqParked_woken
      show (barrierProgram.wake (s.own j)).pc.SeqParked
      rw [parked]
      trivial
    | false =>
      rw [notifies, after_own_quiet mine] at parked
      rcases condSeq_step s.shared (s.own i) with same | notify
      · rcases inv j gen seq parked with current | ⟨k, notify⟩
        · exact .inl (same.trans current)
        · refine .inr ⟨k, ?_⟩
          rw [after_own_quiet]
          · exact notify
          · rintro rfl
            simp [barrierStep, notify] at notifies
      · exact .inr ⟨i, by rw [after_own_self]; exact notify⟩

/-! ## Correctness -/

section Correct

variable {ι : Type} [Fintype ι] {s : State ι BarrierCells BarrierThread}

/-- The invariant of a barrier with the count `n`. -/
structure BarrierInv (n : ℕ) (s : State ι BarrierCells BarrierThread) : Prop where
  exclusive : Exclusive (fun t : BarrierThread => t.pc.Holds) (fun s : BarrierCells => s.mu = 0) s
  covered : Covered (fun t : BarrierThread => t.pc.MuParked) (fun t => t.pc.Pending)
    (fun s : BarrierCells => s.mu = 2) s
  guarded : Guarded (fun t : BarrierThread => t.pc.Holds) (fun s : BarrierCells => s.data.Open n)
    (fun s t => s.data.Inside n t) s
  fits : ∀ i, (s.own i).Fits s.shared.data.epoch
  tally : ∀ g, s.shared.Tally g (total (BarrierThread.tally .waiter g) s)
    (total (BarrierThread.tally .serial g) s)
  early : s.shared.Early
  seqCovered : SeqCovered s

/-- The generations as they are at any time. -/
theorem BarrierInv.rounds (inv : BarrierInv n s) :
    s.shared.data.Rounds n ∧ s.shared.data.arrivals s.shared.data.epoch ≤ n := by
  by_cases held : ∃ i, (s.own i).pc.Holds
  · obtain ⟨i, holds⟩ := held
    exact (inv.guarded.2 i holds).bound
  · exact (inv.guarded.1 fun i holds => held ⟨i, holds⟩).bound

/-- When nobody moves, nobody waits for the mutex, and the threads parked on the sequence word have
seen its current value. -/
theorem BarrierInv.quiet (inv : BarrierInv n s)
    (quiet : ∀ i, (s.own i).pc = .idle ∨ (s.own i).pc.MuParked ∨ (s.own i).pc.SeqParked) {i : ι}
    (calls : (s.own i).pc ≠ .idle) : u32 (s.own i).mine = u32 s.shared.data.epoch := by
  have out : ∀ j, ¬ (s.own j).pc.Holds ∧ ¬ (s.own j).pc.Pending ∧ (s.own j).pc ≠ .notify := by
    intro j
    have place := quiet j
    generalize (s.own j).pc = pc at place
    cases pc <;> simp_all [BarrierPc.Holds, BarrierPc.Pending, BarrierPc.MuParked, BarrierPc.SeqParked]
  have free : s.shared.mu = 0 := inv.exclusive.2.2 fun j => (out j).1
  have noMutex : ¬ (s.own i).pc.MuParked := by
    intro parked
    rcases inv.covered ⟨i, parked⟩ with armed | ⟨j, pending⟩
    · rw [free] at armed
      cases armed
    · exact (out j).2.1 pending
  have onSeq := ((quiet i).resolve_left calls).resolve_left noMutex
  have place := (inv.fits i).place
  cases here : (s.own i).pc with
  | parked gen seq =>
    rw [here] at place
    rcases inv.seqCovered i gen seq here with current | ⟨j, notify⟩
    · rw [← place.2, ← current]
      exact (inv.guarded.1 fun j => (out j).1).condSeq
    · exact absurd notify (out j).2.2
  | _ =>
    rw [here] at onSeq
    exact absurd onSeq id

variable [DecidableEq ι]

theorem barrierInv_init (positive : 0 < n) (start : (barrierSystem ι n).init s) : BarrierInv n s := by
  obtain ⟨fresh, idle⟩ := start
  have out : ∀ i, ¬ (s.own i).pc.Holds := fun i => by
    rw [idle i]
    exact id
  have none_ : ∀ role g, role ≠ .outside → total (BarrierThread.tally role g) s = 0 := by
    intro role g inside
    refine total_eq_zero_iff.2 fun i => ?_
    rw [idle i]
    exact if_neg fun here => inside here.1.symm
  refine ⟨⟨fun i _ hi => absurd hi (out i), ?_⟩, ?_, ⟨fun _ => ?_, fun i hi => absurd hi (out i)⟩,
    fun i => ?_, fun g => ?_, ?_, fun i gen seq parked => ?_⟩
  · rw [fresh]
    exact ⟨fun _ => out, fun _ => rfl⟩
  · rintro ⟨i, parked⟩
    rw [idle i] at parked
    exact absurd parked id
  · rw [fresh]
    exact ⟨⟨rfl, rfl, fun g h => absurd h (Nat.not_lt_zero g), fun _ _ => rfl⟩, rfl, rfl, positive⟩
  · rw [idle i]
    refine ⟨trivial, fun g h => ?_, fun h => absurd rfl h, fun h => absurd rfl h⟩
    cases h
  · rw [none_ .waiter g (by decide), none_ .serial g (by decide), fresh]
    exact ⟨rfl, rfl⟩
  · rw [fresh]
    exact fun _ _ => rfl
  · rw [idle i] at parked
    cases parked

theorem BarrierInv.step (positive : 0 < n) (small : n < 2 ^ 32) (inv : BarrierInv n s) (i : ι) :
    BarrierInv n (s.after barrierProgram i (barrierStep s.shared (s.own i)).1.1
      (barrierStep s.shared (s.own i)).1.2 (barrierStep s.shared (s.own i)).2) := by
  have exclusive := barrierStep_exclusive s.shared (s.own i)
  have gen : ∀ g, (s.own i).pc = .check g → g = u32 (s.own i).mine := by
    intro g here
    have place := (inv.fits i).place
    rwa [here] at place
  have inside := inv.guarded.2 i
  refine ⟨inv.exclusive.step BarrierThread.holds_woken exclusive,
    inv.covered.step BarrierThread.not_muParked_woken (barrierStep_covered s.shared (s.own i)),
    ?_, ?_, fun g => ?_, inv.early.step (inv.fits i), inv.seqCovered.step⟩
  · refine inv.guarded.step BarrierThread.holds_woken (fun sh t => BarrierThread.inside_woken)
      inv.exclusive (fun out holds => ?_) (barrierStep_guarded positive small gen)
    rcases exclusive with ⟨-, free, -, -⟩ | ⟨before, -, -⟩ | ⟨same, -⟩
    · exact free
    · exact absurd before out
    · exact absurd (same.1 holds) out
  · exact Each.step (fun t => BarrierThread.fits_woken)
      (fun j _ => (inv.fits j).mono (epoch_le_step s.shared (s.own i)))
      (fits_step (inv.fits i) inside)
  · exact tally_step inside (inv.tally g) (total_after (BarrierThread.tally_woken .waiter g))
      (total_after (BarrierThread.tally_woken .serial g))

theorem barrierInv_of_reachable (positive : 0 < n) (small : n < 2 ^ 32)
    (run : (barrierSystem ι n).Reachable s) : BarrierInv n s := by
  refine run.invariant (fun s => barrierInv_init positive) fun s i s' inv step => ?_
  obtain ⟨sh, t, notify, step, rfl⟩ := step
  have kept := inv.step positive small i
  rw [show barrierStep s.shared (s.own i) = ((sh, t), notify) from step] at kept
  exact kept

/-- What a barrier promises. -/
structure BarrierCorrect (n : ℕ) (s : State ι BarrierCells BarrierThread) : Prop where
  /-- No generation has more than `n` calls. -/
  bound : ∀ g, s.shared.data.arrivals g ≤ n
  /-- A call returns only after `n` calls of its own generation have arrived. -/
  complete : ∀ g, 0 < s.shared.serials g + s.shared.zeros g → s.shared.data.arrivals g = n
  /-- No generation has two serial threads. -/
  serial : ∀ g, s.shared.serials g + total (BarrierThread.tally .serial g) s ≤ 1
  /-- When the calls of a generation have returned, one has returned -1 and the others 0. -/
  returned : ∀ g, s.shared.serials g + s.shared.zeros g = n →
    s.shared.serials g = 1 ∧ s.shared.zeros g = n - 1
  /-- A call that has arrived and not returned is still to return. -/
  pending : ∀ g, s.shared.data.arrivals g = s.shared.serials g + s.shared.zeros g +
    total (BarrierThread.tally .serial g) s + total (BarrierThread.tally .waiter g) s
  /-- A thread that calls again is counted in a later generation. -/
  next : ∀ i g, (s.own i).last = some g →
    g < s.shared.data.epoch ∧ ((s.own i).pc.role ≠ .outside → g < (s.own i).mine)
  /-- When nobody moves, no call of a completed generation is left, unless it has slept through a
  multiple of `2 ^ 32` generations. -/
  quiet : (∀ i, (s.own i).pc = .idle ∨ (s.own i).pc.MuParked ∨ (s.own i).pc.SeqParked) →
    ∀ i, (s.own i).pc ≠ .idle → 2 ^ 32 ∣ s.shared.data.epoch - (s.own i).mine

/-- A barrier with any count that `pthread_barrier_init` accepts keeps its promise in every run of any
number of threads. -/
theorem barrier_correct (positive : 0 < n) (small : n < 2 ^ 32)
    (run : (barrierSystem ι n).Reachable s) : BarrierCorrect n s := by
  have inv := barrierInv_of_reachable positive small run
  obtain ⟨rounds, current⟩ := inv.rounds
  have bound : ∀ g, s.shared.data.arrivals g ≤ n := by
    intro g
    rcases Nat.lt_trichotomy g s.shared.data.epoch with before | rfl | after
    · exact (rounds.past g before).le
    · exact current
    · rw [rounds.future g after]
      exact Nat.zero_le n
  have closed : ∀ g, s.shared.data.closed g ≤ 1 := fun g => by
    unfold BarrierData.closed
    split_ifs <;> decide
  have complete : ∀ g, 0 < s.shared.serials g + s.shared.zeros g → g < s.shared.data.epoch := by
    intro g some_
    by_contra later
    obtain ⟨-, serial⟩ := inv.tally g
    have open_ : s.shared.data.closed g = 0 := if_neg later
    have := inv.early g (Nat.le_of_not_lt later)
    omega
  refine ⟨bound, fun g some_ => rounds.past g (complete g some_), fun g => ?_, fun g all => ?_,
    fun g => ?_, fun i g last => ?_, fun quiet i calls => ?_⟩
  · obtain ⟨-, serial⟩ := inv.tally g
    have := closed g
    omega
  · obtain ⟨waiter, serial⟩ := inv.tally g
    have one : s.shared.data.closed g = 1 := if_pos (complete g (by omega))
    have := bound g
    omega
  · obtain ⟨waiter, serial⟩ := inv.tally g
    omega
  · exact ⟨(inv.fits i).last g last, fun inside => (inv.fits i).next inside g last⟩
  · have same : (s.own i).mine % 2 ^ 32 = s.shared.data.epoch % 2 ^ 32 := inv.quiet quiet calls
    exact Nat.dvd_of_mod_eq_zero (Nat.sub_mod_eq_zero_of_mod_eq same.symm)

/-- With the count 1, a call of thread 0 alone completes a generation and is its serial thread. -/
theorem barrier_correct_alone :
    ∃ s : State (Fin 2) BarrierCells BarrierThread, (barrierSystem (Fin 2) 1).Reachable s ∧
      s.shared.serials 0 + s.shared.zeros 0 = 1 ∧ s.shared.serials 0 = 1 ∧ s.shared.zeros 0 = 0 := by
  have start : (barrierSystem (Fin 2) 1).Reachable ⟨.fresh 1, fun _ => ⟨.idle, 0, none⟩⟩ :=
    .start ⟨rfl, fun _ => rfl⟩
  have called := start.next (a := 0) ⟨_, _, _, rfl, rfl⟩
  have locked := called.next (a := 0) ⟨_, _, _, rfl, rfl⟩
  have loadedGen := locked.next (a := 0) ⟨_, _, _, rfl, rfl⟩
  have loadedArrived := loadedGen.next (a := 0) ⟨_, _, _, rfl, rfl⟩
  have loadedCount := loadedArrived.next (a := 0) ⟨_, _, _, rfl, rfl⟩
  have arrived := loadedCount.next (a := 0) ⟨_, _, _, rfl, rfl⟩
  have wasReset := arrived.next (a := 0) ⟨_, _, _, rfl, rfl⟩
  have advanced := wasReset.next (a := 0) ⟨_, _, _, rfl, rfl⟩
  have bumped := advanced.next (a := 0) ⟨_, _, _, rfl, rfl⟩
  have notified := bumped.next (a := 0) ⟨_, _, _, rfl, rfl⟩
  have returned := notified.next (a := 0) ⟨_, _, _, rfl, rfl⟩
  refine ⟨_, returned, rfl, ?_⟩
  exact (barrier_correct Nat.one_pos (by decide) returned).returned 0 rfl

end Correct

end Barrier

end Yos
