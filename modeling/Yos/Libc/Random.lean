import Mathlib.Data.Int.CardIntervalMod
import Mathlib.Data.Nat.Count
import Mathlib.Data.Nat.Periodic

/-!
# `arc4random_uniform` (`yos_arc4random_uniform`, `impl/libc/random.c`)

The loop draws 32-bit numbers until one is at least `min`, the residue of `2³² - upper` modulo
`upper`, and returns that number modulo `upper`.  The comment of the source states a different
identity for `min`, but what the loop needs is that `upper` divides `2³² - min`
(`upper_dvd_accepted`).
-/

namespace Yos

/-! ## The loop -/

/-- The numbers that 32 bits hold. -/
def drawBound : ℕ := 2 ^ 32

/-- The first draw that the loop accepts, narrowed to 32 bits. -/
def uniformMin (upper : ℕ) : ℕ := (drawBound - upper) % upper % drawBound

/-- The loop over the answers of `getentropy`, where `none` is a failure.  There is no value while
every draw so far was rejected. -/
def uniformLoop (upper : ℕ) : List (Option ℕ) → Option ℕ
  | [] => none
  | none :: _ => some 0
  | some r :: draws => if r < uniformMin upper then uniformLoop upper draws else some (r % upper)

/-- `yos_arc4random_uniform` over the answers of `getentropy`. -/
def yosArc4randomUniform (upper : ℕ) (draws : List (Option ℕ)) : Option ℕ :=
  if upper < 2 then some 0 else uniformLoop upper draws

/-- The draws on which the loop ends. -/
def acceptedDraws (upper : ℕ) : Finset ℕ :=
  (Finset.range drawBound).filter fun r => (yosArc4randomUniform upper [some r]).isSome

/-! ## What it returns -/

section Loop

variable {upper : ℕ}

theorem uniformLoop_lt (pos : 0 < upper) {draws : List (Option ℕ)} {value : ℕ}
    (h : uniformLoop upper draws = some value) : value < upper := by
  induction draws with
  | nil => simp [uniformLoop] at h
  | cons draw draws ih =>
    cases draw with
    | none =>
      rw [uniformLoop, Option.some.injEq] at h
      exact h ▸ pos
    | some r =>
      rw [uniformLoop] at h
      split_ifs at h
      · exact ih h
      · exact Option.some.inj h ▸ Nat.mod_lt r pos

/-- After rejected draws, the draw that ends the loop gives its residue. -/
theorem uniformLoop_append {rejected : List ℕ} (small : ∀ r ∈ rejected, r < uniformMin upper)
    (draws : List (Option ℕ)) :
    uniformLoop upper (rejected.map some ++ draws) = uniformLoop upper draws := by
  induction rejected with
  | nil => rfl
  | cons r rejected ih =>
    rw [List.map_cons, List.cons_append, uniformLoop, if_pos (small r List.mem_cons_self)]
    exact ih fun r' mem => small r' (List.mem_cons_of_mem r mem)

end Loop

/-! ## The accepted draws -/

section Accepted

variable {upper : ℕ}

theorem acceptedDraws_eq (ge : 2 ≤ upper) :
    acceptedDraws upper = Finset.Ico (uniformMin upper) drawBound := by
  ext r
  rw [acceptedDraws, Finset.mem_filter, Finset.mem_range, Finset.mem_Ico, yosArc4randomUniform,
    if_neg (by omega), uniformLoop]
  split_ifs with h
  · simp [uniformLoop]; omega
  · simp; omega

theorem uniformMin_lt (ge : 2 ≤ upper) : uniformMin upper < upper :=
  (Nat.mod_le _ _).trans_lt (Nat.mod_lt _ (by omega))

/-- The threshold is below `upper`, so that narrowing it loses nothing. -/
theorem uniformMin_eq (ge : 2 ≤ upper) (lt : upper < drawBound) :
    uniformMin upper = (drawBound - upper) % upper :=
  Nat.mod_eq_of_lt ((Nat.mod_lt _ (by omega)).trans lt)

theorem drawBound_sub_uniformMin (ge : 2 ≤ upper) (lt : upper < drawBound) :
    drawBound - uniformMin upper = upper * ((drawBound - upper) / upper + 1) := by
  have h := Nat.div_add_mod (drawBound - upper) upper
  rw [uniformMin_eq ge lt, Nat.mul_add, Nat.mul_one]
  omega

theorem upper_dvd_accepted (ge : 2 ≤ upper) (lt : upper < drawBound) :
    upper ∣ drawBound - uniformMin upper :=
  ⟨_, drawBound_sub_uniformMin ge lt⟩

/-- The rejected draws are fewer than `upper`, and no more than `2³² - upper`. -/
theorem two_mul_uniformMin_lt (ge : 2 ≤ upper) (lt : upper < drawBound) :
    2 * uniformMin upper < drawBound := by
  have below := uniformMin_lt ge
  have le : uniformMin upper ≤ drawBound - upper := uniformMin_eq ge lt ▸ Nat.mod_le _ _
  omega

/-- Among the numbers of whole periods from `a` on, each residue occurs once in a period. -/
theorem card_residue (a periods : ℕ) {residue : ℕ} (lt : residue < upper) :
    ((Finset.Ico a (a + upper * periods)).filter fun r => r % upper = residue).card = periods := by
  have periodic : Function.Periodic (fun r => r % upper = residue) (upper * periods) := by
    intro r
    simp only [Nat.add_mul_mod_self_left]
  have same : (fun r => r % upper = residue) = fun r => r ≡ residue [MOD upper] := by
    funext r
    rw [Nat.ModEq, Nat.mod_eq_of_lt lt]
  rw [Nat.filter_Ico_card_eq_of_periodic a _ _ periodic]
  simp only [same]
  rw [Nat.count_modEq_card _ (by omega), Nat.mul_div_cancel_left _ (by omega),
    Nat.mul_mod_right, if_neg (Nat.not_lt_zero _), Nat.add_zero]

end Accepted

/-- `arc4random_uniform` is unbiased: it returns values below `upper`, namely the residue of the
first draw that it accepts, it accepts as many draws of every residue, a multiple of `upper` in all,
and more than half of all draws. -/
theorem yosArc4randomUniform_unbiased (upper : ℕ) (ge : 2 ≤ upper) (lt : upper < drawBound) :
    (∀ draws value, yosArc4randomUniform upper draws = some value → value < upper) ∧
    (∀ (rejected : List ℕ), (∀ r ∈ rejected, r < drawBound ∧ r ∉ acceptedDraws upper) →
      ∀ r ∈ acceptedDraws upper, ∀ later,
        yosArc4randomUniform upper (rejected.map some ++ some r :: later) = some (r % upper)) ∧
    (∀ residue < upper, ((acceptedDraws upper).filter fun r => r % upper = residue).card =
      (acceptedDraws upper).card / upper) ∧
    upper ∣ (acceptedDraws upper).card ∧
    drawBound < 2 * (acceptedDraws upper).card := by
  have card : (acceptedDraws upper).card = drawBound - uniformMin upper := by
    rw [acceptedDraws_eq ge, Nat.card_Ico]
  refine ⟨fun draws value h => ?_, fun rejected small r mem later => ?_, fun residue below => ?_,
    card ▸ upper_dvd_accepted ge lt, ?_⟩
  · rw [yosArc4randomUniform, if_neg (by omega)] at h
    exact uniformLoop_lt (by omega) h
  · rw [acceptedDraws_eq ge] at mem small
    have below : ∀ r' ∈ rejected, r' < uniformMin upper := fun r' mem' => by
      have ⟨fits, out⟩ := small r' mem'
      rw [Finset.mem_Ico] at out
      omega
    rw [yosArc4randomUniform, if_neg (by omega), uniformLoop_append below, uniformLoop,
      if_neg (not_lt.2 (Finset.mem_Ico.1 mem).1)]
  · have whole := drawBound_sub_uniformMin ge lt
    have le : uniformMin upper ≤ drawBound := (uniformMin_lt ge).le.trans lt.le
    have interval := Nat.add_sub_cancel' le
    rw [whole] at interval
    rw [card, whole, Nat.mul_div_cancel_left _ (by omega), acceptedDraws_eq ge]
    have once := card_residue (uniformMin upper) ((drawBound - upper) / upper + 1) below
    rwa [interval] at once
  · have half := two_mul_uniformMin_lt ge lt
    omega

/-- Of the draws of a 32-bit number the loop for `upper = 3` rejects one. -/
theorem yosArc4randomUniform_unbiased_three :
    (2 ≤ 3 ∧ 3 < drawBound) ∧ 3 ∣ (acceptedDraws 3).card :=
  ⟨by decide, (yosArc4randomUniform_unbiased 3 (by decide) (by decide)).2.2.2.1⟩

end Yos
