import Yos.Errno
import Yos.Lib.Atomics
import Mathlib.Data.Int.Notation

/-!
# Timeouts (`impl/libc/kqueue-linux.c`, `impl/proc/pthread.c`)

`kevent` turns the timespec of the guest into milliseconds for `epoll_wait`, `pthread_cond_timedwait`
into nanoseconds from now for `m3Atomic_Wait32`.  Both multiply in 64-bit signed arithmetic; where the
result does not fit, C leaves it undefined, and `fit64` is `none`.

`kevent` drops what is left of a millisecond, and `pthread_cond_timedwait` subtracts the monotonic clock
from a time on the real-time clock.  `timeouts_exact_iff` says for which requests and clocks the host
waits as long as it should.
-/

namespace Yos

/-! ## Arithmetic -/

/-- The number fits into 64 signed bits. -/
def Fits64 (x : ℤ) : Prop := -2 ^ 63 ≤ x ∧ x < 2 ^ 63

instance (x : ℤ) : Decidable (Fits64 x) := inferInstanceAs (Decidable (_ ∧ _))

/-- A result of 64-bit signed arithmetic; `none` if it does not fit. -/
def fit64 (x : ℤ) : Option ℤ := if Fits64 x then some x else none

theorem fit64_eq_some_iff {x y : ℤ} : fit64 x = some y ↔ Fits64 x ∧ x = y := by
  unfold fit64
  split_ifs with fits
  · simp [fits]
  · simp [fits]

/-- `sec * scale + part`. -/
def scaled (sec scale part : ℤ) : Option ℤ := (fit64 (sec * scale)).bind fun p => fit64 (p + part)

theorem scaled_eq_some_iff {sec scale part y : ℤ} :
    scaled sec scale part = some y ↔
      Fits64 (sec * scale) ∧ Fits64 (sec * scale + part) ∧ sec * scale + part = y := by
  unfold scaled
  rw [Option.bind_eq_some_iff]
  constructor
  · rintro ⟨p, product, sum⟩
    obtain ⟨fits, rfl⟩ := fit64_eq_some_iff.1 product
    exact ⟨fits, fit64_eq_some_iff.1 sum⟩
  · rintro ⟨fits, sum⟩
    exact ⟨_, fit64_eq_some_iff.2 ⟨fits, rfl⟩, fit64_eq_some_iff.2 sum⟩

/-! ## Time -/

/-- The timespec of the guest: 64 bits of seconds and 32 bits of nanoseconds. -/
structure Timespec where
  tvSec : BitVec 64
  tvNsec : BitVec 32
deriving DecidableEq, Repr

/-- The timespec at `a`. -/
def readTimespec (memory : Bytes) (a : ℕ) : Timespec :=
  ⟨BitVec.ofNat 64 (memory.number a 8), BitVec.ofNat 32 (memory.number (a + 8) 4)⟩

/-- The nanoseconds it stands for. -/
def Timespec.ns (ts : Timespec) : ℤ := ts.tvSec.toInt * 1000000000 + ts.tvNsec.toInt

/-- The clocks of the host. -/
inductive Clock where
  | realtime
  | monotonic
deriving DecidableEq, Repr

/-- `struct timespec` of the host. -/
structure HostTime where
  tvSec : BitVec 64
  tvNsec : BitVec 64
deriving DecidableEq, Repr

/-- The nanoseconds it stands for. -/
def HostTime.ns (t : HostTime) : ℤ := t.tvSec.toInt * 1000000000 + t.tvNsec.toInt

/-! ## The code -/

/-- `INT_MAX`. -/
def intMax : ℤ := 0x7fffffff

/-- The milliseconds that `m3_yos_kevent` computes from a timespec. -/
def timeoutMs (ts : Timespec) : Option ℤ :=
  if ts.tvSec = 0 ∧ ts.tvNsec = 0 then some 0
  else (scaled ts.tvSec.toInt 1000 (ts.tvNsec.toInt.tdiv 1000000)).map fun ms =>
    let ms := if ms < 0 then 0 else ms
    if intMax < ms then intMax else ms

/-- The timeout that `m3_yos_kevent` hands to `epoll_wait`. -/
def keventTimeout (memory : Bytes) (memSize timeoutOff : ℕ) : Except Errno (Option ℤ) :=
  if timeoutOff = 0 then .ok (some (-1))
  else if memSize < timeoutOff + 12 then .error .EFAULT
  else .ok (timeoutMs (readTimespec memory timeoutOff))

/-- `mono_now_ns`. -/
def monoNowNs (now : Clock → HostTime) : Option ℤ :=
  scaled (now .monotonic).tvSec.toInt 1000000000 (now .monotonic).tvNsec.toInt

/-- The relative wait that `host_pthread_cond_timedwait` hands to `m3Atomic_Wait32`. -/
def condTimeout (memory : Bytes) (tsP : ℕ) (now : Clock → HostTime) : Option ℤ :=
  let ts := readTimespec memory tsP
  (scaled ts.tvSec.toInt 1000000000 ts.tvNsec.toInt).bind fun abstimeNs =>
    (monoNowNs now).bind fun now =>
      (fit64 (abstimeNs - now)).map fun timeout => if timeout < 0 then 0 else timeout

/-! ## What the waits should be -/

/-- `ms` is the request in milliseconds, rounded up, or the most an `int` holds; it is 0 for the request 0
only. -/
def RoundsUp (request ms : ℤ) : Prop :=
  ((request ≤ ms * 1000000 ∧ (ms - 1) * 1000000 < request) ∨ (ms = intMax ∧ ms * 1000000 < request)) ∧
    (ms = 0 → request = 0)

/-- The request is zero, a positive whole number of milliseconds or one with negative nanoseconds, or at
least the longest timeout; and the products fit. -/
def KeventMeets (ts : Timespec) : Prop :=
  (ts.ns = 0 ∨ (0 < ts.ns ∧ (ts.tvNsec.toInt ≤ 0 ∨ 1000000 ∣ ts.tvNsec.toInt)) ∨ intMax * 1000000 ≤ ts.ns) ∧
    Fits64 (ts.tvSec.toInt * 1000) ∧ Fits64 (ts.tvSec.toInt * 1000 + ts.tvNsec.toInt.tdiv 1000000)

/-- The two clocks read the same or the time has passed on both; and the products fit. -/
def CondMeets (ts : Timespec) (now : Clock → HostTime) : Prop :=
  ((now .monotonic).ns = (now .realtime).ns ∨ (ts.ns ≤ (now .monotonic).ns ∧ ts.ns ≤ (now .realtime).ns)) ∧
    Fits64 (ts.tvSec.toInt * 1000000000) ∧ Fits64 ts.ns ∧
    Fits64 ((now .monotonic).tvSec.toInt * 1000000000) ∧ Fits64 (now .monotonic).ns ∧
    Fits64 (ts.ns - (now .monotonic).ns)

/-- What C's division leaves of a number: its quotient is too small for a positive number only. -/
theorem tdiv_million (n : ℤ) :
    (n ≤ 0 ∨ 1000000 ∣ n → n ≤ n.tdiv 1000000 * 1000000) ∧
      (¬ (n ≤ 0 ∨ 1000000 ∣ n) → n.tdiv 1000000 * 1000000 < n) ∧
      n - 1000000 < n.tdiv 1000000 * 1000000 ∧ n.tdiv 1000000 * 1000000 < n + 1000000 := by
  rcases Int.le_total 0 n with pos | neg
  · rw [Int.tdiv_eq_ediv_of_nonneg pos]
    omega
  · obtain ⟨m, rfl⟩ : ∃ m, n = -m := ⟨-n, by omega⟩
    rw [Int.neg_tdiv, Int.tdiv_eq_ediv_of_nonneg (by omega)]
    omega

/-- The milliseconds are rounded up iff the request meets the condition. -/
theorem timeoutMs_meets_iff (ts : Timespec) :
    (∃ ms, timeoutMs ts = some ms ∧ RoundsUp ts.ns ms) ↔ KeventMeets ts := by
  obtain ⟨exact, short, low, high⟩ := tdiv_million ts.tvNsec.toInt
  by_cases zero : ts.tvSec = 0 ∧ ts.tvNsec = 0
  · have sec : ts.tvSec.toInt = 0 := by
      rw [zero.1]
      rfl
    have nsec : ts.tvNsec.toInt = 0 := by
      rw [zero.2]
      rfl
    have none : ts.ns = 0 := by
      rw [Timespec.ns, sec, nsec]
      rfl
    rw [KeventMeets, timeoutMs, if_pos zero, sec, nsec, none]
    refine ⟨fun _ => ⟨Or.inl rfl, by decide, by decide⟩, fun _ => ⟨0, rfl, ?_⟩⟩
    unfold RoundsUp
    omega
  · rw [timeoutMs, if_neg zero]
    unfold KeventMeets RoundsUp Timespec.ns intMax
    generalize ts.tvSec.toInt = sec at *
    generalize ts.tvNsec.toInt = nsec at *
    generalize nsec.tdiv 1000000 = whole at *
    by_cases fits : Fits64 (sec * 1000) ∧ Fits64 (sec * 1000 + whole)
    · rw [scaled_eq_some_iff.2 ⟨fits.1, fits.2, rfl⟩, Option.map_some]
      simp only [Option.some.injEq, exists_eq_left', fits, and_true]
      by_cases divides : nsec ≤ 0 ∨ 1000000 ∣ nsec
      · have enough := exact divides
        split_ifs <;> omega
      · have fewer := short divides
        split_ifs <;> omega
    · constructor
      · rintro ⟨ms, eq, -⟩
        obtain ⟨total, sum, -⟩ := Option.map_eq_some_iff.1 eq
        obtain ⟨first, second, -⟩ := scaled_eq_some_iff.1 sum
        exact absurd ⟨first, second⟩ fits
      · rintro ⟨-, both⟩
        exact absurd both fits

theorem monoNowNs_eq_some_iff {now : Clock → HostTime} {y : ℤ} :
    monoNowNs now = some y ↔ Fits64 ((now .monotonic).tvSec.toInt * 1000000000) ∧
      Fits64 (now .monotonic).ns ∧ (now .monotonic).ns = y :=
  scaled_eq_some_iff

/-- The relative wait is right iff the clocks and the time meet the condition. -/
theorem condTimeout_meets_iff (memory : Bytes) (tsP : ℕ) (now : Clock → HostTime) :
    condTimeout memory tsP now = some (max 0 ((readTimespec memory tsP).ns - (now .realtime).ns)) ↔
      CondMeets (readTimespec memory tsP) now := by
  unfold condTimeout CondMeets
  generalize readTimespec memory tsP = ts
  dsimp only
  constructor
  · intro eq
    obtain ⟨abs, first, rest⟩ := Option.bind_eq_some_iff.1 eq
    obtain ⟨mono, second, rest⟩ := Option.bind_eq_some_iff.1 rest
    obtain ⟨diff, third, last⟩ := Option.map_eq_some_iff.1 rest
    obtain ⟨fit₁, fit₂, rfl⟩ := scaled_eq_some_iff.1 first
    obtain ⟨fit₃, fit₄, rfl⟩ := monoNowNs_eq_some_iff.1 second
    obtain ⟨fit₅, rfl⟩ := fit64_eq_some_iff.1 third
    refine ⟨?_, fit₁, fit₂, fit₃, fit₄, fit₅⟩
    rw [← Timespec.ns] at last
    split_ifs at last <;> omega
  · rintro ⟨clocks, fit₁, fit₂, fit₃, fit₄, fit₅⟩
    rw [scaled_eq_some_iff.2 ⟨fit₁, fit₂, rfl⟩, Option.bind_some,
      monoNowNs_eq_some_iff.2 ⟨fit₃, fit₄, rfl⟩, Option.bind_some, ← Timespec.ns,
      fit64_eq_some_iff.2 ⟨fit₅, rfl⟩, Option.map_some, Option.some.injEq]
    split_ifs <;> omega

/-- For every timespec in the memory of the guest: `kevent` hands the request to the host rounded up, and
`pthread_cond_timedwait` waits until the time on the real-time clock, iff the conditions are met. -/
theorem timeouts_exact_iff {memory : Bytes} {memSize off : ℕ} {ts : Timespec}
    (stored : readTimespec memory off = ts) (given : off ≠ 0) (inside : off + 12 ≤ memSize)
    (now : Clock → HostTime) :
    ((∃ ms, keventTimeout memory memSize off = .ok (some ms) ∧ RoundsUp ts.ns ms) ↔ KeventMeets ts) ∧
      (condTimeout memory off now = some (max 0 (ts.ns - (now .realtime).ns)) ↔ CondMeets ts now) := by
  subst stored
  refine ⟨?_, condTimeout_meets_iff memory off now⟩
  rw [keventTimeout, if_neg given, if_neg (by omega)]
  simp only [Except.ok.injEq]
  exact timeoutMs_meets_iff _

/-- The memory with `sec` seconds and `nsec` nanoseconds at 16. -/
def timespecAt16 (sec nsec : ℕ) : Bytes := (Bytes.write32 (fun _ => 0) 16 sec).write32 24 nsec

/-- The monotonic clock 5 s after the start of the host. -/
def clocksAt (realtime : BitVec 64) : Clock → HostTime
  | .realtime => ⟨realtime, 0⟩
  | .monotonic => ⟨5, 0⟩

theorem timeouts_exact_second :
    (readTimespec (timespecAt16 1 0) 16 = ⟨1, 0⟩ ∧ 16 ≠ 0 ∧ 16 + 12 ≤ 65536) ∧
      (∃ ms, keventTimeout (timespecAt16 1 0) 65536 16 = .ok (some ms) ∧ RoundsUp (Timespec.ns ⟨1, 0⟩) ms) ∧
      condTimeout (timespecAt16 1 0) 16 (clocksAt 5) =
        some (max 0 (Timespec.ns ⟨1, 0⟩ - (clocksAt 5 .realtime).ns)) := by
  have stored : readTimespec (timespecAt16 1 0) 16 = ⟨1, 0⟩ := by decide +kernel
  obtain ⟨kevent, cond⟩ := @timeouts_exact_iff _ 65536 16 _ stored (by decide) (by decide) (clocksAt 5)
  refine ⟨⟨stored, by decide, by decide⟩, kevent.2 ⟨Or.inr (Or.inl ?_), ?_⟩, cond.2 ⟨Or.inl rfl, ?_⟩⟩
  · decide +kernel
  · decide +kernel
  · decide +kernel

/-- Half a millisecond becomes no wait; a time one second ahead becomes a wait of 51 years. -/
theorem timeouts_shortened :
    (readTimespec (timespecAt16 0 500000) 16 = ⟨0, 500000⟩ ∧
      keventTimeout (timespecAt16 0 500000) 65536 16 = .ok (some 0) ∧
      ¬ RoundsUp (Timespec.ns ⟨0, 500000⟩) 0) ∧
    readTimespec (timespecAt16 1600000001 0) 16 = ⟨1600000001, 0⟩ ∧
      condTimeout (timespecAt16 1600000001 0) 16 (clocksAt 1600000000) = some 1599999996000000000 ∧
      max 0 (Timespec.ns ⟨1600000001, 0⟩ - (clocksAt 1600000000 .realtime).ns) = 1000000000 := by
  refine ⟨⟨by decide +kernel, by decide +kernel, fun rounded => ?_⟩, ?_⟩
  · exact absurd (rounded.2 rfl) (by decide +kernel)
  · refine ⟨?_, ?_, ?_⟩
    all_goals decide +kernel

end Yos
