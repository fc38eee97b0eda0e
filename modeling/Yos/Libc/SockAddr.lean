import Mathlib.Data.List.Basic
import Mathlib.Data.Nat.Notation
import Mathlib.Tactic.Common
import Mathlib.Tactic.NormNum

/-!
# Socket addresses (`impl/libc/posix.c`, `impl/libc/posix-linux.c`)

A Linux `sockaddr` starts with the family in two bytes, a FreeBSD one with its length and the family
in one byte each; the data after them are laid out alike.  The numbers of the families differ for
IPv6.  `getsockname`, `getpeername` and `getaddrinfo` convert the header for the guest, `bind`,
`connect`, `sendmsg` and `getnameinfo` convert it back, both without the number of the family;
`accept`, `recvfrom` and `sendto` convert nothing.  `sockaddr_round_trip_iff` says which pairs agree,
on which addresses.

A buffer is the list of its bytes.  The tests of the guest's pointers are left out.
-/

namespace Yos.SockAddr

/-! ## Addresses -/

/-- The address families. -/
inductive Family where
  | unix
  | inet
  | inet6
deriving DecidableEq, Repr

/-- The number of the family on a Linux host. -/
def Family.host : Family → UInt8
  | .unix => 1
  | .inet => 2
  | .inet6 => 10

/-- The number of the family for the guest. -/
def Family.guest : Family → UInt8
  | .unix => 1
  | .inet => 2
  | .inet6 => 28

/-- The admissible numbers of bytes after the header: port and address, or a path. -/
def Family.Admits : Family → ℕ → Prop
  | .unix, n => n ≤ 108
  | .inet, n => n = 14
  | .inet6, n => n = 26

/-- A socket address: its family and the bytes after the header. -/
structure Addr where
  family : Family
  data : List UInt8
  fits : family.Admits data.length

/-- The `sockaddr` of the host. -/
def Addr.hostBytes (a : Addr) : List UInt8 := a.family.host :: 0 :: a.data

/-- The `sockaddr` of the guest. -/
def Addr.guestBytes (a : Addr) : List UInt8 :=
  UInt8.ofNat (a.data.length + 2) :: a.family.guest :: a.data

/-! ## The conversions -/

/-- `read_host_sa_family`. -/
def readHostSaFamily : List UInt8 → ℕ
  | lo :: hi :: _ => lo.toNat + 2 ^ 8 * hi.toNat
  | _ => 0

/-- `freebsd_sockaddr_to_host`. -/
def freebsdSockaddrToHost : List UInt8 → List UInt8
  | _ :: family :: rest => family :: 0 :: rest
  | short => short

/-- `host_sockaddr_to_freebsd`. -/
def hostSockaddrToFreebsd (src : List UInt8) : List UInt8 :=
  match src with
  | _ :: _ :: rest => UInt8.ofNat src.length :: UInt8.ofNat (readHostSaFamily src % 2 ^ 8) :: rest
  | short => short

/-! ## Where the guest gets addresses from -/

/-- What the guest is handed: the bytes stored in its buffer, and the length stored beside it. -/
structure Handed where
  bytes : List UInt8
  len : ℕ
deriving DecidableEq, Repr

/-- The host writes its own `sockaddr` into the buffer of the guest. -/
def handRaw (host : List UInt8) (cap : ℕ) : Handed := ⟨host.take cap, host.length⟩

/-- The host writes into a buffer of at most 256 bytes, which is converted. -/
def handConverted (host : List UInt8) (cap : ℕ) : Handed :=
  let cap := min cap 256
  let out := min host.length cap
  let hostBuf := host.take cap
  ⟨if 2 ≤ out then
      UInt8.ofNat out :: UInt8.ofNat (readHostSaFamily hostBuf % 2 ^ 8) :: (hostBuf.drop 2).take (out - 2)
    else [],
    host.length⟩

/-- `yos_accept`. -/
def yosAccept (host : List UInt8) (cap : ℕ) : Handed := handRaw host cap

/-- `yos_recvfrom`. -/
def yosRecvfrom (host : List UInt8) (cap : ℕ) : Handed := handRaw host cap

/-- `yos_getsockname`. -/
def yosGetsockname (host : List UInt8) (cap : ℕ) : Handed := handConverted host cap

/-- `yos_getpeername`. -/
def yosGetpeername (host : List UInt8) (cap : ℕ) : Handed := handConverted host cap

/-- `ai_addr` and `ai_addrlen` of an entry that `yos_getaddrinfo` allocates. -/
def yosGetaddrinfo (host : List UInt8) : Handed := ⟨hostSockaddrToFreebsd host, host.length⟩

/-- The bridges that hand addresses to the guest. -/
inductive Producer where
  | accept
  | recvfrom
  | getsockname
  | getpeername
  | getaddrinfo
deriving DecidableEq, Repr

/-- What the guest finds when the host's answer is `host` and its buffer has `cap` bytes. -/
def Producer.hand (p : Producer) (host : List UInt8) (cap : ℕ) : Handed :=
  match p with
  | .accept => yosAccept host cap
  | .recvfrom => yosRecvfrom host cap
  | .getsockname => yosGetsockname host cap
  | .getpeername => yosGetpeername host cap
  | .getaddrinfo => yosGetaddrinfo host

/-! ## Where the guest passes addresses to -/

/-- The host is called with a converted copy, which has room for 256 bytes. -/
def passConverted (guest : List UInt8) : Option (List UInt8) :=
  if guest.length ≤ 256 then some (freebsdSockaddrToHost guest) else none

/-- `yos_bind`: the address the host's `bind` is called with, if it is called. -/
def yosBind (guest : List UInt8) : Option (List UInt8) := passConverted guest

/-- `yos_connect`. -/
def yosConnect (guest : List UInt8) : Option (List UInt8) := passConverted guest

/-- `msg_name` of the message `yos_sendmsg` hands to the host; a longer name is dropped. -/
def yosSendmsgName (guest : List UInt8) : Option (List UInt8) :=
  if guest = [] then none else passConverted guest

/-- `yos_getnameinfo`. -/
def yosGetnameinfo (guest : List UInt8) : Option (List UInt8) := passConverted guest

/-- `yos_sendto`. -/
def yosSendto (guest : List UInt8) : Option (List UInt8) := some guest

/-- The bridges that take addresses from the guest. -/
inductive Consumer where
  | bind
  | connect
  | sendto
  | sendmsg
  | getnameinfo
deriving DecidableEq, Repr

/-- The `sockaddr` the host is called with. -/
def Consumer.pass (c : Consumer) (guest : List UInt8) : Option (List UInt8) :=
  match c with
  | .bind => yosBind guest
  | .connect => yosConnect guest
  | .sendto => yosSendto guest
  | .sendmsg => yosSendmsgName guest
  | .getnameinfo => yosGetnameinfo guest

/-! ## Round trips -/

/-- The guest is handed the `sockaddr` of the address in its own shape, and the host is called with
the address it gave when the guest passes this on. -/
structure RoundTrip (p : Producer) (c : Consumer) (a : Addr) (cap : ℕ) : Prop where
  shape : p.hand a.hostBytes cap = ⟨a.guestBytes, a.guestBytes.length⟩
  same : c.pass (p.hand a.hostBytes cap).bytes = some a.hostBytes

/-- The bridge converts the header. -/
def Producer.converts : Producer → Bool
  | .accept | .recvfrom => false
  | .getsockname | .getpeername | .getaddrinfo => true

/-- The bridge converts the header back. -/
def Consumer.converts : Consumer → Bool
  | .sendto => false
  | .bind | .connect | .sendmsg | .getnameinfo => true

variable {p : Producer} {c : Consumer} {a : Addr} {cap : ℕ}

theorem Addr.data_length_le (a : Addr) : a.data.length ≤ 108 := by
  have fits := a.fits
  cases family : a.family <;> rw [family] at fits <;> simp only [Family.Admits] at fits <;> omega

theorem Addr.hostBytes_length (a : Addr) : a.hostBytes.length = a.data.length + 2 := rfl

theorem Family.guest_eq_host_iff {f : Family} : f.guest = f.host ↔ f ≠ .inet6 := by
  cases f <;> decide

theorem Addr.readHostSaFamily_hostBytes (a : Addr) :
    UInt8.ofNat (readHostSaFamily a.hostBytes % 2 ^ 8) = a.family.host := by
  obtain ⟨family, data, fits⟩ := a
  cases family <;> rfl

theorem hostSockaddrToFreebsd_hostBytes (a : Addr) :
    hostSockaddrToFreebsd a.hostBytes =
      UInt8.ofNat (a.data.length + 2) :: a.family.host :: a.data := by
  rw [← a.readHostSaFamily_hostBytes]
  rfl

/-- With room for the whole address the two conversions for the guest agree. -/
theorem handConverted_of_fits (room : a.hostBytes.length ≤ cap) :
    handConverted a.hostBytes cap = yosGetaddrinfo a.hostBytes := by
  have short := a.data_length_le
  have length := a.hostBytes_length
  have fits : a.hostBytes.length ≤ min cap 256 := by omega
  have rest : (a.hostBytes.drop 2).take (a.hostBytes.length - 2) = a.data := by
    rw [length]
    exact List.take_length
  rw [handConverted, yosGetaddrinfo, hostSockaddrToFreebsd_hostBytes]
  simp only [List.take_of_length_le fits, Nat.min_eq_left fits, rest, a.readHostSaFamily_hostBytes]
  rw [if_pos (by omega), length]

/-- A buffer that is too short is not filled with the whole address. -/
theorem handConverted_short (short : cap < a.hostBytes.length) :
    (handConverted a.hostBytes cap).bytes.length < a.guestBytes.length := by
  have length := a.hostBytes_length
  have guest : a.guestBytes.length = a.data.length + 2 := rfl
  unfold handConverted
  dsimp only
  split
  · simp only [List.length_cons, List.length_take, List.length_drop]
    omega
  · simp only [List.length_nil]
    omega

theorem Family.guest_ne_zero (f : Family) : 0 ≠ f.guest := by
  cases f <;> decide

/-- A host `sockaddr` is in the shape of the guest for no address. -/
theorem handRaw_ne (a : Addr) (cap : ℕ) : (handRaw a.hostBytes cap).bytes ≠ a.guestBytes := by
  intro same
  rcases Nat.lt_or_ge cap 2 with short | long
  · have length := congrArg List.length same
    simp only [handRaw, List.length_take, Addr.guestBytes, List.length_cons] at length
    omega
  · obtain ⟨rest, rfl⟩ := Nat.exists_eq_add_of_le' long
    -- the second byte is the high half of the host's family
    simp only [handRaw, Addr.hostBytes, Addr.guestBytes, List.take_succ_cons, List.cons.injEq] at same
    exact a.family.guest_ne_zero same.2.1

theorem pass_guestBytes_converted (a : Addr) :
    passConverted a.guestBytes = some (a.family.guest :: 0 :: a.data) := by
  have short := a.data_length_le
  have length : a.guestBytes.length = a.data.length + 2 := rfl
  rw [passConverted, if_pos (by omega)]
  rfl

theorem Consumer.pass_of_converts (converts : c.converts = true) {guest : List UInt8} (some : guest ≠ []) :
    c.pass guest = passConverted guest := by
  cases c with
  | sendto => cases converts
  | sendmsg => exact if_neg some
  | bind => rfl
  | connect => rfl
  | getnameinfo => rfl

/-- The guest is handed its own shape exactly by the bridges that convert, for the families with one
number, in a buffer with room for the address. -/
theorem Producer.hand_iff : p.hand a.hostBytes cap = ⟨a.guestBytes, a.guestBytes.length⟩ ↔
    p.converts = true ∧ a.family ≠ .inet6 ∧ (p = .getaddrinfo ∨ a.hostBytes.length ≤ cap) := by
  have full : yosGetaddrinfo a.hostBytes = ⟨a.guestBytes, a.guestBytes.length⟩ ↔
      a.family ≠ .inet6 := by
    rw [← Family.guest_eq_host_iff, yosGetaddrinfo, hostSockaddrToFreebsd_hostBytes]
    constructor
    · intro same
      simp only [Addr.guestBytes, Handed.mk.injEq, List.cons.injEq] at same
      exact same.1.2.1.symm
    · intro same
      rw [← same]
      rfl
  have converted : handConverted a.hostBytes cap = ⟨a.guestBytes, a.guestBytes.length⟩ ↔
      a.family ≠ .inet6 ∧ a.hostBytes.length ≤ cap := by
    rcases Nat.lt_or_ge cap a.hostBytes.length with short | room
    · refine iff_of_false (fun same => ?_) fun both => absurd both.2 (Nat.not_le.mpr short)
      have less := handConverted_short short
      rw [same] at less
      exact Nat.lt_irrefl _ less
    · rw [handConverted_of_fits room, full]
      exact (and_iff_left room).symm
  have raw : handRaw a.hostBytes cap ≠ ⟨a.guestBytes, a.guestBytes.length⟩ := fun same =>
    handRaw_ne a cap (congrArg Handed.bytes same)
  cases p with
  | accept => exact iff_of_false raw fun all => nomatch all.1
  | recvfrom => exact iff_of_false raw fun all => nomatch all.1
  | getsockname => simpa [Producer.hand, yosGetsockname, Producer.converts] using converted
  | getpeername => simpa [Producer.hand, yosGetpeername, Producer.converts] using converted
  | getaddrinfo => simpa [Producer.hand, Producer.converts] using full

/-- An address round-trips exactly when both bridges convert it, its family has one number, and the
buffer of the guest has room for it. -/
theorem sockaddr_round_trip_iff (p : Producer) (c : Consumer) (a : Addr) (cap : ℕ) :
    RoundTrip p c a cap ↔
      p.converts = true ∧ c.converts = true ∧ a.family ≠ .inet6 ∧
        (p = .getaddrinfo ∨ a.hostBytes.length ≤ cap) := by
  constructor
  · rintro ⟨shape, same⟩
    obtain ⟨converts, family, room⟩ := Producer.hand_iff.mp shape
    refine ⟨converts, ?_, family, room⟩
    rw [shape] at same
    cases c with
    | sendto =>
      -- the host takes the length of the guest's `sockaddr` for a part of the family
      have second := (List.cons.inj (Option.some.inj same)).2
      exact absurd (List.cons.inj second).1.symm a.family.guest_ne_zero
    | bind => rfl
    | connect => rfl
    | sendmsg => rfl
    | getnameinfo => rfl
  · rintro ⟨produces, consumes, family, room⟩
    have shape := Producer.hand_iff.mpr ⟨produces, family, room⟩
    have filled : a.guestBytes ≠ [] := List.cons_ne_nil _ _
    refine ⟨shape, ?_⟩
    rw [shape]
    change c.pass a.guestBytes = some a.hostBytes
    rw [Consumer.pass_of_converts consumes filled, pass_guestBytes_converted,
      Family.guest_eq_host_iff.mpr family]
    rfl

/-- 127.0.0.1, port 80. -/
def loopback : Addr := ⟨.inet, [0, 80, 127, 0, 0, 1, 0, 0, 0, 0, 0, 0, 0, 0], rfl⟩

/-- The address of the peer that `accept` reports names the family 0 when the guest connects to it,
one from `getsockname` names the family 528 in `sendto`, and IPv6 has the wrong number for the
guest. -/
theorem sockaddr_round_trip_fails :
    ¬ (∀ p c a cap, a.hostBytes.length ≤ cap → RoundTrip p c a cap) ∧
    (yosConnect (yosAccept loopback.hostBytes 16).bytes).map readHostSaFamily = some 0 ∧
    (yosSendto (yosGetsockname loopback.hostBytes 16).bytes).map readHostSaFamily = some 528 ∧
    ((yosGetsockname (10 :: 0 :: List.replicate 26 0) 28).bytes)[1]? = some 10 := by
  refine ⟨fun all => ?_, by decide, by decide, by decide⟩
  have trip := (all .accept .connect loopback 16 (by decide)).same
  exact absurd trip (by decide)

end Yos.SockAddr
