import Yos.Io.DirStream
import Yos.Io.Path
import Yos.Libc.Strto

/-!
# Names below `/proc` (`vfs/procfs.c`)

`parse_procfs_path` reads the number of a process with `strtol` and cuts it to 32 bits, and the calls look for
the process only if what is left is positive.  So `+1`, ` 01` and `4294967297` are process 1 too, and `0` and `-7`
are directories of no process; a call finds what the name stands for where the path is not such a spelling
(`procfs_names_iff`).  `readlink` of a link of a process is right for buffers longer than the target
(`procfs_readlink_iff`).
-/

namespace Yos

namespace Procfs

open Numeral
open DirStream (pidName maxVfsFiles)

/-! ## The code -/

/-- `enum yos_procfs_type`. -/
inductive FileType where
  | root
  | self
  | pidDir
  | stat
  | cmdline
  | status
  | comm
  | exe
  | cwd
  | mounts
  | meminfo
  | version
  | uptime
deriving DecidableEq, Repr

/-- `PATH_MAX`, on the host. -/
def pathMax : ℕ := 4096

/-- An entry of the process table. -/
structure Proc where
  free : Bool
  pid : ℤ
  exe : List UInt8
  cwd : List UInt8
  int : -2 ^ 31 ≤ pid ∧ pid < 2 ^ 31
  fits : exe.length < pathMax ∧ cwd.length < pathMax
deriving DecidableEq

/-- `yos_proc_find`. -/
def procFind (rt : List Proc) (pid : ℤ) : Option Proc := rt.find? fun p => p.pid == pid && !p.free

/-- The names that `parse_procfs_path` compares the path with. -/
def rootNames : List (List UInt8 × FileType) :=
  [([115, 101, 108, 102], .self), ([109, 111, 117, 110, 116, 115], .mounts),
    ([109, 101, 109, 105, 110, 102, 111], .meminfo), ([118, 101, 114, 115, 105, 111, 110], .version),
    ([117, 112, 116, 105, 109, 101], .uptime)]

/-- The names that `parse_procfs_path` knows behind a number and a slash. -/
def entryNames : List (List UInt8 × FileType) :=
  [([115, 116, 97, 116], .stat), ([99, 109, 100, 108, 105, 110, 101], .cmdline),
    ([115, 116, 97, 116, 117, 115], .status), ([99, 111, 109, 109], .comm), ([101, 120, 101], .exe),
    ([99, 119, 100], .cwd)]

/-- The end of `parse_procfs_path`, behind the number. -/
def parseTail : List UInt8 → Except Errno FileType
  | [] => .ok .pidDir
  | c :: file =>
    if c ≠ slash then .error .ENOENT
    else if file = [] then .ok .pidDir
    else
      match entryNames.lookup file with
      | some type => .ok type
      | none => .error .ENOENT

/-- `parse_procfs_path`: the type and the number. -/
def parseProcfsPath (path : List UInt8) : Except Errno (FileType × ℤ) :=
  if path = [] then .ok (.root, 0)
  else
    match rootNames.lookup path with
    | some type => .ok (type, 0)
    | none =>
      let n := parse 10 path
      if n.length = 0 then .error .ENOENT
      else (parseTail (path.drop n.length)).map fun type => (type, toInt32 (cStrtol 64 n).value)

/-- The check of `procfs_open` and `procfs_stat` behind the parser. -/
def lookupPath (rt : List Proc) (path : List UInt8) : Except Errno (FileType × ℤ) :=
  match parseProcfsPath path with
  | .error e => .error e
  | .ok (type, pid) => if 0 < pid ∧ procFind rt pid = none then .error .ENOENT else .ok (type, pid)

/-- `struct yos_file`: the type, the number, and the process that the content is made of. -/
structure File where
  type : FileType
  pid : ℤ
  content : Option Proc

/-- The files whose content `procfs_open` makes of a process. -/
def FileType.ofProc (type : FileType) : Bool := [stat, cmdline, status, comm].contains type

/-- `yos_file_alloc`, for the table of the files that are open. -/
def fileAlloc (files : ℕ → Option File) : Option ℕ := (List.range maxVfsFiles).find? fun i => (files i).isNone

/-- `procfs_open`: the slot and the file. -/
def procfsOpen (rt : List Proc) (files : ℕ → Option File) (path : List UInt8) : Except Errno (ℕ × File) :=
  match lookupPath rt path with
  | .error e => .error e
  | .ok (type, pid) =>
    match fileAlloc files with
    | none => .error .EMFILE
    | some i => .ok (i, ⟨type, pid, if type.ofProc then procFind rt pid else none⟩)

/-- `st_mode`, for a type. -/
def FileType.mode (type : FileType) : ℕ :=
  if type = root ∨ type = pidDir then 0o040555
  else if type = self ∨ type = exe ∨ type = cwd then 0o120777
  else 0o100444

/-- `procfs_stat`: `st_mode`. -/
def procfsStat (rt : List Proc) (path : List UInt8) : Except Errno ℕ :=
  (lookupPath rt path).map fun r => r.1.mode

/-- `snprintf("%d")`. -/
def decimal (n : ℤ) : List UInt8 := if n < 0 then 45 :: pidName (-n).toNat else pidName n.toNat

/-- Bytes that are copied to the buffer: the first `n` of an array, as far as it goes, and what was returned. -/
structure Copied where
  n : ℕ
  array : List UInt8
  ret : ℤ
deriving DecidableEq, Repr

/-- `snprintf` to a buffer. -/
def snprintfTo (text : List UInt8) (bufsiz : ℕ) : Copied :=
  if bufsiz = 0 then ⟨0, [], text.length⟩
  else ⟨min text.length (bufsiz - 1) + 1, text.take (bufsiz - 1) ++ [0], text.length⟩

/-- The `memcpy` of a path; the subtraction wraps. -/
def copyPath (target : List UInt8) (bufsiz : ℕ) : Copied :=
  let l := if bufsiz ≤ target.length then (bufsiz + 2 ^ 64 - 1) % 2 ^ 64 else target.length
  ⟨l, target, toInt32 l⟩

/-- `procfs_readlink`, for the process with the number `self`. -/
def procfsReadlink (rt : List Proc) (self : ℤ) (path : List UInt8) (bufsiz : ℕ) : Except Errno Copied :=
  match parseProcfsPath path with
  | .ok (.self, _) => .ok (snprintfTo (decimal self) bufsiz)
  | .ok (.exe, pid) =>
    match procFind rt pid with
    | none => .error .ENOENT
    | some p => if p.exe = [] then .error .ENOENT else .ok (copyPath p.exe bufsiz)
  | .ok (.cwd, pid) =>
    match procFind rt pid with
    | none => .error .ENOENT
    | some p => if p.cwd = [] then .error .ENOENT else .ok (copyPath p.cwd bufsiz)
  | _ => .error .EINVAL

/-! ## What it should do -/

/-- What the paths stand for: the root, its entries, and the processes with theirs. -/
inductive Names (rt : List Proc) : List UInt8 → FileType → Option Proc → Prop
  | root : Names rt [] .root none
  | rootEntry {name type} (entry : (name, type) ∈ rootNames) : Names rt name type none
  | dir {p} (alive : procFind rt p.pid = some p) (pos : 0 < p.pid) :
      Names rt (pidName p.pid.toNat) .pidDir (some p)
  | dirSlash {p} (alive : procFind rt p.pid = some p) (pos : 0 < p.pid) :
      Names rt (pidName p.pid.toNat ++ [slash]) .pidDir (some p)
  | entry {p name type} (alive : procFind rt p.pid = some p) (pos : 0 < p.pid) (entry : (name, type) ∈ entryNames) :
      Names rt (pidName p.pid.toNat ++ slash :: name) type (some p)

/-- The path stands for something. -/
def Named (rt : List Proc) (path : List UInt8) : Prop := ∃ type p, Names rt path type p

/-- `stat` finds what the path stands for, and nothing if that is nothing. -/
structure StatMet (rt : List Proc) (path : List UInt8) : Prop where
  accepts : (∃ mode, procfsStat rt path = .ok mode) ↔ Named rt path
  denotes : ∀ mode type p, procfsStat rt path = .ok mode → Names rt path type p → mode = type.mode

/-- `open` finds what the path stands for, and nothing if that is nothing or no file is left. -/
structure OpenMet (rt : List Proc) (files : ℕ → Option File) (path : List UInt8) : Prop where
  accepts : (∃ r, procfsOpen rt files path = .ok r) ↔ Named rt path ∧ fileAlloc files ≠ none
  denotes : ∀ i file type p, procfsOpen rt files path = .ok (i, file) → Names rt path type p →
    file = ⟨type, (p.map Proc.pid).getD 0, if type.ofProc then p else none⟩

/-- What may stand behind the number of a process, with its type. -/
inductive TailOf : List UInt8 → FileType → Prop
  | nil : TailOf [] .pidDir
  | slash : TailOf [slash] .pidDir
  | entry {name type} (entry : (name, type) ∈ entryNames) : TailOf (Yos.slash :: name) type

/-- The number of a sign and digits, as a `long` that is cut to 32 bits. -/
def narrowed (sign digits : List UInt8) : ℤ :=
  toInt32 (cStrtol 64 ⟨sign == [45], value 10 digits, 0⟩).value

/-- White space, a sign and digits in front of a rest without digits. -/
structure Reads (path blanks sign digits rest : List UInt8) : Prop where
  eq : path = blanks ++ (sign ++ (digits ++ rest))
  blank : ∀ c ∈ blanks, isSpace c = true
  sign : sign = [] ∨ sign = [43] ∨ sign = [45]
  ne : digits ≠ []
  digit : ∀ c ∈ digits, isDigit 10 c = true
  ends : ∀ c ∈ rest.head?, isDigit 10 c = false

/-- The path is that of a process or of one of its entries, but for the number: it is cut to one that is not
positive, or to that of a process that is spelt in another way. -/
def Misspelt (rt : List Proc) (path : List UInt8) : Prop :=
  ∃ blanks sign digits tail type, Reads path blanks sign digits tail ∧ TailOf tail type ∧
    (narrowed sign digits ≤ 0 ∨ procFind rt (narrowed sign digits) ≠ none ∧
      blanks ++ (sign ++ digits) ≠ pidName (narrowed sign digits).toNat)

/-- The path is that of a link with a target. -/
inductive LinkTo (rt : List Proc) (self : ℤ) (path : List UInt8) : FileType → List UInt8 → Prop
  | self {pid} (link : parseProcfsPath path = .ok (.self, pid)) : LinkTo rt self path .self (decimal self)
  | exe {pid p} (link : parseProcfsPath path = .ok (.exe, pid)) (alive : procFind rt pid = some p) (ne : p.exe ≠ []) :
      LinkTo rt self path .exe p.exe
  | cwd {pid p} (link : parseProcfsPath path = .ok (.cwd, pid)) (alive : procFind rt pid = some p) (ne : p.cwd ≠ []) :
      LinkTo rt self path .cwd p.cwd

/-- At most `bufsiz` bytes are stored, all of the target, and their number is returned. -/
structure ReadlinkMet (target : List UInt8) (bufsiz : ℕ) (c : Copied) : Prop where
  bound : c.n ≤ bufsiz
  front : c.n ≤ c.array.length ∧ c.array.take c.n <+: target
  ret : c.ret = min target.length bufsiz

/-! ## Numbers in front of a path -/

section Spelling

variable {path blanks sign digits rest : List UInt8}

theorem parse_of_reads (r : Reads path blanks sign digits rest) :
    parse 10 path = ⟨sign == [45], value 10 digits, blanks.length + sign.length + digits.length⟩ := by
  obtain ⟨c, ds, cons⟩ := List.exists_cons_of_ne_nil r.ne
  have digit : isDigit 10 c = true := r.digit c (by rw [cons]; simp)
  have run : (digits ++ rest).takeWhile (isDigit 10) = digits := by
    rw [List.takeWhile_append_of_pos r.digit]
    cases rest with
    | nil => rw [List.takeWhile_nil, List.append_nil]
    | cons x l =>
      rw [List.takeWhile_cons_of_neg (by rw [r.ends x rfl]; exact Bool.false_ne_true), List.append_nil]
  have none : prefixLength 10 (digits ++ rest) = 0 := if_neg fun h => by omega
  have all : digitsOf 10 (digits ++ rest) = digits := by
    rw [digitsOf, none, List.drop_zero]
    exact run
  have split : path.takeWhile isSpace = blanks ∧ unspaced path = sign ++ (digits ++ rest) ∧
      signLength (sign ++ (digits ++ rest)) = sign.length ∧
      ((sign ++ (digits ++ rest)).head? == some 45) = (sign == [45]) := by
    rw [r.eq, cons]
    rcases r.sign with rfl | rfl | rfl
    · have skip := unspaced_append r.blank (isSpace_of_isDigit digit) (ds ++ rest)
      refine ⟨skip.1, skip.2, ?_, ?_⟩
      · show signLength (c :: (ds ++ rest)) = 0
        rw [signLength, isSign_of_isDigit digit, if_neg Bool.false_ne_true]
      · have plain := isSign_of_isDigit digit
        simp only [isSign, Bool.or_eq_false_iff, beq_eq_false_iff_ne] at plain
        simp [plain.2]
    · have skip := unspaced_append r.blank (by decide : isSpace 43 = false) (c :: ds ++ rest)
      exact ⟨skip.1, skip.2, rfl, rfl⟩
    · have skip := unspaced_append r.blank (by decide : isSpace 45 = false) (c :: ds ++ rest)
      exact ⟨skip.1, skip.2, rfl, rfl⟩
  obtain ⟨spaces, behind, length, minus⟩ := split
  have body : bodyOf path = digits ++ rest := by
    rw [bodyOf, behind, length, List.drop_left]
  rw [parse, body, all, if_neg r.ne, spaces, behind, length, minus, none]
  rfl

/-- The rest of the path is behind the number. -/
theorem drop_of_reads (r : Reads path blanks sign digits rest) : path.drop (parse 10 path).length = rest := by
  rw [parse_of_reads r]
  show path.drop (blanks.length + sign.length + digits.length) = rest
  rw [r.eq, ← List.append_assoc, ← List.append_assoc]
  exact List.drop_left' (by rw [List.length_append, List.length_append])

/-- What `strtol` takes for a number. -/
theorem reads_of_parse (some : (parse 10 path).length ≠ 0) : ∃ blanks sign digits rest,
    Reads path blanks sign digits rest := by
  have ne : digitsOf 10 (bodyOf path) ≠ [] := fun nil => some (by rw [parse, if_pos nil])
  have none : prefixLength 10 (bodyOf path) = 0 := if_neg fun h => by omega
  have digits : digitsOf 10 (bodyOf path) = (bodyOf path).takeWhile (isDigit 10) := by
    rw [digitsOf, none, List.drop_zero]
    rfl
  rw [digits] at ne
  refine ⟨path.takeWhile isSpace, (unspaced path).take (signLength (unspaced path)),
    (bodyOf path).takeWhile (isDigit 10), (bodyOf path).dropWhile (isDigit 10), ?_, ?_, ?_, ne, ?_, ?_⟩
  · rw [List.takeWhile_append_dropWhile, bodyOf, List.take_append_drop]
    exact List.takeWhile_append_dropWhile.symm
  · exact fun c mem => List.mem_takeWhile_imp mem
  · cases unspaced path with
    | nil => exact .inl rfl
    | cons c l =>
      cases sign : isSign c with
      | false =>
        rw [signLength, sign, if_neg Bool.false_ne_true]
        exact .inl rfl
      | true =>
        rw [signLength, if_pos sign]
        simp only [isSign, Bool.or_eq_true, beq_iff_eq] at sign
        rcases sign with rfl | rfl
        · exact .inr (.inl rfl)
        · exact .inr (.inr rfl)
  · exact fun c mem => List.mem_takeWhile_imp mem
  · intro c mem
    have head := List.head?_dropWhile_not (isDigit 10) (bodyOf path)
    rw [Option.mem_def.1 mem] at head
    simpa using head

end Spelling

/-! ## The spelling of a number -/

/-- The value of a figure. -/
theorem digitValue_of_isDigit {d : Char} (digit : d.isDigit = true) :
    digitValue (UInt8.ofNat d.toNat) = some (d.toNat - 48) ∧ d.toNat - 48 < 10 := by
  have digit : 48 ≤ d.toNat ∧ d.toNat ≤ 57 := Char.isDigit_iff_toNat.1 digit
  have same : (UInt8.ofNat d.toNat).toNat = d.toNat := by
    rw [UInt8.toNat_ofNat']
    exact Nat.mod_eq_of_lt (by omega)
  constructor
  · rw [digitValue, if_pos, same]
    simp only [UInt8.le_iff_toNat_le, UInt8.reduceToNat, same]
    exact digit
  · omega

theorem isDigit_of_mem_pidName {n : ℕ} {c : UInt8} (mem : c ∈ pidName n) : isDigit 10 c = true := by
  rw [pidName, List.mem_map] at mem
  obtain ⟨d, mem, rfl⟩ := mem
  have digit := digitValue_of_isDigit (Nat.isDigit_of_mem_toDigits (by decide) (by decide) mem)
  rw [isDigit, digit.1]
  exact decide_eq_true digit.2

theorem pidName_ne_nil (n : ℕ) : pidName n ≠ [] := by
  rw [pidName, Ne, List.map_eq_nil_iff]
  exact Nat.toDigits_ne_nil

theorem value_pidName (n : ℕ) : value 10 (pidName n) = n := by
  have fold (l : List Char) (all : ∀ d ∈ l, d.isDigit = true) (init : ℕ) :
      (l.map fun c => UInt8.ofNat c.toNat).foldl (fun n c => 10 * n + (digitValue c).getD 0) init =
        Nat.ofDigitChars 10 l init := by
    induction l generalizing init with
    | nil => rw [Nat.ofDigitChars_nil]; rfl
    | cons d l ih =>
      rw [List.forall_mem_cons] at all
      rw [List.map_cons, List.foldl_cons, (digitValue_of_isDigit all.1).1, Nat.ofDigitChars_cons, ih all.2]
      rfl
  rw [value, pidName, fold _ fun d mem => Nat.isDigit_of_mem_toDigits (by decide) (by decide) mem]
  exact Nat.ofDigitChars_ten_toDigits

/-- A number of 31 bits stays as it is. -/
theorem narrowed_pidName {pid : ℤ} (pos : 0 < pid) (int : pid < 2 ^ 31) : narrowed [] (pidName pid.toNat) = pid := by
  have same : ((pid.toNat : ℕ) : ℤ) = pid := Int.toNat_of_nonneg pos.le
  have number : parsedInt ⟨([] : List UInt8) == [45], pid.toNat, 0⟩ = pid := same
  rw [narrowed, value_pidName, cStrtol, number, if_neg (by omega), if_neg (by omega)]
  show Int.bmod pid (2 ^ 32) = pid
  exact Int.bmod_eq_of_le (by omega) (by omega)

/-! ## What the parser finds -/

section Names

variable {rt : List Proc} {path blanks sign digits rest : List UInt8} {type : FileType} {p : Option Proc}

/-- The names of the root's entries start with a letter. -/
theorem lookup_rootNames (r : Reads path blanks sign digits rest) : rootNames.lookup path = none := by
  have front : ∃ c l, path = c :: l ∧ (isSpace c = true ∨ isSign c = true ∨ isDigit 10 c = true) := by
    rw [r.eq]
    match blanks, r.blank with
    | c :: l, blank => exact ⟨c, _, rfl, .inl (blank c (by simp))⟩
    | [], _ =>
      obtain ⟨c, ds, cons⟩ := List.exists_cons_of_ne_nil r.ne
      rcases r.sign with rfl | rfl | rfl
      · exact ⟨c, ds ++ rest, by rw [cons]; rfl, .inr (.inr (r.digit c (by rw [cons]; simp)))⟩
      · exact ⟨43, _, rfl, .inr (.inl rfl)⟩
      · exact ⟨45, _, rfl, .inr (.inl rfl)⟩
  obtain ⟨c, l, rfl, first⟩ := front
  rw [List.lookup_eq_none_iff]
  have letters : ∀ e ∈ rootNames, ∀ d ∈ e.1.head?,
      isSpace d = false ∧ isSign d = false ∧ isDigit 10 d = false := by
    decide +kernel
  intro e mem
  rw [bne_iff_ne]
  intro same
  have letter := letters e mem c (by rw [← same]; rfl)
  rw [letter.1, letter.2.1, letter.2.2] at first
  simp at first

/-- What the parser finds in front of a path. -/
theorem parse_of_number (r : Reads path blanks sign digits rest) :
    parseProcfsPath path = (parseTail rest).map fun type => (type, narrowed sign digits) := by
  have ne : path ≠ [] := by
    rw [r.eq]
    simp [r.ne]
  have length : (parse 10 path).length ≠ 0 := by
    have pos := List.length_pos_iff.2 r.ne
    rw [parse_of_reads r]
    show blanks.length + sign.length + digits.length ≠ 0
    omega
  rw [parseProcfsPath, if_neg ne, lookup_rootNames r]
  dsimp only
  rw [if_neg length, drop_of_reads r, parse_of_reads r]
  rfl

theorem parseTail_iff : parseTail rest = .ok type ↔ TailOf rest type := by
  constructor
  · intro h
    unfold parseTail at h
    match rest, h with
    | [], h =>
      obtain rfl := Except.ok.inj h
      exact .nil
    | c :: file, h =>
      dsimp only at h
      split_ifs at h with other empty
      · obtain rfl := Except.ok.inj h
        obtain rfl : c = slash := by simpa using other
        rw [empty]
        exact .slash
      · obtain rfl : c = slash := by simpa using other
        cases found : entryNames.lookup file with
        | none => rw [found] at h; cases h
        | some t =>
          rw [found] at h
          obtain rfl := Except.ok.inj h
          obtain ⟨l, l', eq, -⟩ := List.lookup_eq_some_iff.1 found
          exact .entry (by rw [eq]; simp)
  · intro h
    cases h with
    | nil => rfl
    | slash => rfl
    | entry entry =>
      have all : ∀ e ∈ entryNames, parseTail (slash :: e.1) = .ok e.2 := by decide
      exact all _ entry

theorem TailOf.ends (h : TailOf rest type) : ∀ c ∈ rest.head?, isDigit 10 c = false := by
  intro c mem
  cases h with
  | nil => cases mem
  | slash =>
    obtain rfl := Option.some.inj mem
    decide
  | entry =>
    obtain rfl := Option.some.inj mem
    decide

/-- A name of a process is its number with something behind it. -/
theorem names_proc_iff {q : Proc} : Names rt path type (some q) ↔
    procFind rt q.pid = some q ∧ 0 < q.pid ∧ ∃ tail, path = pidName q.pid.toNat ++ tail ∧ TailOf tail type := by
  constructor
  · intro h
    cases h with
    | dir alive pos => exact ⟨alive, pos, [], (List.append_nil _).symm, .nil⟩
    | dirSlash alive pos => exact ⟨alive, pos, _, rfl, .slash⟩
    | entry alive pos entry => exact ⟨alive, pos, _, rfl, .entry entry⟩
  · rintro ⟨alive, pos, tail, rfl, h⟩
    cases h with
    | nil => rw [List.append_nil]; exact .dir alive pos
    | slash => exact .dirSlash alive pos
    | entry entry => exact .entry alive pos entry

theorem reads_pidName (n : ℕ) {tail : List UInt8} (h : TailOf tail type) :
    Reads (pidName n ++ tail) [] [] (pidName n) tail where
  eq := rfl
  blank := by simp
  sign := .inl rfl
  ne := pidName_ne_nil n
  digit _ mem := isDigit_of_mem_pidName mem
  ends := h.ends

theorem pid_of_procFind {pid : ℤ} {q : Proc} (h : procFind rt pid = some q) : q.pid = pid := by
  have found := List.find?_some h
  simp only [Bool.and_eq_true, beq_iff_eq] at found
  exact found.1

/-- A name is found with what it stands for. -/
theorem lookup_named (h : Names rt path type p) : lookupPath rt path = .ok (type, (p.map Proc.pid).getD 0) := by
  match p, h with
  | none, h =>
    cases h with
    | root => rfl
    | rootEntry entry =>
      have all : ∀ e ∈ rootNames, parseProcfsPath e.1 = .ok (e.2, 0) := by decide
      rw [lookupPath, all _ entry]
      rfl
  | some q, h =>
    obtain ⟨alive, pos, tail, rfl, behind⟩ := names_proc_iff.1 h
    rw [lookupPath, parse_of_number (reads_pidName _ behind), parseTail_iff.2 behind, narrowed_pidName pos q.int.2]
    show (if 0 < q.pid ∧ procFind rt q.pid = none then _ else _) = _
    rw [if_neg fun gone => by rw [alive] at gone; cases gone.2]
    rfl

/-- What is found is what the path stands for, or the path is misspelt. -/
theorem lookup_cases {pid : ℤ} (h : lookupPath rt path = .ok (type, pid)) :
    (∃ p, Names rt path type p) ∨ Misspelt rt path := by
  by_cases empty : path = []
  · rw [empty, lookupPath, parseProcfsPath, if_pos rfl] at h
    obtain ⟨rfl, rfl⟩ := Prod.mk.inj (Except.ok.inj h)
    exact .inl ⟨none, empty ▸ .root⟩
  cases found : rootNames.lookup path with
  | some t =>
    rw [lookupPath, parseProcfsPath, if_neg empty, found] at h
    obtain ⟨rfl, rfl⟩ := Prod.mk.inj (Except.ok.inj h)
    obtain ⟨l, l', eq, -⟩ := List.lookup_eq_some_iff.1 found
    exact .inl ⟨none, .rootEntry (by rw [eq]; simp)⟩
  | none =>
    by_cases length : (parse 10 path).length = 0
    · rw [lookupPath, parseProcfsPath, if_neg empty, found] at h
      dsimp only at h
      rw [if_pos length] at h
      cases h
    · obtain ⟨blanks, sign, digits, rest, reads⟩ := reads_of_parse length
      rw [lookupPath, parse_of_number reads] at h
      cases tail : parseTail rest with
      | error e => rw [tail] at h; cases h
      | ok t =>
        rw [tail] at h
        change (if 0 < narrowed sign digits ∧ procFind rt (narrowed sign digits) = none then _ else _) = _ at h
        split_ifs at h with gone
        obtain ⟨rfl, rfl⟩ := Prod.mk.inj (Except.ok.inj h)
        have behind := parseTail_iff.1 tail
        by_cases pos : 0 < narrowed sign digits
        · have alive : procFind rt (narrowed sign digits) ≠ none := fun none => gone ⟨pos, none⟩
          by_cases spelt : blanks ++ (sign ++ digits) = pidName (narrowed sign digits).toNat
          · obtain ⟨q, alive⟩ := Option.ne_none_iff_exists'.1 alive
            have pid := pid_of_procFind alive
            refine .inl ⟨some q, names_proc_iff.2 ⟨by rw [pid, alive], by rw [pid]; exact pos, rest, ?_, behind⟩⟩
            rw [reads.eq, pid, ← spelt, List.append_assoc, List.append_assoc]
          · exact .inr ⟨blanks, sign, digits, rest, t, reads, behind, .inr ⟨alive, spelt⟩⟩
        · exact .inr ⟨blanks, sign, digits, rest, t, reads, behind, .inl (by omega)⟩

/-- A misspelt path is found. -/
theorem Misspelt.found (h : Misspelt rt path) : ∃ r, lookupPath rt path = .ok r := by
  obtain ⟨blanks, sign, digits, tail, type, reads, behind, number⟩ := h
  refine ⟨(type, narrowed sign digits), ?_⟩
  rw [lookupPath, parse_of_number reads, parseTail_iff.2 behind]
  show (if 0 < narrowed sign digits ∧ procFind rt (narrowed sign digits) = none then _ else _) = _
  refine if_neg fun gone => ?_
  rcases number with low | ⟨alive, -⟩
  · omega
  · exact alive gone.2

/-- A misspelt path stands for nothing. -/
theorem Misspelt.not_named (h : Misspelt rt path) : ¬ Named rt path := by
  obtain ⟨blanks, sign, digits, tail, type, reads, behind, number⟩ := h
  rintro ⟨t, p, named⟩
  have found := lookup_named named
  match p, named with
  | none, named =>
    cases named with
    | root =>
      have eq := congrArg List.length reads.eq
      have pos := List.length_pos_iff.2 reads.ne
      simp only [List.length_nil, List.length_append] at eq
      omega
    | rootEntry entry =>
      have first := lookup_rootNames reads
      have all : ∀ e ∈ rootNames, rootNames.lookup e.1 ≠ none := by decide
      exact all _ entry first
  | some q, named =>
    obtain ⟨alive, pos, rest, eq, behind'⟩ := names_proc_iff.1 named
    have reads' := reads_pidName q.pid.toNat behind'
    rw [← eq] at reads'
    have same := (parse_of_reads reads).symm.trans (parse_of_reads reads')
    have pid : narrowed sign digits = q.pid := by
      rw [← narrowed_pidName pos q.int.2, narrowed, narrowed]
      obtain ⟨minus, magnitude, -⟩ := Parsed.mk.inj same
      rw [minus, magnitude]
    rcases number with low | ⟨-, spelt⟩
    · omega
    · apply spelt
      obtain ⟨-, -, length⟩ := Parsed.mk.inj same
      have split : (blanks ++ (sign ++ digits)) ++ tail = pidName q.pid.toNat ++ rest := by
        rw [← eq, reads.eq, List.append_assoc, List.append_assoc]
      rw [pid]
      refine List.append_inj_left split ?_
      simp only [List.length_append, List.length_nil] at length ⊢
      omega

theorem stat_ok_iff : (∃ mode, procfsStat rt path = .ok mode) ↔ ∃ r, lookupPath rt path = .ok r := by
  rw [procfsStat]
  cases lookupPath rt path with
  | error e => constructor <;> (rintro ⟨_, h⟩; cases h)
  | ok r => exact ⟨fun _ => ⟨r, rfl⟩, fun _ => ⟨_, rfl⟩⟩

theorem open_ok_iff {files : ℕ → Option File} : (∃ r, procfsOpen rt files path = .ok r) ↔
    (∃ r, lookupPath rt path = .ok r) ∧ fileAlloc files ≠ none := by
  rw [procfsOpen]
  cases lookupPath rt path with
  | error e =>
    constructor
    · rintro ⟨_, h⟩
      cases h
    · rintro ⟨⟨_, h⟩, -⟩
      cases h
  | ok r =>
    obtain ⟨t, pid⟩ := r
    cases fileAlloc files with
    | none =>
      constructor
      · rintro ⟨_, h⟩
        cases h
      · exact fun h => absurd rfl h.2
    | some i => exact ⟨fun _ => ⟨⟨_, rfl⟩, Option.some_ne_none i⟩, fun _ => ⟨_, rfl⟩⟩

/-- A path that is not misspelt is found exactly if it stands for something. -/
theorem found_iff_named (h : ¬ Misspelt rt path) : (∃ r, lookupPath rt path = .ok r) ↔ Named rt path := by
  constructor
  · rintro ⟨⟨t, pid⟩, found⟩
    rcases lookup_cases found with named | wrong
    · exact ⟨t, named⟩
    · exact absurd wrong h
  · rintro ⟨t, p, named⟩
    exact ⟨_, lookup_named named⟩

theorem ofProc_of_names (h : Names rt path type none) : type.ofProc = false := by
  cases h with
  | root => rfl
  | rootEntry entry =>
    have all : ∀ e ∈ rootNames, e.2.ofProc = false := by decide
    exact all _ entry

/-- `stat` and `open` find what a path stands for, and nothing else, exactly if the path is not misspelt. -/
theorem procfs_names_iff (rt : List Proc) (files : ℕ → Option File) (path : List UInt8) :
    StatMet rt path ∧ OpenMet rt files path ↔ ¬ Misspelt rt path := by
  constructor
  · rintro ⟨met, -⟩ wrong
    exact wrong.not_named (met.accepts.1 (stat_ok_iff.2 wrong.found))
  · intro h
    have found := found_iff_named h
    refine ⟨⟨stat_ok_iff.trans found, fun mode t p ok named => ?_⟩,
      ⟨open_ok_iff.trans (and_congr_left' found), fun i file t p ok named => ?_⟩⟩
    · rw [procfsStat, lookup_named named] at ok
      exact (Except.ok.inj ok).symm
    · rw [procfsOpen, lookup_named named] at ok
      dsimp only at ok
      cases room : fileAlloc files with
      | none => rw [room] at ok; cases ok
      | some k =>
        rw [room] at ok
        obtain ⟨-, rfl⟩ := Prod.mk.inj (Except.ok.inj ok)
        match p, named with
        | none, named => rw [ofProc_of_names named]; rfl
        | some q, named =>
          have alive := (names_proc_iff.1 named).1
          show File.mk _ _ (if t.ofProc then procFind rt q.pid else none) = _
          rw [alive]

/-- A process with the number 1. -/
def initProc : Proc := ⟨false, 1, [47, 97], [47], by decide, by decide⟩

/-- `4294967297` is found as process 1. -/
theorem procfs_finds_modulo : ¬ (StatMet [initProc] [52, 50, 57, 52, 57, 54, 55, 50, 57, 55] ∧
    OpenMet [initProc] (fun _ => none) [52, 50, 57, 52, 57, 54, 55, 50, 57, 55]) := by
  rintro ⟨met, -⟩
  have wrong : Misspelt [initProc] [52, 50, 57, 52, 57, 54, 55, 50, 57, 55] :=
    ⟨[], [], [52, 50, 57, 52, 57, 54, 55, 50, 57, 55], [], .pidDir,
      ⟨rfl, by simp, .inl rfl, by simp, by decide +kernel, by simp⟩, .nil,
      .inr ⟨by decide +kernel, by decide +kernel⟩⟩
  exact wrong.not_named (met.accepts.1 (stat_ok_iff.2 wrong.found))

end Names

/-! ## `readlink` -/

section Readlink

variable {rt : List Proc} {self : ℤ} {path target : List UInt8} {type : FileType} {bufsiz : ℕ}

theorem decimal_ne_nil (n : ℤ) : decimal n ≠ [] := by
  unfold decimal
  split_ifs
  · exact List.cons_ne_nil _ _
  · exact pidName_ne_nil _

theorem zero_notMem_decimal (n : ℤ) : 0 ∉ decimal n := by
  have digits (k : ℕ) : 0 ∉ pidName k := fun mem => absurd (isDigit_of_mem_pidName mem) (by decide)
  unfold decimal
  split_ifs
  · rw [List.mem_cons, not_or]
    exact ⟨by decide, digits _⟩
  · exact digits _

/-- A formatted number is never copied as it should be: its NUL is copied with it. -/
theorem not_met_snprintfTo (n : ℤ) (bufsiz : ℕ) :
    ¬ ReadlinkMet (decimal n) bufsiz (snprintfTo (decimal n) bufsiz) := by
  intro met
  have pos := List.length_pos_iff.2 (decimal_ne_nil n)
  unfold snprintfTo at met
  by_cases none : bufsiz = 0
  · rw [if_pos none] at met
    have ret : ((decimal n).length : ℤ) = (min (decimal n).length bufsiz : ℕ) := met.ret
    omega
  · rw [if_neg none] at met
    have front := met.front.2
    have whole : ((decimal n).take (bufsiz - 1) ++ [0]).take (min (decimal n).length (bufsiz - 1) + 1) =
        (decimal n).take (bufsiz - 1) ++ [0] := by
      refine List.take_of_length_le ?_
      rw [List.length_append, List.length_take, List.length_singleton, Nat.min_comm]
    rw [show Copied.array _ = _ from rfl, show Copied.n _ = _ from rfl, whole] at front
    exact zero_notMem_decimal n (front.subset (by simp))

/-- A path is copied as it should be where it is shorter than the buffer. -/
theorem met_copyPath_iff (fits : target.length < pathMax) :
    ReadlinkMet target bufsiz (copyPath target bufsiz) ↔ target.length < bufsiz := by
  unfold pathMax at fits
  unfold copyPath
  constructor
  · intro met
    by_contra long
    have bound := met.bound
    have ret := met.ret
    dsimp only at bound ret
    rw [if_pos (by omega)] at bound ret
    rw [toInt32, Int.bmod_eq_of_le (by omega) (by omega)] at ret
    omega
  · intro short
    have ret : toInt32 target.length = target.length := Int.bmod_eq_of_le (by omega) (by omega)
    dsimp only
    rw [if_neg (by omega), ret]
    refine ⟨short.le, ⟨le_rfl, ?_⟩, ?_⟩
    · rw [List.take_length]
    · rw [Nat.min_eq_left short.le]

/-- `readlink` of a link does what it should exactly for the links of a process whose target is shorter than
the buffer. -/
theorem procfs_readlink_iff (link : LinkTo rt self path type target) (bufsiz : ℕ) :
    (∃ c, procfsReadlink rt self path bufsiz = .ok c ∧ ReadlinkMet target bufsiz c) ↔
      type ≠ .self ∧ target.length < bufsiz := by
  cases link with
  | self link =>
    rw [procfsReadlink, link]
    refine ⟨?_, fun h => absurd rfl h.1⟩
    rintro ⟨c, eq, met⟩
    obtain rfl := Except.ok.inj eq
    exact absurd met (not_met_snprintfTo self bufsiz)
  | @exe pid p link alive ne =>
    rw [procfsReadlink, link]
    dsimp only
    rw [alive]
    dsimp only
    rw [if_neg ne, ← met_copyPath_iff p.fits.1]
    exact ⟨fun ⟨c, eq, met⟩ => ⟨by decide, Except.ok.inj eq ▸ met⟩, fun h => ⟨_, rfl, h.2⟩⟩
  | @cwd pid p link alive ne =>
    rw [procfsReadlink, link]
    dsimp only
    rw [alive]
    dsimp only
    rw [if_neg ne, ← met_copyPath_iff p.fits.2]
    exact ⟨fun ⟨c, eq, met⟩ => ⟨by decide, Except.ok.inj eq ▸ met⟩, fun h => ⟨_, rfl, h.2⟩⟩

theorem procfs_readlink_exe : (∃ c, procfsReadlink [initProc] 1 [49, 47, 101, 120, 101] 8 = .ok c ∧
    ReadlinkMet [47, 97] 8 c) ↔ FileType.exe ≠ .self ∧ [(47 : UInt8), 97].length < 8 :=
  have link : parseProcfsPath [49, 47, 101, 120, 101] = .ok (.exe, 1) := by decide
  have alive : procFind [initProc] 1 = some initProc := by decide
  procfs_readlink_iff (.exe link alive (by decide)) 8

/-- For an empty buffer `memcpy` gets the size -1. -/
theorem procfs_readlink_empty : ¬ ∃ c, procfsReadlink [initProc] 1 [49, 47, 101, 120, 101] 0 = .ok c ∧
    ReadlinkMet [47, 97] 0 c := by
  rintro ⟨c, eq, met⟩
  have copied : procfsReadlink [initProc] 1 [49, 47, 101, 120, 101] 0 = .ok (copyPath [47, 97] 0) := by decide
  obtain rfl := Except.ok.inj (copied.symm.trans eq)
  exact absurd ((met_copyPath_iff (by decide)).1 met) (by decide)

end Readlink

end Procfs

end Yos
