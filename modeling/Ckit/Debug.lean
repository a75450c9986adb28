import Mathlib.Data.Int.Basic
import Mathlib.Logic.Function.Basic
import Mathlib.Tactic.Common

/-!
# Debug logs

`debug.c` keeps a log handle for the macros of `debug.h`, `dbg_log`, which is the static
`default_dbg` until a program sets another. A handle is a `struct ck_log` of `log.c`, a
stream to print to, and a level.

The streams are modelled as far as they are open or closed: `fopen` returns a new one each
time, and a call has no outcome where it would close or print to a stream that is `NULL` or
closed, or go through a `dbg_log` that is `NULL`. What is printed is text that has been
formatted.
-/

/-- `enum ck_dbg_level`. -/
inductive CkDbgLevel where
  | verb
  | dbg
  | inf
  | warn
  | err
deriving DecidableEq, Repr

/-- The number of a level. -/
def CkDbgLevel.toNat : CkDbgLevel → ℕ
  | .verb => 0
  | .dbg => 1
  | .inf => 2
  | .warn => 3
  | .err => 4

/-- `enum ck_log_mode`. -/
inductive CkLogMode where
  | append
  | trunc
deriving DecidableEq, Repr

/-- A `FILE`: one of the two of the process, or one that `fopen` has returned. -/
inductive CFile where
  | stdout
  | stderr
  | file (n : ℕ)
deriving DecidableEq, Repr

/-- `struct ck_log`. -/
structure CkLog where
  fp : Option CFile
  flags : ℕ
  mode : CkLogMode
deriving DecidableEq, Repr

/-- `struct ck_dbg`. -/
structure CkDbg where
  log : CkLog
  level : CkDbgLevel
deriving DecidableEq, Repr

/-- What `memset` leaves, and what a static handle starts as. -/
def CkDbg.zero : CkDbg := ⟨⟨none, 0, .append⟩, .verb⟩

/-- The address of a handle: that of `default_dbg`, or of one of the caller's. -/
inductive DbgPtr (ι : Type) where
  | default
  | handle (h : ι)
deriving DecidableEq, Repr

/-- The library and the streams. -/
structure DbgLib (ι : Type) where
  mem : DbgPtr ι → CkDbg
  dbgLog : Option (DbgPtr ι)
  /-- The files `fopen` has opened, with their modes. -/
  files : List (String × String)
  closed : List CFile
  /-- What has been printed, the latest first. -/
  out : List (CFile × String)

namespace DbgLib

variable {ι : Type}

/-- The library before the first call. -/
def start : DbgLib ι where
  mem
    | .default => ⟨⟨none, 0, .append⟩, .dbg⟩
    | .handle _ => .zero
  dbgLog := some .default
  files := []
  closed := []
  out := []

/-! ## Streams -/

/-- The stream can be printed to, and closed. -/
def Live (s : DbgLib ι) (st : CFile) : Prop :=
  st ∉ s.closed ∧ ∀ n, st = .file n → n < s.files.length

instance (s : DbgLib ι) : ∀ st, Decidable (s.Live st)
  | .stdout | .stderr => decidable_of_iff (_ ∉ s.closed)
      ⟨fun h => ⟨h, fun _ hn => nomatch hn⟩, And.left⟩
  | .file n => decidable_of_iff (CFile.file n ∉ s.closed ∧ n < s.files.length)
      ⟨fun h => ⟨h.1, fun _ hn => CFile.file.inj hn ▸ h.2⟩, fun h => ⟨h.1, h.2 n rfl⟩⟩

/-- `fclose`. -/
def fclose (s : DbgLib ι) : Option CFile → Option (DbgLib ι)
  | none => none
  | some st => if s.Live st then some { s with closed := st :: s.closed } else none

/-- `vfprintf`, with its return value. -/
def vfprintf (s : DbgLib ι) (fp : Option CFile) (text : String) : Option (ℤ × DbgLib ι) :=
  match fp with
  | none => none
  | some st =>
    if s.Live st then some (text.length, { s with out := (st, text) :: s.out }) else none

/-! ## `log.c` -/

/-- `ck_log_init`. -/
def ckLogInit (fp : Option CFile) (mode : CkLogMode) : CkLog := ⟨fp, 0, mode⟩

/-- The mode `ck_log_open` gives to `fopen`. -/
def omode : CkLogMode → String
  | .append => "a"
  | .trunc => "w"

/-- `ck_log_open` on the log of a handle, with its return value; `ok` is the outcome of
`fopen`. -/
def ckLogOpen [DecidableEq ι] (s : DbgLib ι) (dbg : DbgPtr ι) (path : String) (mode : CkLogMode)
    (ok : Bool) : Option (ℤ × DbgLib ι) :=
  if ok then
    some (0, { s with
      files := s.files ++ [(path, omode mode)]
      mem := Function.update s.mem dbg
        { s.mem dbg with log := ckLogInit (some (.file s.files.length)) mode } })
  else do
    let (_, s) ← s.vfprintf (some .stderr) ("fdopen failed for " ++ path ++ "\n")
    return (-1, s)

/-- `ck_log_close`. -/
def ckLogClose (s : DbgLib ι) (log : CkLog) : Option (DbgLib ι) := s.fclose log.fp

/-- `ck_log_vprint`. -/
def ckLogVprint (s : DbgLib ι) (log : CkLog) (text : String) : Option (ℤ × DbgLib ι) :=
  s.vfprintf log.fp text

/-! ## `debug.c` -/

variable [DecidableEq ι]

/-- The assignment `dbg->log.fp = fp`. -/
def setFp (s : DbgLib ι) (dbg : DbgPtr ι) (fp : Option CFile) : DbgLib ι :=
  { s with
    mem := Function.update s.mem dbg
      { s.mem dbg with log := { (s.mem dbg).log with fp := fp } } }

@[simp] theorem setFp_fp (s : DbgLib ι) (dbg : DbgPtr ι) (fp : Option CFile) :
    ((s.setFp dbg fp).mem dbg).log.fp = fp := by
  simp only [setFp, Function.update_self]

@[simp] theorem setFp_level (s : DbgLib ι) (dbg : DbgPtr ι) (fp : Option CFile) :
    ((s.setFp dbg fp).mem dbg).level = (s.mem dbg).level := by
  simp only [setFp, Function.update_self]

theorem setFp_mem_of_ne (s : DbgLib ι) {dbg p : DbgPtr ι} (hp : p ≠ dbg) (fp : Option CFile) :
    (s.setFp dbg fp).mem p = s.mem p := by
  simp only [setFp, Function.update_of_ne hp]

/-- Only the last of two assignments is left. -/
theorem setFp_setFp (s : DbgLib ι) (dbg : DbgPtr ι) (fp fp' : Option CFile)
    (out : List (CFile × String)) :
    setFp { s.setFp dbg fp with out := out } dbg fp' = { s.setFp dbg fp' with out := out } := by
  simp only [setFp, Function.update_self, Function.update_idem]

/-- `ck_dbg_set_default_log`. -/
def ckDbgSetDefaultLog (s : DbgLib ι) (dbg : Option (DbgPtr ι)) : DbgLib ι :=
  { s with dbgLog := dbg }

/-- `ck_dbg_print`, with its return value. -/
def ckDbgPrint (s : DbgLib ι) (dbg : DbgPtr ι) (level : CkDbgLevel) (text : String) :
    Option (ℤ × DbgLib ι) :=
  if level.toNat < (s.mem dbg).level.toNat then
    some (0, s)
  else do
    let s :=
      if dbg = .default then
        if level = .err then s.setFp dbg (some .stderr) else s.setFp dbg (some .stdout)
      else s
    let (ret, s) ← s.ckLogVprint (s.mem dbg).log text
    return (ret, if dbg = .default then s.setFp dbg none else s)

/-- `ck_dbg_open`, with its return value. -/
def ckDbgOpen (s : DbgLib ι) (dbg : DbgPtr ι) (path : String) (ok : Bool) (text : String) :
    Option (ℤ × DbgLib ι) := do
  let s := { s with mem := Function.update s.mem dbg { CkDbg.zero with level := .dbg } }
  let (ret, s) ← s.ckLogOpen dbg path .append ok
  if ret = 0 then
    let (_, s) ← s.ckDbgPrint dbg .inf text
    return (ret, s)
  else
    return (ret, s)

/-- `ck_dbg_close`; `none` is `NULL`. Both of its tests ask whether the argument is
`default_dbg`. -/
def ckDbgClose (s : DbgLib ι) (dbg : Option (DbgPtr ι)) : Option (DbgLib ι) :=
  match dbg with
  | some p => do
    let s ← if dbg ≠ some .default then s.ckLogClose (s.mem p).log else some s
    return if dbg = s.dbgLog then { s with dbgLog := none } else s
  | none =>
    match s.dbgLog with
    | some p => do
      let s ← if dbg ≠ some .default then s.ckLogClose (s.mem p).log else some s
      return { s with dbgLog := none }
    | none => some s

/-- `ck_dbg_is_open`. -/
def ckDbgIsOpen (s : DbgLib ι) (dbg : DbgPtr ι) : Bool :=
  (s.mem dbg).log.fp.isSome || dbg = .default

/-- `__LOG`: it prints to what `dbg_log` points to. -/
def log (s : DbgLib ι) (level : CkDbgLevel) (text : String) : Option (ℤ × DbgLib ι) :=
  match s.dbgLog with
  | some dbg => s.ckDbgPrint dbg level text
  | none => none

end DbgLib
