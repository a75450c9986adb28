import Ckit.Debug
import Ckit.Run

/-!
# The life cycle of debug logs

A program opens handles, makes one of them the log of the macros, prints, and closes them.
What should hold all along is `Right`: no call closes or prints to a stream that is `NULL` or
closed, no print goes through a `dbg_log` that is `NULL`, and `ck_dbg_is_open` says which
handles have been opened and not closed since.

Three slips stand against it. `ck_log_close` leaves the stream in the handle, so a handle
that is closed still looks open. `ck_dbg_close` leaves a `dbg_log` that is `NULL` behind it,
and the next print goes through it. And with `NULL` it asks whether its argument is
`default_dbg`, not whether `dbg_log` is, and closes the stream of `default_dbg`, which is
`NULL`. `dbg_log_safe` says when every call returns, and `dbg_log_life` when all is right.
-/

/-- The macros that print. -/
inductive LogKind where
  | inf
  | warn
  | err
deriving DecidableEq, Repr

/-- The level of `LOG_INF`, `LOG_WARN` and `LOG_ERR`. -/
def LogKind.level : LogKind → CkDbgLevel
  | .inf => .inf
  | .warn => .warn
  | .err => .err

/-- A call of the program. -/
inductive DbgCall (ι : Type) where
  | callOpen (dbg : DbgPtr ι) (path text : String)
  | callSetDefaultLog (dbg : Option (DbgPtr ι))
  | callClose (dbg : Option (DbgPtr ι))
  | callLog (kind : LogKind) (text : String)
deriving DecidableEq, Repr

/-- What has become of a handle. -/
inductive HandleStatus where
  | never
  | opened
  | closed
deriving DecidableEq, Repr

/-- The library, and what has become of the handles. -/
structure DbgSys (ι : Type) where
  lib : DbgLib ι
  status : ι → HandleStatus

namespace DbgSys

variable {ι : Type}

/-- Before the first call. -/
def start : DbgSys ι := ⟨.start, fun _ => .never⟩

/-- The handle a call closes: its argument, or with `NULL` the one `dbg_log` points to. -/
def closes (s : DbgSys ι) : DbgCall ι → Option ι
  | .callClose (some (.handle h)) => some h
  | .callClose none =>
    match s.lib.dbgLog with
    | some (.handle h) => some h
    | _ => none
  | _ => none

variable [DecidableEq ι]

/-- What a call makes of the library. -/
def exec (s : DbgSys ι) : DbgCall ι → Option (DbgLib ι)
  | .callOpen dbg path text => (s.lib.ckDbgOpen dbg path true text).map Prod.snd
  | .callSetDefaultLog dbg => some (s.lib.ckDbgSetDefaultLog dbg)
  | .callClose dbg => s.lib.ckDbgClose dbg
  | .callLog kind text => (s.lib.log kind.level text).map Prod.snd

/-- What a call makes of the handles. -/
def track (s : DbgSys ι) (c : DbgCall ι) : ι → HandleStatus :=
  match c, s.closes c with
  | .callOpen (.handle h) _ _, _ => Function.update s.status h .opened
  | _, some h => Function.update s.status h .closed
  | _, none => s.status

/-- One call. -/
def step (s : DbgSys ι) (c : DbgCall ι) : Option (DbgSys ι) :=
  (s.exec c).map fun lib => ⟨lib, s.track c⟩

/-- **`ck_dbg_is_open` is right** about every handle. -/
def TellsOpen (s : DbgSys ι) : Prop :=
  ∀ dbg, s.lib.ckDbgIsOpen dbg = true
    ↔ dbg = .default ∨ ∃ h, dbg = .handle h ∧ s.status h = .opened

/-- The call returns. -/
def Returns (s : DbgSys ι) (c : DbgCall ι) : Prop := ∃ s', s.step c = some s'

/-- **The call returns, and `ck_dbg_is_open` is right after it.** -/
def Right (s : DbgSys ι) (c : DbgCall ι) : Prop := ∃ s', s.step c = some s' ∧ s'.TellsOpen

/-- **When a call returns**: a handle that is closed is open, `NULL` is closed when `dbg_log`
is `NULL` or a handle that is open, and `dbg_log` is `default_dbg` or a handle that is open
when something is printed. -/
def Sane (s : DbgSys ι) : DbgCall ι → Prop
  | .callOpen _ _ _ | .callSetDefaultLog _ | .callClose (some .default) => True
  | .callClose (some (.handle h)) => s.status h = .opened
  | .callClose none =>
    match s.lib.dbgLog with
    | none => True
    | some .default => False
    | some (.handle h) => s.status h = .opened
  | .callLog _ _ =>
    match s.lib.dbgLog with
    | none => False
    | some .default => True
    | some (.handle h) => s.status h = .opened

/-- **When all is right**: the call returns, and does not close a handle. -/
def Lasting (s : DbgSys ι) (c : DbgCall ι) : Prop := s.Sane c ∧ s.closes c = none

/-! ## What the calls keep -/

/-- The stream of a handle, as its status has it. -/
def HasStream (lib : DbgLib ι) (fp : Option CFile) : HandleStatus → Prop
  | .never => fp = none
  | .opened => ∃ n, fp = some (.file n) ∧ n < lib.files.length ∧ .file n ∉ lib.closed
  | .closed => ∃ n, fp = some (.file n) ∧ n < lib.files.length ∧ .file n ∈ lib.closed

/-- **What every call keeps.** -/
structure DbgInv (s : DbgSys ι) : Prop where
  std : .stdout ∉ s.lib.closed ∧ .stderr ∉ s.lib.closed
  default_fp : (s.lib.mem .default).log.fp = none
  level : ∀ dbg, (s.lib.mem dbg).level.toNat ≤ 1
  closed_lt : ∀ n, .file n ∈ s.lib.closed → n < s.lib.files.length
  stream : ∀ h, HasStream s.lib (s.lib.mem (.handle h)).log.fp (s.status h)
  apart : ∀ h h' n, (s.lib.mem (.handle h)).log.fp = some (.file n) →
    (s.lib.mem (.handle h')).log.fp = some (.file n) → h = h'

omit [DecidableEq ι] in
theorem dbgInv_start : DbgInv (start : DbgSys ι) where
  std := ⟨List.not_mem_nil, List.not_mem_nil⟩
  default_fp := rfl
  level
    | .default => le_rfl
    | .handle _ => Nat.zero_le _
  closed_lt _ h := absurd h List.not_mem_nil
  stream _ := rfl
  apart _ _ _ h := nomatch h

variable {s s' : DbgSys ι}

/-- While the calls keep it, `ck_dbg_is_open` is right as long as no handle is closed. -/
theorem DbgInv.tellsOpen_iff (h : DbgInv s) : s.TellsOpen ↔ ∀ g, s.status g ≠ .closed := by
  have hstream : ∀ g, s.lib.ckDbgIsOpen (.handle g) = true ↔ s.status g ≠ .never := by
    intro g
    have hg := h.stream g
    unfold DbgLib.ckDbgIsOpen
    cases hst : s.status g with
    | never =>
      rw [hst] at hg
      rw [show (s.lib.mem (.handle g)).log.fp = none from hg]
      simp
    | opened | closed =>
      rw [hst] at hg
      obtain ⟨n, hn, -⟩ := hg
      rw [hn]
      simp
  constructor
  · intro htells g hg
    have hopen := (htells (.handle g)).mp ((hstream g).mpr (by rw [hg]; decide))
    rcases hopen with hdef | ⟨g', hg', hst⟩
    · exact nomatch hdef
    · obtain rfl := DbgPtr.handle.inj hg'
      exact nomatch hst.symm.trans hg
  · intro hnone dbg
    cases dbg with
    | default =>
      refine iff_of_true ?_ (.inl rfl)
      simp [DbgLib.ckDbgIsOpen]
    | handle g =>
      rw [hstream g]
      constructor
      · intro hg
        refine .inr ⟨g, rfl, ?_⟩
        cases hst : s.status g with
        | never => exact absurd hst hg
        | opened => rfl
        | closed => exact absurd hst (hnone g)
      · rintro (hdef | ⟨g', hg', hst⟩)
        · exact nomatch hdef
        · obtain rfl := DbgPtr.handle.inj hg'
          rw [hst]
          decide

/-! ## The single calls -/

omit [DecidableEq ι] in
/-- A stream of a handle can be used exactly while the handle is open. -/
theorem HasStream.live_iff {lib : DbgLib ι} {fp : Option CFile} {st : HandleStatus}
    (h : HasStream lib fp st) : (∃ f, fp = some f ∧ lib.Live f) ↔ st = .opened := by
  cases st with
  | never =>
    rw [show fp = none from h]
    exact iff_of_false (fun ⟨_, hf, _⟩ => nomatch hf) (fun hst => nomatch hst)
  | opened =>
    obtain ⟨n, hn, hlt, hopen⟩ := h
    exact iff_of_true ⟨.file n, hn, hopen, fun m hm => CFile.file.inj hm ▸ hlt⟩ rfl
  | closed =>
    obtain ⟨n, hn, -, hclosed⟩ := h
    refine iff_of_false ?_ (fun hst => nomatch hst)
    rintro ⟨f, hf, hlive⟩
    obtain rfl := Option.some.inj (hn.symm.trans hf)
    exact hlive.1 hclosed

omit [DecidableEq ι] in
/-- The streams of the process are live while they are not closed: they are no files. -/
theorem live_std_of {lib : DbgLib ι} (hout : .stdout ∉ lib.closed) (herr : .stderr ∉ lib.closed) :
    lib.Live .stdout ∧ lib.Live .stderr :=
  ⟨⟨hout, fun _ => CFile.noConfusion⟩, ⟨herr, fun _ => CFile.noConfusion⟩⟩

omit [DecidableEq ι] in
theorem DbgInv.live_std (h : DbgInv s) : s.lib.Live .stdout ∧ s.lib.Live .stderr :=
  live_std_of h.std.1 h.std.2

/-- Printing to a handle prints to its stream. -/
theorem ckDbgPrint_handle {lib : DbgLib ι} {g : ι} {level : CkDbgLevel}
    (hlevel : (lib.mem (.handle g)).level.toNat ≤ level.toNat) (text : String) :
    lib.ckDbgPrint (.handle g) level text
      = lib.vfprintf (lib.mem (.handle g)).log.fp text := by
  have hne : (DbgPtr.handle g : DbgPtr ι) ≠ .default := fun hc => nomatch hc
  rw [DbgLib.ckDbgPrint, if_neg (not_lt.mpr hlevel), if_neg hne]
  simp only [if_neg hne]
  exact Option.bind_fun_some _

/-- **Printing to `default_dbg`** prints to a stream of the process, and leaves none in the
handle. -/
theorem ckDbgPrint_default {lib : DbgLib ι} {level : CkDbgLevel}
    (hlevel : (lib.mem .default).level.toNat ≤ level.toNat) (hout : lib.Live .stdout)
    (herr : lib.Live .stderr) (text : String) :
    ∃ f, lib.ckDbgPrint .default level text
      = some ((text.length : ℤ),
        { lib.setFp .default none with out := (f, text) :: lib.out }) := by
  have hprint : ∀ f, lib.Live f →
      let lib' := lib.setFp .default (some f)
      lib'.ckLogVprint (lib'.mem .default).log text
        = some ((text.length : ℤ), { lib' with out := (f, text) :: lib.out }) := by
    intro f hf lib'
    rw [DbgLib.ckLogVprint, DbgLib.setFp_fp]
    exact if_pos hf
  unfold DbgLib.ckDbgPrint
  rw [if_neg (not_lt.mpr hlevel)]
  simp only [if_true]
  by_cases hl : level = .err
  · rw [if_pos hl, hprint _ herr]
    refine ⟨.stderr, ?_⟩
    show some ((text.length : ℤ), DbgLib.setFp _ .default none) = _
    rw [DbgLib.setFp_setFp]
  · rw [if_neg hl, hprint _ hout]
    refine ⟨.stdout, ?_⟩
    show some ((text.length : ℤ), DbgLib.setFp _ .default none) = _
    rw [DbgLib.setFp_setFp]

/-- **What `ck_dbg_open` has done** before it prints its first line: the handle has a new
stream. -/
def afterOpen (lib : DbgLib ι) (dbg : DbgPtr ι) (path : String) : DbgLib ι :=
  { lib with
    files := lib.files ++ [(path, "a")]
    mem := Function.update lib.mem dbg ⟨⟨some (.file lib.files.length), 0, .append⟩, .dbg⟩ }

@[simp] theorem afterOpen_mem_self (lib : DbgLib ι) (dbg : DbgPtr ι) (path : String) :
    (afterOpen lib dbg path).mem dbg
      = ⟨⟨some (.file lib.files.length), 0, .append⟩, .dbg⟩ := by
  simp only [afterOpen, Function.update_self]

theorem afterOpen_mem_of_ne (lib : DbgLib ι) {dbg p : DbgPtr ι} (hp : p ≠ dbg) (path : String) :
    (afterOpen lib dbg path).mem p = lib.mem p := by
  simp only [afterOpen, Function.update_of_ne hp]

/-- `ck_dbg_open` opens the stream and prints. -/
theorem ckDbgOpen_eq (lib : DbgLib ι) (dbg : DbgPtr ι) (path text : String) :
    lib.ckDbgOpen dbg path true text
      = ((afterOpen lib dbg path).ckDbgPrint dbg .inf text).map fun r => (0, r.2) := by
  unfold DbgLib.ckDbgOpen DbgLib.ckLogOpen
  simp only [if_true, Function.update_self, Function.update_idem]
  show ((afterOpen lib dbg path).ckDbgPrint dbg .inf text).bind _ = _
  rw [Option.map_eq_bind]
  rfl

/-! ## The invariant -/

omit [DecidableEq ι] in
/-- A stream stays what it is where files are opened, and others closed. -/
theorem HasStream.mono {lib lib' : DbgLib ι} {fp : Option CFile} {st : HandleStatus}
    (h : HasStream lib fp st) (hfiles : lib.files.length ≤ lib'.files.length)
    (hclosed : ∀ n, fp = some (.file n) → (.file n ∈ lib'.closed ↔ .file n ∈ lib.closed)) :
    HasStream lib' fp st := by
  cases st with
  | never => exact h
  | opened =>
    obtain ⟨n, hn, hlt, hopen⟩ := h
    exact ⟨n, hn, hlt.trans_le hfiles, fun hc => hopen ((hclosed n hn).mp hc)⟩
  | closed =>
    obtain ⟨n, hn, hlt, hcl⟩ := h
    exact ⟨n, hn, hlt.trans_le hfiles, (hclosed n hn).mpr hcl⟩

omit [DecidableEq ι] in
/-- **Where the handles and the closed streams stay as they are**, the invariant is kept. -/
theorem DbgInv.of_handles (h : DbgInv s) {lib : DbgLib ι}
    (hmem : ∀ g, lib.mem (.handle g) = s.lib.mem (.handle g))
    (hfp : (lib.mem .default).log.fp = none) (hlevel : (lib.mem .default).level.toNat ≤ 1)
    (hfiles : s.lib.files.length ≤ lib.files.length) (hclosed : lib.closed = s.lib.closed) :
    DbgInv ⟨lib, s.status⟩ where
  std := by
    rw [hclosed]
    exact h.std
  default_fp := hfp
  level
    | .default => hlevel
    | .handle g => by
      rw [hmem g]
      exact h.level _
  closed_lt n hn := by
    rw [hclosed] at hn
    exact (h.closed_lt n hn).trans_le hfiles
  stream g := by
    rw [hmem g]
    exact (h.stream g).mono hfiles fun n _ => by rw [hclosed]
  apart g g' n := by
    rw [hmem g, hmem g']
    exact h.apart g g' n

omit [DecidableEq ι] in
/-- The stream of a handle has been opened. -/
theorem DbgInv.file_lt (h : DbgInv s) {k : ι} {n : ℕ}
    (hk : (s.lib.mem (.handle k)).log.fp = some (.file n)) : n < s.lib.files.length := by
  have hstream := h.stream k
  rw [hk] at hstream
  cases hst : s.status k with
  | never =>
    rw [hst] at hstream
    exact nomatch hstream
  | opened | closed =>
    rw [hst] at hstream
    obtain ⟨m, hm, hlt, -⟩ := hstream
    exact CFile.file.inj (Option.some.inj hm) ▸ hlt

/-- **A handle with a new stream** is open, and shares the stream with no other handle. -/
theorem DbgInv.afterOpen (h : DbgInv s) (g : ι) (path : String) :
    DbgInv ⟨afterOpen s.lib (.handle g) path, Function.update s.status g .opened⟩ := by
  have hlen : (s.lib.files ++ [(path, "a")]).length = s.lib.files.length + 1 :=
    List.length_append
  have hself := afterOpen_mem_self s.lib (.handle g) path
  have hhandle : ∀ k, k ≠ g →
      (DbgSys.afterOpen s.lib (.handle g) path).mem (.handle k) = s.lib.mem (.handle k) :=
    fun k hk => afterOpen_mem_of_ne _ (fun hc => hk (DbgPtr.handle.inj hc)) _
  -- The stream is new: no other handle has one as late.
  have hnew : ∀ k, (s.lib.mem (.handle k)).log.fp ≠ some (.file s.lib.files.length) :=
    fun k hk => lt_irrefl _ (h.file_lt hk)
  refine ⟨h.std, ?_, fun p => ?_, fun n hn => ?_, fun k => ?_, fun k k' n => ?_⟩
  · have hne : DbgPtr.default ≠ .handle g := fun hc => nomatch hc
    rw [afterOpen_mem_of_ne s.lib hne path]
    exact h.default_fp
  · by_cases hp : p = .handle g
    · rw [hp, hself]
      exact le_rfl
    · rw [afterOpen_mem_of_ne s.lib hp path]
      exact h.level p
  · show n < (s.lib.files ++ [(path, "a")]).length
    rw [hlen]
    exact (h.closed_lt n hn).trans (Nat.lt_succ_self _)
  · by_cases hk : k = g
    · subst hk
      show HasStream _ _ (Function.update s.status k .opened k)
      rw [hself, Function.update_self]
      refine ⟨s.lib.files.length, rfl, ?_, fun hc => ?_⟩
      · exact hlen ▸ Nat.lt_succ_self _
      · exact lt_irrefl _ (h.closed_lt _ hc)
    · show HasStream _ _ (Function.update s.status g .opened k)
      rw [hhandle k hk, Function.update_of_ne hk]
      exact (h.stream k).mono (hlen ▸ Nat.le_succ _) fun _ _ => Iff.rfl
  · by_cases hk : k = g <;> by_cases hk' : k' = g
    · intros
      rw [hk, hk']
    · subst hk
      rw [hself, hhandle k' hk']
      intro hn hn'
      exact absurd (hn'.trans hn.symm) (hnew k')
    · subst hk'
      rw [hself, hhandle k hk]
      intro hn hn'
      exact absurd (hn.trans hn'.symm) (hnew k)
    · rw [hhandle k hk, hhandle k' hk']
      exact h.apart k k' n

/-- **A handle whose stream is closed** is closed, and no other handle is. -/
theorem DbgInv.afterClose (h : DbgInv s) {g : ι} {n : ℕ}
    (hn : (s.lib.mem (.handle g)).log.fp = some (.file n)) (hlt : n < s.lib.files.length)
    (dbgLog : Option (DbgPtr ι)) :
    DbgInv ⟨{ s.lib with closed := .file n :: s.lib.closed, dbgLog := dbgLog },
      Function.update s.status g .closed⟩ := by
  refine ⟨⟨?_, ?_⟩, h.default_fp, h.level, fun m hm => ?_, fun k => ?_, h.apart⟩
  · exact List.not_mem_cons_of_ne_of_not_mem CFile.noConfusion h.std.1
  · exact List.not_mem_cons_of_ne_of_not_mem CFile.noConfusion h.std.2
  · rcases List.mem_cons.mp hm with hmn | hm
    · obtain rfl := CFile.file.inj hmn
      exact hlt
    · exact h.closed_lt m hm
  · by_cases hk : k = g
    · subst hk
      show HasStream _ _ (Function.update s.status k .closed k)
      rw [Function.update_self]
      exact ⟨n, hn, hlt, List.mem_cons_self⟩
    · show HasStream _ _ (Function.update s.status g .closed k)
      rw [Function.update_of_ne hk]
      refine (h.stream k).mono le_rfl fun m hm => ?_
      have hmn : CFile.file m ≠ .file n := by
        intro hc
        rw [hc] at hm
        exact hk (h.apart k g n hm hn)
      exact ⟨fun hc => (List.mem_cons.mp hc).resolve_left hmn, List.mem_cons_of_mem _⟩

/-! ## The calls -/

omit [DecidableEq ι] in
/-- The stream of an open handle can be used; no other handle has one that can. -/
theorem DbgInv.stream_cases (h : DbgInv s) (g : ι) :
    (s.status g = .opened ∧ ∃ n, (s.lib.mem (.handle g)).log.fp = some (.file n)
        ∧ s.lib.Live (.file n)) ∨
      (s.status g ≠ .opened ∧ ∀ f, (s.lib.mem (.handle g)).log.fp = some f → ¬ s.lib.Live f) := by
  have hlive := (h.stream g).live_iff
  by_cases hst : s.status g = .opened
  · obtain ⟨n, hn, -⟩ := show ∃ n, _ from hst ▸ h.stream g
    obtain ⟨f, hf, hL⟩ := hlive.mpr hst
    obtain rfl := Option.some.inj (hn.symm.trans hf)
    exact .inl ⟨hst, n, hn, hL⟩
  · exact .inr ⟨hst, fun f hf hL => hst (hlive.mp ⟨f, hf, hL⟩)⟩

omit [DecidableEq ι] in
/-- A stream that cannot be used can be neither printed to nor closed. -/
theorem not_live {lib : DbgLib ι} {fp : Option CFile} (h : ∀ f, fp = some f → ¬ lib.Live f)
    (text : String) : lib.vfprintf fp text = none ∧ lib.fclose fp = none := by
  cases fp with
  | none => exact ⟨rfl, rfl⟩
  | some f => exact ⟨if_neg (h f rfl), if_neg (h f rfl)⟩

/-- **What a call does**: it returns where it is sane to make it, and keeps the invariant;
anywhere else it has no outcome. -/
def Outcome (s : DbgSys ι) (c : DbgCall ι) : Prop :=
  (s.Sane c ∧ ∃ s', s.step c = some s' ∧ DbgInv s') ∨ (¬ s.Sane c ∧ s.step c = none)

theorem Outcome.of_some {c : DbgCall ι} {lib : DbgLib ι} (hsane : s.Sane c)
    (hexec : s.exec c = some lib) (hinv : DbgInv ⟨lib, s.track c⟩) : s.Outcome c :=
  .inl ⟨hsane, ⟨lib, s.track c⟩, congrArg (Option.map _) hexec, hinv⟩

theorem Outcome.of_none {c : DbgCall ι} (hsane : ¬ s.Sane c) (hexec : s.exec c = none) :
    s.Outcome c :=
  .inr ⟨hsane, congrArg (Option.map _) hexec⟩

theorem DbgInv.callOpen (h : DbgInv s) (dbg : DbgPtr ι) (path text : String) :
    s.Outcome (.callOpen dbg path text) := by
  have hexec : ∀ n lib, (DbgSys.afterOpen s.lib dbg path).ckDbgPrint dbg .inf text
      = some (n, lib) → s.exec (.callOpen dbg path text) = some lib := by
    intro n lib hprint
    rw [exec, ckDbgOpen_eq, hprint]
    rfl
  have hlevel : ((DbgSys.afterOpen s.lib dbg path).mem dbg).level.toNat
      ≤ CkDbgLevel.inf.toNat := by
    rw [afterOpen_mem_self]
    exact Nat.le_succ 1
  cases dbg with
  | default =>
    obtain ⟨hout, herr⟩ : (DbgSys.afterOpen s.lib .default path).Live .stdout
        ∧ (DbgSys.afterOpen s.lib .default path).Live .stderr := live_std_of h.std.1 h.std.2
    obtain ⟨f, hprint⟩ := ckDbgPrint_default hlevel hout herr text
    refine .of_some trivial (hexec _ _ hprint) (h.of_handles (fun g => ?_) ?_ ?_ ?_ rfl)
    · have hne : DbgPtr.handle g ≠ .default := fun hc => nomatch hc
      show ((DbgSys.afterOpen s.lib .default path).setFp .default none).mem (.handle g) = _
      rw [DbgLib.setFp_mem_of_ne _ hne, afterOpen_mem_of_ne _ hne]
    · exact DbgLib.setFp_fp ..
    · show ((DbgLib.setFp _ .default none).mem .default).level.toNat ≤ 1
      rw [DbgLib.setFp_level, afterOpen_mem_self]
      exact le_rfl
    · show s.lib.files.length ≤ (s.lib.files ++ [(path, "a")]).length
      rw [List.length_append]
      exact Nat.le_add_right _ _
  | handle g =>
    have hinv := h.afterOpen g path
    have hlive : (DbgSys.afterOpen s.lib (.handle g) path).Live (.file s.lib.files.length) := by
      obtain ⟨f, hf, hlive⟩ := (hinv.stream g).live_iff.mpr (Function.update_self ..)
      rw [afterOpen_mem_self] at hf
      exact Option.some.inj hf ▸ hlive
    have hprint := ckDbgPrint_handle hlevel text
    rw [afterOpen_mem_self, DbgLib.vfprintf, if_pos hlive] at hprint
    exact .of_some trivial (hexec _ _ hprint)
      (hinv.of_handles (fun _ => rfl) hinv.default_fp (hinv.level _) le_rfl rfl)

theorem DbgInv.callLog (h : DbgInv s) (kind : LogKind) (text : String) :
    s.Outcome (.callLog kind text) := by
  have hkind : 1 ≤ kind.level.toNat := by
    cases kind <;> decide
  cases hlog : s.lib.dbgLog with
  | none =>
    refine .of_none ?_ ?_
    · simp only [Sane, hlog, not_false_iff]
    · simp only [exec, DbgLib.log, hlog, Option.map_none]
  | some dbg =>
    have hexec : s.exec (.callLog kind text)
        = (s.lib.ckDbgPrint dbg kind.level text).map Prod.snd := by
      simp only [exec, DbgLib.log, hlog]
    have hlevel := (h.level dbg).trans hkind
    cases dbg with
    | default =>
      obtain ⟨f, hprint⟩ := ckDbgPrint_default hlevel h.live_std.1 h.live_std.2 text
      rw [hprint] at hexec
      refine .of_some ?_ hexec (h.of_handles (fun g => ?_) ?_ ?_ le_rfl rfl)
      · simp only [Sane, hlog]
      · have hne : DbgPtr.handle g ≠ .default := fun hc => nomatch hc
        exact DbgLib.setFp_mem_of_ne s.lib hne none
      · exact DbgLib.setFp_fp ..
      · exact (congrArg CkDbgLevel.toNat (DbgLib.setFp_level ..)).trans_le (h.level _)
    | handle g =>
      have hsane : s.Sane (.callLog kind text) ↔ s.status g = .opened := by
        simp only [Sane, hlog]
      rw [ckDbgPrint_handle hlevel] at hexec
      rcases h.stream_cases g with ⟨hst, n, hn, hlive⟩ | ⟨hst, hdead⟩
      · rw [hn, DbgLib.vfprintf, if_pos hlive] at hexec
        exact .of_some (hsane.mpr hst) hexec
          (h.of_handles (fun _ => rfl) h.default_fp (h.level _) le_rfl rfl)
      · rw [(not_live hdead text).1] at hexec
        exact .of_none (fun hc => hst (hsane.mp hc)) hexec

/-- Closing a handle that is open closes its stream; another handle cannot be closed. -/
theorem DbgInv.close_cases (h : DbgInv s) (g : ι) (dbgLog : Option (DbgPtr ι)) :
    (s.status g = .opened ∧ ∃ lib, s.lib.ckLogClose (s.lib.mem (.handle g)).log = some lib
        ∧ lib.dbgLog = s.lib.dbgLog
        ∧ DbgInv ⟨{ lib with dbgLog := dbgLog }, Function.update s.status g .closed⟩) ∨
      (s.status g ≠ .opened ∧ s.lib.ckLogClose (s.lib.mem (.handle g)).log = none) := by
  rcases h.stream_cases g with ⟨hst, n, hn, hlive⟩ | ⟨hst, hdead⟩
  · refine .inl ⟨hst, { s.lib with closed := .file n :: s.lib.closed }, ?_, rfl,
      h.afterClose hn (hlive.2 n rfl) dbgLog⟩
    rw [DbgLib.ckLogClose, hn]
    exact if_pos hlive
  · exact .inr ⟨hst, (not_live hdead "").2⟩

/-- What `ck_dbg_close` does with a handle. -/
theorem ckDbgClose_some (lib : DbgLib ι) (dbg : DbgPtr ι) :
    lib.ckDbgClose (some dbg)
      = (if some dbg ≠ some .default then lib.ckLogClose (lib.mem dbg).log else some lib).map
        fun lib => { lib with dbgLog := if some dbg = lib.dbgLog then none else lib.dbgLog } := by
  have hset : ∀ lib : DbgLib ι,
      (if some dbg = lib.dbgLog then { lib with dbgLog := none } else lib)
        = { lib with dbgLog := if some dbg = lib.dbgLog then none else lib.dbgLog } := by
    intro lib
    split <;> rfl
  simp only [DbgLib.ckDbgClose, hset, Option.map_eq_bind]
  split <;> rfl

theorem DbgInv.callClose (h : DbgInv s) (dbg : Option (DbgPtr ι)) :
    s.Outcome (.callClose dbg) := by
  have hsame : ∀ d, DbgInv ⟨{ s.lib with dbgLog := d }, s.status⟩ := fun _ =>
    h.of_handles (fun _ => rfl) h.default_fp (h.level _) le_rfl rfl
  match dbg with
  | some .default =>
    have hexec := ckDbgClose_some s.lib .default
    rw [if_neg (not_not_intro rfl), Option.map_some] at hexec
    exact .of_some trivial hexec (hsame _)
  | some (.handle g) =>
    have hexec := ckDbgClose_some s.lib (.handle g)
    rw [if_pos fun hc => nomatch hc] at hexec
    rcases h.close_cases g (if some (.handle g) = s.lib.dbgLog then none else s.lib.dbgLog) with
      ⟨hst, lib, hlib, hdl, hinv⟩ | ⟨hst, hnone⟩
    · rw [hlib, Option.map_some, hdl] at hexec
      exact .of_some hst hexec hinv
    · rw [hnone] at hexec
      exact .of_none hst hexec
  | none =>
    have hne : (none : Option (DbgPtr ι)) ≠ some .default := fun hc => nomatch hc
    cases hlog : s.lib.dbgLog with
    | none =>
      have hexec : s.exec (.callClose none) = some s.lib := by
        simp only [exec, DbgLib.ckDbgClose, hlog]
      have htrack : s.track (.callClose none) = s.status := by
        simp only [track, closes, hlog]
      refine .of_some ?_ hexec (htrack ▸ h)
      simp only [Sane, hlog]
    | some p =>
      have hexec : s.exec (.callClose none)
          = (s.lib.ckLogClose (s.lib.mem p).log).map fun lib => { lib with dbgLog := none } := by
        simp only [exec, DbgLib.ckDbgClose, hlog, if_pos hne, Option.map_eq_bind]
        rfl
      cases p with
      | default =>
        refine .of_none ?_ ?_
        · simp only [Sane, hlog, not_false_iff]
        · rw [hexec, DbgLib.ckLogClose, h.default_fp]
          rfl
      | handle g =>
        have hsane : s.Sane (.callClose none) ↔ s.status g = .opened := by
          simp only [Sane, hlog]
        have htrack : s.track (.callClose none) = Function.update s.status g .closed := by
          simp only [track, closes, hlog]
        rcases h.close_cases g none with ⟨hst, lib, hlib, -, hinv⟩ | ⟨hst, hnone⟩
        · rw [hlib] at hexec
          exact .of_some (hsane.mpr hst) hexec (htrack ▸ hinv)
        · rw [hnone] at hexec
          exact .of_none (fun hc => hst (hsane.mp hc)) hexec

/-- **Every call is as it should be**, while the calls before kept the invariant. -/
theorem DbgInv.outcome (h : DbgInv s) (c : DbgCall ι) : s.Outcome c := by
  cases c with
  | callOpen dbg path text => exact h.callOpen dbg path text
  | callSetDefaultLog dbg =>
    exact .of_some trivial rfl
      (h.of_handles (fun _ => rfl) h.default_fp (h.level _) le_rfl rfl)
  | callClose dbg => exact h.callClose dbg
  | callLog kind text => exact h.callLog kind text

theorem DbgInv.returns_iff (h : DbgInv s) (c : DbgCall ι) : s.Returns c ↔ s.Sane c := by
  rcases h.outcome c with ⟨hsane, s', hs', -⟩ | ⟨hsane, hnone⟩
  · exact iff_of_true ⟨s', hs'⟩ hsane
  · refine iff_of_false ?_ hsane
    rintro ⟨s', hs'⟩
    exact nomatch hnone.symm.trans hs'

theorem DbgInv.step (h : DbgInv s) {c : DbgCall ι} (hs' : s.step c = some s') : DbgInv s' := by
  rcases h.outcome c with ⟨-, t, ht, hinv⟩ | ⟨-, hnone⟩
  · exact Option.some.inj (ht.symm.trans hs') ▸ hinv
  · exact nomatch hnone.symm.trans hs'

/-- A call leaves no handle closed where it closes none. -/
theorem step_closed_iff (hnone : ∀ g, s.status g ≠ .closed) {c : DbgCall ι}
    (hs' : s.step c = some s') : (∀ g, s'.status g ≠ .closed) ↔ s.closes c = none := by
  obtain ⟨lib, -, rfl⟩ := Option.map_eq_some_iff.mp hs'
  show (∀ g, s.track c g ≠ .closed) ↔ _
  have hcloses : ∀ h, s.closes c = some h → s.track c = Function.update s.status h .closed := by
    intro h hh
    unfold track
    rw [hh]
    cases c with
    | callOpen dbg path text => exact nomatch hh
    | callSetDefaultLog _ | callClose _ | callLog _ _ => rfl
  have hkeeps : s.closes c = none → ∀ g, s.track c g = s.status g ∨ s.track c g = .opened := by
    intro hh g
    unfold track
    rw [hh]
    cases c with
    | callOpen dbg path text =>
      cases dbg with
      | default => exact .inl rfl
      | handle k =>
        by_cases hg : g = k
        · exact .inr (hg ▸ Function.update_self ..)
        · exact .inl (Function.update_of_ne hg ..)
    | callSetDefaultLog _ | callClose _ | callLog _ _ => exact .inl rfl
  cases hc : s.closes c with
  | none =>
    refine iff_of_true (fun g => ?_) rfl
    rcases hkeeps hc g with hg | hg
    · exact hg ▸ hnone g
    · rw [hg]
      decide
  | some h =>
    refine iff_of_false (fun hall => hall h ?_) (fun hn => nomatch hn)
    rw [hcloses h hc, Function.update_self]

/-- **When `ck_dbg_is_open` stays right.** -/
theorem DbgInv.right_iff (h : DbgInv s) (hnone : ∀ g, s.status g ≠ .closed) (c : DbgCall ι) :
    s.Right c ↔ s.Lasting c := by
  constructor
  · rintro ⟨s', hs', htells⟩
    refine ⟨(h.returns_iff c).mp ⟨s', hs'⟩, ?_⟩
    exact (step_closed_iff hnone hs').mp ((h.step hs').tellsOpen_iff.mp htells)
  · rintro ⟨hsane, hc⟩
    obtain ⟨s', hs'⟩ := (h.returns_iff c).mpr hsane
    exact ⟨s', hs', (h.step hs').tellsOpen_iff.mpr ((step_closed_iff hnone hs').mpr hc)⟩

/-! ## The life cycle -/

/-- **When every call returns.** In a run from the start, no call closes or prints to a
stream that is `NULL` or closed or goes through a `dbg_log` that is `NULL` exactly when every
call is sane in the state it is made in. -/
theorem dbg_log_safe (calls : List (DbgCall ι)) :
    Meets step Returns start calls ↔ Meets step Sane start calls :=
  Run.meets_iff_meets (fun _ c h => h.returns_iff c) (fun _ _ _ h _ hs' => h.step hs')
    dbgInv_start

/-- **The life cycle of the debug logs.** In a run from the start, every call returns and
leaves `ck_dbg_is_open` right exactly when no call closes a handle, `NULL` is not closed
while `dbg_log` is `default_dbg`, and every print finds `dbg_log` at `default_dbg` or at a
handle that has been opened. -/
theorem dbg_log_life (calls : List (DbgCall ι)) :
    Meets step Right start calls ↔ Meets step Lasting start calls := by
  have hiff : ∀ (s : DbgSys ι) (c : DbgCall ι),
      (DbgInv s ∧ ∀ g, s.status g ≠ .closed) → (s.Right c ↔ s.Lasting c) :=
    fun s c h => h.1.right_iff h.2 c
  refine Run.meets_iff_meets hiff ?_ ⟨dbgInv_start, fun _ hc => nomatch hc⟩
  rintro s c s' ⟨hinv, hnone⟩ hright hs'
  have hc := ((hinv.right_iff hnone c).mp hright).2
  exact ⟨hinv.step hs', (step_closed_iff hnone hs').mpr hc⟩

/-- **A log that is closed**: it still looks open, `dbg_log` is `NULL`, and the next print has
no outcome. Nor has a call that closes `NULL` before anything is opened. -/
theorem dbg_log_closed :
    let before : List (DbgCall Unit) := [.callOpen (.handle ()) "ckit.log" "Log start",
      .callSetDefaultLog (some (.handle ())), .callClose (some (.handle ()))]
    (∃ s, run step start before = some s ∧ s.status () = .closed
        ∧ s.lib.ckDbgIsOpen (.handle ()) = true ∧ s.lib.dbgLog = none
        ∧ s.step (.callLog .inf "hello") = none)
      ∧ (start : DbgSys Unit).step (.callClose none) = none
      ∧ ¬ Meets step Right start (before ++ [.callLog .inf "hello"]) := by
  refine ⟨⟨_, rfl, rfl, rfl, rfl, rfl⟩, rfl, ?_⟩
  rintro ⟨-, hopen⟩
  obtain ⟨-, hset⟩ := hopen _ rfl
  obtain ⟨-, hclose⟩ := hset _ rfl
  obtain ⟨⟨s', hs', -⟩, -⟩ := hclose _ rfl
  exact nomatch hs'

end DbgSys
