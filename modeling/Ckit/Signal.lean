import Mathlib.Logic.Function.Basic
import Ckit.Run

/-!
# Signals over a pipe

A `struct signal` is a pipe whose read end does not block. Raising the signal
writes an `int` into the pipe unless something is in it already, and waiting
reads one, polling while there is nothing; clearing reads until there is nothing
left. The pipe is a queue of `int`s, read and written one `int` at a time.

The state below is the pipe, the counter of waiting threads and what each thread
is doing, down to the single system call: a thread that runs one of the
functions is between two of its accesses to the pipe. `now` counts the steps
taken, and `returned` and `woken` keep the history a property of whole runs is
read off: when each raise that has returned began, and when a wait returned `1`.

`signal_wait_val` drains the pipe on its way out, also after a poll that timed
out. A raise that writes between the two is read by nobody: the wait returns `0`.
`signal_not_lost_run` says that this is the only way to lose one.
-/

/-- What a thread is doing: nothing, or which access of which function comes
next. A raise remembers when it began. -/
inductive SigPc where
  | idle
  /-- `signal_raise_val`, before the poll of `signal_is_raised`. -/
  | raisePoll (val : ℤ) (began : ℕ)
  /-- `signal_raise_val`, before its `write`. -/
  | raiseWrite (val : ℤ) (began : ℕ)
  /-- `signal_wait_val`, before the `read` of its loop. -/
  | waitRead (timeout : ℤ) (ret : ℤ)
  /-- `signal_wait_val`, before its `poll`. -/
  | waitPoll (timeout : ℤ)
  /-- `signal_wait_val`, before a `read` of `signal_clear`, with the value it
  will return and the `int` it has read. -/
  | waitClear (ret : ℤ) (val : Option ℤ)
  /-- `signal_wait_val`, about to return. -/
  | waitDone (ret : ℤ) (val : Option ℤ)
  /-- `signal_clear`, before a `read`. -/
  | clearRead
deriving DecidableEq, Repr

/-- A signal, and the threads that use it. -/
structure SigState (τ : Type) where
  pipe : List ℤ
  waiting : ℤ
  pc : τ → SigPc
  /-- The number of steps taken. -/
  now : ℕ
  /-- When each raise that has returned began. -/
  returned : List ℕ
  /-- When a wait returned `1`. -/
  woken : List ℕ

/-- A signal from `signal_init`, with no call in progress. -/
def signalInit (τ : Type) : SigState τ := ⟨[], 0, fun _ => .idle, 0, [], []⟩

/-- A step of the system: a thread calls one of the functions, or makes its next
access. A poll takes the outcome it reports from the event. -/
inductive SigEvent (τ : Type) where
  | callRaise (i : τ) (val : ℤ)
  | callWait (i : τ) (timeout : ℤ)
  | callClear (i : τ)
  | access (i : τ) (timedOut : Bool)
deriving DecidableEq, Repr

namespace SigState

variable {τ : Type} [DecidableEq τ]

/-- Thread `i` goes on to `pc`, and a step has been taken. -/
def goto (s : SigState τ) (i : τ) (pc : SigPc) : SigState τ :=
  { s with pc := Function.update s.pc i pc, now := s.now + 1 }

/-- **The next access of thread `i`.** A poll reports a timeout only where the
pipe is empty and the timeout is not infinite, and readiness only where the pipe
is not empty. -/
def access (s : SigState τ) (i : τ) (timedOut : Bool) : Option (SigState τ) :=
  match s.pc i with
  | .idle => none
  | .raisePoll val began =>
    if s.pipe = [] then some (s.goto i (.raiseWrite val began))
    else some { s.goto i .idle with returned := began :: s.returned }
  | .raiseWrite val began =>
    some { s.goto i .idle with pipe := s.pipe ++ [val], returned := began :: s.returned }
  | .waitRead timeout _ =>
    match s.pipe with
    | [] => some (s.goto i (.waitPoll timeout))
    | val :: rest => some { s.goto i (.waitClear 1 (some val)) with pipe := rest }
  | .waitPoll timeout =>
    if timedOut then
      if s.pipe = [] ∧ 0 ≤ timeout then some (s.goto i (.waitClear 0 none)) else none
    else
      if s.pipe = [] then none else some (s.goto i (.waitRead timeout 1))
  | .waitClear ret val =>
    match s.pipe with
    | [] => some (s.goto i (.waitDone ret val))
    | _ :: rest => some { s.goto i (.waitClear ret val) with pipe := rest }
  | .waitDone ret _ =>
    some { s.goto i .idle with
      waiting := s.waiting - 1
      woken := if ret = 1 then s.now :: s.woken else s.woken }
  | .clearRead =>
    match s.pipe with
    | [] => some (s.goto i .idle)
    | _ :: rest => some { s.goto i .clearRead with pipe := rest }

/-- One step of the system. -/
def step (s : SigState τ) : SigEvent τ → Option (SigState τ)
  | .callRaise i val => if s.pc i = .idle then some (s.goto i (.raisePoll val s.now)) else none
  | .callWait i timeout =>
    if s.pc i = .idle then
      some { s.goto i (.waitRead timeout 0) with waiting := s.waiting + 1 }
    else none
  | .callClear i => if s.pc i = .idle then some (s.goto i .clearRead) else none
  | .access i timedOut => s.access i timedOut

/-- **Everything an access of thread `i` can do**, by where the thread is. -/
inductive Moves (s : SigState τ) (i : τ) (timedOut : Bool) : SigPc → SigState τ → Prop
  | raisePoll {val : ℤ} {began : ℕ} (h : s.pipe = []) :
      Moves s i timedOut (.raisePoll val began) (s.goto i (.raiseWrite val began))
  | raiseSeen {val : ℤ} {began : ℕ} (h : s.pipe ≠ []) :
      Moves s i timedOut (.raisePoll val began)
        { s.goto i .idle with returned := began :: s.returned }
  | raiseWrite {val : ℤ} {began : ℕ} :
      Moves s i timedOut (.raiseWrite val began)
        { s.goto i .idle with pipe := s.pipe ++ [val], returned := began :: s.returned }
  | waitEmpty {timeout ret : ℤ} (h : s.pipe = []) :
      Moves s i timedOut (.waitRead timeout ret) (s.goto i (.waitPoll timeout))
  | waitRead {timeout ret val : ℤ} {rest : List ℤ} (h : s.pipe = val :: rest) :
      Moves s i timedOut (.waitRead timeout ret)
        { s.goto i (.waitClear 1 (some val)) with pipe := rest }
  | pollTimeout {timeout : ℤ} (htimed : timedOut = true) (h : s.pipe = [])
      (hfinite : 0 ≤ timeout) :
      Moves s i timedOut (.waitPoll timeout) (s.goto i (.waitClear 0 none))
  | pollReady {timeout : ℤ} (htimed : timedOut = false) (h : s.pipe ≠ []) :
      Moves s i timedOut (.waitPoll timeout) (s.goto i (.waitRead timeout 1))
  | drained {ret : ℤ} {val : Option ℤ} (h : s.pipe = []) :
      Moves s i timedOut (.waitClear ret val) (s.goto i (.waitDone ret val))
  | drain {ret : ℤ} {val : Option ℤ} {v : ℤ} {rest : List ℤ} (h : s.pipe = v :: rest) :
      Moves s i timedOut (.waitClear ret val)
        { s.goto i (.waitClear ret val) with pipe := rest }
  | waitDone {ret : ℤ} {val : Option ℤ} :
      Moves s i timedOut (.waitDone ret val)
        { s.goto i .idle with
          waiting := s.waiting - 1
          woken := if ret = 1 then s.now :: s.woken else s.woken }
  | cleared (h : s.pipe = []) : Moves s i timedOut .clearRead (s.goto i .idle)
  | clearRead {v : ℤ} {rest : List ℤ} (h : s.pipe = v :: rest) :
      Moves s i timedOut .clearRead { s.goto i .clearRead with pipe := rest }

theorem access_moves {s s' : SigState τ} {i : τ} {timedOut : Bool}
    (hstep : s.access i timedOut = some s') : s.Moves i timedOut (s.pc i) s' := by
  unfold access at hstep
  generalize s.pc i = pc at hstep ⊢
  cases pc with
  | idle => exact nomatch hstep
  | raisePoll =>
    dsimp only at hstep
    split at hstep
    · obtain rfl := Option.some.inj hstep
      exact .raisePoll ‹_›
    · obtain rfl := Option.some.inj hstep
      exact .raiseSeen ‹_›
  | raiseWrite | waitDone =>
    obtain rfl := Option.some.inj hstep
    constructor
  | waitRead | waitClear | clearRead =>
    dsimp only at hstep
    split at hstep
    · obtain rfl := Option.some.inj hstep
      constructor
      assumption
    · obtain rfl := Option.some.inj hstep
      constructor
      assumption
  | waitPoll =>
    dsimp only at hstep
    split at hstep
    · obtain ⟨⟨hempty, hfinite⟩, hstep⟩ := Option.ite_none_right_eq_some.mp hstep
      obtain rfl := Option.some.inj hstep
      exact .pollTimeout ‹_› hempty hfinite
    · rename_i htimed
      split at hstep
      · exact nomatch hstep
      · obtain rfl := Option.some.inj hstep
        exact .pollReady (Bool.eq_false_of_not_eq_true htimed) ‹_›

end SigState

namespace SigPc

/-- The thread is inside `signal_wait_val`. -/
def inWait : SigPc → Bool
  | .waitRead _ _ | .waitPoll _ | .waitClear _ _ | .waitDone _ _ => true
  | _ => false

/-- The thread is inside a function that reads from the pipe. -/
def reads (pc : SigPc) : Bool := pc.inWait || pc == .clearRead

/-- The thread is on its way to return `1` from `signal_wait_val`. -/
def waking : SigPc → Bool
  | .waitClear ret _ | .waitDone ret _ => ret == 1
  | _ => false

/-- The thread drains the pipe after a poll that timed out. -/
def expiring : SigPc → Bool
  | .waitClear ret _ => ret != 1
  | _ => false

/-- When the raise the thread is making began. -/
def began : SigPc → Option ℕ
  | .raisePoll _ b | .raiseWrite _ b => some b
  | _ => none

end SigPc

namespace SigState

variable {τ : Type}

/-- **No raise is lost**: each one that has returned is followed by a wait that
returned `1` after it began. -/
def Delivered (s : SigState τ) : Prop := ∀ b ∈ s.returned, ∃ t ∈ s.woken, b < t

/-- Only thread `w` waits, and nobody else takes from the pipe. -/
def OneWaiter (w : τ) : SigEvent τ → Prop
  | .callWait i _ => i = w
  | .callClear _ => False
  | _ => True

/-- **The step does not write into the drain of a wait that has timed out.** -/
def QuietDrain (w : τ) (s : SigState τ) : SigEvent τ → Prop
  | .access i _ =>
    match s.pc i with
    | .raiseWrite _ _ => (s.pc w).expiring = false
    | _ => True
  | _ => True

instance (w : τ) [DecidableEq τ] : ∀ e, Decidable (OneWaiter w e)
  | .callWait i _ => inferInstanceAs (Decidable (i = w))
  | .callClear _ => .isFalse not_false
  | .callRaise _ _ | .access _ _ => .isTrue trivial

instance (w : τ) (s : SigState τ) : ∀ e, Decidable (QuietDrain w s e)
  | .access i t => by
    unfold QuietDrain
    dsimp only
    cases s.pc i <;> dsimp only <;> infer_instance
  | .callRaise _ _ | .callWait _ _ | .callClear _ => .isTrue trivial

/-- What a run keeps, with `w` the thread that waits: it alone reads, it finds
the pipe empty while it drains after a timeout, and each raise that has returned
has been delivered, or is in the pipe, or was read by the wait in progress. -/
structure SignalInv (w : τ) (s : SigState τ) : Prop where
  solo : ∀ i, i ≠ w → (s.pc i).reads = false
  noClear : s.pc w ≠ .clearRead
  quiet : (s.pc w).expiring = true → s.pipe = []
  begun : ∀ i b, (s.pc i).began = some b → b < s.now
  past : ∀ b ∈ s.returned, b < s.now
  kept : ∀ b ∈ s.returned,
    (∃ t ∈ s.woken, b < t) ∨ s.pipe ≠ [] ∨ (s.pc w).waking = true

theorem signalInv_init (w : τ) : SignalInv w (signalInit τ) where
  solo _ _ := rfl
  noClear := SigPc.noConfusion
  quiet _ := rfl
  begun _ _ h := nomatch h
  past _ h := absurd h List.not_mem_nil
  kept _ h := absurd h List.not_mem_nil

variable [DecidableEq τ] {w : τ} {s s' : SigState τ}

@[simp] theorem goto_pc_self (s : SigState τ) (i : τ) (pc : SigPc) : (s.goto i pc).pc i = pc :=
  Function.update_self ..

theorem goto_pc_of_ne (s : SigState τ) {i j : τ} (pc : SigPc) (h : j ≠ i) :
    (s.goto i pc).pc j = s.pc j :=
  Function.update_of_ne h _ _

/-- **The rule for one step.** A thread goes on to `pc`, the pipe and the
histories changing as they may: nobody but `w` starts reading, a raise keeps the
time it began at, and what has returned is accounted for. -/
theorem SignalInv.goto {i : τ} {pc : SigPc} {pipe : List ℤ} {returned woken : List ℕ}
    {waiting : ℤ} (hs : SignalInv w s)
    (hsolo : i ≠ w → pc.reads = false) (hclear : pc ≠ .clearRead)
    (hquiet : ((s.goto i pc).pc w).expiring = true → pipe = [])
    (hbegan : ∀ b, pc.began = some b → b < s.now + 1)
    (hpast : ∀ b ∈ returned, b < s.now + 1)
    (hkept : ∀ b ∈ returned,
      (∃ t ∈ woken, b < t) ∨ pipe ≠ [] ∨ ((s.goto i pc).pc w).waking = true) :
    SignalInv w { s.goto i pc with
      pipe := pipe, waiting := waiting, returned := returned, woken := woken } := by
  refine ⟨fun j hj => ?_, ?_, hquiet, fun j b hb => ?_, hpast, hkept⟩
  · by_cases hji : j = i
    · subst hji
      show ((s.goto j pc).pc j).reads = false
      rw [goto_pc_self]
      exact hsolo hj
    · show ((s.goto i pc).pc j).reads = false
      rw [goto_pc_of_ne _ _ hji]
      exact hs.solo j hj
  · show (s.goto i pc).pc w ≠ .clearRead
    by_cases hwi : w = i
    · subst hwi
      rw [goto_pc_self]
      exact hclear
    · rw [goto_pc_of_ne _ _ hwi]
      exact hs.noClear
  · replace hb : ((s.goto i pc).pc j).began = some b := hb
    show b < s.now + 1
    by_cases hji : j = i
    · subst hji
      rw [goto_pc_self] at hb
      exact hbegan b hb
    · rw [goto_pc_of_ne _ _ hji] at hb
      exact (hs.begun j b hb).trans (Nat.lt_succ_self _)

/-- A thread that does not read leaves the reader where it is. -/
theorem pc_waiter {i : τ} (pc : SigPc)
    (hnew : pc.waking = false ∧ pc.expiring = false)
    (hold : i = w → (s.pc i).waking = false ∧ (s.pc i).expiring = false) :
    ((s.goto i pc).pc w).waking = (s.pc w).waking
      ∧ ((s.goto i pc).pc w).expiring = (s.pc w).expiring := by
  by_cases hwi : w = i
  · subst hwi
    rw [goto_pc_self, hnew.1, hnew.2, (hold rfl).1, (hold rfl).2]
    exact ⟨rfl, rfl⟩
  · rw [goto_pc_of_ne _ _ hwi]
    exact ⟨rfl, rfl⟩

/-- The access of a thread that raises the signal. -/
theorem signalInv_raise (hs : SignalInv w s) {i : τ} {b : ℕ} {timedOut : Bool}
    (hb : (s.pc i).began = some b) (hcond : QuietDrain w s (.access i timedOut))
    (hstep : s.access i timedOut = some s') : SignalInv w s' := by
  have hbnow := hs.begun i b hb
  have hpast : ∀ c ∈ b :: s.returned, c < s.now + 1 := by
    intro c hc
    rcases List.mem_cons.mp hc with rfl | hc
    · exact hbnow.trans (Nat.lt_succ_self _)
    · exact (hs.past c hc).trans (Nat.lt_succ_self _)
  have hpast' : ∀ c ∈ s.returned, c < s.now + 1 := fun c hc =>
    hpast c (List.mem_cons_of_mem _ hc)
  have hmove := access_moves hstep
  have hwaiter : ∀ pc : SigPc, pc.waking = false ∧ pc.expiring = false →
      ((s.goto i pc).pc w).waking = (s.pc w).waking
        ∧ ((s.goto i pc).pc w).expiring = (s.pc w).expiring := by
    refine fun pc hnew => pc_waiter pc hnew fun _ => ?_
    cases hpc : s.pc i with
    | raisePoll | raiseWrite => exact ⟨rfl, rfl⟩
    | _ =>
      rw [hpc] at hb
      exact nomatch hb
  unfold QuietDrain at hcond
  dsimp only at hcond
  generalize s.pc i = pc at hb hcond hmove
  cases hmove with
  | @raisePoll val began =>
    -- nothing is in the pipe: the raise goes on to its write
    obtain rfl : began = b := Option.some.inj hb
    obtain ⟨hwak, hexp⟩ := hwaiter (.raiseWrite val began) ⟨rfl, rfl⟩
    refine hs.goto (fun _ => rfl) SigPc.noConfusion (fun h => hs.quiet (hexp ▸ h))
      (fun c hc => ?_) hpast' fun c hc => hwak ▸ hs.kept c hc
    obtain rfl : began = c := Option.some.inj hc
    exact hbnow.trans (Nat.lt_succ_self _)
  | @raiseSeen val began hpipe =>
    obtain rfl : began = b := Option.some.inj hb
    obtain ⟨-, hexp⟩ := hwaiter .idle ⟨rfl, rfl⟩
    exact hs.goto (fun _ => rfl) SigPc.noConfusion (fun h => hs.quiet (hexp ▸ h))
      (fun c hc => nomatch hc) hpast fun c _ => Or.inr (Or.inl hpipe)
  | @raiseWrite val began =>
    obtain rfl : began = b := Option.some.inj hb
    obtain ⟨-, hexp⟩ := hwaiter .idle ⟨rfl, rfl⟩
    refine hs.goto (fun _ => rfl) SigPc.noConfusion (fun h => ?_)
      (fun c hc => nomatch hc) hpast fun c _ => Or.inr (Or.inl ?_)
    · rw [hexp, hcond] at h
      exact Bool.noConfusion h
    · exact List.append_ne_nil_of_right_ne_nil _ (List.cons_ne_nil _ _)
  | _ => exact nomatch hb

/-- The rule for one step of the thread that waits: where it was on its way to return `1` it
still is, or has returned, and it drains nothing after a timeout. -/
theorem SignalInv.wait {pc : SigPc} {pipe : List ℤ} {woken : List ℕ} {waiting : ℤ}
    (hs : SignalInv w s) (hclear : pc ≠ .clearRead) (hbegan : pc.began = none)
    (hquiet : pc.expiring = true → pipe = [])
    (hkept : ∀ b ∈ s.returned, (∃ t ∈ woken, b < t) ∨ pipe ≠ [] ∨ pc.waking = true) :
    SignalInv w { s.goto w pc with pipe := pipe, waiting := waiting, woken := woken } := by
  have hself : (s.goto w pc).pc w = pc := goto_pc_self ..
  refine hs.goto (fun h => absurd rfl h) hclear (fun h => hquiet (hself ▸ h))
    (fun c hc => nomatch hbegan.symm.trans hc)
    (fun c hc => (hs.past c hc).trans (Nat.lt_succ_self _)) ?_
  rw [hself]
  exact hkept

/-- The access of the thread that waits. -/
theorem signalInv_wait (hs : SignalInv w s) {timedOut : Bool} (hw : (s.pc w).inWait = true)
    (hstep : s.access w timedOut = some s') : SignalInv w s' := by
  have hkept := hs.kept
  have hquiet := hs.quiet
  have hmove := access_moves hstep
  generalize s.pc w = pc at hw hkept hquiet hmove
  -- nothing has been read so far: what has returned has been delivered or is in the pipe
  have hpiped : pc.waking = false → ∀ b ∈ s.returned,
      (∃ t ∈ s.woken, b < t) ∨ s.pipe ≠ [] := by
    intro hwak b hb
    refine (hkept b hb).imp_right fun h => h.resolve_right fun htrue => ?_
    exact Bool.noConfusion (hwak.symm.trans htrue)
  cases hmove with
  | waitEmpty h => exact hs.wait SigPc.noConfusion rfl (fun _ => h) hkept
  | waitRead =>
    exact hs.wait SigPc.noConfusion rfl (fun h => Bool.noConfusion h)
      fun _ _ => Or.inr (Or.inr rfl)
  | pollTimeout _ h =>
    exact hs.wait SigPc.noConfusion rfl (fun _ => h)
      fun b hb => (hpiped rfl b hb).imp_right Or.inl
  | pollReady =>
    exact hs.wait SigPc.noConfusion rfl (fun h => Bool.noConfusion h)
      fun b hb => (hpiped rfl b hb).imp_right Or.inl
  | drained h => exact hs.wait SigPc.noConfusion rfl (fun _ => h) hkept
  | @drain ret val v rest h =>
    -- only a wait that will return `1` finds something to drain
    have hret : SigPc.expiring (.waitClear ret val) = false := by
      by_contra hexp
      exact List.cons_ne_nil v rest (h ▸ hquiet (Bool.eq_true_of_not_eq_false hexp))
    refine hs.wait SigPc.noConfusion rfl (fun h => ?_) fun _ _ => Or.inr (Or.inr ?_)
    · exact Bool.noConfusion (hret.symm.trans h)
    · exact Bool.not_eq_eq_eq_not.mp hret
  | @waitDone ret val =>
    refine hs.wait SigPc.noConfusion rfl (fun h => Bool.noConfusion h) fun b hb => ?_
    by_cases hret : ret = 1
    · -- everything that has returned began before this return
      rw [if_pos hret]
      exact Or.inl ⟨s.now, List.mem_cons_self, hs.past b hb⟩
    · rw [if_neg hret]
      exact (hpiped (beq_false_of_ne hret) b hb).imp_right Or.inl
  | _ => exact Bool.noConfusion hw

theorem signalInv_step (hs : SignalInv w s) {e : SigEvent τ} (he : OneWaiter w e)
    (hcond : QuietDrain w s e) (hstep : s.step e = some s') : SignalInv w s' := by
  have hpast : ∀ c ∈ s.returned, c < s.now + 1 := fun c hc =>
    (hs.past c hc).trans (Nat.lt_succ_self _)
  cases e with
  | callRaise i val =>
    obtain ⟨hidle, hstep⟩ := Option.ite_none_right_eq_some.mp hstep
    obtain rfl := Option.some.inj hstep
    obtain ⟨hwak, hexp⟩ := pc_waiter (w := w) (.raisePoll val s.now) ⟨rfl, rfl⟩
      (fun _ => by rw [hidle]; exact ⟨rfl, rfl⟩)
    refine hs.goto (fun _ => rfl) SigPc.noConfusion (fun h => hs.quiet (hexp ▸ h))
      (fun c hc => ?_) hpast fun c hc => hwak ▸ hs.kept c hc
    obtain rfl : s.now = c := Option.some.inj hc
    exact Nat.lt_succ_self _
  | callWait i timeout =>
    obtain ⟨hidle, hstep⟩ := Option.ite_none_right_eq_some.mp hstep
    obtain rfl := Option.some.inj hstep
    obtain ⟨hwak, hexp⟩ := pc_waiter (w := w) (.waitRead timeout 0) ⟨rfl, rfl⟩
      (fun _ => by rw [hidle]; exact ⟨rfl, rfl⟩)
    exact hs.goto (fun h => absurd he h) SigPc.noConfusion (fun h => hs.quiet (hexp ▸ h))
      (fun c hc => nomatch hc) hpast fun c hc => hwak ▸ hs.kept c hc
  | callClear i => exact absurd he not_false
  | access i timedOut =>
    cases hb : (s.pc i).began with
    | some b => exact signalInv_raise hs hb hcond hstep
    | none =>
      have hreads : (s.pc i).inWait = true ∨ s.pc i = .clearRead := by
        have hmove : s.Moves i timedOut (s.pc i) s' := access_moves hstep
        generalize s.pc i = pc at hb hmove
        cases hmove with
        | raisePoll | raiseSeen | raiseWrite => exact nomatch hb
        | cleared | clearRead => exact Or.inr rfl
        | _ => exact Or.inl rfl
      have hwi : i = w := by
        by_contra hne
        have hno := hs.solo i hne
        unfold SigPc.reads at hno
        rcases hreads with h | h
        · rw [h] at hno
          exact Bool.noConfusion hno
        · rw [h] at hno
          exact Bool.noConfusion hno
      subst hwi
      exact signalInv_wait hs (hreads.resolve_right hs.noClear) hstep

/-- **No raise is lost in a run that leaves the drains quiet.** One thread waits,
any threads raise: where no write falls into the drain of a wait that has timed
out, in every state with an empty pipe and no wait in progress each raise that
has returned is followed by a wait that returned `1` after it began. -/
theorem signal_not_lost_run (w : τ) (es : List (SigEvent τ))
    (hone : ∀ e ∈ es, OneWaiter w e)
    (hquiet : Meets step (QuietDrain w) (signalInit τ) es) {s : SigState τ}
    (hrun : run step (signalInit τ) es = some s) (hempty : s.pipe = [])
    (hno : ∀ i, (s.pc i).inWait = false) : s.Delivered := by
  have hinv : SignalInv w s :=
    Run.inv_of_meets (fun _ _ _ hs hc hstep => signalInv_step hs hc.1 hc.2 hstep)
      (signalInv_init w) (Run.meets_and hone hquiet) hrun
  intro b hb
  refine (hinv.kept b hb).resolve_right fun h => ?_
  have hwak := h.resolve_left fun hp => hp hempty
  have hw := hno w
  cases hpc : s.pc w with
  | waitClear | waitDone => rw [hpc] at hw; exact Bool.noConfusion hw
  | _ => rw [hpc] at hwak; exact Bool.noConfusion hwak

/-- A raise, and a wait that is woken by it. -/
theorem signal_not_lost_run_woken :
    ∃ s, run step (signalInit Bool) [.callRaise false 5, .access false false,
        .access false false, .callWait true 10, .access true false, .access true false,
        .access true false] = some s ∧ s.Delivered := by
  refine ⟨_, rfl, signal_not_lost_run true [.callRaise false 5, .access false false,
    .access false false, .callWait true 10, .access true false, .access true false,
    .access true false] (by decide) (by decide) rfl rfl (by decide)⟩

/-- **A raise that is swallowed**: it writes between the poll of a wait that times
out and the drain of that wait, which reads the value away and returns `0`. -/
theorem signal_lost :
    ∃ s, run step (signalInit Bool) [.callWait true 0, .access true false,
        .access true true, .callRaise false 5, .access false false, .access false false,
        .access true false, .access true false, .access true false] = some s
      ∧ s.pipe = [] ∧ (∀ i, (s.pc i).inWait = false) ∧ ¬ s.Delivered := by
  refine ⟨_, rfl, rfl, by decide, fun hdel => ?_⟩
  obtain ⟨t, ht, -⟩ := hdel 3 (by decide)
  exact absurd ht List.not_mem_nil

end SigState
