import Ckit.Signal
import Ckit.TimerReport

/-!
# Clearing a signal

`signal_clear_val` reads `int`s off the pipe until there is none, and should say whether it
has read one and which was the last. `timer_queue_signal_lower` turns the two into a
`signal_result`: nothing was pending, or the queue is to exit, or it has been set, or there
was an error.

The loop goes on while `ret` is positive, and the function returns whether `ret` is positive
after the loop. So it returns `0` whatever it has read, and `timer_queue_signal_lower` takes
its branch for an empty pipe; `signal_wait_val` keeps what it returns in a variable of its
own. What was drained is reported right only where nothing was
(`signal_lower_reports_iff`).
-/

/-- What a `read` of one `int` leaves: its result, the `int` it was given the address of, and
the pipe. -/
structure ReadInt where
  ret : ℤ
  val : ℤ
  pipe : List ℤ
deriving DecidableEq, Repr

/-- `read` of `sizeof(int)` bytes from a pipe that does not block. -/
def readInt (pipe : List ℤ) (val : ℤ) : ReadInt :=
  match pipe with
  | [] => ⟨-1, val, []⟩
  | v :: rest => ⟨4, v, rest⟩

/-- The loop of `signal_clear_val`, from the variable `ret` on. -/
def clearLoop (ret val : ℤ) (pipe : List ℤ) : ReadInt :=
  if 0 < ret then
    clearLoop (readInt pipe val).ret (readInt pipe val).val (readInt pipe val).pipe
  else
    ⟨ret, val, pipe⟩
termination_by pipe.length + if 0 < ret then 1 else 0
decreasing_by
  cases pipe with
  | nil => simp [readInt, *]
  | cons v rest => simp [readInt, *]

/-- `signal_clear_val`: its return value, `*val` and the pipe. -/
def signalClearVal (pipe : List ℤ) (val : ℤ) : ReadInt :=
  let r := clearLoop 1 val pipe
  { r with ret := if 0 < r.ret then 1 else 0 }

/-- `signal_clear`, which has a `val` of its own on the stack. -/
def signalClear (pipe : List ℤ) (val : ℤ) : ℤ × List ℤ :=
  ((signalClearVal pipe val).ret, (signalClearVal pipe val).pipe)

/-- `enum signal_result`. -/
inductive SignalResult where
  | error
  | none
  | set
  | exit
deriving DecidableEq, Repr

namespace TimerQueue

variable {ι θ : Type}

/-- `timer_queue_signal_lower`, with its result. -/
def timerQueueSignalLowerResult (tq : TimerQueue ι θ) : SignalResult × TimerQueue ι θ :=
  let r := signalClearVal tq.pipe 0
  let result : SignalResult :=
    if r.ret = -1 then .error
    else if r.ret = 0 then .none
    else if r.val = 0 then .exit
    else if r.val = -1 then .error
    else .set
  (result, { tq with pipe := r.pipe })

end TimerQueue

/-! ## What the loop leaves -/

/-- **The loop ends with a failed `read`**, with the last `int` of the pipe in `val`. -/
theorem clearLoop_of_pos {ret : ℤ} (h : 0 < ret) (val : ℤ) (pipe : List ℤ) :
    clearLoop ret val pipe = ⟨-1, pipe.getLast?.getD val, []⟩ := by
  induction pipe generalizing ret val with
  | nil =>
    rw [clearLoop, if_pos h]
    show clearLoop (-1) val [] = _
    rw [clearLoop, if_neg (by decide)]
    rfl
  | cons v rest ih =>
    rw [clearLoop, if_pos h]
    show clearLoop 4 v rest = _
    rw [ih (by decide) v, List.getLast?_cons, Option.getD_some]

theorem signalClearVal_eq (pipe : List ℤ) (val : ℤ) :
    signalClearVal pipe val = ⟨0, pipe.getLast?.getD val, []⟩ := by
  rw [signalClearVal, clearLoop_of_pos Int.one_pos]
  rfl

/-- On the state of the queue, the function only empties the pipe. -/
theorem TimerQueue.signalLowerResult_eq {ι θ : Type} (tq : TimerQueue ι θ) :
    tq.timerQueueSignalLowerResult = (.none, tq.timerQueueSignalLower) := by
  rw [timerQueueSignalLowerResult, signalClearVal_eq]
  rfl

/-- **`signal_clear` access by access.** A thread that runs it while nobody else uses the pipe
makes one `read` for each `int` and one that fails, and leaves the pipe as the function run as
a whole leaves it. -/
theorem SigState.run_clear {τ : Type} [DecidableEq τ] {i : τ} (timedOut : Bool) (val : ℤ)
    (pipe : List ℤ) {s : SigState τ} (hpc : s.pc i = .clearRead) (hpipe : s.pipe = pipe) :
    ∃ s', run SigState.step s (List.replicate (pipe.length + 1) (.access i timedOut)) = some s'
      ∧ s'.pc i = .idle ∧ s'.pipe = (signalClear pipe val).2 := by
  induction pipe generalizing s val with
  | nil =>
    refine ⟨s.goto i .idle, ?_, Function.update_self .., ?_⟩
    · show (s.access i timedOut).bind _ = _
      rw [access, hpc]
      dsimp only
      rw [hpipe]
      rfl
    · rw [signalClear, signalClearVal_eq]
      exact hpipe
  | cons v rest ih =>
    obtain ⟨s', hrun, hidle, hempty⟩ := ih v (s := { s.goto i .clearRead with pipe := rest })
      (Function.update_self ..) rfl
    refine ⟨s', ?_, hidle, ?_⟩
    · rw [List.length_cons, List.replicate_succ, Run.run_cons]
      have hstep : s.step (.access i timedOut)
          = some { s.goto i .clearRead with pipe := rest } := by
        show s.access i timedOut = _
        rw [access, hpc]
        dsimp only
        rw [hpipe]
      rw [hstep]
      exact hrun
    · rw [hempty, signalClear, signalClearVal_eq, signalClear, signalClearVal_eq]

/-! ## What should be reported -/

/-- The result for the last `int` that was pending, if there was one. -/
def SignalResult.ofPending : Option ℤ → SignalResult
  | .none => .none
  | .some v => if v = 0 then .exit else if v = -1 then .error else .set

/-- **What clearing should report.** The pipe is emptied; `*val` is the last `int` that was
pending and the function returns `1`, or nothing was pending, `*val` is as it was and the
function returns `0`; and `timer_queue_signal_lower` names the kind of that `int`. -/
structure DrainReported {ι θ : Type} (tq : TimerQueue ι θ) (val : ℤ) : Prop where
  emptied : (signalClearVal tq.pipe val).pipe = []
  pending : ∀ v, tq.pipe.getLast? = some v →
    (signalClearVal tq.pipe val).ret = 1 ∧ (signalClearVal tq.pipe val).val = v
  idle : tq.pipe = [] →
    (signalClearVal tq.pipe val).ret = 0 ∧ (signalClearVal tq.pipe val).val = val
  lowered : tq.timerQueueSignalLowerResult.1 = SignalResult.ofPending tq.pipe.getLast?

theorem SignalResult.ofPending_some_ne_none (v : ℤ) : ofPending (some v) ≠ .none := by
  show (if v = 0 then SignalResult.exit else if v = -1 then .error else .set) ≠ .none
  split_ifs
  · exact SignalResult.noConfusion
  · exact SignalResult.noConfusion
  · exact SignalResult.noConfusion

/-- The queue's own report is right exactly where nothing was pending. -/
theorem TimerQueue.lowered_iff {ι θ : Type} (tq : TimerQueue ι θ) :
    tq.timerQueueSignalLowerResult.1 = SignalResult.ofPending tq.pipe.getLast?
      ↔ tq.pipe = [] := by
  rw [tq.signalLowerResult_eq]
  constructor
  · intro h
    by_contra hne
    rw [List.getLast?_eq_some_getLast hne] at h
    exact SignalResult.ofPending_some_ne_none _ h.symm
  · intro h
    rw [h]
    rfl

/-- **What was drained is reported right exactly where nothing was**, by `signal_clear_val` and
by `timer_queue_signal_lower`. -/
theorem signal_lower_reports_iff {ι θ : Type} (tq : TimerQueue ι θ) (val : ℤ) :
    (DrainReported tq val ↔ tq.pipe = [])
      ∧ (tq.timerQueueSignalLowerResult.1 = SignalResult.ofPending tq.pipe.getLast?
        ↔ tq.pipe = []) := by
  refine ⟨⟨fun h => tq.lowered_iff.mp h.lowered, fun hempty => ?_⟩, tq.lowered_iff⟩
  refine ⟨?_, fun v hv => ?_, fun _ => ?_, tq.lowered_iff.mpr hempty⟩
  · rw [signalClearVal_eq]
  · rw [hempty] at hv
    exact absurd hv (Option.some_ne_none v).symm
  · rw [signalClearVal_eq, hempty]
    exact ⟨rfl, rfl⟩

/-- A queue whose owner was woken by a `5`: `timer_queue_signal_lower` says that nothing was
pending, where it should say that the queue was set. -/
def lostSignal : TimerQueue Unit Unit where
  queue :=
    { maxSize := 0, size := 0, cmp := heapCmp, map := fun _ => (), slots := 0,
      hi := fun _ => timerInit, obj := fun _ => ⟨⟨0, 0⟩, 0⟩ }
  pipe := [5]
  thr := ()

theorem lostSignal_not_reported :
    lostSignal.timerQueueSignalLowerResult.1 = .none
      ∧ SignalResult.ofPending lostSignal.pipe.getLast? = .set
      ∧ ¬ DrainReported lostSignal 0 := by
  have hnone : lostSignal.timerQueueSignalLowerResult.1 = .none := by
    rw [TimerQueue.signalLowerResult_eq]
  have hset : SignalResult.ofPending lostSignal.pipe.getLast? = .set := rfl
  refine ⟨hnone, hset, fun h => ?_⟩
  have hlowered := h.lowered
  rw [hnone, hset] at hlowered
  exact SignalResult.noConfusion hlowered
