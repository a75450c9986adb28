import Ckit.Run
import Ckit.TimerSpec

/-!
# Threads on a timer queue

Several threads call the functions of `timer.c` on one queue. What a thread has
still to do is its `TimerPc`: the functions are cut where another thread can come
in between – before each locked part, before each read of a timer's `heapitem`
and each write of its deadline outside the lock, and, while a thread holds the
lock to raise the signal, before its poll and before its write. A function that
calls another carries what is left of it (`rest`).

`log` is the history that properties of a run are read off: which timers have
been inserted and which have been handed to their callbacks, the latest first.
-/

/-- What a thread is about to do. -/
inductive TimerPc (ι : Type) where
  | idle
  /-- `timer_add`, about to ask whether the timer is scheduled. -/
  | addTest (t : ι)
  /-- `timer_mod`, about to ask whether the timer is scheduled. -/
  | modTest (t : ι) (expires : ℕ)
  /-- `timer_mod`, about to ask whether the timer is the first. -/
  | modIndex (t : ι) (expires : ℕ)
  /-- `timer_mod`, about to write the new delay. -/
  | modExpires (t : ι) (expires : ℕ) (wasFirst : Bool)
  /-- `timer_mod`, about to write the new deadline. -/
  | modTimeout (t : ι) (wasFirst : Bool)
  /-- `timer_mod`, before its locked part. -/
  | modInsert (t : ι) (wasFirst : Bool)
  /-- `timer_del`, before its locked part. -/
  | del (t : ι) (rest : TimerPc ι)
  /-- `signal_raise`, under the lock, before its poll. -/
  | raisePoll (rest : TimerPc ι)
  /-- `signal_raise`, under the lock, before its write. -/
  | raiseWrite (rest : TimerPc ι)
  /-- `timer_next_timeout`, before its locked part. -/
  | next
  /-- `timer_next_timeout`, before a read of its drain, with what it has found
  and the clock it has read. -/
  | nextDrain (found : Option (ι × Timespec)) (now : Timespec)
  /-- `timer_next_timeout`, about to return. -/
  | nextReturn (found : Option (ι × Timespec)) (now : Timespec)
  /-- `timer_handle_timeout`, before its locked part. -/
  | handle
deriving DecidableEq, Repr

/-- The timer whose deletion comes next. -/
def TimerPc.deletes {ι : Type} : TimerPc ι → Option ι
  | .del t _ => some t
  | _ => none

/-- An event of the history of a queue. -/
inductive TimerLog (ι : Type) where
  | inserted (t : ι)
  | fired (t : ι)
  | returned (result : ℤ × Option ℕ)
deriving DecidableEq, Repr

/-- A timer queue and the threads that use it. -/
structure TimerSys (ι θ : Type) where
  tq : TimerQueue ι θ
  lock : Option θ
  pc : θ → TimerPc ι
  log : List (TimerLog ι)

/-- A step of the system: a thread calls a function, or goes on with the one it
is in, with the clock and the memory it finds. -/
inductive TimerEvent (ι θ : Type) where
  | callAdd (i : θ) (t : ι)
  | callMod (i : θ) (t : ι) (expires : ℕ)
  | callDel (i : θ) (t : ι)
  | callNext (i : θ)
  | callHandle (i : θ)
  | access (i : θ) (now : Timespec) (alloc : Option (ℕ → ι))

namespace TimerSys

variable {ι θ : Type} [DecidableEq ι] [DecidableEq θ]

/-- Thread `i` goes on to `pc`. -/
def goto (s : TimerSys ι θ) (i : θ) (pc : TimerPc ι) : TimerSys ι θ :=
  { s with pc := Function.update s.pc i pc }

/-- The end of a locked part: the thread unlocks, or keeps the lock while it
raises the signal. -/
def finish (s : TimerSys ι θ) (i : θ) (raise : Bool) (rest : TimerPc ι) : TimerSys ι θ :=
  if raise then { s.goto i (.raisePoll rest) with lock := some i } else s.goto i rest

/-- **The next step of thread `i`.** A locked part waits until the lock is
free. -/
def access (s : TimerSys ι θ) (i : θ) (now : Timespec) (alloc : Option (ℕ → ι)) :
    Option (TimerSys ι θ) :=
  match s.pc i with
  | .idle => none
  | .addTest t =>
    if s.tq.timerScheduled t then some (s.goto i .idle)
    else some (s.goto i (.modTest t (ulong (s.tq.queue.obj t).expires)))
  | .modTest t expires =>
    if s.tq.timerScheduled t then some (s.goto i (.modIndex t expires))
    else some (s.goto i (.modTimeout t false))
  | .modIndex t expires =>
    some (s.goto i (.del t (.modExpires t expires ((s.tq.queue.hi t).index == 0))))
  | .modExpires t expires wasFirst =>
    some { s.goto i (.modTimeout t wasFirst) with tq := s.tq.setExpires t expires }
  | .modTimeout t wasFirst =>
    some { s.goto i (.modInsert t wasFirst) with tq := s.tq.setTimeout t now }
  | .modInsert t wasFirst =>
    if s.lock = none then
      (s.tq.insertSection i t wasFirst alloc).map fun r =>
        finish { s with
          tq := r.2.2
          log := if r.1 = (1 : ℤ) then .inserted t :: s.log else s.log } i r.2.1 .idle
    else none
  | .del t rest =>
    if s.lock = none then
      (s.tq.delSection i t).map fun r => finish { s with tq := r.2 } i r.1 rest
    else none
  | .raisePoll rest =>
    if s.tq.signalIsRaised then some { s.goto i rest with lock := none }
    else some (s.goto i (.raiseWrite rest))
  | .raiseWrite rest => some { s.goto i rest with tq := s.tq.signalWrite, lock := none }
  | .next => if s.lock = none then some (s.goto i (.nextDrain s.tq.front now)) else none
  | .nextDrain found now =>
    match s.tq.pipe with
    | [] => some (s.goto i (.nextReturn found now))
    | _ :: pipe => some { s.goto i (.nextDrain found now) with tq := { s.tq with pipe := pipe } }
  | .nextReturn found now =>
    some { s.goto i .idle with log := .returned (TimerQueue.nextTimeout now found) :: s.log }
  | .handle =>
    if s.lock = none then
      s.tq.timerHandleTimeout.map fun r =>
        { s.goto i .idle with
          tq := r.2.2
          log := match r.2.1 with
            | some t => .fired t :: s.log
            | none => s.log }
    else none

/-- One step of the system. -/
def step (s : TimerSys ι θ) : TimerEvent ι θ → Option (TimerSys ι θ)
  | .callAdd i t => if s.pc i = .idle then some (s.goto i (.addTest t)) else none
  | .callMod i t expires => if s.pc i = .idle then some (s.goto i (.modTest t expires)) else none
  | .callDel i t => if s.pc i = .idle then some (s.goto i (.del t .idle)) else none
  | .callNext i => if s.pc i = .idle then some (s.goto i .next) else none
  | .callHandle i => if s.pc i = .idle then some (s.goto i .handle) else none
  | .access i now alloc => s.access i now alloc

/-- **Everything a step of thread `i` can do**, by where the thread is. -/
inductive Moves (s : TimerSys ι θ) (i : θ) (now : Timespec) (alloc : Option (ℕ → ι)) :
    TimerPc ι → TimerSys ι θ → Prop
  | addScheduled {t : ι} (h : s.tq.timerScheduled t = true) :
      Moves s i now alloc (.addTest t) (s.goto i .idle)
  | addNew {t : ι} (h : ¬ s.tq.timerScheduled t = true) :
      Moves s i now alloc (.addTest t)
        (s.goto i (.modTest t (ulong (s.tq.queue.obj t).expires)))
  | modScheduled {t : ι} {expires : ℕ} (h : s.tq.timerScheduled t = true) :
      Moves s i now alloc (.modTest t expires) (s.goto i (.modIndex t expires))
  | modNew {t : ι} {expires : ℕ} (h : ¬ s.tq.timerScheduled t = true) :
      Moves s i now alloc (.modTest t expires) (s.goto i (.modTimeout t false))
  | modIndex {t : ι} {expires : ℕ} :
      Moves s i now alloc (.modIndex t expires)
        (s.goto i (.del t (.modExpires t expires ((s.tq.queue.hi t).index == 0))))
  | modExpires {t : ι} {expires : ℕ} {wasFirst : Bool} :
      Moves s i now alloc (.modExpires t expires wasFirst)
        { s.goto i (.modTimeout t wasFirst) with tq := s.tq.setExpires t expires }
  | modTimeout {t : ι} {wasFirst : Bool} :
      Moves s i now alloc (.modTimeout t wasFirst)
        { s.goto i (.modInsert t wasFirst) with tq := s.tq.setTimeout t now }
  | modInsert {t : ι} {wasFirst : Bool} {r : ℤ × Bool × TimerQueue ι θ} (hfree : s.lock = none)
      (hrun : s.tq.insertSection i t wasFirst alloc = some r) :
      Moves s i now alloc (.modInsert t wasFirst)
        (finish { s with
          tq := r.2.2
          log := if r.1 = (1 : ℤ) then .inserted t :: s.log else s.log } i r.2.1 .idle)
  | del {t : ι} {rest : TimerPc ι} {r : Bool × TimerQueue ι θ} (hfree : s.lock = none)
      (hrun : s.tq.delSection i t = some r) :
      Moves s i now alloc (.del t rest) (finish { s with tq := r.2 } i r.1 rest)
  | raiseSeen {rest : TimerPc ι} (h : s.tq.signalIsRaised = true) :
      Moves s i now alloc (.raisePoll rest) { s.goto i rest with lock := none }
  | raisePoll {rest : TimerPc ι} (h : ¬ s.tq.signalIsRaised = true) :
      Moves s i now alloc (.raisePoll rest) (s.goto i (.raiseWrite rest))
  | raiseWrite {rest : TimerPc ι} :
      Moves s i now alloc (.raiseWrite rest)
        { s.goto i rest with tq := s.tq.signalWrite, lock := none }
  | next (hfree : s.lock = none) :
      Moves s i now alloc .next (s.goto i (.nextDrain s.tq.front now))
  | drained {found : Option (ι × Timespec)} {now' : Timespec} (h : s.tq.pipe = []) :
      Moves s i now alloc (.nextDrain found now') (s.goto i (.nextReturn found now'))
  | drain {found : Option (ι × Timespec)} {now' : Timespec} {val : ℤ} {pipe : List ℤ}
      (h : s.tq.pipe = val :: pipe) :
      Moves s i now alloc (.nextDrain found now')
        { s.goto i (.nextDrain found now') with tq := { s.tq with pipe := pipe } }
  | nextReturn {found : Option (ι × Timespec)} {now' : Timespec} :
      Moves s i now alloc (.nextReturn found now')
        { s.goto i .idle with log := .returned (TimerQueue.nextTimeout now' found) :: s.log }
  | handle {r : ℤ × Option ι × TimerQueue ι θ} (hfree : s.lock = none)
      (hrun : s.tq.timerHandleTimeout = some r) :
      Moves s i now alloc .handle
        { s.goto i .idle with
          tq := r.2.2
          log := match r.2.1 with
            | some t => .fired t :: s.log
            | none => s.log }

theorem access_moves {s s' : TimerSys ι θ} {i : θ} {now : Timespec} {alloc : Option (ℕ → ι)}
    (hstep : s.access i now alloc = some s') : s.Moves i now alloc (s.pc i) s' := by
  unfold access at hstep
  generalize s.pc i = pc at hstep ⊢
  cases pc with
  | idle => exact nomatch hstep
  | addTest | modTest | raisePoll =>
    dsimp only at hstep
    split at hstep
    · obtain rfl := Option.some.inj hstep
      constructor
      assumption
    · obtain rfl := Option.some.inj hstep
      constructor
      assumption
  | modIndex | modExpires | modTimeout | raiseWrite | nextReturn =>
    obtain rfl := Option.some.inj hstep
    constructor
  | modInsert | del | handle =>
    obtain ⟨hfree, hstep⟩ := Option.ite_none_right_eq_some.mp hstep
    obtain ⟨r, hrun, rfl⟩ := Option.map_eq_some_iff.mp hstep
    constructor
    · exact hfree
    · exact hrun
  | next =>
    obtain ⟨hfree, hstep⟩ := Option.ite_none_right_eq_some.mp hstep
    obtain rfl := Option.some.inj hstep
    exact .next hfree
  | nextDrain =>
    dsimp only at hstep
    split at hstep
    · obtain rfl := Option.some.inj hstep
      exact .drained ‹_›
    · obtain rfl := Option.some.inj hstep
      exact .drain ‹_›

omit [DecidableEq ι] in
@[simp] theorem goto_pc_self (s : TimerSys ι θ) (i : θ) (pc : TimerPc ι) :
    (s.goto i pc).pc i = pc :=
  Function.update_self ..

omit [DecidableEq ι] in
theorem goto_pc_of_ne (s : TimerSys ι θ) {i j : θ} (pc : TimerPc ι) (h : j ≠ i) :
    (s.goto i pc).pc j = s.pc j :=
  Function.update_of_ne h _ _

omit [DecidableEq ι] in
@[simp] theorem finish_tq (s : TimerSys ι θ) (i : θ) (raise : Bool) (rest : TimerPc ι) :
    (s.finish i raise rest).tq = s.tq := by
  cases raise with
  | true => rfl
  | false => rfl

omit [DecidableEq ι] in
@[simp] theorem finish_log (s : TimerSys ι θ) (i : θ) (raise : Bool) (rest : TimerPc ι) :
    (s.finish i raise rest).log = s.log := by
  cases raise with
  | true => rfl
  | false => rfl

omit [DecidableEq ι] in
theorem finish_pc_self (s : TimerSys ι θ) (i : θ) (raise : Bool) (rest : TimerPc ι) :
    (s.finish i raise rest).pc i = if raise then .raisePoll rest else rest := by
  cases raise with
  | true => exact goto_pc_self ..
  | false => exact goto_pc_self ..

omit [DecidableEq ι] in
theorem finish_pc_of_ne (s : TimerSys ι θ) {i j : θ} (raise : Bool) (rest : TimerPc ι)
    (h : j ≠ i) : (s.finish i raise rest).pc j = s.pc j := by
  cases raise with
  | true => exact goto_pc_of_ne _ _ h
  | false => exact goto_pc_of_ne _ _ h

end TimerSys
