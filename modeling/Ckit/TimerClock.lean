import Ckit.Run
import Ckit.TimerSpec

/-!
# The clocks of the threads

The clock of `timer.c` is `CLOCK_THREAD_CPUTIME_ID`: what `gettime` returns is the CPU time
the calling thread has used. `timer_mod` adds the delay to the clock of the thread that
schedules, and `timer_next_timeout_timespec` takes away the clock of the owner.

So the time a timer has to go depends on who has scheduled it. Two runs that differ only in
that report the same remaining time exactly where the clocks of the two threads agree, or
where the deadline is past by both (`timer_report_thread`).
-/

/-! ## The heap leaves the objects alone -/

namespace Heap

variable {ι β : Type} {h h' : Heap ι β}

theorem set_obj {k : ℕ} {p : ι} (hset : h.set k p = some h') : h'.obj = h.obj := by
  obtain ⟨-, hset⟩ := Option.ite_none_right_eq_some.mp hset
  rw [← Option.some.inj hset]

variable [DecidableEq ι]

theorem exchange_obj {c i : ℕ} (hex : h.exchange c i = some h') : h'.obj = h.obj := by
  obtain ⟨p, -, hex⟩ := Option.bind_eq_some_iff.mp hex
  obtain ⟨q, -, hex⟩ := Option.bind_eq_some_iff.mp hex
  obtain ⟨h₁, hset₁, hex⟩ := Option.bind_eq_some_iff.mp hex
  obtain ⟨h₂, hset₂, hex⟩ := Option.bind_eq_some_iff.mp hex
  obtain rfl := Option.some.inj hex
  have hobj : h₁.obj = h.obj := set_obj hset₁
  exact (set_obj hset₂).trans hobj

theorem heapHeapify_obj {fuel i : ℕ} (hrun : heapHeapify fuel h i = some h') :
    h'.obj = h.obj := by
  induction fuel generalizing h i with
  | zero => exact nomatch hrun
  | succ fuel ih =>
    obtain ⟨s, -, hrun⟩ := Option.bind_eq_some_iff.mp hrun
    obtain ⟨c, -, hrun⟩ := Option.bind_eq_some_iff.mp hrun
    by_cases hc : c = i
    · rw [if_pos hc] at hrun
      rw [Option.some.inj hrun]
    · rw [if_neg hc] at hrun
      obtain ⟨h₁, hex, hrun⟩ := Option.bind_eq_some_iff.mp hrun
      exact (ih hrun).trans (exchange_obj hex)

theorem insertLoop_obj {fuel i j : ℕ} {item : ι}
    (hrun : insertLoop fuel h item i = some (h', j)) : h'.obj = h.obj := by
  induction fuel generalizing h i with
  | zero => exact nomatch hrun
  | succ fuel ih =>
    rw [insertLoop] at hrun
    by_cases hi : 0 < i
    · rw [if_pos hi] at hrun
      obtain ⟨p, -, hrun⟩ := Option.bind_eq_some_iff.mp hrun
      by_cases hless : h.less p item = true
      · rw [if_pos hless] at hrun
        obtain ⟨h₁, hset, hrun⟩ := Option.bind_eq_some_iff.mp hrun
        have hobj : h₁.obj = h.obj := set_obj hset
        exact (ih hrun).trans hobj
      · rw [if_neg hless] at hrun
        obtain ⟨rfl, -⟩ := Prod.mk.inj (Option.some.inj hrun)
        rfl
    · rw [if_neg hi] at hrun
      obtain ⟨rfl, -⟩ := Prod.mk.inj (Option.some.inj hrun)
      rfl

theorem insertPlace_obj {item : ι} (hrun : h.insertPlace item = some h') : h'.obj = h.obj := by
  obtain ⟨⟨h₁, i⟩, hloop, hrun⟩ := Option.bind_eq_some_iff.mp hrun
  obtain ⟨h₂, hset, hrun⟩ := Option.bind_eq_some_iff.mp hrun
  obtain rfl := Option.some.inj hrun
  exact (set_obj hset).trans (insertLoop_obj hloop)

omit [DecidableEq ι] in
theorem heapIncreaseSize_obj {n : ℕ} {alloc : Option (ℕ → ι)} {ret : ℤ}
    (hrun : h.heapIncreaseSize n alloc = some (ret, h')) : h'.obj = h.obj := by
  cases alloc with
  | none =>
    obtain ⟨-, rfl⟩ := Prod.mk.inj (Option.some.inj hrun)
    rfl
  | some garbage =>
    obtain ⟨-, hrun⟩ := Option.ite_none_right_eq_some.mp hrun
    obtain ⟨-, rfl⟩ := Prod.mk.inj (Option.some.inj hrun)
    rfl

/-- **An insertion leaves the objects alone**, wherever it goes. -/
theorem heapInsert_obj {item : ι} {alloc : Option (ℕ → ι)} {ret : ℤ}
    (hrun : h.heapInsert item alloc = some (ret, h')) : h'.obj = h.obj := by
  unfold heapInsert at hrun
  by_cases hfull : h.heapFull = true
  · rw [if_pos hfull] at hrun
    obtain ⟨⟨r, h₁⟩, hinc, hrun⟩ := Option.bind_eq_some_iff.mp hrun
    dsimp only at hrun
    by_cases hr : r ≠ 0
    · rw [if_pos hr] at hrun
      obtain ⟨-, rfl⟩ := Prod.mk.inj (Option.some.inj hrun)
      exact heapIncreaseSize_obj hinc
    · rw [if_neg hr] at hrun
      obtain ⟨h₂, hplace, hrun⟩ := Option.bind_eq_some_iff.mp hrun
      obtain ⟨-, rfl⟩ := Prod.mk.inj (Option.some.inj hrun)
      exact (insertPlace_obj hplace).trans (heapIncreaseSize_obj hinc)
  · rw [if_neg hfull] at hrun
    obtain ⟨h₂, hplace, hrun⟩ := Option.bind_eq_some_iff.mp hrun
    obtain ⟨-, rfl⟩ := Prod.mk.inj (Option.some.inj hrun)
    exact insertPlace_obj hplace

/-- **A removal leaves the objects alone**, wherever it goes. -/
theorem heapRemove_obj {index : ℕ} {p : Option ι} (hrun : h.heapRemove index = some (p, h')) :
    h'.obj = h.obj := by
  unfold heapRemove at hrun
  by_cases hi : h.size ≤ index
  · rw [if_pos hi] at hrun
    obtain ⟨-, rfl⟩ := Prod.mk.inj (Option.some.inj hrun)
    rfl
  · rw [if_neg hi] at hrun
    obtain ⟨item, -, hrun⟩ := Option.bind_eq_some_iff.mp hrun
    obtain ⟨last, -, hrun⟩ := Option.bind_eq_some_iff.mp hrun
    obtain ⟨h₁, hset, hrun⟩ := Option.bind_eq_some_iff.mp hrun
    obtain ⟨h₂, hheap, hrun⟩ := Option.bind_eq_some_iff.mp hrun
    obtain ⟨-, rfl⟩ := Prod.mk.inj (Option.some.inj hrun)
    have hobj : h₁.obj = { h with size := h.size - 1 }.obj := set_obj hset
    exact (heapHeapify_obj hheap).trans hobj

end Heap

/-! ## Calls of several threads -/

/-- **The CPU clocks of the threads**, at the moments of a run. Each goes its own way, but
not backwards. -/
structure ThreadClock (θ : Type) where
  time : ℕ → θ → Timespec
  normal : ∀ k i, (time k i).Normal
  mono : ∀ k i, (time k i).toNsec ≤ (time (k + 1) i).toNsec

/-- A call on a timer queue; `set` is the caller's `timer_set_usecs`. -/
inductive QueueCall (ι : Type) where
  | set (t : ι) (expires : ℕ)
  | add (t : ι) (alloc : Option (ℕ → ι))
  | mod (t : ι) (expires : ℕ) (alloc : Option (ℕ → ι))
  | del (t : ι)
  | handleTimeout

namespace QueueCall

variable {ι θ : Type} [DecidableEq ι] [DecidableEq θ]

/-- The call, made by the thread `self` when its clock is at `now`. -/
def exec (self : θ) (now : Timespec) (tq : TimerQueue ι θ) : QueueCall ι → Option (TimerQueue ι θ)
  | .set t expires => some (tq.setExpires t expires)
  | .add t alloc => (tq.timerAdd self t now alloc).map Prod.snd
  | .mod t expires alloc => (tq.timerMod self t expires now alloc).map Prod.snd
  | .del t => tq.timerDel self t
  | .handleTimeout => tq.timerHandleTimeout.map fun r => r.2.2

/-- The next moment of a run: a thread makes a call, and reads its own clock. -/
def step (clock : ThreadClock θ) (s : ℕ × TimerQueue ι θ) (e : θ × QueueCall ι) :
    Option (ℕ × TimerQueue ι θ) :=
  (e.2.exec e.1 (clock.time s.1 e.1) s.2).map fun tq => (s.1 + 1, tq)

/-- The call schedules the timer. -/
def Schedules (t : ι) : QueueCall ι → Prop
  | .add u _ | .mod u _ _ => u = t
  | _ => False

end QueueCall

namespace TimerQueue

variable {ι θ : Type} [DecidableEq ι] [DecidableEq θ] {tq tq' : TimerQueue ι θ}

/-- The deadline of a timer. -/
def deadline (tq : TimerQueue ι θ) (t : ι) : Timespec := (tq.queue.obj t).timeout

/-- What `timer_add` makes of the deadline when the clock is at `now`. -/
def scheduledAt (tq : TimerQueue ι θ) (t : ι) (now : Timespec) : Timespec :=
  now.addNsec (i64 ((tq.queue.obj t).expires * 1000))

omit [DecidableEq ι] [DecidableEq θ] in
theorem normal_scheduledAt {now : Timespec} (h : now.Normal) (t : ι) :
    (tq.scheduledAt t now).Normal :=
  Timespec.normal_addNsec h _

/-- **The owner stays, and every deadline but that of the timer `u`.** -/
structure Frame (tq tq' : TimerQueue ι θ) (u : Option ι) : Prop where
  thr : tq'.thr = tq.thr
  deadline : ∀ t, u ≠ some t → tq'.deadline t = tq.deadline t

omit [DecidableEq ι] [DecidableEq θ] in
theorem Frame.rfl' {u : Option ι} : Frame tq tq u := ⟨rfl, fun _ _ => rfl⟩

omit [DecidableEq ι] [DecidableEq θ] in
theorem Frame.trans {tq₁ tq₂ tq₃ : TimerQueue ι θ} {u : Option ι} (h : Frame tq₁ tq₂ u)
    (h' : Frame tq₂ tq₃ u) : Frame tq₁ tq₃ u :=
  ⟨h'.thr.trans h.thr, fun t ht => (h'.deadline t ht).trans (h.deadline t ht)⟩

omit [DecidableEq ι] [DecidableEq θ] in
theorem Frame.of_obj {u : Option ι} (hthr : tq'.thr = tq.thr)
    (hobj : tq'.queue.obj = tq.queue.obj) : Frame tq tq' u :=
  ⟨hthr, fun t _ => by rw [TimerQueue.deadline, TimerQueue.deadline, hobj]⟩

omit [DecidableEq ι] [DecidableEq θ] in
theorem frame_signalIf (tq : TimerQueue ι θ) (raise : Bool) (u : Option ι) :
    Frame tq (tq.signalIf raise) u := by
  refine .of_obj ?_ (by rw [signalIf_queue])
  unfold signalIf timerQueueSignalRaise signalWrite
  split
  · split
    · rfl
    · rfl
  · rfl

omit [DecidableEq θ] in
theorem frame_setExpires (tq : TimerQueue ι θ) (t : ι) (expires : ℕ) (u : Option ι) :
    Frame tq (tq.setExpires t expires) u := by
  refine ⟨rfl, fun v _ => ?_⟩
  show (Function.update tq.queue.obj t _ v).timeout = (tq.queue.obj v).timeout
  by_cases hv : v = t
  · rw [hv, Function.update_self]
  · rw [Function.update_of_ne hv]

omit [DecidableEq θ] in
theorem frame_setTimeout (tq : TimerQueue ι θ) (t : ι) (now : Timespec) :
    Frame tq (tq.setTimeout t now) (some t) := by
  refine ⟨rfl, fun v hv => ?_⟩
  show (Function.update tq.queue.obj t _ v).timeout = (tq.queue.obj v).timeout
  rw [Function.update_of_ne fun hc => hv (congrArg some hc.symm)]

omit [DecidableEq θ] in
theorem deadline_setTimeout (tq : TimerQueue ι θ) (t : ι) (now : Timespec) :
    (tq.setTimeout t now).deadline t = tq.scheduledAt t now := by
  show (Function.update tq.queue.obj t _ t).timeout = _
  rw [Function.update_self]
  rfl

/-- The locked part of `timer_mod` writes nothing of a timer but its `heapitem`. -/
theorem insertSection_keeps {self : θ} {t : ι} {wasFirst : Bool} {alloc : Option (ℕ → ι)}
    {r : ℤ × Bool × TimerQueue ι θ} (hrun : tq.insertSection self t wasFirst alloc = some r) :
    r.2.2.thr = tq.thr ∧ r.2.2.queue.obj = tq.queue.obj := by
  obtain ⟨⟨ret, queue⟩, hin, hrun⟩ := Option.bind_eq_some_iff.mp hrun
  have hobj := Heap.heapInsert_obj hin
  dsimp only at hrun
  split at hrun
  · obtain rfl := Option.some.inj hrun
    exact ⟨rfl, hobj⟩
  · obtain rfl := Option.some.inj hrun
    exact ⟨rfl, hobj⟩

theorem frame_insertSection {self : θ} {t : ι} {wasFirst : Bool} {alloc : Option (ℕ → ι)}
    {r : ℤ × Bool × TimerQueue ι θ} (hrun : tq.insertSection self t wasFirst alloc = some r)
    (u : Option ι) : Frame tq r.2.2 u := by
  obtain ⟨hthr, hobj⟩ := insertSection_keeps hrun
  exact .of_obj hthr hobj

/-- `timer_del` writes no deadline. -/
theorem frame_timerDel {self : θ} {t : ι} (hrun : tq.timerDel self t = some tq')
    (u : Option ι) : Frame tq tq' u := by
  obtain ⟨⟨raise, tq₁⟩, hdel, hrun⟩ := Option.bind_eq_some_iff.mp hrun
  obtain ⟨⟨p, queue⟩, hrem, hdel⟩ := Option.bind_eq_some_iff.mp hdel
  obtain ⟨-, rfl⟩ := Prod.mk.inj (Option.some.inj hdel)
  obtain rfl := Option.some.inj hrun
  have hqueue : Frame tq { tq with queue := queue } u := .of_obj rfl (Heap.heapRemove_obj hrem)
  exact hqueue.trans (frame_signalIf _ _ u)

theorem frame_unschedule {self : θ} {t : ι} {expires : ℕ} {r : Bool × TimerQueue ι θ}
    (hrun : tq.unschedule self t expires = some r) (u : Option ι) : Frame tq r.2 u := by
  unfold unschedule at hrun
  split at hrun
  · obtain ⟨tq₁, hdel, hrun⟩ := Option.bind_eq_some_iff.mp hrun
    obtain rfl := Option.some.inj hrun
    exact (frame_timerDel hdel u).trans (frame_setExpires _ _ _ u)
  · obtain rfl := Option.some.inj hrun
    exact .rfl'

/-- **`timer_mod` writes the deadline of its timer only.** -/
theorem frame_timerMod {self : θ} {t : ι} {expires : ℕ} {now : Timespec}
    {alloc : Option (ℕ → ι)} {ret : ℤ}
    (hrun : tq.timerMod self t expires now alloc = some (ret, tq')) : Frame tq tq' (some t) := by
  obtain ⟨⟨wasFirst, tq₁⟩, hun, hrun⟩ := Option.bind_eq_some_iff.mp hrun
  obtain ⟨⟨ret', raise, tq₂⟩, hin, hrun⟩ := Option.bind_eq_some_iff.mp hrun
  obtain ⟨-, rfl⟩ := Prod.mk.inj (Option.some.inj hrun)
  have hun := frame_unschedule hun (some t)
  have hin := frame_insertSection hin (some t)
  exact ((hun.trans (frame_setTimeout tq₁ t now)).trans hin).trans (frame_signalIf _ _ _)

/-- **The deadline `timer_add` writes**, from the clock of the thread that calls it. -/
theorem deadline_timerAdd {self : θ} {t : ι} {now : Timespec} {alloc : Option (ℕ → ι)} {ret : ℤ}
    (hsched : tq.timerScheduled t = false)
    (hrun : tq.timerAdd self t now alloc = some (ret, tq')) :
    tq'.deadline t = tq.scheduledAt t now := by
  rw [timerAdd, if_neg (by rw [hsched]; exact Bool.false_ne_true), timerMod, unschedule,
    if_neg (by rw [hsched]; exact Bool.false_ne_true)] at hrun
  obtain ⟨⟨wasFirst, tq₁⟩, hun, hrun⟩ := Option.bind_eq_some_iff.mp hrun
  obtain ⟨-, rfl⟩ := Prod.mk.inj (Option.some.inj hun)
  obtain ⟨⟨ret', raise, tq₂⟩, hin, hrun⟩ := Option.bind_eq_some_iff.mp hrun
  obtain ⟨-, rfl⟩ := Prod.mk.inj (Option.some.inj hrun)
  have hin := frame_insertSection hin none
  have hsig := frame_signalIf tq₂ raise none
  rw [hsig.deadline t (Option.some_ne_none t).symm, hin.deadline t (Option.some_ne_none t).symm]
  exact deadline_setTimeout tq t now

theorem frame_timerAdd {self : θ} {t : ι} {now : Timespec} {alloc : Option (ℕ → ι)} {ret : ℤ}
    (hrun : tq.timerAdd self t now alloc = some (ret, tq')) : Frame tq tq' (some t) := by
  unfold timerAdd at hrun
  split at hrun
  · obtain ⟨-, rfl⟩ := Prod.mk.inj (Option.some.inj hrun)
    exact .rfl'
  · exact frame_timerMod hrun

omit [DecidableEq θ] in
theorem frame_timerHandleTimeout {r : ℤ × Option ι × TimerQueue ι θ}
    (hrun : tq.timerHandleTimeout = some r) (u : Option ι) : Frame tq r.2.2 u := by
  unfold timerHandleTimeout at hrun
  split at hrun
  · obtain rfl := Option.some.inj hrun
    exact .rfl'
  · obtain ⟨⟨p, queue⟩, hrem, hrun⟩ := Option.bind_eq_some_iff.mp hrun
    obtain rfl := Option.some.inj hrun
    exact .of_obj rfl (Heap.heapRemove_obj hrem)

/-! ## What the owner is told -/

/-- What `timer_next_timeout_timespec` stores, from a deadline. -/
def remaining (timeout now : Timespec) : Timespec :=
  if (timeout.sub now).tvSec < 0 then ⟨0, 0⟩ else timeout.sub now

omit [DecidableEq ι] [DecidableEq θ] in
/-- The report on the timer at the front. -/
theorem report_of_front {t : ι} (hfront : tq.front.map Prod.fst = some t) (now : Timespec) :
    tq.timerNextTimeoutTimespec now = (1, some (remaining (tq.deadline t) now)) := by
  obtain ⟨⟨u, timeout⟩, hp, rfl⟩ := Option.map_eq_some_iff.mp hfront
  have htimeout : timeout = tq.deadline u := by
    unfold front at hp
    split at hp
    · exact nomatch hp
    · obtain ⟨rfl, rfl⟩ := Prod.mk.inj (Option.some.inj hp)
      rfl
  rw [timerNextTimeoutTimespec, hp, htimeout]
  rfl

omit [DecidableEq ι] [DecidableEq θ] in
/-- The remaining time is that to the deadline, and none after it. -/
theorem toNsec_remaining {timeout now : Timespec} (htime : timeout.Normal) (hnow : now.Normal) :
    (remaining timeout now).Normal
      ∧ (remaining timeout now).toNsec = max 0 (timeout.toNsec - now.toNsec) := by
  have hnormal := Timespec.normal_sub htime hnow
  have hsub := Timespec.toNsec_sub timeout now
  unfold remaining
  generalize timeout.sub now = later at *
  unfold Timespec.Normal Timespec.toNsec nsecPerSec at *
  split
  · dsimp only
    omega
  · omega

omit [DecidableEq ι] [DecidableEq θ] in
/-- **Two deadlines give the same report** where they are the same, or both past. -/
theorem remaining_eq_iff {timeout₁ timeout₂ now : Timespec} (h₁ : timeout₁.Normal)
    (h₂ : timeout₂.Normal) (hnow : now.Normal) :
    remaining timeout₁ now = remaining timeout₂ now
      ↔ timeout₁ = timeout₂
        ∨ timeout₁.toNsec ≤ now.toNsec ∧ timeout₂.toNsec ≤ now.toNsec := by
  obtain ⟨hn₁, hr₁⟩ := toNsec_remaining h₁ hnow
  obtain ⟨hn₂, hr₂⟩ := toNsec_remaining h₂ hnow
  rw [Timespec.eq_iff hn₁ hn₂, Timespec.eq_iff h₁ h₂]
  omega

end TimerQueue

namespace QueueCall

variable {ι θ : Type} [DecidableEq ι] [DecidableEq θ] {clock : ThreadClock θ}

open TimerQueue

/-- A call that does not schedule the timer leaves its deadline. -/
theorem frame_exec {self : θ} {now : Timespec} {tq tq' : TimerQueue ι θ} {call : QueueCall ι}
    {t : ι} (hcall : ¬ call.Schedules t) (hrun : call.exec self now tq = some tq') :
    tq'.thr = tq.thr ∧ tq'.deadline t = tq.deadline t := by
  have hkeep : ∀ {u : Option ι}, u ≠ some t → Frame tq tq' u →
      tq'.thr = tq.thr ∧ tq'.deadline t = tq.deadline t :=
    fun hu h => ⟨h.thr, h.deadline t hu⟩
  have hnone : none ≠ some t := (Option.some_ne_none t).symm
  cases call with
  | set u expires =>
    obtain rfl := Option.some.inj hrun
    exact hkeep hnone (frame_setExpires tq u expires none)
  | add u alloc =>
    obtain ⟨⟨ret, tq₁⟩, hadd, rfl⟩ := Option.map_eq_some_iff.mp hrun
    exact hkeep (fun hc => hcall (Option.some.inj hc)) (frame_timerAdd hadd)
  | mod u expires alloc =>
    obtain ⟨⟨ret, tq₁⟩, hmod, rfl⟩ := Option.map_eq_some_iff.mp hrun
    exact hkeep (fun hc => hcall (Option.some.inj hc)) (frame_timerMod hmod)
  | del u => exact hkeep hnone (frame_timerDel hrun none)
  | handleTimeout =>
    obtain ⟨r, hhandle, rfl⟩ := Option.map_eq_some_iff.mp hrun
    exact hkeep hnone (frame_timerHandleTimeout hhandle none)

/-- **A run that does not schedule the timer again leaves its deadline.** -/
theorem frame_run {t : ι} {es : List (θ × QueueCall ι)} (hes : ∀ e ∈ es, ¬ e.2.Schedules t)
    {s s' : ℕ × TimerQueue ι θ} (hrun : run (step clock) s es = some s') :
    s'.1 = s.1 + es.length ∧ s'.2.thr = s.2.thr ∧ s'.2.deadline t = s.2.deadline t := by
  induction es generalizing s with
  | nil =>
    obtain rfl := Option.some.inj hrun
    exact ⟨rfl, rfl, rfl⟩
  | cons e es ih =>
    obtain ⟨s₁, hstep, hrun⟩ := Run.run_cons_eq_some.mp hrun
    obtain ⟨tq₁, hexec, rfl⟩ := Option.map_eq_some_iff.mp hstep
    obtain ⟨hthr, hdeadline⟩ := frame_exec (hes e List.mem_cons_self) hexec
    obtain ⟨hmoment, hthr', hdeadline'⟩ :=
      ih (fun e' he' => hes e' (List.mem_cons_of_mem _ he')) hrun
    refine ⟨?_, hthr'.trans hthr, hdeadline'.trans hdeadline⟩
    rw [hmoment, List.length_cons]
    show s.1 + 1 + es.length = _
    omega

/-- The deadline after a run that begins with a `timer_add`. -/
theorem deadline_run {k : ℕ} {tq : TimerQueue ι θ} {t : ι} {alloc : Option (ℕ → ι)} {i : θ}
    {es : List (θ × QueueCall ι)} (hes : ∀ e ∈ es, ¬ e.2.Schedules t)
    {s : ℕ × TimerQueue ι θ}
    (hrun : run (step clock) (k, tq) ((i, .add t alloc) :: es) = some s) :
    s.1 = k + 1 + es.length
      ∧ s.2.deadline t = if tq.timerScheduled t then tq.deadline t
        else tq.scheduledAt t (clock.time k i) := by
  obtain ⟨s₁, hstep, hrun⟩ := Run.run_cons_eq_some.mp hrun
  obtain ⟨tq₁, hexec, rfl⟩ := Option.map_eq_some_iff.mp hstep
  obtain ⟨⟨ret, tq₂⟩, hadd, rfl⟩ := Option.map_eq_some_iff.mp hexec
  obtain ⟨hmoment, -, hdeadline⟩ := frame_run hes hrun
  refine ⟨hmoment, hdeadline.trans ?_⟩
  cases hsched : tq.timerScheduled t with
  | true =>
    rw [timerAdd, if_pos hsched] at hadd
    obtain ⟨-, rfl⟩ := Prod.mk.inj (Option.some.inj hadd)
    rw [if_pos rfl]
  | false =>
    rw [if_neg Bool.false_ne_true]
    exact deadline_timerAdd hsched hadd

/-- **Who schedules a timer matters.** Two runs differ in which thread calls `timer_add`,
and in nothing else; the timer is not scheduled again. When it is at the front, the owner is
told the same remaining time exactly where the call had nothing to do, or the CPU clocks of
the two threads agreed, or the timer is due by both of them. -/
theorem timer_report_thread (clock : ThreadClock θ) (k : ℕ) (tq : TimerQueue ι θ) (t : ι)
    (alloc : Option (ℕ → ι)) (i j : θ) (es : List (θ × QueueCall ι))
    (hes : ∀ e ∈ es, ¬ e.2.Schedules t) {s₁ s₂ : ℕ × TimerQueue ι θ}
    (hrun₁ : run (step clock) (k, tq) ((i, .add t alloc) :: es) = some s₁)
    (hrun₂ : run (step clock) (k, tq) ((j, .add t alloc) :: es) = some s₂)
    (hfront₁ : s₁.2.front.map Prod.fst = some t) (hfront₂ : s₂.2.front.map Prod.fst = some t) :
    s₁.2.timerNextTimeoutTimespec (clock.time s₁.1 tq.thr)
        = s₂.2.timerNextTimeoutTimespec (clock.time s₂.1 tq.thr)
      ↔ tq.timerScheduled t = true ∨ clock.time k i = clock.time k j
        ∨ (tq.scheduledAt t (clock.time k i)).toNsec
            ≤ (clock.time (k + 1 + es.length) tq.thr).toNsec
          ∧ (tq.scheduledAt t (clock.time k j)).toNsec
            ≤ (clock.time (k + 1 + es.length) tq.thr).toNsec := by
  obtain ⟨hmoment₁, hdeadline₁⟩ := deadline_run hes hrun₁
  obtain ⟨hmoment₂, hdeadline₂⟩ := deadline_run hes hrun₂
  rw [report_of_front hfront₁, report_of_front hfront₂, hmoment₁, hmoment₂, hdeadline₁, hdeadline₂]
  cases hsched : tq.timerScheduled t with
  | true => exact iff_of_true rfl (.inl rfl)
  | false =>
    have hi := clock.normal k i
    have hj := clock.normal k j
    have hsame : tq.scheduledAt t (clock.time k i) = tq.scheduledAt t (clock.time k j)
        ↔ clock.time k i = clock.time k j := by
      rw [Timespec.eq_iff (normal_scheduledAt hi t) (normal_scheduledAt hj t),
        Timespec.eq_iff hi hj, scheduledAt, scheduledAt, Timespec.toNsec_addNsec,
        Timespec.toNsec_addNsec]
      omega
    rw [if_neg Bool.false_ne_true, if_neg Bool.false_ne_true, ← hsame,
      ← remaining_eq_iff (normal_scheduledAt hi t) (normal_scheduledAt hj t)
        (clock.normal _ tq.thr)]
    simp

/-- Clocks that stand still, each at a full second. -/
def stillClock (sec : θ → ℤ) : ThreadClock θ where
  time _ i := ⟨sec i, 0⟩
  normal _ _ := by
    show 0 ≤ (0 : ℤ) ∧ (0 : ℤ) < nsecPerSec
    decide
  mono _ _ := le_rfl

/-- Two threads that have used the same CPU time. -/
theorem timer_report_thread_same :
    let clock := stillClock fun _ : Bool => 5
    ∃ s₁ s₂, run (step clock) (0, natQueue false) [(false, .add 1 none)] = some s₁
      ∧ run (step clock) (0, natQueue false) [(true, .add 1 none)] = some s₂
      ∧ s₁.2.timerNextTimeoutTimespec (clock.time s₁.1 false)
        = s₂.2.timerNextTimeoutTimespec (clock.time s₂.1 false) := by
  intro clock
  exact ⟨_, _, rfl, rfl, (timer_report_thread clock 0 (natQueue false) 1 none false true []
    (fun _ he => nomatch he) rfl rfl rfl rfl).mpr (.inr (.inl rfl))⟩

/-- **A timer that is due at once.** Its delay is seven microseconds, and so much is left of
it when the owner schedules it. But the other thread has used less CPU time than the owner,
and what it schedules is past. -/
theorem timer_report_differs :
    let clock := stillClock fun i : Bool => if i then 1 else 5
    ∃ s₁ s₂, run (step clock) (0, natQueue false) [(false, .add 1 none)] = some s₁
      ∧ run (step clock) (0, natQueue false) [(true, .add 1 none)] = some s₂
      ∧ s₁.2.front.map Prod.fst = some 1 ∧ s₂.2.front.map Prod.fst = some 1
      ∧ s₁.2.timerNextTimeoutTimespec (clock.time s₁.1 false) = (1, some ⟨0, 7000⟩)
      ∧ s₂.2.timerNextTimeoutTimespec (clock.time s₂.1 false) = (1, some ⟨0, 0⟩) :=
  ⟨_, _, rfl, rfl, rfl, rfl, rfl, rfl⟩

end QueueCall
