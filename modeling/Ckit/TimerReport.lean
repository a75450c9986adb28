import Ckit.TimerClock

/-!
# What the timer queue is told, and what it tells

A delay goes into the queue through `timer_mod` and `timer_add`, as a number of microseconds
that is added to the clock. It comes out through three queries, which all subtract the clock
from the deadline at the front: `timer_next_timeout` as microseconds in an `unsigned long`,
`timer_next_timeout_timespec` as a `struct timespec`, and `timer_next_timeout_timeval` as a
`struct timeval` made of the latter.

Either way has one path that does not do what the others do. Of the three queries only the
first does not stop at zero, so a deadline that is past comes out as a huge number
(`timer_reports_agree_iff`). And `timer_mod` writes the delay it is given into the timer only
where it takes the timer out of the queue first; a timer outside gets the delay it was last
given (`timer_mod_delay_iff`).
-/

namespace Timespec

/-- The nanoseconds are less than a second, and the seconds, in microseconds, are a `long`. -/
structure InRange (t : Timespec) : Prop where
  normal : t.Normal
  ge : -2 ^ 63 ≤ t.tvSec * 1000000
  lt : t.tvSec * 1000000 < 2 ^ 63

/-- The whole microseconds, as `timer_next_timeout` puts them together. -/
def toUsec (t : Timespec) : ℤ := t.tvSec * 1000000 + t.tvNsec.tdiv 1000

/-- **The microseconds are the nanoseconds rounded down**, also of a negative time. -/
theorem toUsec_eq {t : Timespec} (h : t.Normal) : t.toUsec = t.toNsec / 1000 := by
  obtain ⟨hge, -⟩ := h
  rw [toUsec, Int.tdiv_eq_ediv_of_nonneg hge]
  unfold toNsec nsecPerSec
  omega

end Timespec

theorem ulong_of_nonneg {n : ℤ} (hge : 0 ≤ n) (hlt : n < 2 ^ 64) : (ulong n : ℤ) = n := by
  unfold ulong
  rw [Int.emod_eq_of_lt hge hlt, Int.toNat_of_nonneg hge]

/-- A negative number that is not too small is a large one as an `unsigned long`. -/
theorem ulong_of_neg {n : ℤ} (hlt : n < 0) (hge : -2 ^ 64 ≤ n) : (ulong n : ℤ) = n + 2 ^ 64 := by
  unfold ulong
  omega

theorem i64_of_fits {n : ℤ} (hge : -2 ^ 63 ≤ n) (hlt : n < 2 ^ 63) : i64 n = n := by
  unfold i64
  rw [Int.bmod_eq_of_le]
  · omega
  · omega

namespace TimerQueue

variable {ι θ : Type} {tq tq' : TimerQueue ι θ}

/-! ## The three queries -/

/-- `timer_queue_signal_lower`, on the state: `signal_clear_val` reads until there is nothing. -/
def timerQueueSignalLower (tq : TimerQueue ι θ) : TimerQueue ι θ := { tq with pipe := [] }

/-- `timer_next_timeout`: its return value, what it stores in `*timeout`, and the queue it
leaves. -/
def timerNextTimeout (tq : TimerQueue ι θ) (now : Timespec) :
    (ℤ × Option ℕ) × TimerQueue ι θ :=
  (nextTimeout now tq.front, tq.timerQueueSignalLower)

/-- `timer_next_timeout_timeval`. Where the queue is empty it copies what the stack held in
place of its `ts`. -/
def timerNextTimeoutTimeval (tq : TimerQueue ι θ) (now ts : Timespec) : ℤ × Timeval :=
  let (ret, timeout) := tq.timerNextTimeoutTimespec now
  let ts := timeout.getD ts
  (ret, ⟨ts.tvSec, ts.tvNsec.tdiv 1000⟩)

/-- **The three queries tell the same**: each succeeds, and reports the time from `now` to
`deadline` in whole microseconds, or none where the deadline is past. -/
def ReportsAgree (tq : TimerQueue ι θ) (deadline now ts : Timespec) : Prop :=
  ∃ (usec : ℕ) (timeout : Timespec) (tv : Timeval),
    (tq.timerNextTimeout now).1 = (1, some usec)
      ∧ tq.timerNextTimeoutTimespec now = (1, some timeout)
      ∧ tq.timerNextTimeoutTimeval now ts = (1, tv)
      ∧ (usec : ℤ) = timeout.tvSec * 1000000 + timeout.tvNsec.tdiv 1000
      ∧ (usec : ℤ) = max 0 (deadline.toNsec - now.toNsec) / 1000
      ∧ tv = ⟨timeout.tvSec, timeout.tvNsec.tdiv 1000⟩

theorem front_of_nonempty (hne : tq.queue.heapEmpty = false) :
    tq.front = some (tq.queue.heapFront, tq.deadline tq.queue.heapFront) := by
  rw [front, if_neg (by rw [hne]; exact Bool.false_ne_true)]
  rfl

/-- What `timer_next_timeout` says of a deadline. -/
theorem timerNextTimeout_of_nonempty (hne : tq.queue.heapEmpty = false) (now : Timespec) :
    (tq.timerNextTimeout now).1
      = (1, some (ulong ((tq.deadline tq.queue.heapFront).sub now).toUsec)) := by
  show nextTimeout now tq.front = _
  rw [front_of_nonempty hne]
  rfl

theorem timerNextTimeoutTimespec_of_nonempty (hne : tq.queue.heapEmpty = false)
    (now : Timespec) : tq.timerNextTimeoutTimespec now
      = (1, some (remaining (tq.deadline tq.queue.heapFront) now)) :=
  report_of_front (by rw [front_of_nonempty hne]; rfl) now

/-- The microseconds that remain are the nanoseconds that remain, rounded down. -/
theorem toUsec_remaining {timeout now : Timespec} (htime : timeout.Normal) (hnow : now.Normal) :
    (remaining timeout now).toUsec = max 0 (timeout.toNsec - now.toNsec) / 1000 := by
  obtain ⟨hnormal, heq⟩ := toNsec_remaining htime hnow
  rw [Timespec.toUsec_eq hnormal, heq]

/-- The difference of two times in range is far from a second turn of an `unsigned long`. -/
theorem toUsec_sub_bounds {timeout now : Timespec} (htime : timeout.InRange)
    (hnow : now.InRange) :
    -2 ^ 64 < (timeout.sub now).toUsec ∧ (timeout.sub now).toUsec < 2 ^ 64 := by
  rw [Timespec.toUsec_eq (Timespec.normal_sub htime.normal hnow.normal), Timespec.toNsec_sub]
  obtain ⟨⟨hge₁, hlt₁⟩, hmin₁, hmax₁⟩ := htime
  obtain ⟨⟨hge₂, hlt₂⟩, hmin₂, hmax₂⟩ := hnow
  unfold Timespec.toNsec nsecPerSec at *
  omega

/-- **The three queries agree exactly where the deadline at the front is not past.** -/
theorem timer_reports_agree_iff (tq : TimerQueue ι θ) (now ts : Timespec)
    (hne : tq.queue.heapEmpty = false) (hnow : now.InRange)
    (htime : (tq.deadline tq.queue.heapFront).InRange) :
    tq.ReportsAgree (tq.deadline tq.queue.heapFront) now ts
      ↔ now.toNsec ≤ (tq.deadline tq.queue.heapFront).toNsec := by
  have husec := timerNextTimeout_of_nonempty hne now
  have htimespec := timerNextTimeoutTimespec_of_nonempty hne now
  have htimeval : tq.timerNextTimeoutTimeval now ts
      = (1, ⟨(remaining (tq.deadline tq.queue.heapFront) now).tvSec,
          (remaining (tq.deadline tq.queue.heapFront) now).tvNsec.tdiv 1000⟩) := by
    rw [timerNextTimeoutTimeval, htimespec]
    rfl
  have hremaining := toUsec_remaining htime.normal hnow.normal
  obtain ⟨hmin, hmax⟩ := toUsec_sub_bounds htime hnow
  have hsub : ((tq.deadline tq.queue.heapFront).sub now).toUsec
      = ((tq.deadline tq.queue.heapFront).toNsec - now.toNsec) / 1000 := by
    rw [Timespec.toUsec_eq (Timespec.normal_sub htime.normal hnow.normal), Timespec.toNsec_sub]
  generalize tq.deadline tq.queue.heapFront = deadline at *
  constructor
  · rintro ⟨usec, timeout, tv, h₁, -, -, -, hmicro, -⟩
    rw [husec] at h₁
    obtain rfl := Option.some.inj (Prod.mk.inj h₁).2
    by_contra hpast
    -- rounded down, a time that is past by less than a microsecond is still negative
    rw [ulong_of_neg (by omega) hmin.le] at hmicro
    omega
  · intro hle
    refine ⟨_, _, _, husec, htimespec, htimeval, ?_, ?_, rfl⟩
    · rw [ulong_of_nonneg (by omega) hmax]
      show _ = (remaining deadline now).toUsec
      rw [hremaining, hsub, max_eq_right (by omega)]
    · rw [ulong_of_nonneg (by omega) hmax, hsub, max_eq_right (by omega)]

/-- A queue with one timer that is due at five seconds. -/
def dueAtFive : TimerQueue ℕ Bool :=
  ⟨⟨heapDefaultSize, 1, heapCmp, fun _ => 0, heapDefaultSize, fun _ => ⟨0, true⟩,
    fun _ => ⟨⟨5, 0⟩, 7⟩⟩, [], false⟩

/-- A second and a half before the deadline. -/
theorem timer_reports_agree_early :
    (⟨3, 500000000⟩ : Timespec).toNsec ≤ (⟨5, 0⟩ : Timespec).toNsec
      ∧ dueAtFive.ReportsAgree ⟨5, 0⟩ ⟨3, 500000000⟩ ⟨0, 0⟩ :=
  ⟨by decide, (timer_reports_agree_iff dueAtFive ⟨3, 500000000⟩ ⟨0, 0⟩ rfl
    ⟨by decide, by decide, by decide⟩ ⟨by decide, by decide, by decide⟩).mpr (by decide)⟩

/-- **A deadline that is past by one nanosecond**: two of the queries report no time, the third
one more than half a million years. -/
theorem timer_reports_differ :
    dueAtFive.queue.heapEmpty = false
      ∧ (dueAtFive.timerNextTimeout ⟨5, 1⟩).1 = (1, some (2 ^ 64 - 1))
      ∧ dueAtFive.timerNextTimeoutTimespec ⟨5, 1⟩ = (1, some ⟨0, 0⟩)
      ∧ dueAtFive.timerNextTimeoutTimeval ⟨5, 1⟩ ⟨0, 0⟩ = (1, ⟨0, 0⟩)
      ∧ ¬ dueAtFive.ReportsAgree ⟨5, 0⟩ ⟨5, 1⟩ ⟨0, 0⟩ := by
  have husec : (dueAtFive.timerNextTimeout ⟨5, 1⟩).1 = (1, some (2 ^ 64 - 1)) := by decide
  refine ⟨by decide, husec, by decide, by decide, ?_⟩
  rintro ⟨usec, timeout, tv, h₁, -, -, -, hmicro, -⟩
  rw [husec] at h₁
  obtain rfl := Option.some.inj (Prod.mk.inj h₁).2
  exact absurd hmicro (by decide)

/-! ## The delay a timer is given -/

/-- **The timer is due `delay` microseconds after `now`.** -/
structure Delayed (tq : TimerQueue ι θ) (t : ι) (now : Timespec) (delay : ℤ) : Prop where
  normal : (tq.deadline t).Normal
  eq : (tq.deadline t).toNsec = now.toNsec + delay * 1000

variable [DecidableEq ι] [DecidableEq θ]

/-- What `timer_mod` leaves in the timer. -/
def modified (tq : TimerQueue ι θ) (t : ι) (expires : ℕ) (now : Timespec) : Timer :=
  let delay := if tq.timerScheduled t then i64 expires else (tq.queue.obj t).expires
  ⟨now.addNsec (i64 (delay * 1000)), delay⟩

/-- The delay a timer has once `timer_mod` may have taken it out. -/
theorem unschedule_expires {self : θ} {t : ι} {expires : ℕ} {r : Bool × TimerQueue ι θ}
    (hrun : tq.unschedule self t expires = some r) :
    (r.2.queue.obj t).expires
      = if tq.timerScheduled t then i64 expires else (tq.queue.obj t).expires := by
  unfold unschedule at hrun
  split at hrun
  next hsched =>
    obtain ⟨tq₁, hdel, hrun⟩ := Option.bind_eq_some_iff.mp hrun
    obtain rfl := Option.some.inj hrun
    rw [if_pos hsched]
    show (Function.update tq₁.queue.obj t _ t).expires = _
    rw [Function.update_self]
  next hsched =>
    obtain rfl := Option.some.inj hrun
    rw [if_neg hsched]

/-- **The timer after `timer_mod`**: its delay is the new one only where it was scheduled. -/
theorem timerMod_obj {self : θ} {t : ι} {expires : ℕ} {now : Timespec}
    {alloc : Option (ℕ → ι)} {ret : ℤ}
    (hrun : tq.timerMod self t expires now alloc = some (ret, tq')) :
    tq'.queue.obj t = tq.modified t expires now := by
  obtain ⟨⟨wasFirst, tq₁⟩, hun, hrun⟩ := Option.bind_eq_some_iff.mp hrun
  obtain ⟨⟨ret', raise, tq₂⟩, hin, hrun⟩ := Option.bind_eq_some_iff.mp hrun
  obtain ⟨-, rfl⟩ := Prod.mk.inj (Option.some.inj hrun)
  rw [signalIf_queue, (insertSection_keeps hin).2]
  show Function.update tq₁.queue.obj t _ t = _
  rw [Function.update_self, unschedule_expires hun]
  rfl

/-- `timer_mod` from what its two parts do. -/
theorem timerMod_of_parts {self : θ} {t : ι} {expires : ℕ} {now : Timespec} {alloc : Option (ℕ → ι)}
    {wasFirst raise : Bool} {tq₁ tq₂ : TimerQueue ι θ} {ret : ℤ}
    (hun : tq.unschedule self t expires = some (wasFirst, tq₁))
    (hin : (tq₁.setTimeout t now).insertSection self t wasFirst alloc = some (ret, raise, tq₂)) :
    tq.timerMod self t expires now alloc = some (ret, tq₂.signalIf raise) := by
  unfold timerMod
  rw [hun]
  simp only [Option.bind_eq_bind, Option.bind_some, hin]
  rfl

/-- A timer in a queue that is well formed can always be rescheduled; without memory for it,
`timer_mod` says so. -/
theorem timerMod_returns (hw : tq.queue.WF) (hs : tq.queue.size < 2 ^ 31) (self : θ) (t : ι)
    (expires : ℕ) (now : Timespec) (alloc : Option (ℕ → ι)) :
    ∃ ret tq', tq.timerMod self t expires now alloc = some (ret, tq')
      ∧ (ret = 1 ∨ ret = -1) := by
  have hun : ∃ r, tq.unschedule self t expires = some r ∧ r.2.queue.WF
      ∧ r.2.queue.size < 2 ^ 31 := by
    unfold unschedule
    split
    · obtain ⟨queue, hout, hdel⟩ := delSection_cases hw hs self t
      rw [timerDel, hdel]
      refine ⟨_, rfl, ?_, ?_⟩
      · exact Heap.wf_obj (by rw [signalIf_queue]; exact hout.wf hw)
      · have hle := hout.size_le
        show ((signalIf _ _).queue).size < 2 ^ 31
        rw [signalIf_queue]
        exact lt_of_le_of_lt hle hs
    · exact ⟨_, rfl, hw, hs⟩
  obtain ⟨⟨wasFirst, tq₁⟩, hun, hw₁, hs₁⟩ := hun
  have hset : (tq₁.setTimeout t now).queue.WF := Heap.wf_obj hw₁
  rcases insertSection_cases hset (Heap.grows_of_lt hs₁ alloc) self t wasFirst with
    ⟨-, -, hin⟩ | ⟨queue, -, hin⟩
  · exact ⟨-1, _, timerMod_of_parts hun hin, Or.inr rfl⟩
  · exact ⟨1, _, timerMod_of_parts hun hin, Or.inl rfl⟩

omit [DecidableEq ι] [DecidableEq θ] in
/-- A delay that is a `long` in nanoseconds is added to the clock as it is. -/
theorem delayed_of_obj {t : ι} {now : Timespec} {delay : ℤ} (hnow : now.Normal)
    (hge : -2 ^ 63 ≤ delay * 1000) (hlt : delay * 1000 < 2 ^ 63)
    (hobj : tq.queue.obj t = ⟨now.addNsec (i64 (delay * 1000)), delay⟩) :
    tq.Delayed t now delay := by
  have hdeadline : tq.deadline t = now.addNsec (delay * 1000) := by
    rw [deadline, hobj, i64_of_fits hge hlt]
  refine ⟨?_, ?_⟩
  · rw [hdeadline]
    exact Timespec.normal_addNsec hnow _
  · rw [hdeadline, Timespec.toNsec_addNsec]

/-- **`timer_mod` uses the delay it is given exactly where the timer is scheduled**, or has the
same delay already; `timer_add`, which passes the timer's own delay, always does. -/
theorem timer_mod_delay_iff (tq : TimerQueue ι θ) (self : θ) (t : ι) (now : Timespec)
    (alloc : Option (ℕ → ι)) (hnow : now.Normal) :
    (∀ (expires : ℕ) (tq' : TimerQueue ι θ), expires * 1000 < 2 ^ 63 →
        tq.timerMod self t expires now alloc = some (1, tq') →
        (tq'.Delayed t now expires ∧ (tq'.queue.obj t).expires = expires
          ↔ tq.timerScheduled t = true ∨ (tq.queue.obj t).expires = expires))
      ∧ (tq.timerScheduled t = false →
        -2 ^ 63 ≤ (tq.queue.obj t).expires * 1000 →
        (tq.queue.obj t).expires * 1000 < 2 ^ 63 →
        (∀ ret tq', tq.timerAdd self t now alloc = some (ret, tq') →
          tq'.Delayed t now (tq.queue.obj t).expires)
        ∧ (tq.queue.WF → tq.queue.size < 2 ^ 31 →
          ∃ ret tq', tq.timerAdd self t now alloc = some (ret, tq') ∧ (ret = 1 ∨ ret = -1))) := by
  constructor
  · intro expires tq' hexp hrun
    have hobj := timerMod_obj hrun
    have hfits : i64 (expires : ℤ) = expires := i64_of_fits (by omega) (by omega)
    by_cases hsched : tq.timerScheduled t = true
    · rw [modified, if_pos hsched, hfits] at hobj
      refine iff_of_true ⟨delayed_of_obj hnow (by omega) (by omega) hobj, ?_⟩ (Or.inl hsched)
      rw [hobj]
    · rw [modified, if_neg hsched] at hobj
      have hexpires : (tq'.queue.obj t).expires = (tq.queue.obj t).expires := by rw [hobj]
      constructor
      · rintro ⟨-, heq⟩
        exact Or.inr (hexpires.symm.trans heq)
      · intro hor
        have heq := hor.resolve_left hsched
        rw [heq] at hobj
        exact ⟨delayed_of_obj hnow (by omega) (by omega) hobj, hexpires.trans heq⟩
  · intro hsched hge hlt
    have hno : ¬ tq.timerScheduled t = true := by
      rw [hsched]
      exact Bool.false_ne_true
    rw [timerAdd, if_neg hno]
    refine ⟨fun ret tq' hrun => ?_, fun hw hs => timerMod_returns hw hs self t _ now alloc⟩
    have hobj := timerMod_obj hrun
    rw [modified, if_neg hno] at hobj
    exact delayed_of_obj hnow hge hlt hobj

/-- A timer that is scheduled gets a new delay, and one that is not is added with its own. -/
theorem timer_mod_delay_scheduled :
    (∃ tq', dueAtFive.timerMod false 0 9 ⟨5, 0⟩ none = some (1, tq')
      ∧ tq'.Delayed 0 ⟨5, 0⟩ 9 ∧ (tq'.queue.obj 0).expires = 9)
      ∧ (∃ ret tq', (natQueue false).timerAdd false 1 ⟨5, 0⟩ none = some (ret, tq')
        ∧ tq'.Delayed 1 ⟨5, 0⟩ 7) := by
  have hmod := (timer_mod_delay_iff dueAtFive false 0 ⟨5, 0⟩ none (by decide)).1 9
  have hadd := (timer_mod_delay_iff (natQueue false) false 1 ⟨5, 0⟩ none (by decide)).2 rfl
    (by decide) (by decide)
  exact ⟨⟨_, rfl, (hmod _ (by decide) rfl).mpr (Or.inl rfl)⟩, ⟨_, _, rfl, hadd.1 _ _ rfl⟩⟩

/-- **A delay that is not used**: nine microseconds are asked for, and `timer_mod` returns `1`
with a deadline seven microseconds away, the delay the timer had before. -/
theorem timer_mod_delay_ignored :
    ∃ tq', (natQueue false).timerMod false 1 9 ⟨5, 0⟩ none = some (1, tq')
      ∧ tq'.deadline 1 = ⟨5, 7000⟩ ∧ (tq'.queue.obj 1).expires = 7
      ∧ ¬ (tq'.Delayed 1 ⟨5, 0⟩ (9 : ℕ) ∧ (tq'.queue.obj 1).expires = (9 : ℕ)) :=
  ⟨_, rfl, rfl, rfl, fun h => absurd h.2 (by decide)⟩

end TimerQueue
