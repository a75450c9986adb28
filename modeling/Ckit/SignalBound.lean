import Mathlib.Algebra.BigOperators.Group.Finset.Basic
import Mathlib.Data.Fintype.BigOperators
import Ckit.SignalVal

/-!
# How full the pipe of a signal gets

A pipe has room for a fixed number of `int`s, and its write end blocks when it is
full: `signal_init` makes only the read end one that does not. That
`signal_raise_val` never blocks rests on `signal_is_raised`, which it asks first –
but the poll and the write are two accesses, and between them any number of
other threads may have polled the same empty pipe.

The bound comes from the writes to come. A thread that has seen the pipe empty
and not written yet holds, so to speak, a place in it. When a thread takes such a
place the pipe is empty, and there are no more places than threads; from there
on a write fills a place that was held, and a read only makes room
(`Bounded.room`). So the pipe never holds more `int`s than there are threads,
and it may hold as many (`exists_full`): the bound cannot be improved.

The counter of `signal_num_waiting` is kept in the same way, by the threads that
are inside `signal_wait_val`.
-/

namespace SigPc

/-- The thread has seen the pipe empty in `signal_raise_val`, and is about to write. -/
def writes : SigPc → Bool
  | .raiseWrite _ _ => true
  | _ => false

end SigPc

namespace SigState

/-- `signal_num_waiting`, of an `int` read as an `unsigned int`. -/
def signalNumWaiting {τ : Type} (s : SigState τ) : ℕ := (s.waiting % 2 ^ 32).toNat

variable {τ : Type} [Fintype τ]

/-- The number of threads at a place in the functions. -/
def number (f : SigPc → Bool) (s : SigState τ) : ℕ :=
  (Finset.univ.filter fun i => f (s.pc i) = true).card

theorem number_le (f : SigPc → Bool) (s : SigState τ) : s.number f ≤ Fintype.card τ :=
  Finset.card_le_univ _

theorem number_eq_sum (f : SigPc → Bool) (s : SigState τ) :
    s.number f = ∑ i, (f (s.pc i)).toNat := by
  unfold number
  rw [Finset.card_filter]
  refine Finset.sum_congr rfl fun i _ => ?_
  cases f (s.pc i) with
  | false => rfl
  | true => rfl

variable [DecidableEq τ] {s s' : SigState τ}

/-- A thread that goes on leaves one place and comes to another. -/
theorem number_goto (f : SigPc → Bool) (s : SigState τ) (i : τ) (pc : SigPc) :
    (s.goto i pc).number f + (f (s.pc i)).toNat = s.number f + (f pc).toNat := by
  have hrest : ∑ j ∈ Finset.univ.erase i, (f ((s.goto i pc).pc j)).toNat
      = ∑ j ∈ Finset.univ.erase i, (f (s.pc j)).toNat :=
    Finset.sum_congr rfl fun j hj => by rw [goto_pc_of_ne _ _ (Finset.ne_of_mem_erase hj)]
  rw [number_eq_sum, number_eq_sum, ← Finset.add_sum_erase _ _ (Finset.mem_univ i), hrest,
    ← Finset.add_sum_erase _ (fun j => (f (s.pc j)).toNat) (Finset.mem_univ i), goto_pc_self]
  omega

/-- **What every step keeps**: the `int`s in the pipe, with those about to be written, are no
more than the threads, and the counter counts the threads that wait. -/
structure Bounded (s : SigState τ) : Prop where
  room : s.pipe.length + s.number SigPc.writes ≤ Fintype.card τ
  count : s.waiting = s.number SigPc.inWait

omit [DecidableEq τ] in
theorem bounded_init : Bounded (signalInit τ) := by
  have hnone : ∀ f : SigPc → Bool, f .idle = false → (signalInit τ).number f = 0 := by
    intro f hf
    rw [number_eq_sum]
    exact Finset.sum_eq_zero fun i _ => by rw [signalInit, hf]; rfl
  constructor
  · rw [hnone _ rfl]
    exact Nat.zero_le _
  · rw [hnone _ rfl]
    rfl

/-- **The rule for one step.** A thread goes on to `pc`; the pipe is empty, or has got no more
than the thread was about to write; and the counter follows the thread. -/
theorem Bounded.goto (h : Bounded s) {i : τ} {pc : SigPc} {pipe : List ℤ} {waiting : ℤ}
    {returned woken : List ℕ}
    (hroom : pipe = [] ∨ pipe.length + pc.writes.toNat ≤ s.pipe.length + (s.pc i).writes.toNat)
    (hcount : waiting = s.waiting + pc.inWait.toNat - (s.pc i).inWait.toNat) :
    Bounded { s.goto i pc with
      pipe := pipe, waiting := waiting, returned := returned, woken := woken } := by
  have hwrites := number_goto SigPc.writes s i pc
  have hwaits := number_goto SigPc.inWait s i pc
  constructor
  · show pipe.length + (s.goto i pc).number SigPc.writes ≤ Fintype.card τ
    rcases hroom with rfl | hle
    · rw [List.length_nil, Nat.zero_add]
      exact number_le _ _
    · have := h.room
      omega
  · show waiting = ((s.goto i pc).number SigPc.inWait : ℤ)
    rw [hcount, h.count]
    omega

/-- The rule for a step that leaves the pipe and the counter alone, of a thread that stays in its
function and does not come to a write. -/
theorem Bounded.stays (h : Bounded s) {i : τ} {pc : SigPc} {returned woken : List ℕ}
    (hwrites : pc.writes = false) (hwait : pc.inWait = (s.pc i).inWait) :
    Bounded { s.goto i pc with returned := returned, woken := woken } := by
  refine h.goto (.inr ?_) ?_
  · rw [hwrites]
    exact Nat.le_add_right _ _
  · rw [hwait]
    exact (Int.add_sub_cancel ..).symm

/-- The rule for a step that reads from the pipe. -/
theorem Bounded.read (h : Bounded s) {i : τ} {pc : SigPc} {v : ℤ} {rest : List ℤ}
    (hpipe : s.pipe = v :: rest) (hwrites : pc.writes = false)
    (hwait : pc.inWait = (s.pc i).inWait) : Bounded { s.goto i pc with pipe := rest } := by
  refine h.goto (.inr ?_) ?_
  · rw [hpipe, hwrites, List.length_cons]
    show rest.length + 0 ≤ _
    omega
  · rw [hwait]
    exact (Int.add_sub_cancel ..).symm

theorem Bounded.access (h : Bounded s) {i : τ} {timedOut : Bool}
    (hstep : s.access i timedOut = some s') : Bounded s' := by
  have hmove := access_moves hstep
  generalize hpc : s.pc i = pc at hmove
  cases hmove with
  | raisePoll hempty =>
    refine h.goto (.inl hempty) ?_
    rw [hpc]
    exact (Int.add_sub_cancel ..).symm
  | raiseWrite =>
    -- the place in the pipe was held already
    refine h.goto (.inr ?_) ?_
    · rw [hpc, List.length_append]
      exact le_rfl
    · rw [hpc]
      exact (Int.add_sub_cancel ..).symm
  | waitDone =>
    refine h.goto (.inr (Nat.le_add_right _ _)) ?_
    rw [hpc]
    exact (congrArg (· - 1) (Int.add_zero s.waiting)).symm
  | waitRead hpipe | drain hpipe | clearRead hpipe =>
    exact h.read hpipe rfl (congrArg SigPc.inWait hpc).symm
  | _ => exact h.stays rfl (congrArg SigPc.inWait hpc).symm

theorem Bounded.step (h : Bounded s) {e : SigEvent τ} (hstep : s.step e = some s') :
    Bounded s' := by
  cases e with
  | callRaise i val | callClear i =>
    obtain ⟨hidle, hstep⟩ := Option.ite_none_right_eq_some.mp hstep
    obtain rfl := Option.some.inj hstep
    exact h.stays rfl (congrArg SigPc.inWait hidle).symm
  | callWait i timeout =>
    obtain ⟨hidle, hstep⟩ := Option.ite_none_right_eq_some.mp hstep
    obtain rfl := Option.some.inj hstep
    refine h.goto (.inr (Nat.le_add_right _ _)) ?_
    rw [hidle]
    exact (Int.sub_zero _).symm
  | access i timedOut => exact h.access hstep

/-! ## A run that fills it -/

section Full

variable {τ : Type} [DecidableEq τ]

/-- **All threads may poll before any of them writes**: those of the list come to their write
with the pipe still empty. -/
theorem polls_run (l : List τ) (hl : l.Nodup) (s : SigState τ) (hpipe : s.pipe = [])
    (hidle : ∀ i ∈ l, s.pc i = .idle) :
    ∃ s', run step s (l.flatMap fun i => [.callRaise i 0, .access i false]) = some s'
      ∧ s'.pipe = [] ∧ (∀ i ∈ l, ∃ b, s'.pc i = .raiseWrite 0 b)
      ∧ ∀ i, i ∉ l → s'.pc i = s.pc i := by
  induction l generalizing s with
  | nil => exact ⟨s, rfl, hpipe, fun _ h => absurd h List.not_mem_nil, fun _ _ => rfl⟩
  | cons i l ih =>
    obtain ⟨hnot, hnodup⟩ := List.nodup_cons.mp hl
    have hcall : s.step (.callRaise i 0) = some (s.goto i (.raisePoll 0 s.now)) :=
      if_pos (hidle i List.mem_cons_self)
    have hpoll : (s.goto i (.raisePoll 0 s.now)).step (.access i false)
        = some ((s.goto i (.raisePoll 0 s.now)).goto i (.raiseWrite 0 s.now)) := by
      unfold step access
      dsimp only
      rw [goto_pc_self]
      exact if_pos hpipe
    have hother : ∀ j, j ≠ i →
        ((s.goto i (.raisePoll 0 s.now)).goto i (.raiseWrite 0 s.now)).pc j = s.pc j := by
      intro j hj
      rw [goto_pc_of_ne _ _ hj, goto_pc_of_ne _ _ hj]
    obtain ⟨s', hrun, hempty, hwrites, hrest⟩ := ih hnodup
      ((s.goto i (.raisePoll 0 s.now)).goto i (.raiseWrite 0 s.now)) hpipe fun j hj => by
        rw [hother j fun heq => hnot (heq ▸ hj)]
        exact hidle j (List.mem_cons_of_mem _ hj)
    refine ⟨s', ?_, hempty, fun j hj => ?_, fun j hj => ?_⟩
    · rw [List.flatMap_cons, List.cons_append, List.cons_append, List.nil_append, Run.run_cons,
        hcall, Option.bind_some, Run.run_cons, hpoll, Option.bind_some]
      exact hrun
    · rcases List.mem_cons.mp hj with rfl | hj
      · refine ⟨s.now, ?_⟩
        rw [hrest j hnot, goto_pc_self]
      · exact hwrites j hj
    · obtain ⟨hji, hjl⟩ := not_or.mp fun h => hj (List.mem_cons.mpr h)
      rw [hrest j hjl, hother j hji]

/-- Then each of them writes. -/
theorem writes_run (l : List τ) (hl : l.Nodup) (s : SigState τ)
    (hwrites : ∀ i ∈ l, ∃ b, s.pc i = .raiseWrite 0 b) :
    ∃ s', run step s (l.map fun i => .access i false) = some s'
      ∧ s'.pipe.length = s.pipe.length + l.length := by
  induction l generalizing s with
  | nil => exact ⟨s, rfl, rfl⟩
  | cons i l ih =>
    obtain ⟨hnot, hnodup⟩ := List.nodup_cons.mp hl
    obtain ⟨b, hb⟩ := hwrites i List.mem_cons_self
    obtain ⟨t, ht, hpipe, hother⟩ : ∃ t, s.step (.access i false) = some t
        ∧ t.pipe = s.pipe ++ [0] ∧ ∀ j, j ≠ i → t.pc j = s.pc j := by
      refine ⟨{ s.goto i .idle with pipe := s.pipe ++ [0], returned := b :: s.returned }, ?_, rfl,
        fun j hj => goto_pc_of_ne _ _ hj⟩
      unfold step access
      dsimp only
      rw [hb]
    obtain ⟨s', hrun, hlen⟩ := ih hnodup t fun j hj => by
      rw [hother j fun heq : j = i => hnot (heq ▸ hj)]
      exact hwrites j (List.mem_cons_of_mem _ hj)
    refine ⟨s', Run.run_cons_eq_some.mpr ⟨t, ht, hrun⟩, ?_⟩
    rw [hlen, hpipe, List.length_append, List.length_singleton, List.length_cons]
    omega

/-- **A pipe with as many `int`s as there are threads.** -/
theorem exists_full (τ : Type) [DecidableEq τ] [Fintype τ] :
    ∃ es s, run step (signalInit τ) es = some s ∧ s.pipe.length = Fintype.card τ := by
  have hnodup := (Finset.univ : Finset τ).nodup_toList
  obtain ⟨s, hpolls, hempty, hwrites, -⟩ := polls_run _ hnodup (signalInit τ) rfl fun _ _ => rfl
  obtain ⟨s', hrun, hlen⟩ := writes_run _ hnodup s hwrites
  refine ⟨_, s', by rw [Run.run_append, hpolls, Option.bind_some]; exact hrun, ?_⟩
  rw [hlen, hempty, List.length_nil, Nat.zero_add, Finset.length_toList, Finset.card_univ]

end Full

end SigState

/-! ## The bound over whole runs -/

namespace SigValues

open SigState

variable {τ : Type} [DecidableEq τ] {s s' : SigValues τ}

/-- The history changes nothing in what the threads do. -/
@[simp] theorem note_sig (s : SigValues τ) (i : τ) (sig : SigState τ) :
    (s.note i sig).sig = sig := by
  unfold note
  split <;> rfl

/-- A step of the signal, or a poll that fails. -/
theorem sig_of_step {e : SigValEvent τ} (hstep : s.step e = some s') :
    (∃ e, s.sig.step e = some s'.sig)
      ∨ ∃ i timeout, s.sig.pc i = .waitPoll timeout
        ∧ s'.sig = s.sig.goto i (.waitClear (-1) none) := by
  cases e with
  | sig e =>
    left
    cases e with
    | access i timedOut =>
      obtain ⟨sig, hsig, rfl⟩ := Option.map_eq_some_iff.mp hstep
      exact ⟨_, by rw [note_sig]; exact hsig⟩
    | _ =>
      obtain ⟨sig, hsig, rfl⟩ := Option.map_eq_some_iff.mp hstep
      exact ⟨_, hsig⟩
  | pollError i =>
    right
    unfold step at hstep
    dsimp only at hstep
    split at hstep
    · obtain rfl := Option.some.inj hstep
      exact ⟨i, _, ‹_›, rfl⟩
    · exact absurd hstep (Option.some_ne_none _).symm

/-- Every run of the signal is one with a history. -/
theorem run_sig {es : List (SigEvent τ)} {sig' : SigState τ}
    (hrun : run SigState.step s.sig es = some sig') :
    ∃ s', run step s (es.map .sig) = some s' ∧ s'.sig = sig' := by
  induction es generalizing s with
  | nil => exact ⟨s, rfl, Option.some.inj hrun⟩
  | cons e es ih =>
    obtain ⟨sig, hsig, hrun⟩ := Run.run_cons_eq_some.mp hrun
    have hstep : ∃ t, s.step (.sig e) = some t ∧ t.sig = sig := by
      cases e with
      | access i timedOut =>
        exact ⟨s.note i sig, Option.map_eq_some_iff.mpr ⟨sig, hsig, rfl⟩, note_sig s i sig⟩
      | _ => exact ⟨{ s with sig := sig }, Option.map_eq_some_iff.mpr ⟨sig, hsig, rfl⟩, rfl⟩
    obtain ⟨t, ht, rfl⟩ := hstep
    obtain ⟨s', hrun', hs'⟩ := ih hrun
    exact ⟨s', Run.run_cons_eq_some.mpr ⟨t, ht, hrun'⟩, hs'⟩

variable [Fintype τ]

theorem bounded_step {e : SigValEvent τ} (h : Bounded s.sig) (hstep : s.step e = some s') :
    Bounded s'.sig := by
  rcases sig_of_step hstep with ⟨e, hsig⟩ | ⟨i, timeout, hpc, hsig⟩
  · exact h.step hsig
  · rw [hsig]
    exact h.stays rfl (congrArg SigPc.inWait hpc).symm

/-- **How full the pipe gets.** Any number of threads raise, wait for and clear a signal from
`signal_init`, with polls that time out or fail: in every state the `int`s in the pipe and the
writes that are to come are together no more than the threads, and `signal_num_waiting` is the
number of threads inside `signal_wait_val`. And for any number of threads there is a run that
leaves as many `int`s in the pipe. The pipe is taken to have room for all of them; a real one
has a capacity, and with more threads than it has room for `int`s a write may block. -/
theorem signal_pipe_bound (τ : Type) [DecidableEq τ] [Fintype τ] :
    (∀ es s, run step (init τ) es = some s →
        s.sig.pipe.length + s.sig.number SigPc.writes ≤ Fintype.card τ
          ∧ s.sig.signalNumWaiting = s.sig.number SigPc.inWait % 2 ^ 32)
      ∧ ∃ es s, run step (init τ) es = some s ∧ s.sig.pipe.length = Fintype.card τ := by
  constructor
  · intro es s hrun
    have hb : Bounded s.sig :=
      Run.inv (fun (s : SigValues τ) _ _ (h : Bounded s.sig) hstep => bounded_step h hstep)
        bounded_init hrun
    refine ⟨hb.room, ?_⟩
    unfold signalNumWaiting
    rw [hb.count]
    exact_mod_cast rfl
  · obtain ⟨es, sig, hrun, hfull⟩ := exists_full τ
    obtain ⟨s, hrun', hsig⟩ := run_sig (s := init τ) hrun
    exact ⟨_, s, hrun', by rw [hsig, hfull]⟩

/-- Two raises that poll before either writes, and a wait that reads one of the two `int`s. -/
theorem signal_pipe_bound_two :
    ∃ s, run step (init Bool) [.sig (.callRaise false 5), .sig (.access false false),
        .sig (.callRaise true 6), .sig (.access true false), .sig (.access false false),
        .sig (.access true false), .sig (.callWait true (-1)), .sig (.access true false)] = some s
      ∧ s.sig.pipe.length + s.sig.number SigPc.writes ≤ 2
      ∧ s.sig.signalNumWaiting = s.sig.number SigPc.inWait % 2 ^ 32 :=
  ⟨_, rfl, (signal_pipe_bound Bool).1 [.sig (.callRaise false 5), .sig (.access false false),
    .sig (.callRaise true 6), .sig (.access true false), .sig (.access false false),
    .sig (.access true false), .sig (.callWait true (-1)), .sig (.access true false)] _ rfl⟩

end SigValues
