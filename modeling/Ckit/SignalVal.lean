import Ckit.Signal

/-!
# The values of a signal

Any number of threads raise a signal with a value, wait for one, or clear it. They all read
from one pipe, and between the poll of a wait and its next read everything may be read away
by the others.

The history below numbers the `int`s as they are written. A pipe is first in, first out, so
the `int` a read takes is the first that has not been taken, and `taken` is its number. A
wait in progress that has read an `int` keeps its number (`got`), and `log` has the writes
and the returns of waits in their order, the latest first.

What the log must look like is `Sound`: a wait that returns `1` has stored the value of an
earlier write that no earlier wait has delivered, and a wait that returns `0` or `-1` has
stored none. A poll may also fail, and the wait returns `-1` then.
-/

/-- A write to the pipe, or the return of a wait with what it has stored. -/
inductive SigLog (τ : Type) where
  | wrote (k : ℕ) (val : ℤ)
  | returned (i : τ) (ret : ℤ) (val : Option ℤ) (got : Option ℕ)
deriving DecidableEq, Repr

/-- A signal with the history of its values. -/
structure SigValues (τ : Type) where
  sig : SigState τ
  /-- All that was written, in its order. -/
  written : List ℤ
  /-- How much of it was read. -/
  taken : ℕ
  /-- Which `int` the wait of a thread has read. -/
  got : τ → Option ℕ
  log : List (SigLog τ)

/-- A step of the system; a poll may fail. -/
inductive SigValEvent (τ : Type) where
  | sig (e : SigEvent τ)
  | pollError (i : τ)
deriving DecidableEq, Repr

namespace SigLog

variable {τ : Type}

/-- A wait has delivered the `int` with number `k`. -/
def Delivered (k : ℕ) (log : List (SigLog τ)) : Prop :=
  ∃ i ret val, .returned i ret val (some k) ∈ log

/-- **Values are genuine and delivered once.** -/
def Sound : List (SigLog τ) → Prop
  | [] => True
  | .wrote k _ :: log => (∀ val, .wrote k val ∉ log) ∧ Sound log
  | .returned _ ret val got :: log =>
    (ret = 1 ∧ (∃ k v, got = some k ∧ val = some v ∧ .wrote k v ∈ log ∧ ¬ Delivered k log)
      ∨ (ret = 0 ∨ ret = -1) ∧ val = none ∧ got = none) ∧ Sound log

end SigLog

namespace SigValues

variable {τ : Type}

/-- A signal from `signal_init`. -/
def init (τ : Type) : SigValues τ := ⟨signalInit τ, [], 0, fun _ => none, []⟩

variable [DecidableEq τ]

/-- What an access of thread `i`, which leads to `sig`, adds to the history. -/
def note (s : SigValues τ) (i : τ) (sig : SigState τ) : SigValues τ :=
  match s.sig.pc i, s.sig.pipe with
  | .raiseWrite val _, _ =>
    { s with
      sig := sig
      written := s.written ++ [val]
      log := .wrote s.written.length val :: s.log }
  | .waitRead _ _, _ :: _ =>
    { s with
      sig := sig
      taken := s.taken + 1
      got := Function.update s.got i (some s.taken) }
  | .waitClear _ _, _ :: _ | .clearRead, _ :: _ => { s with sig := sig, taken := s.taken + 1 }
  | .waitDone ret val, _ =>
    { s with
      sig := sig
      got := Function.update s.got i none
      log := .returned i ret val (s.got i) :: s.log }
  | _, _ => { s with sig := sig }

/-- One step of the system. -/
def step (s : SigValues τ) : SigValEvent τ → Option (SigValues τ)
  | .sig (.access i timedOut) => (s.sig.step (.access i timedOut)).map (s.note i)
  | .sig e => (s.sig.step e).map fun sig => { s with sig := sig }
  | .pollError i =>
    match s.sig.pc i with
    | .waitPoll _ => some { s with sig := s.sig.goto i (.waitClear (-1) none) }
    | _ => none

/-! ## What the threads keep -/

/-- What a thread has read, as far as it is in a wait. -/
def Reading (written : List ℤ) (taken : ℕ) : SigPc → Option ℕ → Prop
  | .waitClear ret val, got | .waitDone ret val, got =>
    ret = 1 ∧ (∃ k v, got = some k ∧ val = some v ∧ written[k]? = some v ∧ k < taken)
      ∨ (ret = 0 ∨ ret = -1) ∧ val = none ∧ got = none
  | _, got => got = none

/-- **What a step keeps.** The pipe is what is written and not taken; a thread has read what
it says, and nobody else has read or delivered the same. -/
structure ValInv (s : SigValues τ) : Prop where
  pipe : s.sig.pipe = s.written.drop s.taken
  taken_le : s.taken ≤ s.written.length
  wrote : ∀ k v, s.written[k]? = some v → .wrote k v ∈ s.log
  wrote_lt : ∀ k v, .wrote k v ∈ s.log → k < s.written.length
  reading : ∀ i, Reading s.written s.taken (s.sig.pc i) (s.got i)
  apart : ∀ i j k, s.got i = some k → s.got j = some k → i = j
  past : ∀ k, SigLog.Delivered k s.log → k < s.taken ∧ ∀ i, s.got i ≠ some k
  sound : SigLog.Sound s.log

omit [DecidableEq τ] in
theorem valInv_init : ValInv (init τ) where
  pipe := rfl
  taken_le := le_rfl
  wrote _ _ h := nomatch h
  wrote_lt _ _ h := absurd h List.not_mem_nil
  reading _ := rfl
  apart _ _ _ h := nomatch h
  past := by
    rintro k ⟨i, ret, val, h⟩
    exact absurd h List.not_mem_nil
  sound := trivial

variable {s s' : SigValues τ}

omit [DecidableEq τ] in
/-- More may be written and taken meanwhile. -/
theorem Reading.mono {written : List ℤ} {taken taken' : ℕ} {pc : SigPc} {got : Option ℕ}
    (h : Reading written taken pc got) (more : List ℤ) (hle : taken ≤ taken') :
    Reading (written ++ more) taken' pc got := by
  have hmore : ∀ {ret : ℤ} {val : Option ℤ},
      (ret = 1 ∧ (∃ k v, got = some k ∧ val = some v ∧ written[k]? = some v ∧ k < taken)
        ∨ (ret = 0 ∨ ret = -1) ∧ val = none ∧ got = none) →
      (ret = 1 ∧ (∃ k v, got = some k ∧ val = some v ∧ (written ++ more)[k]? = some v ∧ k < taken')
        ∨ (ret = 0 ∨ ret = -1) ∧ val = none ∧ got = none) := by
    rintro ret val (⟨hret, k, v, hgot, hval, hk, hlt⟩ | hnone)
    · obtain ⟨hlen, -⟩ := List.getElem?_eq_some_iff.mp hk
      refine .inl ⟨hret, k, v, hgot, hval, ?_, hlt.trans_le hle⟩
      rw [List.getElem?_append_left hlen]
      exact hk
    · exact .inr hnone
  cases pc with
  | waitClear ret val => exact hmore h
  | waitDone ret val => exact hmore h
  | _ => exact h

omit [DecidableEq τ] in
/-- What a thread has got is taken. -/
theorem ValInv.got_lt (h : ValInv s) {j : τ} {k : ℕ} (hj : s.got j = some k) : k < s.taken := by
  have hread := h.reading j
  rw [hj] at hread
  cases hpc : s.sig.pc j with
  | waitClear | waitDone =>
    rw [hpc] at hread
    obtain ⟨-, k', -, hk, -, -, hlt⟩ | ⟨-, -, hnone⟩ := hread
    · exact Option.some.inj hk ▸ hlt
    · exact nomatch hnone
  | _ =>
    rw [hpc] at hread
    exact nomatch hread

omit [DecidableEq τ] in
/-- **The rule for one step**, of thread `i`. More may be written and taken; what the thread
has got is new, or what it had; and what is delivered is what it had. -/
theorem ValInv.next (h : ValInv s) (i : τ) (more : List ℤ)
    (hpc : ∀ j, j ≠ i → s'.sig.pc j = s.sig.pc j) (hgot : ∀ j, j ≠ i → s'.got j = s.got j)
    (hwritten : s'.written = s.written ++ more) (htaken : s.taken ≤ s'.taken)
    (hpipe : s'.sig.pipe = s'.written.drop s'.taken) (hle : s'.taken ≤ s'.written.length)
    (hwrote : ∀ k v, s'.written[k]? = some v → .wrote k v ∈ s'.log)
    (hlt : ∀ k v, .wrote k v ∈ s'.log → k < s'.written.length)
    (hself : Reading s'.written s'.taken (s'.sig.pc i) (s'.got i))
    (hnew : ∀ k, s'.got i = some k → s.got i = some k ∨ s.taken ≤ k)
    (hpast : ∀ k, SigLog.Delivered k s'.log →
      SigLog.Delivered k s.log ∨ s.got i = some k ∧ s'.got i = none)
    (hsound : SigLog.Sound s'.log) : ValInv s' := by
  -- what a thread had is taken, and nobody else has it
  have hother : ∀ j k, j ≠ i → s'.got j = some k → s'.got i ≠ some k := by
    intro j k hj hjk hik
    rw [hgot j hj] at hjk
    rcases hnew k hik with hik | hge
    · exact hj (h.apart j i k hjk hik)
    · exact absurd (h.got_lt hjk) (not_lt.mpr hge)
  refine ⟨hpipe, hle, hwrote, hlt, fun j => ?_, fun j₁ j₂ k h₁ h₂ => ?_, fun k hk => ?_, hsound⟩
  · by_cases hj : j = i
    · rw [hj]
      exact hself
    · rw [hpc j hj, hgot j hj, hwritten]
      exact (h.reading j).mono more htaken
  · by_cases hj₁ : j₁ = i
    · by_cases hj₂ : j₂ = i
      · exact hj₁.trans hj₂.symm
      · exact absurd (hj₁ ▸ h₁) (hother j₂ k hj₂ h₂)
    · by_cases hj₂ : j₂ = i
      · exact absurd (hj₂ ▸ h₂) (hother j₁ k hj₁ h₁)
      · rw [hgot j₁ hj₁] at h₁
        rw [hgot j₂ hj₂] at h₂
        exact h.apart j₁ j₂ k h₁ h₂
  · rcases hpast k hk with hk | ⟨hik, hnone⟩
    · obtain ⟨hlt, hfree⟩ := h.past k hk
      refine ⟨hlt.trans_le htaken, fun j hj => ?_⟩
      by_cases hji : j = i
      · rcases hnew k (hji ▸ hj) with hik | hge
        · exact hfree i hik
        · exact absurd hlt (not_lt.mpr hge)
      · exact hfree j (hgot j hji ▸ hj)
    · refine ⟨(h.got_lt hik).trans_le htaken, fun j hj => ?_⟩
      by_cases hji : j = i
      · rw [hji, hnone] at hj
        exact nomatch hj
      · rw [hgot j hji] at hj
        exact hji (h.apart j i k hj hik)

/-- A step that leaves the pipe. -/
theorem ValInv.quiet (h : ValInv s) {i : τ} {sig : SigState τ} (pc : SigPc)
    (hpc : sig.pc = Function.update s.sig.pc i pc) (hpipe : sig.pipe = s.sig.pipe)
    (hread : Reading s.written s.taken pc (s.got i)) : ValInv { s with sig := sig } := by
  refine h.next i [] (fun j hj => ?_) (fun _ _ => rfl) (List.append_nil _).symm le_rfl
    (hpipe.trans h.pipe) h.taken_le h.wrote h.wrote_lt ?_ (fun _ hk => .inl hk)
    (fun _ hk => .inl hk) h.sound
  · show sig.pc j = _
    rw [hpc, Function.update_of_ne hj]
  · show Reading s.written s.taken (sig.pc i) (s.got i)
    rw [hpc, Function.update_self]
    exact hread

omit [DecidableEq τ] in
/-- The `int` a read takes is the first that has not been taken. -/
theorem ValInv.head (h : ValInv s) {v : ℤ} {rest : List ℤ} (hpipe : s.sig.pipe = v :: rest) :
    s.written[s.taken]? = some v ∧ rest = s.written.drop (s.taken + 1)
      ∧ s.taken < s.written.length := by
  have hdrop : s.written.drop s.taken = v :: rest := h.pipe.symm.trans hpipe
  have hlt : s.taken < s.written.length := by
    by_contra hge
    rw [List.drop_eq_nil_of_le (not_lt.mp hge)] at hdrop
    exact nomatch hdrop
  rw [List.drop_eq_getElem_cons hlt] at hdrop
  obtain ⟨hv, hrest⟩ := List.cons.inj hdrop
  exact ⟨(List.getElem?_eq_getElem hlt).trans (congrArg some hv), hrest.symm, hlt⟩

/-- A step that reads from the pipe. -/
theorem ValInv.take (h : ValInv s) {i : τ} {sig : SigState τ} (pc : SigPc) {v : ℤ}
    {rest : List ℤ} (hhead : s.sig.pipe = v :: rest)
    (hpc : sig.pc = Function.update s.sig.pc i pc) (hpipe : sig.pipe = rest)
    (got : τ → Option ℕ) (hgot : ∀ j, j ≠ i → got j = s.got j)
    (hread : Reading s.written (s.taken + 1) pc (got i))
    (hnew : ∀ k, got i = some k → s.got i = some k ∨ s.taken ≤ k) :
    ValInv { s with sig := sig, taken := s.taken + 1, got := got } := by
  obtain ⟨-, hrest, hlt⟩ := h.head hhead
  refine h.next i [] (fun j hj => ?_) hgot (List.append_nil _).symm (Nat.le_succ _)
    (hpipe.trans hrest) hlt h.wrote h.wrote_lt ?_ hnew (fun _ hk => .inl hk) h.sound
  · show sig.pc j = _
    rw [hpc, Function.update_of_ne hj]
  · show Reading s.written (s.taken + 1) (sig.pc i) (got i)
    rw [hpc, Function.update_self]
    exact hread

/-- A write. -/
theorem ValInv.write (h : ValInv s) {i : τ} {sig : SigState τ} (val : ℤ)
    (hpc : sig.pc = Function.update s.sig.pc i .idle) (hpipe : sig.pipe = s.sig.pipe ++ [val])
    (hgot : s.got i = none) :
    ValInv { s with
      sig := sig
      written := s.written ++ [val]
      log := .wrote s.written.length val :: s.log } := by
  refine h.next i [val] (fun j hj => ?_) (fun _ _ => rfl) rfl le_rfl ?_ ?_ (fun k v hk => ?_)
    (fun k v hk => ?_) ?_ (fun _ hk => .inl hk) ?_ ⟨fun v hv => ?_, h.sound⟩
  · show sig.pc j = _
    rw [hpc, Function.update_of_ne hj]
  · show sig.pipe = (s.written ++ [val]).drop s.taken
    rw [hpipe, h.pipe, List.drop_append_of_le_length h.taken_le]
  · show s.taken ≤ (s.written ++ [val]).length
    rw [List.length_append]
    exact h.taken_le.trans (Nat.le_add_right _ _)
  · by_cases hlt : k < s.written.length
    · rw [List.getElem?_append_left hlt] at hk
      exact List.mem_cons_of_mem _ (h.wrote k v hk)
    · obtain ⟨hlen, hv⟩ := List.getElem?_eq_some_iff.mp hk
      rw [List.length_append, List.length_singleton] at hlen
      obtain rfl : k = s.written.length := by omega
      rw [List.getElem_append_right (le_refl _)] at hv
      obtain rfl : val = v := by simpa using hv
      exact List.mem_cons_self
  · show k < (s.written ++ [val]).length
    rw [List.length_append, List.length_singleton]
    rcases List.mem_cons.mp hk with heq | hk
    · rw [(SigLog.wrote.inj heq).1]
      exact Nat.lt_succ_self _
    · exact (h.wrote_lt k v hk).trans (Nat.lt_succ_self _)
  · show Reading (s.written ++ [val]) s.taken (sig.pc i) (s.got i)
    rw [hpc, Function.update_self]
    exact hgot
  · rintro k ⟨j, ret, val', hmem⟩
    exact .inl ⟨j, ret, val', (List.mem_cons.mp hmem).resolve_left (fun heq => nomatch heq)⟩
  · exact absurd (h.wrote_lt _ v hv) (lt_irrefl _)

/-- The return of a wait. -/
theorem ValInv.return (h : ValInv s) {i : τ} {sig : SigState τ} {ret : ℤ} {val : Option ℤ}
    (hdone : s.sig.pc i = .waitDone ret val)
    (hpc : sig.pc = Function.update s.sig.pc i .idle) (hpipe : sig.pipe = s.sig.pipe) :
    ValInv { s with
      sig := sig
      got := Function.update s.got i none
      log := .returned i ret val (s.got i) :: s.log } := by
  have hread := h.reading i
  rw [hdone] at hread
  have hself : Function.update s.got i none i = none := Function.update_self ..
  refine h.next i [] (fun j hj => ?_) (fun j hj => Function.update_of_ne hj _ _)
    (List.append_nil _).symm le_rfl (hpipe.trans h.pipe) h.taken_le
    (fun k v hk => List.mem_cons_of_mem _ (h.wrote k v hk)) (fun k v hk => ?_) ?_
    (fun k hk => nomatch hself.symm.trans hk) ?_ ⟨?_, h.sound⟩
  · show sig.pc j = _
    rw [hpc, Function.update_of_ne hj]
  · exact h.wrote_lt k v ((List.mem_cons.mp hk).resolve_left fun heq => nomatch heq)
  · show Reading s.written s.taken (sig.pc i) (Function.update s.got i none i)
    rw [hpc, Function.update_self, hself]
    rfl
  · rintro k ⟨j, ret', val', hmem⟩
    rcases List.mem_cons.mp hmem with heq | hmem
    · exact .inr ⟨(SigLog.returned.inj heq).2.2.2.symm, hself⟩
    · exact .inl ⟨j, ret', val', hmem⟩
  · rcases hread with ⟨hret, k, v, hgot, hval, hk, -⟩ | hnone
    · exact .inl ⟨hret, k, v, hgot, hval, h.wrote k v hk, fun hdel => (h.past k hdel).2 i hgot⟩
    · exact .inr hnone

/-- An access. -/
theorem ValInv.access (h : ValInv s) {i : τ} {timedOut : Bool} {sig : SigState τ}
    (hstep : s.sig.access i timedOut = some sig) : ValInv (s.note i sig) := by
  have hread := h.reading i
  have hmove := SigState.access_moves hstep
  unfold note
  generalize hpc : s.sig.pc i = pc at hread hmove ⊢
  cases hmove with
  | raisePoll | raiseSeen => exact h.quiet _ rfl rfl hread
  | raiseWrite => exact h.write _ rfl rfl hread
  | waitEmpty hpipe =>
    rw [hpipe]
    exact h.quiet _ rfl rfl hread
  | @waitRead _ _ v rest hpipe =>
    rw [hpipe]
    have hself : Function.update s.got i (some s.taken) i = some s.taken :=
      Function.update_self ..
    refine h.take (.waitClear 1 (some v)) hpipe rfl rfl (Function.update s.got i (some s.taken))
      (fun j hj => Function.update_of_ne hj _ _) ?_ fun k hk => .inr ?_
    · rw [hself]
      exact .inl ⟨rfl, s.taken, v, rfl, rfl, (h.head hpipe).1, Nat.lt_succ_self _⟩
    · exact (Option.some.inj (hself.symm.trans hk)).le
  | pollTimeout => exact h.quiet _ rfl rfl (.inr ⟨.inl rfl, rfl, hread⟩)
  | pollReady => exact h.quiet _ rfl rfl hread
  | drained hpipe =>
    rw [hpipe]
    exact h.quiet _ rfl rfl hread
  | drain hpipe =>
    rw [hpipe]
    have hread' := hread.mono [] (Nat.le_succ s.taken)
    rw [List.append_nil] at hread'
    exact h.take _ hpipe rfl rfl s.got (fun _ _ => rfl) hread' fun _ hk => .inl hk
  | waitDone => exact h.return hpc rfl rfl
  | cleared hpipe =>
    rw [hpipe]
    exact h.quiet .idle rfl rfl hread
  | clearRead hpipe =>
    rw [hpipe]
    exact h.take .clearRead hpipe rfl rfl s.got (fun _ _ => rfl) hread fun _ hk => .inl hk

/-- One step. -/
theorem valInv_step (h : ValInv s) {e : SigValEvent τ} (hstep : s.step e = some s') :
    ValInv s' := by
  cases e with
  | sig e =>
    cases e with
    | callRaise i val | callWait i timeout | callClear i =>
      obtain ⟨sig, hsig, rfl⟩ := Option.map_eq_some_iff.mp hstep
      obtain ⟨hidle, hsig⟩ := Option.ite_none_right_eq_some.mp hsig
      obtain rfl := Option.some.inj hsig
      have hread := h.reading i
      rw [hidle] at hread
      exact h.quiet _ rfl rfl hread
    | access i timedOut =>
      obtain ⟨sig, hsig, rfl⟩ := Option.map_eq_some_iff.mp hstep
      exact h.access hsig
  | pollError i =>
    have hread := h.reading i
    unfold step at hstep
    dsimp only at hstep
    split at hstep
    · rename_i timeout hpc
      obtain rfl := Option.some.inj hstep
      rw [hpc] at hread
      exact h.quiet (.waitClear (-1) none) rfl rfl (.inr ⟨.inr rfl, rfl, hread⟩)
    · exact nomatch hstep

/-- **Values are genuine and delivered once**, in every run of any number of threads that
raise, wait and clear. -/
theorem signal_values_sound (es : List (SigValEvent τ)) {s : SigValues τ}
    (hrun : run step (init τ) es = some s) : SigLog.Sound s.log :=
  (Run.inv (fun _ _ _ h hstep => valInv_step h hstep) valInv_init hrun).sound

/-- Two threads wait, and a poll wakes both; the value goes to one of them, and the poll of
the other fails. -/
theorem signal_values_sound_two :
    let go (i : Fin 3) : SigValEvent (Fin 3) := .sig (.access i false)
    ∃ s, run step (init (Fin 3)) [.sig (.callWait 1 10), .sig (.callWait 2 10), go 1, go 2,
        .sig (.callRaise 0 5), go 0, go 0, go 1, go 2, go 1, go 2, .pollError 2, go 1, go 1,
        go 2, go 2] = some s
      ∧ s.log = [.returned 2 (-1) none none, .returned 1 1 (some 5) (some 0), .wrote 0 5]
      ∧ SigLog.Sound s.log := by
  intro go
  exact ⟨_, rfl, rfl, signal_values_sound [.sig (.callWait 1 10), .sig (.callWait 2 10), go 1, go 2,
        .sig (.callRaise 0 5), go 0, go 0, go 1, go 2, go 1, go 2, .pollError 2, go 1, go 1,
        go 2, go 2] rfl⟩

end SigValues
