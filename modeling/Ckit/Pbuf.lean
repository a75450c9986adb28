import Ckit.Heap

/-!
# Packet buffers

A `struct pbuf` is a window over the bytes that follow it: the payload is the
bytes from offset `data` up to offset `tail`, of the `end` bytes there are, and
`len` counts it. Five calls move the window, each under an assertion of its own
or none, in `unsigned` and `size_t` arithmetic. A call has no outcome when its
assertion fails.

The window is what all of them mean to keep: `data ≤ tail ≤ end` and
`len = tail - data`. Three of them do so only for some lengths. `pbuf_reserve`
and `pbuf_pull` assert that the length fits between `data` and `end`, where the
first moves `tail` too and the second must not pass it, and `pbuf_trim` asserts
nothing at all. `WindowSafe` is what they would have to ask, and
`pbuf_window_step_iff` says that it is exactly that.
-/

/-- Conversion to `size_t`. -/
def u64 (n : ℕ) : ℕ := n % 2 ^ 64

/-- Subtraction of `unsigned int`. -/
def sub32 (a b : ℕ) : ℕ := u32 (a + 2 ^ 32 - b)

/-- Subtraction of `size_t`. -/
def sub64 (a b : ℕ) : ℕ := u64 (a + 2 ^ 64 - b)

def pbufMaxSize : ℕ := 4096

/-- `struct pbuf`, without the bytes of its buffer and its control block, which
no call below reads. -/
structure Pbuf where
  refcount : ℤ
  ifindex : ℕ
  allocLen : ℕ
  len : ℕ
  data : ℕ
  tail : ℕ
  end_ : ℕ
  linkOffset : ℕ
  networkOffset : ℕ
  transportOffset : ℕ
  payloadOffset : ℕ
deriving DecidableEq, Repr

/-- `pbuf_init`. -/
def pbufInit (size : ℕ) : Pbuf :=
  { refcount := 1, ifindex := 0, allocLen := 0, len := 0, data := 0, tail := 0,
    end_ := u32 size, linkOffset := 0, networkOffset := 0, transportOffset := 0,
    payloadOffset := 0 }

/-- `pbuf_alloc`, as far as the buffer it returns goes: `available` says whether
the free list has an entry, and `some none` is the return value `NULL`. -/
def pbufAlloc (available : Bool) (size : ℕ) : Option (Option Pbuf) :=
  if size ≤ pbufMaxSize then
    some (if available then some { pbufInit size with allocLen := size } else none)
  else
    none

namespace Pbuf

/-- `pbuf_data`, as an offset into the buffer. -/
def pbufData (pb : Pbuf) : ℕ := pb.data

/-- `pbuf_reserve`, with the offset it returns. -/
def pbufReserve (pb : Pbuf) (len : ℕ) : Option (ℕ × Pbuf) :=
  if len ≤ sub32 pb.end_ pb.data then
    let pb := { pb with data := u32 (u64 (pb.data + len)), tail := u32 (u64 (pb.tail + len)) }
    some (pb.pbufData, pb)
  else
    none

/-- `pbuf_push`, with the offset it returns. -/
def pbufPush (pb : Pbuf) (len : ℕ) : Option (ℕ × Pbuf) :=
  if len ≤ pb.data then
    let pb := { pb with data := u32 (sub64 pb.data len), len := u64 (pb.len + len) }
    some (pb.pbufData, pb)
  else
    none

/-- `pbuf_pull`, with the offset it returns. -/
def pbufPull (pb : Pbuf) (len : ℕ) : Option (ℕ × Pbuf) :=
  if len ≤ sub32 pb.end_ pb.data then
    let pb := { pb with data := u32 (u64 (pb.data + len)), len := sub64 pb.len len }
    some (pb.pbufData, pb)
  else
    none

/-- `pbuf_put`, with the offset it returns. -/
def pbufPut (pb : Pbuf) (len : ℕ) : Option (ℕ × Pbuf) :=
  if len ≤ sub32 pb.end_ pb.tail then
    some (pb.tail, { pb with tail := u32 (u64 (pb.tail + len)), len := u64 (pb.len + len) })
  else
    none

/-- `pbuf_trim`. -/
def pbufTrim (pb : Pbuf) (len : ℕ) : Pbuf :=
  { pb with len := len, tail := u32 (u64 (pb.data + len)) }

/-- `pbuf_headroom`. -/
def pbufHeadroom (pb : Pbuf) : ℕ := pb.data

/-- `pbuf_tailroom`. -/
def pbufTailroom (pb : Pbuf) : ℕ := sub32 pb.end_ pb.tail

end Pbuf

/-- A call that moves the window, with its length. -/
inductive PbufOp where
  | reserve (len : ℕ)
  | push (len : ℕ)
  | pull (len : ℕ)
  | put (len : ℕ)
  | trim (len : ℕ)
deriving DecidableEq, Repr

/-- The buffer after a call. -/
def PbufOp.step (pb : Pbuf) : PbufOp → Option Pbuf
  | .reserve len => (pb.pbufReserve len).map Prod.snd
  | .push len => (pb.pbufPush len).map Prod.snd
  | .pull len => (pb.pbufPull len).map Prod.snd
  | .put len => (pb.pbufPut len).map Prod.snd
  | .trim len => some (pb.pbufTrim len)

namespace Pbuf

/-- **The window of a buffer of `size` bytes.** -/
@[mk_iff] structure Window (size : ℕ) (pb : Pbuf) : Prop where
  data_le : pb.data ≤ pb.tail
  tail_le : pb.tail ≤ pb.end_
  end_eq : pb.end_ = size
  size_le : size ≤ pbufMaxSize
  len_eq : pb.len = pb.tail - pb.data

/-- **The lengths that keep the window**: a reservation of at most the room
after `tail`, a pull of at most the payload, a trim to at most what fits after
`data`. The assertions of the other two calls ask enough. -/
def WindowSafe (pb : Pbuf) : PbufOp → Prop
  | .reserve len => pb.tail + len ≤ pb.end_
  | .push _ => True
  | .pull len => len ≤ pb.len
  | .put _ => True
  | .trim len => pb.data + len ≤ pb.end_

instance (pb : Pbuf) : ∀ op, Decidable (pb.WindowSafe op)
  | .reserve _ => inferInstanceAs (Decidable (_ ≤ _))
  | .push _ => inferInstanceAs (Decidable True)
  | .pull _ => inferInstanceAs (Decidable (_ ≤ _))
  | .put _ => inferInstanceAs (Decidable True)
  | .trim _ => inferInstanceAs (Decidable (_ ≤ _))

theorem sub32_of_le {a b : ℕ} (hb : b ≤ a) (ha : a < 2 ^ 32) : sub32 a b = a - b := by
  unfold sub32 u32
  omega

theorem sub64_of_le {a b : ℕ} (hb : b ≤ a) (ha : a < 2 ^ 64) : sub64 a b = a - b := by
  unfold sub64 u64
  omega

theorem u64_of_lt {n : ℕ} (h : n < 2 ^ 64) : u64 n = n := Nat.mod_eq_of_lt h

theorem u32_u64_of_lt {n : ℕ} (h : n < 2 ^ 32) : u32 (u64 n) = n := by
  unfold u32 u64
  omega

variable {size : ℕ} {pb pb' : Pbuf}

/-- A buffer from `pbuf_alloc` has an empty window at the front. -/
theorem pbufAlloc_window (h : pbufAlloc true size = some (some pb)) : pb.Window size := by
  unfold pbufAlloc at h
  split at h
  · rename_i hsize
    obtain rfl : { pbufInit size with allocLen := size } = pb := by simpa using h
    refine ⟨le_rfl, Nat.zero_le _, u32_of_lt ?_, hsize, rfl⟩
    unfold pbufMaxSize at hsize
    omega
  · exact absurd h (by simp)

/-- What a call that has an outcome does, with the arithmetic of a buffer that
has its window. The one difference left is the length `pbuf_pull` computes, which
wraps when it pulls more than there is. -/
theorem step_window_eq (hw : pb.Window size) {op : PbufOp}
    (hstep : PbufOp.step pb op = some pb') :
    match op with
    | .reserve len => pb.data + len ≤ pb.end_
        ∧ pb' = { pb with data := pb.data + len, tail := pb.tail + len }
    | .push len => len ≤ pb.data ∧ pb' = { pb with data := pb.data - len, len := pb.len + len }
    | .pull len => pb.data + len ≤ pb.end_
        ∧ pb' = { pb with data := pb.data + len, len := sub64 pb.len len }
    | .put len => pb.tail + len ≤ pb.end_
        ∧ pb' = { pb with tail := pb.tail + len, len := pb.len + len }
    | .trim len => pb' = { pb with len := len, tail := u32 (u64 (pb.data + len)) } := by
  obtain ⟨hdt, hte, hes, hsm, hlen⟩ := hw
  unfold pbufMaxSize at hsm
  have he : pb.end_ < 2 ^ 32 := by omega
  cases op with
  | reserve len =>
    obtain ⟨r, hr, rfl⟩ := Option.map_eq_some_iff.mp hstep
    rw [pbufReserve, sub32_of_le (hdt.trans hte) he] at hr
    obtain ⟨hassert, hr⟩ := Option.ite_none_right_eq_some.mp hr
    have hsum : pb.data + len ≤ pb.end_ := by omega
    rw [u32_u64_of_lt (show pb.data + len < 2 ^ 32 by omega),
      u32_u64_of_lt (show pb.tail + len < 2 ^ 32 by omega)] at hr
    exact ⟨hsum, congrArg Prod.snd (Option.some.inj hr).symm⟩
  | push len =>
    obtain ⟨r, hr, rfl⟩ := Option.map_eq_some_iff.mp hstep
    rw [pbufPush] at hr
    obtain ⟨hassert, hr⟩ := Option.ite_none_right_eq_some.mp hr
    rw [sub64_of_le hassert (by omega), u32_of_lt (show pb.data - len < 2 ^ 32 by omega),
      u64_of_lt (show pb.len + len < 2 ^ 64 by omega)] at hr
    exact ⟨hassert, congrArg Prod.snd (Option.some.inj hr).symm⟩
  | pull len =>
    obtain ⟨r, hr, rfl⟩ := Option.map_eq_some_iff.mp hstep
    rw [pbufPull, sub32_of_le (hdt.trans hte) he] at hr
    obtain ⟨hassert, hr⟩ := Option.ite_none_right_eq_some.mp hr
    have hsum : pb.data + len ≤ pb.end_ := by omega
    rw [u32_u64_of_lt (show pb.data + len < 2 ^ 32 by omega)] at hr
    exact ⟨hsum, congrArg Prod.snd (Option.some.inj hr).symm⟩
  | put len =>
    obtain ⟨r, hr, rfl⟩ := Option.map_eq_some_iff.mp hstep
    rw [pbufPut, sub32_of_le hte he] at hr
    obtain ⟨hassert, hr⟩ := Option.ite_none_right_eq_some.mp hr
    have hsum : pb.tail + len ≤ pb.end_ := by omega
    rw [u32_u64_of_lt (show pb.tail + len < 2 ^ 32 by omega),
      u64_of_lt (show pb.len + len < 2 ^ 64 by omega)] at hr
    exact ⟨hsum, congrArg Prod.snd (Option.some.inj hr).symm⟩
  | trim len => exact (Option.some.inj hstep).symm

/-- **When a call keeps the window**: exactly when its length is one of those
`WindowSafe` allows. -/
theorem pbuf_window_step_iff (hw : pb.Window size) {op : PbufOp}
    (hstep : PbufOp.step pb op = some pb') : pb'.Window size ↔ pb.WindowSafe op := by
  have hout := step_window_eq hw hstep
  obtain ⟨hdt, hte, hes, hsm, hlen⟩ := hw
  cases op with
  | reserve len =>
    obtain ⟨hassert, rfl⟩ := hout
    rw [window_iff, WindowSafe]
    dsimp only
    omega
  | push len =>
    obtain ⟨hassert, rfl⟩ := hout
    rw [window_iff, WindowSafe, iff_true]
    dsimp only
    omega
  | pull len =>
    obtain ⟨hassert, rfl⟩ := hout
    rw [window_iff, WindowSafe]
    dsimp only
    by_cases hsafe : len ≤ pb.len
    · rw [sub64_of_le hsafe (by unfold pbufMaxSize at hsm; omega)]
      omega
    · -- the offset has passed `tail`, whatever the length wrapped to
      exact iff_of_false (fun hw' => absurd hw'.1 (by omega)) hsafe
  | put len =>
    obtain ⟨hassert, rfl⟩ := hout
    rw [window_iff, WindowSafe, iff_true]
    dsimp only
    omega
  | trim len =>
    rw [show pb' = _ from hout, window_iff, WindowSafe]
    dsimp only
    by_cases hsafe : pb.data + len ≤ pb.end_
    · rw [u32_u64_of_lt (by unfold pbufMaxSize at hsm; omega)]
      omega
    · generalize u32 (u64 (pb.data + len)) = t
      omega

/-- **The window over whole runs.** In a run of calls, from a fresh buffer,
whose assertions all pass, the window holds in every state exactly when every
call has a length that `WindowSafe` allows in the state it is made in. -/
theorem pbuf_window_run (halloc : pbufAlloc true size = some (some pb)) (ops : List PbufOp)
    (hrun : run PbufOp.step pb ops = some pb') :
    (Along PbufOp.step (Window size) pb ops ↔ Meets PbufOp.step WindowSafe pb ops)
      ∧ (Meets PbufOp.step WindowSafe pb ops → pb'.Window size) := by
  have hw := pbufAlloc_window halloc
  have hstep : ∀ s e s', Window size s → PbufOp.step s e = some s' →
      (Window size s' ↔ s.WindowSafe e) := fun s e s' hs he => pbuf_window_step_iff hs he
  refine ⟨Run.along_iff_meets hstep hw hrun, fun hm => ?_⟩
  exact Run.inv_of_meets (fun s e s' hs hc he => (hstep s e s' hs he).mpr hc) hw hm hrun

/-- A buffer that is filled, has its header pulled and is trimmed. -/
theorem pbuf_window_run_packet :
    ∃ pb pb' : Pbuf, pbufAlloc true 1510 = some (some pb)
      ∧ run PbufOp.step pb [.reserve 100, .put 60, .push 14, .pull 14, .trim 20] = some pb'
      ∧ pb'.Window 1510 := by
  have hrun : run PbufOp.step { pbufInit 1510 with allocLen := 1510 }
      [.reserve 100, .put 60, .push 14, .pull 14, .trim 20]
        = some { pbufInit 1510 with allocLen := 1510, len := 20, data := 100, tail := 120 } := by
    decide +kernel
  exact ⟨_, _, rfl, hrun, (pbuf_window_run rfl _ hrun).2 (by decide +kernel)⟩

/-- **An empty buffer can be pulled past its `tail`**: the assertion of
`pbuf_pull` compares with the end of the buffer, not of the payload. -/
theorem pbuf_window_broken :
    ∃ pb pb' : Pbuf, pbufAlloc true 100 = some (some pb)
      ∧ run PbufOp.step pb [.pull 1] = some pb' ∧ ¬ pb'.Window 100 := by
  have hrun : run PbufOp.step { pbufInit 100 with allocLen := 100 } [.pull 1]
      = some { pbufInit 100 with allocLen := 100, len := 2 ^ 64 - 1, data := 1 } := by
    decide +kernel
  exact ⟨_, _, rfl, hrun, fun hw => absurd hw.data_le (by decide)⟩

end Pbuf
