import Ckit.HeapSpec
import Ckit.Resources

/-!
# What a timer queue asks of the system

A timer queue has two descriptors, the ends of the pipe of its signal, and a block of
memory for the slots of its heap. `timer_queue_init` gets them and `timer_queue_fini`
gives them back; in between `heap_insert` gets a larger block and gives the old one
back. The functions below are those of `timer.c`, `signal.c` and `heap.c` as far as they
deal with the system: what they ask of it, what they use, what they give back, and what
becomes of the records. What the heap does within its slots is left to `Heap`, whose
records are these (`heapInsert_of`, `heapRemove_of`).
-/

/-- What the system hands out: descriptors, and blocks of memory. `NULL` is no block that it hands
out. -/
inductive OsResource (β : Type) where
  | fd (n : ℤ)
  | block (b : Option β)
deriving DecidableEq

/-- The calls of the functions below, with what they take. -/
abbrev OsProg (β : Type) := ResProg (OsResource β)

namespace OsProg

variable {β : Type}

/-- The two ends of a pipe. -/
def isPipe : List (OsResource β) → Bool
  | [.fd _, .fd _] => true
  | _ => false

def isBlock : List (OsResource β) → Bool
  | [.block (some _)] => true
  | _ => false

/-- `pipe`. -/
def pipe : OsProg β (Option (ℤ × ℤ)) :=
  .take isPipe fun
    | some [.fd r, .fd w] => .ret (some (r, w))
    | _ => .ret none

/-- `malloc`. -/
def malloc : OsProg β (Option β) :=
  .take isBlock fun
    | some [.block b] => .ret b
    | _ => .ret none

/-- `free`. -/
def free : Option β → OsProg β Unit
  | none => .ret ()
  | some b => .give (.block (some b)) (.ret ())

/-- `close`. -/
def close (fd : ℤ) : OsProg β Unit := .give (.fd fd) (.ret ())

/-- Another call on a descriptor, with its outcome: `fcntl`, `poll`, `read` or `write`. -/
def onFd (fd : ℤ) : OsProg β Bool := .use (.fd fd) .ret

/-- An access of the memory behind a pointer. -/
def deref (b : Option β) : OsProg β Unit := .use (.block b) fun _ => .ret ()

end OsProg

open OsProg

namespace OsProg

variable {β : Type} {R : Set (OsResource β)}

theorem uses_pipe {Q : Option (ℤ × ℤ) → Set (OsResource β) → Prop} (hnone : Q none R)
    (hsome : ∀ r w, r ≠ w → Q (some (r, w)) (R ∪ {.fd r, .fd w})) :
    (pipe : OsProg β _).Uses R Q := by
  refine ⟨hnone, fun rs hfits hnodup _ => ?_⟩
  obtain ⟨r, w, rfl⟩ : ∃ r w, rs = [.fd r, .fd w] := by
    revert hfits
    unfold isPipe
    split
    · exact fun _ => ⟨_, _, rfl⟩
    · exact fun h => absurd h Bool.false_ne_true
  have hne : r ≠ w := by
    rintro rfl
    exact (List.nodup_cons.mp hnodup).1 List.mem_cons_self
  have hset : ({x | x ∈ [.fd r, .fd w]} : Set (OsResource β)) = {.fd r, .fd w} := by
    ext x
    simp
  rw [hset]
  exact hsome r w hne

theorem uses_malloc {Q : Option β → Set (OsResource β) → Prop} (hnone : Q none R)
    (hsome : ∀ b, .block (some b) ∉ R → Q (some b) (R ∪ {.block (some b)})) : malloc.Uses R Q := by
  refine ⟨hnone, fun rs hfits _ hnew => ?_⟩
  obtain ⟨b, rfl⟩ : ∃ b, rs = [.block (some b)] := by
    revert hfits
    unfold isBlock
    split
    · exact fun _ => ⟨_, rfl⟩
    · exact fun h => absurd h Bool.false_ne_true
  have hset : ({x | x ∈ [.block (some b)]} : Set (OsResource β)) = {.block (some b)} := by
    ext x
    simp
  rw [hset]
  exact hsome b (hnew _ List.mem_cons_self)

theorem uses_close {fd : ℤ} {Q : Unit → Set (OsResource β) → Prop} :
    (close fd).Uses R Q ↔ .fd fd ∈ R ∧ Q () (R \ {.fd fd}) := Iff.rfl

theorem uses_onFd {fd : ℤ} {Q : Bool → Set (OsResource β) → Prop} :
    (onFd fd).Uses R Q ↔ .fd fd ∈ R ∧ ∀ ok, Q ok R := Iff.rfl

theorem uses_deref {b : Option β} {Q : Unit → Set (OsResource β) → Prop} :
    (deref b).Uses R Q ↔ .block b ∈ R ∧ Q () R := and_congr_right fun _ => forall_const Bool

theorem uses_free {b : β} {Q : Unit → Set (OsResource β) → Prop} :
    (free (some b)).Uses R Q ↔ .block (some b) ∈ R ∧ Q () (R \ {.block (some b)}) := Iff.rfl

end OsProg

/-! ## The functions -/

/-- `struct signal`. -/
structure SignalRec where
  fd0 : ℤ
  fd1 : ℤ
deriving DecidableEq

/-- `struct heap`, with the block of its slots. -/
structure HeapRec (β : Type) where
  maxSize : ℕ
  size : ℕ
  map : Option β
deriving DecidableEq

/-- `struct timer_queue`. -/
structure TimerQueueRec (β : Type) where
  queue : HeapRec β
  signal : SignalRec
deriving DecidableEq

namespace SignalRec

variable {β : Type}

/-- `signal_init`, with its return value. -/
def signalInit (s : SignalRec) : OsProg β (ℤ × SignalRec) := do
  match ← pipe with
  | none => return (-1, s)
  | some (r, w) =>
    let s : SignalRec := ⟨r, w⟩
    if ← onFd s.fd0 then
      return (0, s)
    else
      close s.fd0
      close s.fd1
      return (-1, s)

/-- `signal_destroy`. -/
def signalDestroy (s : SignalRec) : OsProg β Unit := do
  close s.fd0
  close s.fd1

/-- `signal_raise`, by `signal_raise_val` and `signal_is_raised`. -/
def signalRaise (s : SignalRec) : OsProg β Unit := do
  if ← onFd s.fd0 then
    return ()
  else
    let _ ← onFd s.fd1
    return ()

/-- `signal_clear_val`, whose loop reads so many times before the pipe is empty. -/
def signalClearVal (s : SignalRec) : ℕ → OsProg β Unit
  | 0 => do
    let _ ← onFd s.fd0
    return ()
  | reads + 1 => do
    let _ ← onFd s.fd0
    signalClearVal s reads

end SignalRec

namespace HeapRec

variable {β : Type}

/-- `heap_init`, with its return value. -/
def heapInit (maxSize : ℕ) : OsProg β (ℤ × HeapRec β) := do
  let map ← malloc
  let h : HeapRec β := ⟨if maxSize = 0 then heapDefaultSize else maxSize, 0, map⟩
  return (if map.isNone then -1 else 0, h)

/-- `heap_fini`. -/
def heapFini (h : HeapRec β) : OsProg β Unit := free h.map

/-- `heap_full`. -/
def heapFull (h : HeapRec β) : Bool := h.maxSize ≤ h.size

/-- `heap_increase_size`, with its return value. -/
def heapIncreaseSize (h : HeapRec β) (increaseSize : ℕ) : OsProg β (ℤ × HeapRec β) := do
  match ← malloc with
  | none => return (-1, h)
  | some newMap =>
    deref (some newMap)
    deref h.map
    free h.map
    return (0, { h with map := some newMap, maxSize := u32 (h.maxSize + increaseSize) })

/-- The rest of `heap_insert`, with its return value. -/
def place (h : HeapRec β) : OsProg β (ℤ × HeapRec β) := do
  deref h.map
  return (0, { h with size := u32 (h.size + 1) })

/-- `heap_insert`, with its return value. -/
def heapInsert (h : HeapRec β) : OsProg β (ℤ × HeapRec β) := do
  if h.heapFull then
    let (ret, h) ← h.heapIncreaseSize heapDefaultIncreaseSize
    if ret ≠ 0 then
      return (-1, h)
    else
      h.place
  else
    h.place

/-- `heap_remove`. -/
def heapRemove (h : HeapRec β) (index : ℕ) : OsProg β (HeapRec β) := do
  if h.size ≤ index then
    return h
  else
    deref h.map
    return { h with size := h.size - 1 }

/-- The loop of `timer_list_destroy`, which takes a timer out until there is none left. -/
def destroyLoop (map : Option β) : ℕ → OsProg β Unit
  | 0 => return ()
  | size + 1 => do
    deref map
    destroyLoop map size

end HeapRec

namespace TimerQueueRec

variable {β : Type}

/-- `timer_queue_init`, with its return value. What `heap_init` returns is not looked at. -/
def timerQueueInit : OsProg β (ℤ × TimerQueueRec β) := do
  let (ret, signal) ← SignalRec.signalInit ⟨0, 0⟩
  let (_, queue) ← HeapRec.heapInit 0
  return (ret, ⟨queue, signal⟩)

/-- `timer_queue_fini`. -/
def timerQueueFini (tq : TimerQueueRec β) : OsProg β (TimerQueueRec β) := do
  tq.signal.signalDestroy
  HeapRec.destroyLoop tq.queue.map tq.queue.size
  tq.queue.heapFini
  return { tq with queue := { tq.queue with size := 0 } }

end TimerQueueRec

/-! ## What they use -/

/-- The descriptors of a signal that has a pipe. -/
def SignalRec.ends {β : Type} (s : SignalRec) : Set (OsResource β) := {.fd s.fd0, .fd s.fd1}

/-- The block of the slots, where there is one. -/
def HeapRec.slots {β : Type} (h : HeapRec β) : Set (OsResource β) :=
  {r | ∃ b, h.map = some b ∧ r = .block (some b)}

namespace SignalRec

variable {β : Type} {s : SignalRec}

/-- **A signal that is initialised has its two descriptors**, and one that is not has none. -/
theorem uses_signalInit (s : SignalRec) :
    (s.signalInit : OsProg β _).Uses ∅ fun r R =>
      r.1 = 0 ∧ r.2.fd0 ≠ r.2.fd1 ∧ R = r.2.ends ∨ r.1 = -1 ∧ R = ∅ := by
  unfold signalInit
  refine ResProg.uses_bind.mpr (OsProg.uses_pipe (Or.inr ⟨rfl, rfl⟩) fun r w hne => ?_)
  rw [Set.empty_union]
  refine ResProg.uses_bind.mpr (OsProg.uses_onFd.mpr ⟨Or.inl rfl, fun ok => ?_⟩)
  cases ok with
  | true => exact Or.inl ⟨rfl, hne, rfl⟩
  | false =>
    refine ResProg.uses_bind.mpr (OsProg.uses_close.mpr ⟨Or.inl rfl, ?_⟩)
    have hw : (.fd w : OsResource β) ∈ ({.fd r, .fd w} : Set (OsResource β)) \ {.fd r} :=
      ⟨Or.inr rfl, fun heq => hne (OsResource.fd.inj heq).symm⟩
    refine ResProg.uses_bind.mpr (OsProg.uses_close.mpr ⟨hw, Or.inr ⟨rfl, ?_⟩⟩)
    ext x
    simp

theorem uses_signalDestroy (hne : s.fd0 ≠ s.fd1) :
    (s.signalDestroy : OsProg β _).Uses s.ends fun _ R => R = ∅ := by
  unfold signalDestroy
  refine ResProg.uses_bind.mpr (OsProg.uses_close.mpr ⟨Or.inl rfl, ?_⟩)
  refine OsProg.uses_close.mpr ⟨⟨Or.inr rfl, fun heq => hne (OsResource.fd.inj heq).symm⟩, ?_⟩
  ext x
  simp [ends]

theorem uses_signalRaise (s : SignalRec) :
    (s.signalRaise : OsProg β _).Uses s.ends fun _ R => R = s.ends := by
  unfold signalRaise
  refine ResProg.uses_bind.mpr (OsProg.uses_onFd.mpr ⟨Or.inl rfl, fun ok => ?_⟩)
  cases ok with
  | true => rfl
  | false => exact ResProg.uses_bind.mpr (OsProg.uses_onFd.mpr ⟨Or.inr rfl, fun _ => rfl⟩)

theorem uses_signalClearVal (s : SignalRec) (reads : ℕ) :
    (s.signalClearVal reads : OsProg β _).Uses s.ends fun _ R => R = s.ends := by
  induction reads with
  | zero => exact ResProg.uses_bind.mpr (OsProg.uses_onFd.mpr ⟨Or.inl rfl, fun _ => rfl⟩)
  | succ reads ih => exact ResProg.uses_bind.mpr (OsProg.uses_onFd.mpr ⟨Or.inl rfl, fun _ => ih⟩)

end SignalRec

namespace HeapRec

variable {β : Type} {h : HeapRec β}

theorem mem_slots {b : β} (hmap : h.map = some b) : .block (some b) ∈ h.slots := ⟨b, hmap, rfl⟩

theorem slots_of_some {b : β} (hmap : h.map = some b) : h.slots = {.block (some b)} := by
  ext x
  simp [slots, hmap]

theorem slots_of_none (hmap : h.map = none) : h.slots = ∅ := by
  ext x
  simp [slots, hmap]

/-- **What `heap_init` leaves** is the same whether it has got the slots or not. -/
theorem uses_heapInit :
    (heapInit 0 : OsProg β _).Uses ∅ fun r R =>
      r.2.size = 0 ∧ 0 < r.2.maxSize ∧ R = r.2.slots := by
  have hmax : 0 < heapDefaultSize := by decide
  unfold heapInit
  refine ResProg.uses_bind.mpr (OsProg.uses_malloc ?_ fun b _ => ?_)
  · exact ⟨rfl, hmax, (slots_of_none rfl).symm⟩
  · exact ⟨rfl, hmax, (Set.empty_union _).trans (slots_of_some rfl).symm⟩

theorem uses_heapFini (h : HeapRec β) : h.heapFini.Uses h.slots fun _ R => R = ∅ := by
  unfold heapFini
  cases hmap : h.map with
  | none => exact slots_of_none hmap
  | some b =>
    rw [slots_of_some hmap]
    exact OsProg.uses_free.mpr ⟨rfl, Set.sdiff_self⟩

/-- What stays of a heap that has slots: it has some. -/
def Goes (h' : HeapRec β) (R : Set (OsResource β)) : Prop :=
  h'.map ≠ none ∧ 0 < h'.maxSize ∧ R = h'.slots

theorem uses_heapIncreaseSize {n : ℕ} (hmap : h.map ≠ none) (hmax : 0 < h.maxSize)
    (hroom : h.maxSize + n < 2 ^ 32) :
    (h.heapIncreaseSize n).Uses h.slots fun r R => r.2.Goes R := by
  obtain ⟨b, hb⟩ := Option.ne_none_iff_exists'.mp hmap
  unfold heapIncreaseSize
  refine ResProg.uses_bind.mpr (OsProg.uses_malloc ⟨hmap, hmax, rfl⟩ fun b' hnew => ?_)
  rw [slots_of_some hb] at hnew ⊢
  rw [hb]
  refine ResProg.uses_bind.mpr (OsProg.uses_deref.mpr ⟨Or.inr rfl, ?_⟩)
  refine ResProg.uses_bind.mpr (OsProg.uses_deref.mpr ⟨Or.inl rfl, ?_⟩)
  refine ResProg.uses_bind.mpr (OsProg.uses_free.mpr ⟨Or.inl rfl, ?_⟩)
  refine ⟨Option.some_ne_none b', ?_, ?_⟩
  · show 0 < u32 (h.maxSize + n)
    rw [u32, Nat.mod_eq_of_lt hroom]
    omega
  · rw [slots_of_some (h := { h with map := some b', maxSize := u32 (h.maxSize + n) }) rfl]
    ext x
    constructor
    · rintro ⟨hx | hx, hxb⟩
      · exact absurd hx hxb
      · exact hx
    · intro hx
      exact ⟨Or.inr hx, fun hxb => hnew (hxb ▸ hx ▸ rfl)⟩

theorem uses_place (hgoes : h.Goes h.slots) :
    h.place.Uses h.slots fun r R => r.2.Goes R := by
  obtain ⟨b, hb⟩ := Option.ne_none_iff_exists'.mp hgoes.1
  unfold place
  refine ResProg.uses_bind.mpr (OsProg.uses_deref.mpr ⟨?_, hgoes⟩)
  rw [hb]
  exact mem_slots hb

theorem uses_heapInsert (hmap : h.map ≠ none) (hmax : 0 < h.maxSize)
    (hroom : h.maxSize + heapDefaultIncreaseSize < 2 ^ 32) :
    h.heapInsert.Uses h.slots fun r R => r.2.Goes R := by
  unfold heapInsert
  cases h.heapFull with
  | false => exact uses_place ⟨hmap, hmax, rfl⟩
  | true =>
    refine ResProg.uses_bind.mpr ((uses_heapIncreaseSize hmap hmax hroom).mono ?_)
    rintro ⟨ret, h'⟩ R hgoes
    have hR : R = h'.slots := hgoes.2.2
    by_cases hret : ret = 0
    · rw [hR] at hgoes ⊢
      simp only [hret, ne_eq, not_true_eq_false, if_false]
      exact uses_place hgoes
    · simp only [ne_eq, hret, not_false_eq_true, if_true]
      exact hgoes

theorem uses_heapRemove (hempty : h.map = none → h.size = 0) (index : ℕ) :
    (h.heapRemove index).Uses h.slots fun h' R =>
      h'.map = h.map ∧ h'.maxSize = h.maxSize ∧ h'.size ≤ h.size ∧ R = h'.slots := by
  unfold heapRemove
  by_cases hle : h.size ≤ index
  · rw [if_pos hle]
    exact ⟨rfl, rfl, le_rfl, rfl⟩
  · rw [if_neg hle]
    have hmap : h.map ≠ none := fun hnone => hle ((hempty hnone).le.trans (Nat.zero_le index))
    obtain ⟨b, hb⟩ := Option.ne_none_iff_exists'.mp hmap
    refine ResProg.uses_bind.mpr (OsProg.uses_deref.mpr ⟨?_, rfl, rfl, Nat.sub_le _ _, rfl⟩)
    rw [hb]
    exact mem_slots hb

theorem uses_destroyLoop (size : ℕ) (hempty : h.map = none → size = 0) :
    (destroyLoop h.map size).Uses h.slots fun _ R => R = h.slots := by
  induction size with
  | zero => rfl
  | succ size ih =>
    have hmap : h.map ≠ none := fun hnone => absurd (hempty hnone) (Nat.succ_ne_zero size)
    obtain ⟨b, hb⟩ := Option.ne_none_iff_exists'.mp hmap
    refine ResProg.uses_bind.mpr (OsProg.uses_deref.mpr ⟨?_, ?_⟩)
    · rw [hb]
      exact mem_slots hb
    · exact ih fun hnone => absurd hnone hmap

end HeapRec

namespace TimerQueueRec

variable {β : Type} {tq : TimerQueueRec β}

theorem disjoint_ends_slots (tq : TimerQueueRec β) :
    Disjoint (tq.signal.ends : Set (OsResource β)) tq.queue.slots := by
  refine Set.disjoint_left.mpr ?_
  rintro r (rfl | rfl) ⟨b, -, hr⟩
  · cases hr
  · cases hr

/-- **A queue that is initialised has its descriptors and the slots it has got**, and after a
failure it has the slots. -/
theorem uses_timerQueueInit :
    (timerQueueInit : OsProg β _).Uses ∅ fun r R =>
      r.2.queue.size = 0 ∧ 0 < r.2.queue.maxSize
        ∧ (r.1 = 0 ∧ r.2.signal.fd0 ≠ r.2.signal.fd1 ∧ R = r.2.signal.ends ∪ r.2.queue.slots
          ∨ r.1 = -1 ∧ R = r.2.queue.slots) := by
  unfold timerQueueInit
  refine ResProg.uses_bind.mpr ((SignalRec.uses_signalInit ⟨0, 0⟩).mono ?_)
  rintro ⟨ret, signal⟩ R hsignal
  have hheap := (HeapRec.uses_heapInit (β := β)).frame (Set.empty_disjoint R)
  rw [Set.empty_union] at hheap
  refine ResProg.uses_bind.mpr (hheap.mono ?_)
  rintro ⟨r, queue⟩ R' ⟨R₀, ⟨hsize, hmax, rfl⟩, -, rfl⟩
  refine ⟨hsize, hmax, ?_⟩
  rcases hsignal with ⟨hret, hne, rfl⟩ | ⟨hret, rfl⟩
  · exact Or.inl ⟨hret, hne, Set.union_comm _ _⟩
  · exact Or.inr ⟨hret, Set.union_empty _⟩

/-- **Nothing is left of a queue that is finished.** -/
theorem uses_timerQueueFini (hne : tq.signal.fd0 ≠ tq.signal.fd1)
    (hempty : tq.queue.map = none → tq.queue.size = 0) :
    tq.timerQueueFini.Uses (tq.signal.ends ∪ tq.queue.slots) fun tq' R =>
      tq' = { tq with queue := { tq.queue with size := 0 } } ∧ R = ∅ := by
  unfold timerQueueFini
  refine ResProg.uses_bind.mpr
    (((SignalRec.uses_signalDestroy hne).frame tq.disjoint_ends_slots).mono ?_)
  rintro - R ⟨R₀, rfl, -, rfl⟩
  rw [Set.empty_union]
  refine ResProg.uses_bind.mpr ((HeapRec.uses_destroyLoop _ hempty).mono ?_)
  rintro - R rfl
  refine ResProg.uses_bind.mpr (tq.queue.uses_heapFini.mono ?_)
  rintro - R rfl
  exact ⟨rfl, rfl⟩

end TimerQueueRec

/-! ## The records of a heap -/

namespace HeapRec

variable {ι γ β : Type} [DecidableEq ι] {h h' : Heap ι γ}

/-- The record of a heap, with the block of its slots. -/
def of (h : Heap ι γ) (map : β) : HeapRec β := ⟨h.maxSize, h.size, some map⟩

/-- The item is put in its place. -/
theorem insertPlace_of (hw : h.WF) (hroom : h.size < h.maxSize) {item : ι}
    (hrun : h.insertPlace item = some h') (map : β) :
    (of h map).place.MayReturn (0, of h' map) ∧ h'.maxSize = h.maxSize := by
  obtain ⟨h₁, j, hrise, hplace⟩ := Heap.insertPlace_eq hw hroom item
  obtain rfl := Option.some.inj (hplace.symm.trans hrun)
  have hshape := hrise.shape
  have hsize : u32 (h.size + 1) = (h₁.place item j).size := by
    have hmax := hw.max_lt
    show u32 (h.size + 1) = h₁.size + 1
    rw [u32_of_lt (by omega), hshape.size]
  have hrec : of (h₁.place item j) map = { of h map with size := u32 ((of h map).size + 1) } := by
    show HeapRec.mk h₁.maxSize (h₁.place item j).size (some map) = ⟨h.maxSize, _, some map⟩
    rw [hshape.maxSize, ← hsize]
    rfl
  exact ⟨⟨true, by rw [hrec]; rfl⟩, hshape.maxSize⟩

/-- **What `heap_insert` makes of a heap** is what it makes of its record, with a new block of slots
where the heap has grown. -/
theorem heapInsert_of (hw : h.WF) {item : ι} {alloc : Option (ℕ → ι)} (hg : h.Grows alloc) {ret : ℤ}
    (hrun : h.heapInsert item alloc = some (ret, h')) (map newMap : β) :
    (of h map).heapInsert.MayReturn
      (ret, of h' (if h.maxSize < h'.maxSize then newMap else map)) := by
  have hfullOf : (of h map).heapFull = h.heapFull := rfl
  unfold HeapRec.heapInsert
  unfold Heap.heapInsert at hrun
  rw [hfullOf]
  by_cases hfull : h.heapFull = true
  · rw [if_pos hfull] at hrun ⊢
    cases alloc with
    | none =>
      obtain ⟨rfl, rfl⟩ := Prod.mk.inj (Option.some.inj hrun)
      rw [if_neg (lt_irrefl _)]
      exact Or.inl rfl
    | some garbage =>
      have hmax := hg hfull rfl
      have hroom := Heap.grown_room hw hmax garbage
      rw [Heap.heapIncreaseSize_eq hw hmax] at hrun
      simp only [Option.bind_eq_bind, Option.bind_some, ne_eq, not_true_eq_false, if_false] at hrun
      obtain ⟨h₁, hplace, heq⟩ := Option.bind_eq_some_iff.mp hrun
      obtain ⟨rfl, rfl⟩ := Prod.mk.inj (Option.some.inj heq)
      obtain ⟨hreturns, hsame⟩ := insertPlace_of hroom.wf hroom.room hplace newMap
      have hlt : h.maxSize < h₁.maxSize := by
        rw [hsame]
        show h.maxSize < h.maxSize + heapDefaultIncreaseSize
        unfold heapDefaultIncreaseSize
        omega
      rw [if_pos hlt]
      refine Or.inr ⟨[.block (some newMap)], rfl, true, true, ?_⟩
      have hrec : of (h.grown garbage) newMap = { of h map with
          map := some newMap, maxSize := u32 ((of h map).maxSize + heapDefaultIncreaseSize) } := by
        show HeapRec.mk (h.maxSize + heapDefaultIncreaseSize) h.size (some newMap)
          = ⟨u32 (h.maxSize + heapDefaultIncreaseSize), h.size, some newMap⟩
        rw [u32_of_lt hmax]
      rw [hrec] at hreturns
      exact hreturns
  · rw [if_neg hfull] at hrun ⊢
    have hroom : h.size < h.maxSize := by
      simpa [Heap.heapFull] using hfull
    obtain ⟨h₁, hplace, heq⟩ := Option.bind_eq_some_iff.mp hrun
    obtain ⟨rfl, rfl⟩ := Prod.mk.inj (Option.some.inj heq)
    obtain ⟨hreturns, hsame⟩ := insertPlace_of hw hroom hplace map
    rw [if_neg (by rw [hsame]; exact lt_irrefl _)]
    exact hreturns

/-- **What `heap_remove` makes of a heap** is what it makes of its record. -/
theorem heapRemove_of (hw : h.WF) {index : ℕ} (hs : h.SinksWithin index) {item : Option ι}
    (hrun : h.heapRemove index = some (item, h')) (map : β) :
    ((of h map).heapRemove index).MayReturn (of h' map) := by
  unfold HeapRec.heapRemove
  rcases Heap.heapRemove_cases_of hw hs with ⟨hge, hret⟩ | ⟨hlt, h₁, hsift, hret⟩
  · obtain ⟨rfl, rfl⟩ := Prod.mk.inj (Option.some.inj (hret.symm.trans hrun))
    rw [if_pos (show (of h map).size ≤ index from hge)]
    rfl
  · obtain ⟨rfl, rfl⟩ := Prod.mk.inj (Option.some.inj (hret.symm.trans hrun))
    rw [if_neg (show ¬ (of h map).size ≤ index from Nat.not_le.mpr hlt)]
    have hshape := hsift.shape
    have hrec : of (h₁.retire (h.map index)) map
        = { of h map with size := (of h map).size - 1 } := by
      show HeapRec.mk h₁.maxSize h₁.size (some map) = ⟨h.maxSize, h.size - 1, some map⟩
      rw [hshape.maxSize, hshape.size]
      rfl
    exact ⟨true, by rw [hrec]; rfl⟩

end HeapRec
