import Ckit.HeapSpec
import Ckit.Traced

/-!
# What the heap reads and writes

The operations of `heap.c` once more, each with a log of what it touches: the
slots of `map`, and the items behind the pointers it finds there. A slot is logged
with the number of slots the array has, the position at hand and what the slot is
*meant* to be to it – its parent, its left or its right child – so that a position
computed in `unsigned int` can be held against the true one (`HeapEvent.Exact`).
An item is logged when its index or flag is written and when it is handed to the
comparison, which may read all of it.

The logged operations do what the operations do (`outcome_logStep` and the lemmas
before it); their logs are what is new.
-/

/-- What a slot is meant to be to the position at hand. -/
inductive Role where
  | own
  | parent
  | left
  | right
deriving DecidableEq, Repr

/-- Slot `k` has this role for position `i`, in exact arithmetic. -/
def Role.At (i k : ℕ) : Role → Prop
  | .own => k = i
  | .parent => 0 < i ∧ k = (i - 1) / 2
  | .left => k = 2 * i + 1
  | .right => k = 2 * i + 2

instance (i k : ℕ) : ∀ role : Role, Decidable (role.At i k)
  | .own => inferInstanceAs (Decidable (_ = _))
  | .parent => inferInstanceAs (Decidable (_ ∧ _))
  | .left => inferInstanceAs (Decidable (_ = _))
  | .right => inferInstanceAs (Decidable (_ = _))

/-- An access of a heap operation. -/
inductive HeapEvent (ι : Type) where
  /-- Slot `k`, of an array of `slots` of them, as `role` of position `i`. -/
  | slot (k slots i : ℕ) (role : Role)
  /-- The item `p` points to. -/
  | item (p : ι)

/-- **The access is to a slot of the array, and to the right one.** -/
def HeapEvent.Exact {ι : Type} : HeapEvent ι → Prop
  | .slot k slots i role => k < slots ∧ role.At i k
  | .item _ => True

instance {ι : Type} : DecidablePred (HeapEvent.Exact (ι := ι))
  | .slot _ _ _ _ => inferInstanceAs (Decidable (_ ∧ _))
  | .item _ => inferInstanceAs (Decidable True)

/-- An item the access is to is one of these. -/
def HeapEvent.On {ι : Type} (s : ι → Prop) : HeapEvent ι → Prop
  | .slot _ _ _ _ => True
  | .item p => s p

namespace Heap

variable {ι β : Type}

/-! ## The accesses -/

/-- A logged read of slot `k`. -/
def logGet (h : Heap ι β) (i k : ℕ) (role : Role) : Traced (HeapEvent ι) ι :=
  ⟨h.get k, [.slot k h.slots i role]⟩

/-- A logged write of slot `k`. -/
def logSet (h : Heap ι β) (i k : ℕ) (role : Role) (p : ι) : Traced (HeapEvent ι) (Heap ι β) :=
  ⟨h.set k p, [.slot k h.slots i role]⟩

/-- A logged comparison. -/
def logLess (h : Heap ι β) (p q : ι) : Traced (HeapEvent ι) Bool :=
  ⟨some (h.less p q), [.item p, .item q]⟩

variable [DecidableEq ι]

/-- A logged write of `p->index`. -/
def logSetIndex (h : Heap ι β) (p : ι) (k : ℕ) : Traced (HeapEvent ι) (Heap ι β) :=
  ⟨some (h.setIndex p k), [.item p]⟩

/-- A logged write of `p->active`. -/
def logSetActive (h : Heap ι β) (p : ι) (b : Bool) : Traced (HeapEvent ι) (Heap ι β) :=
  ⟨some (h.setActive p b), [.item p]⟩

/-! ## The operations -/

/-- `smaller`, with the roles the two slots have for position `i`. -/
def logSmaller (h : Heap ι β) (i : ℕ) (c s : ℕ × Role) : Traced (HeapEvent ι) (ℕ × Role) :=
  if c.1 < h.size then do
    let p ← h.logGet i c.1 c.2
    let q ← h.logGet i s.1 s.2
    return if ← h.logLess p q then c else s
  else
    return s

/-- `exchange`. The index is written through the slot, which is read once more for it. -/
def logExchange (h : Heap ι β) (smallest : ℕ × Role) (i : ℕ) :
    Traced (HeapEvent ι) (Heap ι β) := do
  let tmp ← h.logGet i smallest.1 smallest.2
  let q ← h.logGet i i .own
  let h ← h.logSet i smallest.1 smallest.2 q
  let q ← h.logGet i smallest.1 smallest.2
  let h ← h.logSetIndex q smallest.1
  let h ← h.logSet i i .own tmp
  let tmp ← h.logGet i i .own
  h.logSetIndex tmp i

/-- `heap_heapify`. -/
def logHeapify : ℕ → Heap ι β → ℕ → Traced (HeapEvent ι) (Heap ι β)
  | 0, _, _ => ⟨none, []⟩
  | fuel + 1, h, i => do
    let l := u32 (2 * i + 1)
    let r := u32 (l + 1)
    let smallest ← h.logSmaller i (l, .left) (i, .own)
    let smallest ← h.logSmaller i (r, .right) smallest
    if smallest.1 = i then
      return h
    else
      let h ← h.logExchange smallest i
      logHeapify fuel h smallest.1

omit [DecidableEq ι] in
/-- `heap_increase_size`: its `memcpy` reads the slots in use and writes as many of the new
array. -/
def logIncreaseSize (h : Heap ι β) (increaseSize : ℕ) (alloc : Option (ℕ → ι)) :
    Traced (HeapEvent ι) (ℤ × Heap ι β) :=
  ⟨h.heapIncreaseSize increaseSize alloc,
    if alloc.isSome then
      (List.range h.size).flatMap fun k =>
        [.slot k h.slots k .own, .slot k (u32 (h.maxSize + increaseSize)) k .own]
    else []⟩

/-- The loop of `heap_insert`, which reads the slot of the parent for the comparison and for the
shift. -/
def logInsertLoop : ℕ → Heap ι β → ι → ℕ → Traced (HeapEvent ι) (Heap ι β × ℕ)
  | 0, _, _, _ => ⟨none, []⟩
  | fuel + 1, h, item, i =>
    if 0 < i then do
      let parent := u32 (i - 1) / 2
      let p ← h.logGet i parent .parent
      if ← h.logLess p item then
        let p ← h.logGet i parent .parent
        let h ← h.logSet i i .own p
        let p ← h.logGet i i .own
        let h ← h.logSetIndex p i
        logInsertLoop fuel h item parent
      else
        return (h, i)
    else
      return (h, i)

/-- The part of `heap_insert` after the heap has room. -/
def logInsertPlace (h : Heap ι β) (item : ι) : Traced (HeapEvent ι) (Heap ι β) := do
  let (h, i) ← logInsertLoop (h.size + 1) h item h.size
  let h ← h.logSet i i .own item
  let h ← h.logSetIndex item i
  let h := { h with size := u32 (h.size + 1) }
  h.logSetActive item true

/-- `heap_insert`. -/
def logInsert (h : Heap ι β) (item : ι) (alloc : Option (ℕ → ι)) :
    Traced (HeapEvent ι) (ℤ × Heap ι β) :=
  if h.heapFull then do
    let (ret, h) ← h.logIncreaseSize heapDefaultIncreaseSize alloc
    if ret ≠ 0 then
      return (-1, h)
    else
      return (0, ← h.logInsertPlace item)
  else do
    return (0, ← h.logInsertPlace item)

/-- `heap_remove`. -/
def logRemove (h : Heap ι β) (index : ℕ) : Traced (HeapEvent ι) (Option ι × Heap ι β) :=
  if h.size ≤ index then
    return (none, h)
  else do
    let item ← h.logGet index index .own
    let h := { h with size := h.size - 1 }
    let last ← h.logGet h.size h.size .own
    let h ← h.logSet index index .own last
    let h ← logHeapify (2 ^ 32) h index
    let h ← h.logSetIndex item 0
    let h ← h.logSetActive item false
    return (some item, h)

/-- A call on the heap. -/
def logStep (h : Heap ι β) : HeapOp ι → Traced (HeapEvent ι) (Heap ι β)
  | .insert item alloc => do
    let (_, h) ← h.logInsert item alloc
    return h
  | .remove index => do
    let (_, h) ← h.logRemove index
    return h

/-! ## The logged operations do what the operations do -/

omit [DecidableEq ι] in
theorem outcome_logSmaller (h : Heap ι β) (i : ℕ) (c s : ℕ × Role) :
    (h.logSmaller i c s).outcome.map Prod.fst = h.smaller c.1 s.1 := by
  unfold logSmaller smaller
  by_cases hc : c.1 < h.size
  · rw [if_pos hc, if_pos hc]
    simp only [Traced.outcome_bind, logGet, logLess, Option.bind_eq_bind, Option.bind_some,
      Traced.outcome_pure]
    rw [Option.map_bind]
    refine Option.bind_congr fun p _ => ?_
    rw [Function.comp_apply, Option.map_bind]
    refine Option.bind_congr fun q _ => ?_
    by_cases hless : h.less p q = true
    · simp [hless]
    · simp [hless]
  · rw [if_neg hc, if_neg hc]
    rfl

omit [DecidableEq ι] in
/-- What a write to a slot leaves. -/
theorem eq_of_set {h h' : Heap ι β} {k : ℕ} {p : ι} (heq : h.set k p = some h') :
    k < h.slots ∧ h' = { h with map := Function.update h.map k p } := by
  unfold set at heq
  by_cases hk : k < h.slots
  · rw [if_pos hk] at heq
    exact ⟨hk, (Option.some.inj heq).symm⟩
  · rw [if_neg hk] at heq
    exact absurd heq (Option.some_ne_none h').symm

omit [DecidableEq ι] in
theorem set_slots {h h' : Heap ι β} {k : ℕ} {p : ι} (heq : h.set k p = some h') :
    h'.slots = h.slots := by
  rw [(eq_of_set heq).2]

omit [DecidableEq ι] in
/-- A slot that has been written is read. -/
theorem get_of_set {h h' : Heap ι β} {k : ℕ} {p : ι} (heq : h.set k p = some h') :
    h'.get k = some p := by
  obtain ⟨hk, rfl⟩ := eq_of_set heq
  exact (if_pos hk).trans (congrArg some (Function.update_self ..))

theorem outcome_logExchange (h : Heap ι β) (smallest : ℕ × Role) (i : ℕ) :
    (h.logExchange smallest i).outcome = h.exchange smallest.1 i := by
  unfold logExchange exchange
  simp only [Traced.outcome_bind, logGet, logSet, logSetIndex, Option.bind_eq_bind,
    Option.bind_some]
  refine Option.bind_congr fun tmp _ => Option.bind_congr fun q _ => ?_
  refine Option.bind_congr fun h₁ heq₁ => ?_
  rw [get_of_set heq₁, Option.bind_some]
  refine Option.bind_congr fun h₂ heq₂ => ?_
  rw [get_of_set heq₂, Option.bind_some]
  rfl

theorem outcome_logHeapify (fuel : ℕ) (h : Heap ι β) (i : ℕ) :
    (logHeapify fuel h i).outcome = heapHeapify fuel h i := by
  induction fuel generalizing h i with
  | zero => rfl
  | succ fuel ih =>
    have hrest : ∀ smallest : ℕ × Role,
        (if smallest.1 = i then pure h
          else h.logExchange smallest i >>= fun h => logHeapify fuel h smallest.1).outcome
        = if smallest.1 = i then some h
          else (h.exchange smallest.1 i).bind fun h => heapHeapify fuel h smallest.1 := by
      intro smallest
      by_cases hs : smallest.1 = i
      · rw [if_pos hs, if_pos hs]
        rfl
      · rw [if_neg hs, if_neg hs, Traced.outcome_bind, outcome_logExchange]
        exact Option.bind_congr fun h' _ => ih h' smallest.1
    rw [logHeapify, heapHeapify]
    simp only [Traced.outcome_bind, Option.bind_eq_bind, hrest]
    rw [← outcome_logSmaller h i (_, .left) (i, .own), Option.bind_map]
    refine Option.bind_congr fun smallest _ => ?_
    rw [Function.comp_apply, ← outcome_logSmaller h i (_, .right) smallest, Option.bind_map]
    rfl

theorem outcome_logInsertLoop (fuel : ℕ) (h : Heap ι β) (item : ι) (i : ℕ) :
    (logInsertLoop fuel h item i).outcome = insertLoop fuel h item i := by
  induction fuel generalizing h i with
  | zero => rfl
  | succ fuel ih =>
    rw [logInsertLoop, insertLoop]
    by_cases hi : 0 < i
    · rw [if_pos hi, if_pos hi]
      simp only [Traced.outcome_bind, logGet, logSet, logLess, logSetIndex, Option.bind_eq_bind,
        Option.bind_some]
      refine Option.bind_congr fun p hp => ?_
      by_cases hless : h.less p item = true
      · rw [if_pos hless, if_pos hless]
        simp only [Traced.outcome_bind]
        rw [hp, Option.bind_some]
        refine Option.bind_congr fun h' heq => ?_
        rw [get_of_set heq, Option.bind_some]
        exact ih _ _
      · rw [if_neg hless, if_neg hless]
        rfl
    · rw [if_neg hi, if_neg hi]
      rfl

theorem outcome_logInsertPlace (h : Heap ι β) (item : ι) :
    (h.logInsertPlace item).outcome = h.insertPlace item := by
  unfold logInsertPlace insertPlace
  rw [Traced.outcome_bind, outcome_logInsertLoop]
  rfl

theorem outcome_logInsert (h : Heap ι β) (item : ι) (alloc : Option (ℕ → ι)) :
    (h.logInsert item alloc).outcome = h.heapInsert item alloc := by
  have hplace : ∀ g : Heap ι β,
      (g.logInsertPlace item >>= fun h' => (pure (0, h') : Traced (HeapEvent ι) (ℤ × _))).outcome
        = (g.insertPlace item).bind fun h' => some (0, h') := fun g => by
    rw [Traced.outcome_bind, outcome_logInsertPlace]
    rfl
  unfold logInsert heapInsert
  by_cases hfull : h.heapFull = true
  · rw [if_pos hfull, if_pos hfull, Traced.outcome_bind]
    refine Option.bind_congr fun rh _ => ?_
    by_cases hret : rh.1 ≠ 0
    · simp only [if_pos hret]
      rfl
    · simp only [if_neg hret]
      exact hplace rh.2
  · rw [if_neg hfull, if_neg hfull]
    exact hplace h

theorem outcome_logRemove (h : Heap ι β) (index : ℕ) :
    (h.logRemove index).outcome = h.heapRemove index := by
  unfold logRemove heapRemove
  by_cases hge : h.size ≤ index
  · rw [if_pos hge, if_pos hge]
    rfl
  · rw [if_neg hge, if_neg hge]
    simp only [Traced.outcome_bind, outcome_logHeapify]
    rfl

/-- **The log does not change the heap.** -/
theorem outcome_logStep (h : Heap ι β) (op : HeapOp ι) :
    (h.logStep op).outcome = HeapOp.step h op := by
  cases op with
  | insert item alloc =>
    show (h.logInsert item alloc).outcome.bind (fun rh => some rh.2) = _
    rw [outcome_logInsert]
    exact Option.map_eq_bind.symm
  | remove index =>
    show (h.logRemove index).outcome.bind (fun rh => some rh.2) = _
    rw [outcome_logRemove]
    exact Option.map_eq_bind.symm

/-! ## The items touched -/

variable {s : ι → Prop} {h : Heap ι β}

omit [DecidableEq ι] in
theorem logGet_on (i k : ℕ) (role : Role) : (h.logGet i k role).Always (HeapEvent.On s) :=
  List.forall_mem_singleton.mpr trivial

omit [DecidableEq ι] in
theorem logSet_on (i k : ℕ) (role : Role) (p : ι) :
    (h.logSet i k role p).Always (HeapEvent.On s) :=
  List.forall_mem_singleton.mpr trivial

theorem logSetIndex_on {p : ι} (hp : s p) (k : ℕ) :
    (h.logSetIndex p k).Always (HeapEvent.On s) :=
  List.forall_mem_singleton.mpr hp

theorem logSetActive_on {p : ι} (hp : s p) (b : Bool) :
    (h.logSetActive p b).Always (HeapEvent.On s) :=
  List.forall_mem_singleton.mpr hp

omit [DecidableEq ι] in
/-- A test looks at two entries, and settles on an entry or on the position it started from. -/
theorem logSmaller_on {i : ℕ} {c t : ℕ × Role} (hf : h.size ≤ h.slots)
    (hs : ∀ k, k < h.size → s (h.map k)) (ht : t.1 < h.slots) (hst : s (h.map t.1)) :
    (h.logSmaller i c t).Always (HeapEvent.On s)
      ∧ ∃ u, (h.logSmaller i c t).outcome = some u ∧ u.1 < h.slots ∧ s (h.map u.1) := by
  unfold logSmaller
  by_cases hc : c.1 < h.size
  · have hcs := hc.trans_le hf
    rw [if_pos hc, Traced.always_bind_of_eq (get_of_lt hcs),
      Traced.always_bind_of_eq (get_of_lt ht), Traced.always_bind, Traced.outcome_bind]
    refine ⟨⟨logGet_on _ _ _, logGet_on _ _ _, ?_, fun b _ => Traced.always_pure _⟩, ?_⟩
    · intro e he
      rcases List.mem_pair.mp he with rfl | rfl
      · exact hs _ hc
      · exact hst
    · have hout : (h.logGet i c.1 c.2).outcome = some (h.map c.1) := get_of_lt hcs
      have hout' : (h.logGet i t.1 t.2).outcome = some (h.map t.1) := get_of_lt ht
      rw [hout, Option.bind_some, Traced.outcome_bind, hout', Option.bind_some]
      refine ⟨if h.less (h.map c.1) (h.map t.1) then c else t, rfl, ?_⟩
      by_cases hless : h.less (h.map c.1) (h.map t.1) = true
      · rw [if_pos hless]
        exact ⟨hcs, hs _ hc⟩
      · rw [if_neg hless]
        exact ⟨ht, hst⟩
  · rw [if_neg hc]
    exact ⟨Traced.always_pure _, t, rfl, ht, hst⟩

theorem logExchange_on {i : ℕ} {c : ℕ × Role} (hc : s (h.map c.1)) (hi : s (h.map i))
    (hcs : c.1 < h.slots) (his : i < h.slots) :
    (h.logExchange c i).Always (HeapEvent.On s) := by
  unfold logExchange
  rw [Traced.always_bind_of_eq (get_of_lt hcs), Traced.always_bind_of_eq (get_of_lt his)]
  refine ⟨logGet_on _ _ _, logGet_on _ _ _, ?_⟩
  refine Traced.always_bind.mpr ⟨logSet_on _ _ _ _, fun h₁ heq₁ => ?_⟩
  rw [Traced.always_bind_of_eq (get_of_set heq₁)]
  refine ⟨logGet_on _ _ _, Traced.always_bind.mpr ⟨logSetIndex_on hi _, fun h₂ _ => ?_⟩⟩
  refine Traced.always_bind.mpr ⟨logSet_on _ _ _ _, fun h₃ heq₃ => ?_⟩
  rw [Traced.always_bind_of_eq (get_of_set heq₃)]
  exact ⟨logGet_on _ _ _, logSetIndex_on hc _⟩

/-- **`heap_heapify` touches entries only**, and the one it starts from, whether its positions
wrap or not. -/
theorem logHeapify_on (fuel : ℕ) {i : ℕ} (hf : h.size ≤ h.slots) (hi : i < h.slots)
    (hs : ∀ k, k < h.size → s (h.map k)) (hsi : s (h.map i)) :
    (logHeapify fuel h i).Always (HeapEvent.On s) := by
  induction fuel generalizing h i with
  | zero => exact fun _ he => absurd he List.not_mem_nil
  | succ fuel ih =>
    rw [logHeapify]
    obtain ⟨hall, p, hp, hps, hsp⟩ := logSmaller_on (i := i) (c := (u32 (2 * i + 1), .left))
      (t := (i, .own)) hf hs hi hsi
    rw [Traced.always_bind_of_eq hp, and_iff_right hall]
    obtain ⟨hall, q, hq, hqs, hsq⟩ := logSmaller_on (i := i)
      (c := (u32 (u32 (2 * i + 1) + 1), .right)) (t := p) hf hs hps hsp
    rw [Traced.always_bind_of_eq hq, and_iff_right hall]
    by_cases hqi : q.1 = i
    · rw [if_pos hqi]
      exact Traced.always_pure _
    · have hex : (h.logExchange q i).outcome = some (h.swapAt q.1 i) := by
        rw [outcome_logExchange, exchange_eq hqs hi]
      rw [if_neg hqi, Traced.always_bind_of_eq hex, and_iff_right (logExchange_on hsq hsi hqs hi)]
      refine ih hf hqs (fun k hk => ?_) ?_
      · rw [swapAt_map, Function.comp_apply]
        by_cases hki : k = i
        · rw [hki, Equiv.swap_apply_left]
          exact hsq
        · by_cases hkq : k = q.1
          · rw [hkq, Equiv.swap_apply_right]
            exact hsi
          · rw [Equiv.swap_apply_of_ne_of_ne hki hkq]
            exact hs k hk
      · rw [swapAt_map, Function.comp_apply, Equiv.swap_apply_right]
        exact hsi

/-- **A removal touches nothing but items that were stored.** -/
theorem logRemove_on (hw : h.WF) (index : ℕ) :
    (h.logRemove index).Always (HeapEvent.On (· ∈ h.entries)) := by
  unfold logRemove
  by_cases hge : h.size ≤ index
  · rw [if_pos hge]
    exact Traced.always_pure _
  · have hslots := hw.slots_eq
    have hsize := hw.size_le
    have hitem : ∀ k, k < h.size → h.map k ∈ h.entries := fun k hk => mem_entries.mpr ⟨k, hk, rfl⟩
    have hfront : index < h.slots := by omega
    rw [if_neg hge, Traced.always_bind_of_eq (get_of_lt hfront)]
    refine ⟨logGet_on _ _ _, ?_⟩
    set g : Heap ι β := { h with size := h.size - 1 }
    have hlast : g.size < g.slots := show h.size - 1 < h.slots by omega
    rw [Traced.always_bind_of_eq (get_of_lt hlast),
      Traced.always_bind_of_eq (set_of_lt (show index < g.slots from hfront) _)]
    refine ⟨logGet_on _ _ _, logSet_on _ _ _ _, ?_⟩
    refine Traced.always_bind.mpr ⟨?_, fun h₁ _ => ?_⟩
    · refine logHeapify_on (h := h.moveLast index) (2 ^ 32) (show h.size - 1 ≤ h.slots by omega)
        hfront (fun k hk => ?_) ?_
      · exact (moveLast_entries (by omega)).mem_iff.mpr
          (List.mem_cons_of_mem _ (mem_entries.mpr ⟨k, hk, rfl⟩))
      · rw [moveLast_map_self]
        exact hitem _ (by omega)
    · have hgone := hitem index (by omega)
      refine Traced.always_bind.mpr ⟨logSetIndex_on hgone _, fun h₂ _ => ?_⟩
      exact Traced.always_bind.mpr ⟨logSetActive_on hgone _, fun _ _ => Traced.always_pure _⟩

end Heap
