import Ckit.HeapOrder

/-!
# The order that insertion builds

`Ckit.HeapOrder` states when `heap_insert` keeps the order `heap_heapify` asks
for, which is almost never. The loop of `heap_insert` does keep an order, the
opposite one: it lets an item rise past every smaller entry above it, so no
entry is ever smaller than one under it (`ReverseOrdered`), and the front is a
*maximum*. This holds of every insertion whatever the items are, of
`heap_increase_size` in the middle of it included.

`heap_remove` works against that order. A sift-down that moves at all brings a
smaller entry over the one it moves down, and leaves that edge out of order
(`Sifts.eq_or_rising`): each further exchange repairs the edge of the one before
it, and none repairs its own. So a removal keeps the order exactly where the
sift-down has nothing to do and nothing needed doing: of the last position, or
where the last entry is not greater than what it is brought under and ties with
what it is brought over. `ReverseSafe` collects the cases, and
`heap_reverse_run` makes them exact along every run.
-/

namespace Heap

variable {ι β : Type}

/-- **The opposite heap order**: no entry is smaller than one under it. -/
def ReverseOrdered (h : Heap ι β) : Prop :=
  ∀ k, 0 < k → k < h.size → h.less (h.map ((k - 1) / 2)) (h.map k) = false

/-- **The calls that keep the opposite order**, on the heap they are made on: every insertion,
and a removal beyond the entries or of the last one, or one after which the last entry is not
greater than the entry it is brought under and ties with those it is brought over. -/
def ReverseSafe (h : Heap ι β) : HeapOp ι → Prop
  | .insert _ _ => True
  | .remove index =>
    h.size ≤ index + 1
      ∨ (0 < index → h.less (h.map ((index - 1) / 2)) (h.map (h.size - 1)) = false)
        ∧ ∀ c, c < h.size - 1 → IsChild c index →
          h.less (h.map c) (h.map (h.size - 1)) = false
            ∧ h.less (h.map (h.size - 1)) (h.map c) = false

instance (h : Heap ι β) : ∀ op, Decidable (h.ReverseSafe op)
  | .insert _ _ => inferInstanceAs (Decidable True)
  | .remove _ => inferInstanceAs (Decidable (_ ∨ (_ → _) ∧ ∀ c, c < h.size - 1 → _ → _ ∧ _))

variable {lt : β → β → Bool} {h h' : Heap ι β}

/-- A strict weak order, read the other way round. -/
instance isStrictWeakOrder_swap [IsStrictWeakOrder β (ltRel lt)] :
    IsStrictWeakOrder β (Function.swap (ltRel lt)) :=
  { (inferInstance : IsStrictOrder β (Function.swap (ltRel lt))) with
    incomp_trans := fun _ _ _ hab hbc =>
      (@IsStrictWeakOrder.incomp_trans β (ltRel lt) _ _ _ _ hab.symm hbc.symm).symm }

/-- The opposite order of the heap is the order of the array of its objects, read the other way
round. -/
theorem reverseOrdered_iff (hcmp : h.cmp = byObj lt) :
    h.ReverseOrdered ↔ Ordered (Function.swap (ltRel lt)) (h.obj ∘ h.map) h.size :=
  forall_congr' fun _ => forall_congr' fun _ => forall_congr' fun _ => less_eq_false hcmp

/-- **The front of such a heap is a maximum.** -/
theorem ReverseOrdered.front_max [IsStrictWeakOrder β (ltRel lt)] (hcmp : h.cmp = byObj lt)
    (ho : h.ReverseOrdered) {p : ι} (hp : p ∈ h.entries) : h.less h.heapFront p = false := by
  obtain ⟨k, hk, rfl⟩ := mem_entries.mp hp
  exact (less_eq_false hcmp).mpr (((reverseOrdered_iff hcmp).mp ho).root_min k hk)

variable [DecidableEq ι]

/-! ## Insertion -/

/-- **The loop of `heap_insert` sifts up** in the opposite order: where it ends, the item is in
order. -/
theorem Rises.reverse_ordered [IsStrictWeakOrder β (ltRel lt)] {item : ι} {i j n : ℕ}
    (hr : Rises item h i h' j) (hcmp : h.cmp = byObj lt) (hin : i < n)
    (hready : UpReady (Function.swap (ltRel lt)) (h.obj ∘ h.map) n i (h.obj item)) :
    Ordered (Function.swap (ltRel lt)) (h'.obj ∘ Function.update h'.map j item) n := by
  induction hr with
  | stop hstop =>
    rw [Function.comp_update]
    exact hready.ordered fun hpos => (less_eq_false hcmp).mp (hstop hpos)
  | @move h h' i j hi hless _ ih =>
    rw [less_byObj hcmp] at hless
    refine ih hcmp (by omega) ?_
    have hobj : (h.shiftDown i).obj ∘ (h.shiftDown i).map
        = Function.update (h.obj ∘ h.map) i ((h.obj ∘ h.map) ((i - 1) / 2)) :=
      Function.comp_update h.obj h.map i _
    rw [hobj]
    exact hready.move hi hin hless

/-- **Every insertion keeps the opposite order.** -/
theorem place_reverseOrdered [IsStrictWeakOrder β (ltRel lt)] {g h₁ : Heap ι β} {item : ι}
    {j : ℕ} (hcmp : h.cmp = byObj lt) (ho : h.ReverseOrdered) (hroom : Room h g)
    (hrise : Rises item g g.size h₁ j) : (h₁.place item j).ReverseOrdered := by
  have hcmp' : (h₁.place item j).cmp = byObj lt :=
    hrise.shape.cmp.trans (hroom.cmp.trans hcmp)
  have hread : ∀ k, k < h.size → (g.obj ∘ g.map) k = (h.obj ∘ h.map) k := by
    intro k hk
    show g.obj (g.map k) = h.obj (h.map k)
    rw [hroom.map k hk, hroom.obj]
  have hold := ((reverseOrdered_iff hcmp).mp ho).congr hread
  rw [reverseOrdered_iff hcmp', place_size hroom hrise]
  rw [← hroom.size] at hold ⊢
  exact hrise.reverse_ordered (hroom.cmp.trans hcmp) (Nat.lt_succ_self _)
    (hold.upReady (g.obj item))

/-! ## Removal -/

/-- **A sift-down that moves leaves an entry under a smaller one**: the edge of its last
exchange. It moves where a child is smaller. -/
theorem Sifts.eq_or_rising [IsStrictWeakOrder β (ltRel lt)] {i : ℕ} (hs : Sifts h i h')
    (hcmp : h.cmp = byObj lt) :
    h' = h ∧ (∀ c, c < h.size → IsChild c i → h.less (h.map c) (h.map i) = false)
      ∨ (∃ c, c < h.size ∧ IsChild c i ∧ h.less (h.map c) (h.map i) = true)
        ∧ ∃ k, 0 < k ∧ k < h'.size ∧ h'.less (h'.map ((k - 1) / 2)) (h'.map k) = true := by
  induction hs with
  | stop hstop => exact Or.inl ⟨rfl, hstop⟩
  | @swap h h' i c hc hcs hpick _ ih =>
    refine Or.inr ⟨hpick.exists_smaller hcs, ?_⟩
    rcases ih hcmp with ⟨rfl, -⟩ | ⟨-, hrising⟩
    · have hup : (h.swapAt c i).map i = h.map c := by
        rw [swapAt_map, Function.comp_apply, Equiv.swap_apply_left]
      have hdown : (h.swapAt c i).map c = h.map i := by
        rw [swapAt_map, Function.comp_apply, Equiv.swap_apply_right]
      refine ⟨c, hc.1, hcs, ?_⟩
      rw [hc.2, hup, hdown, less_byObj (show (h.swapAt c i).cmp = byObj lt from hcmp)]
      exact (hpick.min hcmp).1
    · exact hrising

omit [DecidableEq ι] in
/-- A removal that leaves the last entry where it is brought keeps the opposite order exactly
where that entry is not greater than what is above it nor smaller than what is under it. -/
theorem moveLast_reverseOrdered_iff (ho : h.ReverseOrdered) {index : ℕ}
    (hi : index + 1 < h.size) :
    (h.moveLast index).ReverseOrdered
      ↔ (0 < index → h.less (h.map ((index - 1) / 2)) (h.map (h.size - 1)) = false)
        ∧ ∀ c, c < h.size - 1 → IsChild c index →
          h.less (h.map (h.size - 1)) (h.map c) = false := by
  have hself := moveLast_map_self (h := h) index
  have hother : ∀ {k}, k ≠ index → (h.moveLast index).map k = h.map k := moveLast_map_of_ne
  have hless : (h.moveLast index).less = h.less := rfl
  have hsize : (h.moveLast index).size = h.size - 1 := rfl
  constructor
  · intro ho'
    refine ⟨fun hpos => ?_, fun c hcs hc => ?_⟩
    · have hedge := ho' index hpos (by omega)
      rwa [hless, hself, hother (by omega)] at hedge
    · have hedge := ho' c hc.1 (by omega)
      rwa [hless, hc.2, hself, hother hc.lt.ne'] at hedge
  · rintro ⟨habove, hunder⟩ k hk hks
    rw [hsize] at hks
    rw [hless]
    by_cases hki : k = index
    · subst hki
      rw [hself, hother (by omega)]
      exact habove hk
    · rw [hother hki]
      by_cases hpi : (k - 1) / 2 = index
      · rw [hpi, hself]
        exact hunder k hks ⟨hk, hpi⟩
      · rw [hother hpi]
        exact ho k hk (by omega)

omit [DecidableEq ι] in
/-- Taking the last entry away leaves the others in the opposite order. -/
theorem moveLast_last_reverseOrdered (ho : h.ReverseOrdered) {index : ℕ}
    (hi : h.size = index + 1) : (h.moveLast index).ReverseOrdered := by
  intro k hk hks
  have hsize : (h.moveLast index).size = h.size - 1 := rfl
  rw [moveLast_map_of_ne (by omega), moveLast_map_of_ne (by omega)]
  exact ho k hk (by omega)

/-- **When a removal keeps the opposite order**: exactly when the sift-down from the last entry
stops at once, with that entry in order. -/
theorem heapRemove_reverseOrdered_iff [IsStrictWeakOrder β (ltRel lt)]
    (hcmp : h.cmp = byObj lt) (ho : h.ReverseOrdered) {index : ℕ} (hi : index < h.size)
    {h₁ : Heap ι β} (hsift : Sifts (h.moveLast index) index h₁) :
    (h₁.retire (h.map index)).ReverseOrdered ↔ h.ReverseSafe (.remove index) := by
  have hcmp' : (h.moveLast index).cmp = byObj lt := hcmp
  have hcmp₁ : h₁.cmp = byObj lt := hsift.shape.cmp.trans hcmp
  have hretire : (h₁.retire (h.map index)).ReverseOrdered ↔ h₁.ReverseOrdered := by
    rw [reverseOrdered_iff hcmp₁,
      reverseOrdered_iff (show (h₁.retire (h.map index)).cmp = byObj lt from hcmp₁)]
    rfl
  rw [hretire]
  rcases (show index + 1 < h.size ∨ h.size = index + 1 by omega) with hlt | heq
  · have hself := moveLast_map_self (h := h) index
    rcases hsift.eq_or_rising hcmp' with
      ⟨rfl, hstop⟩ | ⟨⟨c, hcs, hc, hsmaller⟩, k, hk, hks, hrising⟩
    · -- nothing moves: what is left to ask is that the last entry is in order
      rw [moveLast_reverseOrdered_iff ho hlt]
      refine ⟨fun ⟨habove, hunder⟩ => Or.inr ⟨habove, fun c hcs hc => ⟨?_, hunder c hcs hc⟩⟩,
        fun hsafe => ?_⟩
      · have hc' := hstop c hcs hc
        rwa [hself, moveLast_map_of_ne hc.lt.ne'] at hc'
      · obtain ⟨habove, hties⟩ := hsafe.resolve_left (by omega)
        exact ⟨habove, fun c hcs hc => (hties c hcs hc).2⟩
    · refine iff_of_false (fun ho₁ => ?_) fun hsafe => ?_
      · exact Bool.noConfusion (hrising.symm.trans (ho₁ k hk hks))
      · rw [hself, moveLast_map_of_ne hc.lt.ne'] at hsmaller
        have htie := (hsafe.resolve_left (by omega)).2 c hcs hc
        exact Bool.noConfusion (hsmaller.symm.trans htie.1)
  · -- the last entry is taken out, and no position is left under it
    rcases hsift.eq_or_rising hcmp' with ⟨rfl, -⟩ | ⟨⟨c, hcs, hc, -⟩, -⟩
    · exact iff_of_true (moveLast_last_reverseOrdered ho heq) (Or.inl heq.le)
    · have hci := hc.lt
      have hcs' : c < h.size - 1 := hcs
      omega

/-! ## Whole runs -/

/-- What every run keeps while the heap stays small. -/
def Keeps (lt : β → β → Bool) (h : Heap ι β) : Prop := h.WF ∧ h.cmp = byObj lt

/-- **Everything a call does to the opposite order**, from fewer than `2^31` items: it returns,
and keeps the order exactly where it is `ReverseSafe`. -/
theorem step_reverseOrdered_iff [IsStrictWeakOrder β (ltRel lt)] (op : HeapOp ι)
    (hkeeps : Keeps lt h) (hs : h.size < 2 ^ 31) :
    ∃ h', HeapOp.step h op = some h' ∧ Keeps lt h'
      ∧ (h.ReverseOrdered → (h'.ReverseOrdered ↔ h.ReverseSafe op)) := by
  obtain ⟨hw, hcmp⟩ := hkeeps
  cases op with
  | insert item alloc =>
    rcases heapInsert_cases hw item (grows_of_lt hs alloc) with
      ⟨_, _, heq⟩ | ⟨g, h₁, j, hroom, hrise, heq⟩
    · exact ⟨h, by rw [HeapOp.step, heq]; rfl, ⟨hw, hcmp⟩, fun ho => iff_of_true ho trivial⟩
    · have hins := inserted_of_rises hroom hrise
      exact ⟨_, by rw [HeapOp.step, heq]; rfl, ⟨hins.wf, hins.cmp.trans hcmp⟩,
        fun ho => iff_of_true (place_reverseOrdered hcmp ho hroom hrise) trivial⟩
  | remove index =>
    rcases heapRemove_cases hw hs index with ⟨hge, heq⟩ | ⟨hi, h₁, hsift, heq⟩
    · exact ⟨h, by rw [HeapOp.step, heq]; rfl, ⟨hw, hcmp⟩,
        fun ho => iff_of_true ho (Or.inl (by omega))⟩
    · have hrem := removed_of_sifts hw hi hsift
      exact ⟨_, by rw [HeapOp.step, heq]; rfl, ⟨hrem.wf, hrem.cmp.trans hcmp⟩,
        fun ho => heapRemove_reverseOrdered_iff hcmp ho hi hsift⟩

/-- **The order that runs of the heap keep.** For every strict weak order and every run from a
fresh heap that stays below `2^31` items, the run returns; no entry is smaller than one under it
in any state of the run if and only if every call is `ReverseSafe` – as all insertions are – and
then the front is a maximum in every state. -/
theorem heap_reverse_run [IsStrictWeakOrder β (ltRel lt)] {maxSize : ℕ} {hi : ι → HeapItem}
    {obj : ι → β} {garbage : ℕ → ι} (hmax : maxSize < 2 ^ 32)
    (hinit : heapInit maxSize (byObj lt) hi obj (some garbage) = some h) (ops : List (HeapOp ι))
    (hsize : Along HeapOp.step (fun h => h.size < 2 ^ 31) h ops) :
    (∃ h', run HeapOp.step h ops = some h')
      ∧ (Along HeapOp.step ReverseOrdered h ops ↔ Meets HeapOp.step ReverseSafe h ops)
      ∧ (Meets HeapOp.step ReverseSafe h ops →
        Along HeapOp.step (fun h => ∀ p ∈ h.entries, h.less h.heapFront p = false) h ops) := by
  obtain ⟨hw, hzero, hcmp, -, -⟩ := heapInit_wf hmax hinit
  have hkeeps : Keeps lt h := ⟨hw, hcmp⟩
  have hempty : h.ReverseOrdered := fun k _ hk => absurd hk (by omega)
  have hsmall : Meets HeapOp.step (fun h _ => h.size < 2 ^ 31) h ops :=
    Run.meets_of_along (fun _ _ hs (_ : True) => hs) hsize (Run.meets_true h ops)
  obtain ⟨⟨h', hrun, -⟩, hal⟩ := Run.total_within (J := fun _ => Keeps lt) (B := fun _ => True)
    (fun _ _ hs => hs)
    (fun op _ s hs hlt => by
      obtain ⟨t, ht, hkt, -⟩ := step_reverseOrdered_iff op hs hlt
      exact ⟨t, ht, fun _ => hkt⟩)
    hkeeps hsmall (Run.along_of_forall (fun _ => trivial) h ops)
  have hiff : Along HeapOp.step ReverseOrdered h ops ↔ Meets HeapOp.step ReverseSafe h ops := by
    refine Run.along_iff_meets_of (J := Keeps lt) (fun s op s' hs hlt hstep => ?_)
      (fun s op s' hs ho hlt hstep => ?_) hkeeps hempty hsmall hrun
    · obtain ⟨t, ht, hkt, -⟩ := step_reverseOrdered_iff op hs hlt
      exact Option.some.inj (ht.symm.trans hstep) ▸ hkt
    · obtain ⟨t, ht, -, hot⟩ := step_reverseOrdered_iff op hs hlt
      exact Option.some.inj (ht.symm.trans hstep) ▸ hot ho
  refine ⟨⟨h', hrun⟩, hiff, fun hsafe => ?_⟩
  refine Run.along_imp (fun s hs p hp => ?_) (Run.along_and hal (hiff.mpr hsafe))
  exact hs.2.front_max hs.1.2 hp

/-- Three numbers inserted in ascending order, and the last one taken out: the greatest comes to
the front, and the position that is taken out last is not missed. -/
theorem heap_reverse_run_three :
    Along HeapOp.step (fun h => ∀ p ∈ h.entries, h.less h.heapFront p = false) (natHeap id)
      [.insert 1 none, .insert 2 none, .insert 3 none, .remove 2] := by
  have hinit : heapInit 0 (byObj fun a b => decide (a < b)) (fun _ => ⟨0, false⟩) id
      (some fun _ => 0) = some (natHeap id) := rfl
  exact (heap_reverse_run (by decide) hinit
    [.insert 1 none, .insert 2 none, .insert 3 none, .remove 2] (by decide +kernel)).2.2
    (by decide +kernel)

end Heap
