import Ckit.HashtableLists
import Ckit.Run

/-!
# The counters of the hash table

A table counts its elements in one counter, and each slot counts its own in another.
Both are kept beside the lists: `hashtable_hash` adds to them where it links an element,
and `__unhash` takes from them where it unlinks one.

The counters of the slots are right in every state of every run. The counter of the
table is not: `hashtable_init` sets it to `1`, and since every call that changes it
changes the number of elements alike, it stays one ahead. `hashtable_count` returns one
more than there are elements, in every state.

Nothing is asked of `hashfn` and `equalfn`: which elements are refused has no part in
this.
-/

namespace HashTable

variable {ε κ : Type}

/-- A call on a table, or on one of the elements. -/
inductive TableOp (ε κ : Type) where
  | hash (e : ε) (key : κ)
  | unhash (e : ε)
  | unhashUnlocked (e : ε)
  | lookup (key : κ)
  | hold (e : ε)
  | put (e : ε)

/-- **The counters fit the lists**, with the elements of slot `i` in `lists i`. The counter
of the table is one ahead. -/
structure CountedAhead (t : HashTable ε κ) (lists : ℕ → List ε) : Prop where
  filed : Filed t lists
  mask : t.mask.toNat + 1 < 2 ^ 31
  slotCount : ∀ i < t.slots, t.slotCount i = (lists i).length % 2 ^ 64
  count : t.count = i32 ((visited t.slots lists).length + 1)

section Step

variable [DecidableEq ε]

/-- A call, without what it returns. -/
def tableStep (fuel : ℕ) (t : HashTable ε κ) : TableOp ε κ → Option (HashTable ε κ)
  | .hash e key => (t.hashtableHash fuel e key).map Prod.snd
  | .unhash e => t.hashtableUnhash e
  | .unhashUnlocked e => t.hashtableUnhashUnlocked e
  | .lookup key => (t.hashtableLookup fuel key).map Prod.snd
  | .hold e => some (t.hashelmHold e)
  | .put e => t.hashelmPut e

/-- Only elements that are in the table are unhashed, and the last reference to an element
is put when it has been in a table: `hashelm_put` reads its `ht`. -/
def Permitted (t : HashTable ε κ) : TableOp ε κ → Prop
  | .unhash e => t.hashelmHashed e = true
  | .unhashUnlocked e => t.hashelmHashed e = true
  | .put e => i32 ((t.elm e).refcount - 1) = 0 → (t.elm e).ht = true
  | _ => True

instance (t : HashTable ε κ) (o : TableOp ε κ) : Decidable (Permitted t o) :=
  match o with
  | .unhash _ | .unhashUnlocked _ => inferInstanceAs (Decidable (_ = _))
  | .put _ => inferInstanceAs (Decidable (_ → _))
  | .hash _ _ | .lookup _ | .hold _ => .isTrue trivial

end Step

variable {t t' : HashTable ε κ} {lists : ℕ → List ε}

/-! ## The number of elements -/

theorem visited_succ (slots : ℕ) (lists : ℕ → List ε) :
    visited (slots + 1) lists = visited slots lists ++ lists slots := by
  unfold visited
  rw [List.range_succ, List.flatMap_append, List.flatMap_singleton]

/-- **The number of elements changes as the list of one slot does.** -/
theorem length_visited_update {slots i : ℕ} (hi : i < slots) (lists : ℕ → List ε) (l : List ε) :
    (visited slots (Function.update lists i l)).length + (lists i).length
      = (visited slots lists).length + l.length := by
  induction slots with
  | zero => exact absurd hi (Nat.not_lt_zero i)
  | succ n ih =>
    rw [visited_succ, visited_succ, List.length_append, List.length_append]
    by_cases hin : i = n
    · subst hin
      have hsame : visited i (Function.update lists i l) = visited i lists := by
        unfold visited
        refine List.flatMap_congr fun j hj => ?_
        exact Function.update_of_ne (Nat.ne_of_lt (List.mem_range.mp hj)) _ _
      rw [hsame, Function.update_self]
      omega
    · rw [Function.update_of_ne (Ne.symm hin)]
      have hrest := ih (by omega)
      omega

/-! ## The calls -/

/-- What is not written to the lists, the keys or the counters. -/
theorem CountedAhead.same (h : CountedAhead t lists) (hs : SameTable t t')
    (hslot : t'.slotCount = t.slotCount) (hcount : t'.count = t.count) :
    CountedAhead t' lists := by
  refine ⟨hs.filed h.filed, ?_, ?_, ?_⟩
  · rw [hs.mask]
    exact h.mask
  · rw [hs.slots, hslot]
    exact h.slotCount
  · rw [hs.slots, hcount]
    exact h.count

variable [DecidableEq ε]

theorem CountedAhead.hold (h : CountedAhead t lists) (e : ε) :
    CountedAhead (t.hashelmHold e) lists :=
  h.same (setRefcount_same t e _) rfl rfl

theorem CountedAhead.put (h : CountedAhead t lists) {e : ε}
    (hht : i32 ((t.elm e).refcount - 1) = 0 → (t.elm e).ht = true) :
    ∃ t', t.hashelmPut e = some t' ∧ CountedAhead t' lists := by
  refine ⟨_, hashelmPut_eq hht, ?_⟩
  have hset := h.same (setRefcount_same t e (i32 ((t.elm e).refcount - 1))) rfl rfl
  split
  · obtain ⟨hslot, hcount⟩ := callFreefn_counts (t.setRefcount e _) e
    exact hset.same (callFreefn_same _ e) hslot hcount
  · exact hset

/-- **An element is linked and counted.** -/
theorem CountedAhead.addElm (h : CountedAhead t lists) {e : ε} {i : ℕ}
    (hnot : e ∉ visited t.slots lists) (hi : t.getSlot (t.elm e).hash = i)
    (hht : (t.elm e).ht = true) :
    CountedAhead (t.addElm i e) (Function.update lists i (e :: lists i)) := by
  have hlt : i < t.slots := hi ▸ h.filed.getSlot_lt _
  refine ⟨(addElm_same t i e).filed (h.filed.link hnot hi hht), h.mask, fun j hj => ?_, ?_⟩
  · show Function.update t.slotCount i _ j = _
    by_cases hji : j = i
    · rw [hji, Function.update_self, Function.update_self, h.slotCount i hlt, List.length_cons]
      omega
    · rw [Function.update_of_ne hji, Function.update_of_ne hji]
      exact h.slotCount j hj
  · show i32 (t.count + 1) = _
    have hlen := length_visited_update hlt lists (e :: lists i)
    rw [List.length_cons] at hlen
    have hone : (visited t.slots (Function.update lists i (e :: lists i))).length
        = (visited t.slots lists).length + 1 := by omega
    rw [h.count]
    show i32 (i32 _ + 1) = i32 ((visited t.slots _).length + 1)
    rw [hone, Int.natCast_succ]
    exact Int.bmod_add_bmod

/-- **An element is unlinked and no longer counted.** -/
theorem CountedAhead.delElm (h : CountedAhead t lists) {e : ε} {i : ℕ} (hi : i < t.slots)
    {l₁ l₂ : List ε} (hl : lists i = l₁ ++ e :: l₂) :
    CountedAhead (t.delElm i e) (Function.update lists i (l₁ ++ l₂)) := by
  have hone : (lists i).length = (l₁ ++ l₂).length + 1 := by
    rw [hl, List.length_append, List.length_append, List.length_cons]
    omega
  refine ⟨(delElm_same t i e).filed (h.filed.unlink hi hl), h.mask, fun j hj => ?_, ?_⟩
  · show Function.update t.slotCount i _ j = _
    by_cases hji : j = i
    · rw [hji, Function.update_self, Function.update_self, h.slotCount i hi]
      omega
    · rw [Function.update_of_ne hji, Function.update_of_ne hji]
      exact h.slotCount j hj
  · show i32 (t.count - 1) = _
    have hlen := length_visited_update hi lists (l₁ ++ l₂)
    have htotal : (visited t.slots lists).length
        = (visited t.slots (Function.update lists i (l₁ ++ l₂))).length + 1 := by omega
    rw [h.count, htotal]
    show i32 (i32 _ - 1) = i32 _
    refine Int.bmod_sub_bmod.trans ?_
    rw [Int.natCast_succ, Int.add_sub_cancel]
    rfl

/-- **`hashtable_hash`**, whether it takes the element or not, makes a list longer by one
at most. -/
theorem CountedAhead.hash (h : CountedAhead t lists) (e : ε) (key : κ) {fuel : ℕ}
    (hfuel : ∀ i, (lists i).length < fuel) :
    ∃ r t' lists', t.hashtableHash fuel e key = some (r, t') ∧ CountedAhead t' lists'
      ∧ ∀ i, (lists' i).length ≤ (lists i).length + 1 := by
  unfold hashtableHash
  by_cases hmem : e ∈ visited t.slots lists
  · rw [if_pos ((h.filed.hashed_iff e).mpr hmem)]
    exact ⟨-1, t, lists, rfl, h, fun i => Nat.le_succ _⟩
  · rw [if_neg fun hh => hmem ((h.filed.hashed_iff e).mp hh)]
    have hset : CountedAhead (t.setKey e key) lists :=
      ⟨h.filed.setKey hmem key, h.mask, h.slotCount, h.count⟩
    have hht : ((t.setKey e key).elm e).ht = true := by
      show (Function.update t.elm e _ e).ht = true
      rw [Function.update_self]
    unfold hashSection
    dsimp only
    rw [hset.filed.find_eq (hset.filed.getSlot_lt _) (hfuel _)]
    simp only [Option.bind_eq_bind, Option.bind_some]
    cases (lists ((t.setKey e key).getSlot ((t.setKey e key).elm e).hash)).find? _ with
    | some e' => exact ⟨-1, _, lists, rfl, hset, fun i => Nat.le_succ _⟩
    | none =>
      exact ⟨0, _, _, rfl, (hset.addElm hmem rfl hht).hold e, length_linked_le _ e⟩

/-- **`hashtable_unhash` and `__hashtable_unhash`** of an element of the table. -/
theorem CountedAhead.unhash (h : CountedAhead t lists) {e : ε} (he : t.hashelmHashed e = true) :
    ∃ t' lists', t.hashtableUnhashUnlocked e = some t' ∧ CountedAhead t' lists'
      ∧ ∀ i, (lists' i).length ≤ (lists i).length := by
  obtain ⟨i, hi, hmem⟩ := mem_visited.mp ((h.filed.hashed_iff e).mp he)
  obtain ⟨hslot, hht⟩ := h.filed.fields i hi e hmem
  obtain ⟨l₁, l₂, hl⟩ := List.append_of_mem hmem
  obtain ⟨t', hput, hahead⟩ := (h.delElm hi hl).put (e := e) fun _ => hht
  refine ⟨t', _, ?_, hahead, length_removed_le hl⟩
  unfold hashtableUnhashUnlocked unhashSection
  rw [hslot, if_pos hi, hput]

/-- **`hashtable_lookup`** changes nothing but a reference count. -/
theorem CountedAhead.lookup (h : CountedAhead t lists) (key : κ) {fuel : ℕ}
    (hfuel : ∀ i, (lists i).length < fuel) :
    ∃ r t', t.hashtableLookup fuel key = some (r, t') ∧ CountedAhead t' lists := by
  unfold hashtableLookup lookupSection
  rw [h.filed.find_eq (h.filed.getSlot_lt _) (hfuel _)]
  simp only [Option.bind_eq_bind, Option.bind_some]
  cases (lists (t.getSlot (t.hashfn key))).find? _ with
  | some e => exact ⟨some e, _, rfl, h.hold e⟩
  | none => exact ⟨none, t, rfl, h⟩

/-- **A permitted call** returns, and the counters fit the lists afterwards. -/
theorem CountedAhead.step (h : CountedAhead t lists) {o : TableOp ε κ} (hp : Permitted t o)
    {fuel : ℕ} (hfuel : ∀ i, (lists i).length < fuel) :
    ∃ t' lists', tableStep fuel t o = some t' ∧ CountedAhead t' lists'
      ∧ ∀ i, (lists' i).length ≤ (lists i).length + 1 := by
  have hsame : ∀ i, (lists i).length ≤ (lists i).length + 1 := fun i => Nat.le_succ _
  cases o with
  | hash e key =>
    obtain ⟨r, t', lists', heq, h', hlen⟩ := h.hash e key hfuel
    exact ⟨t', lists', by rw [tableStep, heq, Option.map_some], h', hlen⟩
  | unhash e =>
    obtain ⟨t', lists', heq, h', hlen⟩ := h.unhash hp
    exact ⟨t', lists', heq, h', fun i => Nat.le_succ_of_le (hlen i)⟩
  | unhashUnlocked e =>
    obtain ⟨t', lists', heq, h', hlen⟩ := h.unhash hp
    exact ⟨t', lists', heq, h', fun i => Nat.le_succ_of_le (hlen i)⟩
  | lookup key =>
    obtain ⟨r, t', heq, h'⟩ := h.lookup key hfuel
    exact ⟨t', lists, by rw [tableStep, heq, Option.map_some], h', hsame⟩
  | hold e => exact ⟨_, lists, rfl, h.hold e, hsame⟩
  | put e =>
    obtain ⟨t', heq, h'⟩ := h.put hp
    exact ⟨t', lists, heq, h', hsame⟩

/-! ## Every run -/

section New

variable {size : UInt32} {hashfn : κ → UInt32} {equalfn : HashElm κ → κ → Bool}
  {freefn : Bool} {links : Links (HashNode ε)} {elm : ε → HashElm κ} {alloc : Bool}

/-- **Where `hashtable_init` returns a table**, its loop has returned it. -/
theorem hashtableInit_loop
    (h : hashtableInit size hashfn equalfn freefn links elm alloc = some (some t)) :
    alloc = true ∧ (size - 1).toNat + 1 < 2 ^ 31
      ∧ run initSlot ⟨size - 1, 1, size.toNat, fun _ => 0, hashfn, equalfn, freefn, links, elm,
        fun _ => 0⟩ (List.range ((size - 1).toNat + 1)) = some t := by
  unfold hashtableInit forSlotsInt at h
  split at h
  · rename_i halloc
    split at h
    · rename_i hmask
      obtain ⟨t', hloop, ht'⟩ := Option.map_eq_some_iff.mp h
      exact ⟨halloc, hmask, Option.some.inj ht' ▸ hloop⟩
    · exact nomatch h
  · exact absurd (Option.some.inj h) (Option.some_ne_none t).symm

omit [DecidableEq ε] in
/-- **The sizes are those from `1` to `2^31 - 1`**: the index of the loop is an `int`, and the
mask of the size `0` is the greatest of all. -/
theorem size_of_mask (h : (size - 1).toNat + 1 < 2 ^ 31) :
    0 < size.toNat ∧ size.toNat < 2 ^ 31 := by
  have hpos : 0 < size.toNat := by
    refine Nat.pos_of_ne_zero fun hzero => ?_
    obtain rfl : size = 0 := UInt32.toNat_inj.mp hzero
    exact absurd h (by decide)
  rw [mask_succ hpos] at h
  exact ⟨hpos, h⟩

/-- One round of the loop of `hashtable_init` writes `0` into a counter. -/
theorem initSlot_slotCount {i : ℕ} (hzero : t.slotCount = fun _ => 0)
    (h : t.initSlot i = some t') : t'.slotCount = fun _ => 0 := by
  unfold initSlot at h
  split at h
  · obtain rfl := Option.some.inj h
    show Function.update t.slotCount i 0 = fun _ => 0
    rw [hzero, Function.update_eq_self_iff.mpr rfl]
  · exact nomatch h

/-- **A new table** has no elements, and counts one. -/
theorem hashtableInit_countedAhead (helm : ∀ e, Initialised links elm e)
    (h : hashtableInit size hashfn equalfn freefn links elm alloc = some (some t)) :
    CountedAhead t fun _ => [] := by
  obtain ⟨rfl, hmask, hloop⟩ := hashtableInit_loop h
  obtain ⟨hpos, hlt⟩ := size_of_mask hmask
  have hzero : t.slotCount = fun _ => 0 :=
    @Run.inv _ _ initSlot (fun t => t.slotCount = fun _ => 0)
      (fun t i t' => initSlot_slotCount) _ _ _ rfl hloop
  obtain ⟨t', heq, hfresh, hslots⟩ :=
    @hashtableInit_fresh ε κ _ hashfn equalfn freefn links elm size hpos hlt
  obtain rfl : t' = t := Option.some.inj (Option.some.inj (heq.symm.trans h))
  refine ⟨hfresh.filed hslots fun e => (helm e).alone, ?_, fun i _ => ?_, ?_⟩
  · rw [hfresh.fields]
    exact hmask
  · rw [hzero, List.length_nil, Nat.zero_mod]
  · have hnone : visited t'.slots (fun _ => ([] : List ε)) = [] :=
      List.flatMap_eq_nil_iff.mpr fun _ _ => rfl
    have hone : i32 (((0 : ℕ) : ℤ) + 1) = 1 := i32_of_lt (by omega) (by omega)
    rw [hnone, List.length_nil, hone, hfresh.fields]

/-- **In every state of every run** the counters fit the lists. -/
theorem countedAhead_run (helm : ∀ e, Initialised links elm e)
    (h : hashtableInit size hashfn equalfn freefn links elm alloc = some (some t))
    {ops : List (TableOp ε κ)} {fuel : ℕ} (hfuel : ops.length < fuel)
    (hp : Meets (tableStep fuel) Permitted t ops) :
    (∃ t', run (tableStep fuel) t ops = some t'
        ∧ ∃ lists, CountedAhead t' lists ∧ ∀ i, (lists i).length < fuel)
      ∧ Along (tableStep fuel)
        (fun t => ∃ lists, CountedAhead t lists ∧ ∀ i, (lists i).length < fuel) t ops := by
  have hstart : ∀ _ : ℕ, ([] : List ε).length + ops.length < fuel := by
    intro _
    rwa [List.length_nil, Nat.zero_add]
  let J : List (TableOp ε κ) → HashTable ε κ → Prop := fun es t =>
    ∃ lists, CountedAhead t lists ∧ ∀ i, (lists i).length + es.length < fuel
  have hstep : ∀ o es t, J (o :: es) t → Permitted t o →
      ∃ t', tableStep fuel t o = some t' ∧ (True → J es t') := by
    rintro o es t ⟨lists, hcounted, hlen⟩ hp
    obtain ⟨t', lists', heq, hcounted', hlen'⟩ := hcounted.step hp fun i =>
      Nat.lt_of_le_of_lt (Nat.le_add_right _ _) (hlen i)
    refine ⟨t', heq, fun _ => ⟨lists', hcounted', fun i => ?_⟩⟩
    have hi := hlen i
    have hi' := hlen' i
    rw [List.length_cons] at hi
    omega
  obtain ⟨⟨t', hrun, lists, hcounted, hlen⟩, halong⟩ := Run.total_within (J := J)
    (P := fun t => ∃ lists, CountedAhead t lists ∧ ∀ i, (lists i).length < fuel)
    (fun es t ⟨lists, hcounted, hlen⟩ =>
      ⟨lists, hcounted, fun i => Nat.lt_of_le_of_lt (Nat.le_add_right _ _) (hlen i)⟩)
    hstep ⟨_, hashtableInit_countedAhead helm h, hstart⟩ hp
    (Run.along_of_forall (fun _ => trivial) t ops)
  exact ⟨⟨t', hrun, lists, hcounted, hlen⟩, halong⟩

end New

/-- **The counts are exact**: the table counts the elements in all its lists, and each slot
those in its own. -/
def CountsExact (t : HashTable ε κ) (lists : ℕ → List ε) : Prop :=
  t.hashtableCount = (visited t.slots lists).length
    ∧ ∀ i < t.slots, t.slotCount i = (lists i).length

omit [DecidableEq ε] in
theorem CountedAhead.hashtableCount_eq (h : CountedAhead t lists) :
    t.hashtableCount = ((visited t.slots lists).length + 1) % 2 ^ 32 := by
  have hmod : i32 ((visited t.slots lists).length + 1) % 2 ^ 32
      = ((visited t.slots lists).length + 1) % 2 ^ 32 := Int.bmod_emod
  unfold hashtableCount
  rw [h.count, hmod]
  omega

omit [DecidableEq ε] in
theorem CountedAhead.not_countsExact (h : CountedAhead t lists) : ¬ CountsExact t lists := by
  rintro ⟨hcount, -⟩
  rw [h.hashtableCount_eq] at hcount
  omega

/-- **`hashtable_count` is one more than the number of elements**, in every state of every
run on a table of any size. Each slot counts its own elements, and `hashtable_foreach` goes
through as many as there are. -/
theorem hashtable_count_ahead (size : UInt32) (hashfn : κ → UInt32)
    (equalfn : HashElm κ → κ → Bool) (freefn : Bool) (links : Links (HashNode ε))
    (elm : ε → HashElm κ) (alloc : Bool) (helm : ∀ e, Initialised links elm e)
    (hinit : hashtableInit size hashfn equalfn freefn links elm alloc = some (some t))
    (ops : List (TableOp ε κ)) (fuel : ℕ) (hfuel : ops.length < fuel)
    (hp : Meets (tableStep fuel) Permitted t ops) :
    (∃ t', run (tableStep fuel) t ops = some t')
      ∧ Along (tableStep fuel) (fun t => ∃ lists, Filed t lists
        ∧ t.hashtableForeach fuel (some fun es e => es ++ [e]) []
          = some (i32 (visited t.slots lists).length, visited t.slots lists)
        ∧ (∀ i < t.slots, t.slotCount i = (lists i).length % 2 ^ 64)
        ∧ t.hashtableCount = ((visited t.slots lists).length + 1) % 2 ^ 32
        ∧ ¬ CountsExact t lists) t ops := by
  obtain ⟨⟨t', hrun, -⟩, halong⟩ := countedAhead_run helm hinit hfuel hp
  refine ⟨⟨t', hrun⟩, Run.along_imp (fun t ⟨lists, h, hlen⟩ => ?_) halong⟩
  have hmask : t.mask.toNat + 1 < 2 ^ 32 := Nat.lt_trans h.mask (by decide)
  refine ⟨lists, h.filed, ?_, h.slotCount, h.hashtableCount_eq, h.not_countsExact⟩
  rw [h.filed.foreach_eq hmask hlen, foldl_append_singleton, List.nil_append]

/-- A table with two slots for the two elements, hashed under numbers. -/
def twoSlots : HashTable Bool ℕ :=
  ((hashtableInit 2 UInt32.ofNat (fun he k => he.key == k) true ⟨id, id⟩
    (fun _ => ⟨1, 0, 0, false⟩) true).get rfl).get rfl

theorem twoSlots_init : hashtableInit 2 UInt32.ofNat (fun he k => he.key == k) true ⟨id, id⟩
    (fun _ => ⟨1, 0, 0, false⟩) true = some (some twoSlots) :=
  rfl

/-- An element is hashed, another one is refused for its key, and the first is unhashed. -/
def hashRefuseUnhash : List (TableOp Bool ℕ) :=
  [.hash true 5, .hash false 5, .lookup 5, .unhashUnlocked true, .put true]

theorem hashtable_count_ahead_two :
    (∃ t', run (tableStep 9) twoSlots hashRefuseUnhash = some t')
      ∧ Along (tableStep 9) (fun t => ∃ lists, Filed t lists
        ∧ t.hashtableForeach 9 (some fun es e => es ++ [e]) []
          = some (i32 (visited t.slots lists).length, visited t.slots lists)
        ∧ (∀ i < t.slots, t.slotCount i = (lists i).length % 2 ^ 64)
        ∧ t.hashtableCount = ((visited t.slots lists).length + 1) % 2 ^ 32
        ∧ ¬ CountsExact t lists) twoSlots hashRefuseUnhash :=
  hashtable_count_ahead 2 UInt32.ofNat (fun he k => he.key == k) true ⟨id, id⟩
    (fun _ => ⟨1, 0, 0, false⟩) true (fun _ => ⟨Links.ring_nil.mpr ⟨rfl, rfl⟩, rfl⟩)
    twoSlots_init hashRefuseUnhash 9 (by decide) (by decide +kernel)

/-- **A new table counts an element it does not have.** -/
theorem hashtable_count_new : hashtableInit 2 UInt32.ofNat (fun he k => he.key == k) true
      ⟨id, id⟩ (fun _ => ⟨1, 0, 0, false⟩) true = some (some twoSlots)
    ∧ ∃ lists, Filed twoSlots lists ∧ visited twoSlots.slots lists = []
      ∧ twoSlots.hashtableCount = 1 ∧ ¬ CountsExact twoSlots lists := by
  have hnew : CountedAhead twoSlots fun _ => [] :=
    hashtableInit_countedAhead (fun _ => ⟨Links.ring_nil.mpr ⟨rfl, rfl⟩, rfl⟩) twoSlots_init
  exact ⟨twoSlots_init, _, hnew.filed, rfl, rfl, hnew.not_countsExact⟩

end HashTable
