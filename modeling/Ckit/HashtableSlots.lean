import Ckit.HashtableCount

/-!
# The loops over the slots

Four loops go over the slots of a table, all of them `for (i = 0; i <= ht->mask; i++)`. The
mask is `unsigned` and one less than the size. The index is `unsigned` in `hashtable_foreach`
and `hashtable_foreach_read`, and then the test of a loop over `2^32` slots never fails. It is
an `int` in `hashtable_init` and `hashtable_fini`. The test converts it to `unsigned`, and the
use of it as an index does not, so that a negative one is a large number to the first and
outside the array for the second.

Here the loops are written with these indices, round by round, and with the slots they touch
(`slotLoop`). What an increment does past the greatest `int` is left to the language: with
`wraps` it goes on with the smallest one, without it the program has no meaning. The two
differ for one size only, `2^31`. For all others the loops of the model, `forSlots` and
`forSlotsInt`, are these loops (`unsignedLoop_eq`, `intLoop_eq`).

The mask of the size `0` is the greatest of all. So the sizes with which `hashtable_init`
returns are those from `1` to `2^31 - 1`, or `2^31` (`hashtableInitSlots_returns_iff`), and
for these no loop and no hash leaves the array (`hashtable_slot_loops`).
-/

namespace HashTable

variable {ε κ ι σ : Type}

/-- **A loop over the slots** with the index `i`, at most `fuel` tests of it: the slots whose
body was run and the state in the end. `slot` is the slot of the array an index stands for. -/
def slotLoop (slot : ι → Option ℕ) (test : ι → Bool) (incr : ι → Option ι)
    (body : σ → ℕ → Option σ) : ℕ → ι → σ → Option (List ℕ × σ)
  | 0, _, _ => none
  | fuel + 1, i, s =>
    if test i then
      (slot i).bind fun j =>
        (body s j).bind fun s =>
          (incr i).bind fun i =>
            (slotLoop slot test incr body fuel i s).map fun r => (j :: r.1, r.2)
    else some ([], s)

/-- The loop with an `unsigned` index. -/
def unsignedLoop (mask : UInt32) (body : σ → ℕ → Option σ) (fuel : ℕ) (s : σ) :
    Option (List ℕ × σ) :=
  slotLoop some (fun i => decide (i ≤ mask.toNat)) (fun i => some ((i + 1) % 2 ^ 32)) body fuel 0 s

/-- The slot of an `int` index, which is outside the array where it is negative. -/
def intSlot (i : ℤ) : Option ℕ := if 0 ≤ i then some i.toNat else none

/-- The increment of an `int`, which has a meaning past the greatest one with `wraps` only. -/
def intIncr (wraps : Bool) (i : ℤ) : Option ℤ :=
  if wraps = true ∨ i + 1 < 2 ^ 31 then some (i32 (i + 1)) else none

/-- The loop with an `int` index, which the test converts to `unsigned`. -/
def intLoop (wraps : Bool) (mask : UInt32) (body : σ → ℕ → Option σ) (fuel : ℕ) (s : σ) :
    Option (List ℕ × σ) :=
  slotLoop intSlot (fun i => decide ((i % 2 ^ 32).toNat ≤ mask.toNat)) (intIncr wraps) body fuel
    (0 : ℤ) s

/-! ## Loops that end, and loops that do not -/

section Loops

variable {slot : ι → Option ℕ} {test : ι → Bool} {incr : ι → Option ι} {body : σ → ℕ → Option σ}

/-- **A loop whose index goes through `idx 0`, `idx 1`, … and fails its test at `idx n`** runs its
body at the slots `0` to `n - 1`. -/
theorem slotLoop_eq (idx : ℕ → ι) {n : ℕ} (hslot : ∀ k < n, slot (idx k) = some k)
    (htest : ∀ k < n, test (idx k) = true) (hincr : ∀ k < n, incr (idx k) = some (idx (k + 1)))
    (hend : test (idx n) = false) {fuel : ℕ} (hfuel : n < fuel) (s : σ) :
    slotLoop slot test incr body fuel (idx 0) s
      = ((List.range n).foldlM body s).map fun s => (List.range n, s) := by
  -- by induction on the number `m` of slots that are still to come
  suffices hsuffix : ∀ m k fuel s, k + m = n → m < fuel →
      slotLoop slot test incr body fuel (idx k) s
        = ((List.range' k m).foldlM body s).map fun s => (List.range' k m, s) by
    rw [List.range_eq_range']
    exact hsuffix n 0 fuel s (Nat.zero_add n) hfuel
  intro m
  induction m with
  | zero =>
    intro k fuel s hk hlt
    obtain ⟨fuel, rfl⟩ := Nat.exists_eq_succ_of_ne_zero (Nat.ne_zero_of_lt hlt)
    obtain rfl : k = n := hk
    rw [slotLoop, hend, if_neg Bool.false_ne_true]
    rfl
  | succ m ih =>
    intro k fuel s hk hlt
    obtain ⟨fuel, rfl⟩ := Nat.exists_eq_succ_of_ne_zero (Nat.ne_zero_of_lt hlt)
    have hkn : k < n := by omega
    rw [slotLoop, htest k hkn, if_pos rfl, hslot k hkn, Option.bind_some, List.range'_succ,
      List.foldlM_cons]
    cases hbody : body s k with
    | none => rfl
    | some s' =>
      rw [Option.bind_some, hincr k hkn, Option.bind_some,
        ih (k + 1) fuel s' (by omega) (Nat.lt_of_succ_lt_succ hlt), Option.map_map]
      rfl

/-- **A loop that cannot end**: its index stays where the test succeeds, or comes to stand for
no slot. -/
theorem slotLoop_eq_none {P : ι → Prop} (htest : ∀ i, P i → test i = true)
    (hnext : ∀ i, P i → slot i = none ∨ ∀ i', incr i = some i' → P i') (fuel : ℕ) {i : ι} (hi : P i)
    (s : σ) : slotLoop slot test incr body fuel i s = none := by
  induction fuel generalizing i s with
  | zero => rfl
  | succ fuel ih =>
    rw [slotLoop, htest i hi, if_pos rfl]
    rcases hnext i hi with hnone | hstays
    · rw [hnone, Option.bind_none]
    · refine Option.bind_eq_none_iff.mpr fun j _ => Option.bind_eq_none_iff.mpr fun s' _ =>
        Option.bind_eq_none_iff.mpr fun i' hi' => ?_
      rw [ih (hstays i' hi') s', Option.map_none]

/-- More rounds than a loop needs change nothing. -/
theorem slotLoop_mono {fuel fuel' : ℕ} (hle : fuel ≤ fuel') {i : ι} {s : σ} {r : List ℕ × σ}
    (h : slotLoop slot test incr body fuel i s = some r) :
    slotLoop slot test incr body fuel' i s = some r := by
  induction fuel generalizing fuel' i s r with
  | zero => exact absurd h (Option.some_ne_none r).symm
  | succ fuel ih =>
    obtain ⟨fuel', rfl⟩ := Nat.exists_eq_succ_of_ne_zero (Nat.ne_zero_of_lt hle)
    rw [slotLoop] at h ⊢
    split at h
    · rename_i htest
      obtain ⟨j, hj, h⟩ := Option.bind_eq_some_iff.mp h
      obtain ⟨s', hs', h⟩ := Option.bind_eq_some_iff.mp h
      obtain ⟨i', hi', h⟩ := Option.bind_eq_some_iff.mp h
      obtain ⟨r', hr', rfl⟩ := Option.map_eq_some_iff.mp h
      rw [if_pos htest, hj, Option.bind_some, hs', Option.bind_some, hi', Option.bind_some,
        ih (Nat.le_of_succ_le_succ hle) hr', Option.map_some]
    · rename_i htest
      rw [if_neg htest]
      exact h

/-- What a loop ends with, it ends with however many rounds it may take. -/
theorem slotLoop_outcome {n fuel : ℕ} {i : ι} {s s' : σ} {js : List ℕ} {o : Option σ}
    (heq : ∀ fuel, n < fuel →
      slotLoop slot test incr body fuel i s = o.map fun s => (List.range n, s))
    (h : slotLoop slot test incr body fuel i s = some (js, s')) :
    js = List.range n ∧ o = some s' := by
  have hmore := slotLoop_mono (le_max_left fuel (n + 1)) h
  rw [heq _ (Nat.lt_of_lt_of_le (Nat.lt_succ_self n) (le_max_right _ _))] at hmore
  obtain ⟨s₁, hs₁, hpair⟩ := Option.map_eq_some_iff.mp hmore
  obtain ⟨hjs, rfl⟩ := Prod.mk.inj hpair
  exact ⟨hjs.symm, hs₁⟩

end Loops

/-! ## Masks -/

/-- The greatest number of slots a loop with an `int` index ends on. -/
def intLimit (wraps : Bool) : ℕ := if wraps then 2 ^ 31 else 2 ^ 31 - 1

variable {mask : UInt32} {body : σ → ℕ → Option σ} {fuel : ℕ} {wraps : Bool}

theorem unsignedLoop_eq (hmask : mask.toNat + 1 < 2 ^ 32) (hfuel : mask.toNat + 1 < fuel) (s : σ) :
    unsignedLoop mask body fuel s
      = ((List.range (mask.toNat + 1)).foldlM body s).map fun s =>
        (List.range (mask.toNat + 1), s) := by
  refine slotLoop_eq (fun k => k) (fun k _ => rfl) (fun k hk => ?_) (fun k hk => ?_) ?_
    hfuel s
  · exact decide_eq_true (Nat.le_of_lt_succ hk)
  · rw [Nat.mod_eq_of_lt (by omega)]
  · exact decide_eq_false (Nat.not_le_of_lt (Nat.lt_succ_self _))

theorem i32_emod (n : ℕ) (h : n < 2 ^ 32) : (i32 n % 2 ^ 32).toNat = n := by
  have hmod : i32 n % 2 ^ 32 = (n : ℤ) % 2 ^ 32 := Int.bmod_emod
  rw [hmod]
  omega

theorem intLimit_le (wraps : Bool) : intLimit wraps ≤ 2 ^ 31 := by
  cases wraps with
  | false => exact Nat.sub_le _ _
  | true => exact le_rfl

theorem intLoop_eq (hmask : mask.toNat + 1 ≤ intLimit wraps) (hfuel : mask.toNat + 1 < fuel)
    (s : σ) :
    intLoop wraps mask body fuel s
      = ((List.range (mask.toNat + 1)).foldlM body s).map fun s =>
        (List.range (mask.toNat + 1), s) := by
  have hlimit := hmask.trans (intLimit_le wraps)
  have hidx (k : ℕ) (hk : k < mask.toNat + 1) : i32 (k : ℤ) = k :=
    i32_of_lt (Int.natCast_nonneg k) (by omega)
  refine slotLoop_eq (fun k : ℕ => i32 k) (fun k hk => ?_) (fun k hk => ?_)
    (fun k hk => ?_) ?_ hfuel s
  · rw [hidx k hk, intSlot, if_pos (Int.natCast_nonneg k), Int.toNat_natCast]
  · refine decide_eq_true ?_
    rw [i32_emod k (by omega)]
    exact Nat.le_of_lt_succ hk
  · have hmeaning : wraps = true ∨ (k : ℤ) + 1 < 2 ^ 31 := by
      cases wraps with
      | true => exact .inl rfl
      | false =>
        have hle : mask.toNat + 1 ≤ 2 ^ 31 - 1 := hmask
        exact .inr (by omega)
    rw [hidx k hk, intIncr, if_pos hmeaning, Nat.cast_succ]
  · refine decide_eq_false ?_
    rw [i32_emod _ (by omega)]
    exact Nat.not_le_of_lt (Nat.lt_succ_self _)

/-- The test of a loop over `2^32` slots never fails. -/
theorem unsignedLoop_eq_none (hmask : ¬ mask.toNat + 1 < 2 ^ 32) (s : σ) :
    unsignedLoop mask body fuel s = none := by
  refine slotLoop_eq_none (P := fun i => i < 2 ^ 32) (fun i hi => decide_eq_true (by omega))
    (fun i _ => .inr fun i' hi' => ?_) fuel (by decide) s
  rw [← Option.some.inj hi']
  exact Nat.mod_lt _ (by decide)

/-- **A loop with an `int` index over too many slots** comes to an increment without a meaning,
or to a negative index that its test takes for a large one. -/
theorem intLoop_eq_none (hmask : ¬ mask.toNat + 1 ≤ intLimit wraps) (s : σ) :
    intLoop wraps mask body fuel s = none := by
  have hover : 2 ^ 31 ≤ mask.toNat + 1 ∧ (wraps = true → 2 ^ 31 ≤ mask.toNat) := by
    cases wraps with
    | true =>
      have hlt : ¬ mask.toNat + 1 ≤ 2 ^ 31 := hmask
      exact ⟨by omega, fun _ => by omega⟩
    | false =>
      have hlt : ¬ mask.toNat + 1 ≤ 2 ^ 31 - 1 := hmask
      exact ⟨by omega, fun h => absurd h Bool.false_ne_true⟩
  refine slotLoop_eq_none
    (P := fun i : ℤ => 0 ≤ i ∧ i < 2 ^ 31 ∨ wraps = true ∧ i = -2 ^ 31) (fun i hi => ?_)
    (fun i hi => ?_) fuel (.inl (by decide)) s
  · refine decide_eq_true ?_
    rcases hi with ⟨hpos, hlt⟩ | ⟨hwraps, rfl⟩
    · omega
    · have hle := hover.2 hwraps
      omega
  · rcases hi with ⟨hpos, hlt⟩ | ⟨-, rfl⟩
    · refine .inr fun i' hi' => ?_
      unfold intIncr at hi'
      split at hi'
      · rename_i hmeaning
        rw [← Option.some.inj hi']
        by_cases hnext : i + 1 < 2 ^ 31
        · rw [i32_of_lt (by omega) hnext]
          exact .inl ⟨by omega, hnext⟩
        · have hi31 : i + 1 = 2 ^ 31 := by omega
          rw [hi31]
          exact .inr ⟨hmeaning.resolve_right hnext, by decide⟩
      · exact absurd hi' (Option.some_ne_none i').symm
    · exact .inl (if_neg (by decide))

/-- **A loop with an `unsigned` index that ends** has run its body at every slot once, in
order. -/
theorem unsignedLoop_eq_some {s s' : σ} {js : List ℕ}
    (h : unsignedLoop mask body fuel s = some (js, s')) :
    mask.toNat + 1 < 2 ^ 32 ∧ js = List.range (mask.toNat + 1)
      ∧ (List.range (mask.toNat + 1)).foldlM body s = some s' := by
  by_cases hmask : mask.toNat + 1 < 2 ^ 32
  · exact ⟨hmask, slotLoop_outcome (fun _ hfuel => unsignedLoop_eq hmask hfuel s) h⟩
  · rw [unsignedLoop_eq_none hmask] at h
    exact absurd h (Option.some_ne_none _).symm

/-- **A loop with an `int` index that ends** has run its body at every slot once, in order. -/
theorem intLoop_eq_some {s s' : σ} {js : List ℕ}
    (h : intLoop wraps mask body fuel s = some (js, s')) :
    mask.toNat + 1 ≤ intLimit wraps ∧ js = List.range (mask.toNat + 1)
      ∧ (List.range (mask.toNat + 1)).foldlM body s = some s' := by
  by_cases hmask : mask.toNat + 1 ≤ intLimit wraps
  · exact ⟨hmask, slotLoop_outcome (fun _ hfuel => intLoop_eq hmask hfuel s) h⟩
  · rw [intLoop_eq_none hmask] at h
    exact absurd h (Option.some_ne_none _).symm

/-- **The loop of the model with an `int` index** is the one above, where an `int` does not
wrap around. -/
theorem forSlotsInt_eq_some_iff {s s' : σ} :
    forSlotsInt mask body s = some s'
      ↔ ∃ fuel js, intLoop false mask body fuel s = some (js, s') := by
  unfold forSlotsInt
  constructor
  · intro h
    split at h
    · rename_i hmask
      refine ⟨mask.toNat + 2, List.range (mask.toNat + 1), ?_⟩
      rw [intLoop_eq (Nat.le_sub_one_of_lt hmask) (Nat.lt_succ_self _), h, Option.map_some]
    · exact absurd h (Option.some_ne_none s').symm
  · rintro ⟨fuel, js, h⟩
    obtain ⟨hmask, -, hfold⟩ := intLoop_eq_some h
    have hle : mask.toNat + 1 ≤ 2 ^ 31 - 1 := hmask
    rw [if_pos (by omega), hfold]

/-- **The loop of the model with an `unsigned` index** is the one above. -/
theorem forSlots_eq_some_iff {s s' : σ} :
    forSlots mask body s = some s' ↔ ∃ fuel js, unsignedLoop mask body fuel s = some (js, s') := by
  unfold forSlots
  constructor
  · intro h
    split at h
    · rename_i hmask
      refine ⟨mask.toNat + 2, List.range (mask.toNat + 1), ?_⟩
      rw [unsignedLoop_eq hmask (Nat.lt_succ_self _), h, Option.map_some]
    · exact absurd h (Option.some_ne_none s').symm
  · rintro ⟨fuel, js, h⟩
    obtain ⟨hmask, -, hfold⟩ := unsignedLoop_eq_some h
    rw [if_pos hmask, hfold]

/-! ## The functions -/

section Table

variable [DecidableEq ε]

/-- `hashtable_init`, with the slots its loop touches in at most `rounds` tests. -/
def hashtableInitSlots (wraps : Bool) (rounds : ℕ) (size : UInt32) (hashfn : κ → UInt32)
    (equalfn : HashElm κ → κ → Bool) (freefn : Bool) (links : Links (HashNode ε))
    (elm : ε → HashElm κ) (alloc : Bool) : Option (Option (List ℕ × HashTable ε κ)) :=
  if alloc then
    (intLoop wraps (size - 1) initSlot rounds
      ⟨size - 1, 1, size.toNat, fun _ => 0, hashfn, equalfn, freefn, links, elm,
        fun _ => 0⟩).map some
  else some none

/-- `hashtable_fini`, with the slots its loop touches. -/
def hashtableFiniSlots (wraps : Bool) (rounds fuel : ℕ) (t : HashTable ε κ) :
    Option (List ℕ × HashTable ε κ) :=
  (intLoop wraps t.mask (finiSection fuel) rounds t).map fun r => (r.1, finiEnd r.2)

/-- `hashtable_foreach` and `hashtable_foreach_read`, with the slots their loops touch. -/
def hashtableForeachSlots {δ : Type} (rounds fuel : ℕ) (t : HashTable ε κ)
    (action : Option (δ → ε → δ)) (data : δ) : Option (List ℕ × ℤ × δ) :=
  match action with
  | none => some ([], -1, data)
  | some action => unsignedLoop t.mask (t.foreachSection fuel action) rounds (0, data)

/-- `hashtable_foreach` with an action that works on the table as well, with the slots its
loop touches. -/
def hashtableForeachActSlots {δ : Type} (rounds fuel : ℕ) (t : HashTable ε κ)
    (action : Option (HashTable ε κ × δ → ε → Option (HashTable ε κ × δ))) (data : δ) :
    Option (List ℕ × ℤ × HashTable ε κ × δ) :=
  match action with
  | none => some ([], -1, t, data)
  | some action => unsignedLoop t.mask (foreachActSection fuel action) rounds (0, t, data)

variable {t t' : HashTable ε κ} {lists : ℕ → List ε}

section New

variable {size : UInt32} {hashfn : κ → UInt32} {equalfn : HashElm κ → κ → Bool}
  {freefn : Bool} {links : Links (HashNode ε)} {elm : ε → HashElm κ} {alloc : Bool}
  {rounds : ℕ} {js : List ℕ}

/-- **`hashtable_init` of the model** is this one, where an `int` does not wrap around. -/
theorem hashtableInit_eq_some_iff :
    hashtableInit size hashfn equalfn freefn links elm alloc = some (some t)
      ↔ ∃ rounds js, hashtableInitSlots false rounds size hashfn equalfn freefn links elm alloc
        = some (some (js, t)) := by
  unfold hashtableInit hashtableInitSlots
  cases alloc with
  | false =>
    refine iff_of_false (fun h => ?_) fun ⟨_, _, h⟩ => ?_
    · exact absurd (Option.some.inj h) (Option.some_ne_none t).symm
    · exact absurd (Option.some.inj h) (Option.some_ne_none _).symm
  | true =>
    simp only [if_true, Option.map_eq_some_iff, Option.some.injEq, exists_eq_right]
    exact forSlotsInt_eq_some_iff

/-- **Where `hashtable_init` returns a table**, its loop has touched all the slots of the
table, and the table is a new one. -/
theorem hashtableInitSlots_fresh
    (h : hashtableInitSlots wraps rounds size hashfn equalfn freefn links elm true
      = some (some (js, t))) :
    0 < size.toNat ∧ size.toNat ≤ intLimit wraps ∧ js = List.range size.toNat
      ∧ Fresh hashfn equalfn freefn links elm (size - 1) size.toNat size.toNat t := by
  unfold hashtableInitSlots at h
  rw [if_pos rfl] at h
  obtain ⟨r, hloop, hr⟩ := Option.map_eq_some_iff.mp h
  obtain rfl := Option.some.inj hr
  obtain ⟨hlimit, hjs, hfold⟩ := intLoop_eq_some hloop
  have hpos : 0 < size.toNat := by
    refine Nat.pos_of_ne_zero fun hzero => ?_
    obtain rfl : size = 0 := UInt32.toNat_inj.mp hzero
    exact absurd (hlimit.trans (intLimit_le wraps)) (by decide)
  rw [mask_succ hpos] at hlimit hjs hfold
  obtain ⟨t', ht', hfresh⟩ :=
    (fresh_start hashfn equalfn freefn links elm (size - 1) size.toNat).loop le_rfl
  obtain rfl : t' = t := Option.some.inj (ht'.symm.trans hfold)
  exact ⟨hpos, hlimit, hjs, hfresh⟩

/-- **The sizes with which `hashtable_init` returns**: the mask of the size `0` is the greatest
of all, and the index of the loop is an `int`. -/
theorem hashtableInitSlots_returns_iff :
    (∃ rounds js t, hashtableInitSlots wraps rounds size hashfn equalfn freefn links elm true
        = some (some (js, t)))
      ↔ 0 < size.toNat ∧ size.toNat ≤ intLimit wraps := by
  constructor
  · rintro ⟨rounds, js, t, h⟩
    obtain ⟨hpos, hlimit, -⟩ := hashtableInitSlots_fresh h
    exact ⟨hpos, hlimit⟩
  · rintro ⟨hpos, hlimit⟩
    obtain ⟨t, ht, -⟩ :=
      (fresh_start hashfn equalfn freefn links elm (size - 1) size.toNat).loop le_rfl
    rw [← mask_succ hpos] at hlimit
    refine ⟨(size - 1).toNat + 2, List.range size.toNat, t, ?_⟩
    unfold hashtableInitSlots
    rw [if_pos rfl, intLoop_eq hlimit (Nat.lt_succ_self _), mask_succ hpos, ht]
    rfl

end New

/-! ## The table in use -/

/-- **`__unhash`**, of an element that is in the table or of one that is not. -/
theorem Filed.unhashSection (hf : Filed t lists) {slot : ℕ} {e : ε}
    (h : t.unhashSection slot e = some t') :
    ∃ lists', Filed t' lists' ∧ t'.mask = t.mask ∧ ∀ i, (lists' i).length ≤ (lists i).length := by
  unfold HashTable.unhashSection at h
  split at h
  · have hput := SameTable.of_put h
    have hdel := delElm_same t slot e
    by_cases hmem : e ∈ visited t.slots lists
    · obtain ⟨i, hi, hei⟩ := mem_visited.mp hmem
      obtain ⟨l₁, l₂, hl⟩ := List.append_of_mem hei
      exact ⟨_, hput.filed (hdel.filed (hf.unlink hi hl)), hput.mask, length_removed_le hl⟩
    · have halone := (hf.alone e (notMem_visited.mp hmem)).listDel_eq_self
      rw [halone] at hdel
      exact ⟨lists, hput.filed (hdel.filed hf), hput.mask, fun _ => le_rfl⟩
  · exact absurd h (Option.some_ne_none t').symm

/-- **`hashtable_hash`**, whether it takes the element or not. -/
theorem Filed.hash (hf : Filed t lists) {e : ε} {key : κ} {r : ℤ}
    (h : t.hashtableHash fuel e key = some (r, t')) :
    ∃ lists', Filed t' lists' ∧ t'.mask = t.mask
      ∧ ∀ i, (lists' i).length ≤ (lists i).length + 1 := by
  unfold hashtableHash at h
  by_cases hmem : e ∈ visited t.slots lists
  · rw [if_pos ((hf.hashed_iff e).mpr hmem)] at h
    obtain rfl := (Prod.mk.inj (Option.some.inj h)).2
    exact ⟨lists, hf, rfl, fun _ => Nat.le_succ _⟩
  · rw [if_neg fun hh => hmem ((hf.hashed_iff e).mp hh)] at h
    have hset : Filed (t.setKey e key) lists := hf.setKey hmem key
    have hht : ((t.setKey e key).elm e).ht = true := by
      show (Function.update t.elm e _ e).ht = true
      rw [Function.update_self]
    unfold hashSection at h
    obtain ⟨found, -, h⟩ := Option.bind_eq_some_iff.mp h
    cases found with
    | some e' =>
      obtain rfl := (Prod.mk.inj (Option.some.inj h)).2
      exact ⟨lists, hset, rfl, fun _ => Nat.le_succ _⟩
    | none =>
      obtain rfl := (Prod.mk.inj (Option.some.inj h)).2
      have hadd := (addElm_same (t.setKey e key) _ e).filed (hset.link hmem rfl hht)
      exact ⟨_, (setRefcount_same _ e _).filed hadd, rfl, length_linked_le _ e⟩

/-- **A call that returns** leaves the elements in their slots, and the mask as it is. -/
theorem Filed.step (hf : Filed t lists) {o : TableOp ε κ} (h : tableStep fuel t o = some t') :
    ∃ lists', Filed t' lists' ∧ t'.mask = t.mask
      ∧ ∀ i, (lists' i).length ≤ (lists i).length + 1 := by
  have hsame : ∀ {t' : HashTable ε κ}, SameTable t t' → ∃ lists', Filed t' lists'
      ∧ t'.mask = t.mask ∧ ∀ i, (lists' i).length ≤ (lists i).length + 1 := fun hs =>
    ⟨lists, hs.filed hf, hs.mask, fun _ => Nat.le_succ _⟩
  have hunhash : ∀ {slot : ℕ} {e : ε}, t.unhashSection slot e = some t' → ∃ lists',
      Filed t' lists' ∧ t'.mask = t.mask ∧ ∀ i, (lists' i).length ≤ (lists i).length + 1 := by
    intro slot e h
    obtain ⟨lists', hf', hmask, hlen⟩ := hf.unhashSection h
    exact ⟨lists', hf', hmask, fun i => Nat.le_succ_of_le (hlen i)⟩
  cases o with
  | hash e key =>
    obtain ⟨⟨r, t₁⟩, hhash, rfl⟩ := Option.map_eq_some_iff.mp h
    exact hf.hash hhash
  | unhash e => exact hunhash h
  | unhashUnlocked e => exact hunhash h
  | lookup key =>
    obtain ⟨⟨r, t₁⟩, hlookup, rfl⟩ := Option.map_eq_some_iff.mp h
    unfold hashtableLookup lookupSection at hlookup
    obtain ⟨found, -, hfound⟩ := Option.bind_eq_some_iff.mp hlookup
    cases found with
    | some e =>
      obtain rfl := (Prod.mk.inj (Option.some.inj hfound)).2
      exact hsame (setRefcount_same t e _)
    | none =>
      obtain rfl := (Prod.mk.inj (Option.some.inj hfound)).2
      exact ⟨lists, hf, rfl, fun _ => Nat.le_succ _⟩
  | hold e =>
    obtain rfl := Option.some.inj h
    exact hsame (setRefcount_same t e _)
  | put e => exact hsame (SameTable.of_put h)

/-- **In every state of every run** the elements are in their slots. -/
theorem Filed.along (hf : Filed t lists) {ops : List (TableOp ε κ)}
    (hlen : ∀ i, (lists i).length + ops.length < fuel) :
    Along (tableStep fuel) (fun t' => ∃ lists, Filed t' lists ∧ t'.mask = t.mask
      ∧ ∀ i, (lists i).length < fuel) t ops := by
  have hnow : ∀ i, (lists i).length < fuel := fun i =>
    Nat.lt_of_le_of_lt (Nat.le_add_right _ _) (hlen i)
  induction ops generalizing t lists with
  | nil => exact ⟨lists, hf, rfl, hnow⟩
  | cons o ops ih =>
    refine ⟨⟨lists, hf, rfl, hnow⟩, fun t' ht' => ?_⟩
    obtain ⟨lists', hf', hmask, hlen'⟩ := hf.step ht'
    have hrest : ∀ i, (lists' i).length + ops.length < fuel := fun i => by
      have hi := hlen i
      have hi' := hlen' i
      rw [List.length_cons] at hi
      omega
    have halong := ih hf' hrest fun i => Nat.lt_of_le_of_lt (Nat.le_add_right _ _) (hrest i)
    rwa [hmask] at halong

/-- **The loops of a table in use** end and touch each of its slots once, and no hash selects
another. -/
theorem Filed.slot_loops (hf : Filed t lists) (hmask : t.mask.toNat + 1 ≤ intLimit wraps)
    (hfuel : ∀ i, (lists i).length < fuel) :
    (∀ hash, t.getSlot hash < t.slots)
      ∧ (∀ (δ : Type) (action : δ → ε → δ) (data : δ), ∃ r,
        hashtableForeachSlots (t.slots + 1) fuel t (some action) data
          = some (List.range t.slots, r))
      ∧ (∀ (δ : Type) (action : HashTable ε κ × δ → ε → Option (HashTable ε κ × δ)) (data : δ) r,
        t.hashtableForeachAct fuel (some action) data = some r →
          hashtableForeachActSlots (t.slots + 1) fuel t (some action) data
            = some (List.range t.slots, r))
      ∧ ∃ t', hashtableFiniSlots wraps (t.slots + 1) fuel t = some (List.range t.slots, t') := by
  have hslots : t.slots = t.mask.toNat + 1 := hf.slots_eq
  have hlimit : t.mask.toNat + 1 < 2 ^ 32 :=
    Nat.lt_of_le_of_lt (hmask.trans (intLimit_le wraps)) (by decide)
  have hrounds : t.mask.toNat + 1 < t.slots + 1 := hslots ▸ Nat.lt_succ_self _
  refine ⟨hf.getSlot_lt, fun δ action data => ?_, fun δ action data r hr => ?_, ?_⟩
  · have hforeach := hf.foreach_eq hlimit hfuel action data
    unfold hashtableForeach forSlots at hforeach
    dsimp only at hforeach
    rw [if_pos hlimit] at hforeach
    unfold hashtableForeachSlots
    dsimp only
    rw [unsignedLoop_eq hlimit hrounds, hforeach, hslots]
    exact ⟨_, rfl⟩
  · unfold hashtableForeachAct forSlots at hr
    dsimp only at hr
    rw [if_pos hlimit] at hr
    unfold hashtableForeachActSlots
    dsimp only
    rw [unsignedLoop_eq hlimit hrounds, hr, hslots]
    rfl
  · obtain ⟨t', -, hfini, -⟩ := hf.finiSections (le_of_eq hslots.symm) hfuel
    refine ⟨t'.finiEnd, ?_⟩
    unfold hashtableFiniSlots
    rw [intLoop_eq hmask hrounds, hfini, hslots]
    rfl

/-- **The loops over the slots stay inside the table**, and so does the selection of a slot: with
every size with which `hashtable_init` returns `0`, in every state of every run. An action on
data of its own leaves the lists as they are, and then the loops over them return. For an action
that works on the table this is assumed, since one that unhashes the element it is called on
keeps the loop over its list from returning. -/
theorem hashtable_slot_loops (wraps : Bool) (rounds : ℕ) (size : UInt32) (hashfn : κ → UInt32)
    (equalfn : HashElm κ → κ → Bool) (freefn : Bool) (links : Links (HashNode ε))
    (elm : ε → HashElm κ) {js : List ℕ} (helm : ∀ e, Initialised links elm e)
    (hinit : hashtableInitSlots wraps rounds size hashfn equalfn freefn links elm true
      = some (some (js, t)))
    (ops : List (TableOp ε κ)) (fuel : ℕ) (hfuel : ops.length < fuel) :
    js = List.range size.toNat
      ∧ Along (tableStep fuel) (fun t => (∀ hash, t.getSlot hash < size.toNat)
        ∧ (∀ (δ : Type) (action : δ → ε → δ) (data : δ), ∃ r,
          hashtableForeachSlots (size.toNat + 1) fuel t (some action) data
            = some (List.range size.toNat, r))
        ∧ (∀ (δ : Type) (action : HashTable ε κ × δ → ε → Option (HashTable ε κ × δ))
          (data : δ) r, t.hashtableForeachAct fuel (some action) data = some r →
            hashtableForeachActSlots (size.toNat + 1) fuel t (some action) data
              = some (List.range size.toNat, r))
        ∧ ∃ t', hashtableFiniSlots wraps (size.toNat + 1) fuel t
          = some (List.range size.toNat, t')) t ops := by
  obtain ⟨hpos, hlimit, hjs, hfresh⟩ := hashtableInitSlots_fresh hinit
  have hmask : t.mask = size - 1 := by rw [hfresh.fields]
  have hfiled := hfresh.filed (mask_succ hpos) fun e => (helm e).alone
  have hstart : ∀ _ : ℕ, ([] : List ε).length + ops.length < fuel := by
    intro _
    rwa [List.length_nil, Nat.zero_add]
  refine ⟨hjs, Run.along_imp (fun t' ⟨lists, hf, hmask', hlen⟩ => ?_) (hfiled.along hstart)⟩
  have hsize : t'.mask.toNat + 1 = size.toNat := by rw [hmask', hmask, mask_succ hpos]
  have hloop : t'.mask.toNat + 1 ≤ intLimit wraps := hsize ▸ hlimit
  have hloops := hf.slot_loops hloop hlen
  rwa [hf.slots_eq, hsize] at hloops

end Table

/-- A table with two slots, in use. -/
theorem hashtable_slot_loops_two :
    hashtableInitSlots false 3 2 UInt32.ofNat (fun he k => he.key == k) true ⟨id, id⟩
        (fun _ : Bool => ⟨1, 0, 0, false⟩) true = some (some ([0, 1], twoSlots))
      ∧ [0, 1] = List.range 2
      ∧ Along (tableStep 9) (fun t => (∀ hash, t.getSlot hash < 2)
        ∧ (∀ (δ : Type) (action : δ → Bool → δ) (data : δ), ∃ r,
          hashtableForeachSlots 3 9 t (some action) data = some (List.range 2, r))
        ∧ (∀ (δ : Type) (action : HashTable Bool ℕ × δ → Bool → Option (HashTable Bool ℕ × δ))
          (data : δ) r, t.hashtableForeachAct 9 (some action) data = some r →
            hashtableForeachActSlots 3 9 t (some action) data = some (List.range 2, r))
        ∧ ∃ t', hashtableFiniSlots false 3 9 t = some (List.range 2, t'))
        twoSlots hashRefuseUnhash :=
  ⟨rfl, hashtable_slot_loops false 3 2 UInt32.ofNat (fun he k => he.key == k) true ⟨id, id⟩
    (fun _ => ⟨1, 0, 0, false⟩) (fun _ => ⟨Links.ring_nil.mpr ⟨rfl, rfl⟩, rfl⟩) rfl
    hashRefuseUnhash 9 (by decide)⟩

end HashTable
