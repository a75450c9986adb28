import Ckit.HashtableSpec
import Ckit.Refinement
import Ckit.Run
import Mathlib.Data.Setoid.Basic
import Mathlib.Order.CompletePartialOrder

/-!
# The hash table is a finite map

The abstract side: a table holds, for each element, the key it was last hashed
under, and the elements of each slot in a list. `hashMap` says which calls a user
may make – any, save `hashtable_unhash` of an element that is not in the table – and
which answers are right. The theorem is that a table refines it along every list of
calls, whatever its size, with fuel for as many rounds as there are calls.

What keeps this from being said without a bound is the counter of
`hashtable_foreach`. It is an `int`, and wraps around when there are `2^31`
elements in the table. The loop of `hashtable_init` has an `int` as its index as
well, so that the size stays below `2^31`.
-/

namespace HashTable

variable {ε κ : Type}

/-- A call on the table. -/
inductive HashOp (ε κ : Type) where
  | hash (e : ε) (key : κ)
  | unhash (e : ε)
  | lookup (key : κ)
  | foreach

/-- What a call gives back: a return value, an element or `NULL`, or the return value
of a loop with the elements its action was called on, in their order. -/
inductive HashAnswer (ε : Type) where
  | returned (ret : ℤ)
  | found (he : Option ε)
  | went (n : ℤ) (es : List ε)
  | void

/-- What is in a table. -/
structure Contents (ε κ : Type) where
  lists : ℕ → List ε
  keyOf : ε → Option κ

section Abstract

variable [Setoid κ]

/-- `hashtable_hash` has to take the element: it is in no table, and no element of
the table has an equal key. -/
def Contents.Takes (c : Contents ε κ) (e : ε) (key : κ) : Prop :=
  c.keyOf e = none ∧ ∀ e' k', c.keyOf e' = some k' → ¬ k' ≈ key

variable [DecidableEq ε]

/-- **What a hash table is for.** Only elements of the table may be taken out, and a
loop counts them rightly while there are fewer than `2^31`. -/
def hashMap : Machine (Contents ε κ) (HashOp ε κ) (HashAnswer ε) where
  pre c o :=
    match o with
    | .unhash e => c.keyOf e ≠ none
    | _ => True
  post c o a c' :=
    match o, a with
    | .hash e key, .returned ret =>
      c.Takes e key ∧ ret = 0 ∧ c'.keyOf = Function.update c.keyOf e (some key)
        ∨ ¬ c.Takes e key ∧ ret = -1 ∧ c' = c
    | .unhash e, .void => c'.keyOf = Function.update c.keyOf e none
    | .lookup key, .found he =>
      (∀ e, he = some e ↔ ∃ k, c.keyOf e = some k ∧ k ≈ key) ∧ c' = c
    | .foreach, .went n es =>
      es.Nodup ∧ (∀ e, e ∈ es ↔ c.keyOf e ≠ none) ∧ (es.length < 2 ^ 31 → n = es.length)
        ∧ c' = c
    | _, _ => False

/-- A call, on the memory. -/
def call (fuel : ℕ) (t : HashTable ε κ) : HashOp ε κ → Option (HashAnswer ε × HashTable ε κ)
  | .hash e key => (t.hashtableHash fuel e key).map fun r => (.returned r.1, r.2)
  | .unhash e => (t.hashtableUnhash e).map fun t' => (.void, t')
  | .lookup key => (t.hashtableLookup fuel key).map fun r => (.found r.1, r.2)
  | .foreach => (t.hashtableForeach fuel (some fun es e => es ++ [e]) []).map fun r =>
      (.went r.1 r.2, t)

end Abstract

variable [Setoid κ] [DecidableEq ε]
variable {t : HashTable ε κ} {lists : ℕ → List ε} {M : ε → Option κ} {fuel : ℕ}

/-! ## The calls -/

/-- What every call needs and keeps: the memory is the map, `equalfn` and `hashfn` are
as they should be, the indices of the loops do not wrap around, and the fuel is enough
for every slot, also after `n` more elements. -/
structure Serves (fuel n : ℕ) (t : HashTable ε κ) (c : Contents ε κ) : Prop where
  represents : Represents t c.lists c.keyOf
  laws : t.KeyLaws
  mask : t.mask.toNat + 1 < 2 ^ 31
  fuel : ∀ i, (c.lists i).length + n < fuel

variable {n : ℕ} {c : Contents ε κ}

omit [DecidableEq ε] in
theorem Serves.lengths_lt (h : Serves fuel (n + 1) t c) (i : ℕ) : (c.lists i).length < fuel :=
  Nat.lt_of_le_of_lt (Nat.le_add_right _ _) (h.fuel i)

omit [DecidableEq ε] in
/-- A call less is still to come. -/
theorem Serves.later (h : Serves fuel (n + 1) t c) : Serves fuel n t c :=
  ⟨h.represents, h.laws, h.mask, fun i => Nat.lt_of_succ_lt (h.fuel i)⟩

omit [DecidableEq ε] in
/-- A change that is not to the map. -/
theorem Serves.same {t' : HashTable ε κ} (h : Serves fuel n t c) (hs : SameTable t t') :
    Serves fuel n t' c :=
  ⟨hs.represents h.represents, hs.keyLaws h.laws, hs.mask ▸ h.mask, h.fuel⟩

/-- **The locked part of `hashtable_hash`**, of an element that is not in the table and
has its fields written. -/
theorem Serves.hashSection (h : Serves fuel (n + 1) t c) {e : ε} {key : κ}
    (hM : c.keyOf e = none)
    (hfields : (t.elm e).key = key ∧ (t.elm e).hash = t.hashfn key ∧ (t.elm e).ht = true) :
    (¬ c.Takes e key ∧ t.hashSection fuel e key = some (-1, t))
      ∨ c.Takes e key ∧ ∃ slot c', t.hashSection fuel e key
          = some (0, (t.addElm slot e).hashelmHold e)
        ∧ c'.keyOf = Function.update c.keyOf e (some key)
        ∧ Serves fuel n (t.addElm slot e) c' := by
  rcases h.represents.hashSection_eq h.laws hM hfields h.lengths_lt with
    ⟨⟨e', k', hM', hequal⟩, heq⟩ | ⟨hfree, slot, heq, hr'⟩
  · exact Or.inl ⟨fun ht => ht.2 e' k' hM' hequal, heq⟩
  · have hfuel : ∀ i, (Function.update c.lists slot (e :: c.lists slot) i).length + n < fuel := by
      intro i
      have hi := h.fuel i
      exact Nat.lt_of_le_of_lt (Nat.add_le_add_right (length_linked_le _ e i) n) (by omega)
    exact Or.inr ⟨⟨hM, hfree⟩, slot, ⟨_, _⟩, heq, rfl, hr', ⟨h.laws.equal, h.laws.hash⟩, h.mask,
      hfuel⟩

/-- What `hashtable_hash` writes into the element before it locks the slot. -/
theorem Serves.setKey (h : Serves fuel n t c) {e : ε} (hM : c.keyOf e = none) (key : κ) :
    Serves fuel n (t.setKey e key) c ∧ ((t.setKey e key).elm e).key = key
      ∧ ((t.setKey e key).elm e).hash = (t.setKey e key).hashfn key
      ∧ ((t.setKey e key).elm e).ht = true := by
  have helm : (t.setKey e key).elm e
      = { t.elm e with hash := t.hashfn key, ht := true, key := key } :=
    Function.update_self ..
  refine ⟨⟨h.represents.setKey hM key, ⟨h.laws.equal, h.laws.hash⟩, h.mask, h.fuel⟩, ?_⟩
  rw [helm]
  exact ⟨rfl, rfl, rfl⟩

/-- **`hashelm_hashed`** tells whether the element is in the table. -/
theorem Serves.hashed_iff (h : Serves fuel n t c) (e : ε) :
    t.hashelmHashed e = true ↔ c.keyOf e ≠ none := by
  rw [h.represents.filed.hashed_iff, h.represents.mem_visited]

theorem Serves.keyOf_eq_none (h : Serves fuel n t c) {e : ε} (hnot : t.hashelmHashed e = false) :
    c.keyOf e = none :=
  not_not.mp fun hM => Bool.false_ne_true (hnot.symm.trans ((h.hashed_iff e).mpr hM))

/-- **`hashtable_hash`** takes the element exactly where it has to, and changes no
list where it does not. -/
theorem Serves.hash (h : Serves fuel (n + 1) t c) (e : ε) (key : κ) :
    (∃ t' c', t.hashtableHash fuel e key = some (0, t') ∧ c.Takes e key
        ∧ c'.keyOf = Function.update c.keyOf e (some key) ∧ Serves fuel n t' c')
      ∨ ∃ t', t.hashtableHash fuel e key = some (-1, t') ∧ ¬ c.Takes e key
        ∧ Serves fuel n t' c := by
  unfold hashtableHash
  by_cases hM : c.keyOf e = none
  · rw [if_neg fun hh => (h.hashed_iff e).mp hh hM]
    -- the fields of the element are written whether it is taken or not
    obtain ⟨hset, hfields⟩ := h.setKey hM key
    rcases hset.hashSection hM hfields with ⟨hnot, heq⟩ | ⟨htakes, slot, c', heq, hkey, hserves⟩
    · exact Or.inr ⟨_, heq, hnot, hset.later⟩
    · exact Or.inl ⟨_, c', heq, htakes, hkey, hserves.same (setRefcount_same _ e _)⟩
  · rw [if_pos ((h.hashed_iff e).mpr hM)]
    exact Or.inr ⟨t, rfl, fun ht => hM ht.1, h.later⟩

/-- **An element of the table is unlinked**, whichever slot it is counted in. -/
theorem Serves.delElm (h : Serves fuel n t c) {e : ε} (hM : c.keyOf e ≠ none) (slot : ℕ) :
    (t.elm e).ht = true ∧ ∃ c', c'.keyOf = Function.update c.keyOf e none
      ∧ Serves fuel n (t.delElm slot e) c' := by
  obtain ⟨k, hk⟩ := Option.ne_none_iff_exists'.mp hM
  obtain ⟨lists', hr', hlen⟩ := h.represents.delElm hk slot
  refine ⟨(h.represents.fields e k hk).2.2, ⟨lists', _⟩, rfl, hr', ⟨h.laws.equal, h.laws.hash⟩,
    h.mask, fun i => ?_⟩
  exact Nat.lt_of_le_of_lt (Nat.add_le_add_right (hlen i) n) (h.fuel i)

/-- **`hashtable_unhash`** takes the element out. -/
theorem Serves.unhash (h : Serves fuel (n + 1) t c) {e : ε} (hM : c.keyOf e ≠ none) :
    ∃ t' c', t.hashtableUnhash e = some t' ∧ c'.keyOf = Function.update c.keyOf e none
      ∧ Serves fuel n t' c' := by
  have hlt : t.getSlot (t.elm e).hash < t.slots := h.represents.slots_eq ▸ t.getSlot_lt _
  obtain ⟨hht, c', hkey, hserves⟩ := h.later.delElm hM (t.getSlot (t.elm e).hash)
  obtain ⟨t', hput, hsame⟩ := hashelmPut_same
    (t := t.delElm (t.getSlot (t.elm e).hash) e) (e := e) hht
  refine ⟨t', c', ?_, hkey, hserves.same hsame⟩
  unfold hashtableUnhash unhashSection
  rw [if_pos hlt, hput]

/-- **`hashtable_lookup`** returns the element with an equal key. -/
theorem Serves.lookup (h : Serves fuel (n + 1) t c) (key : κ) :
    ∃ r t', t.hashtableLookup fuel key = some (r, t')
      ∧ (∀ e, r = some e ↔ ∃ k, c.keyOf e = some k ∧ k ≈ key) ∧ Serves fuel n t' c := by
  obtain ⟨r, hr, heq⟩ := h.represents.lookup_eq h.laws key h.lengths_lt
  refine ⟨r, _, heq, hr, ?_⟩
  cases r with
  | some e => exact h.later.same (setRefcount_same t e _)
  | none => exact h.later

/-- **`hashtable_foreach`** goes through the table once. -/
theorem Serves.foreach (h : Serves fuel (n + 1) t c) :
    ∃ es : List ε, t.hashtableForeach fuel (some fun es e => es ++ [e]) []
        = some (i32 es.length, es)
      ∧ es.Nodup ∧ ∀ e, e ∈ es ↔ c.keyOf e ≠ none := by
  refine ⟨_, ?_, h.represents.filed.nodup_visited, h.represents.mem_visited⟩
  have hmask : t.mask.toNat + 1 < 2 ^ 32 := Nat.lt_trans h.mask (by decide)
  rw [h.represents.filed.foreach_eq hmask h.lengths_lt, foldl_append_singleton, List.nil_append]

/-- **A call the map admits** returns, with a right answer. -/
theorem Serves.step (h : Serves fuel (n + 1) t c) {o : HashOp ε κ} (hpre : hashMap.pre c o) :
    ∃ a t' c', t.call fuel o = some (a, t') ∧ hashMap.post c o a c' ∧ Serves fuel n t' c' := by
  cases o with
  | hash e key =>
    rcases h.hash e key with ⟨t', c', heq, htakes, hkey, hserves⟩ | ⟨t', heq, hnot, hserves⟩
    · exact ⟨.returned 0, t', c', by rw [call, heq]; rfl, Or.inl ⟨htakes, rfl, hkey⟩, hserves⟩
    · exact ⟨.returned (-1), t', c, by rw [call, heq]; rfl, Or.inr ⟨hnot, rfl, rfl⟩, hserves⟩
  | unhash e =>
    obtain ⟨t', c', heq, hkey, hserves⟩ := h.unhash hpre
    exact ⟨.void, t', c', by rw [call, heq]; rfl, hkey, hserves⟩
  | lookup key =>
    obtain ⟨r, t', heq, hr, hserves⟩ := h.lookup key
    exact ⟨.found r, t', c, by rw [call, heq]; rfl, ⟨hr, rfl⟩, hserves⟩
  | foreach =>
    obtain ⟨es, heq, hnodup, hmem⟩ := h.foreach
    have hcall : t.call fuel .foreach = some (.went (i32 es.length) es, t) := by
      rw [call, heq, Option.map_some]
    have hcount : es.length < 2 ^ 31 → i32 (es.length : ℤ) = es.length := by
      intro hlt
      exact i32_of_lt (Int.natCast_nonneg _) (by exact_mod_cast hlt)
    exact ⟨_, t, c, hcall, ⟨hnodup, hmem, hcount, rfl⟩, h.later⟩

/-! ## The map -/

omit [DecidableEq ε] in
/-- A new table serves any number of calls the fuel is enough for. -/
theorem Fresh.serves {hashfn : κ → UInt32} {equalfn : HashElm κ → κ → Bool} {freefn : Bool}
    {links : Links (HashNode ε)} {elm : ε → HashElm κ} {mask : UInt32} {slots : ℕ}
    (h : Fresh hashfn equalfn freefn links elm mask slots slots t)
    (hmask : mask.toNat + 1 = slots) (hslots : slots < 2 ^ 31)
    (helm : ∀ e, Initialised links elm e)
    (hequal : ∀ he k, equalfn he k = true ↔ he.key ≈ k)
    (hhash : ∀ k k', k ≈ k' → hashfn k = hashfn k') (hn : n < fuel) :
    Serves fuel n t ⟨fun _ => [], fun _ => none⟩ := by
  refine ⟨h.represents hmask fun e => (helm e).alone, ⟨?_, ?_⟩, ?_, fun i => ?_⟩
  · rw [h.fields]
    exact hequal
  · rw [h.fields]
    exact hhash
  · rw [h.fields]
    exact hmask ▸ hslots
  · rw [List.length_nil, zero_add]
    exact hn

/-- **The hash table refines a finite map**, for every size from `1` to `2^31 - 1`:
in every state of every run each element is in the list of the slot its hash selects
and in no other, no two have equal keys, and every call returns with a right
answer. -/
theorem hashtable_refines_map (size : UInt32) (hashfn : κ → UInt32)
    (equalfn : HashElm κ → κ → Bool) (freefn : Bool) (links : Links (HashNode ε))
    (elm : ε → HashElm κ) (hpos : 0 < size.toNat) (hlt : size.toNat < 2 ^ 31)
    (helm : ∀ e, Initialised links elm e)
    (hequal : ∀ he k, equalfn he k = true ↔ he.key ≈ k)
    (hhash : ∀ k k', k ≈ k' → hashfn k = hashfn k') :
    ∃ t, hashtableInit size hashfn equalfn freefn links elm true = some (some t)
      ∧ ∀ (ops : List (HashOp ε κ)) (fuel : ℕ), ops.length < fuel →
        Refines (call fuel) hashMap (fun t c => Represents t c.lists c.keyOf) t
          ⟨fun _ => [], fun _ => none⟩ ops := by
  obtain ⟨t, heq, hfresh, hmask⟩ :=
    @hashtableInit_fresh ε κ _ hashfn equalfn freefn links elm size hpos hlt
  refine ⟨t, heq, fun ops fuel hfuel => ?_⟩
  refine Refines.of_countdown (J := Serves fuel) (fun n t c h => h.represents)
    (fun n t c o h hpre => h.step hpre) ?_
  exact hfresh.serves hmask hlt helm hequal hhash hfuel

theorem hashtable_refines_map_three : letI : Setoid ℕ := ⊥
    ∃ t, hashtableInit 3 UInt32.ofNat (fun he k => he.key == k) true (aloneLinks ℕ) (newElms ℕ)
        true = some (some t)
      ∧ ∀ (ops : List (HashOp ℕ ℕ)) (fuel : ℕ), ops.length < fuel →
        Refines (call fuel) hashMap (fun t c => Represents t c.lists c.keyOf) t
          ⟨fun _ => [], fun _ => none⟩ ops := by
  let _ : Setoid ℕ := ⊥
  refine hashtable_refines_map 3 UInt32.ofNat (fun he k => he.key == k) true (aloneLinks ℕ)
    (newElms ℕ) (by decide) (by decide) newElms_initialised (fun he k => ?_) fun k k' hk => ?_
  · exact beq_iff_eq
  · exact congrArg UInt32.ofNat hk

/-- The calls of a run, without their answers. -/
def callStep (fuel : ℕ) (t : HashTable ε κ) (o : HashOp ε κ) : Option (HashTable ε κ) :=
  (t.call fuel o).map Prod.snd

/-- The first `n` numbers are hashed one after the other, each under itself. -/
theorem hash_range [Setoid ℕ] (hequiv : ∀ k k' : ℕ, k ≈ k' ↔ k = k') {t₀ : HashTable ℕ ℕ}
    (n : ℕ) {m : ℕ} (h : Serves fuel (m + n) t₀ ⟨fun _ => [], fun _ => none⟩) :
    ∃ t c, run (callStep fuel) t₀ ((List.range n).map fun i => .hash i i) = some t
      ∧ Serves fuel m t c ∧ ∀ e, c.keyOf e = if e < n then some e else none := by
  induction n generalizing m with
  | zero => exact ⟨t₀, _, rfl, h, fun _ => rfl⟩
  | succ n ih =>
    obtain ⟨t, c, hrun, hserves, hkey⟩ := ih (m := m + 1) (by rwa [Nat.succ_add])
    have htakes : c.Takes n n := by
      refine ⟨by rw [hkey, if_neg (Nat.lt_irrefl n)], fun e' k' hk' hequal => ?_⟩
      obtain rfl := (hequiv _ _).mp hequal
      rw [hkey] at hk'
      split at hk'
      · rename_i hlt
        exact absurd (Option.some.inj hk') (Nat.ne_of_lt hlt)
      · exact nomatch hk'
    rcases hserves.hash n n with ⟨t', c', heq, -, hkey', hserves'⟩ | ⟨-, -, hnot, -⟩
    · refine ⟨t', c', ?_, hserves', fun e => ?_⟩
      · rw [List.range_succ, List.map_append, Run.run_append, hrun, Option.bind_some,
          List.map_singleton, Run.run_cons, callStep, call, heq]
        rfl
      · rw [hkey', Function.update_apply, hkey]
        split
        · rename_i heq
          rw [heq, if_pos (Nat.lt_succ_self n)]
        · rename_i hne
          by_cases hlt : e < n
          · rw [if_pos hlt, if_pos (Nat.lt_succ_of_lt hlt)]
          · rw [if_neg hlt, if_neg (by omega)]
    · exact absurd htakes hnot

/-- **The number of elements does not fit**: a table with one slot, and `2^31` elements
hashed under different keys. The loop goes through all of them and returns
`-2^31`. -/
theorem hashtable_foreach_wraps : ∃ (t₀ t : HashTable ℕ ℕ) (es : List ℕ),
    hashtableInit 1 UInt32.ofNat (fun he k => he.key == k) true (aloneLinks ℕ) (newElms ℕ)
        true = some (some t₀)
      ∧ run (callStep (2 ^ 31 + 2)) t₀ ((List.range (2 ^ 31)).map fun i => .hash i i) = some t
      ∧ es.Nodup ∧ (∀ e, e ∈ es ↔ e < 2 ^ 31) ∧ es.length = 2 ^ 31
      ∧ t.call (2 ^ 31 + 2) .foreach = some (.went (-2 ^ 31) es, t) := by
  let _ : Setoid ℕ := ⊥
  obtain ⟨t₀, hinit, hfresh, hmask⟩ := @hashtableInit_fresh ℕ ℕ _ UInt32.ofNat
    (fun he k => he.key == k) true (aloneLinks ℕ) (newElms ℕ) 1 (by decide) (by decide)
  have hstart : Serves (2 ^ 31 + 2) (1 + 2 ^ 31) t₀ ⟨fun _ => [], fun _ => none⟩ :=
    hfresh.serves hmask (by decide) newElms_initialised (fun _ _ => beq_iff_eq)
      (fun _ _ hk => congrArg UInt32.ofNat hk) (by omega)
  obtain ⟨t, c, hrun, hserves, hkey⟩ := hash_range (fun _ _ => Iff.rfl) (2 ^ 31) hstart
  obtain ⟨es, hforeach, hnodup, hmem⟩ := hserves.foreach
  have hmem' : ∀ e, e ∈ es ↔ e < 2 ^ 31 := by
    intro e
    rw [hmem, hkey, ne_eq, ite_eq_right_iff]
    simp
  have hlen : es.length = 2 ^ 31 := by
    have hperm : es.Perm (List.range (2 ^ 31)) :=
      (List.perm_ext_iff_of_nodup hnodup List.nodup_range).mpr fun e => by
        rw [hmem', List.mem_range]
    rw [hperm.length_eq, List.length_range]
  refine ⟨t₀, t, es, hinit, hrun, hnodup, hmem', hlen, ?_⟩
  have hcount : i32 (es.length : ℤ) = -2 ^ 31 := by
    rw [hlen]
    decide +kernel
  rw [call, hforeach, Option.map_some, hcount]

end HashTable
