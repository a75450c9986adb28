import Ckit.HashtableLists

/-!
# What the functions of the hash table do

The contents of a table are kept as a map from the side of the elements: `M e` is
the key under which `e` is in the table.

`Represents` ties the memory to the map: the ring of each slot goes through the
elements whose hash selects the slot, those not in the map are alone, and no two
elements have equal keys. The part of it that does not speak of keys is `Filed`. Keys
are compared by an equivalence `≈`, the one `equalfn` decides, and equal keys have
equal hashes (`KeyLaws`); that is all that is asked of the two functions.

An element enters the map in one way and leaves it in one (`Represents.link`,
`Represents.unlink`), and each locked part of the source is described in terms of
these.
-/

namespace HashTable

variable {ε κ : Type}

/-- **What the table asks of its functions**: `equalfn` compares keys, and equal
keys have equal hashes. -/
structure KeyLaws [Setoid κ] (t : HashTable ε κ) : Prop where
  equal : ∀ he k, t.equalfn he k = true ↔ he.key ≈ k
  hash : ∀ k k', k ≈ k' → t.hashfn k = t.hashfn k'

/-- **The table is the map `M`**, with the elements of slot `i` in `lists i`. -/
structure Represents [Setoid κ] (t : HashTable ε κ) (lists : ℕ → List ε) (M : ε → Option κ) :
    Prop where
  slots_eq : t.slots = t.mask.toNat + 1
  ring : ∀ i < t.slots, t.links.Ring (.slot i) ((lists i).map .elm)
  mem : ∀ i < t.slots, ∀ e, e ∈ lists i ↔ ∃ k, M e = some k ∧ t.getSlot (t.hashfn k) = i
  fields : ∀ e k, M e = some k →
    (t.elm e).key = k ∧ (t.elm e).hash = t.hashfn k ∧ (t.elm e).ht = true
  alone : ∀ e, M e = none → t.links.Ring (.elm e) []
  keys : ∀ e e' k k', M e = some k → M e' = some k' → k ≈ k' → e = e'

variable {t t' : HashTable ε κ} {lists : ℕ → List ε} {M : ε → Option κ}

theorem SameTable.keyLaws [Setoid κ] (h : SameTable t t') (hk : t.KeyLaws) : t'.KeyLaws := by
  refine ⟨?_, ?_⟩
  · rw [h.equalfn]
    exact hk.equal
  · rw [h.hashfn]
    exact hk.hash

theorem SameTable.represents [Setoid κ] (h : SameTable t t') (hr : Represents t lists M) :
    Represents t' lists M := by
  refine ⟨?_, ?_, ?_, fun e k hM => ?_, ?_, hr.keys⟩
  · rw [h.slots, h.mask]
    exact hr.slots_eq
  · rw [h.slots, h.links]
    exact hr.ring
  · rw [h.slots, h.hashfn]
    simp only [h.getSlot]
    exact hr.mem
  · rw [h.hashfn, (h.fields e).1, (h.fields e).2.1, (h.fields e).2.2]
    exact hr.fields e k hM
  · rw [h.links]
    exact hr.alone

section Facts

variable [Setoid κ]

/-- The slot an element of the map is in. -/
theorem Represents.mem_slot (hr : Represents t lists M) {e : ε} {k : κ} (hM : M e = some k) :
    t.getSlot (t.hashfn k) < t.slots ∧ e ∈ lists (t.getSlot (t.hashfn k)) := by
  have hlt : t.getSlot (t.hashfn k) < t.slots := hr.slots_eq ▸ t.getSlot_lt _
  exact ⟨hlt, (hr.mem _ hlt e).mpr ⟨k, hM, rfl⟩⟩

/-- An element that is not in the map is in no slot. -/
theorem Represents.notMem (hr : Represents t lists M) {e : ε} (hM : M e = none) {i : ℕ}
    (hi : i < t.slots) : e ∉ lists i := by
  intro hmem
  obtain ⟨k, hk, -⟩ := (hr.mem i hi e).mp hmem
  exact absurd (hM.symm.trans hk) (Option.some_ne_none k).symm

theorem Represents.mem_visited (hr : Represents t lists M) (e : ε) :
    e ∈ visited t.slots lists ↔ M e ≠ none := by
  rw [HashTable.mem_visited]
  constructor
  · rintro ⟨i, hi, hmem⟩ hM
    exact hr.notMem hM hi hmem
  · intro hM
    obtain ⟨k, hk⟩ := Option.ne_none_iff_exists'.mp hM
    exact ⟨_, hr.mem_slot hk⟩

theorem Represents.notMem_visited (hr : Represents t lists M) {e : ε} :
    e ∉ visited t.slots lists ↔ M e = none := by
  rw [hr.mem_visited, not_not]

/-- **The elements of the map are in the slots their hashes select.** -/
theorem Represents.filed (hr : Represents t lists M) : Filed t lists := by
  refine ⟨hr.slots_eq, hr.ring, fun i hi e he => ?_, fun e hno => ?_⟩
  · obtain ⟨k, hk, hslot⟩ := (hr.mem i hi e).mp he
    obtain ⟨-, hhash, hht⟩ := hr.fields e k hk
    exact ⟨hhash ▸ hslot, hht⟩
  · exact hr.alone e (hr.notMem_visited.mp (HashTable.notMem_visited.mpr hno))

variable [DecidableEq ε]

omit [Setoid κ] in
/-- What is in a map with one more element. -/
theorem of_update_eq_some {e e' : ε} {a : Option κ} {k' : κ}
    (h : Function.update M e a e' = some k') : e' = e ∧ a = some k' ∨ M e' = some k' := by
  by_cases hee : e' = e
  · rw [hee, Function.update_self] at h
    exact .inl ⟨hee, h⟩
  · rw [Function.update_of_ne hee] at h
    exact .inr h

/-- **An element enters the map**: it is linked behind the anchor of its slot. -/
theorem Represents.link (hr : Represents t lists M) {e : ε} {k : κ} (hM : M e = none)
    (hfields : (t.elm e).key = k ∧ (t.elm e).hash = t.hashfn k ∧ (t.elm e).ht = true)
    (hfree : ∀ e' k', M e' = some k' → ¬ k' ≈ k) {i : ℕ} (hi : t.getSlot (t.hashfn k) = i) :
    Represents { t with links := t.links.listAddFront (.slot i) (.elm e) }
      (Function.update lists i (e :: lists i)) (Function.update M e (some k)) := by
  have hf := hr.filed.link (hr.notMem_visited.mpr hM) (hfields.2.1 ▸ hi) hfields.2.2
  refine ⟨hr.slots_eq, hf.ring, fun j hj e' => ?_, fun e' k' hM' => ?_, fun e' hM' => ?_,
    fun e₁ e₂ k₁ k₂ hM₁ hM₂ hk => ?_⟩
  · rw [mem_update_cons]
    by_cases hee : e' = e
    · subst hee
      rw [or_iff_left (hr.notMem hM hj), Function.update_self]
      constructor
      · rintro ⟨rfl, -⟩
        exact ⟨k, rfl, hi⟩
      · rintro ⟨k', hk', hj'⟩
        obtain rfl : k = k' := Option.some.inj hk'
        exact ⟨hj'.symm.trans hi, rfl⟩
    · rw [Function.update_of_ne hee, or_iff_right fun h => hee h.2]
      exact hr.mem j hj e'
  · rcases of_update_eq_some hM' with ⟨rfl, hk⟩ | hold
    · obtain rfl : k = k' := Option.some.inj hk
      exact hfields
    · exact hr.fields e' k' hold
  · have hee : e' ≠ e := by
      rintro rfl
      rw [Function.update_self] at hM'
      exact absurd hM' (Option.some_ne_none k)
    rw [Function.update_of_ne hee] at hM'
    refine hf.alone e' fun j hj hmem => ?_
    exact hr.notMem hM' hj ((mem_update_cons.mp hmem).resolve_left fun h => hee h.2)
  · rcases of_update_eq_some hM₁ with ⟨rfl, hk₁⟩ | hold₁
    · obtain rfl : k = k₁ := Option.some.inj hk₁
      rcases of_update_eq_some hM₂ with ⟨rfl, -⟩ | hold₂
      · rfl
      · exact absurd (Setoid.symm hk) (hfree e₂ k₂ hold₂)
    · rcases of_update_eq_some hM₂ with ⟨rfl, hk₂⟩ | hold₂
      · obtain rfl : k = k₂ := Option.some.inj hk₂
        exact absurd hk (hfree e₁ k₁ hold₁)
      · exact hr.keys e₁ e₂ k₁ k₂ hold₁ hold₂ hk

/-- **An element leaves the map**: it is taken out of the list of its slot. -/
theorem Represents.unlink (hr : Represents t lists M) {e : ε} {i : ℕ} (hi : i < t.slots)
    {l₁ l₂ : List ε} (hl : lists i = l₁ ++ e :: l₂) :
    Represents { t with links := t.links.listDel (.elm e) }
      (Function.update lists i (l₁ ++ l₂)) (Function.update M e none) := by
  have hf := hr.filed.unlink hi hl
  have hmem : e ∈ lists i := hl ▸ List.mem_append_right _ List.mem_cons_self
  have hnodup := hr.filed.nodup hi
  rw [hl] at hnodup
  have hout : ∀ j < t.slots, e ∉ Function.update lists i (l₁ ++ l₂) j := by
    intro j hj hm
    by_cases hji : j = i
    · rw [hji, Function.update_self] at hm
      exact (List.nodup_cons.mp (List.perm_middle.nodup_iff.mp hnodup)).1 hm
    · rw [Function.update_of_ne hji] at hm
      exact hji (hr.filed.disjoint hj hi hm hmem)
  have hold (e' : ε) (k' : κ) (h : Function.update M e none e' = some k') : M e' = some k' :=
    (of_update_eq_some h).resolve_left fun h' => Option.some_ne_none k' h'.2.symm
  refine ⟨hr.slots_eq, hf.ring, fun j hj e' => ?_, fun e' k' hM' => ?_, fun e' hM' => ?_,
    fun e₁ e₂ k₁ k₂ hM₁ hM₂ hk => ?_⟩
  · by_cases hee : e' = e
    · subst hee
      rw [Function.update_self]
      exact iff_of_false (hout j hj) fun ⟨k', h, _⟩ => Option.some_ne_none k' h.symm
    · rw [Function.update_of_ne hee]
      have hkept : e' ∈ Function.update lists i (l₁ ++ l₂) j ↔ e' ∈ lists j :=
        ⟨mem_of_mem_removed hl, mem_removed_of_ne hl hee⟩
      exact hkept.trans (hr.mem j hj e')
  · exact hr.fields e' k' (hold e' k' hM')
  · by_cases hee : e' = e
    · exact hf.alone e' fun j hj => hee ▸ hout j hj
    · rw [Function.update_of_ne hee] at hM'
      exact hf.alone e' fun j hj hm => hr.notMem hM' hj (mem_of_mem_removed hl hm)
  · exact hr.keys e₁ e₂ k₁ k₂ (hold e₁ k₁ hM₁) (hold e₂ k₂ hM₂) hk

/-! ## The functions -/

omit [DecidableEq ε] in
/-- **What a search for a key finds** is the element of the map with an equal
key. -/
theorem Represents.find_iff (hr : Represents t lists M) (hk : t.KeyLaws) (key : κ) (e : ε) :
    ((lists (t.getSlot (t.hashfn key))).find? fun e => t.equalfn (t.elm e) key) = some e
      ↔ ∃ k, M e = some k ∧ k ≈ key := by
  have hlt : t.getSlot (t.hashfn key) < t.slots := hr.slots_eq ▸ t.getSlot_lt _
  constructor
  · intro hfind
    obtain ⟨k, hM, -⟩ := (hr.mem _ hlt e).mp (List.mem_of_find?_eq_some hfind)
    have hequal := List.find?_some hfind
    rw [hk.equal, (hr.fields e k hM).1] at hequal
    exact ⟨k, hM, hequal⟩
  · rintro ⟨k, hM, heq⟩
    have hmem : e ∈ lists (t.getSlot (t.hashfn key)) := by
      rw [← hk.hash k key heq]
      exact (hr.mem_slot hM).2
    have hequal : t.equalfn (t.elm e) key = true := by
      rw [hk.equal, (hr.fields e k hM).1]
      exact heq
    cases hfind : (lists (t.getSlot (t.hashfn key))).find? fun e => t.equalfn (t.elm e) key with
    | none => exact absurd hequal (List.find?_eq_none.mp hfind e hmem)
    | some e' =>
      -- two elements with a key equal to the same one are one
      obtain ⟨k', hM', -⟩ := (hr.mem _ hlt e').mp (List.mem_of_find?_eq_some hfind)
      have hequal' := List.find?_some hfind
      rw [hk.equal, (hr.fields e' k' hM').1] at hequal'
      rw [hr.keys e' e k' k hM' hM (Setoid.trans hequal' (Setoid.symm heq))]

/-- What `hashtable_hash` writes into an element that is not in the map is not part
of it. -/
theorem Represents.setKey (hr : Represents t lists M) {e : ε} (hM : M e = none) (key : κ) :
    Represents (t.setKey e key) lists M := by
  refine ⟨hr.slots_eq, hr.ring, hr.mem, fun e' k hM' => ?_, hr.alone, hr.keys⟩
  have hee : e' ≠ e := by
    rintro rfl
    exact absurd (hM.symm.trans hM') (Option.some_ne_none k).symm
  show (Function.update t.elm e _ e').key = k ∧ (Function.update t.elm e _ e').hash = t.hashfn k
    ∧ (Function.update t.elm e _ e').ht = true
  rw [Function.update_of_ne hee]
  exact hr.fields e' k hM'

/-- **The locked part of `hashtable_hash`**: an element of the map with an equal key
makes it refuse, and otherwise the element enters the map. -/
theorem Represents.hashSection_eq (hr : Represents t lists M) (hk : t.KeyLaws) {e : ε} {key : κ}
    (hM : M e = none)
    (hfields : (t.elm e).key = key ∧ (t.elm e).hash = t.hashfn key ∧ (t.elm e).ht = true)
    {fuel : ℕ} (hfuel : ∀ i, (lists i).length < fuel) :
    (∃ e' k', M e' = some k' ∧ k' ≈ key) ∧ t.hashSection fuel e key = some (-1, t)
      ∨ (∀ e' k', M e' = some k' → ¬ k' ≈ key) ∧ ∃ slot,
        t.hashSection fuel e key = some (0, (t.addElm slot e).hashelmHold e)
          ∧ Represents (t.addElm slot e) (Function.update lists slot (e :: lists slot))
            (Function.update M e (some key)) := by
  have hlt : t.getSlot (t.hashfn key) < t.slots := hr.slots_eq ▸ t.getSlot_lt _
  have hiff := hr.find_iff hk key
  unfold hashSection
  dsimp only
  rw [hfields.2.1, hr.filed.find_eq hlt (hfuel _)]
  simp only [Option.bind_eq_bind, Option.bind_some]
  cases hfind : (lists (t.getSlot (t.hashfn key))).find? fun e => t.equalfn (t.elm e) key with
  | some e' =>
    obtain ⟨k', hM', heq⟩ := (hiff e').mp hfind
    exact Or.inl ⟨⟨e', k', hM', heq⟩, rfl⟩
  | none =>
    have hfree : ∀ e' k', M e' = some k' → ¬ k' ≈ key := by
      intro e' k' hM' heq
      have hsome := (hiff e').mpr ⟨k', hM', heq⟩
      exact absurd (hfind.symm.trans hsome) (Option.some_ne_none e').symm
    refine Or.inr ⟨hfree, _, rfl, ?_⟩
    exact (addElm_same t _ e).represents (hr.link hM hfields hfree rfl)

/-- **The locked part of `hashtable_unhash`** takes an element of the map out of it,
whichever slot it has locked. -/
theorem Represents.delElm (hr : Represents t lists M) {e : ε} {k : κ} (hM : M e = some k)
    (slot : ℕ) : ∃ lists', Represents (t.delElm slot e) lists' (Function.update M e none)
      ∧ ∀ i, (lists' i).length ≤ (lists i).length := by
  obtain ⟨hlt, hmem⟩ := hr.mem_slot hM
  obtain ⟨l₁, l₂, hl⟩ := List.append_of_mem hmem
  exact ⟨_, (delElm_same t slot e).represents (hr.unlink hlt hl), length_removed_le hl⟩

/-- **The locked part of `hashtable_lookup`** returns the element of the map with an
equal key, with one more reference. -/
theorem Represents.lookup_eq (hr : Represents t lists M) (hk : t.KeyLaws) (key : κ) {fuel : ℕ}
    (hfuel : ∀ i, (lists i).length < fuel) :
    ∃ r, (∀ e, r = some e ↔ ∃ k, M e = some k ∧ k ≈ key)
      ∧ t.hashtableLookup fuel key = some (r, match r with
        | some e => t.hashelmHold e
        | none => t) := by
  have hlt : t.getSlot (t.hashfn key) < t.slots := hr.slots_eq ▸ t.getSlot_lt _
  refine ⟨_, fun e => hr.find_iff hk key e, ?_⟩
  unfold hashtableLookup lookupSection
  rw [hr.filed.find_eq hlt (hfuel _)]
  simp only [Option.bind_eq_bind, Option.bind_some]
  cases (lists (t.getSlot (t.hashfn key))).find? fun e => t.equalfn (t.elm e) key with
  | some e => rfl
  | none => rfl

/-! ## A new table -/

omit [DecidableEq ε] in
/-- **A new table is the empty map.** -/
theorem Fresh.represents {hashfn : κ → UInt32} {equalfn : HashElm κ → κ → Bool} {freefn : Bool}
    {links : Links (HashNode ε)} {elm : ε → HashElm κ} {mask : UInt32} {slots : ℕ}
    (h : Fresh hashfn equalfn freefn links elm mask slots slots t)
    (hmask : mask.toNat + 1 = slots) (helm : ∀ e, links.Ring (.elm e) []) :
    Represents t (fun _ => []) (fun _ => none) := by
  have hf := h.filed hmask helm
  refine ⟨hf.slots_eq, hf.ring, fun i _ e => ?_, fun e k hM => ?_,
    fun e _ => hf.alone e fun _ _ => List.not_mem_nil, fun e e' k k' hM => nomatch hM⟩
  · exact iff_of_false List.not_mem_nil fun ⟨_, hM, _⟩ => nomatch hM
  · exact nomatch hM

end Facts

end HashTable
