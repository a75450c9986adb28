import Ckit.Hashtable

/-!
# The lists of the hash table

Which elements a table has, and in which slots, does not depend on what `equalfn`
says of them. An element that is hashed is in the list of the slot its hash selects,
and one that is not points to itself (`Filed`). The functions of the table keep this
for any `hashfn` and any `equalfn`: an element enters at the front of a list
(`Filed.link`) and leaves from anywhere in it (`Filed.unlink`), and what is written
besides – reference counts, counters, the fields of an element that is in no list – is
not part of it.

The loop of `hashtable_hash` and of `hashtable_lookup` is a search in the list of a
slot, and that of `hashtable_foreach` is a fold over all lists, one slot after the
other (`visited`).
-/

namespace HashTable

variable {ε κ : Type}

/-- The parts of the table its lists and its keys depend on are the same in both. -/
structure SameTable (t t' : HashTable ε κ) : Prop where
  mask : t'.mask = t.mask
  slots : t'.slots = t.slots
  hashfn : t'.hashfn = t.hashfn
  equalfn : t'.equalfn = t.equalfn
  links : t'.links = t.links
  fields : ∀ e, (t'.elm e).key = (t.elm e).key ∧ (t'.elm e).hash = (t.elm e).hash
    ∧ (t'.elm e).ht = (t.elm e).ht

/-- **The elements are in the slots their hashes select**, those of slot `i` in
`lists i`, and an element that is in no slot is alone. -/
structure Filed (t : HashTable ε κ) (lists : ℕ → List ε) : Prop where
  slots_eq : t.slots = t.mask.toNat + 1
  ring : ∀ i < t.slots, t.links.Ring (.slot i) ((lists i).map .elm)
  fields : ∀ i < t.slots, ∀ e ∈ lists i, t.getSlot (t.elm e).hash = i ∧ (t.elm e).ht = true
  alone : ∀ e, (∀ i < t.slots, e ∉ lists i) → t.links.Ring (.elm e) []

/-- The elements in the order the loop over the slots meets them. -/
def visited (slots : ℕ) (lists : ℕ → List ε) : List ε := (List.range slots).flatMap lists

variable {t t' : HashTable ε κ} {lists : ℕ → List ε}

theorem getSlot_lt (t : HashTable ε κ) (hash : UInt32) : t.getSlot hash < t.mask.toNat + 1 := by
  unfold getSlot
  rw [UInt32.toNat_and]
  exact Nat.lt_succ_of_le Nat.and_le_right

theorem SameTable.getSlot (h : SameTable t t') (hash : UInt32) :
    t'.getSlot hash = t.getSlot hash := by
  unfold HashTable.getSlot
  rw [h.mask]

theorem SameTable.trans {t₁ t₂ t₃ : HashTable ε κ} (h : SameTable t₁ t₂) (h' : SameTable t₂ t₃) :
    SameTable t₁ t₃ :=
  ⟨h'.mask.trans h.mask, h'.slots.trans h.slots, h'.hashfn.trans h.hashfn,
    h'.equalfn.trans h.equalfn, h'.links.trans h.links, fun e =>
      ⟨(h'.fields e).1.trans (h.fields e).1, (h'.fields e).2.1.trans (h.fields e).2.1,
        (h'.fields e).2.2.trans (h.fields e).2.2⟩⟩

theorem SameTable.filed (h : SameTable t t') (hf : Filed t lists) : Filed t' lists := by
  refine ⟨?_, ?_, fun i hi e he => ?_, ?_⟩
  · rw [h.slots, h.mask]
    exact hf.slots_eq
  · rw [h.slots, h.links]
    exact hf.ring
  · rw [(h.fields e).2.1, (h.fields e).2.2, h.getSlot]
    exact hf.fields i (h.slots ▸ hi) e he
  · rw [h.slots, h.links]
    exact hf.alone

/-! ## Elements and slots -/

theorem Filed.getSlot_lt (hf : Filed t lists) (hash : UInt32) : t.getSlot hash < t.slots :=
  hf.slots_eq ▸ HashTable.getSlot_lt t hash

/-- Two slots have no element in common. -/
theorem Filed.disjoint (hf : Filed t lists) {i j : ℕ} (hi : i < t.slots) (hj : j < t.slots)
    {e : ε} (hei : e ∈ lists i) (hej : e ∈ lists j) : i = j :=
  (hf.fields i hi e hei).1.symm.trans (hf.fields j hj e hej).1

theorem Filed.nodup (hf : Filed t lists) {i : ℕ} (hi : i < t.slots) : (lists i).Nodup :=
  List.Nodup.of_map _ (List.nodup_cons.mp (hf.ring i hi).nodup).2

theorem mem_visited {slots : ℕ} {e : ε} : e ∈ visited slots lists ↔ ∃ i < slots, e ∈ lists i := by
  unfold visited
  rw [List.mem_flatMap]
  exact exists_congr fun i => and_congr_left fun _ => List.mem_range

theorem notMem_visited {slots : ℕ} {e : ε} :
    e ∉ visited slots lists ↔ ∀ i < slots, e ∉ lists i := by
  rw [mem_visited]
  exact ⟨fun h i hi hmem => h ⟨i, hi, hmem⟩, fun h ⟨i, hi, hmem⟩ => h i hi hmem⟩

theorem Filed.nodup_visited (hf : Filed t lists) : (visited t.slots lists).Nodup := by
  unfold visited
  rw [List.nodup_flatMap]
  refine ⟨fun i hi => hf.nodup (List.mem_range.mp hi), ?_⟩
  refine List.Pairwise.imp_of_mem ?_ (List.nodup_range (n := t.slots))
  intro i j hi hj hij e hei hej
  exact hij (hf.disjoint (List.mem_range.mp hi) (List.mem_range.mp hj) hei hej)

/-- **An element points to itself exactly where it is in no slot.** -/
theorem Filed.next_eq_self_iff (hf : Filed t lists) (e : ε) :
    t.links.next (.elm e) = .elm e ↔ e ∉ visited t.slots lists := by
  constructor
  · intro hself hmem
    obtain ⟨i, hi, hei⟩ := mem_visited.mp hmem
    exact (hf.ring i hi).next_ne_self (List.mem_map_of_mem hei) hself
  · intro hnot
    exact (Links.ring_nil.mp (hf.alone e (notMem_visited.mp hnot))).1

theorem elm_notMem_ring {i : ℕ} {e : ε} (he : e ∉ lists i) :
    HashNode.elm e ∉ HashNode.slot i :: (lists i).map .elm := by
  intro hmem
  obtain ⟨e', he', heq⟩ := List.mem_map.mp
    ((List.mem_cons.mp hmem).resolve_left fun h => nomatch h)
  exact he (HashNode.elm.inj heq ▸ he')

theorem slot_notMem_ring {i j : ℕ} (hij : i ≠ j) :
    HashNode.slot i ∉ HashNode.slot j :: (lists j).map .elm := by
  intro hmem
  rcases List.mem_cons.mp hmem with heq | hmem
  · exact hij (HashNode.slot.inj heq)
  · obtain ⟨e, -, heq⟩ := List.mem_map.mp hmem
    exact nomatch heq

/-- The nodes of the ring of another slot. -/
theorem Filed.ring_notMem (hf : Filed t lists) {i j : ℕ} (hi : i < t.slots) (hj : j < t.slots)
    (hij : j ≠ i) {n : HashNode ε} (hn : n ∈ HashNode.slot j :: (lists j).map .elm) :
    n ∉ HashNode.slot i :: (lists i).map .elm := by
  rcases List.mem_cons.mp hn with rfl | hn
  · exact slot_notMem_ring hij
  · obtain ⟨e, he, rfl⟩ := List.mem_map.mp hn
    exact elm_notMem_ring fun hei => hij (hf.disjoint hj hi he hei)

/-- The elements after one has come into slot `i`. -/
theorem mem_update_cons {i j : ℕ} {e e' : ε} :
    e' ∈ Function.update lists i (e :: lists i) j ↔ j = i ∧ e' = e ∨ e' ∈ lists j := by
  by_cases hji : j = i
  · rw [hji, Function.update_self, List.mem_cons, and_iff_right rfl]
  · rw [Function.update_of_ne hji, or_iff_right fun h => hji h.1]

/-- The elements after `e` has gone from slot `i`. -/
theorem mem_of_mem_removed {i j : ℕ} {e e' : ε} {l₁ l₂ : List ε} (hl : lists i = l₁ ++ e :: l₂)
    (hmem : e' ∈ Function.update lists i (l₁ ++ l₂) j) : e' ∈ lists j := by
  by_cases hji : j = i
  · rw [hji, Function.update_self] at hmem
    rw [hji, hl, List.perm_middle.mem_iff]
    exact List.mem_cons_of_mem _ hmem
  · rwa [Function.update_of_ne hji] at hmem

theorem mem_removed_of_ne {i j : ℕ} {e e' : ε} {l₁ l₂ : List ε} (hl : lists i = l₁ ++ e :: l₂)
    (hee : e' ≠ e) (hmem : e' ∈ lists j) : e' ∈ Function.update lists i (l₁ ++ l₂) j := by
  by_cases hji : j = i
  · rw [hji, hl, List.perm_middle.mem_iff, List.mem_cons, or_iff_right hee] at hmem
    rwa [hji, Function.update_self]
  · rwa [Function.update_of_ne hji]

theorem length_linked_le (i : ℕ) (e : ε) (j : ℕ) :
    (Function.update lists i (e :: lists i) j).length ≤ (lists j).length + 1 := by
  by_cases hji : j = i
  · rw [hji, Function.update_self, List.length_cons]
  · rw [Function.update_of_ne hji]
    exact Nat.le_succ _

theorem length_removed_le {i : ℕ} {e : ε} {l₁ l₂ : List ε} (hl : lists i = l₁ ++ e :: l₂)
    (j : ℕ) : (Function.update lists i (l₁ ++ l₂) j).length ≤ (lists j).length := by
  by_cases hji : j = i
  · rw [hji, Function.update_self, hl, List.perm_middle.length_eq]
    exact Nat.le_succ _
  · rw [Function.update_of_ne hji]

variable [DecidableEq ε]

/-- **`hashelm_hashed`** tells whether the element is in a slot. -/
theorem Filed.hashed_iff (hf : Filed t lists) (e : ε) :
    t.hashelmHashed e = true ↔ e ∈ visited t.slots lists := by
  unfold hashelmHashed Links.listEmpty
  rw [Bool.not_eq_true', decide_eq_false_iff_not, hf.next_eq_self_iff, not_not]

/-- **An element enters the list of its slot**, at the front. -/
theorem Filed.link (hf : Filed t lists) {e : ε} {i : ℕ} (hnot : e ∉ visited t.slots lists)
    (hi : t.getSlot (t.elm e).hash = i) (hht : (t.elm e).ht = true) :
    Filed { t with links := t.links.listAddFront (.slot i) (.elm e) }
      (Function.update lists i (e :: lists i)) := by
  have hlt : i < t.slots := hi ▸ hf.getSlot_lt _
  have hno := notMem_visited.mp hnot
  have hx := elm_notMem_ring (hno i hlt)
  refine ⟨hf.slots_eq, fun j hj => ?_, fun j hj e' he' => ?_, fun e' hno' => ?_⟩
  · by_cases hji : j = i
    · rw [hji, Function.update_self]
      exact (hf.ring i hlt).listAddFront hx
    · rw [Function.update_of_ne hji]
      refine (hf.ring j hj).congr fun n hn => ?_
      refine (hf.ring i hlt).listAddFront_of_notMem hx (fun heq => ?_)
        (hf.ring_notMem hlt hj hji hn)
      exact elm_notMem_ring (hno j hj) (heq ▸ hn)
  · rcases mem_update_cons.mp he' with ⟨hji, rfl⟩ | hold
    · exact ⟨hi.trans hji.symm, hht⟩
    · exact hf.fields j hj e' hold
  · have hee : e' ≠ e := fun heq => hno' i hlt (mem_update_cons.mpr (.inl ⟨rfl, heq⟩))
    have hold : ∀ j < t.slots, e' ∉ lists j := fun j hj hmem =>
      hno' j hj (mem_update_cons.mpr (.inr hmem))
    refine (hf.alone e' hold).congr fun n hn => ?_
    obtain rfl : n = .elm e' := List.mem_singleton.mp hn
    exact (hf.ring i hlt).listAddFront_of_notMem hx (fun heq => hee (HashNode.elm.inj heq))
      (elm_notMem_ring (hold i hlt))

/-- **An element leaves the list of its slot.** -/
theorem Filed.unlink (hf : Filed t lists) {e : ε} {i : ℕ} (hi : i < t.slots) {l₁ l₂ : List ε}
    (hl : lists i = l₁ ++ e :: l₂) :
    Filed { t with links := t.links.listDel (.elm e) }
      (Function.update lists i (l₁ ++ l₂)) := by
  have hring := hf.ring i hi
  rw [hl, List.map_append, List.map_cons] at hring
  have hframe : ∀ n : HashNode ε, n ∉ HashNode.slot i :: (lists i).map .elm →
      (t.links.listDel (.elm e)).next n = t.links.next n
        ∧ (t.links.listDel (.elm e)).prev n = t.links.prev n := by
    intro n hn
    refine hring.listDel_of_notMem ?_
    rwa [hl, List.map_append, List.map_cons] at hn
  refine ⟨hf.slots_eq, fun j hj => ?_, fun j hj e' he' => ?_, fun e' hno' => ?_⟩
  · by_cases hji : j = i
    · rw [hji, Function.update_self, List.map_append]
      exact hring.listDel
    · rw [Function.update_of_ne hji]
      exact (hf.ring j hj).congr fun n hn => hframe n (hf.ring_notMem hi hj hji hn)
  · exact hf.fields j hj e' (mem_of_mem_removed hl he')
  · by_cases hee : e' = e
    · rw [hee]
      exact Links.ring_listDel_self _ _
    · have hold : ∀ j < t.slots, e' ∉ lists j := fun j hj hmem =>
        hno' j hj (mem_removed_of_ne hl hee hmem)
      refine (hf.alone e' hold).congr fun n hn => ?_
      obtain rfl : n = .elm e' := List.mem_singleton.mp hn
      exact hframe _ (elm_notMem_ring (hold i hi))

/-! ## The functions -/

omit [DecidableEq ε] in
/-- A search that stops at the first hit, as a fold. -/
theorem foldlM_find {ν : Type} (l : List ε) (node : ε → ν) (p : ε → Bool)
    {f : Unit → ν → Except ε Unit}
    (hf : ∀ e, f () (node e) = if p e then .error e else .ok ()) :
    (l.map node).foldlM f () = match l.find? p with
      | some e => .error e
      | none => .ok () := by
  induction l with
  | nil => rfl
  | cons e l ih =>
    rw [List.map_cons, List.foldlM_cons, hf, List.find?_cons]
    cases p e with
    | true => rfl
    | false => exact ih

/-- **The search in a slot** finds the first element that `equalfn` accepts. -/
theorem Filed.find_eq (hf : Filed t lists) {i : ℕ} (hi : i < t.slots) {fuel : ℕ}
    (hfuel : (lists i).length < fuel) (key : κ) :
    t.find fuel i key = some ((lists i).find? fun e => t.equalfn (t.elm e) key) := by
  unfold find
  rw [if_pos hi, Links.listForeach_ring (hf.ring i hi) (fun _ _ => rfl)
    (f := fun _ n => n.casesOn (fun _ => .ok ()) fun e =>
      if t.equalfn (t.elm e) key then .error e else .ok ()) ?_ (by rwa [List.length_map])]
  · rw [foldlM_find (lists i) _ (fun e => t.equalfn (t.elm e) key) fun _ => rfl]
    cases (lists i).find? fun e => t.equalfn (t.elm e) key with
    | none => rfl
    | some e => rfl
  · intro s n hn
    obtain ⟨e, -, rfl⟩ := List.mem_map.mp hn
    rfl

@[simp] theorem setRefcount_elm_self (t : HashTable ε κ) (e : ε) (r : ℤ) :
    (t.setRefcount e r).elm e = { t.elm e with refcount := r } :=
  Function.update_self ..

theorem setRefcount_elm_of_ne (t : HashTable ε κ) {e e' : ε} (r : ℤ) (h : e' ≠ e) :
    (t.setRefcount e r).elm e' = t.elm e' :=
  Function.update_of_ne h _ _

/-- Reference counts are not part of the lists. -/
theorem setRefcount_same (t : HashTable ε κ) (e : ε) (r : ℤ) :
    SameTable t (t.setRefcount e r) := by
  refine ⟨rfl, rfl, rfl, rfl, rfl, fun e' => ?_⟩
  by_cases hee : e' = e
  · rw [hee, setRefcount_elm_self]
    exact ⟨rfl, rfl, rfl⟩
  · rw [setRefcount_elm_of_ne _ _ hee]
    exact ⟨rfl, rfl, rfl⟩

/-- The counters are not part of the lists. -/
theorem addElm_same (t : HashTable ε κ) (i : ℕ) (e : ε) :
    SameTable { t with links := t.links.listAddFront (.slot i) (.elm e) } (t.addElm i e) :=
  ⟨rfl, rfl, rfl, rfl, rfl, fun _ => ⟨rfl, rfl, rfl⟩⟩

theorem delElm_same (t : HashTable ε κ) (i : ℕ) (e : ε) :
    SameTable { t with links := t.links.listDel (.elm e) } (t.delElm i e) :=
  ⟨rfl, rfl, rfl, rfl, rfl, fun _ => ⟨rfl, rfl, rfl⟩⟩

/-- **What `hashelm_put` does**, where `ht` is set if the count gets to zero. -/
theorem hashelmPut_eq {t : HashTable ε κ} {e : ε}
    (hht : i32 ((t.elm e).refcount - 1) = 0 → (t.elm e).ht = true) :
    t.hashelmPut e = some (if i32 ((t.elm e).refcount - 1) = 0
      then (t.setRefcount e (i32 ((t.elm e).refcount - 1))).callFreefn e
      else t.setRefcount e (i32 ((t.elm e).refcount - 1))) := by
  unfold hashelmPut
  dsimp only
  rw [setRefcount_elm_self]
  dsimp only
  split
  · rename_i hzero
    rw [if_pos (hht hzero)]
  · rfl

@[simp] theorem callFreefn_elm (t : HashTable ε κ) (e : ε) : (t.callFreefn e).elm = t.elm := by
  unfold callFreefn
  split
  · rfl
  · rfl

@[simp] theorem callFreefn_freefn (t : HashTable ε κ) (e : ε) :
    (t.callFreefn e).freefn = t.freefn := by
  unfold callFreefn
  split
  · rfl
  · rfl

theorem callFreefn_freed (t : HashTable ε κ) (e e' : ε) :
    (t.callFreefn e).freed e'
      = if e' = e ∧ t.freefn = true then t.freed e' + 1 else t.freed e' := by
  unfold callFreefn
  by_cases hfn : t.freefn = true
  · rw [if_pos hfn]
    dsimp only
    rw [Function.update_apply]
    by_cases hee : e' = e
    · rw [if_pos hee, if_pos ⟨hee, hfn⟩, hee]
    · rw [if_neg hee, if_neg fun hz => hee hz.1]
  · rw [if_neg hfn, if_neg fun hz => hfn hz.2]

theorem callFreefn_counts (t : HashTable ε κ) (e : ε) :
    (t.callFreefn e).slotCount = t.slotCount ∧ (t.callFreefn e).count = t.count := by
  unfold callFreefn
  split
  · exact ⟨rfl, rfl⟩
  · exact ⟨rfl, rfl⟩

theorem callFreefn_same (t : HashTable ε κ) (e : ε) : SameTable t (t.callFreefn e) := by
  unfold callFreefn
  split
  · exact ⟨rfl, rfl, rfl, rfl, rfl, fun _ => ⟨rfl, rfl, rfl⟩⟩
  · exact ⟨rfl, rfl, rfl, rfl, rfl, fun _ => ⟨rfl, rfl, rfl⟩⟩

/-- **The two ways `hashelm_put` ends**: the reference is put, and `freefn` is called or it is
not. -/
theorem hashelmPut_cases {e : ε} (h : t.hashelmPut e = some t') :
    t' = t.setRefcount e (i32 ((t.elm e).refcount - 1))
      ∨ t' = (t.setRefcount e (i32 ((t.elm e).refcount - 1))).callFreefn e := by
  unfold hashelmPut at h
  dsimp only at h
  split at h
  · split at h
    · exact Or.inr (Option.some.inj h).symm
    · exact nomatch h
  · exact Or.inl (Option.some.inj h).symm

theorem SameTable.of_put {e : ε} (h : t.hashelmPut e = some t') : SameTable t t' := by
  rcases hashelmPut_cases h with rfl | rfl
  · exact setRefcount_same t e _
  · exact (setRefcount_same t e _).trans (callFreefn_same _ e)

theorem hashelmPut_same {t : HashTable ε κ} {e : ε} (hht : (t.elm e).ht = true) :
    ∃ t', t.hashelmPut e = some t' ∧ SameTable t t' := by
  have heq := hashelmPut_eq (t := t) (e := e) fun _ => hht
  exact ⟨_, heq, SameTable.of_put heq⟩

/-- What `hashtable_hash` writes into an element that is in no slot. -/
theorem Filed.setKey (hf : Filed t lists) {e : ε} (hnot : e ∉ visited t.slots lists) (key : κ) :
    Filed (t.setKey e key) lists := by
  refine ⟨hf.slots_eq, hf.ring, fun i hi e' he' => ?_, hf.alone⟩
  have hee : e' ≠ e := by
    rintro rfl
    exact notMem_visited.mp hnot i hi he'
  show t.getSlot (Function.update t.elm e _ e').hash = i
    ∧ (Function.update t.elm e _ e').ht = true
  rw [Function.update_of_ne hee]
  exact hf.fields i hi e' he'

/-! ## Emptying a slot -/

/-- The loop of `hashtable_fini` at a slot without elements. -/
theorem finiLoop_nil {i : ℕ} (hring : t.links.Ring (.slot i) []) (fuel : ℕ) :
    finiLoop i (fuel + 1) t = some t := by
  have hempty : t.links.listEmpty (.slot i) = true :=
    decide_eq_true (Links.ring_nil.mp hring).1
  rw [finiLoop, if_pos hempty]

/-- The loop of `hashtable_fini` unlinks the first element of the slot and puts it. -/
theorem finiLoop_cons {i : ℕ} {e : ε} {l : List (HashNode ε)}
    (hring : t.links.Ring (.slot i) (.elm e :: l)) (fuel : ℕ) :
    finiLoop i (fuel + 1) t
      = ({ t with links := t.links.listDel (.elm e) }.hashelmPut e).bind (finiLoop i fuel) := by
  have hnext : t.links.next (.slot i) = .elm e := (Option.some.inj hring.next_anchor).symm
  have hempty : ¬ t.links.listEmpty (.slot i) = true := by
    unfold Links.listEmpty
    rw [hnext, decide_eq_true_iff]
    exact fun heq => nomatch heq
  rw [finiLoop, if_neg hempty, hnext]

/-- A slot without elements is left as it is by the end of `hashtable_fini`. -/
theorem initList_same {i : ℕ} (hring : t.links.Ring (.slot i) []) :
    SameTable t { t with
      links := t.links.initList (.slot i)
      slotCount := Function.update t.slotCount i 0 } :=
  ⟨rfl, rfl, rfl, rfl, hring.initList_eq_self, fun _ => ⟨rfl, rfl, rfl⟩⟩

/-- **The loop of `hashtable_fini`** unlinks every element of the slot. -/
theorem Filed.finiLoop_eq {i : ℕ} (l : List ε) {fuel : ℕ} {t : HashTable ε κ}
    {lists : ℕ → List ε} (hf : Filed t lists) (hi : i < t.slots) (hl : lists i = l)
    (hfuel : l.length < fuel) :
    ∃ t', finiLoop i fuel t = some t' ∧ Filed t' (Function.update lists i [])
      ∧ t'.slots = t.slots := by
  induction l generalizing fuel t lists with
  | nil =>
    obtain ⟨fuel, rfl⟩ := Nat.exists_eq_succ_of_ne_zero (Nat.ne_zero_of_lt hfuel)
    have hring := hf.ring i hi
    rw [hl] at hring
    refine ⟨t, finiLoop_nil hring fuel, ?_, rfl⟩
    rwa [← hl, Function.update_eq_self]
  | cons e l ih =>
    obtain ⟨fuel, rfl⟩ := Nat.exists_eq_succ_of_ne_zero (Nat.ne_zero_of_lt hfuel)
    have hring := hf.ring i hi
    rw [hl] at hring
    have hl' : lists i = [] ++ e :: l := hl
    have hht := (hf.fields i hi e (hl ▸ List.mem_cons_self)).2
    obtain ⟨t₁, hput, hsame⟩ :=
      hashelmPut_same (t := { t with links := t.links.listDel (.elm e) }) hht
    obtain ⟨t', heq, hf', hslots⟩ := ih (hsame.filed (hf.unlink hi hl')) (hsame.slots ▸ hi)
      (Function.update_self ..) (Nat.lt_of_succ_lt_succ hfuel)
    refine ⟨t', ?_, ?_, hslots.trans hsame.slots⟩
    · rw [finiLoop_cons hring, hput, Option.bind_some, heq]
    · rwa [Function.update_idem] at hf'

/-- **The locked part of `hashtable_fini`** empties its slot. -/
theorem Filed.finiSection_eq {fuel : ℕ} (hf : Filed t lists) {i : ℕ} (hi : i < t.slots)
    (hfuel : (lists i).length < fuel) :
    ∃ t', t.finiSection fuel i = some t' ∧ Filed t' (Function.update lists i [])
      ∧ t'.slots = t.slots := by
  obtain ⟨t', heq, hf', hslots⟩ := hf.finiLoop_eq (lists i) hi rfl hfuel
  have hring := hf'.ring i (hslots ▸ hi)
  rw [Function.update_self] at hring
  refine ⟨_, ?_, (initList_same hring).filed hf', hslots⟩
  rw [finiSection, if_pos hi, heq, Option.map_some]

/-- **`hashtable_fini` empties the slots**, one after the other. -/
theorem Filed.finiSections {fuel n : ℕ} (hf : Filed t lists) (hn : n ≤ t.slots)
    (hfuel : ∀ i, (lists i).length < fuel) :
    ∃ t' lists', (List.range n).foldlM (finiSection fuel) t = some t' ∧ Filed t' lists'
      ∧ t'.slots = t.slots ∧ ∀ i, (lists' i).length < fuel := by
  induction n with
  | zero => exact ⟨t, lists, rfl, hf, rfl, hfuel⟩
  | succ n ih =>
    obtain ⟨t₁, lists₁, heq, hf₁, hslots, hfuel₁⟩ := ih (Nat.le_of_succ_le hn)
    obtain ⟨t₂, heq', hf₂, hslots'⟩ := hf₁.finiSection_eq (hslots ▸ hn) (hfuel₁ n)
    refine ⟨t₂, _, ?_, hf₂, hslots'.trans hslots, fun i => ?_⟩
    · rw [List.range_succ, List.foldlM_append, heq]
      show [n].foldlM (finiSection fuel) t₁ = some t₂
      rw [List.foldlM_cons, heq']
      rfl
    · rw [Function.update_apply]
      split
      · exact Nat.lt_of_le_of_lt (Nat.zero_le _) (hfuel₁ n)
      · exact hfuel₁ i

/-! ## A new table -/

/-- The state `hashelm_init` leaves an element in. -/
structure Initialised (links : Links (HashNode ε)) (elm : ε → HashElm κ) (e : ε) : Prop where
  alone : links.Ring (.elm e) []
  refcount : (elm e).refcount = 1

/-- `hashelm_init` initialises the element, and no other changes. -/
theorem hashelmInit_initialised (t : HashTable ε κ) (e e' : ε)
    (h : e' = e ∨ Initialised t.links t.elm e') :
    Initialised (t.hashelmInit e).links (t.hashelmInit e).elm e' := by
  by_cases hee : e' = e
  · rw [hee]
    refine ⟨Links.ring_initList _ _, ?_⟩
    show (Function.update t.elm e _ e).refcount = 1
    rw [Function.update_self]
  · have hold := h.resolve_left hee
    refine ⟨hold.alone.congr fun n hn => Links.initList_of_ne ?_, ?_⟩
    · obtain rfl : n = .elm e' := List.mem_singleton.mp hn
      exact fun heq => hee (HashNode.elm.inj heq)
    · show (Function.update t.elm e _ e').refcount = 1
      rw [Function.update_of_ne hee]
      exact hold.refcount

/-- Elements none of which is in a list. -/
def aloneLinks (ε : Type) : Links (HashNode ε) := ⟨id, id⟩

/-- Elements as `hashelm_init` leaves them, with numbers as keys. -/
def newElms (ε : Type) (_ : ε) : HashElm ℕ := ⟨1, 0, 0, false⟩

omit [DecidableEq ε] in
theorem newElms_initialised (e : ε) : Initialised (aloneLinks ε) (newElms ε) e :=
  ⟨Links.ring_nil.mpr ⟨rfl, rfl⟩, rfl⟩

/-- **A table in `hashtable_init`**, in a memory with the elements `elm`: the first
`inited` slots are empty lists, and no element has been written to. -/
structure Fresh (hashfn : κ → UInt32) (equalfn : HashElm κ → κ → Bool) (freefn : Bool)
    (links : Links (HashNode ε)) (elm : ε → HashElm κ) (mask : UInt32) (slots : ℕ)
    (inited : ℕ) (t : HashTable ε κ) : Prop where
  fields : t = ⟨mask, 1, slots, t.slotCount, hashfn, equalfn, freefn, t.links, elm, fun _ => 0⟩
  ring : ∀ i < inited, t.links.Ring (.slot i) []
  frame : ∀ e, t.links.next (.elm e) = links.next (.elm e)
    ∧ t.links.prev (.elm e) = links.prev (.elm e)

section New

variable {hashfn : κ → UInt32} {equalfn : HashElm κ → κ → Bool} {freefn : Bool}
  {links : Links (HashNode ε)} {elm : ε → HashElm κ} {mask : UInt32} {slots : ℕ}

/-- One round of the loop of `hashtable_init`. -/
theorem Fresh.initSlot_eq {i : ℕ} (h : Fresh hashfn equalfn freefn links elm mask slots i t)
    (hi : i < slots) : ∃ t', t.initSlot i = some t'
      ∧ Fresh hashfn equalfn freefn links elm mask slots (i + 1) t' := by
  have hslots : t.slots = slots := by rw [h.fields]
  refine ⟨_, if_pos (hslots ▸ hi), ?_, fun j hj => ?_, fun e => ?_⟩
  · rw [h.fields]
  · by_cases hji : j = i
    · rw [hji]
      exact Links.ring_initList _ _
    · refine (h.ring j (by omega)).congr fun n hn => Links.initList_of_ne ?_
      obtain rfl : n = .slot j := List.mem_singleton.mp hn
      exact fun heq => hji (HashNode.slot.inj heq)
  · have hkept := Links.initList_of_ne (m := t.links) (a := .slot i)
      (n := HashNode.elm e) fun heq => nomatch heq
    exact ⟨hkept.1.trans (h.frame e).1, hkept.2.trans (h.frame e).2⟩

theorem Fresh.loop {n : ℕ} (h : Fresh hashfn equalfn freefn links elm mask slots 0 t)
    (hn : n ≤ slots) : ∃ t', (List.range n).foldlM initSlot t = some t'
      ∧ Fresh hashfn equalfn freefn links elm mask slots n t' := by
  induction n with
  | zero => exact ⟨t, rfl, h⟩
  | succ n ih =>
    obtain ⟨t', heq, h'⟩ := ih (Nat.le_of_succ_le hn)
    obtain ⟨t'', heq', h''⟩ := h'.initSlot_eq hn
    refine ⟨t'', ?_, h''⟩
    rw [List.range_succ, List.foldlM_append, heq]
    show ([n].foldlM initSlot t') = some t''
    rw [List.foldlM_cons, heq']
    rfl

omit [DecidableEq ε] in
/-- The mask of a table with some slots is one less than their number. -/
theorem mask_succ {size : UInt32} (hpos : 0 < size.toNat) : (size - 1).toNat + 1 = size.toNat := by
  have hle : (1 : UInt32) ≤ size := UInt32.le_iff_toNat_le.mpr hpos
  rw [UInt32.toNat_sub_of_le _ _ hle]
  exact Nat.sub_add_cancel hpos

omit [DecidableEq ε] in
/-- The table the loop of `hashtable_init` starts with. -/
theorem fresh_start (hashfn : κ → UInt32) (equalfn : HashElm κ → κ → Bool) (freefn : Bool)
    (links : Links (HashNode ε)) (elm : ε → HashElm κ) (mask : UInt32) (slots : ℕ) :
    Fresh hashfn equalfn freefn links elm mask slots 0
      ⟨mask, 1, slots, fun _ => 0, hashfn, equalfn, freefn, links, elm, fun _ => 0⟩ :=
  ⟨rfl, fun _ h => absurd h (Nat.not_lt_zero _), fun _ => ⟨rfl, rfl⟩⟩

/-- **`hashtable_init` returns a table** for every size from `1` to `2^31 - 1`. -/
theorem hashtableInit_fresh {size : UInt32} (hpos : 0 < size.toNat) (hlt : size.toNat < 2 ^ 31) :
    ∃ t, hashtableInit size hashfn equalfn freefn links elm true = some (some t)
      ∧ Fresh hashfn equalfn freefn links elm (size - 1) size.toNat size.toNat t
      ∧ (size - 1).toNat + 1 = size.toNat := by
  have hmask := mask_succ hpos
  obtain ⟨t, heq, hfresh⟩ :=
    (fresh_start hashfn equalfn freefn links elm (size - 1) size.toNat).loop le_rfl
  refine ⟨t, ?_, hfresh, hmask⟩
  unfold hashtableInit forSlotsInt
  rw [if_pos rfl, hmask, if_pos hlt, heq]
  rfl

omit [DecidableEq ε] in
/-- **A new table has no elements.** -/
theorem Fresh.filed (h : Fresh hashfn equalfn freefn links elm mask slots slots t)
    (hmask : mask.toNat + 1 = slots) (helm : ∀ e, links.Ring (.elm e) []) :
    Filed t fun _ => [] := by
  have hslots : t.slots = slots := by rw [h.fields]
  refine ⟨?_, fun i hi => h.ring i (hslots ▸ hi), fun i _ e he => absurd he List.not_mem_nil,
    fun e _ => (helm e).congr fun n hn => ?_⟩
  · rw [h.fields]
    exact hmask.symm
  · obtain rfl : n = .elm e := List.mem_singleton.mp hn
    exact h.frame e

end New

/-! ## Going through the table -/

section Loops

omit [DecidableEq ε]

theorem foldlM_flatMap {σ ι : Type} {l : List ι} {g : ι → List ε} {body : σ → ι → Option σ}
    {f : σ → ε → σ} (h : ∀ s, ∀ i ∈ l, body s i = some ((g i).foldl f s)) (s : σ) :
    l.foldlM body s = some ((l.flatMap g).foldl f s) := by
  induction l generalizing s with
  | nil => rfl
  | cons i l ih =>
    rw [List.foldlM_cons, h s i List.mem_cons_self, List.flatMap_cons, List.foldl_append]
    exact ih (fun s j hj => h s j (List.mem_cons_of_mem _ hj)) _

/-- The counter of the loop counts the elements, and wraps around. -/
theorem foldl_count {δ : Type} (action : δ → ε → δ) (l : List ε) (n : ℤ) (d : δ) :
    l.foldl (fun s e => (i32 (s.1 + 1), action s.2 e)) (i32 n, d)
      = (i32 (n + l.length), l.foldl action d) := by
  induction l generalizing n d with
  | nil =>
    have hzero : n + (([] : List ε).length : ℤ) = n := by simp
    rw [hzero]
    rfl
  | cons e l ih =>
    have hone : i32 (i32 n + 1) = i32 (n + 1) := Int.bmod_add_bmod
    have hlen : n + 1 + (l.length : ℤ) = n + ((e :: l).length : ℤ) := by
      rw [List.length_cons]
      omega
    rw [List.foldl_cons, hone, ih, List.foldl_cons, hlen]

/-- A loop that never leaves early, as a fold. -/
theorem foldlM_map_ok {σ ρ ν : Type} {node : ε → ν} {f : σ → ν → Except ρ σ} {g : σ → ε → σ}
    (hf : ∀ s e, f s (node e) = .ok (g s e)) (l : List ε) (s : σ) :
    (l.map node).foldlM f s = .ok (l.foldl g s) := by
  induction l generalizing s with
  | nil => rfl
  | cons e l ih =>
    rw [List.map_cons, List.foldlM_cons, hf]
    exact ih _

theorem foldl_append_singleton (l acc : List ε) :
    l.foldl (fun es e => es ++ [e]) acc = acc ++ l := by
  induction l generalizing acc with
  | nil => rw [List.foldl_nil, List.append_nil]
  | cons e l ih => rw [List.foldl_cons, ih, List.append_assoc, List.singleton_append]

end Loops

variable {fuel : ℕ}

theorem Filed.foreachSection_eq {δ : Type} (hf : Filed t lists) {i : ℕ} (hi : i < t.slots)
    (hfuel : (lists i).length < fuel) (action : δ → ε → δ) (s : ℤ × δ) :
    t.foreachSection fuel action s i
      = some ((lists i).foldl (fun s e => (i32 (s.1 + 1), action s.2 e)) s) := by
  unfold foreachSection
  rw [if_pos hi, Links.listForeach_ring (hf.ring i hi) (fun _ _ => rfl)
    (f := fun s n => n.casesOn (fun _ => .ok s) fun e => .ok (i32 (s.1 + 1), action s.2 e)) ?_
    (by rwa [List.length_map])]
  · rw [foldlM_map_ok (g := fun s e => (i32 (s.1 + 1), action s.2 e)) fun _ _ => rfl]
    rfl
  · intro s n hn
    obtain ⟨e, -, rfl⟩ := List.mem_map.mp hn
    rfl

/-- **`hashtable_foreach`** calls its action on the elements of the table, one by one,
and returns their number as an `int`. -/
theorem Filed.foreach_eq {δ : Type} (hf : Filed t lists) (hmask : t.mask.toNat + 1 < 2 ^ 32)
    (hfuel : ∀ i, (lists i).length < fuel) (action : δ → ε → δ) (data : δ) :
    t.hashtableForeach fuel (some action) data
      = some (i32 (visited t.slots lists).length, (visited t.slots lists).foldl action data) := by
  have hslots : t.slots = t.mask.toNat + 1 := hf.slots_eq
  unfold hashtableForeach forSlots
  dsimp only
  rw [if_pos hmask, ← hslots, foldlM_flatMap fun s i hi =>
    hf.foreachSection_eq (List.mem_range.mp hi) (hfuel i) action s]
  exact congrArg some ((foldl_count action _ 0 data).trans (by rw [Int.zero_add]; rfl))

end HashTable
