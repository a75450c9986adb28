import Ckit.HashtableCount
import Mathlib.Data.Set.Card

/-!
# Unhashing the elements one goes through

`hashtable_foreach` calls its action with the slot locked for writing, and
`__hashtable_unhash` is there to be called without taking the lock again. An action
that unhashes some of the elements it is given is what the two are for.

The loop is that of `list_foreach`, which reads the next pointer from the element the
action has returned from. `list_del` leaves an element that points to itself. From an
element that has been unhashed the loop does not go on: it calls the action on it again,
which unhashes it again, and so on, without end. `list_foreach_safe` reads the pointer
before the action is called, and is not used.

So the loop ends exactly where the action unhashes none of the elements of the table.
What an action may do instead is to leave the table as it is, and then the loop is the
one of an action on data of its own (`Filed.foreachAct_eq`).
-/

namespace HashTable

variable {ε κ : Type} [DecidableEq ε]

/-- **An action that unhashes the elements in `S`**, and notes the elements it is called
on. -/
def unhashing (S : ε → Bool) (s : HashTable ε κ × List ε) (e : ε) :
    Option (HashTable ε κ × List ε) :=
  (if S e then s.1.hashtableUnhashUnlocked e else some s.1).map fun t => (t, s.2 ++ [e])

/-- **`hashtable_foreach` unhashes the elements in `S`**: it returns, its action has been
called once on each element of the table, it returns their number, and those that are not
in `S` are left. -/
def ForeachUnhashes (t : HashTable ε κ) (S : ε → Bool) : Prop :=
  ∃ n t' es, (∃ fuel₀, ∀ fuel ≥ fuel₀,
      t.hashtableForeachAct fuel (some (unhashing S)) [] = some (n, t', es))
    ∧ es.Nodup ∧ (∀ e, e ∈ es ↔ t.hashelmHashed e = true) ∧ n = es.length
    ∧ ∀ e, t'.hashelmHashed e = true ↔ t.hashelmHashed e = true ∧ S e = false

variable {t t' : HashTable ε κ} {lists : ℕ → List ε} {S : ε → Bool}

/-! ## Actions that leave the table as it is -/

omit [DecidableEq ε] in
theorem foldlM_map_state {σ τ ι : Type} {l : List ι} {body : σ → ι → Option σ}
    {body' : τ → ι → Option τ} (g : σ → τ)
    (h : ∀ s, ∀ i ∈ l, body' (g s) i = (body s i).map g) (s : σ) :
    l.foldlM body' (g s) = (l.foldlM body s).map g := by
  induction l generalizing s with
  | nil => rfl
  | cons i l ih =>
    rw [List.foldlM_cons, List.foldlM_cons, h s i List.mem_cons_self]
    cases body s i with
    | none => rfl
    | some s' => exact ih (fun s j hj => h s j (List.mem_cons_of_mem _ hj)) s'

section Leaves

variable {δ : Type} {action : HashTable ε κ × δ → ε → Option (HashTable ε κ × δ)}
  {f : δ → ε → δ}

/-- **The loop over a slot**, with an action that leaves the table as it is on the elements
of the slot. -/
theorem Filed.foreachActSection_eq (hf : Filed t lists) {i : ℕ} (hi : i < t.slots)
    (haction : ∀ d, ∀ e ∈ lists i, action (t, d) e = some (t, f d e)) (fuel : ℕ) (s : ℤ × δ) :
    foreachActSection fuel action (s.1, t, s.2) i
      = (t.foreachSection fuel f s i).map fun r => (r.1, t, r.2) := by
  have hring := hf.ring i hi
  unfold foreachActSection foreachSection
  rw [if_pos hi, if_pos hi, Links.listForeach_map hring (fun r : ℤ × δ => (r.1, t, r.2))
    (fun _ _ => rfl) (fun _ _ => rfl) (fun s n hn => ?_) fuel s hring.next_anchor_mem]
  · rw [Option.map_map, Option.map_map]
    refine congrArg (fun f => Option.map f _) (funext fun r => ?_)
    cases r with
    | error r => exact nomatch r
    | ok s => rfl
  · obtain ⟨e, he, rfl⟩ := List.mem_map.mp hn
    dsimp only
    rw [haction s.2 e he]
    rfl

/-- **`hashtable_foreach` with an action that leaves the table as it is** does what it does
with an action on data of its own. -/
theorem Filed.foreachAct_eq (hf : Filed t lists)
    (haction : ∀ d, ∀ e ∈ visited t.slots lists, action (t, d) e = some (t, f d e)) (fuel : ℕ)
    (data : δ) :
    t.hashtableForeachAct fuel (some action) data
      = (t.hashtableForeach fuel (some f) data).map fun r => (r.1, t, r.2) := by
  unfold hashtableForeachAct hashtableForeach forSlots
  dsimp only
  split
  · refine foldlM_map_state (fun r : ℤ × δ => (r.1, t, r.2)) (fun s i hi => ?_) (0, data)
    have hlt : i < t.slots := hf.slots_eq ▸ List.mem_range.mp hi
    exact hf.foreachActSection_eq hlt
      (fun d e he => haction d e (mem_visited.mpr ⟨i, hlt, he⟩)) fuel s
  · rfl

end Leaves

/-! ## Actions that unhash -/

/-- **An element that has been unhashed points to itself**, whether it was in the table or
not. -/
theorem unhashUnlocked_next {e : ε} (h : t.hashtableUnhashUnlocked e = some t') :
    t'.links.next (.elm e) = .elm e := by
  unfold hashtableUnhashUnlocked unhashSection at h
  split at h
  · rw [(SameTable.of_put h).links]
    exact (Links.ring_nil.mp (Links.ring_listDel_self t.links (.elm e))).1
  · exact nomatch h

theorem unhashing_of_false {e : ε} (he : S e = false) (t : HashTable ε κ) (es : List ε) :
    unhashing S (t, es) e = some (t, es ++ [e]) := by
  rw [unhashing, he]
  rfl

/-- **The loop over a slot does not end** where the action unhashes one of its elements. -/
theorem Filed.foreachActSection_eq_none (hf : Filed t lists) {i : ℕ} (hi : i < t.slots)
    (hx : ∃ e ∈ lists i, S e = true) (fuel : ℕ) (n : ℤ) (es : List ε) :
    foreachActSection fuel (unhashing S) (n, t, es) i = none := by
  unfold foreachActSection
  rw [if_pos hi, Option.map_eq_none_iff]
  refine Links.listForeach_blocked (hf.ring i hi) (P := fun s => s.2.1 = t)
    (Q := fun n => ∃ e, n = .elm e ∧ S e = true) (fun s hs n => by rw [hs]) ?_ ?_ ?_ fuel rfl
  · rintro _ - ⟨e, rfl, he⟩ fuel s
    have hne : HashNode.elm e ≠ .slot i := fun heq => nomatch heq
    refine Links.listForeach_stuck hne (fun s => ?_) fuel s
    -- the action has no outcome, or leaves an element that points to itself
    dsimp only
    rw [unhashing, if_pos he]
    cases h : s.2.1.hashtableUnhashUnlocked e with
    | none => exact Or.inl rfl
    | some t' => exact Or.inr ⟨_, rfl, unhashUnlocked_next h⟩
  · intro n hn hstop s hs
    obtain ⟨e, -, rfl⟩ := List.mem_map.mp hn
    have he : S e = false := Bool.eq_false_iff.mpr fun he => hstop ⟨e, rfl, he⟩
    obtain ⟨n, t', es⟩ := s
    obtain rfl : t' = t := hs
    refine ⟨(i32 (n + 1), t', es ++ [e]), ?_, rfl⟩
    dsimp only
    rw [unhashing_of_false he]
    rfl
  · obtain ⟨e, hmem, he⟩ := hx
    exact ⟨.elm e, List.mem_map_of_mem hmem, e, rfl, he⟩

omit [DecidableEq ε] in
/-- A loop that has no outcome in one of its rounds. -/
theorem foldlM_eq_none {σ ι : Type} {l : List ι} {body : σ → ι → Option σ} {P : σ → Prop}
    (hkeep : ∀ s, ∀ i ∈ l, ∀ s', P s → body s i = some s' → P s')
    (hx : ∃ i ∈ l, ∀ s, P s → body s i = none) {s : σ} (hs : P s) : l.foldlM body s = none := by
  induction l generalizing s with
  | nil =>
    obtain ⟨i, hi, -⟩ := hx
    exact absurd hi List.not_mem_nil
  | cons i l ih =>
    rw [List.foldlM_cons]
    cases hbody : body s i with
    | none => rfl
    | some s' =>
      obtain ⟨j, hj, hnone⟩ := hx
      have hji : j ≠ i := by
        rintro rfl
        exact absurd (hnone s hs) (hbody ▸ Option.some_ne_none s')
      refine ih (fun s k hk => hkeep s k (List.mem_cons_of_mem _ hk)) ⟨j, ?_, hnone⟩
        (hkeep s i List.mem_cons_self s' hs hbody)
      exact (List.mem_cons.mp hj).resolve_left hji

/-- **`hashtable_foreach` does not end** where its action unhashes an element of the
table. -/
theorem Filed.foreachAct_eq_none (hf : Filed t lists)
    (hx : ∃ e ∈ visited t.slots lists, S e = true) (fuel : ℕ) :
    t.hashtableForeachAct fuel (some (unhashing S)) [] = none := by
  have hlt : ∀ i ∈ List.range (t.mask.toNat + 1), i < t.slots := fun i hi =>
    hf.slots_eq ▸ List.mem_range.mp hi
  unfold hashtableForeachAct forSlots
  dsimp only
  split
  · refine foldlM_eq_none (P := fun s => s.2.1 = t) ?_ ?_ rfl
    · rintro ⟨n, u, es⟩ i hi s' hu hsome
      obtain rfl : t = u := hu.symm
      by_cases hxi : ∃ e ∈ lists i, S e = true
      · have hnone := hf.foreachActSection_eq_none (hlt i hi) hxi fuel n es
        exact absurd (hnone.symm.trans hsome) (Option.some_ne_none s').symm
      · have hleave : ∀ (d : List ε), ∀ e ∈ lists i,
            unhashing S (t, d) e = some (t, d ++ [e]) := fun d e he =>
          unhashing_of_false (Bool.eq_false_iff.mpr fun hS => hxi ⟨e, he, hS⟩) _ d
        rw [hf.foreachActSection_eq (hlt i hi) hleave fuel (n, es)] at hsome
        obtain ⟨r, -, rfl⟩ := Option.map_eq_some_iff.mp hsome
        rfl
    · obtain ⟨e, hmem, he⟩ := hx
      obtain ⟨i, hi, hei⟩ := mem_visited.mp hmem
      refine ⟨i, List.mem_range.mpr (hf.slots_eq ▸ hi), ?_⟩
      rintro ⟨n, u, es⟩ hu
      obtain rfl : t = u := hu.symm
      exact hf.foreachActSection_eq_none hi ⟨e, hei, he⟩ fuel n es
  · rfl

/-! ## When the loop ends -/

/-- The number of elements in the table. -/
theorem Filed.ncard_hashed (hf : Filed t lists) :
    {e | t.hashelmHashed e = true}.ncard = (visited t.slots lists).length := by
  have hset : {e | t.hashelmHashed e = true} = ((visited t.slots lists).toFinset : Set ε) := by
    ext e
    rw [Set.mem_ofPred_eq, hf.hashed_iff, Finset.mem_coe, List.mem_toFinset]
  rw [hset, Set.ncard_coe_finset, List.toFinset_card_of_nodup hf.nodup_visited]

/-- **`hashtable_foreach` with an action that unhashes none of the elements of the table**
goes through them. -/
theorem Filed.foreachAct_unhashing (hf : Filed t lists) (hmask : t.mask.toNat + 1 < 2 ^ 32)
    (hS : ∀ e ∈ visited t.slots lists, S e = false) {fuel : ℕ}
    (hfuel : ∀ i, (lists i).length < fuel) :
    t.hashtableForeachAct fuel (some (unhashing S)) []
      = some (i32 (visited t.slots lists).length, t, visited t.slots lists) := by
  rw [hf.foreachAct_eq (f := fun es e => es ++ [e])
    (fun es e he => unhashing_of_false (hS e he) t es) fuel [], hf.foreach_eq hmask hfuel,
    foldl_append_singleton, List.nil_append, Option.map_some]

/-- **What the loop does to a table**, where its elements are in their slots. -/
theorem Filed.foreachUnhashes_iff (hf : Filed t lists) (hmask : t.mask.toNat + 1 < 2 ^ 32)
    {fuel : ℕ} (hlen : ∀ i, (lists i).length < fuel) :
    ForeachUnhashes t S ↔ (∀ e, t.hashelmHashed e = true → S e = false)
      ∧ {e | t.hashelmHashed e = true}.ncard < 2 ^ 31 := by
  constructor
  · rintro ⟨n, t', es, ⟨fuel₀, hret⟩, -, -, hn, -⟩
    have hS : ∀ e ∈ visited t.slots lists, S e = false := by
      intro e he
      refine Bool.eq_false_iff.mpr fun hSe => ?_
      have hnone := hf.foreachAct_eq_none ⟨e, he, hSe⟩ fuel₀
      exact absurd (hnone.symm.trans (hret fuel₀ le_rfl)) (Option.some_ne_none _).symm
    refine ⟨fun e he => hS e ((hf.hashed_iff e).mp he), ?_⟩
    have hmax : ∀ i, (lists i).length < max fuel₀ fuel := fun i =>
      Nat.lt_of_lt_of_le (hlen i) (Nat.le_max_right _ _)
    have heq := hf.foreachAct_unhashing hmask hS hmax
    rw [hret _ (Nat.le_max_left _ _)] at heq
    obtain ⟨hcount, hrest⟩ := Prod.mk.inj (Option.some.inj heq)
    obtain ⟨-, rfl⟩ := Prod.mk.inj hrest
    -- the number returned is an `int`, and there are as many elements
    have hint : i32 (visited t.slots lists).length < 2 ^ 31 :=
      Int.bmod_lt (by decide)
    rw [hf.ncard_hashed]
    omega
  · rintro ⟨hS, hlt⟩
    rw [hf.ncard_hashed] at hlt
    have hvisited : ∀ e ∈ visited t.slots lists, S e = false := fun e he =>
      hS e ((hf.hashed_iff e).mpr he)
    have hcount : i32 (visited t.slots lists).length = (visited t.slots lists).length :=
      i32_of_lt (by omega) (by omega)
    refine ⟨_, t, _, ⟨fuel, fun fuel' hle => hf.foreachAct_unhashing hmask hvisited
      fun i => Nat.lt_of_lt_of_le (hlen i) hle⟩, hf.nodup_visited, fun e => (hf.hashed_iff e).symm,
      hcount, fun e => ?_⟩
    exact ⟨fun he => ⟨he, hS e he⟩, And.left⟩

/-- **`hashtable_foreach` may be used to unhash no element of the table.** In every table a
run of permitted calls leads to, the loop returns, has called its action once on each
element, returns their number and leaves those that are not in `S` exactly where none of
them is in `S` and their number is an `int`. Where one of them is, it does not return,
however many references there are to it. -/
theorem hashtable_foreach_unhashes_iff (size : UInt32) (hashfn : κ → UInt32)
    (equalfn : HashElm κ → κ → Bool) (freefn : Bool) (links : Links (HashNode ε))
    (elm : ε → HashElm κ) (alloc : Bool) (helm : ∀ e, Initialised links elm e)
    {t₀ : HashTable ε κ}
    (hinit : hashtableInit size hashfn equalfn freefn links elm alloc = some (some t₀))
    (ops : List (TableOp ε κ)) (fuel : ℕ) (hfuel : ops.length < fuel)
    (hp : Meets (tableStep fuel) Permitted t₀ ops) (hrun : run (tableStep fuel) t₀ ops = some t)
    (S : ε → Bool) :
    (ForeachUnhashes t S ↔ (∀ e, t.hashelmHashed e = true → S e = false)
        ∧ {e | t.hashelmHashed e = true}.ncard < 2 ^ 31)
      ∧ ((∃ e, t.hashelmHashed e = true ∧ S e = true) → ∀ fuel',
        t.hashtableForeachAct fuel' (some (unhashing S)) [] = none) := by
  obtain ⟨⟨t', hrun', lists, h, hlen⟩, -⟩ := countedAhead_run helm hinit hfuel hp
  obtain rfl : t' = t := Option.some.inj (hrun'.symm.trans hrun)
  have hmask : t'.mask.toNat + 1 < 2 ^ 32 := Nat.lt_trans h.mask (by decide)
  refine ⟨h.filed.foreachUnhashes_iff hmask hlen, fun ⟨e, he, hS⟩ fuel' => ?_⟩
  exact h.filed.foreachAct_eq_none ⟨e, (h.filed.hashed_iff e).mp he, hS⟩ fuel'

/-- A new table with two slots, for four elements. -/
def fourAlone : HashTable (Fin 4) ℕ :=
  ((hashtableInit 2 UInt32.ofNat (fun he k => he.key == k) true ⟨id, id⟩
    (fun _ => ⟨1, 0, 0, false⟩) true).get rfl).get rfl

/-- Four elements are hashed, two on each slot, and the last is unhashed. -/
def hashFour : List (TableOp (Fin 4) ℕ) :=
  [.hash 0 5, .hash 1 6, .hash 2 7, .hash 3 8, .unhash 3]

/-- The table with the three elements that are left. -/
def threeHashed : HashTable (Fin 4) ℕ := (run (tableStep 9) fourAlone hashFour).get rfl

/-- An action that unhashes the fourth element, which is not there, goes through the other
three; one that unhashes the second does not. -/
theorem hashtable_foreach_unhashes_three :
    (∀ e, threeHashed.hashelmHashed e = true ↔ e ≠ 3)
      ∧ ForeachUnhashes threeHashed (fun e => e == 3)
      ∧ ∀ fuel', threeHashed.hashtableForeachAct fuel' (some (unhashing fun e => e == 1)) []
        = none := by
  have hiff := hashtable_foreach_unhashes_iff 2 UInt32.ofNat (fun he k => he.key == k) true
    ⟨id, id⟩ (fun _ => ⟨1, 0, 0, false⟩) true (fun _ => ⟨Links.ring_nil.mpr ⟨rfl, rfl⟩, rfl⟩)
    (show _ = some (some fourAlone) from rfl) hashFour 9 (by decide) (by decide +kernel)
    (show _ = some threeHashed from rfl)
  have hcard : {e | threeHashed.hashelmHashed e = true}.ncard ≤ 4 :=
    (Set.ncard_le_card _).trans_eq (Nat.card_fin 4)
  refine ⟨by decide +kernel, (hiff _).1.mpr ⟨by decide +kernel, hcard.trans_lt (by decide)⟩, ?_⟩
  exact (hiff _).2 ⟨1, rfl, rfl⟩

/-- A table with two slots and one element. -/
def oneHashed : HashTable Bool ℕ := (run (tableStep 9) twoSlots [.hash true 5]).get rfl

/-- **The loop does not get past an element that its action unhashes**, the only one of the
table, to which the caller has a reference as well. -/
theorem hashtable_foreach_unhash_stuck :
    run (tableStep 9) twoSlots [.hash true 5] = some oneHashed
      ∧ oneHashed.hashelmHashed true = true ∧ (oneHashed.elm true).refcount = 2
      ∧ (∀ fuel, oneHashed.hashtableForeachAct fuel (some (unhashing fun _ => true)) [] = none)
      ∧ ¬ ForeachUnhashes oneHashed fun _ => true := by
  have hp : Meets (tableStep 9) Permitted twoSlots [.hash true 5] := by decide +kernel
  obtain ⟨⟨t, hrun, lists, h, -⟩, -⟩ := countedAhead_run
    (fun _ => ⟨Links.ring_nil.mpr ⟨rfl, rfl⟩, rfl⟩) twoSlots_init (by decide) hp
  obtain rfl : oneHashed = t := Option.some.inj hrun
  have hmem : true ∈ visited oneHashed.slots lists := (h.filed.hashed_iff true).mp rfl
  have hnone := h.filed.foreachAct_eq_none (S := fun _ => true) ⟨true, hmem, rfl⟩
  refine ⟨rfl, rfl, rfl, hnone, ?_⟩
  rintro ⟨n, t', es, ⟨fuel, hret⟩, -⟩
  exact absurd ((hnone fuel).symm.trans (hret fuel le_rfl)) (Option.some_ne_none _).symm

end HashTable
