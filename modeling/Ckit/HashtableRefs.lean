import Ckit.HashtableCount
import Ckit.HashtableThreads

/-!
# References to the elements of a hash table

In every interleaving, the reference count of an element is the number of the
references there are to it – those its clients own, and one of the table while the
element is in it – and `freefn` has been called on it once when there is none left, and
not before.

An `int` does not count further than `2^31 - 1`. The theorem is about the runs in which
no element ever has more references than that; with `2^32 - 1` of them, the count is
the one of an element with a single reference less, and the next `hashelm_put`
frees an element that is in use.

A step changes the number of references to one element at most, and `Counted.hold` and
`Counted.put` are the two ways it does. The rest of the invariant, `RefPhase`, says what
the table is in the middle of: its elements are in the lists of their slots (`Working`),
with what each client has already seen of them, until `hashtable_fini` has emptied the last
slot. Nothing is asked of `hashfn` and `equalfn`: an element that is refused for its key gets
no reference, whatever the reason.
-/

/-- **The counts are right** where there are `r e` references to each element:
`freefn`, if there is one, has been called once on those with none. -/
structure HashTable.Counted {ε κ : Type} (t : HashTable ε κ) (r : ε → ℕ) : Prop where
  refcount : ∀ e, (t.elm e).refcount = r e
  used : ∀ e, 0 < r e → t.freed e = 0
  unused : ∀ e, r e = 0 → t.freed e = if t.freefn = true then 1 else 0
  fits : ∀ e, r e < 2 ^ 31

namespace HashTable

variable {ε κ : Type} {t t' : HashTable ε κ} {r : ε → ℕ}

/-- What does not touch the counts. -/
theorem Counted.congr (h : Counted t r)
    (hcount : ∀ e, (t'.elm e).refcount = (t.elm e).refcount) (hfreed : t'.freed = t.freed)
    (hfn : t'.freefn = t.freefn) : Counted t' r := by
  refine ⟨fun e => (hcount e).trans (h.refcount e), fun e => ?_, fun e => ?_, h.fits⟩
  · rw [hfreed]
    exact h.used e
  · rw [hfreed, hfn]
    exact h.unused e

variable [DecidableEq ε]

theorem setRefcount_refcount (h : ∀ e, (t.elm e).refcount = r e) (e : ε) (m : ℕ) (e' : ε) :
    ((t.setRefcount e m).elm e').refcount = Function.update r e m e' := by
  by_cases hee : e' = e
  · rw [hee, setRefcount_elm_self, Function.update_self]
  · rw [setRefcount_elm_of_ne _ _ hee, Function.update_of_ne hee]
    exact h e'

theorem Counted.fits_update (h : Counted t r) {e : ε} {m : ℕ} (hm : m < 2 ^ 31) (e' : ε) :
    Function.update r e m e' < 2 ^ 31 := by
  by_cases hee : e' = e
  · rw [hee, Function.update_self]
    exact hm
  · rw [Function.update_of_ne hee]
    exact h.fits e'

/-- A change of a count that does not get to zero or come from there. -/
theorem Counted.setRefcount (h : Counted t r) {e : ε} {m : ℕ} (hpos : 0 < r e) (hm : 0 < m)
    (hfits : m < 2 ^ 31) : Counted (t.setRefcount e m) (Function.update r e m) := by
  refine ⟨setRefcount_refcount h.refcount e m, fun e' he' => ?_, fun e' he' => ?_,
    h.fits_update hfits⟩
  · by_cases hee : e' = e
    · rw [hee]
      exact h.used e hpos
    · rw [Function.update_of_ne hee] at he'
      exact h.used e' he'
  · have hee : e' ≠ e := by
      rintro rfl
      rw [Function.update_self] at he'
      exact Nat.ne_of_gt hm he'
    rw [Function.update_of_ne hee] at he'
    exact h.unused e' he'

/-- **A reference more**, to an element that has one. -/
theorem Counted.hold (h : Counted t r) {e : ε} (hpos : 0 < r e) (hfits : r e + 1 < 2 ^ 31) :
    Counted (t.hashelmHold e) (Function.update r e (r e + 1)) := by
  have hcount : i32 ((t.elm e).refcount + 1) = ((r e + 1 : ℕ) : ℤ) := by
    rw [h.refcount]
    exact i32_of_lt (n := ((r e + 1 : ℕ) : ℤ)) (by omega) (by omega)
  unfold hashelmHold
  rw [hcount]
  exact h.setRefcount hpos (Nat.succ_pos _) hfits

/-- The last reference is gone. -/
theorem Counted.callFreefn (h : Counted t r) {e : ε} (hone : r e = 1) :
    Counted ((t.setRefcount e 0).callFreefn e) (Function.update r e 0) := by
  refine ⟨fun e' => ?_, fun e' he' => ?_, fun e' he' => ?_, h.fits_update (by decide)⟩
  · rw [callFreefn_elm]
    exact setRefcount_refcount h.refcount e 0 e'
  · have hee : e' ≠ e := by
      rintro rfl
      rw [Function.update_self] at he'
      exact Nat.lt_irrefl 0 he'
    rw [Function.update_of_ne hee] at he'
    rw [callFreefn_freed, if_neg fun hz => hee hz.1]
    exact h.used e' he'
  · rw [callFreefn_freed, callFreefn_freefn]
    show (if e' = e ∧ t.freefn = true then t.freed e' + 1 else t.freed e')
      = if t.freefn = true then 1 else 0
    by_cases hee : e' = e
    · have hzero : t.freed e = 0 := h.used e (hone ▸ Nat.one_pos)
      simp only [hee, true_and, hzero]
    · rw [Function.update_of_ne hee] at he'
      rw [if_neg fun hz => hee hz.1]
      exact h.unused e' he'

/-- **A reference less**: `freefn` is called where it was the last. -/
theorem Counted.put (h : Counted t r) {e : ε} {m : ℕ} (hm : r e = m + 1)
    (hht : m = 0 → (t.elm e).ht = true) :
    ∃ t', t.hashelmPut e = some t' ∧ SameTable t t' ∧ Counted t' (Function.update r e m) := by
  have hfits := h.fits e
  have hcount : i32 ((t.elm e).refcount - 1) = m := by
    rw [h.refcount, hm]
    exact (congrArg i32 (by omega)).trans (i32_of_lt (Int.natCast_nonneg m) (by omega))
  have heq := hashelmPut_eq (t := t) (e := e) fun hzero => hht (by omega)
  rw [hcount] at heq
  by_cases hzero : m = 0
  · subst hzero
    exact ⟨_, heq, (setRefcount_same t e _).trans (callFreefn_same _ e), h.callFreefn hm⟩
  · rw [if_neg fun hz => hzero (by omega)] at heq
    exact ⟨_, heq, setRefcount_same t e _, h.setRefcount (by omega) (by omega) (by omega)⟩

/-! ## References of the table -/

/-- The references to an element, where clients own `own e` of them. -/
def refs (t : HashTable ε κ) (own : ε → ℕ) (e : ε) : ℕ :=
  own e + if t.hashelmHashed e then 1 else 0

/-- The table has a reference to an element that has entered it. -/
theorem refs_link {e : ε} (hnot : t.hashelmHashed e = false)
    (hlinked : ∀ e', t'.hashelmHashed e' = true ↔ e' = e ∨ t.hashelmHashed e' = true)
    (own : ε → ℕ) : t'.refs own = Function.update (t.refs own) e (t.refs own e + 1) := by
  funext e'
  unfold refs
  by_cases hee : e' = e
  · rw [hee, Function.update_self, if_pos ((hlinked e).mpr (.inl rfl)), hnot]
    rfl
  · have hsame := (hlinked e').trans (or_iff_right hee)
    rw [Function.update_of_ne hee, Bool.eq_iff_iff.mpr hsame]

/-- The table has no reference to an element that has left it. -/
theorem refs_unlink {e : ε} (hhashed : t.hashelmHashed e = true)
    (hlinked : ∀ e', t'.hashelmHashed e' = true ↔ e' ≠ e ∧ t.hashelmHashed e' = true)
    (own : ε → ℕ) :
    t.refs own e = own e + 1 ∧ t'.refs own = Function.update (t.refs own) e (own e) := by
  refine ⟨?_, ?_⟩
  · unfold refs
    rw [if_pos hhashed]
  · funext e'
    unfold refs
    by_cases hee : e' = e
    · rw [hee, Function.update_self, if_neg fun hh => ((hlinked e).mp hh).1 rfl, Nat.add_zero]
    · have hsame := (hlinked e').trans (and_iff_right hee)
      rw [Function.update_of_ne hee, Bool.eq_iff_iff.mpr hsame]

theorem SameTable.hashelmHashed (h : SameTable t t') (e : ε) :
    t'.hashelmHashed e = t.hashelmHashed e := by
  unfold HashTable.hashelmHashed
  rw [h.links]

theorem SameTable.refs (h : SameTable t t') (own : ε → ℕ) : t'.refs own = t.refs own := by
  funext e
  unfold HashTable.refs
  rw [h.hashelmHashed]

/-! ## The lists -/

variable {lists : ℕ → List ε} {fuel n : ℕ}

/-- An element has come into a list. -/
theorem Filed.hashed_link (hf : Filed t lists) {e : ε} {i : ℕ} (hi : i < t.slots)
    (hf' : Filed t' (Function.update lists i (e :: lists i))) (hslots : t'.slots = t.slots)
    (e' : ε) : t'.hashelmHashed e' = true ↔ e' = e ∨ t.hashelmHashed e' = true := by
  rw [hf'.hashed_iff, hf.hashed_iff, hslots, mem_visited, mem_visited]
  constructor
  · rintro ⟨j, hj, hmem⟩
    rcases mem_update_cons.mp hmem with ⟨-, heq⟩ | hold
    · exact .inl heq
    · exact .inr ⟨j, hj, hold⟩
  · rintro (heq | ⟨j, hj, hold⟩)
    · exact ⟨i, hi, mem_update_cons.mpr (.inl ⟨rfl, heq⟩)⟩
    · exact ⟨j, hj, mem_update_cons.mpr (.inr hold)⟩

/-- An element has gone from its list. -/
theorem Filed.hashed_unlink (hf : Filed t lists) {e : ε} {i : ℕ} (hi : i < t.slots)
    {l₁ l₂ : List ε} (hl : lists i = l₁ ++ e :: l₂)
    (hf' : Filed t' (Function.update lists i (l₁ ++ l₂))) (hslots : t'.slots = t.slots)
    (e' : ε) : t'.hashelmHashed e' = true ↔ e' ≠ e ∧ t.hashelmHashed e' = true := by
  have hmem : e ∈ lists i := hl ▸ List.mem_append_right _ List.mem_cons_self
  rw [hf'.hashed_iff, hf.hashed_iff, hslots, mem_visited, mem_visited]
  constructor
  · rintro ⟨j, hj, hnew⟩
    refine ⟨?_, j, hj, mem_of_mem_removed hl hnew⟩
    rintro rfl
    obtain rfl : i = j := hf.disjoint hi hj hmem (mem_of_mem_removed hl hnew)
    rw [Function.update_self] at hnew
    have hnodup := hf.nodup hi
    rw [hl, List.perm_middle.nodup_iff] at hnodup
    exact (List.nodup_cons.mp hnodup).1 hnew
  · rintro ⟨hee, j, hj, hold⟩
    exact ⟨j, hj, mem_removed_of_ne hl hee hold⟩

/-- **What every step needs of the table**: the elements are in the lists of their slots, the
indices of the loops do not wrap around, and the fuel is enough for every slot, also after `n`
more elements. -/
structure Working (fuel n : ℕ) (t : HashTable ε κ) (lists : ℕ → List ε) : Prop where
  filed : Filed t lists
  mask : t.mask.toNat + 1 < 2 ^ 31
  fuel : ∀ i, (lists i).length + n < fuel

omit [DecidableEq ε] in
theorem Working.lengths_lt (h : Working fuel n t lists) (i : ℕ) : (lists i).length < fuel :=
  Nat.lt_of_le_of_lt (Nat.le_add_right _ _) (h.fuel i)

omit [DecidableEq ε] in
/-- A step less is still to come. -/
theorem Working.later (h : Working fuel (n + 1) t lists) : Working fuel n t lists :=
  ⟨h.filed, h.mask, fun i => Nat.lt_of_succ_lt (h.fuel i)⟩

omit [DecidableEq ε] in
/-- A change that is not to the lists. -/
theorem Working.same (h : Working fuel n t lists) (hs : SameTable t t') :
    Working fuel n t' lists :=
  ⟨hs.filed h.filed, hs.mask ▸ h.mask, h.fuel⟩

theorem Working.notMem_visited (h : Working fuel n t lists) {e : ε}
    (hnot : t.hashelmHashed e = false) : e ∉ visited t.slots lists := fun hmem =>
  Bool.false_ne_true (hnot.symm.trans ((h.filed.hashed_iff e).mpr hmem))

/-- **The locked part of `hashtable_hash`**, of an element that is in no list. -/
theorem Working.hashSection (h : Working fuel (n + 1) t lists) {e : ε} (key : κ)
    (hnot : t.hashelmHashed e = false) (hht : (t.elm e).ht = true) :
    t.hashSection fuel e key = some (-1, t)
      ∨ ∃ slot lists', t.hashSection fuel e key = some (0, (t.addElm slot e).hashelmHold e)
        ∧ Working fuel n (t.addElm slot e) lists'
        ∧ ∀ e', (t.addElm slot e).hashelmHashed e' = true
          ↔ e' = e ∨ t.hashelmHashed e' = true := by
  have hlt := h.filed.getSlot_lt (t.elm e).hash
  unfold HashTable.hashSection
  dsimp only
  rw [h.filed.find_eq hlt (h.lengths_lt _)]
  simp only [Option.bind_eq_bind, Option.bind_some]
  cases (lists (t.getSlot (t.elm e).hash)).find? _ with
  | some e' => exact .inl rfl
  | none =>
    have hfiled := (addElm_same t (t.getSlot (t.elm e).hash) e).filed
      (h.filed.link (h.notMem_visited hnot) rfl hht)
    refine .inr ⟨_, _, rfl, ⟨hfiled, h.mask, fun i => ?_⟩, h.filed.hashed_link hlt hfiled rfl⟩
    have hi := h.fuel i
    exact Nat.lt_of_le_of_lt (Nat.add_le_add_right (length_linked_le _ e i) n) (by omega)

/-- What `hashtable_hash` writes into an element that is in no list. -/
theorem Working.setKey (h : Working fuel n t lists) {e : ε} (hnot : t.hashelmHashed e = false)
    (key : κ) : Working fuel n (t.setKey e key) lists :=
  ⟨h.filed.setKey (h.notMem_visited hnot) key, h.mask, h.fuel⟩

/-- **An element of the table is unlinked**, whichever slot it is counted in. -/
theorem Working.delElm (h : Working fuel n t lists) {e : ε} (hhashed : t.hashelmHashed e = true)
    (slot : ℕ) : (t.elm e).ht = true ∧ ∃ lists', Working fuel n (t.delElm slot e) lists'
      ∧ ∀ e', (t.delElm slot e).hashelmHashed e' = true
        ↔ e' ≠ e ∧ t.hashelmHashed e' = true := by
  obtain ⟨i, hi, hmem⟩ := mem_visited.mp ((h.filed.hashed_iff e).mp hhashed)
  obtain ⟨l₁, l₂, hl⟩ := List.append_of_mem hmem
  have hfiled := (delElm_same t slot e).filed (h.filed.unlink hi hl)
  refine ⟨(h.filed.fields i hi e hmem).2, _, ⟨hfiled, h.mask, fun j => ?_⟩,
    h.filed.hashed_unlink hi hl hfiled rfl⟩
  exact Nat.lt_of_le_of_lt (Nat.add_le_add_right (length_removed_le hl j) n) (h.fuel j)

/-- **`hashtable_lookup`** finds an element of the table, or none. -/
theorem Working.lookup (h : Working fuel n t lists) (key : κ) :
    t.hashtableLookup fuel key = some (none, t)
      ∨ ∃ e, t.hashtableLookup fuel key = some (some e, t.hashelmHold e)
        ∧ t.hashelmHashed e = true := by
  have hlt := h.filed.getSlot_lt (t.hashfn key)
  unfold hashtableLookup lookupSection
  rw [h.filed.find_eq hlt (h.lengths_lt _)]
  simp only [Option.bind_eq_bind, Option.bind_some]
  cases hfound : (lists (t.getSlot (t.hashfn key))).find? _ with
  | none => exact .inl rfl
  | some e =>
    refine .inr ⟨e, rfl, (h.filed.hashed_iff e).mpr ?_⟩
    exact mem_visited.mpr ⟨_, hlt, List.mem_of_find?_eq_some hfound⟩

/-! ## Emptying a slot -/

variable {own : ε → ℕ}

/-- The first element of a slot is unlinked and put: one round of the loop of
`hashtable_fini`. -/
theorem Working.finiRound (h : Working fuel n t lists) (hc : Counted t (t.refs own)) {i : ℕ}
    (hi : i < t.slots) {e : ε} {l : List ε} (hl : lists i = e :: l) :
    ∃ t', { t with links := t.links.listDel (.elm e) }.hashelmPut e = some t'
      ∧ Working fuel n t' (Function.update lists i l) ∧ Counted t' (t'.refs own)
      ∧ t'.slots = t.slots ∧ t'.mask = t.mask := by
  have hl' : lists i = [] ++ e :: l := hl
  have hmem : e ∈ lists i := hl ▸ List.mem_cons_self
  have hfiled := h.filed.unlink hi hl'
  have hlinked := h.filed.hashed_unlink hi hl' hfiled rfl
  have hworking : Working fuel n { t with links := t.links.listDel (.elm e) }
      (Function.update lists i l) := by
    refine ⟨hfiled, h.mask, fun j => ?_⟩
    exact Nat.lt_of_le_of_lt (Nat.add_le_add_right (length_removed_le hl' j) n) (h.fuel j)
  obtain ⟨hone, hrefs⟩ := refs_unlink
    ((h.filed.hashed_iff e).mpr (mem_visited.mpr ⟨i, hi, hmem⟩)) hlinked own
  have hc' : Counted { t with links := t.links.listDel (.elm e) } (t.refs own) :=
    hc.congr (fun _ => rfl) rfl rfl
  obtain ⟨t', hput, hsame, hcount⟩ := hc'.put hone fun _ => (h.filed.fields i hi e hmem).2
  refine ⟨t', hput, hworking.same hsame, ?_, hsame.slots, hsame.mask⟩
  rw [← hrefs] at hcount
  rwa [hsame.refs]

/-- **The loop of `hashtable_fini`** puts every element of the slot. -/
theorem Working.finiLoop_eq {i : ℕ} (l : List ε) {f : ℕ} {t : HashTable ε κ}
    {lists : ℕ → List ε} (h : Working fuel n t lists) (hc : Counted t (t.refs own))
    (hi : i < t.slots) (hl : lists i = l) (hf : l.length < f) :
    ∃ t', finiLoop i f t = some t' ∧ Working fuel n t' (Function.update lists i [])
      ∧ Counted t' (t'.refs own) ∧ t'.slots = t.slots ∧ t'.mask = t.mask := by
  induction l generalizing f t lists with
  | nil =>
    obtain ⟨f, rfl⟩ := Nat.exists_eq_succ_of_ne_zero (Nat.ne_zero_of_lt hf)
    have hring := h.filed.ring i hi
    rw [hl] at hring
    refine ⟨t, finiLoop_nil hring f, ?_, hc, rfl, rfl⟩
    rwa [← hl, Function.update_eq_self]
  | cons e l ih =>
    obtain ⟨f, rfl⟩ := Nat.exists_eq_succ_of_ne_zero (Nat.ne_zero_of_lt hf)
    have hring := h.filed.ring i hi
    rw [hl] at hring
    obtain ⟨t₁, hput, hworking, hcount, hslots, hmask⟩ := h.finiRound hc hi hl
    obtain ⟨t', heq, hworking', hcount', hslots', hmask'⟩ := ih hworking hcount
      (hslots ▸ hi) (Function.update_self ..) (Nat.lt_of_succ_lt_succ hf)
    refine ⟨t', ?_, ?_, hcount', hslots'.trans hslots, hmask'.trans hmask⟩
    · rw [finiLoop_cons hring, hput, Option.bind_some, heq]
    · rwa [Function.update_idem] at hworking'

/-- **The locked part of `hashtable_fini`** empties its slot. -/
theorem Working.finiSection_eq (h : Working fuel n t lists) (hc : Counted t (t.refs own)) {i : ℕ}
    (hi : i < t.slots) :
    ∃ t', t.finiSection fuel i = some t' ∧ Working fuel n t' (Function.update lists i [])
      ∧ Counted t' (t'.refs own) ∧ t'.slots = t.slots ∧ t'.mask = t.mask := by
  obtain ⟨t', heq, hworking, hcount, hslots, hmask⟩ :=
    h.finiLoop_eq (lists i) hc hi rfl (h.lengths_lt i)
  have hring := hworking.filed.ring i (hslots ▸ hi)
  rw [Function.update_self] at hring
  have hsame := initList_same hring
  refine ⟨_, ?_, hworking.same hsame, ?_, hslots, hmask⟩
  · rw [finiSection, if_pos hi, heq, Option.map_some]
  · rw [hsame.refs]
    exact hcount.congr (fun _ => rfl) rfl rfl

end HashTable

namespace HashSys

open HashTable

variable {ε κ γ : Type} [DecidableEq ε] [DecidableEq γ] {fuel n : ℕ}
  {s s' : HashSys ε κ γ} {lists lists' : ℕ → List ε}

/-! ## The invariant -/

/-- No element has more references than its count can hold. -/
def Fits (s : HashSys ε κ γ) : Prop := ∀ e, s.refs e < 2 ^ 31

instance [Fintype ε] : DecidablePred (Fits : HashSys ε κ γ → Prop) :=
  fun s => inferInstanceAs (Decidable (∀ e, s.refs e < 2 ^ 31))

/-- What a client has already seen of the table, or written. -/
def PcHolds (t : HashTable ε κ) : HashPc ε κ → Prop
  | .hashWrite e _ => t.hashelmHashed e = false
  | .hash e key => t.hashelmHashed e = false
      ∧ (t.elm e).key = key ∧ (t.elm e).hash = t.hashfn key ∧ (t.elm e).ht = true
  | .unhash _ slot => slot < t.slots
  | .fini _ => False
  | _ => True

/-- The table is in use. -/
structure Serving (fuel n : ℕ) (s : HashSys ε κ γ) (lists : ℕ → List ε) : Prop where
  working : Working fuel n s.t lists
  closed : s.closed = false
  pcs : ∀ c, PcHolds s.t (s.pc c)
  alone : ∀ c c' e, (s.pc c).hashes = some e → (s.pc c').hashes = some e → c = c'

/-- Client `c` has emptied the slots below `slot`. -/
structure Closing (fuel n : ℕ) (s : HashSys ε κ γ) (lists : ℕ → List ε) (c : γ) (slot : ℕ) :
    Prop where
  working : Working fuel n s.t lists
  closed : s.closed = true
  pc : s.pc c = .fini slot
  idle : ∀ c' ≠ c, s.pc c' = .idle
  le : slot ≤ s.t.slots
  empty : ∀ i < slot, lists i = []

/-- The table is gone. -/
structure Ended (s : HashSys ε κ γ) : Prop where
  closed : s.closed = true
  idle : ∀ c, s.pc c = .idle
  unlinked : ∀ e, s.t.hashelmHashed e = false

/-- What the table is in the middle of. -/
def RefPhase (fuel n : ℕ) (s : HashSys ε κ γ) : Prop :=
  (∃ lists, Serving fuel n s lists) ∨ (∃ lists c slot, Closing fuel n s lists c slot) ∨ Ended s

/-- **The invariant of the references**, with `n` steps to come. -/
structure RefInv (fuel n : ℕ) (s : HashSys ε κ γ) : Prop where
  counted : s.t.Counted s.refs
  phase : RefPhase fuel n s

omit [DecidableEq γ] in
/-- The table is in use until `hashtable_fini` is called. -/
theorem RefInv.serving (h : RefInv fuel n s) (hopen : s.closed = false) :
    ∃ lists, Serving fuel n s lists := by
  rcases h.phase with hx | ⟨lists, c, slot, hx⟩ | hx
  · exact hx
  · exact absurd (hopen.symm.trans hx.closed) Bool.false_ne_true
  · exact absurd (hopen.symm.trans hx.closed) Bool.false_ne_true

omit [DecidableEq γ] in
/-- The references, by the table. -/
theorem refs_eq (s : HashSys ε κ γ) : s.refs = s.t.refs fun e => (s.owners e).length :=
  rfl

/-- What a client has seen stays so where the element it is hashing does. -/
theorem PcHolds.change {t t' : HashTable ε κ} {pc : HashPc ε κ} (h : PcHolds t pc)
    (hslots : t'.slots = t.slots) (hhashfn : t'.hashfn = t.hashfn)
    (hkept : ∀ e, pc.hashes = some e → t.hashelmHashed e = false →
      t'.hashelmHashed e = false ∧ (t'.elm e).key = (t.elm e).key
        ∧ (t'.elm e).hash = (t.elm e).hash ∧ (t'.elm e).ht = (t.elm e).ht) :
    PcHolds t' pc := by
  cases pc with
  | hashWrite e key => exact (hkept e rfl h).1
  | hash e key =>
    obtain ⟨hnot, hkey, hhash, hht⟩ := hkept e rfl h.1
    exact ⟨hnot, hkey.trans h.2.1, hhash.trans (h.2.2.1.trans (congrFun hhashfn key).symm),
      hht.trans h.2.2.2⟩
  | unhash e slot => exact Nat.lt_of_lt_of_eq h hslots.symm
  | _ => exact h

/-- A change that is not to the lists. -/
theorem PcHolds.same {t t' : HashTable ε κ} {pc : HashPc ε κ} (h : PcHolds t pc)
    (hs : SameTable t t') : PcHolds t' pc :=
  h.change hs.slots hs.hashfn fun e _ hnot => ⟨(hs.hashelmHashed e).trans hnot, hs.fields e⟩

omit [DecidableEq γ] in
/-- A step that changes neither the table nor where the clients are. -/
theorem RefPhase.same (h : RefPhase fuel (n + 1) s) (ht : SameTable s.t s'.t)
    (hpc : s'.pc = s.pc) (hclosed : s'.closed = s.closed) : RefPhase fuel n s' := by
  rcases h with ⟨lists, h⟩ | ⟨lists, c, slot, h⟩ | h
  · refine Or.inl ⟨lists, h.working.later.same ht, hclosed.trans h.closed, fun c => ?_, ?_⟩
    · rw [hpc]
      exact (h.pcs c).same ht
    · rw [hpc]
      exact h.alone
  · refine Or.inr (Or.inl ⟨lists, c, slot, h.working.later.same ht, hclosed.trans h.closed, ?_,
      ?_, ?_, h.empty⟩)
    · rw [hpc]
      exact h.pc
    · rw [hpc]
      exact h.idle
    · rw [ht.slots]
      exact h.le
  · refine Or.inr (Or.inr ⟨hclosed.trans h.closed, ?_, fun e => ?_⟩)
    · rw [hpc]
      exact h.idle
    · rw [ht.hashelmHashed]
      exact h.unlinked e

/-- **A step of a client while the table is in use**: it goes on to `pc`, and leaves the
elements that others are hashing as they are. -/
theorem Serving.advance (h : Serving fuel (n + 1) s lists) {t' : HashTable ε κ} {c : γ}
    {pc : HashPc ε κ} (hworking : Working fuel n t' lists') (hslots : t'.slots = s.t.slots)
    (hhashfn : t'.hashfn = s.t.hashfn)
    (hkept : ∀ c' e, c' ≠ c → (s.pc c').hashes = some e → s.t.hashelmHashed e = false →
      t'.hashelmHashed e = false ∧ (t'.elm e).key = (s.t.elm e).key
        ∧ (t'.elm e).hash = (s.t.elm e).hash ∧ (t'.elm e).ht = (s.t.elm e).ht)
    (hpc : PcHolds t' pc)
    (hhashes : ∀ c' e, c' ≠ c → pc.hashes = some e → (s.pc c').hashes ≠ some e) :
    Serving fuel n { s.goto c pc with t := t' } lists' := by
  refine ⟨hworking, h.closed, fun c' => ?_, fun c₁ c₂ e h₁ h₂ => ?_⟩
  · show PcHolds t' ((s.goto c pc).pc c')
    by_cases hcc : c' = c
    · rw [hcc, goto_pc_self]
      exact hpc
    · rw [goto_pc_of_ne _ _ hcc]
      exact (h.pcs c').change hslots hhashfn fun e => hkept c' e hcc
  · replace h₁ : ((s.goto c pc).pc c₁).hashes = some e := h₁
    replace h₂ : ((s.goto c pc).pc c₂).hashes = some e := h₂
    by_cases hc₁ : c₁ = c
    · by_cases hc₂ : c₂ = c
      · rw [hc₁, hc₂]
      · rw [hc₁, goto_pc_self] at h₁
        rw [goto_pc_of_ne _ _ hc₂] at h₂
        exact absurd h₂ (hhashes c₂ e hc₂ h₁)
    · rw [goto_pc_of_ne _ _ hc₁] at h₁
      by_cases hc₂ : c₂ = c
      · rw [hc₂, goto_pc_self] at h₂
        exact absurd h₁ (hhashes c₁ e hc₁ h₂)
      · rw [goto_pc_of_ne _ _ hc₂] at h₂
        exact h.alone c₁ c₂ e h₁ h₂

/-- A step of a client that leaves the table as it is. -/
theorem Serving.goto (h : Serving fuel (n + 1) s lists) {c : γ} {pc : HashPc ε κ}
    (hpc : PcHolds s.t pc)
    (hhashes : ∀ c' e, c' ≠ c → pc.hashes = some e → (s.pc c').hashes ≠ some e) :
    Serving fuel n (s.goto c pc) lists :=
  h.advance h.working.later rfl rfl (fun _ _ _ _ hnot => ⟨hnot, rfl, rfl, rfl⟩) hpc hhashes

/-! ## The steps -/

omit [DecidableEq γ] in
/-- The references after a client has gained one, in a table with the same links. -/
theorem gain_refs {t' : HashTable ε κ} (hlinks : t'.links = s.t.links) (c : γ) (e : ε) :
    (gain { s with t := t' } c e).refs = Function.update s.refs e (s.refs e + 1) := by
  funext e'
  unfold refs gain hashelmHashed
  dsimp only
  rw [hlinks]
  by_cases hee : e' = e
  · rw [hee, Function.update_self, Function.update_self, List.length_cons]
    omega
  · rw [Function.update_of_ne hee, Function.update_of_ne hee]

/-- The references after a client has lost one, in a table with the same links. -/
theorem lose_refs {t' : HashTable ε κ} (hlinks : t'.links = s.t.links) {c : γ} {e : ε}
    (hmem : c ∈ s.owners e) : ∃ m, s.refs e = m + 1
      ∧ (lose { s with t := t' } c e).refs = Function.update s.refs e m := by
  have hlen : ((s.owners e).erase c).length + 1 = (s.owners e).length := by
    rw [List.length_erase_of_mem hmem]
    exact Nat.sub_add_cancel (List.length_pos_of_mem hmem)
  refine ⟨((s.owners e).erase c).length + if s.t.hashelmHashed e then 1 else 0, ?_, ?_⟩
  · unfold refs
    omega
  · funext e'
    unfold refs lose hashelmHashed
    dsimp only
    rw [hlinks]
    by_cases hee : e' = e
    · rw [hee, Function.update_self, Function.update_self]
    · rw [Function.update_of_ne hee, Function.update_of_ne hee]

omit [DecidableEq γ] in
/-- **`hashelm_hold`**, whatever the table is in the middle of. -/
theorem RefInv.hold (h : RefInv fuel (n + 1) s) (c : γ) {e : ε} (hpos : 0 < s.refs e)
    (hfits : (gain { s with t := s.t.hashelmHold e } c e).Fits) :
    RefInv fuel n (gain { s with t := s.t.hashelmHold e } c e) := by
  have hrefs := gain_refs (rfl : (s.t.hashelmHold e).links = s.t.links) c e
  have hlt := hfits e
  rw [hrefs, Function.update_self] at hlt
  refine ⟨?_, h.phase.same (setRefcount_same s.t e _) rfl rfl⟩
  rw [hrefs]
  exact h.counted.hold hpos hlt

/-- **`hashelm_put`** of a reference the client owns. -/
theorem RefInv.put (h : RefInv fuel (n + 1) s) {c : γ} {e : ε} (hmem : c ∈ s.owners e)
    (hht : s.refs e = 1 → (s.t.elm e).ht = true) :
    ∃ t', s.t.hashelmPut e = some t' ∧ RefInv fuel n (lose { s with t := t' } c e) := by
  obtain ⟨m, hm, -⟩ := lose_refs (rfl : s.t.links = s.t.links) hmem
  obtain ⟨t', hput, hsame, hcount⟩ := h.counted.put hm fun hzero => hht (by omega)
  refine ⟨t', hput, ?_, h.phase.same hsame rfl rfl⟩
  obtain ⟨m', hm', hrefs⟩ := lose_refs (s := s) hsame.links hmem
  rw [hrefs, show m' = m by omega]
  exact hcount

/-- The writes of `hashtable_hash`. -/
theorem Serving.hashWrite (h : Serving fuel (n + 1) s lists) (hc : s.t.Counted s.refs) {c : γ}
    {e : ε} {key : κ} (hpc : s.pc c = .hashWrite e key) :
    RefInv fuel n { s.goto c (.hash e key) with t := s.t.setKey e key } := by
  have hnot := h.pcs c
  rw [hpc] at hnot
  have hothers : ∀ c' e', c' ≠ c → (HashPc.hash e key).hashes = some e' →
      (s.pc c').hashes ≠ some e' := by
    intro c' e' hcc he he'
    exact hcc (h.alone c' c e' he' (hpc ▸ he))
  have helm : (s.t.setKey e key).elm e
      = { s.t.elm e with hash := s.t.hashfn key, ht := true, key := key } :=
    Function.update_self ..
  have hfields : ((s.t.setKey e key).elm e).key = key
      ∧ ((s.t.setKey e key).elm e).hash = s.t.hashfn key
      ∧ ((s.t.setKey e key).elm e).ht = true := by
    rw [helm]
    exact ⟨rfl, rfl, rfl⟩
  refine ⟨hc.congr (fun e' => ?_) rfl rfl, Or.inl ⟨lists, ?_⟩⟩
  · show (Function.update s.t.elm e _ e').refcount = _
    by_cases hee : e' = e
    · rw [hee, Function.update_self]
    · rw [Function.update_of_ne hee]
  · refine h.advance (h.working.later.setKey hnot key) rfl rfl (fun c' e' hcc he' hnot' => ?_)
      ⟨hnot, hfields⟩ hothers
    have hee : e' ≠ e := by
      rintro rfl
      exact hothers c' e' hcc rfl he'
    have hsame : (s.t.setKey e key).elm e' = s.t.elm e' := Function.update_of_ne hee _ _
    rw [hsame]
    exact ⟨hnot', rfl, rfl, rfl⟩

/-- **The locked part of `hashtable_hash`** gives the table a reference where it links
the element. -/
theorem Serving.hash (h : Serving fuel (n + 1) s lists) (hc : s.t.Counted s.refs) {c : γ} {e : ε}
    {key : κ} (hpc : s.pc c = .hash e key) (hpos : 0 < s.refs e) :
    ∃ r, s.t.hashSection fuel e key = some r
      ∧ (Fits { s.goto c .idle with t := r.2 } →
        RefInv fuel n { s.goto c .idle with t := r.2 }) := by
  have hseen := h.pcs c
  rw [hpc] at hseen
  obtain ⟨hnot, -, -, hht⟩ := hseen
  rcases h.working.hashSection key hnot hht with heq | ⟨slot, lists', heq, hworking, hlinked⟩
  · exact ⟨_, heq, fun _ => ⟨hc, Or.inl ⟨lists, h.goto trivial fun _ _ _ he => nomatch he⟩⟩⟩
  · have hsame : SameTable (s.t.addElm slot e) ((s.t.addElm slot e).hashelmHold e) :=
      setRefcount_same _ e _
    refine ⟨_, heq, fun hfits => ⟨?_, Or.inl ⟨lists', ?_⟩⟩⟩
    · have hrefs : HashSys.refs { s.goto c .idle with t := (s.t.addElm slot e).hashelmHold e }
          = Function.update s.refs e (s.refs e + 1) :=
        (hsame.refs _).trans (refs_link hnot hlinked _)
      have hlt := hfits e
      rw [hrefs, Function.update_self] at hlt
      rw [hrefs]
      have hc' : (s.t.addElm slot e).Counted s.refs := hc.congr (fun _ => rfl) rfl rfl
      exact hc'.hold hpos hlt
    · refine h.advance (hworking.same hsame) rfl rfl (fun c' e' hcc he' hnot' => ?_) trivial
        fun _ _ _ he => nomatch he
      -- nobody else is hashing the element that has entered
      have hee : e' ≠ e := by
        rintro rfl
        exact hcc (h.alone c' c e' he' (by rw [hpc]; rfl))
      have helm : ((s.t.addElm slot e).hashelmHold e).elm e' = s.t.elm e' :=
        setRefcount_elm_of_ne _ _ hee
      rw [helm, hsame.hashelmHashed]
      refine ⟨Bool.eq_false_iff.mpr fun hh => ?_, rfl, rfl, rfl⟩
      exact Bool.false_ne_true (hnot'.symm.trans (((hlinked e').mp hh).resolve_left hee))

/-- **The locked part of `hashtable_unhash`** puts the reference of the table. -/
theorem Serving.unhash (h : Serving fuel (n + 1) s lists) (hc : s.t.Counted s.refs) {c : γ}
    {e : ε} {slot : ℕ} (hpc : s.pc c = .unhash e slot) (hhashed : s.t.hashelmHashed e = true) :
    ∃ t', s.t.unhashSection slot e = some t'
      ∧ RefInv fuel n { s.goto c .idle with t := t' } := by
  have hlt : slot < s.t.slots := by
    have hpc' := h.pcs c
    rw [hpc] at hpc'
    exact hpc'
  obtain ⟨hht, lists', hworking, hlinked⟩ := h.working.later.delElm hhashed slot
  obtain ⟨hone, hrefs⟩ := refs_unlink hhashed hlinked fun e => (s.owners e).length
  have hc' : (s.t.delElm slot e).Counted s.refs := hc.congr (fun _ => rfl) rfl rfl
  obtain ⟨t', hput, hsame, hcount⟩ := hc'.put hone fun _ => hht
  refine ⟨t', ?_, ?_, Or.inl ⟨lists', ?_⟩⟩
  · rw [unhashSection, if_pos hlt, hput]
  · rw [refs_eq]
    show t'.Counted (t'.refs fun e => (s.owners e).length)
    rw [hsame.refs, hrefs]
    exact hcount
  · refine h.advance (hworking.same hsame) hsame.slots hsame.hashfn (fun c' e' _ _ hnot' => ?_)
      trivial fun _ _ _ he => nomatch he
    refine ⟨Bool.eq_false_iff.mpr fun hh => ?_, hsame.fields e'⟩
    rw [hsame.hashelmHashed] at hh
    exact Bool.false_ne_true (hnot'.symm.trans ((hlinked e').mp hh).2)

/-- **The locked part of `hashtable_lookup`** gives the client a reference to what it
finds. -/
theorem Serving.lookup (h : Serving fuel (n + 1) s lists) (hc : s.t.Counted s.refs) (c : γ)
    (key : κ) : ∃ r, s.t.hashtableLookup fuel key = some r ∧ match r.1 with
      | some e => Fits (gain { s.goto c .idle with t := r.2 } c e) →
          RefInv fuel n (gain { s.goto c .idle with t := r.2 } c e)
      | none => RefInv fuel n { s.goto c .idle with t := r.2 } := by
  rcases h.working.lookup key with heq | ⟨e, heq, hhashed⟩
  · exact ⟨_, heq, hc, Or.inl ⟨lists, h.goto trivial fun _ _ _ he => nomatch he⟩⟩
  · refine ⟨_, heq, fun hfits => ?_⟩
    have hpos : 0 < s.refs e := by
      unfold HashSys.refs
      rw [if_pos hhashed]
      exact Nat.succ_pos _
    have hlinks : (s.t.hashelmHold e).links = (s.goto c .idle).t.links := rfl
    have hrefs := gain_refs (s := s.goto c .idle) hlinks c e
    have hlt := hfits e
    rw [hrefs, Function.update_self] at hlt
    have hsame := setRefcount_same s.t e (i32 ((s.t.elm e).refcount + 1))
    refine ⟨?_, Or.inl ⟨lists, ?_⟩⟩
    · rw [hrefs]
      exact hc.hold hpos hlt
    · have hserving : Serving fuel n { s.goto c .idle with t := s.t.hashelmHold e } lists :=
        h.advance (h.working.later.same hsame) rfl rfl
          (fun _ e' _ _ hnot => ⟨hnot, hsame.fields e'⟩) trivial fun _ _ _ he => nomatch he
      exact ⟨hserving.working, hserving.closed, hserving.pcs, hserving.alone⟩

/-- **A step of a client while the table is in use.** -/
theorem Serving.access (h : Serving fuel (n + 1) s lists) (hc : s.t.Counted s.refs) {c : γ}
    (hp : s.Permitted (.access c)) :
    ∃ s', s.access fuel c = some s' ∧ (s'.Fits → RefInv fuel n s') := by
  rw [Permitted] at hp
  rw [HashSys.access]
  cases hpc : s.pc c with
  | idle =>
    rw [hpc] at hp
    exact hp.elim
  | hashTest e key =>
    dsimp only
    by_cases hh : s.t.hashelmHashed e = true
    · rw [if_pos hh]
      exact ⟨_, rfl, fun _ => ⟨hc, Or.inl ⟨lists, h.goto trivial fun _ _ _ he => nomatch he⟩⟩⟩
    · rw [if_neg hh]
      refine ⟨_, rfl, fun _ => ⟨hc, Or.inl ⟨lists, h.goto (Bool.eq_false_iff.mpr hh)
        fun c' e' hcc he he' => ?_⟩⟩⟩
      exact hcc (h.alone c' c e' he' (hpc ▸ he))
  | hashWrite e key => exact ⟨_, rfl, fun _ => h.hashWrite hc hpc⟩
  | hash e key =>
    rw [hpc] at hp
    obtain ⟨r, heq, hr⟩ := h.hash hc hpc hp
    exact ⟨_, Option.map_eq_some_iff.mpr ⟨_, heq, rfl⟩, hr⟩
  | unhashRead e =>
    exact ⟨_, rfl, fun _ => ⟨hc, Or.inl ⟨lists, h.goto (h.working.filed.getSlot_lt _)
      fun _ _ _ he => nomatch he⟩⟩⟩
  | unhash e slot =>
    rw [hpc] at hp
    obtain ⟨t', heq, hinv⟩ := h.unhash hc hpc hp
    exact ⟨_, Option.map_eq_some_iff.mpr ⟨_, heq, rfl⟩, fun _ => hinv⟩
  | lookup key =>
    obtain ⟨⟨r, t'⟩, heq, hr⟩ := h.lookup hc c key
    cases r with
    | none => exact ⟨_, Option.map_eq_some_iff.mpr ⟨_, heq, rfl⟩, fun _ => hr⟩
    | some e => exact ⟨_, Option.map_eq_some_iff.mpr ⟨_, heq, rfl⟩, hr⟩
  | fini slot =>
    have hfalse := h.pcs c
    rw [hpc] at hfalse
    exact hfalse.elim

/-- **A step of `hashtable_fini`.** -/
theorem Closing.access {c : γ} {slot : ℕ} (h : Closing fuel (n + 1) s lists c slot)
    (hc : s.t.Counted s.refs) : ∃ s', s.access fuel c = some s' ∧ RefInv fuel n s' := by
  have hslots := h.working.filed.slots_eq
  have hmask := h.working.mask
  have hle := h.le
  have hidle : ∀ pc, ∀ c' ≠ c, (s.goto c pc).pc c' = .idle := by
    intro pc c' hcc
    rw [goto_pc_of_ne _ _ hcc]
    exact h.idle c' hcc
  unfold HashSys.access
  rw [h.pc]
  dsimp only
  by_cases hlast : slot ≤ s.t.mask.toNat
  · rw [if_pos hlast, if_pos (by omega)]
    rw [refs_eq] at hc
    obtain ⟨t', heq, hworking, hcount, hslots', -⟩ :=
      h.working.later.finiSection_eq hc (i := slot) (by omega)
    refine ⟨_, Option.map_eq_some_iff.mpr ⟨_, heq, rfl⟩, hcount, Or.inr (Or.inl
      ⟨_, c, slot + 1, hworking, h.closed, goto_pc_self s c _, hidle _, ?_, fun i hi => ?_⟩)⟩
    · show slot + 1 ≤ t'.slots
      omega
    · rw [Function.update_apply]
      split
      · rfl
      · exact h.empty i (by omega)
  · rw [if_neg hlast]
    have hnone : ∀ e, e ∉ visited s.t.slots lists := by
      intro e hmem
      obtain ⟨i, hi, hmem⟩ := mem_visited.mp hmem
      rw [h.empty i (by omega)] at hmem
      exact List.not_mem_nil hmem
    refine ⟨_, rfl, hc.congr (fun _ => rfl) rfl rfl, Or.inr (Or.inr ⟨h.closed, fun c' => ?_,
      fun e => ?_⟩)⟩
    · by_cases hcc : c' = c
      · rw [hcc]
        exact goto_pc_self s c _
      · exact hidle _ c' hcc
    · show s.t.hashelmHashed e = false
      rw [← Bool.not_eq_true, h.working.filed.hashed_iff]
      exact hnone e

/-- **Every step that is permitted** returns, and keeps the counts right. -/
theorem RefInv.step (h : RefInv fuel (n + 1) s) {ev : HashEvent ε κ γ} (hp : s.Permitted ev) :
    ∃ s', s.step fuel ev = some s' ∧ (s'.Fits → RefInv fuel n s') := by
  cases ev with
  | hold c e =>
    refine ⟨_, ?_, h.hold c hp.2⟩
    rw [HashSys.step, hp.1]
  | put c e =>
    obtain ⟨t', hput, hinv⟩ := h.put hp.2.1 hp.2.2
    refine ⟨_, ?_, fun _ => hinv⟩
    rw [HashSys.step, hp.1]
    exact Option.map_eq_some_iff.mpr ⟨_, hput, rfl⟩
  | callHash c e key =>
    obtain ⟨lists, hx⟩ := h.serving hp.2.1
    refine ⟨s.goto c (.hashTest e key), by rw [HashSys.step, hp.1], fun _ =>
      ⟨h.counted, Or.inl ⟨lists, hx.goto trivial ?_⟩⟩⟩
    intro c' e' _ he
    obtain rfl : e = e' := Option.some.inj he
    exact hp.2.2 c'
  | callUnhash c e =>
    obtain ⟨lists, hx⟩ := h.serving hp.2
    exact ⟨s.goto c (.unhashRead e), by rw [HashSys.step, hp.1], fun _ =>
      ⟨h.counted, Or.inl ⟨lists, hx.goto trivial fun _ _ _ he => nomatch he⟩⟩⟩
  | callLookup c key =>
    obtain ⟨lists, hx⟩ := h.serving hp.2
    exact ⟨s.goto c (.lookup key), by rw [HashSys.step, hp.1], fun _ =>
      ⟨h.counted, Or.inl ⟨lists, hx.goto trivial fun _ _ _ he => nomatch he⟩⟩⟩
  | callFini c =>
    obtain ⟨lists, hx⟩ := h.serving hp.1
    refine ⟨{ s.goto c (.fini 0) with closed := true }, by rw [HashSys.step, hp.2 c], fun _ =>
      ⟨h.counted, Or.inr (Or.inl ⟨lists, c, 0, ?_⟩)⟩⟩
    refine ⟨hx.working.later, rfl, goto_pc_self s c _, fun c' hcc => ?_, Nat.zero_le _,
      fun i hi => absurd hi (Nat.not_lt_zero i)⟩
    show (s.goto c (.fini 0)).pc c' = .idle
    rw [goto_pc_of_ne _ _ hcc]
    exact hp.2 c'
  | access c =>
    rcases h.phase with ⟨lists, hx⟩ | ⟨lists, c', slot, hx⟩ | hx
    · exact hx.access h.counted hp
    · by_cases hcc : c = c'
      · subst hcc
        obtain ⟨s', heq, hinv⟩ := hx.access h.counted
        exact ⟨s', heq, fun _ => hinv⟩
      · rw [Permitted, hx.idle c hcc] at hp
        exact hp.elim
    · rw [Permitted, hx.idle c] at hp
      exact hp.elim

/-! ## The runs -/

/-- A new table with initialised elements, each with one reference, owned by a client,
and no client in a function. -/
structure Starts (size : UInt32) (hashfn : κ → UInt32) (equalfn : HashElm κ → κ → Bool)
    (freefn : Bool) (s : HashSys ε κ γ) : Prop where
  table : ∃ links elm, (∀ e, Initialised links elm e)
    ∧ hashtableInit size hashfn equalfn freefn links elm true = some (some s.t)
  owners : ∀ e, ∃ c, s.owners e = [c]
  idle : ∀ c, s.pc c = .idle
  closed : s.closed = false

/-- **The counts of the elements**: each is the number of references there are, and
`freefn`, if there is one, has been called once on the elements that have none left and
not on the others. -/
def RefsRight (s : HashSys ε κ γ) : Prop :=
  ∀ e, (s.t.elm e).refcount = s.refs e
    ∧ s.t.freed e = if s.refs e = 0 ∧ s.t.freefn = true then 1 else 0

omit [DecidableEq γ] in
theorem refsRight_of_counted (h : s.t.Counted s.refs) : s.RefsRight := by
  intro e
  refine ⟨h.refcount e, ?_⟩
  by_cases hzero : s.refs e = 0
  · rw [h.unused e hzero]
    simp only [hzero, true_and]
  · rw [h.used e (Nat.pos_of_ne_zero hzero), if_neg fun hz => hzero hz.1]

omit [DecidableEq γ] in
/-- A new table, with the sizes it can have. -/
theorem Starts.fresh {size : UInt32} {hashfn : κ → UInt32} {equalfn : HashElm κ → κ → Bool}
    {freefn : Bool} (h : Starts size hashfn equalfn freefn s) :
    ∃ links elm, (∀ e, Initialised links elm e)
      ∧ Fresh hashfn equalfn freefn links elm (size - 1) size.toNat size.toNat s.t
      ∧ (size - 1).toNat + 1 = size.toNat ∧ size.toNat < 2 ^ 31 := by
  obtain ⟨links, elm, helm, heq⟩ := h.table
  obtain ⟨-, hmask, -⟩ := hashtableInit_loop heq
  obtain ⟨hpos, hlt⟩ := size_of_mask hmask
  obtain ⟨t, heq', hfresh, hslots⟩ :=
    @hashtableInit_fresh ε κ _ hashfn equalfn freefn links elm size hpos hlt
  obtain rfl : t = s.t := Option.some.inj (Option.some.inj (heq'.symm.trans heq))
  exact ⟨links, elm, helm, hfresh, hslots, hlt⟩

omit [DecidableEq γ] in
theorem Starts.refInv {size : UInt32} {hashfn : κ → UInt32} {equalfn : HashElm κ → κ → Bool}
    {freefn : Bool} (h : Starts size hashfn equalfn freefn s) (hn : n < fuel) :
    RefInv fuel n s := by
  obtain ⟨links, elm, helm, hfresh, hslots, hlt⟩ := h.fresh
  have hfiled := hfresh.filed hslots fun e => (helm e).alone
  have hnone : ∀ e, s.t.hashelmHashed e = false := by
    intro e
    rw [← Bool.not_eq_true, hfiled.hashed_iff, mem_visited]
    exact fun ⟨_, _, hmem⟩ => List.not_mem_nil hmem
  have hone : ∀ e, s.refs e = 1 := by
    intro e
    obtain ⟨c, hc⟩ := h.owners e
    unfold HashSys.refs
    rw [hc, hnone]
    rfl
  refine ⟨⟨fun e => ?_, fun e _ => ?_, fun e hzero => ?_, fun e => ?_⟩,
    Or.inl ⟨_, ⟨hfiled, ?_, fun _ => ?_⟩, h.closed, fun c => ?_, fun c c' e he => ?_⟩⟩
  · rw [hone, hfresh.fields]
    exact (helm e).refcount
  · rw [hfresh.fields]
  · rw [hone] at hzero
    exact absurd hzero Nat.one_ne_zero
  · rw [hone]
    decide
  · rw [hfresh.fields]
    exact hslots.trans_lt hlt
  · rwa [List.length_nil, Nat.zero_add]
  · rw [h.idle]
    exact trivial
  · rw [h.idle] at he
    exact nomatch he

/-- **The references to the elements**: in every interleaving of clients that keep to
what they have to, in which no element ever has `2^31` references, every step returns
and the counts are right in every state. -/
theorem hashelm_refs_run (size : UInt32) (hashfn : κ → UInt32)
    (equalfn : HashElm κ → κ → Bool) (freefn : Bool)
    (hs : Starts size hashfn equalfn freefn s) (evs : List (HashEvent ε κ γ))
    (hfuel : evs.length < fuel) (hpermitted : Meets (step fuel) Permitted s evs)
    (hfits : Along (step fuel) Fits s evs) :
    (∃ s', run (step fuel) s evs = some s') ∧ Along (step fuel) RefsRight s evs := by
  have hinv : RefInv fuel evs.length s := hs.refInv hfuel
  have hkeep : ∀ ev (es : List (HashEvent ε κ γ)) (u : HashSys ε κ γ),
      RefInv fuel (ev :: es).length u → Permitted u ev →
      ∃ u', step fuel u ev = some u' ∧ (Fits u' → RefInv fuel es.length u') :=
    fun _ _ _ h hp => h.step hp
  obtain ⟨⟨s', hrun, -⟩, hright⟩ := Run.total_within (J := fun es u => RefInv fuel es.length u)
    (fun _ _ h => refsRight_of_counted h.counted) hkeep hinv hpermitted hfits
  exact ⟨⟨s', hrun⟩, hright⟩

/-- A new table with two slots and two clients, the first of which owns the references
to the elements. -/
def refStart (ε : Type) [DecidableEq ε] : HashSys ε ℕ Bool :=
  ⟨((hashtableInit 2 UInt32.ofNat (fun he k => he.key == k) true (aloneLinks ε) (newElms ε)
    true).join).get rfl, fun _ => [false], fun _ => .idle, false⟩

omit [DecidableEq γ] in
theorem refStart_starts : (refStart ε).Starts 2 UInt32.ofNat (fun he k => he.key == k) true :=
  ⟨⟨aloneLinks ε, newElms ε, newElms_initialised, rfl⟩, fun _ => ⟨false, rfl⟩, fun _ => rfl, rfl⟩

/-- An element is hashed by one client and looked up by the other, which unhashes it
when the first has put its reference, puts its own, and closes the table. -/
def refLife : List (HashEvent Bool ℕ Bool) :=
  [.callHash false true 5, .access false, .access false, .access false, .callLookup true 5,
    .access true, .put false true, .callUnhash true true, .access true, .access true,
    .put true true, .callFini true, .access true, .access true, .access true]

theorem hashelm_refs_run_life :
    (∃ s', run (step 20) (refStart Bool) refLife = some s' ∧ s'.t.freed true = 1)
      ∧ Along (step 20) RefsRight (refStart Bool) refLife := by
  exact ⟨⟨_, rfl, rfl⟩, (hashelm_refs_run 2 UInt32.ofNat (fun he k => he.key == k) true
    refStart_starts refLife (by decide) (by decide +kernel) (by decide +kernel)).2⟩

/-- A client puts a reference, and the count gets to zero. -/
theorem put_frees {c : γ} {e : ε} {s : HashSys ε κ γ}
    (hput : i32 ((s.t.elm e).refcount - 1) = 0) (hht : (s.t.elm e).ht = true)
    (hfn : s.t.freefn = true) (hhashed : s.t.hashelmHashed e = true) (hidle : s.pc c = .idle)
    (hmem : c ∈ s.owners e) :
    Meets (step fuel) Permitted s [.put c e]
      ∧ ∃ s', run (step fuel) s [.put c e] = some s' ∧ s'.t.hashelmHashed e = true
        ∧ (s'.owners e).length + 1 = (s.owners e).length ∧ s'.t.freed e = s.t.freed e + 1 := by
  have heq := hashelmPut_eq (t := s.t) (e := e) fun _ => hht
  rw [if_pos hput] at heq
  refine ⟨⟨⟨hidle, hmem, fun _ => hht⟩, fun _ _ => trivial⟩,
    lose { s with t := (s.t.setRefcount e (i32 ((s.t.elm e).refcount - 1))).callFreefn e } c e,
    ?_, ?_, ?_, ?_⟩
  · rw [Run.run_cons, step, hidle]
    dsimp only
    rw [heq]
    rfl
  · refine Eq.trans ?_ hhashed
    exact ((setRefcount_same s.t e _).trans (callFreefn_same _ e)).hashelmHashed e
  · show (Function.update s.owners e ((s.owners e).erase c) e).length + 1 = _
    rw [Function.update_self, List.length_erase_of_mem hmem]
    exact Nat.sub_add_cancel (List.length_pos_of_mem hmem)
  · show (callFreefn _ e).freed e = _
    rw [callFreefn_freed, if_pos ⟨rfl, hfn⟩]
    rfl

/-- A client takes `m` references to an element of the table and puts one. The element
is freed where that takes the count to zero, whatever references there are. -/
theorem holds_then_put {c : γ} {e : ε} (m : ℕ) {s : HashSys ε κ γ} {k : ℤ}
    (hcount : (s.t.elm e).refcount = i32 k) (hzero : i32 (k + m - 1) = 0)
    (hht : (s.t.elm e).ht = true) (hfn : s.t.freefn = true)
    (hhashed : s.t.hashelmHashed e = true) (hidle : s.pc c = .idle) (hmem : c ∈ s.owners e) :
    Meets (step fuel) Permitted s (List.replicate m (.hold c e) ++ [.put c e])
      ∧ ∃ s', run (step fuel) s (List.replicate m (.hold c e) ++ [.put c e]) = some s'
        ∧ s'.t.hashelmHashed e = true ∧ (s'.owners e).length + 1 = (s.owners e).length + m
        ∧ s'.t.freed e = s.t.freed e + 1 := by
  induction m generalizing s k with
  | zero =>
    have hput : i32 ((s.t.elm e).refcount - 1) = 0 := by
      have hsub : i32 (i32 k - 1) = i32 (k - 1) := Int.bmod_sub_bmod
      rw [hcount, hsub, ← hzero]
      exact congrArg i32 (by omega)
    exact put_frees hput hht hfn hhashed hidle hmem
  | succ m ih =>
    have hpos : 0 < s.refs e :=
      Nat.lt_of_lt_of_le (List.length_pos_of_mem hmem) (Nat.le_add_right _ _)
    have hstep : step fuel s (.hold c e) = some (gain { s with t := s.t.hashelmHold e } c e) := by
      rw [step, hidle]
    have helm : (s.t.hashelmHold e).elm e
        = { s.t.elm e with refcount := i32 ((s.t.elm e).refcount + 1) } :=
      setRefcount_elm_self ..
    have hcount' : ((s.t.hashelmHold e).elm e).refcount = i32 (k + 1) := by
      rw [helm, hcount]
      exact Int.bmod_add_bmod
    have hht' : ((s.t.hashelmHold e).elm e).ht = true := by
      rw [helm]
      exact hht
    have howners : (gain { s with t := s.t.hashelmHold e } c e).owners e = c :: s.owners e :=
      Function.update_self ..
    have hzero' : i32 (k + 1 + m - 1) = 0 := by
      rw [← hzero]
      exact congrArg i32 (by omega)
    obtain ⟨hmeets, s', hrun, hhashed', hlen, hfreed⟩ :=
      ih (s := gain { s with t := s.t.hashelmHold e } c e) hcount' hzero' hht' hfn hhashed hidle
        (by rw [howners]; exact List.mem_cons_self)
    rw [List.replicate_succ, List.cons_append]
    refine ⟨(Run.meets_cons hstep).mpr ⟨⟨hidle, hpos⟩, hmeets⟩, s', ?_, hhashed', ?_, hfreed⟩
    · rw [Run.run_cons, hstep, Option.bind_some, hrun]
    · rw [hlen, howners, List.length_cons]
      omega

/-- An element is hashed. -/
def refHash : List (HashEvent ℕ ℕ Bool) :=
  [.callHash false 0 5, .access false, .access false, .access false]

/-- **A count that wraps around**: an element of the table with `2^32` references, of
which a client puts one. It is freed while it is in the table and the client owns
`2^32 - 1` references to it. -/
theorem hashelm_refs_wrap : ∃ evs : List (HashEvent ℕ ℕ Bool),
    (refStart ℕ).Starts 2 UInt32.ofNat (fun he k => he.key == k) true
      ∧ Meets (step 2) Permitted (refStart ℕ) evs
      ∧ ∃ s', run (step 2) (refStart ℕ) evs = some s' ∧ s'.t.hashelmHashed 0 = true
        ∧ (s'.owners 0).length = 2 ^ 32 - 1 ∧ s'.t.freed 0 = 1 := by
  obtain ⟨s, hs, hmeets, hcount, hht, hfn, hhashed, hidle, howners, hfreed⟩ :
      ∃ s, run (step 2) (refStart ℕ) refHash = some s
        ∧ Meets (step 2) Permitted (refStart ℕ) refHash
        ∧ (s.t.elm 0).refcount = i32 2 ∧ (s.t.elm 0).ht = true ∧ s.t.freefn = true
        ∧ s.t.hashelmHashed 0 = true ∧ s.pc false = .idle ∧ s.owners 0 = [false]
        ∧ s.t.freed 0 = 0 :=
    ⟨_, rfl, by decide +kernel, rfl, rfl, rfl, rfl, rfl, rfl, rfl⟩
  obtain ⟨hmeets', s', hrun, hhashed', hlen, hfreed'⟩ := holds_then_put (2 ^ 32 - 1)
    hcount (by decide +kernel) hht hfn hhashed hidle (by rw [howners]; exact List.mem_cons_self)
  refine ⟨_, refStart_starts, Run.meets_append hmeets hs hmeets', s', ?_, hhashed', ?_, ?_⟩
  · rw [Run.run_append, hs, Option.bind_some, hrun]
  · rw [howners] at hlen
    exact Nat.succ.inj (hlen.trans (by rfl))
  · rw [hfreed', hfreed]

end HashSys
