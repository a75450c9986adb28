import Ckit.HeapWrap
import Mathlib.Data.Nat.Log
import Mathlib.Tactic.Ring

/-!
# What the heap costs

The logs of the operations, counted. The loop of `heap_insert` halves its position, so that
it makes `Nat.log 2 (size + 1)` rounds at most, with seven accesses each; `heap_heapify`
doubles it, and at most `Nat.log 2 (size / (i + 1))` calls, with sixteen each, are above
the one that stops. Both bounds are for every comparison, consistent or not.

What is left is the growth. `heap_increase_size` copies the slots in use, and it adds a
constant number of slots, `heapDefaultIncreaseSize`. So the copies of a run add up to a
square: after `k` growths from `m` slots they are exactly `copied m k`, and the run makes
as many accesses as that, and no more than a logarithm for each call on top
(`heap_run_cost`).
-/

namespace Heap

variable {ι β : Type} [DecidableEq ι] {h : Heap ι β}

/-! ## Halving and doubling -/

/-- The parent of a position is one level up. -/
theorem log_parent {i : ℕ} (hi : 0 < i) :
    Nat.log 2 ((i - 1) / 2 + 1) + 1 = Nat.log 2 (i + 1) := by
  have hhalf : (i - 1) / 2 + 1 = (i + 1) / 2 := by omega
  rw [hhalf, ← Nat.log_of_one_lt_of_le Nat.one_lt_two (by omega)]

/-- The levels below position `i` with `n` positions in use. -/
def levels (n i : ℕ) : ℕ := Nat.log 2 (n / (i + 1))

/-- A child in use is one level down. -/
theorem levels_child {n i c : ℕ} (hc : IsChild c i) (hcs : c < n) :
    levels n c + 1 ≤ levels n i := by
  have hdouble : 2 * (i + 1) ≤ c + 1 := by
    have hcases := isChild_iff.mp hc
    omega
  have hle : n / (c + 1) ≤ n / (i + 1) / 2 := by
    rw [Nat.div_div_eq_div_mul, Nat.mul_comm]
    exact Nat.div_le_div_left hdouble (by omega)
  have htwo : 2 ≤ n / (i + 1) := by
    rw [Nat.le_div_iff_mul_le (Nat.succ_pos i)]
    omega
  unfold levels
  rw [Nat.log_of_one_lt_of_le Nat.one_lt_two htwo]
  exact Nat.add_le_add_right (Nat.log_mono_right hle) 1

/-! ## The loops -/

omit [DecidableEq ι] in
/-- A test makes four accesses at most. -/
theorem length_logSmaller_le (i : ℕ) (c s : ℕ × Role) : (h.logSmaller i c s).log.length ≤ 4 := by
  unfold logSmaller
  by_cases hc : c.1 < h.size
  · rw [if_pos hc]
    refine Traced.length_log_bind_le (j := 1) (k := 3) le_rfl fun p _ => ?_
    refine Traced.length_log_bind_le (j := 1) (k := 2) le_rfl fun q _ => ?_
    exact Traced.length_log_bind_le (j := 2) (k := 0) le_rfl fun b _ => le_rfl
  · rw [if_neg hc]
    exact Nat.zero_le 4

omit [DecidableEq ι] in
/-- A test settles on the child where that is in use, or on what it had. -/
theorem logSmaller_outcome {i : ℕ} {c s t : ℕ × Role} (ht : (h.logSmaller i c s).outcome = some t) :
    t = s ∨ t = c ∧ c.1 < h.size := by
  unfold logSmaller at ht
  by_cases hc : c.1 < h.size
  · rw [if_pos hc, Traced.outcome_bind] at ht
    obtain ⟨p, -, ht⟩ := Option.bind_eq_some_iff.mp ht
    rw [Traced.outcome_bind] at ht
    obtain ⟨q, -, ht⟩ := Option.bind_eq_some_iff.mp ht
    rw [Traced.outcome_bind] at ht
    obtain ⟨b, -, ht⟩ := Option.bind_eq_some_iff.mp ht
    obtain rfl : (if b = true then c else s) = t := Option.some.inj ht
    cases b with
    | true => exact Or.inr ⟨rfl, hc⟩
    | false => exact Or.inl rfl
  · rw [if_neg hc] at ht
    exact Or.inl (Option.some.inj ht).symm

omit [DecidableEq ι] in
/-- A write to a slot. -/
theorem set_size {k : ℕ} {p : ι} {h' : Heap ι β} (heq : h.set k p = some h') :
    h'.size = h.size := by
  rw [(eq_of_set heq).2]

/-- An exchange makes eight accesses at most. -/
theorem length_logExchange_le (c : ℕ × Role) (i : ℕ) : (h.logExchange c i).log.length ≤ 8 := by
  unfold logExchange
  refine Traced.length_log_bind_le (j := 1) (k := 7) le_rfl fun tmp _ => ?_
  refine Traced.length_log_bind_le (j := 1) (k := 6) le_rfl fun q _ => ?_
  refine Traced.length_log_bind_le (j := 1) (k := 5) le_rfl fun h₁ _ => ?_
  refine Traced.length_log_bind_le (j := 1) (k := 4) le_rfl fun q' _ => ?_
  refine Traced.length_log_bind_le (j := 1) (k := 3) le_rfl fun h₂ _ => ?_
  refine Traced.length_log_bind_le (j := 1) (k := 2) le_rfl fun h₃ _ => ?_
  exact Traced.length_log_bind_le (j := 1) (k := 1) le_rfl fun tmp' _ => le_rfl

/-- It is an exchange of two slots of the array. -/
theorem logExchange_size {c : ℕ × Role} {i : ℕ} {h' : Heap ι β}
    (heq : (h.logExchange c i).outcome = some h') : h'.size = h.size := by
  rw [outcome_logExchange] at heq
  by_cases hc : c.1 < h.slots
  · by_cases hi : i < h.slots
    · rw [exchange_eq hc hi] at heq
      exact Option.some.inj heq ▸ swapAt_size h c.1 i
    · unfold exchange at heq
      rw [get_of_lt hc, show h.get i = none from if_neg hi] at heq
      exact absurd heq (Option.some_ne_none h').symm
  · unfold exchange at heq
    rw [show h.get c.1 = none from if_neg hc] at heq
    exact absurd heq (Option.some_ne_none h').symm

/-- **The way down** makes sixteen accesses a level, and eight where it stops. -/
theorem length_logHeapify_le (fuel : ℕ) {i : ℕ} (hs : h.size < 2 ^ 31) (hi : 2 * i + 2 < 2 ^ 32) :
    (logHeapify fuel h i).log.length ≤ 16 * levels h.size i + 8 := by
  induction fuel generalizing h i with
  | zero => exact Nat.zero_le _
  | succ fuel ih =>
    have hl : u32 (2 * i + 1) = 2 * i + 1 := u32_of_lt (by omega)
    have hr : u32 (2 * i + 1 + 1) = 2 * i + 2 := u32_of_lt hi
    have height : 16 * levels h.size i + 8 = 4 + (4 + 16 * levels h.size i) := by omega
    rw [logHeapify, hl, hr, height]
    refine Traced.length_log_bind_le (j := 4) (length_logSmaller_le i _ _) fun s hsm => ?_
    refine Traced.length_log_bind_le (j := 4) (length_logSmaller_le i _ _) fun t htm => ?_
    by_cases hti : t.1 = i
    · rw [if_pos hti]
      exact Nat.zero_le _
    -- what the two tests settled on is a child in use
    obtain ⟨hchild, hts⟩ : IsChild t.1 i ∧ t.1 < h.size := by
      rcases logSmaller_outcome htm with rfl | ⟨rfl, hlt⟩
      · rcases logSmaller_outcome hsm with rfl | ⟨rfl, hlt⟩
        · exact absurd rfl hti
        · exact ⟨isChild_left i, hlt⟩
      · exact ⟨isChild_right i, hlt⟩
    have hlevel := levels_child hchild hts
    have hbound : 8 + (16 * levels h.size t.1 + 8) ≤ 16 * levels h.size i := by omega
    rw [if_neg hti]
    refine le_trans (Traced.length_log_bind_le (length_logExchange_le t i) fun h' hex => ?_) hbound
    rw [← logExchange_size hex] at hs hts ⊢
    exact ih hs (by omega)

/-- **The way up** makes seven accesses a level. -/
theorem length_logInsertLoop_le (fuel : ℕ) (item : ι) (i : ℕ) :
    (logInsertLoop fuel h item i).log.length ≤ 7 * Nat.log 2 (i + 1) := by
  induction fuel generalizing h i with
  | zero => exact Nat.zero_le _
  | succ fuel ih =>
    rw [logInsertLoop]
    by_cases hi : 0 < i
    · have hparent : u32 (i - 1) / 2 ≤ (i - 1) / 2 := Nat.div_le_div_right (Nat.mod_le _ _)
      have hlog := log_parent hi
      have hmono : Nat.log 2 (u32 (i - 1) / 2 + 1) ≤ Nat.log 2 ((i - 1) / 2 + 1) :=
        Nat.log_mono_right (Nat.add_le_add_right hparent 1)
      have hbound : 1 + (2 + (1 + (1 + (1 + (1 + 7 * Nat.log 2 (u32 (i - 1) / 2 + 1))))))
          ≤ 7 * Nat.log 2 (i + 1) := by
        omega
      rw [if_pos hi]
      refine le_trans (Traced.length_log_bind_le (j := 1) le_rfl fun p _ => ?_) hbound
      refine Traced.length_log_bind_le (j := 2) le_rfl fun less _ => ?_
      cases less with
      | false => exact Nat.zero_le _
      | true =>
        refine Traced.length_log_bind_le (j := 1) le_rfl fun p' _ => ?_
        refine Traced.length_log_bind_le (j := 1) le_rfl fun h₁ _ => ?_
        refine Traced.length_log_bind_le (j := 1) le_rfl fun q _ => ?_
        exact Traced.length_log_bind_le (j := 1) le_rfl fun h₂ _ => ih _
    · rw [if_neg hi]
      exact Nat.zero_le _

/-! ## The operations -/

theorem length_logInsertPlace_le (item : ι) :
    (h.logInsertPlace item).log.length ≤ 7 * Nat.log 2 (h.size + 1) + 3 := by
  unfold logInsertPlace
  refine Traced.length_log_bind_le (length_logInsertLoop_le _ item h.size) fun hj _ => ?_
  refine Traced.length_log_bind_le (j := 1) (k := 2) le_rfl fun h₁ _ => ?_
  exact Traced.length_log_bind_le (j := 1) (k := 1) le_rfl fun h₂ _ => le_rfl

/-- **A removal** makes sixteen accesses for each level below the position, and thirteen
more. -/
theorem length_logRemove_le (hs : h.size < 2 ^ 31) (index : ℕ) :
    (h.logRemove index).log.length ≤ 16 * levels (h.size - 1) index + 13 := by
  unfold logRemove
  by_cases hge : h.size ≤ index
  · rw [if_pos hge]
    exact Nat.zero_le _
  rw [if_neg hge]
  have hbound : 1 + (1 + (1 + (16 * levels (h.size - 1) index + 8 + 2)))
      ≤ 16 * levels (h.size - 1) index + 13 := by
    omega
  refine le_trans (Traced.length_log_bind_le (j := 1) le_rfl fun item _ => ?_) hbound
  refine Traced.length_log_bind_le (j := 1) le_rfl fun last _ => ?_
  refine Traced.length_log_bind_le (j := 1) le_rfl fun h₁ hset => ?_
  have hsize : h₁.size = h.size - 1 := set_size hset
  refine Traced.length_log_bind_le ?_ fun h₂ _ => ?_
  · rw [← hsize]
    exact length_logHeapify_le _ (by omega) (by omega)
  · exact Traced.length_log_bind_le (j := 1) (k := 1) le_rfl fun h₃ _ => le_rfl

omit [DecidableEq ι] in
/-- **The copy** reads each slot in use and writes it. -/
theorem length_logIncreaseSize (n : ℕ) (garbage : ℕ → ι) :
    (h.logIncreaseSize n (some garbage)).log.length = 2 * h.size := by
  have hlog : (h.logIncreaseSize n (some garbage)).log = (List.range h.size).flatMap fun k =>
      [.slot k h.slots k .own, .slot k (u32 (h.maxSize + n)) k .own] := rfl
  rw [hlog, List.length_flatMap]
  show ((List.range h.size).map fun _ => 2).sum = 2 * h.size
  rw [List.map_const', List.sum_replicate_nat, List.length_range, Nat.mul_comm]

/-- The accesses of a call but for the copying: sixteen a level of the heap, and thirteen. -/
def stepCost (n : ℕ) : ℕ := 16 * Nat.log 2 n + 13

/-- **What a call costs.** It stays within the logarithm; or it is an insertion that finds
the heap full, and copies what is in it first. -/
structure Costs (h : Heap ι β) (op : HeapOp ι) (h' : Heap ι β) : Prop where
  outcome : (h.logStep op).outcome = some h'
  wf : h'.WF
  size_le : h'.size ≤ h.size + 1
  cost : h'.maxSize = h.maxSize ∧ (h.logStep op).log.length ≤ stepCost (h.size + 1)
    ∨ h.size = h.maxSize ∧ h'.maxSize = h.maxSize + heapDefaultIncreaseSize
      ∧ 2 * h.size ≤ (h.logStep op).log.length
      ∧ (h.logStep op).log.length ≤ 2 * h.size + stepCost (h.size + 1)

/-- The part of `heap_insert` after the heap has room. -/
theorem logInsertPlace_spec (hw : h.WF) (hroom : h.size < h.maxSize) (item : ι) :
    ∃ h', (h.logInsertPlace item).outcome = some h' ∧ h'.WF ∧ h'.size = h.size + 1
      ∧ h'.maxSize = h.maxSize
      ∧ (h.logInsertPlace item).log.length ≤ stepCost (h.size + 1) := by
  obtain ⟨h₁, j, hrise, hplace⟩ := insertPlace_eq hw hroom item
  have hself : Room h h := ⟨hw, hroom, rfl, rfl, rfl, rfl, fun _ _ => rfl⟩
  have hins := inserted_of_rises hself hrise
  refine ⟨h₁.place item j, (outcome_logInsertPlace h item).trans hplace, hins.wf, hins.size,
    hrise.shape.maxSize, ?_⟩
  refine (length_logInsertPlace_le item).trans ?_
  unfold stepCost
  omega

/-- An insertion that has room. -/
theorem insert_costs_room (hw : h.WF) (hfull : ¬ h.heapFull = true) (item : ι)
    (alloc : Option (ℕ → ι)) : ∃ h', h.Costs (.insert item alloc) h' := by
  have hroom : h.size < h.maxSize := Nat.not_le.mp fun hle => hfull (decide_eq_true hle)
  obtain ⟨h', hout, hwf, hsize, hmax, hlen⟩ := logInsertPlace_spec hw hroom item
  have hins : (h.logInsert item alloc).outcome = some (0, h')
      ∧ (h.logInsert item alloc).log.length = (h.logInsertPlace item).log.length := by
    unfold logInsert
    rw [if_neg hfull, Traced.outcome_bind, hout, Traced.length_log_bind hout]
    exact ⟨rfl, rfl⟩
  refine ⟨h', ?_, hwf, hsize.le, Or.inl ⟨hmax, ?_⟩⟩
  · show (h.logInsert item alloc).outcome.bind (fun rh => some rh.2) = _
    rw [hins.1]
    rfl
  · refine le_trans (le_of_eq ?_) hlen
    exact (Traced.length_log_bind hins.1).trans hins.2

/-- An insertion into a full heap. -/
theorem insert_costs_full (hw : h.WF) (hs : h.size < 2 ^ 31) (hfull : h.heapFull = true) (item : ι)
    (garbage : ℕ → ι) : ∃ h', h.Costs (.insert item (some garbage)) h' := by
  have heq : h.size = h.maxSize := Nat.le_antisymm hw.size_le (of_decide_eq_true hfull)
  have hmax := grows_of_lt hs (some garbage) hfull rfl
  have hroom := grown_room hw hmax garbage
  have hgrow : (h.logIncreaseSize heapDefaultIncreaseSize (some garbage)).outcome
      = some (0, h.grown garbage) := heapIncreaseSize_eq hw hmax garbage
  obtain ⟨h', hout, hwf, hsize, hmax', hlen⟩ := logInsertPlace_spec hroom.wf hroom.room item
  have hins : (h.logInsert item (some garbage)).outcome = some (0, h')
      ∧ (h.logInsert item (some garbage)).log.length
        = 2 * h.size + ((h.grown garbage).logInsertPlace item).log.length := by
    unfold logInsert
    rw [if_pos hfull, Traced.outcome_bind, hgrow, Traced.length_log_bind hgrow,
      length_logIncreaseSize, Option.bind_some]
    dsimp only
    rw [if_neg (not_not.mpr rfl), Traced.outcome_bind, hout, Traced.length_log_bind hout]
    exact ⟨rfl, rfl⟩
  have hstep : (h.logStep (.insert item (some garbage))).log.length
      = 2 * h.size + ((h.grown garbage).logInsertPlace item).log.length :=
    (Traced.length_log_bind hins.1).trans hins.2
  rw [hroom.size] at hsize hlen
  refine ⟨h', ?_, hwf, hsize.le, Or.inr ⟨heq, hmax', ?_, ?_⟩⟩
  · show (h.logInsert item (some garbage)).outcome.bind (fun rh => some rh.2) = _
    rw [hins.1]
    rfl
  · rw [hstep]
    exact Nat.le_add_right _ _
  · rw [hstep]
    exact Nat.add_le_add_left hlen _

/-- **Every call** has one of the two costs. -/
theorem step_costs (hw : h.WF) (hs : h.size < 2 ^ 31) (op : HeapOp ι) : ∃ h', h.Costs op h' := by
  cases op with
  | insert item alloc =>
    by_cases hfull : h.heapFull = true
    · cases alloc with
      | none =>
        -- no memory: nothing is touched
        have hins : h.logInsert item none
            = h.logIncreaseSize heapDefaultIncreaseSize none >>= fun rh => pure (-1, rh.2) := by
          unfold logInsert
          rw [if_pos hfull]
          rfl
        refine ⟨h, ?_, hw, Nat.le_succ _, Or.inl ⟨rfl, ?_⟩⟩
        · show (h.logInsert item none).outcome.bind (fun rh => some rh.2) = _
          rw [hins]
          rfl
        · show (h.logInsert item none >>= fun rh => pure rh.2).log.length ≤ _
          rw [hins]
          exact Nat.zero_le _
      | some garbage => exact insert_costs_full hw hs hfull item garbage
    · exact insert_costs_room hw hfull item alloc
  | remove index =>
    have hcost : (h.logStep (.remove index)).log.length ≤ stepCost (h.size + 1) := by
      have hremove := length_logRemove_le hs index
      have hlevels : levels (h.size - 1) index ≤ Nat.log 2 (h.size + 1) := by
        refine Nat.log_mono_right ((Nat.div_le_self _ _).trans ?_)
        omega
      refine (Traced.length_log_bind_le (k := 0) hremove fun rh _ => le_rfl).trans ?_
      unfold stepCost
      omega
    rcases heapRemove_cases hw hs index with ⟨hge, heq⟩ | ⟨hi, h₁, hsift, heq⟩
    · refine ⟨h, ?_, hw, Nat.le_succ _, Or.inl ⟨rfl, hcost⟩⟩
      rw [outcome_logStep, HeapOp.step, heq]
      rfl
    · have hrem := removed_of_sifts hw hi hsift
      have hsize := hrem.size
      refine ⟨_, ?_, hrem.wf, by omega, Or.inl ⟨hrem.maxSize, hcost⟩⟩
      rw [outcome_logStep, HeapOp.step, heq]
      rfl

/-! ## The runs -/

/-- A run of calls, with one log. -/
def logRun (h : Heap ι β) (ops : List (HeapOp ι)) : Traced (HeapEvent ι) (Heap ι β) :=
  ops.foldlM logStep h

/-- The log does not change the run. -/
theorem outcome_logRun (h : Heap ι β) (ops : List (HeapOp ι)) :
    (h.logRun ops).outcome = run HeapOp.step h ops := by
  unfold logRun run
  rw [Traced.outcome_foldlM]
  congr 1
  funext h op
  exact outcome_logStep h op

/-- **The accesses of `k` copies**, of an array that had `m` slots and has got
`heapDefaultIncreaseSize` more each time. -/
def copied (m k : ℕ) : ℕ := k * (2 * m) + heapDefaultIncreaseSize * (k * (k - 1))

theorem copied_succ (m k : ℕ) :
    copied m (k + 1) = copied m k + 2 * (m + heapDefaultIncreaseSize * k) := by
  unfold copied
  cases k with
  | zero => simp
  | succ k =>
    simp only [Nat.add_sub_cancel]
    ring

/-- **The cost of a run**, from any state: the heap has grown `k` times from `m` slots before it,
and never has more than `n` items. -/
theorem logRun_costs {m n : ℕ} (hn : n < 2 ^ 31) (ops : List (HeapOp ι)) {k : ℕ} (hw : h.WF)
    (hsize : h.size + ops.length ≤ n) (hk : h.maxSize = m + heapDefaultIncreaseSize * k) :
    ∃ h' k', (h.logRun ops).outcome = some h'
      ∧ h'.maxSize = m + heapDefaultIncreaseSize * k'
      ∧ (k < k' → m + heapDefaultIncreaseSize * (k' - 1) < n)
      ∧ copied m k' ≤ copied m k + (h.logRun ops).log.length
      ∧ copied m k + (h.logRun ops).log.length ≤ copied m k' + ops.length * stepCost n := by
  induction ops generalizing h k with
  | nil =>
    exact ⟨h, k, rfl, hk, fun hlt => absurd hlt (lt_irrefl k), Nat.le_add_right _ _,
      Nat.add_le_add_left (Nat.zero_le _) _⟩
  | cons op ops ih =>
    rw [List.length_cons] at hsize ⊢
    obtain ⟨h₁, hout, hwf, hle, hcost⟩ := step_costs hw (by omega) op
    have hmono : stepCost (h.size + 1) ≤ stepCost n :=
      Nat.add_le_add_right (Nat.mul_le_mul_left 16 (Nat.log_mono_right (by omega))) 13
    have hlog : (h.logRun (op :: ops)).outcome = (h₁.logRun ops).outcome
        ∧ (h.logRun (op :: ops)).log.length
          = (h.logStep op).log.length + (h₁.logRun ops).log.length := by
      unfold logRun
      rw [List.foldlM_cons, Traced.outcome_bind, hout, Traced.length_log_bind hout]
      exact ⟨rfl, rfl⟩
    rw [hlog.1, hlog.2, Nat.succ_mul]
    rcases hcost with ⟨hmax, hstep⟩ | ⟨hfull, hmax, hlow, hhigh⟩
    · obtain ⟨h', k', hout', hmax', hlast, hlow', hhigh'⟩ :=
        ih (k := k) hwf (by omega) (hmax.trans hk)
      exact ⟨h', k', hout', hmax', hlast, by omega, by omega⟩
    · have hk₁ : h₁.maxSize = m + heapDefaultIncreaseSize * (k + 1) := by
        rw [hmax, hk, Nat.mul_succ, Nat.add_assoc]
      obtain ⟨h', k', hout', hmax', hlast, hlow', hhigh'⟩ := ih hwf (by omega) hk₁
      have hcopy := copied_succ m k
      rw [← hk, ← hfull] at hcopy
      refine ⟨h', k', hout', hmax', fun hlt => ?_, by omega, by omega⟩
      rcases Nat.lt_or_eq_of_le (Nat.succ_le_of_lt hlt) with hlt' | rfl
      · exact hlast hlt'
      · rw [Nat.succ_sub_one, ← hk]
        omega

/-- **What a run of the heap costs.** For every capacity given to `heap_init`, every comparison
and every run of fewer than `2^31` calls, with `malloc` failing wherever it likes: the run returns,
and there is a number `k` of growths – the last of them with fewer items than there are calls –
such that the run makes as many accesses as the `k` copies, and at most
`16 * Nat.log 2 n + 13` more for each of its `n` calls. -/
theorem heap_run_cost {maxSize : ℕ} {cmp : HeapItem × β → HeapItem × β → Bool}
    {hi : ι → HeapItem} {obj : ι → β} {garbage : ℕ → ι} (hmax : maxSize < 2 ^ 32)
    (hinit : heapInit maxSize cmp hi obj (some garbage) = some h) (ops : List (HeapOp ι))
    (hops : ops.length < 2 ^ 31) :
    ∃ h' k, (h.logRun ops).outcome = some h' ∧ run HeapOp.step h ops = some h'
      ∧ h'.maxSize = h.maxSize + heapDefaultIncreaseSize * k
      ∧ (0 < k → h.maxSize + heapDefaultIncreaseSize * (k - 1) < ops.length)
      ∧ copied h.maxSize k ≤ (h.logRun ops).log.length
      ∧ (h.logRun ops).log.length
        ≤ copied h.maxSize k + ops.length * (16 * Nat.log 2 ops.length + 13) := by
  obtain ⟨hw, hsize, -⟩ := heapInit_wf hmax hinit
  obtain ⟨h', k, hout, hmax', hlast, hlow, hhigh⟩ :=
    logRun_costs (m := h.maxSize) (k := 0) hops ops hw (by omega) rfl
  have hzero : copied h.maxSize 0 = 0 := by
    rw [copied, Nat.zero_mul, Nat.zero_mul, Nat.mul_zero]
  rw [hzero, Nat.zero_add] at hlow hhigh
  exact ⟨h', k, hout, (outcome_logRun h ops).symm.trans hout, hmax', hlast, hlow, hhigh⟩

/-- Two insertions and a removal, with memory for a growth. -/
def threeCalls : List (HeapOp ℕ) := [.insert 5 none, .insert 7 (some fun _ => 0), .remove 0]

/-- A heap of one slot, which grows for the second item. -/
theorem heap_run_cost_three :
    ∃ h' k, ((numbers 1).logRun threeCalls).outcome = some h'
      ∧ run HeapOp.step (numbers 1) threeCalls = some h'
      ∧ h'.maxSize = 1 + heapDefaultIncreaseSize * k
      ∧ (0 < k → 1 + heapDefaultIncreaseSize * (k - 1) < 3)
      ∧ copied 1 k ≤ ((numbers 1).logRun threeCalls).log.length
      ∧ ((numbers 1).logRun threeCalls).log.length
        ≤ copied 1 k + 3 * (16 * Nat.log 2 3 + 13) :=
  heap_run_cost (by decide) (heapInit_numbers (by decide)) threeCalls (by decide)

end Heap
