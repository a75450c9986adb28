import Mathlib.Logic.Equiv.Defs
import Ckit.Ring

/-!
# The lists of `list.h`

The functions of `list.h`, assignment by assignment, over a memory of `struct
list` nodes, and what they do to the rings of that memory: `list_add_front`,
`list_add_back` and `list_del` change the ring they are used on as one expects, and
write to no node outside it; `list_move` is the third and then the first, on rings that
may be the same.

`listForeach` is the loop of the macro `list_foreach`. Its body works on a state
`s`, may leave the loop with a result, and may have changed the memory by the time
the next pointer is read. On a ring that stays as it is, the loop is a fold over
the nodes of the ring (`listForeach_ring`); the fuel only has to exceed their
number. A body that deletes the node it is at makes the loop stay there
(`listForeach_stuck`).
-/

namespace Links

variable {N : Type*} [DecidableEq N]

/-- The write `p->next = q`. -/
def setNext (m : Links N) (p q : N) : Links N := { m with next := Function.update m.next p q }

/-- The write `p->prev = q`. -/
def setPrev (m : Links N) (p q : N) : Links N := { m with prev := Function.update m.prev p q }

/-- `INIT_LIST`. -/
def initList (m : Links N) (list : N) : Links N := (m.setPrev list list).setNext list list

/-- `list_add_front`. -/
def listAddFront (m : Links N) (anchor toAdd : N) : Links N :=
  let m := m.setNext toAdd (m.next anchor)
  let m := m.setPrev toAdd anchor
  let m := m.setPrev (m.next anchor) toAdd
  m.setNext anchor toAdd

/-- `list_add_back`. -/
def listAddBack (m : Links N) (anchor toAdd : N) : Links N :=
  let m := m.setNext toAdd anchor
  let m := m.setPrev toAdd (m.prev anchor)
  let m := m.setNext (m.prev anchor) toAdd
  m.setPrev anchor toAdd

/-- `list_del`. -/
def listDel (m : Links N) (toDel : N) : Links N :=
  let m := m.setNext (m.prev toDel) (m.next toDel)
  let m := m.setPrev (m.next toDel) (m.prev toDel)
  let m := m.setPrev toDel toDel
  m.setNext toDel toDel

/-- `list_move`. -/
def listMove (m : Links N) (toMove anchor : N) : Links N :=
  (m.listDel toMove).listAddFront anchor toMove

/-- `list_empty`. -/
def listEmpty (m : Links N) (list : N) : Bool := m.next list = list

/-- The loop of `list_foreach`, at the node `ptr`. -/
def listForeach {σ ρ : Type*} (next : σ → N → N) (anchor : N)
    (body : σ → N → Option (Except ρ σ)) : ℕ → σ → N → Option (Except ρ σ)
  | 0, _, _ => none
  | fuel + 1, s, ptr =>
    if ptr = anchor then
      some (.ok s)
    else
      (body s ptr).bind fun r =>
        match r with
        | .error r => some (.error r)
        | .ok s => listForeach next anchor body fuel s (next s ptr)

variable {m : Links N} {a x : N} {l l₁ l₂ : List N}

theorem ring_initList (m : Links N) (a : N) : (m.initList a).Ring a [] :=
  ring_nil.mpr ⟨Function.update_self .., Function.update_self ..⟩

theorem initList_of_ne {n : N} (hn : n ≠ a) :
    (m.initList a).next n = m.next n ∧ (m.initList a).prev n = m.prev n :=
  ⟨Function.update_of_ne hn _ _, Function.update_of_ne hn _ _⟩

/-- `INIT_LIST` of a list that is empty already. -/
theorem Ring.initList_eq_self (h : m.Ring a []) : m.initList a = m := by
  obtain ⟨hnext, hprev⟩ := ring_nil.mp h
  unfold initList setPrev setNext
  dsimp only
  rw [Function.update_eq_self_iff.mpr hprev.symm, Function.update_eq_self_iff.mpr hnext.symm]

/-! ## Adding -/

theorem listAddFront_next (m : Links N) (a x n : N) :
    (m.listAddFront a x).next n
      = if n = a then x else if n = x then m.next a else m.next n := by
  show Function.update (Function.update m.next x (m.next a)) a x n = _
  rw [Function.update_apply, Function.update_apply]

theorem listAddFront_prev (m : Links N) {a x : N} (hxa : x ≠ a) (n : N) :
    (m.listAddFront a x).prev n
      = if n = m.next a then x else if n = x then a else m.prev n := by
  have hnext : Function.update m.next x (m.next a) a = m.next a :=
    Function.update_of_ne hxa.symm _ _
  show Function.update (Function.update m.prev x a) (Function.update m.next x (m.next a) a) x n = _
  rw [hnext, Function.update_apply, Function.update_apply]

/-- **`list_add_front` puts the node behind the anchor.** -/
theorem Ring.listAddFront (h : m.Ring a l) (hx : x ∉ a :: l) :
    (m.listAddFront a x).Ring a (x :: l) := by
  have hxa : x ≠ a := fun heq => hx (heq ▸ List.mem_cons_self)
  have hxq : x ≠ m.next a := fun heq => hx (heq ▸ h.next_anchor_mem)
  refine h.insert_front hx ?_ ?_ ?_ ?_ (fun n hna hnx => ?_) fun n hnq hnx => ?_
  · rw [listAddFront_next, if_pos rfl]
  · rw [listAddFront_next, if_neg hxa, if_pos rfl]
  · rw [listAddFront_prev m hxa, if_neg hxq, if_pos rfl]
  · rw [listAddFront_prev m hxa, if_pos rfl]
  · rw [listAddFront_next, if_neg hna, if_neg hnx]
  · rw [listAddFront_prev m hxa, if_neg hnq, if_neg hnx]

/-- `list_add_front` writes to the node and to the nodes of the ring only. -/
theorem Ring.listAddFront_of_notMem (h : m.Ring a l) (hx : x ∉ a :: l) {n : N}
    (hnx : n ≠ x) (hn : n ∉ a :: l) :
    (m.listAddFront a x).next n = m.next n ∧ (m.listAddFront a x).prev n = m.prev n := by
  have hxa : x ≠ a := fun heq => hx (heq ▸ List.mem_cons_self)
  have hna : n ≠ a := fun heq => hn (heq ▸ List.mem_cons_self)
  have hnq : n ≠ m.next a := fun heq => hn (heq ▸ h.next_anchor_mem)
  rw [listAddFront_next, listAddFront_prev m hxa, if_neg hna, if_neg hnx, if_neg hnq, if_neg hnx]
  exact ⟨rfl, rfl⟩

/-- **`list_add_back` puts the node before the anchor.** -/
theorem Ring.listAddBack (h : m.Ring a l) (hx : x ∉ a :: l) :
    (m.listAddBack a x).Ring a (l ++ [x]) := by
  have hfront := h.mirror.listAddFront (x := x) (by simpa using hx)
  have hback := hfront.mirror
  rwa [List.reverse_cons, List.reverse_reverse] at hback

/-- `list_add_back` writes to the node and to the nodes of the ring only. -/
theorem Ring.listAddBack_of_notMem (h : m.Ring a l) (hx : x ∉ a :: l) {n : N}
    (hnx : n ≠ x) (hn : n ∉ a :: l) :
    (m.listAddBack a x).next n = m.next n ∧ (m.listAddBack a x).prev n = m.prev n := by
  have hfront := h.mirror.listAddFront_of_notMem (x := x) (by simpa using hx) hnx
    (by simpa using hn)
  exact ⟨hfront.2, hfront.1⟩

/-! ## Deleting -/

theorem listDel_next (m : Links N) (x n : N) :
    (m.listDel x).next n = if n = x then x else if n = m.prev x then m.next x else m.next n := by
  show Function.update (Function.update m.next (m.prev x) (m.next x)) x x n = _
  rw [Function.update_apply, Function.update_apply]

theorem listDel_prev (m : Links N) (x n : N) :
    (m.listDel x).prev n = if n = x then x else if n = m.next x then m.prev x else m.prev n := by
  have hnext : Function.update m.next (m.prev x) (m.next x) x = m.next x := by
    rw [Function.update_apply]
    split
    · rfl
    · rfl
  show Function.update (Function.update m.prev (Function.update m.next (m.prev x) (m.next x) x)
    (m.prev x)) x x n = _
  rw [hnext, Function.update_apply, Function.update_apply]

/-- **`list_del` takes the node out of its ring.** -/
theorem Ring.listDel (h : m.Ring a (l₁ ++ x :: l₂)) : (m.listDel x).Ring a (l₁ ++ l₂) := by
  have hnx : m.next x ≠ x := h.next_ne_self (List.mem_append_right _ List.mem_cons_self)
  have hpx : m.prev x ≠ x := fun heq => by
    have hback := h.prev_mem.2
    rw [heq] at hback
    exact hnx hback
  refine h.remove ?_ ?_ (fun n hnp hnx => ?_) fun n hnq hnx => ?_
  · rw [listDel_next, if_neg hpx, if_pos rfl]
  · rw [listDel_prev, if_neg hnx, if_pos rfl]
  · rw [listDel_next, if_neg hnx, if_neg hnp]
  · rw [listDel_prev, if_neg hnx, if_neg hnq]

/-- The node deleted is alone afterwards. -/
theorem ring_listDel_self (m : Links N) (x : N) : (m.listDel x).Ring x [] := by
  rw [ring_nil, listDel_next, listDel_prev, if_pos rfl, if_pos rfl]
  exact ⟨rfl, rfl⟩

/-- `list_del` writes to the nodes of the ring only. -/
theorem Ring.listDel_of_notMem (h : m.Ring a (l₁ ++ x :: l₂)) {n : N}
    (hn : n ∉ a :: (l₁ ++ x :: l₂)) :
    (m.listDel x).next n = m.next n ∧ (m.listDel x).prev n = m.prev n := by
  have hnx : n ≠ x := fun heq =>
    hn (heq ▸ List.mem_cons_of_mem _ (List.mem_append_right _ List.mem_cons_self))
  have hnp : n ≠ m.prev x := fun heq => by
    have hmem := h.prev_mem.1
    rw [← heq] at hmem
    exact hn ((List.sublist_append_left (a :: l₁) (x :: l₂)).mem hmem)
  have hnq : n ≠ m.next x := fun heq => by
    have hmem := List.mem_of_mem_head? (h.next_mem ▸ Option.mem_some_self _)
    rw [← heq] at hmem
    rcases List.mem_append.mp hmem with hm | hm
    · exact hn (List.mem_cons_of_mem _ (List.mem_append_right _ (List.mem_cons_of_mem _ hm)))
    · exact hn (List.mem_singleton.mp hm ▸ List.mem_cons_self)
  rw [listDel_next, listDel_prev, if_neg hnx, if_neg hnx, if_neg hnp, if_neg hnq]
  exact ⟨rfl, rfl⟩

/-- `list_del` of a node that is alone. -/
theorem Ring.listDel_eq_self (h : m.Ring x []) : m.listDel x = m := by
  obtain ⟨hnext, hprev⟩ := ring_nil.mp h
  refine congrArg₂ Links.mk (funext fun n => ?_) (funext fun n => ?_)
  · show (m.listDel x).prev n = m.prev n
    rw [listDel_prev, hnext, hprev]
    split
    · rename_i hn
      rw [hn, hprev]
    · rfl
  · show (m.listDel x).next n = m.next n
    rw [listDel_next, hnext, hprev]
    split
    · rename_i hn
      rw [hn, hnext]
    · rfl

/-! ## Families of lists -/

section Rings

variable {A : Set N} {s : N → List N}

/-- `list_add_front` writes to no other list of a family. -/
theorem Rings.listAddFront_of_ne (h : m.Rings A s) (ha : a ∈ A) (hx : Unlinked A s x) {b : N}
    (hb : b ∈ A) (hba : b ≠ a) {n : N} (hn : n ∈ b :: s b) :
    (m.listAddFront a x).next n = m.next n ∧ (m.listAddFront a x).prev n = m.prev n :=
  (h.ring a ha).listAddFront_of_notMem (hx a ha) (fun heq => hx b hb (heq ▸ hn))
    fun hna => hba (h.eq_of_mem hb ha hn hna)

/-- `list_add_front` on one list of a family. -/
theorem Rings.listAddFront (h : m.Rings A s) (ha : a ∈ A) (hx : Unlinked A s x) :
    (m.listAddFront a x).Rings A (Function.update s a (x :: s a)) := by
  refine h.update ha ((h.ring a ha).listAddFront (hx a ha)) (fun n hn => ?_)
    fun b hb hba n hn => h.listAddFront_of_ne ha hx hb hba hn
  exact (List.mem_cons.mp hn).elim (fun heq => .inr (heq ▸ hx)) .inl

/-- `list_add_back` writes to no other list of a family. -/
theorem Rings.listAddBack_of_ne (h : m.Rings A s) (ha : a ∈ A) (hx : Unlinked A s x) {b : N}
    (hb : b ∈ A) (hba : b ≠ a) {n : N} (hn : n ∈ b :: s b) :
    (m.listAddBack a x).next n = m.next n ∧ (m.listAddBack a x).prev n = m.prev n :=
  (h.ring a ha).listAddBack_of_notMem (hx a ha) (fun heq => hx b hb (heq ▸ hn))
    fun hna => hba (h.eq_of_mem hb ha hn hna)

/-- `list_add_back` on one list of a family. -/
theorem Rings.listAddBack (h : m.Rings A s) (ha : a ∈ A) (hx : Unlinked A s x) :
    (m.listAddBack a x).Rings A (Function.update s a (s a ++ [x])) := by
  refine h.update ha ((h.ring a ha).listAddBack (hx a ha)) (fun n hn => ?_)
    fun b hb hba n hn => h.listAddBack_of_ne ha hx hb hba hn
  rcases List.mem_append.mp hn with hn | hn
  · exact .inl hn
  · exact .inr (List.mem_singleton.mp hn ▸ hx)

/-- `list_del` writes to no other list of a family. -/
theorem Rings.listDel_of_ne (h : m.Rings A s) (ha : a ∈ A) (hx : x ∈ s a) {b : N} (hb : b ∈ A)
    (hba : b ≠ a) {n : N} (hn : n ∈ b :: s b) :
    (m.listDel x).next n = m.next n ∧ (m.listDel x).prev n = m.prev n := by
  obtain ⟨l₁, l₂, hl⟩ := List.append_of_mem hx
  have hring := h.ring a ha
  rw [hl] at hring
  refine hring.listDel_of_notMem fun hna => hba (h.eq_of_mem hb ha hn ?_)
  rwa [hl]

/-- `list_del` of a node of one list of a family. -/
theorem Rings.listDel (h : m.Rings A s) (ha : a ∈ A) (hx : x ∈ s a) :
    (m.listDel x).Rings A (Function.update s a ((s a).erase x)) := by
  refine h.update ha ?_ (fun n hn => .inl (List.mem_of_mem_erase hn))
    fun b hb hba n hn => h.listDel_of_ne ha hx hb hba hn
  obtain ⟨l₁, l₂, hl⟩ := List.append_of_mem hx
  have hring := h.ring a ha
  have hnotMem : x ∉ l₁ := by
    have hnodup := hl ▸ (List.nodup_cons.mp hring.nodup).2
    exact fun hmem => (List.nodup_append.mp hnodup).2.2 x hmem x List.mem_cons_self rfl
  rw [hl] at hring ⊢
  rw [List.erase_append_right _ hnotMem, List.erase_cons_head]
  exact hring.listDel

/-- A node is on no ring once it has been deleted from the one it was on. -/
theorem Rings.unlinked_erase (h : m.Rings A s) (ha : a ∈ A) (hx : x ∈ s a) :
    Unlinked A (Function.update s a ((s a).erase x)) x := by
  have hnodup := (h.ring a ha).nodup
  obtain ⟨hna, hnodup⟩ := List.nodup_cons.mp hnodup
  intro b hb hmem
  by_cases hba : b = a
  · subst hba
    rw [Function.update_self] at hmem
    rcases List.mem_cons.mp hmem with rfl | hmem
    · exact hna hx
    · exact hnodup.not_mem_erase hmem
  · rw [Function.update_of_ne hba] at hmem
    exact hba (h.eq_of_mem hb ha hmem (List.mem_cons_of_mem _ hx))

end Rings

/-! ## Going round -/

/-- **A loop over a ring that stays as it is** is a fold over its nodes, which ends
early where the body leaves the loop. -/
theorem listForeach_ring {σ ρ : Type*} (h : m.Ring a l) {next : σ → N → N}
    (hnext : ∀ s n, next s n = m.next n) {body : σ → N → Option (Except ρ σ)}
    {f : σ → N → Except ρ σ} (hbody : ∀ s, ∀ n ∈ l, body s n = some (f s n)) {fuel : ℕ}
    (hfuel : l.length < fuel) (s : σ) :
    listForeach next a body fuel s (m.next a) = some (l.foldlM f s) := by
  -- by induction on the part `l₂` of the ring that is still to come
  suffices hsuffix : ∀ l₂ l₁ fuel s ptr, l = l₁ ++ l₂ → l₂.length < fuel →
      (l₂ ++ [a]).head? = some ptr →
      listForeach next a body fuel s ptr = some (l₂.foldlM f s) from
    hsuffix l [] fuel s _ rfl hfuel h.next_anchor
  intro l₂
  induction l₂ with
  | nil =>
    intro l₁ fuel s ptr _ hlt hptr
    obtain ⟨fuel, rfl⟩ := Nat.exists_eq_succ_of_ne_zero (Nat.ne_zero_of_lt hlt)
    obtain rfl : a = ptr := Option.some.inj hptr
    rw [listForeach, if_pos rfl]
    rfl
  | cons x l₂ ih =>
    intro l₁ fuel s ptr hl hlt hptr
    obtain ⟨fuel, rfl⟩ := Nat.exists_eq_succ_of_ne_zero (Nat.ne_zero_of_lt hlt)
    obtain rfl : x = ptr := Option.some.inj hptr
    have hring := hl ▸ h
    have hmem : x ∈ l := hl ▸ List.mem_append_right _ List.mem_cons_self
    have hxa : x ≠ a := fun heq => (List.nodup_cons.mp h.nodup).1 (heq ▸ hmem)
    rw [listForeach, if_neg hxa, hbody s x hmem, Option.bind_some, List.foldlM_cons]
    cases hf : f s x with
    | error r => rfl
    | ok s' =>
      refine ih (l₁ ++ [x]) fuel s' _ (by rw [hl, List.append_assoc]; rfl)
        (Nat.lt_of_succ_lt_succ hlt) ?_
      rw [hnext]
      exact hring.next_mem

/-- **Two loops over one ring**, where the state of the one is read off the state of the
other. -/
theorem listForeach_map {σ τ ρ : Type*} (h : m.Ring a l) (g : σ → τ) {next : σ → N → N}
    {next' : τ → N → N} (hnext : ∀ s n, next s n = m.next n)
    (hnext' : ∀ s n, next' (g s) n = m.next n) {body : σ → N → Option (Except ρ σ)}
    {body' : τ → N → Option (Except ρ τ)}
    (hbody : ∀ s, ∀ n ∈ l, body' (g s) n = (body s n).map (Except.map g)) (fuel : ℕ) (s : σ)
    {ptr : N} (hptr : ptr ∈ a :: l) :
    listForeach next' a body' fuel (g s) ptr
      = (listForeach next a body fuel s ptr).map (Except.map g) := by
  induction fuel generalizing s ptr with
  | zero => rfl
  | succ fuel ih =>
    rw [listForeach, listForeach]
    by_cases ha : ptr = a
    · rw [if_pos ha, if_pos ha]
      rfl
    · rw [if_neg ha, if_neg ha, hbody s ptr ((List.mem_cons.mp hptr).resolve_left ha)]
      cases body s ptr with
      | none => rfl
      | some r =>
        cases r with
        | error r => rfl
        | ok s' =>
          show listForeach next' a body' fuel (g s') (next' (g s') ptr)
            = (listForeach next a body fuel s' (next s' ptr)).map (Except.map g)
          rw [hnext, hnext']
          exact ih s' (h.inverse hptr).1

/-! ## Loops that do not end -/

/-- **A loop that stays where it is**: whatever the state, the body either has no outcome at
the node or makes it point to itself. -/
theorem listForeach_stuck {σ ρ : Type*} {next : σ → N → N} {body : σ → N → Option (Except ρ σ)}
    (hxa : x ≠ a) (hbody : ∀ s, body s x = none ∨ ∃ s', body s x = some (.ok s') ∧ next s' x = x)
    (fuel : ℕ) (s : σ) : listForeach next a body fuel s x = none := by
  induction fuel generalizing s with
  | zero => rfl
  | succ fuel ih =>
    rw [listForeach, if_neg hxa]
    rcases hbody s with hnone | ⟨s', hsome, hself⟩
    · rw [hnone, Option.bind_none]
    · rw [hsome, Option.bind_some]
      dsimp only
      rw [hself]
      exact ih s'

/-- **A loop over a ring that cannot get past one of its nodes** does not end, where the
nodes before it leave the ring as it is. -/
theorem listForeach_blocked {σ ρ : Type*} (h : m.Ring a l) {next : σ → N → N}
    {body : σ → N → Option (Except ρ σ)} {P : σ → Prop} {Q : N → Prop}
    (hnext : ∀ s, P s → ∀ n, next s n = m.next n)
    (hQ : ∀ n ∈ l, Q n → ∀ fuel s, listForeach next a body fuel s n = none)
    (hpass : ∀ n ∈ l, ¬ Q n → ∀ s, P s → ∃ s', body s n = some (.ok s') ∧ P s')
    (hx : ∃ n ∈ l, Q n) (fuel : ℕ) {s : σ} (hs : P s) :
    listForeach next a body fuel s (m.next a) = none := by
  -- by induction on the part `l₂` of the ring that is still to come
  suffices hsuffix : ∀ l₂ l₁ fuel s ptr, l = l₁ ++ l₂ → (∃ n ∈ l₂, Q n) → P s →
      (l₂ ++ [a]).head? = some ptr → listForeach next a body fuel s ptr = none from
    hsuffix l [] fuel s _ rfl hx hs h.next_anchor
  intro l₂
  induction l₂ with
  | nil => exact fun l₁ fuel s ptr _ ⟨n, hn, _⟩ => absurd hn List.not_mem_nil
  | cons y l₂ ih =>
    intro l₁ fuel s ptr hl ⟨n, hn, hQn⟩ hs hptr
    obtain rfl : y = ptr := Option.some.inj hptr
    have hring := hl ▸ h
    have hmem : y ∈ l := hl ▸ List.mem_append_right _ List.mem_cons_self
    by_cases hy : Q y
    · exact hQ y hmem hy fuel s
    · have hn' : n ∈ l₂ := (List.mem_cons.mp hn).resolve_left fun heq => hy (heq ▸ hQn)
      obtain ⟨s', hbody, hs'⟩ := hpass y hmem hy s hs
      cases fuel with
      | zero => rfl
      | succ fuel =>
        have hya : y ≠ a := fun heq => (List.nodup_cons.mp h.nodup).1 (heq ▸ hmem)
        rw [listForeach, if_neg hya, hbody, Option.bind_some]
        refine ih (l₁ ++ [y]) fuel s' _ (by rw [hl, List.append_assoc]; rfl) ⟨n, hn', hQn⟩
          hs' ?_
        rw [hnext s' hs']
        exact hring.next_mem

/-! ## Other names for the nodes -/

section Rename

variable {N' : Type*} [DecidableEq N']

/-- The same memory with other names for its nodes. -/
def rename (f : N ≃ N') (m : Links N) : Links N' :=
  ⟨fun n => f (m.prev (f.symm n)), fun n => f (m.next (f.symm n))⟩

theorem update_rename (f : N ≃ N') (g : N → N) (p q : N) :
    Function.update (fun n => f (g (f.symm n))) (f p) (f q)
      = fun n => f (Function.update g p q (f.symm n)) := by
  funext n
  by_cases hn : n = f p
  · rw [hn, Function.update_self, Equiv.symm_apply_apply, Function.update_self]
  · have hp : f.symm n ≠ p := fun heq => hn (by rw [← heq, Equiv.apply_symm_apply])
    rw [Function.update_of_ne hn, Function.update_of_ne hp]

theorem setNext_rename (f : N ≃ N') (m : Links N) (p q : N) :
    (m.rename f).setNext (f p) (f q) = (m.setNext p q).rename f :=
  congrArg (Links.mk _) (update_rename f m.next p q)

theorem setPrev_rename (f : N ≃ N') (m : Links N) (p q : N) :
    (m.rename f).setPrev (f p) (f q) = (m.setPrev p q).rename f :=
  congrArg (fun prev => Links.mk prev _) (update_rename f m.prev p q)

omit [DecidableEq N] [DecidableEq N'] in
theorem next_rename (f : N ≃ N') (m : Links N) (n : N) :
    (m.rename f).next (f n) = f (m.next n) := by
  show f (m.next (f.symm (f n))) = _
  rw [Equiv.symm_apply_apply]

omit [DecidableEq N] [DecidableEq N'] in
theorem prev_rename (f : N ≃ N') (m : Links N) (n : N) :
    (m.rename f).prev (f n) = f (m.prev n) := by
  show f (m.prev (f.symm (f n))) = _
  rw [Equiv.symm_apply_apply]

theorem initList_rename (f : N ≃ N') (m : Links N) (n : N) :
    (m.rename f).initList (f n) = (m.initList n).rename f := by
  unfold initList
  rw [setPrev_rename, setNext_rename]

theorem listAddFront_rename (f : N ≃ N') (m : Links N) (a x : N) :
    (m.rename f).listAddFront (f a) (f x) = (m.listAddFront a x).rename f := by
  unfold listAddFront
  dsimp only
  rw [next_rename, setNext_rename, setPrev_rename, next_rename, setPrev_rename, setNext_rename]

theorem listDel_rename (f : N ≃ N') (m : Links N) (x : N) :
    (m.rename f).listDel (f x) = (m.listDel x).rename f := by
  unfold listDel
  dsimp only
  rw [prev_rename, next_rename, setNext_rename, next_rename, prev_rename, setPrev_rename,
    setPrev_rename, setNext_rename]

theorem listEmpty_rename (f : N ≃ N') (m : Links N) (n : N) :
    (m.rename f).listEmpty (f n) = m.listEmpty n := by
  unfold listEmpty
  rw [next_rename]
  exact decide_eq_decide.mpr f.injective.eq_iff

/-- A loop over nodes with other names. -/
theorem listForeach_rename {σ ρ : Type*} (f : N ≃ N') {next : σ → N → N} {next' : σ → N' → N'}
    {body : σ → N → Option (Except ρ σ)} {body' : σ → N' → Option (Except ρ σ)}
    (hnext : ∀ s n, next' s (f n) = f (next s n)) (hbody : ∀ s n, body' s (f n) = body s n)
    (a : N) (fuel : ℕ) (s : σ) (ptr : N) :
    listForeach next' (f a) body' fuel s (f ptr) = listForeach next a body fuel s ptr := by
  induction fuel generalizing s ptr with
  | zero => rfl
  | succ fuel ih =>
    rw [listForeach, listForeach, hbody]
    by_cases ha : ptr = a
    · rw [if_pos ha, if_pos (congrArg f ha)]
    · rw [if_neg ha, if_neg fun heq => ha (f.injective heq)]
      congr 1
      funext r
      cases r with
      | error r => rfl
      | ok s' =>
        dsimp only
        rw [hnext, ih]

end Rename

end Links
