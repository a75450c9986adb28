import Mathlib.Data.Fin.VecNotation
import Ckit.ListHead

/-!
# A loop whose body may take away the node it is at

`list_foreach_safe` reads the pointer it goes on with before the body runs, and again
nothing else of the node the body was at. So the body may delete that node or move it to
another list, and may then do with it what it likes. What it may not do is write to the
other nodes of the list: the saved pointer is one of them, or the anchor.

The list is a ring `kept ++ l₂` at every test of the loop: the nodes the body has left where
they were, and those it has not come to. The body is asked to keep to its part at the visits
of the loop only, each in the state the visits before it have led to (`Visit`). Then the loop
ends, has visited the nodes of the list in order, and leaves the ones it was to leave
(`list_foreach_safe_visits_all`).
-/

namespace Links

variable {N σ : Type*} [DecidableEq N]

/-- The loop of `list_foreach_safe`, at the node `ptr` and with the saved `tmp`: the nodes
it comes to and the state in the end. -/
def listForeachSafeLoop (next : σ → N → N) (anchor : N) (body : σ → N → σ) :
    ℕ → σ → N → N → Option (List N × σ)
  | 0, _, _, _ => none
  | fuel + 1, s, ptr, tmp =>
    if ptr = anchor then
      some ([], s)
    else
      let s := body s ptr
      (listForeachSafeLoop next anchor body fuel s tmp (next s tmp)).map fun r =>
        (ptr :: r.1, r.2)

/-- `list_foreach_safe`. -/
def listForeachSafe (next : σ → N → N) (anchor : N) (body : σ → N → σ) (fuel : ℕ) (s : σ) :
    Option (List N × σ) :=
  let ptr := next s anchor
  listForeachSafeLoop next anchor body fuel s ptr (next s ptr)

/-- **What a visit may do** to the list of the anchor `a`, at its node `x`: leave it as it is,
or take `x` away by `list_del` or by `list_move` to another list. All else it writes, before
and after, is off the list. -/
inductive Visit (m m' : Links N) (a : N) (l : List N) (x : N) : Bool → Prop
  | keeps (same : ∀ n ∈ a :: l, m'.next n = m.next n ∧ m'.prev n = m.prev n) :
    Visit m m' a l x false
  | dels (m₁ : Links N)
    (before : ∀ n ∈ a :: l, m₁.next n = m.next n ∧ m₁.prev n = m.prev n)
    (after : ∀ n ∈ a :: l, n ≠ x →
      m'.next n = (m₁.listDel x).next n ∧ m'.prev n = (m₁.listDel x).prev n) :
    Visit m m' a l x true
  | moves (m₁ : Links N) (b : N) (lb : List N)
    (before : ∀ n ∈ a :: l, m₁.next n = m.next n ∧ m₁.prev n = m.prev n)
    (ring : m₁.Ring b lb) (other : List.Disjoint (a :: l) (b :: lb))
    (after : ∀ n ∈ a :: l, n ≠ x →
      m'.next n = (m₁.listMove x b).next n ∧ m'.prev n = (m₁.listMove x b).prev n) :
    Visit m m' a l x true

variable {m m' : Links N} {a x : N} {l l₁ l₂ : List N}

/-- `list_move` to another list does to the nodes that stay what `list_del` does. -/
theorem Ring.listMove_of_disjoint (h : m.Ring a (l₁ ++ x :: l₂)) {b : N} {lb : List N}
    (hb : m.Ring b lb) (hdisj : List.Disjoint (a :: (l₁ ++ x :: l₂)) (b :: lb)) {n : N}
    (hn : n ∈ a :: (l₁ ++ x :: l₂)) (hnx : n ≠ x) :
    (m.listMove x b).next n = (m.listDel x).next n
      ∧ (m.listMove x b).prev n = (m.listDel x).prev n := by
  have hx : x ∈ a :: (l₁ ++ x :: l₂) :=
    List.mem_cons_of_mem _ (List.mem_append_right _ List.mem_cons_self)
  have hdel : (m.listDel x).Ring b lb :=
    hb.congr fun k hk => h.listDel_of_notMem fun hmem => hdisj hmem hk
  exact hdel.listAddFront_of_notMem (fun hmem => hdisj hx hmem) hnx fun hmem => hdisj hn hmem

/-- The list after a visit that takes the node away. -/
theorem Ring.of_listDel (h : m.Ring a (l₁ ++ x :: l₂))
    (heq : ∀ n ∈ a :: (l₁ ++ x :: l₂), n ≠ x →
      m'.next n = (m.listDel x).next n ∧ m'.prev n = (m.listDel x).prev n) :
    m'.Ring a (l₁ ++ l₂) := by
  have hdel := h.listDel
  have hnotMem : x ∉ a :: (l₁ ++ l₂) := by
    have hnodup : ((a :: l₁) ++ x :: l₂).Nodup := h.nodup
    rw [List.nodup_middle] at hnodup
    exact (List.nodup_cons.mp hnodup).1
  refine hdel.congr fun n hn => heq n ?_ fun hnx => hnotMem (hnx ▸ hn)
  exact ((List.sublist_cons_self x l₂).append_left l₁ |>.cons_cons a).mem hn

/-- **The list after a visit.** -/
theorem Visit.ring {removed : Bool} (hvisit : Visit m m' a (l₁ ++ x :: l₂) x removed)
    (h : m.Ring a (l₁ ++ x :: l₂)) :
    m'.Ring a (l₁ ++ (if removed then l₂ else x :: l₂)) := by
  cases hvisit with
  | keeps same => exact h.congr same
  | dels m₁ before after => exact (h.congr before).of_listDel after
  | moves m₁ b lb before ring other after =>
    have h₁ : m₁.Ring a (l₁ ++ x :: l₂) := h.congr before
    refine h₁.of_listDel fun n hn hnx => ?_
    have hmove := h₁.listMove_of_disjoint ring other hn hnx
    exact ⟨(after n hn hnx).1.trans hmove.1, (after n hn hnx).2.trans hmove.2⟩

/-! ## The nodes that stay -/

/-- The nodes of `l` that the visits do not take away. -/
def survivors (body : σ → N → σ) (removes : σ → N → Bool) : σ → List N → List N
  | _, [] => []
  | s, x :: l =>
    if removes s x then survivors body removes (body s x) l
    else x :: survivors body removes (body s x) l

variable {body : σ → N → σ} {removes : σ → N → Bool}

omit [DecidableEq N] in
theorem survivors_sublist (s : σ) (l : List N) : (survivors body removes s l).Sublist l := by
  induction l generalizing s with
  | nil => exact List.Sublist.refl []
  | cons x l ih =>
    rw [survivors]
    split_ifs
    · exact (ih (body s x)).cons x
    · exact (ih (body s x)).cons_cons x

omit [DecidableEq N] in
/-- A node stays exactly where its own visit does not take it away. -/
theorem mem_survivors {s : σ} (hnodup : (l₁ ++ x :: l₂).Nodup) :
    x ∈ survivors body removes s (l₁ ++ x :: l₂) ↔ removes (l₁.foldl body s) x = false := by
  induction l₁ generalizing s with
  | nil =>
    have hx : x ∉ survivors body removes (body s x) l₂ := fun hmem =>
      (List.nodup_cons.mp hnodup).1 ((survivors_sublist (body s x) l₂).mem hmem)
    rw [List.nil_append, survivors, List.foldl_nil]
    split_ifs with hremoves
    · exact iff_of_false hx fun hfalse => Bool.false_ne_true (hfalse.symm.trans hremoves)
    · exact iff_of_true List.mem_cons_self (Bool.not_eq_true _ ▸ hremoves)
  | cons y l₁ ih =>
    obtain ⟨hy, hnodup⟩ := List.nodup_cons.mp hnodup
    have hxy : x ≠ y := fun heq =>
      hy (heq ▸ List.mem_append_right _ List.mem_cons_self)
    rw [List.cons_append, survivors, List.foldl_cons, ← ih hnodup]
    split_ifs
    · exact Iff.rfl
    · exact ⟨fun hmem => (List.mem_cons.mp hmem).resolve_left hxy, List.mem_cons_of_mem y⟩

/-! ## Going round -/

/-- **The loop from a node on**, where the list is the nodes that were kept and those that
are still to come. -/
theorem listForeachSafeLoop_suffix (mem : σ → Links N) {s : σ} {kept : List N} {ptr : N}
    (hring : (mem s).Ring a (kept ++ l₂)) (hptr : (l₂ ++ [a]).head? = some ptr)
    (hbody : ∀ l₁ x l₃, l₂ = l₁ ++ x :: l₃ → ∀ l', (mem (l₁.foldl body s)).Ring a l' → x ∈ l' →
      Visit (mem (l₁.foldl body s)) (mem (body (l₁.foldl body s) x)) a l' x
        (removes (l₁.foldl body s) x))
    {fuel : ℕ} (hfuel : l₂.length < fuel) :
    listForeachSafeLoop (fun s => (mem s).next) a body fuel s ptr ((mem s).next ptr)
        = some (l₂, l₂.foldl body s)
      ∧ (mem (l₂.foldl body s)).Ring a (kept ++ survivors body removes s l₂) := by
  induction l₂ generalizing s kept ptr fuel with
  | nil =>
    obtain ⟨fuel, rfl⟩ := Nat.exists_eq_succ_of_ne_zero (Nat.ne_zero_of_lt hfuel)
    obtain rfl : a = ptr := Option.some.inj hptr
    rw [listForeachSafeLoop, if_pos rfl]
    exact ⟨rfl, hring⟩
  | cons x l₂ ih =>
    obtain ⟨fuel, rfl⟩ := Nat.exists_eq_succ_of_ne_zero (Nat.ne_zero_of_lt hfuel)
    obtain rfl : x = ptr := Option.some.inj hptr
    have hmem : x ∈ kept ++ x :: l₂ := List.mem_append_right _ List.mem_cons_self
    have hxa : x ≠ a := fun heq => (List.nodup_cons.mp hring.nodup).1 (heq ▸ hmem)
    -- the saved pointer is the next node that is still to come, or the anchor
    have htmp := hring.next_mem
    have hafter := (hbody [] x l₂ rfl _ hring hmem).ring hring
    have hrest (l₁ : List N) (y : N) (l₃ : List N) (hl : l₂ = l₁ ++ y :: l₃) :=
      hbody (x :: l₁) y l₃ (congrArg (x :: ·) hl)
    rw [listForeachSafeLoop, if_neg hxa, List.foldl_cons, survivors]
    rw [List.foldl_nil] at hafter
    dsimp only
    by_cases hremoves : removes s x = true
    · rw [if_pos hremoves] at hafter ⊢
      obtain ⟨hloop, hfinal⟩ := ih hafter htmp hrest (Nat.lt_of_succ_lt_succ hfuel)
      rw [hloop, Option.map_some]
      exact ⟨rfl, hfinal⟩
    · rw [if_neg hremoves] at hafter ⊢
      rw [List.append_cons] at hafter ⊢
      obtain ⟨hloop, hfinal⟩ := ih hafter htmp hrest (Nat.lt_of_succ_lt_succ hfuel)
      rw [hloop, Option.map_some]
      exact ⟨rfl, hfinal⟩

/-- **The loop visits every node of the list, in order, and leaves the ones it was to
leave.** -/
theorem list_foreach_safe_visits_all (mem : σ → Links N) (body : σ → N → σ)
    (removes : σ → N → Bool) {s : σ} (hring : (mem s).Ring a l)
    (hbody : ∀ l₁ x l₂, l = l₁ ++ x :: l₂ → ∀ l', (mem (l₁.foldl body s)).Ring a l' → x ∈ l' →
      Visit (mem (l₁.foldl body s)) (mem (body (l₁.foldl body s) x)) a l' x
        (removes (l₁.foldl body s) x))
    {fuel : ℕ} (hfuel : l.length < fuel) :
    listForeachSafe (fun s => (mem s).next) a body fuel s = some (l, l.foldl body s)
      ∧ ∃ kept, (mem (l.foldl body s)).Ring a kept ∧ kept.Sublist l
        ∧ ∀ l₁ x l₂, l = l₁ ++ x :: l₂ → (x ∈ kept ↔ removes (l₁.foldl body s) x = false) := by
  have hstart : (mem s).Ring a ([] ++ l) := hring
  obtain ⟨hloop, hfinal⟩ :=
    listForeachSafeLoop_suffix mem hstart hring.next_anchor hbody hfuel
  refine ⟨hloop, survivors body removes s l, hfinal, survivors_sublist s l, ?_⟩
  rintro l₁ x l₂ rfl
  exact mem_survivors (List.nodup_cons.mp hring.nodup).2

/-- The list of the anchor `0` goes through `1`, `2` and `3`, the one of `4` is empty. The body
deletes `1`, moves `2` to the other list and leaves `3`. -/
theorem list_foreach_safe_visits_all_three :
    let m : Links (Fin 5) := ⟨![3, 0, 1, 2, 4], ![1, 2, 3, 0, 4]⟩
    let body (m : Links (Fin 5)) (x : Fin 5) :=
      if x = 1 then m.listDel x else if x = 2 then m.listMove x 4 else m
    m.Ring 0 [1, 2, 3]
      ∧ listForeachSafe (fun m => m.next) 0 body 4 m = some ([1, 2, 3], [1, 2, 3].foldl body m)
      ∧ ∃ kept, ([1, 2, 3].foldl body m).Ring 0 kept ∧ kept.Sublist [1, 2, 3]
        ∧ ∀ l₁ x l₂, [1, 2, 3] = l₁ ++ x :: l₂ → (x ∈ kept ↔ decide (x < 3) = false) := by
  intro m body
  have hring : m.Ring 0 [1, 2, 3] := by
    refine ⟨?_, by decide⟩
    simp [m, Linked]
  have hfirst : m.Ring 0 ([] ++ 1 :: [2, 3]) := hring
  have hother : (m.listDel 1).Ring 4 [] := ring_nil.mpr ⟨rfl, rfl⟩
  refine ⟨hring, list_foreach_safe_visits_all (fun m => m) body (fun _ x => decide (x < 3)) hring
    ?_ (Nat.lt_succ_self 3)⟩
  intro l₁ x l₂ hl l' hring' _
  rcases l₁ with - | ⟨y, - | ⟨z, - | ⟨u, l₁⟩⟩⟩
  · cases hl
    exact .dels m (fun n _ => ⟨rfl, rfl⟩) fun n _ _ => ⟨rfl, rfl⟩
  · cases hl
    have hlist : l' = [2, 3] := Ring.unique hring' hfirst.listDel
    have hdisj : List.Disjoint (0 :: l') [4] := by simp [hlist]
    exact .moves (m.listDel 1) 4 [] (fun n _ => ⟨rfl, rfl⟩) hother hdisj
      fun n _ _ => ⟨rfl, rfl⟩
  · cases hl
    exact .keeps fun n _ => ⟨rfl, rfl⟩
  · have hlength := congrArg List.length hl
    simp at hlength

end Links
