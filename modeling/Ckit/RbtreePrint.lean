import Ckit.RbtreeInsert

/-!
# `rb_tree_print_in_order`

The traversal uses no stack. Before it goes to the left of a node it writes the node's own
address into the right pointer of the last node there, which is `NULL` in a tree; coming from
the left it is back at the node by that pointer, finds it again by the same search, and
writes `NULL` there. While it runs the memory is therefore no tree, and the loop that looks
for the last node must not run into a cycle.

What it does with a subtree does not depend on where the last right pointer of the subtree
leads: entering the subtree with a way out to `e`, it comes to `e` with the nodes printed and
the memory as it was (`printLoop_subtree`). The invariant is `Leads`, and the induction is on
the subtree. A node without a left child takes one round, any other two.

What `LOG_DBG` prints is recorded by the nodes it is called for.
-/

namespace RbTree

open ColorTree

variable {P κ ν : Type} [DecidableEq P] {t : RbTree P κ ν}

/-- The inner loop: from `prev` along the right pointers, up to `NULL` or to `curr`. -/
def findPrev (t : RbTree P κ ν) (curr : P) : ℕ → P → Option P
  | 0, _ => none
  | fuel + 1, prev =>
    match (t.node prev).right with
    | none => some prev
    | some next => if next = curr then some prev else findPrev t curr fuel next

/-- The outer loop, with a bound on the rounds of the inner one: what has been printed, and the
tree. -/
def printLoop (bound : ℕ) : ℕ → RbTree P κ ν → Option P → List P →
    Option (List P × RbTree P κ ν)
  | 0, _, _, _ => none
  | _ + 1, t, none, out => some (out, t)
  | fuel + 1, t, some curr, out =>
    match (t.node curr).left with
    | none => printLoop bound fuel t (t.node curr).right (out ++ [curr])
    | some left =>
      (t.findPrev curr bound left).bind fun prev =>
        match (t.node prev).right with
        | none =>
          let t := t.setChild prev .right (some curr)
          printLoop bound fuel t (t.node curr).left out
        | some _ =>
          let t := t.setChild prev .right none
          printLoop bound fuel t (t.node curr).right (out ++ [curr])

/-- `rb_tree_print_in_order`: the nodes it prints, and the tree it leaves. -/
def rbTreePrintInOrder (fuel : ℕ) (t : RbTree P κ ν) : Option (List P × RbTree P κ ν) :=
  match t.root with
  | none => some ([], t)
  | some root => printLoop fuel fuel t (some root) []

/-! ## The rounds of the loop -/

/-- **The search** ends at the last node of the right spine, whose pointer leads out of the
subtree: to `NULL` before the thread is written, and to `curr` after. -/
theorem findPrev_eq {curr p : P} {r : ColorTree P} {e : Option P} {fuel : ℕ}
    (h : Leads t.cells r (t.node p).right e) (he : e = none ∨ e = some curr)
    (hcurr : curr ∉ r.inorder) (hfuel : r.inorder.length < fuel) :
    t.findPrev curr fuel p = some (spineEnd p r) := by
  induction r generalizing p fuel with
  | nil =>
    obtain ⟨fuel, rfl⟩ := Nat.exists_eq_succ_of_ne_zero (Nat.ne_zero_of_lt hfuel)
    rw [findPrev, show (t.node p).right = e from h]
    rcases he with rfl | rfl
    · rfl
    · exact if_pos rfl
  | node c l q r _ ihr =>
    obtain ⟨fuel, rfl⟩ := Nat.exists_eq_succ_of_ne_zero (Nat.ne_zero_of_lt hfuel)
    obtain ⟨hq, -, hr⟩ := h
    rw [inorder, List.length_append, List.length_cons] at hfuel
    have hne : q ≠ curr := fun heq =>
      hcurr (List.mem_append_right _ (heq ▸ List.mem_cons_self))
    rw [findPrev, hq]
    show (if q = curr then _ else t.findPrev curr fuel q) = _
    rw [if_neg hne]
    refine ihr hr (fun hmem => hcurr ?_) (by omega)
    exact List.mem_append_right _ (List.mem_cons_of_mem _ hmem)

/-- A round at a node with nothing on its left. -/
theorem printLoop_leftmost {bound : ℕ} {curr : P} (hleft : (t.node curr).left = none) (fuel : ℕ)
    (out : List P) : printLoop bound (fuel + 1) t (some curr) out
      = printLoop bound fuel t (t.node curr).right (out ++ [curr]) := by
  rw [printLoop, hleft]

/-- The round that goes to the left: the thread is written. -/
theorem printLoop_down {bound : ℕ} {curr left prev : P} (hleft : (t.node curr).left = some left)
    (hprev : t.findPrev curr bound left = some prev) (hright : (t.node prev).right = none)
    (fuel : ℕ) (out : List P) : printLoop bound (fuel + 1) t (some curr) out
      = printLoop bound fuel (t.setChild prev .right (some curr))
        ((t.setChild prev .right (some curr)).node curr).left out := by
  rw [printLoop, hleft]
  dsimp only
  rw [hprev, Option.bind_some, hright]

/-- The round that comes back from the left: the thread is taken out. -/
theorem printLoop_back {bound : ℕ} {curr left prev q : P} (hleft : (t.node curr).left = some left)
    (hprev : t.findPrev curr bound left = some prev) (hright : (t.node prev).right = some q)
    (fuel : ℕ) (out : List P) : printLoop bound (fuel + 1) t (some curr) out
      = printLoop bound fuel (t.setChild prev .right none)
        ((t.setChild prev .right none).node curr).right (out ++ [curr]) := by
  rw [printLoop, hleft]
  dsimp only
  rw [hprev, Option.bind_some, hright]

/-- **The subtree with the thread in place** leads to `curr`. -/
theorem leads_thread {c : Color} {l r : ColorTree P} {p : P} {a : Option P}
    (h : Leads t.cells (.node c l p r) a none)
    (hnodup : (ColorTree.node c l p r).inorder.Nodup) (curr : P) :
    Leads (t.setChild (spineEnd p r) .right (some curr)).cells (.node c l p r) a (some curr) := by
  refine h.rethread hnodup ?_ fun q hq => ?_
  · rw [cells_setChild, Function.update_self]
    exact ⟨rfl, rfl⟩
  · rw [cells_setChild, Function.update_of_ne hq]

/-- **The detour through the left subtree of `p`**: two rounds at `p`, and between them what the
loop does with the subtree while the thread is in place. The memory is the same before and
after. -/
theorem printLoop_detour {bound k : ℕ} {t : RbTree P κ ν} {c : Color} {l r : ColorTree P} {p q : P}
    (hl : Leads t.cells (.node c l q r) (t.node p).left none)
    (hnodup : (ColorTree.node c l q r).inorder.Nodup)
    (hp : p ∉ (ColorTree.node c l q r).inorder)
    (hbound : (ColorTree.node c l q r).inorder.length ≤ bound)
    (hsub : ∀ fuel out,
      printLoop bound (k + fuel) (t.setChild (spineEnd q r) .right (some p)) (some q) out
        = printLoop bound fuel (t.setChild (spineEnd q r) .right (some p)) (some p)
          (out ++ (ColorTree.node c l q r).inorder)) (fuel : ℕ) (out : List P) :
    printLoop bound (k + fuel + 2) t (some p) out
      = printLoop bound fuel t (t.node p).right
        (out ++ (ColorTree.node c l q r).inorder ++ [p]) := by
  have hthread := leads_thread hl hnodup p
  have hnull : (t.node (spineEnd q r)).right = none := hl.2.2.spineEnd_right
  have hself : ((t.setChild (spineEnd q r) .right (some p)).node (spineEnd q r)).right = some p :=
    hthread.2.2.spineEnd_right
  have hrest : ∀ x ∈ r.inorder, x ∈ (ColorTree.node c l q r).inorder :=
    fun x hx => List.mem_append_right _ (List.mem_cons_of_mem _ hx)
  have hend : spineEnd q r ≠ p := by
    intro heq
    refine hp (heq ▸ ?_)
    rcases spineEnd_mem q r with hq | hmem
    · rw [hq]
      exact List.mem_append_right _ List.mem_cons_self
    · exact hrest _ hmem
  have hkept : (t.setChild (spineEnd q r) .right (some p)).node p = t.node p :=
    Function.update_of_ne hend.symm _ _
  have hback : (t.setChild (spineEnd q r) .right (some p)).setChild (spineEnd q r) .right none
      = t := by
    rw [setChild_setChild]
    exact setChild_eq_self hnull
  have hlt : r.inorder.length < bound := by
    rw [inorder, List.length_append, List.length_cons] at hbound
    omega
  have hfind : t.findPrev p bound q = some (spineEnd q r) :=
    findPrev_eq hl.2.2 (Or.inl rfl) (fun hmem => hp (hrest _ hmem)) hlt
  have hfind' : (t.setChild (spineEnd q r) .right (some p)).findPrev p bound q
      = some (spineEnd q r) :=
    findPrev_eq hthread.2.2 (Or.inr rfl) (fun hmem => hp (hrest _ hmem)) hlt
  rw [show k + fuel + 2 = k + (fuel + 1) + 1 from rfl, printLoop_down hl.1 hfind hnull, hkept,
    hl.1, hsub, printLoop_back (by rw [hkept]; exact hl.1) hfind' hself, hback]

/-- **What the loop does with a subtree**: it comes to where the subtree leads out, with the
nodes printed in order and the memory as it was. -/
theorem printLoop_subtree {bound : ℕ} {t : RbTree P κ ν} {T : ColorTree P} {a e : Option P}
    (h : Leads t.cells T a e) (hnodup : T.inorder.Nodup) (he : ∀ q, e = some q → q ∉ T.inorder)
    (hbound : T.inorder.length ≤ bound) :
    ∃ k ≤ 2 * T.inorder.length, ∀ fuel out,
      printLoop bound (k + fuel) t a out = printLoop bound fuel t e (out ++ T.inorder) := by
  induction T generalizing t a e with
  | nil =>
    obtain rfl : a = e := h
    exact ⟨0, Nat.zero_le _, fun fuel out => by rw [inorder, List.append_nil, Nat.zero_add]⟩
  | node c l p r ihl ihr =>
    obtain ⟨rfl, hl, hr⟩ := h
    obtain ⟨hnl, hpr, hdisj⟩ := List.nodup_append'.mp hnodup
    have hpl : p ∉ l.inorder := fun hmem => hdisj hmem List.mem_cons_self
    have hlen : (ColorTree.node c l p r).inorder.length
        = l.inorder.length + r.inorder.length + 1 := by
      rw [inorder, List.length_append, List.length_cons]
      omega
    have hinorder : ∀ out : List P,
        out ++ l.inorder ++ [p] ++ r.inorder = out ++ (ColorTree.node c l p r).inorder := by
      intro out
      rw [inorder, List.append_assoc, List.append_assoc]
      rfl
    -- the right subtree comes last, and leads out of the whole
    obtain ⟨kr, hkr, hright⟩ := ihr hr (List.nodup_cons.mp hpr).2
      (fun q hq hmem => he q hq (List.mem_append_right _ (List.mem_cons_of_mem _ hmem))) (by omega)
    cases l with
    | nil =>
      refine ⟨kr + 1, by omega, fun fuel out => ?_⟩
      rw [Nat.add_right_comm, printLoop_leftmost hl, ← hinorder out,
        show (nil : ColorTree P).inorder = [] from rfl, List.append_nil]
      exact hright fuel (out ++ [p])
    | node c' l' q r' =>
      obtain ⟨kl, hkl, hleft⟩ := ihl (leads_thread hl hnl p) hnl
        (fun x hx hmem => hpl (Option.some.inj hx ▸ hmem)) (by omega)
      refine ⟨kl + kr + 2, by omega, fun fuel out => ?_⟩
      rw [show kl + kr + 2 + fuel = kl + (kr + fuel) + 2 by omega,
        printLoop_detour hl hnl hpl (by omega) (fun fuel out => hl.1 ▸ hleft fuel out),
        ← hinorder out]
      exact hright fuel _

/-- **The traversal prints a tree in order and leaves no trace.** For every tree of different
nodes that the root leads through by the child pointers, whatever the colours and the parent
pointers are, it returns, for every bound above twice the number of nodes; it has printed every
node once, in order, and the whole memory is as it was. -/
theorem rb_tree_print_in_order_traverses (t : RbTree P κ ν) (T : ColorTree P)
    (hroot : Leads t.cells T t.root none) (hnodup : T.inorder.Nodup) (fuel : ℕ)
    (hfuel : 2 * T.inorder.length < fuel) :
    t.rbTreePrintInOrder fuel = some (T.inorder, t) := by
  obtain ⟨k, hk, hloop⟩ := printLoop_subtree (e := none) hroot hnodup (fun _ hq => nomatch hq)
    (show T.inorder.length ≤ fuel by omega)
  have hrun := hloop (fuel - k) []
  rw [Nat.add_sub_cancel' (by omega), List.nil_append,
    show fuel - k = fuel - k - 1 + 1 by omega, printLoop] at hrun
  cases T with
  | nil =>
    rw [rbTreePrintInOrder, show t.root = none from hroot]
    rfl
  | node c l p r =>
    rw [rbTreePrintInOrder, hroot.1]
    rw [hroot.1] at hrun
    exact hrun

/-- A tree of three numbers, in which no parent pointer is right. -/
def strayTree : RbTree ℕ ℕ Unit where
  root := some 2
  keyCompare a b := (a : ℤ) - b
  node
    | 2 => ⟨⟨.red, some 1, none, some 3⟩, 0, ()⟩
    | 1 => ⟨⟨.red, none, some 3, none⟩, 0, ()⟩
    | _ => ⟨⟨.black, none, none, some 9⟩, 0, ()⟩
  log := []

/-- The left child of the root has a right child. -/
theorem rb_tree_print_in_order_stray :
    strayTree.rbTreePrintInOrder 7 = some ([1, 3, 2], strayTree) :=
  rb_tree_print_in_order_traverses strayTree
    (.node .red (.node .red nil 1 (.node .black nil 3 nil)) 2 nil)
    ⟨rfl, ⟨rfl, rfl, rfl, rfl, rfl⟩, rfl⟩ (by decide) 7 (by decide)

end RbTree
