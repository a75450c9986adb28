import Ckit.RbtreeRun

/-!
# `bst_insert` by itself

`bst_insert` goes down by `key_compare` and hangs a red leaf where it falls off the tree. It
does not rebalance, so it works on any search tree, also one in which keys tie.

For a key that ties with none it does exactly what it should (`bst_insert_places`): the leaf
comes between the nodes with a smaller key and those with a larger one, and of what was there
before a single `NULL` pointer changes. For a key that ties with a stored one, its comment
promises to return `0`; but the test that would do so is commented out, and the key is stored
again (`bst_insert_unique_run`).
-/

namespace RbTree

open ColorTree

variable {P κ ν : Type} [DecidableEq P] {t t' : RbTree P κ ν} {T : ColorTree P}

/-! ## Where the leaf goes, and what stays -/

/-- Where `malloc` fails, `bst_insert` changes nothing. -/
theorem bstInsert_none {key : κ} {val : ν} {fuel : ℕ} (hloc : Located t.cells t.root [] T)
    (hfuel : T.inorder.length < fuel) : t.bstInsert fuel key val none = some (-1, none, t) := by
  rcases @bstInsert_place P κ ν _ t key val T fuel hloc hfuel none with
    ⟨-, hroot⟩ | ⟨f, fs, -, hplug, hrun⟩
  · rw [bstInsert, hroot]
    show some ((-1 : ℤ), (none : Option P), { t with root := none }) = _
    rw [← hroot]
  · have hchild : (t.node f.p).child f.side = none := (located_child hplug).1
    rw [hrun, insertLeaf, setChild_eq_self hchild]

/-- **The one link that changes**: the root pointer of an empty tree, or a `NULL` child of a
node `p` that was in the tree. All other nodes are as they were, but for the new one. -/
inductive LinkAdded (t t' : RbTree P κ ν) (T : ColorTree P) (n : P) : Prop
  | root (hnil : T = nil) (hroot : t'.root = some n) (hparent : (t'.node n).parent = none)
      (hframe : ∀ q, q ≠ n → t'.node q = t.node q) : LinkAdded t t' T n
  | child (p : P) (side : Side) (hmem : p ∈ T.inorder) (hnull : (t.node p).child side = none)
      (hroot : t'.root = t.root) (hparent : (t'.node n).parent = some p)
      (hlink : t'.node p
        = { t.node p with toCell := (t.node p).toCell.withChild side (some n) })
      (hframe : ∀ q, q ≠ n → q ≠ p → t'.node q = t.node q) : LinkAdded t t' T n

/-- **The new leaf in its place.** -/
structure LeafPlaced (t t' : RbTree P κ ν) (T : ColorTree P) (n : P) (key : κ) (val : ν) :
    Prop where
  /-- The leaf comes after the nodes with a smaller key and before those with a larger one, in a
  tree whose pointers are right. -/
  order : ∃ smaller larger T', T.inorder = smaller ++ larger
    ∧ (∀ p ∈ smaller, 0 < t.keyCompare key (t.node p).key)
    ∧ (∀ p ∈ larger, t.keyCompare key (t.node p).key < 0)
    ∧ Located t'.cells t'.root [] T' ∧ T'.inorder = smaller ++ n :: larger
  red : (t'.node n).color = .red
  left : (t'.node n).left = none
  right : (t'.node n).right = none
  item : (t'.node n).key = key ∧ (t'.node n).val = val
  link : LinkAdded t t' T n
  keyCompare : t'.keyCompare = t.keyCompare

/-- What `bst_insert` leaves, from where it has gone. -/
theorem bstInsert_some {key : κ} {val : ν} {n : P} {fuel : ℕ}
    (hloc : Located t.cells t.root [] T) (hn : n ∉ T.inorder)
    (hfuel : T.inorder.length < fuel) :
    ∃ t' parent, t.bstInsert fuel key val (some n) = some (1, some n, t')
      ∧ t'.node n = ⟨⟨.red, none, none, parent⟩, key, val⟩ ∧ LinkAdded t t' T n := by
  rcases @bstInsert_place P κ ν _ t key val T fuel hloc hfuel (some n) with
    ⟨hnil, hroot⟩ | ⟨f, fs, hdesc, hplug, hrun⟩
  · have hself : (t.rbNodeAlloc n key val none).node n = ⟨⟨.red, none, none, none⟩, key, val⟩ :=
      Function.update_self ..
    refine ⟨{ t.rbNodeAlloc n key val none with root := some n }, none, ?_, hself, ?_⟩
    · rw [bstInsert, hroot]
    · refine .root hnil rfl ?_ fun q hq => Function.update_of_ne hq _ _
      exact congrArg (fun x => x.parent) hself
  · have hmem : f.p ∈ T.inorder := by
      have hpath : f.p ∈ pathNodes (T.descend (t.goesLeft key) []) := by
        rw [hdesc]
        exact List.mem_append_left _ List.mem_cons_self
      exact mem_of_descend hpath
    have hchild : (t.node f.p).child f.side = none := (located_child hplug).1
    have hne : n ≠ f.p := fun heq => hn (heq ▸ hmem)
    have hself : ((t.rbNodeAlloc n key val (some f.p)).setChild f.p f.side (some n)).node n
        = ⟨⟨.red, none, none, some f.p⟩, key, val⟩ := by
      show Function.update _ f.p _ n = _
      rw [Function.update_of_ne hne]
      exact Function.update_self ..
    refine ⟨_, some f.p, hrun, hself, .child f.p f.side hmem hchild rfl ?_ ?_ fun q hqn hqp => ?_⟩
    · exact congrArg (fun x => x.parent) hself
    · have hp : (t.rbNodeAlloc n key val (some f.p)).node f.p = t.node f.p :=
        Function.update_of_ne hne.symm _ _
      show Function.update _ f.p _ f.p = _
      rw [Function.update_self, hp]
      cases f.side <;> rfl
    · show Function.update _ f.p _ q = _
      rw [Function.update_of_ne hqp]
      exact Function.update_of_ne hqn _ _

/-- **`bst_insert` of a key that ties with none.** On a search tree it returns, for every bound
that is more than the number of nodes. Where `malloc` returns `n` the tree has a new red leaf
in its place and is otherwise the same; where it fails nothing changes. -/
theorem bst_insert_places (t : RbTree P κ ν) (T : ColorTree P) (key : κ) (val : ν) (fuel : ℕ)
    (hcomp : CompareLaws t.keyCompare) (hloc : Located t.cells t.root [] T)
    (hsorted : (T.inorder.map fun p => (t.node p).key).Pairwise fun a b => t.keyCompare a b ≤ 0)
    (hkey : ∀ p ∈ T.inorder, t.keyCompare key (t.node p).key ≠ 0)
    (hfuel : T.inorder.length < fuel) :
    (∀ n, n ∉ T.inorder → ∃ t', t.bstInsert fuel key val (some n) = some (1, some n, t')
        ∧ LeafPlaced t t' T n key val)
      ∧ t.bstInsert fuel key val none = some (-1, none, t) := by
  refine ⟨fun n hn => ?_, bstInsert_none hloc hfuel⟩
  obtain ⟨t', parent, hrun, hself, hlink⟩ :=
    @bstInsert_some P κ ν _ t T key val n fuel hloc hn hfuel
  obtain ⟨t₁, hrun₁, hnew, hloc'⟩ := @bstInsert_eq P κ ν _ t key val n T fuel hloc hn hfuel
  obtain rfl : t' = t₁ := by
    rw [hrun] at hrun₁
    exact congrArg (fun r => r.2.2) (Option.some.inj hrun₁)
  obtain ⟨hbefore, hafter⟩ := descend_compare hsorted hcomp key
  have hparts := inorder_descend (t.goesLeft key) T
  refine ⟨t', hrun, ⟨_, _, _, hparts, fun p hp => ?_, fun p hp => ?_, located_plug.mp hloc',
    inorder_plug_leaf _ _ _⟩, ?_, ?_, ?_, ?_, hlink, hnew.keyCompare⟩
  · have hle := (hcomp.swap _ _).mp (hbefore p hp)
    have hne := hkey p (hparts ▸ List.mem_append_left _ hp)
    omega
  · have hle := hafter p hp
    have hne := hkey p (hparts ▸ List.mem_append_right _ hp)
    omega
  · rw [hself]
  · rw [hself]
  · rw [hself]
  · rw [hself]
    exact ⟨rfl, rfl⟩

/-- A tree of three numbers, in which `5` is stored twice. -/
def tiedTree : RbTree ℕ ℕ Unit where
  root := some 1
  keyCompare a b := (a : ℤ) - b
  node
    | 1 => ⟨⟨.black, some 2, some 3, none⟩, 5, ()⟩
    | 2 => ⟨⟨.red, none, none, some 1⟩, 5, ()⟩
    | 3 => ⟨⟨.red, none, none, some 1⟩, 9, ()⟩
    | _ => ⟨⟨.black, none, none, none⟩, 0, ()⟩
  log := []

theorem compareLaws_sub : CompareLaws fun a b : ℕ => (a : ℤ) - b :=
  ⟨fun a b => by omega, fun a b c hab hbc => by omega⟩

/-- `7` comes between the two `5`s and the `9`. -/
theorem bst_insert_places_tied :
    ∃ t', tiedTree.bstInsert 4 7 () (some 4) = some (1, some 4, t')
      ∧ LeafPlaced tiedTree t' (.node .black (.node .red nil 2 nil) 1 (.node .red nil 3 nil))
        4 7 () :=
  (bst_insert_places tiedTree (.node .black (.node .red nil 2 nil) 1 (.node .red nil 3 nil)) 7 () 4
    compareLaws_sub ⟨⟨rfl, ⟨rfl, trivial, trivial⟩, rfl, trivial, trivial⟩, trivial, rfl, by decide⟩
    (by decide) (by decide) (by decide)).1 4 (by decide)

/-! ## Keys that are stored already -/

/-- The nodes that are read from the root, in order. -/
def stored (fuel : ℕ) (t : RbTree P κ ν) : List P :=
  ((t.toTree fuel t.root).map inorder).getD []

/-- A call of `bst_insert` as a step: `malloc` returns memory that is not in use. -/
def bstStep (fuel : ℕ) (t : RbTree P κ ν) (e : P × κ × ν) : Option (RbTree P κ ν) :=
  if e.1 ∈ t.log.map Prod.fst then none
  else (t.bstInsert fuel e.2.1 e.2.2 (some e.1)).map fun r => r.2.2

/-- **The call does what the comment says**: it returns `0` and changes nothing exactly where a
stored key ties with the new one, and otherwise `1`, with one node more. -/
def CallRight (fuel : ℕ) (t : RbTree P κ ν) (e : P × κ × ν) : Prop :=
  ∃ ret new t', t.bstInsert fuel e.2.1 e.2.2 (some e.1) = some (ret, new, t')
    ∧ (ret = 0 ∧ t' = t ↔ ∃ p ∈ t.stored fuel, t.keyCompare e.2.1 (t.node p).key = 0)
    ∧ ((∀ p ∈ t.stored fuel, t.keyCompare e.2.1 (t.node p).key ≠ 0) →
      ret = 1 ∧ new = some e.1 ∧ (t'.stored fuel).Perm (e.1 :: t.stored fuel)
        ∧ (t'.node e.1).key = e.2.1)

/-- The key ties with no stored one. -/
def NewKey (fuel : ℕ) (t : RbTree P κ ν) (e : P × κ × ν) : Prop :=
  ∀ p ∈ t.stored fuel, t.keyCompare e.2.1 (t.node p).key ≠ 0

/-- **No two stored keys tie.** -/
def DistinctKeys (fuel : ℕ) (t : RbTree P κ ν) : Prop :=
  (t.stored fuel).Pairwise fun p q => t.keyCompare (t.node p).key (t.node q).key ≠ 0

instance (fuel : ℕ) (t : RbTree P κ ν) (e : P × κ × ν) : Decidable (NewKey fuel t e) :=
  inferInstanceAs (Decidable (∀ p ∈ t.stored fuel, _))

/-- What every call keeps: the tree `T` is in memory, with a node for each call. -/
structure Bst (t : RbTree P κ ν) (T : ColorTree P) : Prop where
  located : Located t.cells t.root [] T
  nodes : T.inorder.Perm (t.log.map Prod.fst)

omit [DecidableEq P] in
theorem Bst.length (h : Bst t T) : T.inorder.length = t.log.length :=
  h.nodes.length_eq.trans (List.length_map ..)

omit [DecidableEq P] in
theorem Bst.stored_eq (h : Bst t T) {fuel : ℕ} (hfuel : t.log.length < fuel) :
    t.stored fuel = T.inorder := by
  have hroot : T.root = t.root := h.located.root_eq
  have hread := toTree_eq h.located.repr (show T.inorder.length < fuel by rwa [h.length])
  rw [hroot] at hread
  rw [stored, hread]
  rfl

/-- **What a call does**: it returns `1`, whether the key is stored already or not. -/
theorem Bst.call (h : Bst t T) {fuel : ℕ} (hfuel : t.log.length < fuel) {n : P}
    (hfresh : n ∉ t.log.map Prod.fst) (key : κ) (val : ν) :
    ∃ t', t.bstInsert fuel key val (some n) = some (1, some n, t') ∧ NewItem t t' n key val
      ∧ Bst t' (plug (T.descend (t.goesLeft key) []) (.node .red nil n nil)) := by
  have hn : n ∉ T.inorder := fun hmem => hfresh (h.nodes.subset hmem)
  obtain ⟨t', hrun, hnew, hloc⟩ := @bstInsert_eq P κ ν _ t key val n T fuel h.located hn
    (by rw [h.length]; exact hfuel)
  refine ⟨t', hrun, hnew, located_plug.mp hloc, ?_⟩
  rw [hnew.log, List.map_cons, inorder_plug_leaf]
  refine List.perm_middle.trans (List.Perm.cons n ?_)
  rw [← inorder_descend]
  exact h.nodes

/-- **A call is right exactly where its key is new.** -/
theorem Bst.callRight_iff (h : Bst t T) {fuel : ℕ} (hfuel : t.log.length + 1 < fuel)
    {e : P × κ × ν} (hfresh : e.1 ∉ t.log.map Prod.fst) : CallRight fuel t e ↔ NewKey fuel t e := by
  obtain ⟨t', hrun, hnew, hbst⟩ := h.call (Nat.lt_of_succ_lt hfuel) hfresh e.2.1 e.2.2
  have hlog : t'.log.length = t.log.length + 1 := by
    rw [hnew.log, List.length_cons]
  constructor
  · rintro ⟨ret, new, t₁, hrun₁, hzero, -⟩ p hp htie
    obtain ⟨rfl, -⟩ := hzero.mpr ⟨p, hp, htie⟩
    rw [hrun] at hrun₁
    exact absurd (congrArg Prod.fst (Option.some.inj hrun₁)) (by simp)
  · intro hkey
    refine ⟨1, some e.1, t', hrun, iff_of_false (fun hc => by simp at hc) ?_, fun _ =>
      ⟨rfl, rfl, ?_, hnew.new.1⟩⟩
    · rintro ⟨p, hp, htie⟩
      exact hkey p hp htie
    · rw [hbst.stored_eq (by omega), h.stored_eq (by omega)]
      rw [inorder_plug_leaf]
      refine List.perm_middle.trans (List.Perm.cons e.1 ?_)
      rw [← inorder_descend]

omit [DecidableEq P] in
/-- A new key that ties with none keeps the keys apart. -/
theorem Bst.distinct (h : Bst t T) (hcomp : CompareLaws t.keyCompare) {fuel : ℕ}
    (hfuel : t.log.length + 1 < fuel) {n : P} {key : κ} {val : ν}
    (hfresh : n ∉ t.log.map Prod.fst) (hnew : NewItem t t' n key val)
    (hbst : Bst t' (plug (T.descend (t.goesLeft key) []) (.node .red nil n nil)))
    (hkey : ∀ p ∈ t.stored fuel, t.keyCompare key (t.node p).key ≠ 0)
    (hdist : DistinctKeys fuel t) : DistinctKeys fuel t' := by
  have hlog : t'.log.length = t.log.length + 1 := by
    rw [hnew.log, List.length_cons]
  unfold DistinctKeys at *
  rw [h.stored_eq (by omega)] at hkey hdist
  rw [hbst.stored_eq (by omega), inorder_plug_leaf, hnew.keyCompare]
  have hold : ∀ p ∈ T.inorder, (t'.node p).key = (t.node p).key :=
    fun p hp => (hnew.old p fun heq => hfresh (heq ▸ h.nodes.subset hp)).1
  have hsymm : ∀ a b, t.keyCompare a b ≠ 0 → t.keyCompare b a ≠ 0 := by
    intro a b hab hba
    have h₁ := (hcomp.swap a b).mpr hba.ge
    have h₂ := (hcomp.swap b a).mp hba.le
    omega
  have hparts := inorder_descend (t.goesLeft key) T
  rw [hparts] at hkey hold hdist
  obtain ⟨hb, ha, hba⟩ := List.pairwise_append.mp hdist
  refine List.pairwise_append.mpr ⟨?_, List.pairwise_cons.mpr ⟨?_, ?_⟩, ?_⟩
  · refine hb.imp_of_mem fun hp hq hpq => ?_
    rwa [hold _ (List.mem_append_left _ hp), hold _ (List.mem_append_left _ hq)]
  · intro q hq
    rw [hnew.new.1, hold q (List.mem_append_right _ hq)]
    exact hkey q (List.mem_append_right _ hq)
  · refine ha.imp_of_mem fun hp hq hpq => ?_
    rwa [hold _ (List.mem_append_right _ hp), hold _ (List.mem_append_right _ hq)]
  · intro p hp q hq
    rcases List.mem_cons.mp hq with rfl | hq
    · rw [hnew.new.1, hold p (List.mem_append_left _ hp)]
      exact hsymm _ _ (hkey p (List.mem_append_left _ hp))
    · rw [hold p (List.mem_append_left _ hp), hold q (List.mem_append_right _ hq)]
      exact hba p hp q hq

/-- The state within a run of the calls `es`: `es'` are still to come. -/
def BstRun (comp : κ → κ → ℤ) (es es' : List (P × κ × ν)) (t : RbTree P κ ν) : Prop :=
  (∃ T, Bst t T) ∧ t.keyCompare = comp ∧ es = t.log.reverse ++ es'

omit [DecidableEq P] in
theorem BstRun.fresh {comp : κ → κ → ℤ} {es es' : List (P × κ × ν)} {e : P × κ × ν}
    (h : BstRun comp es (e :: es') t) (hfresh : (es.map Prod.fst).Nodup) :
    e.1 ∉ t.log.map Prod.fst ∧ t.log.length + 1 ≤ es.length := by
  obtain ⟨-, -, hes⟩ := h
  constructor
  · rw [hes, List.map_append, List.map_cons, List.map_reverse] at hfresh
    intro hmem
    exact (List.nodup_append'.mp hfresh).2.2 (List.mem_reverse.mpr hmem) List.mem_cons_self
  · rw [hes, List.length_append, List.length_reverse, List.length_cons]
    omega

/-- **A step of the run**, whatever its key. -/
theorem BstRun.step {comp : κ → κ → ℤ} {es es' : List (P × κ × ν)} {e : P × κ × ν} {fuel : ℕ}
    (h : BstRun comp es (e :: es') t) (hfresh : (es.map Prod.fst).Nodup)
    (hfuel : es.length < fuel) : ∃ t', bstStep fuel t e = some t' ∧ BstRun comp es es' t' := by
  obtain ⟨hnew, hlen⟩ := h.fresh hfresh
  obtain ⟨⟨T, hT⟩, hc, hes⟩ := h
  obtain ⟨t', hrun, hitem, hbst⟩ := hT.call (Nat.lt_of_succ_lt (Nat.lt_of_le_of_lt hlen hfuel))
    hnew e.2.1 e.2.2
  refine ⟨t', ?_, ⟨_, hbst⟩, hitem.keyCompare.trans hc, ?_⟩
  · rw [bstStep, if_neg hnew, hrun]
    rfl
  · rw [hitem.log, List.reverse_cons, List.append_assoc]
    exact hes

/-- **Keys stay unique exactly where every key is new.** Every run of `bst_insert` from the empty
tree returns. Its calls do what the comment says, and no two stored keys ever tie, exactly
where each call's key ties with none that is stored when it is made. -/
theorem bst_insert_unique_run (comp : κ → κ → ℤ) (hcomp : CompareLaws comp)
    (node : P → RbNode P κ ν) (es : List (P × κ × ν)) (hfresh : (es.map Prod.fst).Nodup)
    (fuel : ℕ) (hfuel : es.length < fuel) :
    (∃ t, run (bstStep fuel) (empty comp node) es = some t)
      ∧ (Meets (bstStep fuel) (CallRight fuel) (empty comp node) es
          ∧ Along (bstStep fuel) (DistinctKeys fuel) (empty comp node) es
        ↔ Meets (bstStep fuel) (NewKey fuel) (empty comp node) es) := by
  have hstart : BstRun comp es es (empty comp node) :=
    ⟨⟨nil, (redBlack_empty comp node).located, .nil⟩, rfl, rfl⟩
  have hright : Meets (bstStep fuel) (CallRight fuel) (empty comp node) es
      ↔ Meets (bstStep fuel) (NewKey fuel) (empty comp node) es := by
    refine Run.meets_iff_meets_within (J := BstRun comp es) (fun e es' t h => ?_)
      (fun e es' t t' h _ hrun => ?_) hstart
    · obtain ⟨hnew, hlen⟩ := h.fresh hfresh
      obtain ⟨⟨T, hT⟩, -, -⟩ := h
      exact hT.callRight_iff (by omega) hnew
    · obtain ⟨t₁, hrun₁, h'⟩ := h.step hfresh hfuel
      exact Option.some.inj (hrun₁.symm.trans hrun) ▸ h'
  refine ⟨?_, fun h => hright.mp h.1, fun h => ⟨hright.mpr h, ?_⟩⟩
  · obtain ⟨⟨t, hrun, -⟩, -⟩ := Run.total_within (J := BstRun comp es) (B := fun _ => True)
      (P := fun _ => True) (fun _ _ _ => trivial)
      (fun e es' t h _ => (h.step hfresh hfuel).imp fun t' h' => ⟨h'.1, fun _ => h'.2⟩)
      hstart (Run.meets_true _ _) (Run.along_of_forall (fun _ => trivial) _ _)
    exact ⟨t, hrun⟩
  · refine (Run.total_within (J := fun es' t => BstRun comp es es' t ∧ DistinctKeys fuel t)
      (B := fun _ => True) (fun _ _ h => h.2) (fun e es' t h hkey => ?_) ⟨hstart, ?_⟩ h
      (Run.along_of_forall (fun _ => trivial) _ _)).2
    · obtain ⟨h, hdist⟩ := h
      obtain ⟨t', hrun, h'⟩ := h.step hfresh hfuel
      refine ⟨t', hrun, fun _ => ⟨h', ?_⟩⟩
      obtain ⟨hnew, hlen⟩ := h.fresh hfresh
      obtain ⟨⟨T, hT⟩, hc, -⟩ := h
      obtain ⟨t₁, hcall, hitem, hbst⟩ := hT.call
        (Nat.lt_of_succ_lt (Nat.lt_of_le_of_lt hlen hfuel)) hnew e.2.1 e.2.2
      obtain rfl : t₁ = t' := by
        rw [bstStep, if_neg hnew, hcall] at hrun
        exact Option.some.inj hrun
      exact hT.distinct (hc ▸ hcomp) (by omega) hnew hitem hbst hkey hdist
    · have hnil : (empty comp node : RbTree P κ ν).stored fuel = [] := by
        cases fuel with
        | zero => rfl
        | succ fuel => rfl
      rw [DistinctKeys, hnil]
      exact .nil

/-- Three different numbers. -/
theorem bst_insert_unique_run_three :
    (∃ t, run (bstStep 9) natTree (natInserts [10, 5, 15]) = some t)
      ∧ Meets (bstStep 9) (CallRight 9) natTree (natInserts [10, 5, 15])
      ∧ Along (bstStep 9) (DistinctKeys 9) natTree (natInserts [10, 5, 15]) := by
  obtain ⟨hrun, hiff⟩ := bst_insert_unique_run _ compareLaws_sub _ (natInserts [10, 5, 15])
    (by decide) 9 (by decide)
  exact ⟨hrun, hiff.mpr (by decide +kernel)⟩

/-- **The same key twice**: the second call returns `1` and stores it again, beside the first. -/
theorem bst_insert_twice :
    ∃ t t', run (bstStep 9) natTree [(1, 5, ())] = some t
      ∧ t.bstInsert 9 5 () (some 2) = some (1, some 2, t') ∧ t'.stored 9 = [1, 2]
      ∧ (t'.node 1).key = 5 ∧ (t'.node 2).key = 5 ∧ t'.keyCompare 5 5 = 0
      ∧ ¬ CallRight 9 t (2, 5, ()) ∧ ¬ DistinctKeys 9 t' := by
  refine ⟨_, _, rfl, rfl, rfl, rfl, rfl, rfl, ?_, fun h => ?_⟩
  · rintro ⟨ret, new, t₁, hrun, hzero, -⟩
    obtain ⟨rfl, -⟩ := hzero.mpr ⟨1, by decide, by decide⟩
    have hret : (1 : ℤ) = 0 := congrArg Prod.fst (Option.some.inj hrun)
    exact absurd hret (by decide)
  · exact (List.pairwise_cons.mp h).1 2 (by decide) (by decide)

end RbTree
