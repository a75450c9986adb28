import Ckit.Ledger
import Ckit.RbtreeCopy
import Ckit.RbtreeRotate
import Ckit.RbtreeRun
import Mathlib.Data.List.Pairwise

/-!
# `rb_tree_destroy`

The tree is taken down from its leaves: `rb_tree_node_destroy` calls itself for the two
children of a node, calls `key_free` and `value_free` on what the node holds, and gives
back the node itself. It reads the node in between, and whatever has been given back may
not be read, nor given back again.

Nothing is known of the pointers to begin with. Where the root leads through a tree – which
may come to a node in several ways – the function returns exactly where every block of
memory it comes to is allocated and comes up once: every node, and every buffer of a key
or of a value (`rb_tree_destroy_iff`). What it gives back then are these blocks.

So it depends on the insertions whether the tree can be taken down. Where they keep the
nodes, every buffer and every node is given back (`rb_tree_destroy_run`). Where a rotation
below the root has gone wrong, a node is below its old parent in two ways, and
`rb_tree_destroy` reads it when it has been given back (`rb_tree_destroy_insert_iff`): among
nodes with blocks of their own there is nothing else that keeps it from returning
(`Apart.destroy`).
-/

/-- A block of memory: a node, or the data of a key or of a value. -/
inductive Block (A P : Type) where
  | node (p : P)
  | data (a : A)
deriving DecidableEq

/-- The two buffers of a node. -/
inductive BufferField where
  | key
  | val
deriving DecidableEq

/-- A node with a key and a value that may have no data. -/
abbrev DataNode (A P : Type) : Type := RbNode P (Buffer (Option A)) (Buffer (Option A))

/-- The data of a key or of a value. -/
def DataNode.data {A P : Type} (x : DataNode A P) : BufferField → Option A
  | .key => x.key.data
  | .val => x.val.data

/-- The write `data = NULL`. -/
def DataNode.clear {A P : Type} (x : DataNode A P) : BufferField → DataNode A P
  | .key => { x with key := ⟨x.key.len, none⟩ }
  | .val => { x with val := ⟨x.val.len, none⟩ }

/-- `struct rb_tree`, with the memory of the nodes, and what of the memory is allocated. -/
structure TreeMem (A P : Type) where
  root : Option P
  /-- Whether `ops` has `default_key_free` and `default_value_free`, or `NULL`. -/
  frees : BufferField → Bool
  node : P → DataNode A P
  ledger : Ledger (Block A P)

namespace TreeMem

open ColorTree

variable {A P : Type}

/-- The links of the nodes. -/
def cells (s : TreeMem A P) (p : P) : Cell P := (s.node p).toCell

/-- A node is read; it may not have been given back. -/
def read (s : TreeMem A P) (p : P) : Option (DataNode A P) :=
  if s.ledger.live (.node p) = true then some (s.node p) else none

variable [DecidableEq A] [DecidableEq P]

/-- `free`. -/
def free (s : TreeMem A P) (b : Block A P) : Option (TreeMem A P) :=
  (s.ledger.free b).map fun ledger => { s with ledger := ledger }

/-- `default_key_free` and `default_value_free`, of a node. -/
def defaultFree (f : BufferField) (s : TreeMem A P) (p : P) : Option (TreeMem A P) := do
  let x ← s.read p
  match x.data f with
  | none => return s
  | some a =>
    let s ← s.free (.data a)
    return { s with node := Function.update s.node p ((s.node p).clear f) }

/-- `default_key_free`. -/
def defaultKeyFree (s : TreeMem A P) (p : P) : Option (TreeMem A P) := s.defaultFree .key p

/-- `default_value_free`. -/
def defaultValueFree (s : TreeMem A P) (p : P) : Option (TreeMem A P) := s.defaultFree .val p

/-- The call of `key_free` or of `value_free`, where there is one. -/
def callFree (f : BufferField) (s : TreeMem A P) (p : P) : Option (TreeMem A P) :=
  if s.frees f then
    match f with
    | .key => s.defaultKeyFree p
    | .val => s.defaultValueFree p
  else some s

/-- `rb_tree_node_destroy`. -/
def rbTreeNodeDestroy : ℕ → TreeMem A P → Option P → Option (TreeMem A P)
  | 0, _, _ => none
  | _ + 1, s, none => some s
  | fuel + 1, s, some p => do
    let s ← rbTreeNodeDestroy fuel s (← s.read p).left
    let s ← rbTreeNodeDestroy fuel s (← s.read p).right
    let s ← callFree .key s p
    let s ← callFree .val s p
    s.free (.node p)

/-- `rb_tree_destroy`. -/
def rbTreeDestroy (fuel : ℕ) (s : TreeMem A P) : Option (TreeMem A P) :=
  rbTreeNodeDestroy fuel s s.root

/-! ## The blocks of a tree -/

omit [DecidableEq A] [DecidableEq P] in
/-- The data of a key or of a value, where it is given back. -/
def dataBlocks (s : TreeMem A P) (p : P) (f : BufferField) : List (Block A P) :=
  if s.frees f then (((s.node p).data f).map .data).toList else []

/-- The blocks of a node, in the order in which they are given back. -/
def own (s : TreeMem A P) (p : P) : List (Block A P) :=
  s.dataBlocks p .key ++ (s.dataBlocks p .val ++ [.node p])

/-- **The blocks of a tree**, in the order in which they are given back. -/
def blocks (s : TreeMem A P) : ColorTree P → List (Block A P)
  | nil => []
  | .node _ l p r => blocks s l ++ (blocks s r ++ s.own p)

variable {s s' s'' : TreeMem A P} {t : ColorTree P} {fuel : ℕ} {bs bs' : List (Block A P)}
  {ps ps' : List P} {p : P}

/-- **Blocks have been given back**, and of the nodes only those in `ps` may have changed, and
not in their links. -/
structure Freed (s s' : TreeMem A P) (bs : List (Block A P)) (ps : List P) : Prop where
  ledger : s'.ledger = s.ledger.after bs
  frees : s'.frees = s.frees
  cells : s'.cells = s.cells
  node : ∀ q ∉ ps, s'.node q = s.node q

theorem Freed.rfl' : Freed s s [] ps := ⟨Ledger.after_nil.symm, rfl, rfl, fun _ _ => rfl⟩

theorem Freed.trans (h : Freed s s' bs ps) (h' : Freed s' s'' bs' ps') :
    Freed s s'' (bs ++ bs') (ps ++ ps') := by
  refine ⟨?_, h'.frees.trans h.frees, h'.cells.trans h.cells, fun q hq => ?_⟩
  · rw [h'.ledger, h.ledger, Ledger.after_after]
  · rw [List.mem_append, not_or] at hq
    exact (h'.node q hq.2).trans (h.node q hq.1)

theorem Freed.mono (h : Freed s s' bs ps) (hps : ∀ q ∈ ps, q ∈ ps') : Freed s s' bs ps' :=
  ⟨h.ledger, h.frees, h.cells, fun q hq => h.node q fun hmem => hq (hps q hmem)⟩

/-- The blocks of what comes next are allocated besides those given back already. -/
theorem Freed.has_append (h : Freed s s' bs ps) :
    s.ledger.Has (bs ++ bs') ↔ s.ledger.Has bs ∧ s'.ledger.Has bs' := by
  rw [Ledger.has_append, h.ledger]

omit [DecidableEq A] [DecidableEq P] in
theorem mem_blocks_node {q : P} : Block.node q ∈ s.blocks t ↔ q ∈ t.inorder := by
  have hdata : ∀ p f, Block.node q ∉ s.dataBlocks p f := by
    intro p f
    unfold dataBlocks
    split
    · cases (s.node p).data f <;> simp
    · exact List.not_mem_nil
  induction t with
  | nil => exact iff_of_false List.not_mem_nil List.not_mem_nil
  | node c l p r ihl ihr =>
    simp only [blocks, own, inorder, List.mem_append, List.mem_cons, ihl, ihr, hdata,
      List.not_mem_nil, Block.node.injEq, false_or, or_false]
    tauto

omit [DecidableEq A] [DecidableEq P] in
/-- The blocks of a node that is the same. -/
theorem own_congr (hfrees : s'.frees = s.frees) {q : P} (hq : s'.node q = s.node q) :
    s'.own q = s.own q := by
  unfold own dataBlocks
  rw [hfrees, hq]

omit [DecidableEq A] [DecidableEq P] in
theorem blocks_congr (hfrees : s'.frees = s.frees)
    (hnode : ∀ q ∈ t.inorder, s'.node q = s.node q) : s'.blocks t = s.blocks t := by
  induction t with
  | nil => rfl
  | node c l p r ihl ihr =>
    rw [blocks, blocks, ihl fun q hq => hnode q (List.mem_append_left _ hq),
      ihr fun q hq => hnode q (List.mem_append_right _ (List.mem_cons_of_mem _ hq)),
      own_congr hfrees (hnode p (List.mem_append_right _ List.mem_cons_self))]

/-- Where the nodes that may have changed have been given back, one that has not is the
same. -/
theorem Freed.node_eq (h : Freed s s' bs ps) (hps : ∀ q ∈ ps, Block.node q ∈ bs) {q : P}
    (hlive : s'.ledger.live (.node q) = true) : s'.node q = s.node q := by
  refine h.node q fun hmem => ?_
  rw [h.ledger] at hlive
  exact (Ledger.after_live.mp hlive).2 (hps q hmem)

/-! ## One node -/

theorem free_eq_some {b : Block A P} :
    s.free b = some s' ↔ s.ledger.Has [b] ∧ s' = { s with ledger := s.ledger.after [b] } := by
  unfold free
  rw [Option.map_eq_some_iff]
  simp only [Ledger.free_eq_some]
  constructor
  · rintro ⟨l, ⟨hhas, rfl⟩, rfl⟩
    exact ⟨hhas, rfl⟩
  · rintro ⟨hhas, rfl⟩
    exact ⟨_, ⟨hhas, rfl⟩, rfl⟩

omit [DecidableEq A] [DecidableEq P] in
theorem read_eq_some {x : DataNode A P} :
    s.read p = some x ↔ s.ledger.live (.node p) = true ∧ x = s.node p := by
  unfold read
  split
  · rename_i hlive
    rw [and_iff_right hlive, Option.some.injEq, eq_comm]
  · rename_i hdead
    exact iff_of_false (Option.some_ne_none _).symm fun h => hdead h.1

theorem callFree_eq (f : BufferField) (s : TreeMem A P) (p : P) :
    callFree f s p = if s.frees f then s.defaultFree f p else some s := by
  cases f <;> rfl

omit [DecidableEq A] [DecidableEq P] in
theorem clear_data (x : DataNode A P) {f f' : BufferField} (h : f' ≠ f) :
    (x.clear f).data f' = x.data f' := by
  cases f with
  | key =>
    cases f' with
    | key => exact absurd rfl h
    | val => rfl
  | val =>
    cases f' with
    | key => rfl
    | val => exact absurd rfl h

omit [DecidableEq A] [DecidableEq P] in
theorem clear_toCell (x : DataNode A P) (f : BufferField) : (x.clear f).toCell = x.toCell := by
  cases f with
  | key => rfl
  | val => rfl

/-- The memory with a buffer of a node given back. -/
theorem freed_data (f : BufferField) (a : A) :
    Freed s { s with
      node := Function.update s.node p ((s.node p).clear f)
      ledger := s.ledger.after [.data a] } [.data a] [p] := by
  refine ⟨rfl, rfl, funext fun q => ?_, fun q hq => ?_⟩
  · show (Function.update s.node p _ q).toCell = (s.node q).toCell
    by_cases hqp : q = p
    · rw [hqp, Function.update_self]
      exact clear_toCell _ f
    · rw [Function.update_of_ne hqp]
  · exact Function.update_of_ne (fun heq => hq (List.mem_singleton.mpr heq)) _ _

/-- **A buffer of a node is given back.** -/
theorem callFree_freed {f : BufferField} (h : callFree f s p = some s') :
    s.ledger.Has (s.dataBlocks p f) ∧ Freed s s' (s.dataBlocks p f) [p]
      ∧ ∀ f' ≠ f, s'.dataBlocks p f' = s.dataBlocks p f' := by
  have hnil : s' = s → s.dataBlocks p f = [] → s.ledger.Has (s.dataBlocks p f)
      ∧ Freed s s' (s.dataBlocks p f) [p] ∧ ∀ f' ≠ f, s'.dataBlocks p f' = s.dataBlocks p f' := by
    rintro rfl heq
    rw [heq]
    exact ⟨Ledger.has_nil, Freed.rfl'.mono fun q hq => absurd hq List.not_mem_nil,
      fun _ _ => rfl⟩
  rw [callFree_eq] at h
  by_cases hf : s.frees f = true
  · rw [if_pos hf, defaultFree] at h
    obtain ⟨x, hx, h⟩ := Option.bind_eq_some_iff.mp h
    obtain ⟨-, rfl⟩ := read_eq_some.mp hx
    cases hdata : (s.node p).data f with
    | none =>
      rw [hdata] at h
      refine hnil (Option.some.inj h).symm ?_
      rw [dataBlocks, if_pos hf, hdata]
      rfl
    | some a =>
      rw [hdata] at h
      obtain ⟨s₁, hfree, h⟩ := Option.bind_eq_some_iff.mp h
      obtain ⟨hhas, rfl⟩ := free_eq_some.mp hfree
      have hblocks : s.dataBlocks p f = [.data a] := by
        rw [dataBlocks, if_pos hf, hdata]
        rfl
      obtain rfl := Option.some.inj h
      rw [hblocks]
      refine ⟨hhas, freed_data f a, fun f' hf' => ?_⟩
      unfold dataBlocks
      dsimp only
      rw [Function.update_self, clear_data _ hf']
  · rw [if_neg hf] at h
    refine hnil (Option.some.inj h).symm ?_
    rw [dataBlocks, if_neg hf]

theorem callFree_returns {f : BufferField} (hlive : s.ledger.live (.node p) = true)
    (hhas : s.ledger.Has (s.dataBlocks p f)) : ∃ s', callFree f s p = some s' := by
  rw [callFree_eq]
  by_cases hf : s.frees f = true
  · have hread : s.read p = some (s.node p) := read_eq_some.mpr ⟨hlive, rfl⟩
    rw [dataBlocks, if_pos hf] at hhas
    rw [if_pos hf, defaultFree, hread]
    cases hdata : (s.node p).data f with
    | none => exact ⟨s, by simp only [Option.bind_eq_bind, Option.bind_some, hdata]; rfl⟩
    | some a =>
      rw [hdata] at hhas
      have hfree : s.free (.data a) = some { s with ledger := s.ledger.after [.data a] } :=
        free_eq_some.mpr ⟨hhas, rfl⟩
      refine ⟨{ s with
        node := Function.update s.node p ((s.node p).clear f)
        ledger := s.ledger.after [.data a] }, ?_⟩
      simp only [Option.bind_eq_bind, Option.bind_some, hdata]
      rw [hfree]
      rfl
  · exact ⟨s, if_neg hf⟩

/-- The end of `rb_tree_node_destroy`: a node is given back, with its buffers. -/
def putNode (s : TreeMem A P) (p : P) : Option (TreeMem A P) :=
  (callFree .key s p).bind fun s => (callFree .val s p).bind fun s => s.free (.node p)

/-- `rb_tree_node_destroy` at a node, step by step. -/
theorem rbTreeNodeDestroy_some (fuel : ℕ) (s : TreeMem A P) (p : P) :
    rbTreeNodeDestroy (fuel + 1) s (some p)
      = (s.read p).bind fun x => (rbTreeNodeDestroy fuel s x.left).bind fun s =>
        (s.read p).bind fun x => (rbTreeNodeDestroy fuel s x.right).bind fun s => s.putNode p :=
  rfl

theorem putNode_freed (h : s.putNode p = some s') :
    s.ledger.Has (s.own p) ∧ Freed s s' (s.own p) [p] := by
  obtain ⟨s₁, hkey, h⟩ := Option.bind_eq_some_iff.mp h
  obtain ⟨s₂, hval, h⟩ := Option.bind_eq_some_iff.mp h
  obtain ⟨hhas, rfl⟩ := free_eq_some.mp h
  obtain ⟨hhas₁, hfreed₁, hother⟩ := callFree_freed hkey
  obtain ⟨hhas₂, hfreed₂, -⟩ := callFree_freed hval
  rw [hother .val (by decide)] at hhas₂ hfreed₂
  have hlast : Freed s₂ { s₂ with ledger := s₂.ledger.after [.node p] } [.node p] [p] :=
    ⟨rfl, rfl, rfl, fun _ _ => rfl⟩
  refine ⟨hfreed₁.has_append.mpr ⟨hhas₁, hfreed₂.has_append.mpr ⟨hhas₂, hhas⟩⟩, ?_⟩
  exact (hfreed₁.trans (hfreed₂.trans hlast)).mono (by simp)

theorem putNode_returns (h : s.ledger.Has (s.own p)) : ∃ s', s.putNode p = some s' := by
  have hlive : ∀ {u : TreeMem A P} {bs : List (Block A P)},
      u.ledger.Has (bs ++ [.node p]) → u.ledger.live (.node p) = true :=
    fun hhas => hhas.2 _ (List.mem_append_right _ (List.mem_singleton_self _))
  have hs : s.ledger.Has ((s.dataBlocks p .key ++ s.dataBlocks p .val) ++ [.node p]) := by
    rw [List.append_assoc]
    exact h
  obtain ⟨s₁, hkey⟩ := callFree_returns (f := .key) (hlive hs) (Ledger.has_append.mp h).1
  obtain ⟨-, hfreed₁, hother⟩ := callFree_freed hkey
  have h₁ := (hfreed₁.has_append.mp h).2
  rw [← hother .val (by decide)] at h₁
  obtain ⟨s₂, hval⟩ := callFree_returns (f := .val) (hlive h₁) (Ledger.has_append.mp h₁).1
  obtain ⟨-, hfreed₂, -⟩ := callFree_freed hval
  have h₂ := (hfreed₂.has_append.mp h₁).2
  refine ⟨{ s₂ with ledger := s₂.ledger.after [.node p] }, ?_⟩
  rw [putNode, hkey, Option.bind_some, hval, Option.bind_some]
  exact free_eq_some.mpr ⟨h₂, rfl⟩

/-! ## The whole tree -/

/-- **Where `rb_tree_node_destroy` returns**, every block it has come to was allocated and came
up once. -/
theorem rbTreeNodeDestroy_freed {a : Option P} (hleads : Leads s.cells t a none)
    (h : rbTreeNodeDestroy fuel s a = some s') :
    s.ledger.Has (s.blocks t) ∧ Freed s s' (s.blocks t) t.inorder := by
  induction fuel generalizing s s' t a with
  | zero => exact absurd h (Option.some_ne_none _).symm
  | succ fuel ih =>
    cases t with
    | nil =>
      obtain rfl : a = none := hleads
      obtain rfl : s = s' := Option.some.inj h
      exact ⟨Ledger.has_nil, Freed.rfl'⟩
    | node c l p r =>
      obtain ⟨rfl, hl, hr⟩ := hleads
      rw [rbTreeNodeDestroy_some] at h
      obtain ⟨x, hx, h⟩ := Option.bind_eq_some_iff.mp h
      obtain ⟨-, rfl⟩ := read_eq_some.mp hx
      obtain ⟨s₁, hleft, h⟩ := Option.bind_eq_some_iff.mp h
      obtain ⟨x, hx, h⟩ := Option.bind_eq_some_iff.mp h
      obtain ⟨-, rfl⟩ := read_eq_some.mp hx
      obtain ⟨s₂, hright, hput⟩ := Option.bind_eq_some_iff.mp h
      obtain ⟨hhas₁, hfreed₁⟩ := ih hl hleft
      -- the links are the same, and so are the nodes that have not been given back
      rw [← hfreed₁.cells] at hr
      obtain ⟨hhas₂, hfreed₂⟩ := ih hr hright
      have hcover₁ : ∀ q ∈ l.inorder, Block.node q ∈ s.blocks l := fun q => mem_blocks_node.mpr
      have hr_eq : s₁.blocks r = s.blocks r := blocks_congr hfreed₁.frees fun q hq =>
        hfreed₁.node_eq hcover₁ (hhas₂.2 _ (mem_blocks_node.mpr hq))
      rw [hr_eq] at hhas₂ hfreed₂
      obtain ⟨hhas₃, hfreed₃⟩ := putNode_freed hput
      have hboth := hfreed₁.trans hfreed₂
      have hcover₂ : ∀ q ∈ l.inorder ++ r.inorder, Block.node q ∈ s.blocks l ++ s.blocks r := by
        simp only [List.mem_append, mem_blocks_node]
        exact fun q hq => hq
      have hlive : s₂.ledger.live (.node p) = true :=
        hhas₃.2 _ (List.mem_append_right _ (List.mem_append_right _ (List.mem_singleton_self _)))
      rw [own_congr hboth.frees (hboth.node_eq hcover₂ hlive)] at hhas₃ hfreed₃
      refine ⟨hfreed₁.has_append.mpr ⟨hhas₁, hfreed₂.has_append.mpr ⟨hhas₂, hhas₃⟩⟩, ?_⟩
      refine (hfreed₁.trans (hfreed₂.trans hfreed₃)).mono fun q hq => ?_
      simp only [inorder, List.mem_append, List.mem_cons, List.not_mem_nil, or_false] at hq ⊢
      tauto

/-- **Where every block is allocated and comes up once**, it returns. -/
theorem rbTreeNodeDestroy_returns {a : Option P} (hleads : Leads s.cells t a none)
    (hhas : s.ledger.Has (s.blocks t)) (hfuel : t.inorder.length < fuel) :
    ∃ s', rbTreeNodeDestroy fuel s a = some s' := by
  induction t generalizing s a fuel with
  | nil =>
    obtain ⟨fuel, rfl⟩ := Nat.exists_eq_succ_of_ne_zero (Nat.ne_zero_of_lt hfuel)
    obtain rfl : a = none := hleads
    exact ⟨s, rfl⟩
  | node c l p r ihl ihr =>
    obtain ⟨fuel, rfl⟩ := Nat.exists_eq_succ_of_ne_zero (Nat.ne_zero_of_lt hfuel)
    obtain ⟨rfl, hl, hr⟩ := hleads
    rw [inorder, List.length_append, List.length_cons] at hfuel
    have hlive : s.ledger.live (.node p) = true :=
      hhas.2 _ (mem_blocks_node.mpr (List.mem_append_right _ List.mem_cons_self))
    obtain ⟨s₁, hleft⟩ : ∃ s₁, rbTreeNodeDestroy fuel s (s.cells p).left = some s₁ :=
      ihl hl (Ledger.has_append.mp hhas).1 (by omega)
    obtain ⟨-, hfreed₁⟩ := rbTreeNodeDestroy_freed hl hleft
    have hhas₁ := (hfreed₁.has_append.mp hhas).2
    have hcover₁ : ∀ q ∈ l.inorder, Block.node q ∈ s.blocks l := fun q => mem_blocks_node.mpr
    have hlive₁ : ∀ q, Block.node q ∈ s.blocks r ++ s.own p → s₁.ledger.live (.node q) = true :=
      fun q hq => hhas₁.2 _ hq
    have hp : Block.node p ∈ s.blocks r ++ s.own p :=
      List.mem_append_right _ (List.mem_append_right _ (List.mem_append_right _
        (List.mem_singleton_self _)))
    have hr_eq : s₁.blocks r = s.blocks r := blocks_congr hfreed₁.frees fun q hq =>
      hfreed₁.node_eq hcover₁ (hlive₁ q (List.mem_append_left _ (mem_blocks_node.mpr hq)))
    have hown_eq : s₁.own p = s.own p :=
      own_congr hfreed₁.frees (hfreed₁.node_eq hcover₁ (hlive₁ p hp))
    rw [← hr_eq, ← hown_eq] at hhas₁
    rw [← hfreed₁.cells] at hr
    obtain ⟨s₂, hright⟩ : ∃ s₂, rbTreeNodeDestroy fuel s₁ (s₁.cells p).right = some s₂ :=
      ihr hr (Ledger.has_append.mp hhas₁).1 (by omega)
    obtain ⟨-, hfreed₂⟩ := rbTreeNodeDestroy_freed hr hright
    have hhas₂ := (hfreed₂.has_append.mp hhas₁).2
    have hlive₂ : s₂.ledger.live (.node p) = true :=
      hhas₂.2 _ (List.mem_append_right _ (List.mem_append_right _ (List.mem_singleton_self _)))
    rw [← own_congr hfreed₂.frees (hfreed₂.node_eq (fun q => mem_blocks_node.mpr) hlive₂)] at hhas₂
    obtain ⟨s', hput⟩ := putNode_returns hhas₂
    refine ⟨s', ?_⟩
    rw [rbTreeNodeDestroy_some, read_eq_some.mpr ⟨hlive, rfl⟩, Option.bind_some]
    refine Option.bind_eq_some_iff.mpr ⟨s₁, hleft, ?_⟩
    rw [read_eq_some.mpr ⟨hlive₁ p hp, rfl⟩, Option.bind_some]
    exact Option.bind_eq_some_iff.mpr ⟨s₂, hright, hput⟩

/-- Where it returns, the pointers lead through a tree. -/
theorem exists_leads {a : Option P} (h : rbTreeNodeDestroy fuel s a = some s') :
    ∃ t, Leads s.cells t a none := by
  induction fuel generalizing s s' a with
  | zero => exact absurd h (Option.some_ne_none _).symm
  | succ fuel ih =>
    cases a with
    | none => exact ⟨nil, rfl⟩
    | some p =>
      rw [rbTreeNodeDestroy_some] at h
      obtain ⟨x, hx, h⟩ := Option.bind_eq_some_iff.mp h
      obtain ⟨-, rfl⟩ := read_eq_some.mp hx
      obtain ⟨s₁, hleft, h⟩ := Option.bind_eq_some_iff.mp h
      obtain ⟨x, hx, h⟩ := Option.bind_eq_some_iff.mp h
      obtain ⟨-, rfl⟩ := read_eq_some.mp hx
      obtain ⟨s₂, hright, -⟩ := Option.bind_eq_some_iff.mp h
      obtain ⟨l, hl⟩ := ih hleft
      obtain ⟨r, hr⟩ := ih hright
      have hr' : Leads s₁.cells r (s₁.cells p).right none := hr
      rw [(rbTreeNodeDestroy_freed hl hleft).2.cells] at hr'
      exact ⟨.node .black l p r, rfl, hl, hr'⟩

/-- **`rb_tree_destroy` returns exactly where** the root leads through a tree of which every
block is allocated and comes up once, and it gives back the blocks of that tree, from the leaves
on. -/
theorem rb_tree_destroy_iff (s : TreeMem A P) :
    ((∃ fuel s', s.rbTreeDestroy fuel = some s')
        ↔ ∃ t, Leads s.cells t s.root none ∧ s.ledger.Has (s.blocks t))
      ∧ ∀ fuel s' t, s.rbTreeDestroy fuel = some s' → Leads s.cells t s.root none →
        s'.ledger = s.ledger.after (s.blocks t) := by
  refine ⟨⟨?_, ?_⟩, fun fuel s' t h hleads => (rbTreeNodeDestroy_freed hleads h).2.ledger⟩
  · rintro ⟨fuel, s', h⟩
    obtain ⟨t, hleads⟩ := exists_leads h
    exact ⟨t, hleads, (rbTreeNodeDestroy_freed hleads h).1⟩
  · rintro ⟨t, hleads, hhas⟩
    exact ⟨_, rbTreeNodeDestroy_returns hleads hhas (Nat.lt_succ_self _)⟩

/-! ## The blocks, by the nodes -/

omit [DecidableEq A] [DecidableEq P] in
theorem blocks_perm (s : TreeMem A P) (t : ColorTree P) :
    (s.blocks t).Perm (t.inorder.flatMap s.own) := by
  induction t with
  | nil => exact .nil
  | node c l p r ihl ihr =>
    rw [blocks, inorder, List.flatMap_append, List.flatMap_cons]
    exact ihl.append ((ihr.append_right _).trans List.perm_append_comm)

omit [DecidableEq A] [DecidableEq P] in
/-- One of the blocks that come with each entry of a list. -/
theorem map_sublist_flatMap {α β : Type} {f : α → β} {g : α → List β}
    (h : ∀ a, [f a].Sublist (g a)) (l : List α) : (l.map f).Sublist (l.flatMap g) := by
  induction l with
  | nil => exact .slnil
  | cons a l ih =>
    rw [List.map_cons, List.flatMap_cons]
    exact (h a).append ih

omit [DecidableEq A] [DecidableEq P] in
/-- A tree whose blocks come up once has its nodes once. -/
theorem nodup_of_has (h : s.ledger.Has (s.blocks t)) : t.inorder.Nodup := by
  have hsub : (t.inorder.map Block.node).Sublist (t.inorder.flatMap s.own) :=
    map_sublist_flatMap (fun p => (List.sublist_append_right _ _).trans
      (List.sublist_append_right _ _)) t.inorder
  have hnodup := (s.blocks_perm t).nodup_iff.mp h.1
  exact List.Nodup.of_map _ (hnodup.sublist hsub)

/-! ## Where it does not return -/

/-- **A node is read that has been given back**, by the call for a pointer or by one further
down. -/
inductive ReadsFreed : ℕ → TreeMem A P → Option P → Prop
  | here {fuel : ℕ} {s : TreeMem A P} {p : P} (hgone : s.ledger.live (.node p) = false)
      (hfreed : Block.node p ∈ s.ledger.freed) : ReadsFreed (fuel + 1) s (some p)
  | left {fuel : ℕ} {s : TreeMem A P} {p : P} (hlive : s.ledger.live (.node p) = true)
      (rest : ReadsFreed fuel s (s.node p).left) : ReadsFreed (fuel + 1) s (some p)
  | right {fuel : ℕ} {s s₁ : TreeMem A P} {p : P} (hlive : s.ledger.live (.node p) = true)
      (hleft : rbTreeNodeDestroy fuel s (s.node p).left = some s₁)
      (hlive₁ : s₁.ledger.live (.node p) = true)
      (rest : ReadsFreed fuel s₁ (s₁.node p).right) : ReadsFreed (fuel + 1) s (some p)

/-- **The nodes in `ps` have blocks of their own**, as far as they have not been given back. -/
structure Apart (s : TreeMem A P) (ps : List P) : Prop where
  has : ∀ q ∈ ps, s.ledger.live (.node q) = true → s.ledger.Has (s.own q)
  apart : ∀ q ∈ ps, ∀ q' ∈ ps, s.ledger.live (.node q) = true →
    s.ledger.live (.node q') = true → q ≠ q' → List.Disjoint (s.own q) (s.own q')
  gone : ∀ q ∈ ps, s.ledger.live (.node q) = false → Block.node q ∈ s.ledger.freed

omit [DecidableEq A] [DecidableEq P] in
theorem node_mem_own (s : TreeMem A P) (q : P) : Block.node q ∈ s.own q :=
  List.mem_append_right _ (List.mem_append_right _ (List.mem_singleton_self _))

omit [DecidableEq A] [DecidableEq P] in
theorem apart_of_has (h : s.ledger.Has (ps.flatMap s.own)) : Apart s ps := by
  obtain ⟨hnodup, hdisj⟩ := List.nodup_flatMap.mp h.1
  have hlive : ∀ q ∈ ps, ∀ b ∈ s.own q, s.ledger.live b = true := fun q hq b hb =>
    h.2 b (List.mem_flatMap.mpr ⟨q, hq, hb⟩)
  refine ⟨fun q hq _ => ⟨hnodup q hq, hlive q hq⟩, fun q hq q' hq' _ _ hne => ?_,
    fun q hq hdead => ?_⟩
  · have : Std.Symm (Function.onFun List.Disjoint s.own) := ⟨fun _ _ hab _ hb ha => hab ha hb⟩
    exact hdisj.forall hq hq' hne
  · exact absurd (hdead.symm.trans (hlive q hq _ (s.node_mem_own q))) Bool.false_ne_true

/-- **The nodes of a tree that has been given back** leave those of the others as they were. -/
theorem Apart.freed (h : Apart s ps) (hsub : ∀ q ∈ t.inorder, q ∈ ps)
    (hhas : s.ledger.Has (s.blocks t)) (hf : Freed s s' (s.blocks t) t.inorder) :
    Apart s' ps := by
  have hold : ∀ q, s'.ledger.live (.node q) = true →
      s.ledger.live (.node q) = true ∧ q ∉ t.inorder ∧ s'.own q = s.own q := by
    intro q hq
    rw [hf.ledger, Ledger.after_live, mem_blocks_node] at hq
    exact ⟨hq.1, hq.2, own_congr hf.frees (hf.node q hq.2)⟩
  refine ⟨fun q hq hlive => ?_, fun q hq q' hq' hlive hlive' hne => ?_, fun q hq hdead => ?_⟩
  · obtain ⟨hlive, hnot, hown⟩ := hold q hlive
    rw [hown]
    refine ⟨(h.has q hq hlive).1, fun b hb => ?_⟩
    rw [hf.ledger, Ledger.after_live]
    refine ⟨(h.has q hq hlive).2 b hb, fun hmem => ?_⟩
    -- it would be a block of one of the nodes of the tree
    obtain ⟨q', hq', hb'⟩ := List.mem_flatMap.mp ((s.blocks_perm t).mem_iff.mp hmem)
    have hlive' := hhas.2 _ (mem_blocks_node.mpr hq')
    exact h.apart q hq q' (hsub q' hq') hlive hlive' (fun heq => hnot (heq ▸ hq')) hb hb'
  · obtain ⟨hlive, -, hown⟩ := hold q hlive
    obtain ⟨hlive', -, hown'⟩ := hold q' hlive'
    rw [hown, hown']
    exact h.apart q hq q' hq' hlive hlive' hne
  · have hfreed : s'.ledger.freed = s.ledger.freed ++ s.blocks t := by rw [hf.ledger]; rfl
    rw [hfreed]
    by_cases hlive : s.ledger.live (.node q) = true
    · refine List.mem_append_right _ (by_contra fun hmem => ?_)
      rw [hf.ledger, ← Bool.not_eq_true, Ledger.after_live] at hdead
      exact hdead ⟨hlive, hmem⟩
    · exact List.mem_append_left _ (h.gone q hq (Bool.eq_false_iff.mpr hlive))

/-- **Among nodes with blocks of their own**, `rb_tree_node_destroy` returns, or it comes to read
a node that has been given back. -/
theorem Apart.destroy {a : Option P} (h : Apart s ps) (hsub : ∀ q ∈ t.inorder, q ∈ ps)
    (hleads : Leads s.cells t a none) (hfuel : t.inorder.length < fuel) :
    (∃ s', rbTreeNodeDestroy fuel s a = some s') ∨ ReadsFreed fuel s a := by
  induction t generalizing s a fuel with
  | nil =>
    obtain ⟨fuel, rfl⟩ := Nat.exists_eq_succ_of_ne_zero (Nat.ne_zero_of_lt hfuel)
    obtain rfl : a = none := hleads
    exact .inl ⟨s, rfl⟩
  | node c l p r ihl ihr =>
    obtain ⟨fuel, rfl⟩ := Nat.exists_eq_succ_of_ne_zero (Nat.ne_zero_of_lt hfuel)
    obtain ⟨hpl, hpr⟩ := hleads.notMem
    obtain ⟨rfl, hl, hr⟩ := hleads
    rw [inorder, List.length_append, List.length_cons] at hfuel
    have hsubl : ∀ q ∈ l.inorder, q ∈ ps := fun q hq => hsub q (List.mem_append_left _ hq)
    have hsubr : ∀ q ∈ r.inorder, q ∈ ps := fun q hq =>
      hsub q (List.mem_append_right _ (List.mem_cons_of_mem _ hq))
    have hp : p ∈ ps := hsub p (List.mem_append_right _ List.mem_cons_self)
    by_cases hlive : s.ledger.live (.node p) = true
    · rcases ihl h hsubl hl (show l.inorder.length < fuel by omega) with ⟨s₁, hleft⟩ | hreads
      · obtain ⟨hhas₁, hfreed₁⟩ := rbTreeNodeDestroy_freed hl hleft
        have h₁ := h.freed hsubl hhas₁ hfreed₁
        have hlive₁ : s₁.ledger.live (.node p) = true := by
          rw [hfreed₁.ledger]
          exact Ledger.after_live.mpr ⟨hlive, fun hmem => hpl (mem_blocks_node.mp hmem)⟩
        rw [← hfreed₁.cells] at hr
        rcases ihr h₁ hsubr hr (show r.inorder.length < fuel by omega) with ⟨s₂, hright⟩ | hreads
        · obtain ⟨hhas₂, hfreed₂⟩ := rbTreeNodeDestroy_freed hr hright
          have hlive₂ : s₂.ledger.live (.node p) = true := by
            rw [hfreed₂.ledger]
            exact Ledger.after_live.mpr ⟨hlive₁, fun hmem => hpr (mem_blocks_node.mp hmem)⟩
          obtain ⟨s', hput⟩ := putNode_returns ((h₁.freed hsubr hhas₂ hfreed₂).has p hp hlive₂)
          refine .inl ⟨s', ?_⟩
          rw [rbTreeNodeDestroy_some, read_eq_some.mpr ⟨hlive, rfl⟩, Option.bind_some]
          refine Option.bind_eq_some_iff.mpr ⟨s₁, hleft, ?_⟩
          rw [read_eq_some.mpr ⟨hlive₁, rfl⟩, Option.bind_some]
          exact Option.bind_eq_some_iff.mpr ⟨s₂, hright, hput⟩
        · exact .inr (.right hlive hleft hlive₁ hreads)
      · exact .inr (.left hlive hreads)
    · have hdead := Bool.eq_false_iff.mpr hlive
      exact .inr (.here hdead (h.gone p hp hdead))

end TreeMem

namespace RbTree

open ColorTree TreeMem

variable {A P : Type} [DecidableEq A] [DecidableEq P]
  {t t' : RbTree P (Buffer (Option A)) (Buffer (Option A))} {T : ColorTree P}

/-! ## After the insertions -/

/-- An insertion: a new node, with the key and the value it is to hold. -/
abbrev DataInsert (A P : Type) : Type := P × Buffer (Option A) × Buffer (Option A)

/-- The tree in a memory of which the blocks in `live` are allocated, with the
`default_key_free` and the `default_value_free` of `default_tree_ops`. -/
def toMem (t : RbTree P (Buffer (Option A)) (Buffer (Option A))) (live : Block A P → Bool) :
    TreeMem A P :=
  ⟨t.root, fun _ => true, t.node, ⟨live, []⟩⟩

/-- **What an insertion hands to the tree**: the data of the key and of the value, and the
node. -/
def given (e : DataInsert A P) : List (Block A P) :=
  (e.2.1.data.map .data).toList ++ ((e.2.2.data.map .data).toList ++ [.node e.1])

omit [DecidableEq A] [DecidableEq P] in
theorem own_eq_given {e : DataInsert A P} (hkey : (t.node e.1).key = e.2.1)
    (hval : (t.node e.1).val = e.2.2) (live : Block A P → Bool) :
    (t.toMem live).own e.1 = given e := by
  obtain ⟨n, key, val⟩ := e
  obtain rfl : (t.node n).key = key := hkey
  obtain rfl : (t.node n).val = val := hval
  rfl

omit [DecidableEq A] [DecidableEq P] in
/-- The blocks of a tree are what the insertions have handed to it. -/
theorem Coloured.blocks_perm (h : Coloured t T) (live : Block A P → Bool) :
    ((t.toMem live).blocks T).Perm (t.log.flatMap given) := by
  refine ((t.toMem live).blocks_perm T).trans ((h.nodes.flatMap_right _).trans ?_)
  rw [List.flatMap_map]
  refine List.Perm.of_eq (List.flatMap_congr fun e he => ?_)
  obtain ⟨hkey, hval⟩ := h.items e he
  exact own_eq_given hkey hval live

/-- **Insertions, and then `rb_tree_destroy`.** Where every insertion is safe in the tree it is
made in, and all that is handed to the tree is different, the tree can be taken down, and all
that was handed to it is given back, once; nothing is left. The comparison may be any. -/
theorem rb_tree_destroy_run (comp : Buffer (Option A) → Buffer (Option A) → ℤ)
    (node : P → DataNode A P) (es : List (DataInsert A P)) (fuel : ℕ) (hfuel : es.length < fuel)
    (hsafe : Meets (step fuel) (Safe fuel) (empty comp node) es)
    (hgiven : (es.flatMap given).Nodup) :
    ∃ t fuel' s, run (step fuel) (empty comp node) es = some t
      ∧ (t.toMem fun b => decide (b ∈ es.flatMap given)).rbTreeDestroy fuel' = some s
      ∧ s.ledger.freed.Perm (es.flatMap given) ∧ ∀ b, s.ledger.live b = false := by
  have hfresh : (es.map Prod.fst).Nodup := by
    have hsub : (es.map fun e => Block.node (A := A) e.1).Sublist (es.flatMap given) :=
      map_sublist_flatMap (fun e => (List.sublist_append_right _ _).trans
        (List.sublist_append_right _ _)) es
    have hnodes : ((es.map Prod.fst).map (Block.node (A := A))).Nodup := by
      rw [List.map_map]
      exact hgiven.sublist hsub
    exact List.Nodup.of_map _ hnodes
  obtain ⟨t, T, hrun, hT, hlog⟩ := coloured_run comp node hfresh hfuel hsafe
  have hperm := hT.blocks_perm fun b => decide (b ∈ es.flatMap given)
  rw [hlog] at hperm
  replace hperm := hperm.trans (List.Perm.flatMap_right given es.reverse_perm)
  have hleads : Leads (t.toMem fun b => decide (b ∈ es.flatMap given)).cells T t.root none := by
    obtain ⟨hrepr, hroot, -⟩ := located_nil.mp hT.located
    rw [← hroot]
    exact hrepr.leads
  obtain ⟨hiff, hledger⟩ := rb_tree_destroy_iff (t.toMem fun b => decide (b ∈ es.flatMap given))
  obtain ⟨fuel', s, hs⟩ := hiff.mpr ⟨T, hleads, (Ledger.has_perm hperm).mpr
    ⟨hgiven, fun b hb => decide_eq_true hb⟩⟩
  have hafter := hledger fuel' s T hs hleads
  refine ⟨t, fuel', s, hrun, hs, ?_, fun b => ?_⟩
  · rw [hafter]
    exact hperm
  · rw [hafter, ← Bool.not_eq_true, Ledger.after_live, hperm.mem_iff]
    exact fun h => h.2 (of_decide_eq_true h.1)

/-- A tree of buffers, with numbers as addresses, that is ordered by the addresses of the
keys. -/
def dataTree : RbTree ℕ (Buffer (Option ℕ)) (Buffer (Option ℕ)) :=
  empty (fun a b => (a.data.getD 0 : ℤ) - (b.data.getD 0 : ℤ))
    fun _ => ⟨⟨.black, none, none, none⟩, ⟨0, none⟩, ⟨0, none⟩⟩

/-- Insertions of keys with data at the numbers, and values with data further on. -/
def dataInserts (l : List ℕ) : List (DataInsert ℕ ℕ) :=
  l.map fun k => (k, ⟨1, some k⟩, ⟨1, some (100 + k)⟩)

theorem rb_tree_destroy_run_five :
    ∃ t fuel' s, run (step 9) dataTree (dataInserts [10, 5, 15, 3, 2]) = some t
      ∧ (t.toMem fun b => decide (b ∈ (dataInserts [10, 5, 15, 3, 2]).flatMap given)).rbTreeDestroy
        fuel' = some s
      ∧ s.ledger.freed.Perm ((dataInserts [10, 5, 15, 3, 2]).flatMap given)
      ∧ ∀ b, s.ledger.live b = false :=
  rb_tree_destroy_run _ _ _ 9 (by decide) (by decide +kernel) (by decide +kernel)

/-- **A rotation below the root, and then `rb_tree_destroy`.** The tree can be taken down again
exactly where the rotation has been on the side that is written to. Where it has not, a node is
given back, and then read. -/
theorem rb_tree_destroy_insert_iff (t : RbTree P (Buffer (Option A)) (Buffer (Option A)))
    (T : ColorTree P) (e : DataInsert A P) (fuel : ℕ) (hloc : Located t.cells t.root [] T)
    (hn : e.1 ∉ T.inorder) (hfuel : T.inorder.length < fuel) (g h : Frame P)
    (rest : List (Frame P))
    (hrot : rotationPoint (T.descend (t.goesLeft e.2.1) []) = some (g, h :: rest))
    (live : Block A P → Bool)
    (hhas : (Ledger.mk live []).Has (given e ++ (t.toMem live).blocks T)) :
    ∃ t', t.rbTreeInsert fuel e.2.1 e.2.2 (some e.1) = some (1, t')
      ∧ ((∃ fuel' s, (t'.toMem live).rbTreeDestroy fuel' = some s) ↔ g.side = h.side)
      ∧ (g.side ≠ h.side → ∃ m, ∀ fuel' > m, ReadsFreed fuel' (t'.toMem live) t'.root) := by
  obtain ⟨n, key, val⟩ := e
  obtain ⟨t₀, hbst, hnew, hloc₀⟩ := @bstInsert_eq P _ _ _ t key val n T fuel hloc hn hfuel
  have hlength := length_descend_le (t.goesLeft key) T
  obtain ⟨t₁, f, tn, n₁, hup, hsame, hloc₁, hn₁, hinorder⟩ := rbTreeInsertCase1_climbs hloc₀ rfl
    hrot (Nat.lt_of_le_of_lt hlength hfuel)
  obtain ⟨t', top, s, hrun, hsame', hrisen, horder⟩ := rbTreeInsertCase4_risen hloc₁ hn₁
  -- the nodes are those of before and the new one, with what they held
  have hitem : NewItem t t' n key val := (hnew.same hsame).same hsame'
  have hnodes : (plug (h :: rest) s).inorder.Perm (n :: T.inorder) := by
    rw [inorder_plug_congr horder (h :: rest),
      show (plug (h :: rest) _).inorder = _ from hinorder, inorder_plug_leaf]
    refine List.perm_middle.trans (List.Perm.cons n ?_)
    rw [← inorder_descend]
  have hold : ∀ q ∈ T.inorder, (t'.toMem live).own q = (t.toMem live).own q := by
    intro q hq
    obtain ⟨hkey, hval⟩ := hitem.old q fun heq => hn (heq ▸ hq)
    exact own_eq_given (e := (q, (t.node q).key, (t.node q).val)) hkey hval live
  have hall : (Ledger.mk live []).Has ((n :: T.inorder).flatMap (t'.toMem live).own) := by
    refine (Ledger.has_perm ?_).mpr hhas
    rw [List.flatMap_cons, own_eq_given (e := (n, key, val)) hitem.new.1 hitem.new.2 live,
      List.flatMap_congr hold]
    exact (((t.toMem live).blocks_perm T).symm).append_left _
  have hnone : g.side ≠ h.side → ¬ ∃ fuel' s, (t'.toMem live).rbTreeDestroy fuel' = some s := by
    intro hside hreturns
    obtain ⟨T', hT', hhas'⟩ := (rb_tree_destroy_iff _).1.mp hreturns
    have hT'' : Leads t'.cells T' t'.root none := hT'
    rw [hsame'.root] at hT''
    exact hrisen.not_nodup hloc₁ hside hT'' (nodup_of_has hhas')
  refine ⟨t', ?_, ⟨fun hreturns => by_contra fun hside => hnone hside hreturns, fun hside => ?_⟩,
    fun hside => ?_⟩
  · rw [rbTreeInsert_eq hbst, hup, hrun]
    rfl
  · have hleads := hrisen.leads_plug hloc₁ hside
    rw [← hsame'.root] at hleads
    refine (rb_tree_destroy_iff _).1.mpr ⟨_, hleads, (Ledger.has_perm ?_).mpr hall⟩
    exact ((t'.toMem live).blocks_perm _).trans (hnodes.flatMap_right _)
  · obtain ⟨T', hleads, hmem⟩ := hrisen.leads_twice hloc₁ hside
    rw [← hsame'.root] at hleads
    refine ⟨T'.inorder.length, fun fuel' hfuel' => ?_⟩
    have hapart : Apart (t'.toMem live) (n :: T.inorder) := apart_of_has hall
    exact (hapart.destroy (fun q hq => hnodes.mem_iff.mp (hmem q hq)) hleads hfuel').resolve_left
      fun ⟨s', hs'⟩ => hnone hside ⟨fuel', s', hs'⟩

/-- Below `5`, which is on the left of `10`, the numbers `7` and `8` go to the right. What is read
then has `5` both below `10` and below `7`. -/
theorem rb_tree_destroy_insert_right :
    ∃ t t', run (step 9) dataTree (dataInserts [10, 5, 15, 7]) = some t
      ∧ t.rbTreeInsert 9 ⟨1, some 8⟩ ⟨1, some 108⟩ (some 8) = some (1, t')
      ∧ (¬ ∃ fuel' s,
        (t'.toMem fun b => decide (b ∈ (dataInserts [10, 5, 15, 7, 8]).flatMap given)).rbTreeDestroy
          fuel' = some s)
      ∧ ∃ m, ∀ fuel' > m, ReadsFreed fuel'
        (t'.toMem fun b => decide (b ∈ (dataInserts [10, 5, 15, 7, 8]).flatMap given)) t'.root := by
  obtain ⟨t', hinsert, hiff, hreads⟩ := rb_tree_destroy_insert_iff
    ((run (step 9) dataTree (dataInserts [10, 5, 15, 7])).get rfl) (fourTree .right 7)
    (8, ⟨1, some 8⟩, ⟨1, some 108⟩) 9
    ⟨⟨rfl, ⟨rfl, trivial, ⟨rfl, trivial, trivial⟩⟩, rfl, trivial, trivial⟩, trivial, rfl,
      by decide⟩ (by decide) (by decide) ⟨.right, .black, 5, nil⟩
    ⟨.left, .black, 10, .node .black nil 15 nil⟩ [] rfl
    (fun b => decide (b ∈ (dataInserts [10, 5, 15, 7, 8]).flatMap given)) (by decide +kernel)
  exact ⟨_, t', rfl, hinsert, fun h => absurd (hiff.mp h) (by decide), hreads (by decide)⟩

end RbTree
