import Ckit.HashtableCount
import Ckit.HashtableShared

/-!
# One table among several

The functions of `hashtable.c` stand in this development twice: for one table, whose elements
know no other, and for any number of tables. The second are the first where there is one table.
Its nodes have other names there (`soleNode`), the `ht` of an element is the one table or was
never written (`soleElm`), and each function does the same to both. So does every run of calls
(`run_sole`).
-/

namespace HashTables

open HashTable (TableOp tableStep)

variable {ε κ : Type}

/-- The nodes of one table. -/
def soleNode : HashNode ε ≃ SharedNode Unit ε where
  toFun
    | .slot i => .slot () i
    | .elm e => .elm e
  invFun
    | .slot _ i => .slot i
    | .elm e => .elm e
  left_inv n := by cases n <;> rfl
  right_inv n := by cases n <;> rfl

/-- An element whose `ht` points to the one table, or was never written. -/
def soleElm (he : HashElm κ) : SharedElm Unit κ :=
  ⟨he.refcount, he.hash, he.key, if he.ht then some () else none⟩

/-- The element of a table in a memory with no other. -/
def elmOf (he : SharedElm Unit κ) : HashElm κ := ⟨he.refcount, he.hash, he.key, he.ht.isSome⟩

/-- **The memory with this table and no other.** -/
def sole (t : HashTable ε κ) : HashTables Unit ε κ where
  table := fun _ => ⟨t.mask, t.count, t.slots, t.slotCount, t.hashfn,
    fun he key => t.equalfn (elmOf he) key, t.freefn⟩
  links := t.links.rename soleNode
  elm := fun e => soleElm (t.elm e)
  freed := fun e => List.replicate (t.freed e) ()


variable [DecidableEq ε] (t : HashTable ε κ)

theorem elmOf_soleElm (he : HashElm κ) : elmOf (soleElm he) = he := by
  obtain ⟨refcount, hash, key, ht⟩ := he
  cases ht with
  | true => rfl
  | false => rfl

theorem update_soleElm (elm : ε → HashElm κ) (e : ε) (he : HashElm κ) :
    Function.update (fun e => soleElm (elm e)) e (soleElm he)
      = fun e' => soleElm (Function.update elm e he e') :=
  (Function.comp_update soleElm elm e he).symm

theorem hashelmInit_sole (e : ε) : (sole t).hashelmInit e = sole (t.hashelmInit e) := by
  unfold hashelmInit HashTable.hashelmInit sole
  dsimp only
  rw [← update_soleElm]
  congr 1
  exact Links.initList_rename soleNode t.links (.elm e)

theorem hashelmHashed_sole (e : ε) : (sole t).hashelmHashed e = t.hashelmHashed e :=
  congrArg not (Links.listEmpty_rename soleNode t.links (.elm e))

theorem setRefcount_sole (e : ε) (r : ℤ) :
    (sole t).setRefcount e r = sole (t.setRefcount e r) := by
  unfold setRefcount HashTable.setRefcount sole
  dsimp only
  rw [← update_soleElm]
  rfl

theorem callFreefn_sole (e : ε) : (sole t).callFreefn () e = sole (t.callFreefn e) := by
  have hsame : ((sole t).table ()).freefn = t.freefn := rfl
  unfold callFreefn HashTable.callFreefn
  rw [hsame]
  by_cases hfreefn : t.freefn = true
  · rw [if_pos hfreefn, if_pos hfreefn]
    unfold sole
    dsimp only
    congr 1
    funext e'
    rw [Function.update_apply, Function.update_apply]
    split_ifs
    · rw [List.replicate_succ]
    · rfl
  · rw [if_neg hfreefn, if_neg hfreefn]

theorem hashelmPut_sole (e : ε) : (sole t).hashelmPut e = (t.hashelmPut e).map sole := by
  unfold hashelmPut HashTable.hashelmPut
  dsimp only
  have hcount : ((sole t).elm e).refcount = (t.elm e).refcount := rfl
  rw [hcount, setRefcount_sole]
  generalize t.setRefcount e (i32 ((t.elm e).refcount - 1)) = t
  by_cases hzero : (t.elm e).refcount = 0
  · have hzero' : ((sole t).elm e).refcount = 0 := hzero
    rw [if_pos hzero, if_pos hzero']
    show (if (t.elm e).ht then some () else none).map _ = _
    cases (t.elm e).ht with
    | true => exact congrArg some (callFreefn_sole t e)
    | false => rfl
  · have hzero' : ¬ ((sole t).elm e).refcount = 0 := hzero
    rw [if_neg hzero, if_neg hzero']
    rfl

theorem find_sole (fuel slot : ℕ) (key : κ) :
    (sole t).find fuel () slot key = t.find fuel slot key := by
  have hslots : ((sole t).table ()).slots = t.slots := rfl
  have hstart : (sole t).links.next (.slot () slot) = soleNode (t.links.next (.slot slot)) :=
    Links.next_rename soleNode t.links (.slot slot)
  unfold find HashTable.find
  rw [hslots, hstart]
  split_ifs
  · refine congrArg (Option.map _) ?_
    refine Links.listForeach_rename soleNode (fun _ n => Links.next_rename soleNode t.links n)
      (fun _ n => ?_) (.slot slot) fuel () _
    cases n with
    | slot i => rfl
    | elm e =>
      show some (if t.equalfn (elmOf (soleElm (t.elm e))) key then _ else _) = _
      rw [elmOf_soleElm]
  · rfl

theorem setKey_sole (e : ε) (key : κ) : (sole t).setKey () e key = sole (t.setKey e key) := by
  unfold setKey HashTable.setKey sole
  dsimp only
  rw [← update_soleElm]
  rfl

theorem update_sole_table (table : SharedTable Unit κ) (f : Unit → SharedTable Unit κ) :
    Function.update f () table = fun _ => table := by
  funext u
  cases u
  rw [Function.update_self]

theorem addElm_sole (slot : ℕ) (e : ε) : (sole t).addElm () slot e = sole (t.addElm slot e) := by
  unfold addElm HashTable.addElm
  rw [update_sole_table]
  unfold sole
  dsimp only
  congr 1
  exact Links.listAddFront_rename soleNode t.links (.slot slot) (.elm e)

theorem delElm_sole (slot : ℕ) (e : ε) : (sole t).delElm () slot e = sole (t.delElm slot e) := by
  unfold delElm HashTable.delElm
  rw [update_sole_table]
  unfold sole
  dsimp only
  congr 1
  exact Links.listDel_rename soleNode t.links (.elm e)

theorem hashtableHash_sole (fuel : ℕ) (e : ε) (key : κ) :
    (sole t).hashtableHash fuel () e key
      = (t.hashtableHash fuel e key).map fun r => (r.1, sole r.2) := by
  unfold hashtableHash HashTable.hashtableHash
  rw [hashelmHashed_sole]
  split_ifs
  · rfl
  · dsimp only
    rw [setKey_sole]
    unfold HashTable.hashSection
    generalize t.setKey e key = t
    have hslot : (sole t).getSlot () ((sole t).elm e).hash = t.getSlot (t.elm e).hash := rfl
    dsimp only
    rw [hslot, find_sole]
    cases t.find fuel (t.getSlot (t.elm e).hash) key with
    | none => rfl
    | some he2 =>
      cases he2 with
      | some e' => rfl
      | none =>
        refine congrArg some (Prod.ext rfl ?_)
        show ((sole t).addElm () (t.getSlot (t.elm e).hash) e).setRefcount e _ = _
        rw [addElm_sole, setRefcount_sole]
        rfl

theorem hashtableUnhash_sole (e : ε) :
    (sole t).hashtableUnhash () e = (t.hashtableUnhash e).map sole := by
  unfold hashtableUnhash HashTable.hashtableUnhash HashTable.unhashSection
  have hslot : (sole t).getSlot () ((sole t).elm e).hash = t.getSlot (t.elm e).hash := rfl
  have hslots : ((sole t).table ()).slots = t.slots := rfl
  dsimp only
  rw [hslot, hslots]
  split_ifs
  · rw [delElm_sole, hashelmPut_sole]
  · rfl

theorem hashtableLookup_sole (fuel : ℕ) (key : κ) :
    (sole t).hashtableLookup fuel () key
      = (t.hashtableLookup fuel key).map fun r => (r.1, sole r.2) := by
  unfold hashtableLookup HashTable.hashtableLookup HashTable.lookupSection
  have hslot : (sole t).getSlot () (((sole t).table ()).hashfn key)
      = t.getSlot (t.hashfn key) := rfl
  rw [hslot, find_sole]
  cases t.find fuel (t.getSlot (t.hashfn key)) key with
  | none => rfl
  | some he =>
    cases he with
    | some e => exact congrArg some (Prod.ext rfl (setRefcount_sole t e _))
    | none => rfl

/-- One call on the only table, without what it returns. -/
def soleStep (fuel : ℕ) (w : HashTables Unit ε κ) : TableOp ε κ → Option (HashTables Unit ε κ)
  | .hash e key => (w.hashtableHash fuel () e key).map Prod.snd
  | .unhash e => w.hashtableUnhash () e
  | .unhashUnlocked e => w.hashtableUnhash () e
  | .lookup key => (w.hashtableLookup fuel () key).map Prod.snd
  | .hold e => some (w.hashelmHold e)
  | .put e => w.hashelmPut e

theorem soleStep_sole (fuel : ℕ) (o : TableOp ε κ) :
    soleStep fuel (sole t) o = (tableStep fuel t o).map sole := by
  cases o with
  | hash e key =>
    rw [soleStep, tableStep, hashtableHash_sole, Option.map_map, Option.map_map]
    rfl
  | unhash e => exact hashtableUnhash_sole t e
  | unhashUnlocked e => exact hashtableUnhash_sole t e
  | lookup key =>
    rw [soleStep, tableStep, hashtableLookup_sole, Option.map_map, Option.map_map]
    rfl
  | hold e => exact congrArg some (setRefcount_sole t e _)
  | put e => exact hashelmPut_sole t e

/-- **Every run on one table** is the run on the memory with no other. -/
theorem run_sole (fuel : ℕ) (ops : List (TableOp ε κ)) :
    run (soleStep fuel) (sole t) ops = (run (tableStep fuel) t ops).map sole := by
  induction ops generalizing t with
  | nil => rfl
  | cons o ops ih =>
    rw [Run.run_cons, Run.run_cons, soleStep_sole]
    cases tableStep fuel t o with
    | none => rfl
    | some t' => exact ih t'

end HashTables
