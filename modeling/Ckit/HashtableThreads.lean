import Ckit.HashtableLists
import Ckit.Run
import Mathlib.Data.Fintype.Basic

/-!
# Clients of a hash table

Several clients, each a thread, use one hash table. What a client has still to do is
its `HashPc`: the functions are cut before each part that runs under the lock of a
slot, before the test and the writes of `hashtable_hash` and before the read of
`hashtable_unhash`. An increment or a decrement of a reference count is one step, and
one with the locked part it is in.

`owners` is the history of the references: for each element the clients that own one,
a client as often as it owns one. The reference of `hashelm_init` is the first, each
`hashelm_hold` and each `hashtable_lookup` that finds the element gives one to the
client, and `hashelm_put` takes one away. The table has a reference of its own to
each element in it. `closed` says that `hashtable_fini` has been called.
-/

/-- What a client is about to do. -/
inductive HashPc (ε κ : Type) where
  | idle
  /-- `hashtable_hash`, about to ask whether the element is in a list. -/
  | hashTest (e : ε) (key : κ)
  /-- `hashtable_hash`, about to write the fields of the element. -/
  | hashWrite (e : ε) (key : κ)
  /-- `hashtable_hash`, before its locked part. -/
  | hash (e : ε) (key : κ)
  /-- `hashtable_unhash`, about to read the hash of the element. -/
  | unhashRead (e : ε)
  /-- `hashtable_unhash`, before its locked part. -/
  | unhash (e : ε) (slot : ℕ)
  /-- `hashtable_lookup`, before its locked part. -/
  | lookup (key : κ)
  /-- `hashtable_fini`, before its locked part for a slot, or at its end. -/
  | fini (slot : ℕ)
deriving DecidableEq

/-- The element a client is hashing. -/
def HashPc.hashes {ε κ : Type} : HashPc ε κ → Option ε
  | .hashTest e _ => some e
  | .hashWrite e _ => some e
  | .hash e _ => some e
  | _ => none

/-- A hash table and the clients that use it. -/
structure HashSys (ε κ γ : Type) where
  t : HashTable ε κ
  owners : ε → List γ
  pc : γ → HashPc ε κ
  closed : Bool

/-- A step of the system: a client takes or gives back a reference, calls a function
of the table, or goes on with the one it is in. -/
inductive HashEvent (ε κ γ : Type) where
  | hold (c : γ) (e : ε)
  | put (c : γ) (e : ε)
  | callHash (c : γ) (e : ε) (key : κ)
  | callUnhash (c : γ) (e : ε)
  | callLookup (c : γ) (key : κ)
  | callFini (c : γ)
  | access (c : γ)

namespace HashSys

variable {ε κ γ : Type} [DecidableEq ε] [DecidableEq γ]

/-- Client `c` goes on to `pc`. -/
def goto (s : HashSys ε κ γ) (c : γ) (pc : HashPc ε κ) : HashSys ε κ γ :=
  { s with pc := Function.update s.pc c pc }

/-- Client `c` owns one more reference. -/
def gain (s : HashSys ε κ γ) (c : γ) (e : ε) : HashSys ε κ γ :=
  { s with owners := Function.update s.owners e (c :: s.owners e) }

/-- Client `c` owns one reference less. -/
def lose (s : HashSys ε κ γ) (c : γ) (e : ε) : HashSys ε κ γ :=
  { s with owners := Function.update s.owners e ((s.owners e).erase c) }

/-- **The references to an element**: those of the clients, and that of the table. -/
def refs (s : HashSys ε κ γ) (e : ε) : ℕ :=
  (s.owners e).length + if s.t.hashelmHashed e then 1 else 0

/-- **The next step of client `c`.** -/
def access (fuel : ℕ) (s : HashSys ε κ γ) (c : γ) : Option (HashSys ε κ γ) :=
  match s.pc c with
  | .idle => none
  | .hashTest e key =>
    if s.t.hashelmHashed e then some (s.goto c .idle) else some (s.goto c (.hashWrite e key))
  | .hashWrite e key => some { s.goto c (.hash e key) with t := s.t.setKey e key }
  | .hash e key =>
    (s.t.hashSection fuel e key).map fun r => { s.goto c .idle with t := r.2 }
  | .unhashRead e => some (s.goto c (.unhash e (s.t.getSlot (s.t.elm e).hash)))
  | .unhash e slot => (s.t.unhashSection slot e).map fun t => { s.goto c .idle with t := t }
  | .lookup key =>
    (s.t.hashtableLookup fuel key).map fun r =>
      match r.1 with
      | some e => gain { s.goto c .idle with t := r.2 } c e
      | none => { s.goto c .idle with t := r.2 }
  | .fini slot =>
    if slot ≤ s.t.mask.toNat then
      -- the index of the loop is an `int`
      if slot + 1 < 2 ^ 31 then
        (s.t.finiSection fuel slot).map fun t => { s.goto c (.fini (slot + 1)) with t := t }
      else none
    else
      some { s.goto c .idle with t := s.t.finiEnd }

/-- One step of the system; a client calls a function when it is in no other. -/
def step (fuel : ℕ) (s : HashSys ε κ γ) : HashEvent ε κ γ → Option (HashSys ε κ γ)
  | .hold c e =>
    match s.pc c with
    | .idle => some (gain { s with t := s.t.hashelmHold e } c e)
    | _ => none
  | .put c e =>
    match s.pc c with
    | .idle => (s.t.hashelmPut e).map fun t => lose { s with t := t } c e
    | _ => none
  | .callHash c e key =>
    match s.pc c with
    | .idle => some (s.goto c (.hashTest e key))
    | _ => none
  | .callUnhash c e =>
    match s.pc c with
    | .idle => some (s.goto c (.unhashRead e))
    | _ => none
  | .callLookup c key =>
    match s.pc c with
    | .idle => some (s.goto c (.lookup key))
    | _ => none
  | .callFini c =>
    match s.pc c with
    | .idle => some { s.goto c (.fini 0) with closed := true }
    | _ => none
  | .access c => s.access fuel c

/-- The locked parts a client may come to: an element is only linked while there is a
reference to it, and it is in the table at the step that unlinks it. Each is one step here,
whichever slot it locks; what it takes for the lock to make it one is in
`HashSys.Guarded`. -/
def AccessPermitted (s : HashSys ε κ γ) : HashPc ε κ → Prop
  | .idle => False
  | .hash e _ => 0 < s.refs e
  | .unhash e _ => s.t.hashelmHashed e = true
  | _ => True

/-- **What the clients have to keep to.** A reference is only taken while there is one; a
client puts references it owns, the last one to an element only when the element has
been hashed; one client at a time hashes an element; and `hashtable_fini` is the last
call on the table. -/
def Permitted (s : HashSys ε κ γ) : HashEvent ε κ γ → Prop
  | .hold c e => s.pc c = .idle ∧ 0 < s.refs e
  | .put c e => s.pc c = .idle ∧ c ∈ s.owners e ∧ (s.refs e = 1 → (s.t.elm e).ht = true)
  | .callHash c e _ => s.pc c = .idle ∧ s.closed = false ∧ ∀ c', (s.pc c').hashes ≠ some e
  | .callUnhash c _ => s.pc c = .idle ∧ s.closed = false
  | .callLookup c _ => s.pc c = .idle ∧ s.closed = false
  | .callFini _ => s.closed = false ∧ ∀ c', s.pc c' = .idle
  | .access c => s.AccessPermitted (s.pc c)

instance (s : HashSys ε κ γ) (pc : HashPc ε κ) : Decidable (s.AccessPermitted pc) :=
  match pc with
  | .idle => .isFalse id
  | .hash e _ => inferInstanceAs (Decidable (0 < s.refs e))
  | .unhash e _ => inferInstanceAs (Decidable (s.t.hashelmHashed e = true))
  | .hashTest _ _ | .hashWrite _ _ | .unhashRead _ | .lookup _ | .fini _ => .isTrue trivial

instance [DecidableEq κ] [Fintype γ] (s : HashSys ε κ γ) (ev : HashEvent ε κ γ) :
    Decidable (s.Permitted ev) :=
  match ev with
  | .hold c e => inferInstanceAs (Decidable (s.pc c = .idle ∧ 0 < s.refs e))
  | .put c e => inferInstanceAs (Decidable
      (s.pc c = .idle ∧ c ∈ s.owners e ∧ (s.refs e = 1 → (s.t.elm e).ht = true)))
  | .callHash c e _ => inferInstanceAs (Decidable
      (s.pc c = .idle ∧ s.closed = false ∧ ∀ c', (s.pc c').hashes ≠ some e))
  | .callUnhash c _ => inferInstanceAs (Decidable (s.pc c = .idle ∧ s.closed = false))
  | .callLookup c _ => inferInstanceAs (Decidable (s.pc c = .idle ∧ s.closed = false))
  | .callFini _ => inferInstanceAs (Decidable (s.closed = false ∧ ∀ c', s.pc c' = .idle))
  | .access c => inferInstanceAs (Decidable (s.AccessPermitted (s.pc c)))

omit [DecidableEq ε] in
@[simp] theorem goto_pc_self (s : HashSys ε κ γ) (c : γ) (pc : HashPc ε κ) :
    (s.goto c pc).pc c = pc :=
  Function.update_self ..

omit [DecidableEq ε] in
theorem goto_pc_of_ne (s : HashSys ε κ γ) {c c' : γ} (pc : HashPc ε κ) (h : c' ≠ c) :
    (s.goto c pc).pc c' = s.pc c' :=
  Function.update_of_ne h _ _

end HashSys
