import Mathlib.Data.Option.Basic
import Mathlib.Tactic.Common

/-!
# Refinement of an abstract machine

The operations of a component are calls, each with an answer and a new state, or
with no outcome at all. An abstract machine says what the component is for: which
calls a user may make in an abstract state, and which answers, with which new
abstract state, are right.

`Refines` reads a list of calls along both. In every state the relation `R` between
the two holds, and every call the machine admits returns, with an answer that is
right. After a call the machine does not admit nothing is asked.

`Refines.of_countdown` is the rule for a component whose calls only return while
something is not used up: the invariant carries the number of calls still to come.
-/

variable {σ τ ο α : Type*}

/-- **An abstract machine**, by the calls it admits and the answers it allows. -/
structure Machine (τ ο α : Type*) where
  pre : τ → ο → Prop
  post : τ → ο → α → τ → Prop

/-- **The component refines the machine** along a list of calls, from related
states. -/
def Refines (call : σ → ο → Option (α × σ)) (A : Machine τ ο α) (R : σ → τ → Prop) :
    σ → τ → List ο → Prop
  | s, x, [] => R s x
  | s, x, o :: os => R s x ∧ (A.pre x o → ∃ a s' x', call s o = some (a, s')
      ∧ A.post x o a x' ∧ Refines call A R s' x' os)

/-- What a list of calls answers. -/
def answers (call : σ → ο → Option (α × σ)) : σ → List ο → Option (List α)
  | _, [] => some []
  | s, o :: os => (call s o).bind fun r => (answers call r.2 os).map (r.1 :: ·)

/-- **The machine admits** every call of a list, the answers with them are right, and `Q` holds
after them. -/
def Machine.Admits (A : Machine τ ο α) (Q : τ → Prop) : τ → List (ο × α) → Prop
  | x, [] => Q x
  | x, r :: rs => A.pre x r.1 ∧ ∃ x', A.post x r.1 r.2 x' ∧ Admits A Q x' rs

/-- **The rule for refinement.** Where each admitted call returns, answers rightly
and keeps an invariant that may depend on the number of calls to come, the
component refines the machine along every list of as many calls. -/
theorem Refines.of_countdown {call : σ → ο → Option (α × σ)} {A : Machine τ ο α}
    {R : σ → τ → Prop} {J : ℕ → σ → τ → Prop} (hR : ∀ n s x, J n s x → R s x)
    (hstep : ∀ n s x o, J (n + 1) s x → A.pre x o →
      ∃ a s' x', call s o = some (a, s') ∧ A.post x o a x' ∧ J n s' x')
    {s : σ} {x : τ} {os : List ο} (h : J os.length s x) : Refines call A R s x os := by
  induction os generalizing s x with
  | nil => exact hR 0 s x h
  | cons o os ih =>
    refine ⟨hR _ s x h, fun hpre => ?_⟩
    obtain ⟨a, s', x', hcall, hpost, hJ⟩ := hstep os.length s x o h hpre
    exact ⟨a, s', x', hcall, hpost, ih hJ⟩
