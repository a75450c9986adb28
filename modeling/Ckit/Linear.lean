import Ckit.Refinement
import Ckit.Run
import Mathlib.Logic.Function.Basic

/-!
# Histories of an atomic object

Several clients use one object, each with one call at a time. What they can see of it is
a *history*: the calls, and the returns with their answers, in the order in which they
happen.

The object is *atomic* for an abstract machine when a history could be the one of the
machine itself: between its call and its return, each operation takes effect at a single
moment, at which the machine admits it and allows its answer (`Atomic`). An operation that
has returned before another one is called takes effect before it, and the order of the
moments is a sequential run of the machine with the same answers.

`Atomic.of_run` is the rule for a component that is described step by step: where a step
is one of the atomic object, with nothing, a call, or the moment and the return of an
operation to be seen of it, every run is.
-/

variable {σ ε τ ο α γ : Type*}

/-- What is seen of a client: it calls an operation, or an operation returns to it. -/
inductive Seen (γ ο α : Type*) where
  | call (c : γ) (o : ο)
  | ret (c : γ) (a : α)

/-- Where a client is: in no operation, in one that has not taken effect, or in one that
has and is about to return. -/
inductive Phase (ο α : Type*) where
  | idle
  | called (o : ο)
  | decided (a : α)

/-- **The histories of the atomic object** for a machine, from one state and the phases of
its clients to another. -/
inductive Atomic [DecidableEq γ] (A : Machine τ ο α) :
    τ → (γ → Phase ο α) → List (Seen γ ο α) → τ → (γ → Phase ο α) → Prop
  | refl (x : τ) (p : γ → Phase ο α) : Atomic A x p [] x p
  | call {x x' : τ} {p p' : γ → Phase ο α} {h : List (Seen γ ο α)} {c : γ} {o : ο}
      (hp : p c = .idle) (rest : Atomic A x (Function.update p c (.called o)) h x' p') :
      Atomic A x p (.call c o :: h) x' p'
  | decide {x y x' : τ} {p p' : γ → Phase ο α} {h : List (Seen γ ο α)} {c : γ} {o : ο} {a : α}
      (hp : p c = .called o) (hpre : A.pre x o) (hpost : A.post x o a y)
      (rest : Atomic A y (Function.update p c (.decided a)) h x' p') : Atomic A x p h x' p'
  | ret {x x' : τ} {p p' : γ → Phase ο α} {h : List (Seen γ ο α)} {c : γ} {a : α}
      (hp : p c = .decided a) (rest : Atomic A x (Function.update p c .idle) h x' p') :
      Atomic A x p (.ret c a :: h) x' p'

/-- What a step of a component may be for the atomic object: nothing that is seen, a call,
or the moment and the return of an operation. -/
inductive AtomicStep [DecidableEq γ] (A : Machine τ ο α) :
    τ → (γ → Phase ο α) → List (Seen γ ο α) → τ → (γ → Phase ο α) → Prop
  | inside (x : τ) (p : γ → Phase ο α) : AtomicStep A x p [] x p
  | call {x : τ} {p : γ → Phase ο α} {c : γ} {o : ο} (hp : p c = .idle) :
      AtomicStep A x p [.call c o] x (Function.update p c (.called o))
  | ret {x y : τ} {p : γ → Phase ο α} {c : γ} {o : ο} {a : α} (hp : p c = .called o)
      (hpre : A.pre x o) (hpost : A.post x o a y) :
      AtomicStep A x p [.ret c a] y (Function.update p c .idle)

/-- **The history of a run**, where `seen` is what is seen of a step in a state. -/
def history (step : σ → ε → Option σ) (seen : σ → ε → List (Seen γ ο α)) :
    σ → List ε → List (Seen γ ο α)
  | _, [] => []
  | s, e :: es => seen s e ++ ((step s e).map fun s' => history step seen s' es).getD []

theorem history_cons {step : σ → ε → Option σ} {seen : σ → ε → List (Seen γ ο α)} {s s' : σ}
    {e : ε} (hstep : step s e = some s') (es : List ε) :
    history step seen s (e :: es) = seen s e ++ history step seen s' es := by
  rw [history, hstep, Option.map_some, Option.getD_some]

namespace Atomic

variable [DecidableEq γ] {A : Machine τ ο α} {x y z : τ} {p q r : γ → Phase ο α}
  {h h' : List (Seen γ ο α)}

/-- One history after another. -/
theorem trans (h₁ : Atomic A x p h y q) (h₂ : Atomic A y q h' z r) :
    Atomic A x p (h ++ h') z r := by
  induction h₁ with
  | refl => exact h₂
  | call hp _ ih => exact .call hp (ih h₂)
  | decide hp hpre hpost _ ih => exact .decide hp hpre hpost (ih h₂)
  | ret hp _ ih => exact .ret hp (ih h₂)

theorem of_step (hs : AtomicStep A x p h y q) : Atomic A x p h y q := by
  cases hs with
  | inside => exact .refl _ _
  | call hp => exact .call hp (.refl _ _)
  | ret hp hpre hpost =>
    refine .decide hp hpre hpost (.ret (Function.update_self ..) ?_)
    rw [Function.update_idem]
    exact .refl _ _

/-- **The rule for a component described step by step**, with an invariant `J` that may
depend on the events to come and ties its states to those of the machine. -/
theorem of_run (phase : σ → γ → Phase ο α) {step : σ → ε → Option σ}
    {seen : σ → ε → List (Seen γ ο α)} {cond : σ → ε → Prop} {B : σ → Prop}
    {J : List ε → σ → τ → Prop}
    (hstep : ∀ e es s x, J (e :: es) s x → cond s e → ∃ s', step s e = some s'
      ∧ (B s' → ∃ y, J es s' y ∧ AtomicStep A x (phase s) (seen s e) y (phase s')))
    {s : σ} {es : List ε} (hs : J es s x) (hm : Meets step cond s es) (hB : Along step B s es) :
    ∃ s' y, run step s es = some s' ∧ J [] s' y
      ∧ Atomic A x (phase s) (history step seen s es) y (phase s') := by
  induction es generalizing s x with
  | nil => exact ⟨s, x, rfl, hs, .refl _ _⟩
  | cons e es ih =>
    obtain ⟨t, ht, hJ⟩ := hstep e es s x hs hm.1
    obtain ⟨y, hty, hseen⟩ := hJ (Run.along_start (hB.2 t ht))
    obtain ⟨s', z, hr, hz, hrest⟩ := ih hty (hm.2 t ht) (hB.2 t ht)
    refine ⟨s', z, Run.run_cons_eq_some.mpr ⟨t, ht, hr⟩, hz, ?_⟩
    rw [history_cons ht]
    exact (of_step hseen).trans hrest

end Atomic
