import Mathlib.Data.List.Basic

/-!
Runs of a labelled transition system, with the labels they produced. An invariant may
speak about the labels so far; a guard restricts a system to the steps that meet it.
-/

namespace Run

variable {σ ε : Type}

inductive Reaches (step : σ → ε → σ → Prop) (start : σ) : List ε → σ → Prop
  | refl : Reaches step start [] start
  | next {events state event after} : Reaches step start events state → step state event after →
      Reaches step start (events ++ [event]) after

/-- The steps that meet a condition on the state before them and their label. -/
def Guarded (guard : σ → ε → Prop) (step : σ → ε → σ → Prop) (s : σ) (e : ε) (t : σ) : Prop :=
  guard s e ∧ step s e t

theorem Reaches.invariant {step : σ → ε → σ → Prop} {start : σ} (Inv : List ε → σ → Prop)
    (initial : Inv [] start)
    (preserved : ∀ {events s e t}, Inv events s → step s e t → Inv (events ++ [e]) t)
    {events : List ε} {state : σ} (run : Reaches step start events state) : Inv events state := by
  induction run with
  | refl => exact initial
  | next _ stepped ih => exact preserved ih stepped

theorem shown {step : σ → ε → σ → Prop} {start state : σ} {events : List ε} {P : σ → Prop}
    (run : Reaches step start events state) (shown : Reaches step start events state → P state) :
    ∃ state, Reaches step start events state ∧ P state := ⟨state, run, shown run⟩

end Run
