/-
Webernetes.Base.Transition — labelled transition systems, their runs,
and the induction along a run.

A `System` has initial states and a labelled step relation. `Run` is a
run with the labels it took, `Reach` forgets the labels. `System.guarded`
keeps the steps that meet a condition on the state before the step and
the label: a run of `sys.guarded ok` is a run of `sys` whose steps all
meet `ok`.

`Run.invariant` is the one induction: what holds at the start and is
preserved by every step holds at the end of every run.
-/
import Mathlib.Tactic.Common

namespace Webernetes.Base

universe u v

/-- A labelled transition system. -/
structure System (σ : Type u) (ℓ : Type v) where
  init : σ → Prop
  step : σ → ℓ → σ → Prop

namespace System

variable {σ : Type u} {ℓ : Type v} (sys : System σ ℓ)

/-- The system restricted to the steps that meet a condition. -/
def guarded (ok : σ → ℓ → Prop) : System σ ℓ where
  init := sys.init
  step s l s' := sys.step s l s' ∧ ok s l

/-- A run and its labels, first label first. -/
inductive Run : List ℓ → σ → Prop where
  | start {s : σ} (h : sys.init s) : Run [] s
  | snoc {ls : List ℓ} {s s' : σ} {l : ℓ} (run : Run ls s) (h : sys.step s l s') :
      Run (ls ++ [l]) s'

/-- A state some run ends in. -/
def Reach (s : σ) : Prop := ∃ ls, sys.Run ls s

variable {sys}

theorem Reach.start {s : σ} (h : sys.init s) : sys.Reach s := ⟨[], .start h⟩

theorem Reach.step {s s' : σ} {l : ℓ} (h : sys.Reach s) (hs : sys.step s l s') :
    sys.Reach s' := by
  obtain ⟨ls, hrun⟩ := h
  exact ⟨ls ++ [l], hrun.snoc hs⟩

/-- What a step function reaches when every step it takes is one of the
system's. -/
theorem Reach.foldl {f : σ → ℓ → σ} (hstep : ∀ s l, sys.step s l (f s l)) {s : σ}
    (h : sys.Reach s) (ls : List ℓ) : sys.Reach (ls.foldl f s) := by
  induction ls generalizing s with
  | nil => exact h
  | cons l ls ih => exact ih (h.step (hstep s l))

theorem Run.nil_inv {s : σ} (h : sys.Run [] s) : sys.init s := by
  generalize hls : ([] : List ℓ) = ls at h
  cases h with
  | start h => exact h
  | snoc run h => simp at hls

/-- The last step of a run. -/
theorem Run.snoc_inv {ls : List ℓ} {l : ℓ} {s' : σ} (h : sys.Run (ls ++ [l]) s') :
    ∃ s, sys.Run ls s ∧ sys.step s l s' := by
  generalize hls : ls ++ [l] = ls' at h
  cases h with
  | start h => simp at hls
  | snoc run h =>
    obtain ⟨rfl, hl⟩ := List.append_inj' hls rfl
    cases hl
    exact ⟨_, run, h⟩

/-- Induction along a run, labels included. -/
theorem Run.invariant {P : List ℓ → σ → Prop} (hinit : ∀ s, sys.init s → P [] s)
    (hstep : ∀ ls s l s', sys.Run ls s → P ls s → sys.step s l s' → P (ls ++ [l]) s')
    {ls : List ℓ} {s : σ} (h : sys.Run ls s) : P ls s := by
  induction h with
  | start h => exact hinit _ h
  | snoc run h ih => exact hstep _ _ _ _ run ih h

/-- What holds initially and is preserved by every step from a reachable
state holds of every reachable state. -/
theorem Reach.invariant {P : σ → Prop} (hinit : ∀ s, sys.init s → P s)
    (hstep : ∀ s l s', sys.Reach s → P s → sys.step s l s' → P s')
    {s : σ} (h : sys.Reach s) : P s := by
  obtain ⟨ls, hrun⟩ := h
  exact hrun.invariant (P := fun _ s => P s) hinit
    fun ls s l s' run hp hs => hstep s l s' ⟨ls, run⟩ hp hs

/-- A restricted run is a run. -/
theorem Reach.of_guarded {ok : σ → ℓ → Prop} {s : σ} (h : (sys.guarded ok).Reach s) :
    sys.Reach s :=
  h.invariant (fun _ hs => .start hs) fun _ _ _ _ hr hs => hr.step hs.1

theorem Run.guarded_mono {ok ok' : σ → ℓ → Prop} (hok : ∀ s l, ok s l → ok' s l) {ls : List ℓ}
    {s : σ} (h : (sys.guarded ok).Run ls s) : (sys.guarded ok').Run ls s := by
  induction h with
  | start h => exact .start h
  | snoc run h ih =>
    have hstep : (sys.guarded ok').step _ _ _ := ⟨h.1, hok _ _ h.2⟩
    exact ih.snoc hstep

/-- A run under a stronger condition is a run under a weaker one. -/
theorem Reach.guarded_mono {ok ok' : σ → ℓ → Prop} (hok : ∀ s l, ok s l → ok' s l) {s : σ}
    (h : (sys.guarded ok).Reach s) : (sys.guarded ok').Reach s := by
  obtain ⟨ls, hrun⟩ := h
  exact ⟨ls, hrun.guarded_mono hok⟩

end System

end Webernetes.Base
