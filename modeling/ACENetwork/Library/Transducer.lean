import Mathlib

/-!
# Terminating transducers

A transducer moves silently, emits an output, or halts. A rank that every move
lowers bounds its runs, so a run is a total function: the emitted outputs and
the result it halts with.
-/
namespace ACENetwork.Library

inductive Move (σ ω ρ : Type*) where
  | silent (next : σ)
  | emit (output : ω) (next : σ)
  | halt (result : ρ)

def Move.next? {σ ω ρ : Type*} : Move σ ω ρ → Option σ
  | .silent s => some s
  | .emit _ s => some s
  | .halt _ => none

/-- A transition function with a rank that bounds its runs. -/
structure Transducer (σ ω ρ : Type*) where
  step : σ → Move σ ω ρ
  rank : σ → ℕ
  rank_lt : ∀ s s', (step s).next? = some s' → rank s' < rank s

namespace Transducer

variable {σ ω ρ : Type*} (t : Transducer σ ω ρ)

def runWithin : (fuel : ℕ) → (s : σ) → t.rank s < fuel → List ω × ρ
  | fuel + 1, s, h =>
    match hstep : t.step s with
    | .silent s' => runWithin fuel s' (by
        have := t.rank_lt s s' (by rw [hstep]; rfl)
        omega)
    | .emit o s' =>
      let rest := runWithin fuel s' (by
        have := t.rank_lt s s' (by rw [hstep]; rfl)
        omega)
      (o :: rest.1, rest.2)
    | .halt r => ([], r)

def run (s : σ) : List ω × ρ := t.runWithin (t.rank s + 1) s (Nat.lt_succ_self _)

theorem runWithin_eq_run {fuel : ℕ} {s : σ} (h : t.rank s < fuel) :
    t.runWithin fuel s h = t.run s := by
  have key : ∀ n m s (hn : t.rank s < n) (hm : t.rank s < m),
      t.runWithin n s hn = t.runWithin m s hm := by
    intro n
    induction n with
    | zero => intro m s hn; omega
    | succ n ih =>
      intro m s hn hm
      cases m with
      | zero => omega
      | succ m =>
        rw [runWithin, runWithin]
        split
        · exact ih _ _ _ _
        · rw [ih m]
        · rfl
  exact key _ _ _ _ _

theorem run_silent {s s' : σ} (h : t.step s = .silent s') : t.run s = t.run s' := by
  have hlt := t.rank_lt s s' (by rw [h]; rfl)
  rw [← t.runWithin_eq_run hlt, run, runWithin]
  split <;> simp_all

theorem run_emit {s s' : σ} {o : ω} (h : t.step s = .emit o s') :
    t.run s = (o :: (t.run s').1, (t.run s').2) := by
  have hlt := t.rank_lt s s' (by rw [h]; rfl)
  rw [← t.runWithin_eq_run hlt, run, runWithin]
  split <;> simp_all

theorem run_halt {s : σ} {r : ρ} (h : t.step s = .halt r) : t.run s = ([], r) := by
  rw [run, runWithin]
  split <;> simp_all

theorem run_congr {s s' : σ} (h : t.step s = t.step s') : t.run s = t.run s' := by
  cases hstep : t.step s with
  | silent n => exact (t.run_silent hstep).trans (t.run_silent (h.symm.trans hstep)).symm
  | emit o n => exact (t.run_emit hstep).trans (t.run_emit (h.symm.trans hstep)).symm
  | halt r => exact (t.run_halt hstep).trans (t.run_halt (h.symm.trans hstep)).symm

theorem run_induction {C : σ → List ω × ρ → Prop}
    (silent : ∀ s s', t.step s = .silent s' → C s' (t.run s') → C s (t.run s'))
    (emit : ∀ s s' o, t.step s = .emit o s' → C s' (t.run s') →
      C s (o :: (t.run s').1, (t.run s').2))
    (halt : ∀ s r, t.step s = .halt r → C s ([], r)) (s : σ) : C s (t.run s) := by
  induction hn : t.rank s using Nat.strong_induction_on generalizing s with
  | _ n ih =>
    have hnext : ∀ s', (t.step s).next? = some s' → C s' (t.run s') := fun s' hs' =>
      ih (t.rank s') (hn ▸ t.rank_lt s s' hs') s' rfl
    cases hstep : t.step s with
    | silent s' =>
      rw [t.run_silent hstep]
      exact silent s s' hstep (hnext s' (by rw [hstep]; rfl))
    | emit o s' =>
      rw [t.run_emit hstep]
      exact emit s s' o hstep (hnext s' (by rw [hstep]; rfl))
    | halt r =>
      rw [t.run_halt hstep]
      exact halt s r hstep

end Transducer
end ACENetwork.Library
