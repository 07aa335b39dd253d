import Mathlib
import IndexedTree.Service.Sequence

/-!
# Runs of steps

A sequence request runs its steps in order, each on the state that the one before left, whether
it was refused or not. `runAll` gives the state that a list of steps leaves; a property that every
step keeps holds of every state a run reaches (`runAll_induction`).
-/

namespace IndexedTree

namespace Service

/-- The state that a sequence of steps leaves, each step run on the state the one before left. -/
def runAll {σ γ : Type} (run : σ → γ → StepReply × σ) (s : σ) (steps : List γ) : σ :=
  steps.foldl (fun s c => (run s c).2) s

@[simp] theorem runAll_nil {σ γ : Type} (run : σ → γ → StepReply × σ) (s : σ) :
    runAll run s [] = s := rfl

theorem runAll_cons {σ γ : Type} (run : σ → γ → StepReply × σ) (s : σ) (c : γ) (steps : List γ) :
    runAll run s (c :: steps) = runAll run (run s c).2 steps := rfl

@[simp] theorem runAll_append_singleton {σ γ : Type} (run : σ → γ → StepReply × σ) (s : σ)
    (steps : List γ) (c : γ) : runAll run s (steps ++ [c]) = (run (runAll run s steps) c).2 := by
  simp [runAll]

/-- A property that every step keeps holds of every state a run reaches. -/
theorem runAll_induction {σ γ : Type} {run : σ → γ → StepReply × σ} (P : σ → Prop) {s : σ}
    (hs : P s) (hstep : ∀ u c, P u → P (run u c).2) (steps : List γ) : P (runAll run s steps) := by
  induction steps using List.reverseRecOn with
  | nil => exact hs
  | append_singleton steps c ih =>
    rw [runAll_append_singleton]
    exact hstep _ c ih

end Service

end IndexedTree
