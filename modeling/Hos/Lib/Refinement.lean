import Mathlib.Data.Option.Basic

/-!
# Refinement of operations with results

A component is given by operations that change its state and return a result, or
do not return. Its purpose is given by operations on another state, which always
return. The relation says which states of the two belong together.

When every admitted operation returns with the result that it should have, in a
state that belongs to the one it should lead to, then so does every sequence of
operations that are admitted one after the other. Whether an operation is
admitted may depend on both states.
-/

namespace Hos

variable {σ τ ι β : Type} {exec : ι → σ → Option (σ × β)} {spec : ι → τ → τ × β}
  {rel : σ → τ → Prop} {ok : ι → σ → τ → Prop}

/-- The results of a sequence of operations that all return. -/
def execAll (exec : ι → σ → Option (σ × β)) : List ι → σ → Option (σ × List β)
  | [], s => some (s, [])
  | i :: is, s => do
      let (s', b) ← exec i s
      let (s'', bs) ← execAll exec is s'
      some (s'', b :: bs)

/-- The results that a sequence of operations should have. -/
def specAll (spec : ι → τ → τ × β) : List ι → τ → τ × List β
  | [], t => (t, [])
  | i :: is, t =>
    ((specAll spec is (spec i t).1).1, (spec i t).2 :: (specAll spec is (spec i t).1).2)

/-- Every operation is admitted when its turn comes. -/
def Admitted (exec : ι → σ → Option (σ × β)) (spec : ι → τ → τ × β) (ok : ι → σ → τ → Prop) :
    List ι → σ → τ → Prop
  | [], _, _ => True
  | i :: is, s, t => ok i s t ∧
      ∀ s' b, exec i s = some (s', b) → Admitted exec spec ok is s' (spec i t).1

/-- The operation returns what it should, in a state that belongs to the new one. -/
def Refines (exec : ι → σ → Option (σ × β)) (spec : ι → τ → τ × β) (rel : σ → τ → Prop) (i : ι)
    (s : σ) (t : τ) : Prop :=
  ∃ s', exec i s = some (s', (spec i t).2) ∧ rel s' (spec i t).1

/-- The rule for sequences. -/
theorem refines_all (hstep : ∀ i s t, rel s t → ok i s t → Refines exec spec rel i s t)
    {is : List ι} {s : σ} {t : τ} (hrel : rel s t) (hok : Admitted exec spec ok is s t) :
    ∃ s', execAll exec is s = some (s', (specAll spec is t).2) ∧ rel s' (specAll spec is t).1 := by
  induction is generalizing s t with
  | nil => exact ⟨s, rfl, hrel⟩
  | cons i is ih =>
    obtain ⟨s', hexec, hrel'⟩ := hstep i s t hrel hok.1
    obtain ⟨s'', hrest, hrel''⟩ := ih hrel' (hok.2 _ _ hexec)
    refine ⟨s'', ?_, hrel''⟩
    simp [execAll, specAll, hexec, hrest]

end Hos
