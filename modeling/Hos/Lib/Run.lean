import Mathlib.Logic.Relation

/-!
# Runs of a state machine given by its operations

An operation either returns with a new state or does not return. A run is a
sequence of operations that return, each of them admitted in the state it
starts from. What every admitted operation keeps holds in every state that a
run reaches.
-/

namespace Hos

variable {σ ι : Type} {exec : ι → σ → Option σ} {ok : ι → σ → Prop} {s t : σ}

/-- `t` is reached from `s` by operations that are admitted and return. -/
def Runs (exec : ι → σ → Option σ) (ok : ι → σ → Prop) : σ → σ → Prop :=
  Relation.ReflTransGen fun s t => ∃ i, ok i s ∧ exec i s = some t

namespace Runs

theorem refl (s : σ) : Runs exec ok s s := Relation.ReflTransGen.refl

theorem single {i : ι} (hok : ok i s) (hexec : exec i s = some t) : Runs exec ok s t :=
  Relation.ReflTransGen.single ⟨i, hok, hexec⟩

theorem trans {u : σ} (h₁ : Runs exec ok s t) (h₂ : Runs exec ok t u) : Runs exec ok s u :=
  Relation.ReflTransGen.trans h₁ h₂

/-- The run of a list of operations that are admitted whatever the state. -/
theorem of_foldlM {is : List ι} (hok : ∀ i s, ok i s)
    (hexec : is.foldlM (fun s i => exec i s) s = some t) : Runs exec ok s t := by
  induction is generalizing s with
  | nil =>
    obtain rfl := Option.some.inj hexec
    exact refl s
  | cons i is ih =>
    rw [List.foldlM_cons, Option.bind_eq_bind, Option.bind_eq_some_iff] at hexec
    obtain ⟨u, hstep, hrest⟩ := hexec
    exact (single (hok i s) hstep).trans (ih hrest)

/-- The invariant rule. -/
theorem invariant (inv : σ → Prop) (step : ∀ i s t, inv s → ok i s → exec i s = some t → inv t)
    (hrun : Runs exec ok s t) (start : inv s) : inv t := by
  induction hrun with
  | refl => exact start
  | tail _ hstep ih =>
    obtain ⟨i, hok, hexec⟩ := hstep
    exact step i _ _ ih hok hexec

end Runs

end Hos
