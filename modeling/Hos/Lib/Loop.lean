import Mathlib.Data.Nat.Basic

/-!
# While loops that need not terminate

A C `while` or pointer-chasing `for` loop is the least solution of its own
unfolding equation. `none` stands for a loop that never returns, so a theorem
of the form `whileLoop cond body s = some t` is a termination statement about
the real loop and not a consequence of a chosen amount of fuel.

The total rule combines an invariant with a decreasing natural variant. The
partial rule only carries an invariant through the loops that do return.
-/

namespace Hos

variable {σ : Type}

/-- Run `body` as long as `cond` holds. The body may itself fail to return. -/
def whileLoop (cond : σ → Bool) (body : σ → Option σ) (s : σ) : Option σ :=
  if cond s then do
    let s' ← body s
    -- `by apply` leaves no source position in the term
    (by apply whileLoop : (σ → Bool) → (σ → Option σ) → σ → Option σ) cond body s'
  else some s
partial_fixpoint

section

variable {cond : σ → Bool} {body : σ → Option σ}

theorem whileLoop_of_false {s : σ} (h : cond s = false) : whileLoop cond body s = some s := by
  rw [whileLoop]
  simp [h]

theorem whileLoop_of_true {s t : σ} (h : cond s = true) (next : body s = some t) :
    whileLoop cond body s = whileLoop cond body t := by
  rw [whileLoop]
  simp [h, next]

theorem whileLoop_of_none {s : σ} (h : cond s = true) (fails : body s = none) :
    whileLoop cond body s = none := by
  rw [whileLoop]
  simp [h, fails]

/-- An invariant kept by every iteration, together with a variant that every
iteration decreases, gives a terminating loop whose result satisfies the
invariant and falsifies the guard. -/
theorem whileLoop_total (invariant : σ → Prop) (variant : σ → Nat)
    (step : ∀ s, invariant s → cond s = true →
      ∃ t, body s = some t ∧ invariant t ∧ variant t < variant s)
    {s : σ} (start : invariant s) : ∃ t, whileLoop cond body s = some t ∧ invariant t ∧
      cond t = false := by
  generalize hv : variant s = n
  induction n using Nat.strongRecOn generalizing s with
  | ind n ih =>
    cases hc : cond s with
    | false => exact ⟨s, whileLoop_of_false hc, start, hc⟩
    | true =>
      obtain ⟨t, hbody, ht, hlt⟩ := step s start hc
      obtain ⟨u, hrun, hu, hexit⟩ := ih (variant t) (hv ▸ hlt) ht rfl
      exact ⟨u, (whileLoop_of_true hc hbody).trans hrun, hu, hexit⟩

/-- A loop that returns keeps every invariant of its body. -/
theorem whileLoop_invariant (invariant : σ → Prop)
    (step : ∀ s t, invariant s → cond s = true → body s = some t → invariant t)
    {s t : σ} (run : whileLoop cond body s = some t) (start : invariant s) :
    invariant t ∧ cond t = false := by
  refine whileLoop.partial_correctness cond body
    (fun s t => invariant s → invariant t ∧ cond t = false) ?_ s t run start
  intro loop ih s t hrun hs
  cases hc : cond s with
  | false =>
    simp only [hc, Bool.false_eq_true, ↓reduceIte, Option.some.injEq] at hrun
    exact hrun ▸ ⟨hs, hc⟩
  | true =>
    simp only [hc, ↓reduceIte, Option.bind_eq_bind, Option.bind_eq_some_iff] at hrun
    obtain ⟨middle, hbody, hrest⟩ := hrun
    exact ih middle t hrest (step s middle hs hc hbody)

end

/-- A counted loop keeps whatever every pass of its body keeps. -/
theorem foldl_keeps {ι τ : Type} {f : σ → ι → σ} (observe : σ → τ)
    (step : ∀ s i, observe (f s i) = observe s) (is : List ι) (s : σ) :
    observe (is.foldl f s) = observe s := by
  induction is generalizing s with
  | nil => rfl
  | cons i is ih => exact (ih (f s i)).trans (step s i)

/-- Two counted loops whose bodies agree on every index they meet. -/
theorem foldlM_congr {ι : Type} {f g : σ → ι → Option σ} {is : List ι}
    (h : ∀ s, ∀ i ∈ is, f s i = g s i) (s : σ) : is.foldlM f s = is.foldlM g s := by
  induction is generalizing s with
  | nil => rfl
  | cons i is ih =>
    rw [List.foldlM_cons, List.foldlM_cons, h s i List.mem_cons_self]
    exact congrArg _ (funext fun t => ih (fun s j hj => h s j (List.mem_cons_of_mem i hj)) t)

end Hos
