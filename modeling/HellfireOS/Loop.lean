import Mathlib.Tactic.Basic
import Mathlib.Order.Basic

set_option autoImplicit false

/-!
# C `while` loops

Every loop of the runtime is a `while (cond) body;` over a few machine words. It is
modelled as `loopWhile`, iterated at most `fuel` times. Once the condition is false
at the end of the fuel, the C loop has exited there too, so each routine proves that
the fuel it is given is enough (`loopWhile_exit`) and then reasons from an invariant
(`loopWhile_invariant`).
-/
namespace HellfireOS.Loop

/-- `while (cond s) s = body s;` unrolled at most `fuel` times. -/
def loopWhile {σ : Type} (cond : σ → Bool) (body : σ → σ) : ℕ → σ → σ
  | 0, s => s
  | fuel + 1, s => if cond s then loopWhile cond body fuel (body s) else s

section
variable {σ : Type} (cond : σ → Bool) (body : σ → σ)

@[simp] theorem loopWhile_zero (s : σ) : loopWhile cond body 0 s = s := rfl

theorem loopWhile_succ_of_cond {s : σ} (h : cond s = true) (fuel : ℕ) :
    loopWhile cond body (fuel + 1) s = loopWhile cond body fuel (body s) := by
  simp [loopWhile, h]

theorem loopWhile_of_not_cond {s : σ} (h : cond s = false) (fuel : ℕ) :
    loopWhile cond body fuel s = s := by
  cases fuel <;> simp [loopWhile, h]

theorem loopWhile_invariant (I : σ → Prop) (step : ∀ s, I s → cond s = true → I (body s)) :
    ∀ fuel s, I s → I (loopWhile cond body fuel s) := by
  intro fuel
  induction fuel with
  | zero => exact fun _ hs => hs
  | succ fuel ih =>
    intro s hs
    cases hc : cond s
    · rwa [loopWhile_of_not_cond cond body hc]
    · rw [loopWhile_succ_of_cond cond body hc]
      exact ih _ (step s hs hc)

theorem loopWhile_exit (P : ℕ → σ → Prop)
    (step : ∀ n s, P (n + 1) s → cond s = true → P n (body s))
    (last : ∀ s, P 0 s → cond s = false) :
    ∀ fuel s, P fuel s → cond (loopWhile cond body fuel s) = false := by
  intro fuel
  induction fuel with
  | zero => exact last
  | succ fuel ih =>
    intro s hs
    cases hc : cond s
    · rwa [loopWhile_of_not_cond cond body hc]
    · rw [loopWhile_succ_of_cond cond body hc]
      exact ih _ (step fuel s hs hc)

theorem loopWhile_add (fuel extra : ℕ) (s : σ)
    (h : cond (loopWhile cond body fuel s) = false) :
    loopWhile cond body (fuel + extra) s = loopWhile cond body fuel s := by
  induction fuel generalizing s with
  | zero => simpa using loopWhile_of_not_cond cond body h extra
  | succ fuel ih =>
    cases hc : cond s
    · rw [loopWhile_of_not_cond cond body hc, loopWhile_of_not_cond cond body hc]
    · rw [Nat.add_right_comm, loopWhile_succ_of_cond cond body hc,
        loopWhile_succ_of_cond cond body hc]
      rw [loopWhile_succ_of_cond cond body hc] at h
      exact ih _ h

end

end HellfireOS.Loop
