import Mathlib.Algebra.Group.Nat.Defs
import Mathlib.Tactic.Common

/-! Counted loops over a machine word: `for (p = start; p < stop; p += step)`, with `p` wrapping
at `2 ^ w`. -/
namespace NyaOS.Library.CountedLoop

/-- The values of `p` the body sees. A loop that has not ended after `fuel` turns has no
result; with more fuel than the word has values it never ends. -/
def forValues (w stop step : Nat) : Nat → Nat → Option (List Nat)
  | 0, _ => none
  | fuel + 1, p =>
    if p < stop then (forValues w stop step fuel ((p + step) % 2 ^ w)).map (p :: ·) else some []

/-- A loop whose variable never wraps ends, and its body sees exactly the progression below
`stop`. -/
theorem forValues_spec (w stop : Nat) {step : Nat} (hstep : 0 < step) (fuel p : Nat)
    (hfuel : stop - p < fuel)
    (hwrap : ∀ k, p + k * step < stop → p + k * step + step < 2 ^ w) :
    ∃ l, forValues w stop step fuel p = some l ∧ ∀ x, x ∈ l ↔ x < stop ∧ ∃ k, x = p + k * step := by
  induction fuel generalizing p with
  | zero => omega
  | succ fuel ih =>
    unfold forValues
    split
    · rename_i hp
      have hnext : (p + step) % 2 ^ w = p + step :=
        Nat.mod_eq_of_lt (by simpa using hwrap 0 (by simpa using hp))
      have hshift : ∀ k, p + step + k * step = p + (k + 1) * step := by
        intro k
        rw [Nat.succ_mul]
        omega
      rw [hnext]
      obtain ⟨l, hl, hmem⟩ := ih (p + step) (by omega) (by
        intro k hk
        rw [hshift] at hk ⊢
        exact hwrap (k + 1) hk)
      refine ⟨p :: l, by rw [hl, Option.map_some], fun x => ?_⟩
      rw [List.mem_cons, hmem]
      constructor
      · rintro (rfl | ⟨hx, k, rfl⟩)
        · exact ⟨hp, 0, by simp⟩
        · exact ⟨hx, k + 1, hshift k⟩
      · rintro ⟨hx, k, rfl⟩
        cases k with
        | zero => exact .inl (by simp)
        | succ k => exact .inr ⟨hx, k, (hshift k).symm⟩
    · rename_i hp
      refine ⟨[], rfl, fun x => ?_⟩
      constructor
      · intro h
        cases h
      · rintro ⟨hx, k, rfl⟩
        exact absurd (Nat.lt_of_le_of_lt (Nat.le_add_right p _) hx) hp

end NyaOS.Library.CountedLoop
