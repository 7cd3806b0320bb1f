import Mathlib.Data.List.Range
import Mathlib.Tactic.Common

/-! First-fit search over a grid in row-major order, where a whole row may be skipped. -/
namespace NyaOS.Library.FirstHit
variable {rows cols : Nat} {skip : Nat → Bool} {p : Nat → Nat → Bool}

/-- The first accepted cell; a skipped row is not looked into. -/
def firstHit (rows cols : Nat) (skip : Nat → Bool) (p : Nat → Nat → Bool) : Option (Nat × Nat) :=
  (List.range rows).findSome? fun i =>
    if skip i then none else ((List.range cols).find? (p i)).map (fun j => (i, j))

/-- Acceptance of a cell by its row-major position. -/
def Hit (cols : Nat) (skip : Nat → Bool) (p : Nat → Nat → Bool) (s : Nat) : Prop :=
  skip (s / cols) = false ∧ p (s / cols) (s % cols) = true

private theorem row_none {i : Nat}
    (h : (if skip i then none else ((List.range cols).find? (p i)).map (fun j => (i, j))) = none)
    (s : Nat) (hs : s / cols = i) (hc : 0 < cols) : ¬ Hit cols skip p s := by
  rintro ⟨hskip, hp⟩
  rw [hs] at hskip hp
  simp only [hskip, Bool.false_eq_true, if_false, Option.map_eq_none_iff, List.find?_eq_none,
    List.mem_range] at h
  exact h (s % cols) (Nat.mod_lt _ hc) hp

private theorem range_split {m a : Nat} {l₁ l₂ : List Nat} (h : List.range m = l₁ ++ a :: l₂) :
    l₁ = List.range a ∧ a < m := by
  have hlen : l₁.length < m := by
    have := congrArg List.length h
    simp at this
    omega
  have ha : a = l₁.length := by
    have := congrArg (fun l => l[l₁.length]?) h
    simpa [List.getElem?_range hlen] using this.symm
  refine ⟨?_, by omega⟩
  have := congrArg (List.take l₁.length) h
  rw [List.take_left', List.take_range, Nat.min_eq_left hlen.le, ← ha] at this
  · exact this.symm
  · rfl

/-- A found cell is inside the grid, is accepted, and no earlier position is. -/
theorem firstHit_some {i j : Nat} (h : firstHit rows cols skip p = some (i, j)) :
    i < rows ∧ j < cols ∧ Hit cols skip p (cols * i + j) ∧
      ∀ s < cols * i + j, ¬ Hit cols skip p s := by
  obtain ⟨l₁, a, l₂, hl, ha, hbefore⟩ := List.findSome?_eq_some_iff.mp h
  obtain ⟨rfl, hrow⟩ := range_split hl
  by_cases hskip : skip a = true
  · simp [hskip] at ha
  · simp only [hskip, Bool.false_eq_true, if_false, Option.map_eq_some_iff, Prod.mk.injEq] at ha
    obtain ⟨j', hj, rfl, rfl⟩ := ha
    obtain ⟨hp, hm, hfirst⟩ := List.find?_range_eq_some.mp hj
    have hcol : j' < cols := List.mem_range.mp hm
    have hc : 0 < cols := by omega
    have hd : (cols * a + j') / cols = a := by
      rw [Nat.mul_add_div hc, Nat.div_eq_of_lt hcol, Nat.add_zero]
    have hmod : (cols * a + j') % cols = j' := by
      rw [Nat.mul_add_mod, Nat.mod_eq_of_lt hcol]
    refine ⟨hrow, hcol, ⟨by simpa [hd] using hskip, by simpa [hd, hmod] using hp⟩, ?_⟩
    intro s hs
    rcases lt_or_ge (s / cols) a with hlt | hge
    · exact row_none (hbefore _ (List.mem_range.mpr hlt)) s rfl hc
    · have hda := Nat.div_add_mod s cols
      have hle : cols * a ≤ cols * (s / cols) := Nat.mul_le_mul_left _ hge
      have heq : s / cols = a := by
        have hu : s / cols < a + 1 := by
          rw [Nat.div_lt_iff_lt_mul hc, Nat.add_mul, Nat.one_mul, Nat.mul_comm a cols]
          omega
        omega
      rintro ⟨-, hps⟩
      rw [heq] at hps hda
      have := hfirst (s % cols) (by omega)
      simp [hps] at this

/-- No cell is found exactly when none in the grid is accepted. -/
theorem firstHit_none (hc : 0 < cols) (h : firstHit rows cols skip p = none) :
    ∀ s < cols * rows, ¬ Hit cols skip p s := by
  intro s hs
  have hrow : s / cols < rows := by
    rw [Nat.div_lt_iff_lt_mul hc, Nat.mul_comm]
    exact hs
  exact row_none (List.findSome?_eq_none_iff.mp h _ (List.mem_range.mpr hrow)) s rfl hc

end NyaOS.Library.FirstHit
