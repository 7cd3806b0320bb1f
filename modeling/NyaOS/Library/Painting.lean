import Mathlib.Tactic.Common

/-! Loops that store one value into a memory and note what they touch. -/
namespace NyaOS.Library.Painting

/-- A memory, and the accesses made so far, latest first. -/
structure Canvas (α β : Type) where
  mem : Nat → α
  log : List β

/-- `for (i = 0; i < n; ++i)`. -/
def forLoop {σ : Type} (n : Nat) (body : Nat → σ → σ) (s : σ) : σ := (List.range n).foldl (fun s i => body i s) s

theorem forLoop_succ {σ : Type} (n : Nat) (body : Nat → σ → σ) (s : σ) :
    forLoop (n + 1) body s = body n (forLoop n body s) := by
  rw [forLoop, List.range_succ, List.foldl_append]
  rfl

section Paints
variable {α β : Type}

/-- From `t` to `t'`, exactly the places of `P` got the value, and exactly the accesses of `E` were
made. -/
structure Paints (v : α) (P : Nat → Prop) (E : β → Prop) (t t' : Canvas α β) : Prop where
  inside : ∀ a, P a → t'.mem a = v
  outside : ∀ a, ¬ P a → t'.mem a = t.mem a
  log : ∀ e, e ∈ t'.log ↔ e ∈ t.log ∨ E e

variable {v : α} {P Q : Nat → Prop} {E F : β → Prop} {t t' t'' : Canvas α β}

theorem paints_refl (v : α) (t : Canvas α β) : Paints v (fun _ => False) (fun _ => False) t t :=
  ⟨fun _ h => h.elim, fun _ _ => rfl, fun e => by rw [or_false]⟩

theorem Paints.trans (h : Paints v P E t t') (h' : Paints v Q F t' t'') :
    Paints v (fun a => P a ∨ Q a) (fun e => E e ∨ F e) t t'' where
  inside := by
    intro a ha
    by_cases hq : Q a
    · exact h'.inside a hq
    · rw [h'.outside a hq, h.inside a (ha.resolve_right hq)]
  outside := by
    intro a ha
    rw [not_or] at ha
    rw [h'.outside a ha.2, h.outside a ha.1]
  log := fun e => by rw [h'.log, h.log, or_assoc]

theorem Paints.congr (h : Paints v P E t t') (hP : ∀ a, Q a ↔ P a) (hE : ∀ e, F e ↔ E e) :
    Paints v Q F t t' :=
  ⟨fun a ha => h.inside a ((hP a).mp ha), fun a ha => h.outside a (mt (hP a).mpr ha),
    fun e => by rw [h.log, hE]⟩

/-- A loop paints what its turns paint. -/
theorem paints_forLoop {body : Nat → Canvas α β → Canvas α β} {R : Nat → Nat → Prop}
    {G : Nat → β → Prop} (n : Nat) (h : ∀ i < n, ∀ t, Paints v (R i) (G i) t (body i t))
    (t : Canvas α β) :
    Paints v (fun a => ∃ i < n, R i a) (fun e => ∃ i < n, G i e) t (forLoop n body t) := by
  induction n with
  | zero => exact (paints_refl v t).congr (by simp) (by simp)
  | succ n ih =>
    rw [forLoop_succ]
    refine ((ih fun i hi => h i (by omega)).trans (h n (by omega) _)).congr ?_ ?_
    · intro a
      rw [Nat.exists_lt_succ_right]
    · intro e
      rw [Nat.exists_lt_succ_right]

end Paints

end NyaOS.Library.Painting
