import Mathlib.Data.List.Induction

/-! A device that keeps what was written last: reading back after a run of writes. -/
namespace NyaOS.Library.LastWrite
variable {σ α β : Type}

/-- What the last of the writes that concern a cell leaves there. -/
def lastWrite (writes : α → Option β) (l : List α) : Option β := l.reverse.findSome? writes

@[simp] theorem lastWrite_nil (writes : α → Option β) : lastWrite writes [] = none := rfl

theorem lastWrite_append_singleton (writes : α → Option β) (l : List α) (a : α) :
    lastWrite writes (l ++ [a]) = (writes a).or (lastWrite writes l) := by
  rw [lastWrite, List.reverse_append, List.reverse_singleton, List.singleton_append, List.findSome?_cons]
  cases writes a <;> rfl

theorem lastWrite_append (writes : α → Option β) (l l' : List α) :
    lastWrite writes (l ++ l') = (lastWrite writes l').or (lastWrite writes l) := by
  rw [lastWrite, List.reverse_append, List.findSome?_append]
  rfl

/-- If each write leaves the cell as it is unless it writes it, then so does a run, and the last write to the cell
stands. -/
theorem foldl_lastWrite {step : σ → α → σ} (Inv : σ → Prop) (cell : σ → β) (writes : α → Option β) (l : List α)
    (hinv : ∀ s, ∀ a ∈ l, Inv s → Inv (step s a))
    (hcell : ∀ s, ∀ a ∈ l, Inv s → cell (step s a) = (writes a).getD (cell s)) {s : σ} (hs : Inv s) :
    Inv (l.foldl step s) ∧ cell (l.foldl step s) = (lastWrite writes l).getD (cell s) := by
  induction l using List.reverseRecOn with
  | nil => exact ⟨hs, rfl⟩
  | append_singleton l a ih =>
    obtain ⟨hrun, hlast⟩ := ih (fun s b hb => hinv s b (List.mem_append_left _ hb))
      fun s b hb => hcell s b (List.mem_append_left _ hb)
    have ha : a ∈ l ++ [a] := List.mem_append_right _ (List.mem_singleton_self a)
    rw [List.foldl_append, lastWrite_append_singleton]
    refine ⟨hinv _ a ha hrun, (hcell _ a ha hrun).trans ?_⟩
    rw [hlast]
    cases writes a <;> rfl

end NyaOS.Library.LastWrite
