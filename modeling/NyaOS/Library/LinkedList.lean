import Mathlib.Data.List.Chain

/-! Doubly linked lists, given by the functions that read a node's two links. -/
namespace NyaOS.Library.LinkedList
variable {α : Type} {next prev next' prev' : α → α} {l l₁ l₂ : List α} {a b s : α}

/-- Neighbours of the list are linked both ways. -/
def Linked (next prev : α → α) (l : List α) : Prop :=
  l.IsChain fun a b => next a = b ∧ prev b = a

theorem linked_append_iff : Linked next prev (l₁ ++ a :: b :: l₂) ↔
    Linked next prev (l₁ ++ [a]) ∧ (next a = b ∧ prev b = a) ∧ Linked next prev (b :: l₂) :=
  List.isChain_append_cons_cons

/-- A list whose links did not change stays linked. -/
theorem Linked.congr (h : Linked next prev l) (hnext : ∀ x ∈ l, next' x = next x)
    (hprev : ∀ x ∈ l, prev' x = prev x) : Linked next' prev' l := by
  apply List.IsChain.imp_of_mem_imp _ h
  intro x y hx hy hxy
  rw [hnext x hx, hprev y hy]
  exact hxy

/-- What follows `b` reads no `prev` of `b`. -/
theorem Linked.congr_right (h : Linked next prev (b :: l₂))
    (hnext : ∀ x ∈ b :: l₂, next' x = next x) (hprev : ∀ x ∈ l₂, prev' x = prev x) :
    Linked next' prev' (b :: l₂) := by
  apply List.IsChain.imp_of_mem_tail_imp _ h
  intro x y hx hy hxy
  rw [hnext x hx, hprev y hy]
  exact hxy

/-- What precedes `a` reads no `next` of `a`. -/
theorem Linked.congr_left (h : Linked next prev (l₁ ++ [a])) (hnext : ∀ x ∈ l₁, next' x = next x)
    (hprev : ∀ x ∈ l₁ ++ [a], prev' x = prev x) : Linked next' prev' (l₁ ++ [a]) := by
  induction l₁ with
  | nil => exact List.isChain_singleton a
  | cons x l₁ ih =>
    obtain ⟨hhead, htail⟩ := List.isChain_cons.mp h
    refine List.isChain_cons.mpr ⟨?_, ?_⟩
    · intro y hy
      rw [hnext x (by simp), hprev y (List.mem_cons_of_mem x (List.mem_of_mem_head? hy))]
      exact hhead y hy
    · exact ih htail (fun z hz => hnext z (by simp [hz])) fun z hz =>
        hprev z (List.mem_cons_of_mem x hz)

/-- The list from `a` to the end `t` is determined by the links. -/
theorem Linked.unique (h : Linked next prev (a :: (l ++ [b]))) (h' : Linked next' prev' (a :: (l₁ ++ [b])))
    (hsame : next' = next) (hb : b ∉ l) (hb' : b ∉ l₁) : l = l₁ := by
  induction l generalizing a l₁ with
  | nil =>
    have hnext := (List.isChain_cons_cons.mp h).1.1
    cases l₁ with
    | nil => rfl
    | cons x l₁ =>
      have hnext' := (List.isChain_cons_cons.mp h').1.1
      rw [hsame, hnext] at hnext'
      exact absurd (hnext' ▸ List.mem_cons_self) hb'
  | cons x l ih =>
    have hnext := (List.isChain_cons_cons.mp h).1.1
    cases l₁ with
    | nil =>
      have hnext' := (List.isChain_cons_cons.mp h').1.1
      rw [hsame, hnext] at hnext'
      exact absurd (hnext' ▸ List.mem_cons_self) hb
    | cons y l₁ =>
      have hnext' := (List.isChain_cons_cons.mp h').1.1
      rw [hsame, hnext] at hnext'
      subst hnext'
      rw [ih (List.isChain_cons_cons.mp h).2 (List.isChain_cons_cons.mp h').2
        (fun hm => hb (List.mem_cons_of_mem _ hm)) fun hm => hb' (List.mem_cons_of_mem _ hm)]

section Edit
variable (hnext : ∀ x ∈ l₁ ++ b :: l₂, next' x = next x)
  (hprev : ∀ x ∈ l₁ ++ a :: l₂, prev' x = prev x)
include hnext hprev

private theorem linked_sides (hleft : Linked next prev (l₁ ++ [a]))
    (hright : Linked next prev (b :: l₂)) :
    Linked next' prev' (l₁ ++ [a]) ∧ Linked next' prev' (b :: l₂) := by
  constructor
  · apply hleft.congr_left
    · exact fun x hx => hnext x (by simp [hx])
    · intro x hx
      rcases List.mem_append.mp hx with hx | hx
      · exact hprev x (by simp [hx])
      · exact hprev x (by simp [List.mem_singleton.mp hx])
  · apply hright.congr_right
    · exact fun x hx => hnext x (List.mem_append_right l₁ hx)
    · exact fun x hx => hprev x (by simp [hx])

/-- Inserting `s` between two neighbours. -/
theorem Linked.insert (h : Linked next prev (l₁ ++ a :: b :: l₂)) (has : next' a = s)
    (hsa : prev' s = a) (hsb : next' s = b) (hbs : prev' b = s) :
    Linked next' prev' (l₁ ++ a :: s :: b :: l₂) := by
  obtain ⟨hleft, _, hright⟩ := linked_append_iff.mp h
  obtain ⟨hleft', hright'⟩ := linked_sides hnext hprev hleft hright
  exact linked_append_iff.mpr
    ⟨hleft', ⟨has, hsa⟩, List.isChain_cons_cons.mpr ⟨⟨hsb, hbs⟩, hright'⟩⟩

/-- Removing `s` from between its neighbours. -/
theorem Linked.remove (h : Linked next prev (l₁ ++ a :: s :: b :: l₂)) (hab : next' a = b)
    (hba : prev' b = a) : Linked next' prev' (l₁ ++ a :: b :: l₂) := by
  obtain ⟨hleft, _, hright⟩ := linked_append_iff.mp h
  obtain ⟨_, hright⟩ := List.isChain_cons_cons.mp hright
  obtain ⟨hleft', hright'⟩ := linked_sides hnext hprev hleft hright
  exact linked_append_iff.mpr ⟨hleft', ⟨hab, hba⟩, hright'⟩

end Edit

end NyaOS.Library.LinkedList
