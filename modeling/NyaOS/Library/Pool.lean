import Mathlib.Data.Set.Pairwise.Basic
import Mathlib.Logic.Relation

/-! A pool as its clients see it: what it hands out keeps clear of everything still held. -/
namespace NyaOS.Library.Pool
variable {α σ : Type} {Apart : α → α → Prop}

/-- A block is handed out, a held one is given back, or neither. -/
inductive Step (Apart : α → α → Prop) : Set α → Set α → Prop
  | take {held : Set α} {b : α} (h : ∀ b' ∈ held, b ≠ b' ∧ Apart b b' ∧ Apart b' b) :
      Step Apart held (insert b held)
  | give {held : Set α} {b : α} (h : b ∈ held) : Step Apart held (held \ {b})
  | stay {held : Set α} : Step Apart held held

theorem Step.pairwise {held held' : Set α} (h : Step Apart held held') (hp : held.Pairwise Apart) :
    held'.Pairwise Apart := by
  cases h with
  | take hb => exact hp.insert fun b' hb' _ => (hb b' hb').2
  | give _ => exact hp.mono Set.sdiff_subset
  | stay => exact hp

/-- Held blocks are apart in every state of every run. -/
theorem run_pairwise {held : Set α} (h : Relation.ReflTransGen (Step Apart) ∅ held) :
    held.Pairwise Apart := by
  induction h with
  | refl => exact Set.pairwise_empty Apart
  | tail _ hstep ih => exact hstep.pairwise ih

/-- A system whose steps keep an invariant and are steps of the pool runs as the pool does. -/
theorem run_of_steps {R : σ → σ → Prop} {Inv : σ → Prop} (held : σ → Set α)
    (hstep : ∀ s s', Inv s → R s s' → Inv s' ∧ Step Apart (held s) (held s')) {s₀ s : σ}
    (hr : Relation.ReflTransGen R s₀ s) (hs : Inv s₀) :
    Inv s ∧ Relation.ReflTransGen (Step Apart) (held s₀) (held s) := by
  induction hr with
  | refl => exact ⟨hs, .refl⟩
  | tail _ hr ih =>
    obtain ⟨hinv, hrun⟩ := ih
    obtain ⟨hinv', hpool⟩ := hstep _ _ hinv hr
    exact ⟨hinv', .tail hrun hpool⟩

end NyaOS.Library.Pool
