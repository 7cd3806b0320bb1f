import Mathlib.Tactic.Common

/-! Runs of a deterministic system whose steps may fail to return, and an abstract system that
follows a run for as long as its guards hold. -/
namespace NyaOS.Library.Runs

section Always
variable {S Op : Type} (step : S → Op → Option S)

/-- Every step of the run returns; `P` holds in every state and `Q` across every step. -/
def Always (P : S → Prop) (Q : S → Op → S → Prop) : S → List Op → Prop
  | s, [] => P s
  | s, op :: ops => P s ∧ ∃ s', step s op = some s' ∧ Q s op s' ∧ Always P Q s' ops

/-- Each operation is one that its caller may ask for in the state it meets. -/
def Allowed (may : S → Op → Prop) : S → List Op → Prop
  | _, [] => True
  | s, op :: ops => may s op ∧ ∀ s', step s op = some s' → Allowed may s' ops

theorem allowed_of_forall {may : S → Op → Prop} (h : ∀ s op, may s op) (s : S) (ops : List Op) :
    Allowed step may s ops := by
  induction ops generalizing s with
  | nil => trivial
  | cons op ops ih => exact ⟨h s op, fun s' _ => ih s'⟩

theorem Always.head {step : S → Op → Option S} {P : S → Prop} {Q : S → Op → S → Prop} {s : S}
    {ops : List Op} (h : Always step P Q s ops) : P s := by
  cases ops with
  | nil => exact h
  | cons op ops => exact h.1

end Always

/-- The guard holds at each operation of a run of the abstract system. -/
def Guarded {A Op : Type} (next : A → Op → A) (guard : A → Op → Prop) : A → List Op → Prop
  | _, [] => True
  | a, op :: ops => guard a op ∧ Guarded next guard (next a op) ops

section Simulation
variable {S A Op : Type} {step : S → Op → Option S} {P : S → Prop} {Q : S → Op → S → Prop}
  {may : S → Op → Prop} {next : A → Op → A} {guard : A → Op → Prop} {R : A → S → Prop}

/-- Where the abstract system follows every guarded step and an unguarded one spoils the state, a
run is good exactly when it is guarded. -/
theorem always_iff_guarded (hP : ∀ {a s}, R a s → P s)
    (hkeep : ∀ {a s op}, R a s → may s op → guard a op →
      ∃ s', step s op = some s' ∧ Q s op s' ∧ R (next a op) s')
    (hspoil : ∀ {a s op s'}, R a s → may s op → ¬ guard a op → step s op = some s' → Q s op s' →
      ¬ P s')
    {a : A} {s : S} {ops : List Op} (h : R a s) (hmay : Allowed step may s ops) :
    Always step P Q s ops ↔ Guarded next guard a ops := by
  induction ops generalizing a s with
  | nil => exact ⟨fun _ => trivial, fun _ => hP h⟩
  | cons op ops ih =>
    obtain ⟨hop, hrest⟩ := hmay
    constructor
    · rintro ⟨-, s', hs', hq, hruns⟩
      have hg : guard a op := by
        by_contra hg
        exact hspoil h hop hg hs' hq hruns.head
      obtain ⟨s'', hs'', -, hr⟩ := hkeep h hop hg
      obtain rfl : s'' = s' := Option.some.inj (hs''.symm.trans hs')
      exact ⟨hg, (ih hr (hrest _ hs'')).mp hruns⟩
    · rintro ⟨hg, hguards⟩
      obtain ⟨s', hs', hq, hr⟩ := hkeep h hop hg
      exact ⟨hP h, s', hs', hq, (ih hr (hrest _ hs')).mpr hguards⟩

end Simulation

end NyaOS.Library.Runs
