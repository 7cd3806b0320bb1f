import Mathlib.Tactic.Common

/-! Programs that talk to an environment. Each question takes the next reply of a list, and what is
said is kept in a trace, latest first. A program that asks when the replies are used up is still
waiting: its trace is the beginning of a longer one. -/
namespace NyaOS.Library.Dialogue

structure Talk (R E : Type) where
  replies : List R
  trace : List E

/-- A program that returns an `α`, or `none` while it waits. -/
def Program (R E α : Type) := Talk R E → Option α × Talk R E

variable {R E α β : Type}

instance : Monad (Program R E) where
  pure a t := (some a, t)
  bind x f t := match x t with
    | (some a, t') => f a t'
    | (none, t') => (none, t')

/-- A question, noted with its reply. -/
def ask (event : R → E) : Program R E R := fun t => match t.replies with
  | [] => (none, t)
  | r :: replies => (some r, ⟨replies, event r :: t.trace⟩)

def say (event : E) : Program R E Unit := fun t => (some (), ⟨t.replies, event :: t.trace⟩)

def rounds (body : Program R E Bool) : Nat → Program R E Unit
  | 0 => fun t => (none, t)
  | n + 1 => do if ← body then rounds body n else pure ()

/-- `body` until it returns false. Each round takes a reply, so there are as many rounds as the
replies last for. -/
def repeatWhile (body : Program R E Bool) : Program R E Unit :=
  fun t => rounds body (t.replies.length + 1) t

/-- When `x` returns it has taken at least `k` replies. -/
def Takes (k : Nat) (x : Program R E α) : Prop :=
  ∀ t t' a, x t = (some a, t') → t'.replies.length + k ≤ t.replies.length

/-- From a trace with `P`, `x` returns with `Q`, or is still waiting with `I`. -/
def Triple (I P : List E → Prop) (x : Program R E α) (Q : α → List E → Prop) : Prop :=
  ∀ t, P t.trace → match x t with
    | (some a, t') => Q a t'.trace
    | (none, t') => I t'.trace

section Replies
variable {k l : Nat} {x : Program R E α} {f : α → Program R E β}

theorem bind_of_some {t u : Talk R E} {a : α} (h : x t = (some a, u)) : (x >>= f) t = f a u := by
  show (match x t with | (some a, t') => f a t' | (none, t') => (none, t')) = f a u
  rw [h]

theorem bind_of_none {t u : Talk R E} (h : x t = (none, u)) : (x >>= f) t = (none, u) := by
  show (match x t with | (some a, t') => f a t' | (none, t') => (none, t')) = (none, u)
  rw [h]

instance : LawfulMonad (Program R E) := by
  refine LawfulMonad.mk' _ (fun x => ?_) (fun _ _ => rfl) fun x f g => ?_
  · funext t
    rcases hx : x t with ⟨r, u⟩
    cases r with
    | none => exact bind_of_none hx
    | some a => exact bind_of_some hx
  · funext t
    rcases hx : x t with ⟨r, u⟩
    cases r with
    | none => rw [bind_of_none hx, bind_of_none (bind_of_none hx)]
    | some a =>
      rw [bind_of_some hx]
      show (match (x >>= f) t with | (some b, t') => g b t' | (none, t') => (none, t')) = (f a >>= g) u
      rw [bind_of_some hx]
      rfl

theorem bind_some {t t' : Talk R E} {b : β} (h : (x >>= f) t = (some b, t')) :
    ∃ a u, x t = (some a, u) ∧ f a u = (some b, t') := by
  rcases hx : x t with ⟨r, u⟩
  cases r with
  | none =>
    rw [bind_of_none hx] at h
    cases h
  | some a =>
    rw [bind_of_some hx] at h
    exact ⟨a, u, rfl, h⟩

theorem takes_pure (a : α) : Takes 0 (pure a : Program R E α) := by
  rintro t t' a' h
  cases h
  exact Nat.le_refl _

theorem takes_say (e : E) : Takes 0 (say e : Program R E Unit) := by
  rintro t t' a h
  cases h
  exact Nat.le_refl _

theorem takes_ask (event : R → E) : Takes 1 (ask event) := by
  rintro ⟨replies, trace⟩ t' a h
  cases replies with
  | nil => cases h
  | cons r replies =>
    cases h
    exact Nat.le_refl _

theorem Takes.bind (hx : Takes k x) (hf : ∀ a, Takes l (f a)) : Takes (k + l) (x >>= f) := by
  intro t t' b h
  obtain ⟨a, u, ha, hb⟩ := bind_some h
  have h₁ := hx _ _ _ ha
  have h₂ := hf a _ _ _ hb
  omega

theorem Takes.mono (hx : Takes k x) (hle : l ≤ k) : Takes l x :=
  fun _ _ _ h => Nat.le_trans (Nat.add_le_add_left hle _) (hx _ _ _ h)

end Replies

section Loop
variable {body : Program R E Bool}

/-- Enough rounds are all alike. -/
theorem rounds_eq (hbody : Takes 1 body) {n m : Nat} {t : Talk R E} (hn : t.replies.length < n)
    (hm : t.replies.length < m) : rounds body n t = rounds body m t := by
  induction n generalizing m t with
  | zero => omega
  | succ n ih =>
    obtain ⟨m, rfl⟩ : ∃ k, m = k + 1 := ⟨m - 1, by omega⟩
    rw [rounds, rounds]
    rcases hb : body t with ⟨r, u⟩
    cases r with
    | none => rw [bind_of_none hb, bind_of_none hb]
    | some again =>
      have htaken := hbody _ _ _ hb
      rw [bind_of_some hb, bind_of_some hb]
      cases again with
      | false => rfl
      | true => exact ih (by omega) (by omega)

/-- A loop is one round, and the loop again. -/
theorem repeatWhile_eq (hbody : Takes 1 body) :
    repeatWhile body = body >>= fun again => if again then repeatWhile body else pure () := by
  funext t
  rw [repeatWhile, rounds]
  rcases hb : body t with ⟨r, u⟩
  cases r with
  | none => rw [bind_of_none hb, bind_of_none hb]
  | some again =>
    have htaken := hbody _ _ _ hb
    rw [bind_of_some hb, bind_of_some hb]
    cases again with
    | false => rfl
    | true => exact rounds_eq hbody (by omega) (by omega)

theorem Takes.repeatWhile (hbody : Takes 1 body) : Takes 1 (repeatWhile body) := by
  intro t t' a h
  induction hn : t.replies.length using Nat.strongRecOn generalizing t with
  | ind n ih =>
    rw [repeatWhile_eq hbody] at h
    obtain ⟨again, u, hb, hrest⟩ := bind_some h
    have htaken := hbody _ _ _ hb
    cases again with
    | false =>
      cases hrest
      omega
    | true =>
      have := ih _ (by omega) u hrest rfl
      omega

end Loop

section Rules
variable {I P : List E → Prop} {Q : α → List E → Prop} {S : β → List E → Prop}
  {x : Program R E α} {f : α → Program R E β}

theorem Triple.pure (a : α) (h : ∀ {tr}, P tr → Q a tr) :
    Triple I P (Pure.pure a : Program R E α) Q :=
  fun _ hP => h hP

theorem Triple.bind (hx : Triple I P x Q) (hf : ∀ a, Triple I (Q a) (f a) S) :
    Triple I P (x >>= f) S := by
  intro t hP
  have hx' := hx t hP
  rcases hxt : x t with ⟨r, u⟩
  rw [hxt] at hx'
  cases r with
  | none =>
    rw [bind_of_none hxt]
    exact hx'
  | some a =>
    rw [bind_of_some hxt]
    exact hf a u hx'

theorem Triple.weaken {P' : List E → Prop} {Q' : α → List E → Prop} (hx : Triple I P' x Q')
    (hP : ∀ {tr}, P tr → P' tr) (hQ : ∀ {a tr}, Q' a tr → Q a tr) : Triple I P x Q := by
  intro t ht
  have hx' := hx t (hP ht)
  rcases hxt : x t with ⟨r, u⟩
  rw [hxt] at hx'
  cases r with
  | none => exact hx'
  | some a => exact hQ hx'

theorem Triple.waits {I' : List E → Prop} (hx : Triple I P x Q) (hI : ∀ {tr}, I tr → I' tr) : Triple I' P x Q := by
  intro t ht
  have hx' := hx t ht
  rcases hxt : x t with ⟨r, u⟩
  rw [hxt] at hx'
  cases r with
  | none => exact hI hx'
  | some a => exact hx'

/-- What holds while waiting and on return holds of the trace in any case. -/
theorem Triple.trace (hx : Triple I P x Q) (hQ : ∀ {a tr}, Q a tr → I tr) {t : Talk R E}
    (hP : P t.trace) : I (x t).2.trace := by
  have hx' := hx t hP
  rcases hxt : x t with ⟨r, u⟩
  rw [hxt] at hx'
  cases r with
  | none => exact hx'
  | some a => exact hQ hx'

theorem triple_ask {event : R → E} {Q : R → List E → Prop} (hI : ∀ {tr}, P tr → I tr)
    (hQ : ∀ {tr} r, P tr → Q r (event r :: tr)) : Triple I P (ask event) Q := by
  rintro ⟨replies, trace⟩ hP
  cases replies with
  | nil => exact hI hP
  | cons r replies => exact hQ r hP

theorem triple_say {e : E} {Q : Unit → List E → Prop} (hQ : ∀ {tr}, P tr → Q () (e :: tr)) :
    Triple I P (say e : Program R E Unit) Q :=
  fun _ hP => hQ hP

theorem Triple.ite {c : Prop} [Decidable c] {y : Program R E α} (hx : c → Triple I P x Q)
    (hy : ¬ c → Triple I P y Q) : Triple I P (if c then x else y) Q := by
  by_cases hc : c
  · rw [if_pos hc]
    exact hx hc
  · rw [if_neg hc]
    exact hy hc

/-- The loop rule: `P` is what each round starts with. -/
theorem Triple.repeatWhile {body : Program R E Bool} {Q : Unit → List E → Prop} (htakes : Takes 1 body)
    (hbody : Triple I P body fun again tr => (again = true → P tr) ∧ (again = false → Q () tr)) :
    Triple I P (repeatWhile body) Q := by
  intro t hP
  induction hn : t.replies.length using Nat.strongRecOn generalizing t with
  | ind n ih =>
    rw [repeatWhile_eq htakes]
    have hround := hbody t hP
    rcases hb : body t with ⟨r, u⟩
    rw [hb] at hround
    cases r with
    | none =>
      rw [bind_of_none hb]
      exact hround
    | some again =>
      have htaken := htakes _ _ _ hb
      rw [bind_of_some hb]
      cases again with
      | false => exact hround.2 rfl
      | true => exact ih _ (by omega) u (hround.1 rfl) rfl

end Rules

end NyaOS.Library.Dialogue
