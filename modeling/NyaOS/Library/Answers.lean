import Mathlib.Computability.Language
import NyaOS.Library.Dialogue

/-! Which replies a program takes, as a language, and when something comes about in its run. -/
namespace NyaOS.Library.Dialogue
open scoped Computability

variable {R E α β : Type}

/-- `x` returns `a` and leaves the replies `rest`. -/
def Returns (x : Program R E α) (t : Talk R E) (a : α) (rest : List R) : Prop :=
  ∃ trace, x t = (some a, ⟨rest, trace⟩)

/-- `x` returns `a` after exactly the replies that are words of `L a`. -/
def Answers (x : Program R E α) (L : α → Language R) : Prop :=
  ∀ t a rest, Returns x t a rest ↔ ∃ l ∈ L a, t.replies = l ++ rest

/-- The words of `L a` for all `a` with `c a`. -/
def words (c : α → Prop) (L : α → Language R) : Language R := {l | ∃ a, c a ∧ l ∈ L a}

/-- The empty word, if `p` holds. -/
def emptyIf (p : Prop) : Language R := {l | p ∧ l = []}

/-- All that `x` notes is in `C`. -/
def Notes (C : E → Prop) (x : Program R E α) : Prop :=
  ∀ t, ∃ events, (x t).2.trace = events ++ t.trace ∧ ∀ e ∈ events, C e

/-- From a trace with `P`, `H` comes about in a run of `x` exactly if the replies begin with a word
of `M`. -/
def Comes (H P : List E → Prop) (x : Program R E α) (M : Language R) : Prop :=
  ∀ t, P t.trace → (H (x t).2.trace ↔ ∃ l ∈ M, l <+: t.replies)

section Words
variable {c c' : α → Prop} {L : α → Language R}

theorem words_congr (h : ∀ a, c a ↔ c' a) : words c L = words c' L := by
  ext l
  exact exists_congr fun a => and_congr_left fun _ => h a

theorem words_none (h : ∀ a, ¬ c a) : words c L = 0 := by
  ext l
  exact iff_of_false (fun ⟨a, ha, _⟩ => h a ha) id

theorem emptyIf_true {p : Prop} (h : p) : (emptyIf p : Language R) = 1 := by
  ext l
  exact and_iff_right h

theorem emptyIf_false {p : Prop} (h : ¬ p) : (emptyIf p : Language R) = 0 := by
  ext l
  exact iff_of_false (fun hl => h hl.1) id

theorem words_unit (K : Language R) : words (fun _ : Unit => True) (fun _ => K) = K := by
  ext l
  exact ⟨fun ⟨_, _, hl⟩ => hl, fun hl => ⟨(), trivial, hl⟩⟩

theorem words_mul (K : Language R) : words c (fun a => K * L a) = K * words c L := by
  ext l
  constructor
  · rintro ⟨a, ha, hmul⟩
    obtain ⟨l, hl, l', hl', rfl⟩ := Language.mem_mul.mp hmul
    exact Language.append_mem_mul hl ⟨a, ha, hl'⟩
  · intro hmul
    obtain ⟨l, hl, l', ⟨a, ha, hl'⟩, rfl⟩ := Language.mem_mul.mp hmul
    exact ⟨a, ha, Language.append_mem_mul hl hl'⟩

end Words

section Answers
variable {x : Program R E α} {f : α → Program R E β} {L : α → Language R}

theorem returns_bind {t : Talk R E} {b : β} {rest : List R} :
    Returns (x >>= f) t b rest ↔ ∃ a u, x t = (some a, u) ∧ Returns (f a) u b rest := by
  constructor
  · rintro ⟨trace, h⟩
    obtain ⟨a, u, hx, hf⟩ := bind_some h
    exact ⟨a, u, hx, trace, hf⟩
  · rintro ⟨a, u, hx, trace, hf⟩
    exact ⟨trace, (bind_of_some hx).trans hf⟩

theorem answers_pure (a : α) : Answers (pure a : Program R E α) fun b => emptyIf (b = a) := by
  rintro ⟨replies, trace⟩ b rest
  constructor
  · rintro ⟨trace', h⟩
    cases h
    exact ⟨[], ⟨rfl, rfl⟩, rfl⟩
  · rintro ⟨l, ⟨rfl, rfl⟩, h⟩
    cases h
    exact ⟨trace, rfl⟩

theorem answers_ask (event : R → E) : Answers (ask event) fun r => {[r]} := by
  rintro ⟨replies, trace⟩ r rest
  constructor
  · rintro ⟨trace', h⟩
    cases replies with
    | nil => cases h
    | cons r' replies =>
      cases h
      exact ⟨[r], rfl, rfl⟩
  · rintro ⟨l, rfl, h⟩
    cases h
    exact ⟨_, rfl⟩

theorem answers_say (e : E) : Answers (say e : Program R E Unit) fun _ => 1 := by
  rintro ⟨replies, trace⟩ u rest
  constructor
  · rintro ⟨trace', h⟩
    cases h
    exact ⟨[], rfl, rfl⟩
  · rintro ⟨l, hl, h⟩
    rw [Language.mem_one] at hl
    subst hl
    cases h
    exact ⟨_, rfl⟩

theorem Answers.congr {L' : α → Language R} (hx : Answers x L) (h : ∀ a, L a = L' a) : Answers x L' :=
  (funext h : L = L') ▸ hx

theorem Answers.bind {M : α → β → Language R} (hx : Answers x L) (hf : ∀ a, Answers (f a) (M a)) :
    Answers (x >>= f) fun b => words (fun _ => True) fun a => L a * M a b := by
  intro t b rest
  rw [returns_bind]
  constructor
  · rintro ⟨a, u, ha, hb⟩
    obtain ⟨l, hl, ht⟩ := (hx t a u.replies).mp ⟨u.trace, ha⟩
    obtain ⟨l', hl', hu⟩ := (hf a u b rest).mp hb
    refine ⟨l ++ l', ⟨a, trivial, Language.append_mem_mul hl hl'⟩, ?_⟩
    rw [ht, hu, List.append_assoc]
  · rintro ⟨_, ⟨a, -, hmul⟩, ht⟩
    obtain ⟨l, hl, l', hl', rfl⟩ := Language.mem_mul.mp hmul
    rw [List.append_assoc] at ht
    obtain ⟨trace, ha⟩ := (hx t a (l' ++ rest)).mpr ⟨l, hl, ht⟩
    exact ⟨a, _, ha, (hf a _ b rest).mpr ⟨l', hl', rfl⟩⟩

/-- The replies of two programs in a row, when the first returns nothing. -/
theorem Answers.then {x : Program R E Unit} {f : Unit → Program R E β} {K : Language R}
    {M : β → Language R} (hx : Answers x fun _ => K) (hf : ∀ u, Answers (f u) M) :
    Answers (x >>= f) fun b => K * M b :=
  (hx.bind hf).congr fun b => words_unit (K * M b)

theorem Answers.map (hx : Answers x L) (g : α → β) :
    Answers (x >>= fun a => pure (g a)) fun b => words (fun a => g a = b) L := by
  refine (hx.bind fun a => answers_pure (g a)).congr fun b => ?_
  ext l
  constructor
  · rintro ⟨a, -, hmul⟩
    obtain ⟨l, hl, l', ⟨hb, rfl⟩, rfl⟩ := Language.mem_mul.mp hmul
    rw [List.append_nil]
    exact ⟨a, hb.symm, hl⟩
  · rintro ⟨a, ha, hl⟩
    exact ⟨a, trivial, Language.mem_mul.mpr ⟨l, hl, [], ⟨ha.symm, rfl⟩, List.append_nil l⟩⟩

/-- A choice by the value that the first program returns. -/
theorem Answers.bind_ite {c : α → Prop} [DecidablePred c] {g : α → Program R E β}
    {M N : β → Language R} (hx : Answers x L) (hf : ∀ a, Answers (f a) M) (hg : ∀ a, Answers (g a) N) :
    Answers (x >>= fun a => if c a then f a else g a) fun b =>
      words c L * M b + words (fun a => ¬ c a) L * N b := by
  have hchoice : ∀ a, Answers (if c a then f a else g a) (if c a then M else N) := by
    intro a
    split
    · exact hf a
    · exact hg a
  refine (hx.bind hchoice).congr fun b => ?_
  ext l
  rw [Language.mem_add, Language.mem_mul, Language.mem_mul]
  constructor
  · rintro ⟨a, -, hmul⟩
    obtain ⟨l, hl, l', hl', rfl⟩ := Language.mem_mul.mp hmul
    by_cases hc : c a
    · rw [if_pos hc] at hl'
      exact .inl ⟨l, ⟨a, hc, hl⟩, l', hl', rfl⟩
    · rw [if_neg hc] at hl'
      exact .inr ⟨l, ⟨a, hc, hl⟩, l', hl', rfl⟩
  · rintro (⟨l, ⟨a, hc, hl⟩, l', hl', rfl⟩ | ⟨l, ⟨a, hc, hl⟩, l', hl', rfl⟩)
    · exact ⟨a, trivial, Language.append_mem_mul hl (by rwa [if_pos hc])⟩
    · exact ⟨a, trivial, Language.append_mem_mul hl (by rwa [if_neg hc])⟩

theorem mem_kstar_mul {A B : Language R} {l : List R} :
    l ∈ A∗ * B ↔ l ∈ B ∨ l ∈ A * (A∗ * B) := by
  rw [← Language.mem_add, ← mul_assoc, ← one_add_mul, Language.one_add_self_mul_kstar_eq_kstar]

/-- A loop takes the replies of some rounds that go on and of one that does not. -/
theorem Answers.repeatWhile {body : Program R E Bool} {L : Bool → Language R}
    (htakes : Takes 1 body) (hbody : Answers body L) :
    Answers (repeatWhile body) fun _ => (L true)∗ * L false := by
  intro t u rest
  induction hn : t.replies.length using Nat.strongRecOn generalizing t with
  | ind n ih =>
    rw [repeatWhile_eq htakes, returns_bind]
    constructor
    · rintro ⟨again, v, hv, hrest⟩
      have htaken := htakes _ _ _ hv
      obtain ⟨l, hl, ht⟩ := (hbody t again v.replies).mp ⟨v.trace, hv⟩
      cases again with
      | false =>
        obtain ⟨trace, hpure⟩ := hrest
        cases hpure
        exact ⟨l, mem_kstar_mul.mpr (.inl hl), ht⟩
      | true =>
        obtain ⟨l', hl', hv'⟩ := (ih _ (by omega) v rfl).mp hrest
        refine ⟨l ++ l', mem_kstar_mul.mpr (.inr (Language.append_mem_mul hl hl')), ?_⟩
        rw [ht, hv', List.append_assoc]
    · rintro ⟨_, hmem, ht⟩
      rcases mem_kstar_mul.mp hmem with hl | hmul
      · obtain ⟨trace, hv⟩ := (hbody t false rest).mpr ⟨_, hl, ht⟩
        exact ⟨false, _, hv, trace, rfl⟩
      · obtain ⟨l, hl, l', hl', rfl⟩ := Language.mem_mul.mp hmul
        rw [List.append_assoc] at ht
        obtain ⟨trace, hv⟩ := (hbody t true (l' ++ rest)).mpr ⟨l, hl, ht⟩
        have htaken := htakes _ _ _ hv
        exact ⟨true, _, hv, (ih _ (by omega) _ rfl).mpr ⟨l', hl', rfl⟩⟩

end Answers

section Notes
variable {C : E → Prop} {x : Program R E α} {f : α → Program R E β}

theorem notes_pure (a : α) : Notes C (pure a : Program R E α) :=
  fun _ => ⟨[], rfl, List.forall_mem_nil _⟩

theorem notes_say {e : E} (he : C e) : Notes C (say e : Program R E Unit) :=
  fun _ => ⟨[e], rfl, List.forall_mem_singleton.mpr he⟩

theorem notes_ask {event : R → E} (h : ∀ r, C (event r)) : Notes C (ask event) := by
  rintro ⟨replies, trace⟩
  cases replies with
  | nil => exact ⟨[], rfl, List.forall_mem_nil _⟩
  | cons r replies => exact ⟨[event r], rfl, List.forall_mem_singleton.mpr (h r)⟩

theorem Notes.bind (hx : Notes C x) (hf : ∀ a, Notes C (f a)) : Notes C (x >>= f) := by
  intro t
  obtain ⟨events, htrace, hevents⟩ := hx t
  rcases hxt : x t with ⟨r, u⟩
  rw [hxt] at htrace
  cases r with
  | none =>
    rw [bind_of_none hxt]
    exact ⟨events, htrace, hevents⟩
  | some a =>
    rw [bind_of_some hxt]
    obtain ⟨events', htrace', hevents'⟩ := hf a u
    refine ⟨events' ++ events, ?_, List.forall_mem_append.mpr ⟨hevents', hevents⟩⟩
    rw [htrace', htrace, List.append_assoc]

theorem Notes.ite {c : Prop} [Decidable c] {y : Program R E α} (hx : Notes C x) (hy : Notes C y) :
    Notes C (if c then x else y) := by
  split
  · exact hx
  · exact hy

theorem Notes.repeatWhile {body : Program R E Bool} (h : Notes C body) : Notes C (repeatWhile body) := by
  have hrounds : ∀ n, Notes C (rounds body n) := by
    intro n
    induction n with
    | zero => exact fun _ => ⟨[], rfl, List.forall_mem_nil _⟩
    | succ n ih => exact h.bind fun again => Notes.ite ih (notes_pure ())
  exact fun t => hrounds _ t

/-- What every event of a class keeps is kept by a program that notes no others. -/
theorem Notes.keeps {I P : List E → Prop} (h : Notes C x) (hP : ∀ e tr, C e → P tr → P (e :: tr))
    (hI : ∀ tr, P tr → I tr) : Triple I P x fun _ => P := by
  intro t ht
  obtain ⟨events, htrace, hevents⟩ := h t
  have hkept : P (x t).2.trace := by
    rw [htrace]
    clear htrace
    induction events with
    | nil => exact ht
    | cons e events ih =>
      obtain ⟨he, hevents⟩ := List.forall_mem_cons.mp hevents
      exact hP e _ he (ih hevents)
  rcases hxt : x t with ⟨r, u⟩
  rw [hxt] at hkept
  cases r with
  | none => exact hI _ hkept
  | some a => exact hkept

end Notes

section Comes
variable {H P : List E → Prop} {Q : α → List E → Prop} {x : Program R E α} {f : α → Program R E β}
  {L : α → Language R} {M : Language R}

/-- `H` is out of reach. -/
theorem comes_never (h : Triple (fun tr => ¬ H tr) P x fun _ tr => ¬ H tr) : Comes H P x 0 :=
  fun _ hP => iff_of_false (h.trace id hP) fun ⟨_, hl, _⟩ => hl

/-- `H` holds whatever is replied. -/
theorem comes_anyway (h : Triple H P x fun _ => H) : Comes H P x 1 :=
  fun _ hP => iff_of_true (h.trace id hP) ⟨[], rfl, List.nil_prefix⟩

/-- The beginning of the replies that lets `x` return a value with `c`. -/
theorem Answers.of_prefix {c : α → Prop} {t : Talk R E} (hL : Answers x L) :
    (∃ l ∈ words c L * M, l <+: t.replies) ↔
      ∃ a u, x t = (some a, u) ∧ c a ∧ ∃ l ∈ M, l <+: u.replies := by
  constructor
  · rintro ⟨_, hmul, rest, hrest⟩
    obtain ⟨l, ⟨a, hc, hl⟩, l', hl', rfl⟩ := Language.mem_mul.mp hmul
    rw [List.append_assoc] at hrest
    obtain ⟨trace, ha⟩ := (hL t a (l' ++ rest)).mpr ⟨l, hl, hrest.symm⟩
    exact ⟨a, _, ha, hc, l', hl', rest, rfl⟩
  · rintro ⟨a, u, ha, hc, l', hl', rest, hrest⟩
    obtain ⟨l, hl, ht⟩ := (hL t a u.replies).mp ⟨u.trace, ha⟩
    exact ⟨l ++ l', Language.append_mem_mul ⟨a, hc, hl⟩ hl', rest, by rw [ht, ← hrest, List.append_assoc]⟩

/-- `H` does not come about in `x`, and in the rest only if `x` returns a value with `c`. -/
theorem Comes.bind (c : α → Prop) (hx : Triple (fun tr => ¬ H tr) P x Q) (hL : Answers x L)
    (hf : ∀ a, c a → Comes H (Q a) (f a) M) (hno : ∀ a, ¬ c a → Comes H (Q a) (f a) 0) :
    Comes H P (x >>= f) (words c L * M) := by
  intro t hP
  rw [hL.of_prefix]
  have hx' := hx t hP
  rcases hxt : x t with ⟨r, u⟩
  rw [hxt] at hx'
  cases r with
  | none =>
    rw [bind_of_none hxt]
    refine iff_of_false hx' ?_
    rintro ⟨a, v, hv, -⟩
    cases hv
  | some a =>
    rw [bind_of_some hxt]
    by_cases hc : c a
    · rw [hf a hc u hx']
      constructor
      · exact fun hM => ⟨a, u, rfl, hc, hM⟩
      · rintro ⟨a', u', hu', -, hM⟩
        cases hu'
        exact hM
    · refine iff_of_false (fun hH => ?_) ?_
      · obtain ⟨l, hl, -⟩ := (hno a hc u hx').mp hH
        exact hl
      · rintro ⟨a', u', hu', hc', -⟩
        cases hu'
        exact hc hc'

/-- When the value that `x` returns does not matter. -/
theorem Comes.next {K : Language R} (hx : Triple (fun tr => ¬ H tr) P x Q)
    (hL : Answers x L) (hK : words (fun _ => True) L = K) (hf : ∀ a, Comes H (Q a) (f a) M) :
    Comes H P (x >>= f) (K * M) := by
  rw [← hK]
  exact Comes.bind (fun _ => True) hx hL (fun a _ => hf a) fun a hn => absurd trivial hn

end Comes

end NyaOS.Library.Dialogue
