import Mathlib.Data.List.Basic

/-! Texts that alternate fixed separators with words over an alphabet: when every separator
begins outside the alphabet, the words can be read off. -/
namespace NyaOS.Library.Interleave

variable {α : Type} {P : α → Bool}

/-- Each separator with its word, then the rest. -/
def interleave : List (List α) → List (List α) → List α → List α
  | sep :: seps, word :: words, rest => sep ++ (word ++ interleave seps words rest)
  | _, _, rest => rest

/-- The text begins with a letter that is not in the alphabet. -/
def Ends (P : α → Bool) (text : List α) : Prop := ∃ c t, text = c :: t ∧ P c = false

theorem takeWhile_word {word rest : List α} (hw : ∀ c ∈ word, P c = true) (hr : Ends P rest) :
    (word ++ rest).takeWhile P = word := by
  obtain ⟨c, t, rfl, hc⟩ := hr
  rw [List.takeWhile_append_of_pos hw, List.takeWhile_cons_of_neg (by simp [hc]), List.append_nil]

theorem ends_interleave {seps words : List (List α)} {rest : List α} (hs : ∀ sep ∈ seps, Ends P sep)
    (hr : Ends P rest) : Ends P (interleave seps words rest) := by
  cases seps with
  | nil => exact hr
  | cons sep seps =>
    cases words with
    | nil => exact hr
    | cons word words =>
      obtain ⟨c, t, rfl, hc⟩ := hs sep (.head _)
      exact ⟨c, _, rfl, hc⟩

theorem interleave_inj {seps words words' : List (List α)} {rest rest' : List α}
    (hs : ∀ sep ∈ seps, Ends P sep) (hr : Ends P rest) (hr' : Ends P rest')
    (hl : words.length = seps.length) (hl' : words'.length = seps.length)
    (hw : ∀ word ∈ words, ∀ c ∈ word, P c = true) (hw' : ∀ word ∈ words', ∀ c ∈ word, P c = true)
    (h : interleave seps words rest = interleave seps words' rest') : words = words' := by
  induction seps generalizing words words' with
  | nil => rw [List.eq_nil_of_length_eq_zero hl, List.eq_nil_of_length_eq_zero hl']
  | cons sep seps ih =>
    obtain ⟨word, words, rfl⟩ := List.exists_cons_of_length_eq_add_one hl
    obtain ⟨word', words', rfl⟩ := List.exists_cons_of_length_eq_add_one hl'
    obtain ⟨hword, hwords⟩ := List.forall_mem_cons.mp hw
    obtain ⟨hword', hwords'⟩ := List.forall_mem_cons.mp hw'
    have hseps := fun sep hsep => hs sep (.tail _ hsep)
    have htail := List.append_cancel_left h
    have heq : word = word' := by
      rw [← takeWhile_word hword (ends_interleave hseps hr), htail,
        takeWhile_word hword' (ends_interleave hseps hr')]
    subst heq
    rw [ih hseps (Nat.succ.inj hl) (Nat.succ.inj hl') hwords hwords' (List.append_cancel_left htail)]

end NyaOS.Library.Interleave
