import Mathlib.Data.Nat.Digits.Lemmas

/-! Positional numerals over an arbitrary alphabet: `digit d` is the character of the digit
`d`. The numeral has no leading zero, and the numeral of zero is one digit. -/
namespace NyaOS.Library.Numeral

variable {α : Type} (digit : Nat → α) {b n : Nat}

def numeral (b n : Nat) : List α :=
  if n = 0 then [digit 0] else ((Nat.digits b n).map digit).reverse

variable {digit}

theorem numeral_of_lt (h : n < b) : numeral digit b n = [digit n] := by
  unfold numeral
  split
  · next hn => rw [hn]
  · next hn => rw [Nat.digits_of_lt b n hn h, List.map_singleton, List.reverse_singleton]

/-- The last digit comes off the end. -/
theorem numeral_of_le (hb : 1 < b) (h : b ≤ n) :
    numeral digit b n = numeral digit b (n / b) ++ [digit (n % b)] := by
  have hn : n ≠ 0 := by omega
  have hq : n / b ≠ 0 := Nat.div_ne_zero_iff.mpr ⟨by omega, h⟩
  rw [numeral, if_neg hn, numeral, if_neg hq, Nat.digits_def' hb (by omega), List.map_cons,
    List.reverse_cons]

theorem length_numeral_le {k : Nat} (hb : 1 < b) (hk : 0 < k) (h : n < b ^ k) :
    (numeral digit b n).length ≤ k := by
  induction k generalizing n with
  | zero => omega
  | succ k ih =>
    by_cases hlt : n < b
    · rw [numeral_of_lt hlt]
      exact Nat.succ_le_succ (Nat.zero_le k)
    · have hk' : 0 < k := by
        rcases Nat.eq_zero_or_pos k with rfl | hk'
        · rw [Nat.zero_add, Nat.pow_one] at h
          exact absurd h hlt
        · exact hk'
      have hq : n / b < b ^ k := by
        apply Nat.div_lt_of_lt_mul
        rwa [Nat.pow_succ, Nat.mul_comm] at h
      have := ih hk' hq
      rw [numeral_of_le hb (by omega), List.length_append, List.length_singleton]
      omega

/-- Every character of a numeral is a digit of the base. -/
theorem of_mem_numeral (hb : 1 < b) {c : α} (h : c ∈ numeral digit b n) :
    ∃ d < b, c = digit d := by
  unfold numeral at h
  split at h
  · exact ⟨0, by omega, List.mem_singleton.mp h⟩
  · obtain ⟨d, hd, rfl⟩ := List.mem_map.mp (List.mem_reverse.mp h)
    exact ⟨d, Nat.digits_lt_base hb hd, rfl⟩

/-- The numeral of a positive number begins with a digit other than zero. -/
theorem head_numeral (hb : 1 < b) (hn : n ≠ 0) :
    ∃ d < b, d ≠ 0 ∧ (numeral digit b n).head? = some (digit d) := by
  induction n using Nat.strongRecOn with
  | ind n ih =>
    by_cases h : n < b
    · exact ⟨n, h, hn, by rw [numeral_of_lt h, List.head?_singleton]⟩
    · have hq : n / b ≠ 0 := Nat.div_ne_zero_iff.mpr ⟨by omega, by omega⟩
      obtain ⟨d, hd, hd₀, hhead⟩ := ih _ (Nat.div_lt_self (by omega) hb) hq
      refine ⟨d, hd, hd₀, ?_⟩
      rw [numeral_of_le hb (by omega), List.head?_append, hhead, Option.some_or]

/-- The numerals of the standard library, when the digits are its own up to a renaming. -/
theorem numeral_eq_toDigits {f : Char → α} (hb : 1 < b)
    (hf : ∀ d < b, digit d = f (Nat.digitChar d)) (n : Nat) :
    numeral digit b n = (Nat.toDigits b n).map f := by
  induction n using Nat.strongRecOn with
  | ind n ih =>
    by_cases h : n < b
    · rw [numeral_of_lt h, Nat.toDigits_of_lt_base h, hf n h, List.map_singleton]
    · have hq : n / b < n := Nat.div_lt_self (by omega) hb
      have hle : b ≤ n := Nat.le_of_not_lt h
      rw [numeral_of_le hb hle, ih _ hq, Nat.toDigits_of_base_le hb hle, List.map_append,
        hf _ (Nat.mod_lt n (by omega)), List.map_singleton]

/-- The number a string of digits denotes, given the value of each character. -/
def read (value : α → Nat) (b : Nat) (cs : List α) : Nat :=
  cs.foldl (fun acc c => acc * b + value c) 0

theorem read_numeral {value : α → Nat} (hb : 1 < b) (hv : ∀ d < b, value (digit d) = d) (n : Nat) :
    read value b (numeral digit b n) = n := by
  induction n using Nat.strongRecOn with
  | ind n ih =>
    by_cases h : n < b
    · rw [numeral_of_lt h, read, List.foldl_cons, List.foldl_nil, hv n h, Nat.zero_mul, Nat.zero_add]
    · have hq : n / b < n := Nat.div_lt_self (by omega) hb
      rw [numeral_of_le hb (by omega), read, List.foldl_append, List.foldl_cons, List.foldl_nil,
        hv _ (Nat.mod_lt n (by omega))]
      change read value b (numeral digit b (n / b)) * b + n % b = n
      rw [ih _ hq]
      exact Nat.div_add_mod' n b

end NyaOS.Library.Numeral
