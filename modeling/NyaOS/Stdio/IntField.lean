import NyaOS.Stdio.Buffers

/-! `__int_str` on its own: the field it leaves in a zeroed buffer, for every width that the buffer
has room for. -/
namespace NyaOS.Stdio
open NyaOS.Library.Numeral

/-- The local array `digit` as the code fills it. -/
def digitBuffer (base : Nat) : Except Fault Buffer := do
  let digit ← strcpy (List.replicate 32 nul) ("0123456789".toList ++ [nul])
  if base = 16 then strcat digit ("ABCDEF".toList ++ [nul])
  else if base = 17 then strcat digit ("abcdef".toList ++ [nul])
  else return digit

/-- The table of the model is what the array holds. -/
theorem digitBuffer_holds {base : Nat} (h : IsBase base) :
    digitBuffer base = .ok (digitTable base ++ List.replicate (32 - (digitTable base).length) nul) := by
  rcases h with rfl | rfl | rfl | rfl <;> decide +kernel

/-- The canonical numeral of `n`. -/
structure IsNumeral (base n : Nat) (digits : List Char) : Prop where
  alphabet : ∀ c ∈ digits, c ∈ (digitTable base).take (radix base)
  zero : n = 0 → digits = ['0']
  leading : n ≠ 0 → digits.head? ≠ some '0'
  value : read digitValue (radix base) digits = n

/-- The buffer holds the text as a C string. -/
def HoldsText (b : Buffer) (s : List Char) : Prop := NoNul s ∧ ∃ rest, b = s ++ nul :: rest

/-- The text padded to a width, behind it or in front. -/
def padded (width : Nat) (c : Char) (behind : Bool) (text : List Char) : List Char :=
  if behind then text ++ List.replicate (width - text.length) c
  else List.replicate (width - text.length) c ++ text

section Numerals
variable {base : Nat} (h : IsBase base)
include h

theorem digit_mem {d : Nat} (hd : d < radix base) :
    (digitTable base).getD d nul ∈ (digitTable base).take (radix base) := by
  rcases h with rfl | rfl | rfl | rfl <;> revert d <;> decide

theorem isNumeral_numeralOf (n : Nat) : IsNumeral base n (numeralOf base n) := by
  have hr := h.radix
  refine ⟨fun c hc => ?_, fun hn => ?_, fun hn hhead => ?_, ?_⟩
  · obtain ⟨d, hd, rfl⟩ := of_mem_numeral (by omega) hc
    exact digit_mem h hd
  · rw [hn, numeralOf, numeral_of_lt (by omega)]
    rcases h with rfl | rfl | rfl | rfl <;> rfl
  · have hfirst : ∃ d < radix base, d ≠ 0 ∧
        (numeralOf base n).head? = some ((digitTable base).getD d nul) := head_numeral (by omega) hn
    obtain ⟨d, hd, hd₀, hfirst⟩ := hfirst
    rw [hhead, Option.some_inj] at hfirst
    have hvalue := (digit_properties h hd).1
    rw [← hfirst] at hvalue
    exact hd₀ hvalue.symm
  · exact read_numeral (by omega) (fun d hd => (digit_properties h hd).1) n

end Numerals

theorem Layout.field_eq_padded {l : Layout} {text : List Char} (hlo : 0 ≤ l.lengthSpec)
    (hhi : l.lengthSpec < 2 ^ 31) (ht : text.length ≤ 2 ^ 31) :
    l.field text = padded l.lengthSpec.toNat l.padChar l.leftJustify text := by
  rw [Layout.field, Layout.padding_eq hlo hhi ht, padded,
    show (l.lengthSpec - text.length).toNat = l.lengthSpec.toNat - text.length by omega]

theorem length_padded (width : Nat) (c : Char) (behind : Bool) (text : List Char) :
    (padded width c behind text).length = max width text.length := by
  unfold padded
  split
  · rw [List.length_append, List.length_replicate]
    omega
  · rw [List.length_append, List.length_replicate]
    omega

theorem noNul_padded {width : Nat} {c : Char} {behind : Bool} {text : List Char} (ht : NoNul text)
    (hc : c ≠ nul) : NoNul (padded width c behind text) := by
  unfold padded
  split
  · exact ht.append (noNul_replicate hc _)
  · exact (noNul_replicate hc _).append ht

/-- For every width up to 255, `__int_str` returns and writes nothing outside its buffers; `b` then
holds the sign and the numeral, padded to the width, and `*length` is the number of digits. -/
theorem intStr_exact {base : Nat} (h : IsBase base) (i : BitVec 64) (l : Layout)
    (hlo : 0 ≤ l.lengthSpec) (hhi : l.lengthSpec ≤ 255) (isNegative : Bool) :
    ∃ b digits, intStr i.toNat zeroBuffer base l isNegative = .ok (b, digits.length) ∧
      b.length = bufferSize ∧ IsNumeral base i.toNat digits ∧
      HoldsText b (padded l.lengthSpec.toNat l.padChar l.leftJustify (l.sign isNegative ++ digits)) := by
  have hi := i.isLt
  have hlen := l.length_text h hi isNegative
  have hlimit : 255 ≤ l.limit := by
    unfold Layout.limit bufferSize
    split <;> decide
  have hfits : (l.field (l.text base isNegative i.toNat)).length ≤ l.limit :=
    (Layout.fits_iff hlen ⟨by omega, by omega⟩).mpr ⟨by omega, by omega⟩
  have hfield : l.field (l.text base isNegative i.toNat) = _ :=
    Layout.field_eq_padded hlo (by omega) (by omega)
  have hshort : (padded l.lengthSpec.toNat l.padChar l.leftJustify
      (l.text base isNegative i.toNat)).length ≤ 255 := by
    rw [length_padded]
    omega
  refine ⟨holding (l.field (l.text base isNegative i.toNat)), numeralOf base i.toNat, ?_, ?_,
    isNumeral_numeralOf h _, ?_⟩
  · rw [intStr_run h hi, if_pos hfits]
  · rw [hfield]
    exact length_holding (Nat.le_trans hshort (by decide))
  · rw [hfield]
    exact ⟨noNul_padded (l.noNul_text h isNegative _) l.padChar_ne_nul, _,
      holding_eq (Nat.lt_of_le_of_lt hshort (by decide))⟩

/-- `-255` in a field of six characters, left-justified, in lower-case hexadecimal. -/
theorem intStr_minus_ff : ∃ b digits,
    intStr 255 zeroBuffer 17 ⟨false, false, 6, true, false⟩ true = .ok (b, digits.length) ∧
      b.length = bufferSize ∧ IsNumeral 17 255 digits ∧
      HoldsText b (padded 6 ' ' true ('-' :: digits)) :=
  intStr_exact (Or.inr (Or.inr (Or.inr rfl))) 255#64 ⟨false, false, 6, true, false⟩ (by decide)
    (by decide) true

end NyaOS.Stdio
