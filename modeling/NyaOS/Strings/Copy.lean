import Mathlib.Data.List.GetD
import NyaOS.Strings.Compare
import NyaOS.Strings.Memmove

/-! `memcpy`, `memset`, `strlen`, `strcpy` and `strcat` of `libc/string`. The loops go on until they meet a zero
byte, so they have fuel: a loop that ends on no fuel does not end. -/
namespace NyaOS.Strings
open Library.ByteMemory

/-- Returns `dstptr` and the memory. -/
def memcpy (m : Mem) (dst src size : Nat) : Nat × Mem := (dst, copyUp dst src size 0 m)

/-- `for (i = 0; i < size; ++i) buf[i] = value`, with `n` turns left. -/
def setUp (buf : Nat) (value : Byte) : Nat → Nat → Mem → Mem
  | 0, _, m => m
  | n + 1, i, m => setUp buf value n (i + 1) (Function.update m (elemAddr buf i) value)

/-- Returns `bufptr` and the memory. -/
def memset (m : Mem) (bufptr value size : Nat) : Nat × Mem :=
  (bufptr, setUp bufptr (BitVec.ofNat 8 value) size 0 m)

/-- `while(str[res])`, from `res = i` on. -/
def findNul (m : Mem) (str : Nat) : Nat → Nat → Option Nat
  | 0, _ => none
  | fuel + 1, i => if m (elemAddr str i) = 0 then some i else findNul m str fuel (i + 1)

def strlen (fuel : Nat) (m : Mem) (str : Nat) : Option Nat := findNul m str fuel 0

/-- `while((*dst++ = *src++)){}`, from the `i`-th turn on. Returns the number of turns and the memory. -/
def copyStr (dst src : Nat) : Nat → Nat → Mem → Option (Nat × Mem)
  | 0, _, _ => none
  | fuel + 1, i, m =>
    if m (elemAddr src i) = 0 then some (i + 1, copyByte dst src i m)
    else copyStr dst src fuel (i + 1) (copyByte dst src i m)

/-- There is no `return`. -/
def strcpy (fuel : Nat) (m : Mem) (dst src : Nat) : Option Mem := (copyStr dst src fuel 0 m).map Prod.snd

/-- Returns `dst` as the loops leave it. -/
def strcat (fuel : Nat) (m : Mem) (dst src : Nat) : Option (Nat × Mem) := do
  let k ← findNul m dst fuel 0
  let (n, m) ← copyStr (elemAddr dst k) src fuel 0 m
  return (elemAddr dst (k + n), m)

/-- The string at `p`. -/
structure StringAt (m : Mem) (p : Nat) (s : List Byte) : Prop where
  nonZero : NonZero s
  bytes : ∀ i ≤ s.length, m (p + i) = s.getD i 0
  fits : p + s.length < 2 ^ 64

/-- A copy from `src` to `dst` upwards writes some byte of the source before it reads it. -/
def Overtakes (dst src size : Nat) : Prop := src < dst ∧ dst < src + size

instance (dst src size : Nat) : Decidable (Overtakes dst src size) := inferInstanceAs (Decidable (_ ∧ _))

section Upwards
variable {dst src size : Nat} {m m' : Mem} (hdst : dst + size ≤ 2 ^ 64) (hsrc : src + size ≤ 2 ^ 64)
include hdst hsrc

/-- The next byte of a copy that overtakes nothing. -/
theorem Moved.next {i : Nat} (hover : ¬ Overtakes dst src size) (hi : i < size)
    (h : Moved dst src 0 i m m') : Moved dst src 0 (i + 1) m (Strings.copyByte dst src i m') := by
  unfold Overtakes at hover
  exact h.copyByte hdst hsrc hi (by omega) (by omega)

theorem copyUp_apart (hover : ¬ Overtakes dst src size) (n i : Nat) (hn : i + n = size)
    (h : Moved dst src 0 i m m') : Moved dst src 0 size m (copyUp dst src n i m') := by
  induction n generalizing i m' with
  | zero => exact hn ▸ h
  | succ n ih => exact ih (i + 1) (by omega) (h.next hdst hsrc hover (by omega))

/-- A copy that overtakes repeats the bytes in front of `dst`. -/
theorem copyUp_repeats (hover : src < dst) (n i : Nat) (hn : i + n = size)
    (hcopied : ∀ j < i, m' (dst + j) = m (src + j % (dst - src)))
    (hframe : ∀ x, ¬ (dst ≤ x ∧ x < dst + i) → m' x = m x) :
    ∀ j < size, copyUp dst src n i m' (dst + j) = m (src + j % (dst - src)) := by
  induction n generalizing i m' with
  | zero =>
    obtain rfl : i = size := hn
    exact hcopied
  | succ n ih =>
    have hread : m' (src + i) = m (src + i % (dst - src)) := by
      by_cases hlt : i < dst - src
      · rw [Nat.mod_eq_of_lt hlt]
        exact hframe _ (by omega)
      · have hback : src + i = dst + (i - (dst - src)) := by omega
        rw [hback, hcopied _ (by omega), ← Nat.mod_eq_sub_mod (by omega)]
    have hstep : copyByte dst src i m' = Function.update m' (dst + i) (m (src + i % (dst - src))) := by
      rw [copyByte, elemAddr_eq hdst (by omega), elemAddr_eq hsrc (by omega), hread]
    rw [copyUp, hstep]
    refine ih (i + 1) (by omega) (fun j hj => ?_) fun x hx => ?_
    · by_cases hji : j = i
      · rw [hji, Function.update_self]
      · rw [Function.update_of_ne (by omega)]
        exact hcopied j (by omega)
    · rw [Function.update_of_ne (by omega)]
      exact hframe x (by omega)

theorem memmove_copy (m : Mem) : ∃ m', memmove m dst src size = (dst, m') ∧ Moved dst src 0 size m m' := by
  by_cases hlt : dst < src
  · exact ⟨_, if_pos hlt, copyUp_moved hdst hsrc hlt size 0 (by omega) (moved_none dst src 0 m)⟩
  · exact ⟨_, if_neg hlt, copyDown_moved hdst hsrc (by omega) size (by omega) (moved_none dst src size m)⟩

end Upwards

theorem Moved.unique {dst src n : Nat} {m a b : Mem} (ha : Moved dst src 0 n m a) (hb : Moved dst src 0 n m b) :
    a = b := by
  funext x
  by_cases hx : dst ≤ x ∧ x < dst + n
  · have hcopy := (ha.copied (x - dst) (by omega) (by omega)).trans (hb.copied (x - dst) (by omega) (by omega)).symm
    rwa [Nat.add_sub_cancel' hx.1] at hcopy
  · rw [ha.frame x (by omega), hb.frame x (by omega)]

/-- `memcpy` does what `memmove` does, whatever is in the memory, unless it overtakes itself. -/
theorem memcpy_agrees_iff {dst src size : Nat} (hdst : dst + size ≤ 2 ^ 64) (hsrc : src + size ≤ 2 ^ 64) :
    (∀ m, memcpy m dst src size = memmove m dst src size) ↔ ¬ Overtakes dst src size := by
  constructor
  · rintro hagree ⟨hlt, hin⟩
    -- the byte that the copy finds at `dst` is the first one of the source
    have hcopy := copyUp_repeats (m := Function.update (fun _ => 0) src 1) hdst hsrc hlt size 0 (by omega)
      (by omega) (fun _ _ => rfl) (dst - src) (by omega)
    obtain ⟨m', hmove, hmoved⟩ := memmove_copy hdst hsrc (Function.update (fun _ => 0) src 1)
    have hsame : copyUp dst src size 0 (Function.update (fun _ => 0) src 1) = m' :=
      congrArg Prod.snd ((hagree _).trans hmove)
    have hbyte := hmoved.copied (dst - src) (by omega) (by omega)
    rw [← hsame, hcopy, Nat.mod_self, Nat.add_zero, Function.update_self, Function.update_of_ne (by omega)] at hbyte
    exact absurd hbyte (by decide)
  · intro hover m
    have hcopy := copyUp_apart hdst hsrc hover size 0 (by omega) (moved_none dst src 0 m)
    obtain ⟨m', hmove, hmoved⟩ := memmove_copy hdst hsrc m
    rw [hmove, memcpy, hcopy.unique hmoved]

theorem memcpy_agrees_four_bytes :
    (∀ m, memcpy m 100 102 4 = memmove m 100 102 4) ∧ ¬ ∀ m, memcpy m 102 100 4 = memmove m 102 100 4 :=
  ⟨(memcpy_agrees_iff (by decide) (by decide)).mpr (by decide),
    (memcpy_agrees_iff (by decide) (by decide)).not.mpr (by decide)⟩

theorem setUp_bytes {buf size : Nat} (hfits : buf + size ≤ 2 ^ 64) (value : Byte) (n i : Nat) (hn : i + n = size)
    (m : Mem) (x : Nat) :
    setUp buf value n i m x = if buf + i ≤ x ∧ x < buf + size then value else m x := by
  induction n generalizing i m with
  | zero => exact (if_neg (by omega)).symm
  | succ n ih =>
    rw [setUp, ih (i + 1) (by omega), elemAddr_eq hfits (by omega)]
    by_cases hx : x = buf + i
    · rw [hx, if_neg (by omega), Function.update_self, if_pos (by omega)]
    · rw [Function.update_of_ne hx]
      exact if_congr (by omega) rfl rfl

theorem memset_bytes {buf size : Nat} (hfits : buf + size ≤ 2 ^ 64) (m : Mem) (value x : Nat) :
    (memset m buf value size).2 x = if buf ≤ x ∧ x < buf + size then BitVec.ofNat 8 value else m x :=
  setUp_bytes hfits _ size 0 (by omega) m x

section Strings
variable {m : Mem} {p : Nat} {s : List Byte}

theorem StringAt.ne_zero (h : StringAt m p s) {i : Nat} (hi : i < s.length) : m (p + i) ≠ 0 := by
  rw [h.bytes i (by omega), List.getD_eq_getElem _ _ hi]
  exact h.nonZero _ (List.getElem_mem hi)

theorem StringAt.nul (h : StringAt m p s) : m (p + s.length) = 0 := by
  rw [h.bytes _ (Nat.le_refl _), List.getD_eq_default _ _ (Nat.le_refl _)]

theorem StringAt.addr (h : StringAt m p s) {i : Nat} (hi : i ≤ s.length) : elemAddr p i = p + i := by
  have hfits := h.fits
  exact Nat.mod_eq_of_lt (by omega)

theorem StringAt.findNul (h : StringAt m p s) {fuel i : Nat} (hi : i ≤ s.length) (hfuel : s.length < i + fuel) :
    Strings.findNul m p fuel i = some s.length := by
  induction fuel generalizing i with
  | zero => omega
  | succ fuel ih =>
    rw [Strings.findNul, h.addr hi]
    by_cases hend : i = s.length
    · rw [hend, if_pos h.nul]
    · rw [if_neg (h.ne_zero (by omega))]
      exact ih (by omega) (by omega)

/-- Too little fuel finds nothing. -/
theorem StringAt.findNul_none (h : StringAt m p s) {fuel i : Nat} (hi : i + fuel ≤ s.length) :
    Strings.findNul m p fuel i = none := by
  induction fuel generalizing i with
  | zero => rfl
  | succ fuel ih =>
    rw [Strings.findNul, h.addr (by omega), if_neg (h.ne_zero (by omega))]
    exact ih (by omega)

theorem StringAt.congr {m' : Mem} (h : StringAt m p s) (hsame : ∀ x, p ≤ x → x ≤ p + s.length → m' x = m x) :
    StringAt m' p s :=
  ⟨h.nonZero, fun i hi => (hsame _ (by omega) (by omega)).trans (h.bytes i hi), h.fits⟩

variable {dst : Nat} (hb : StringAt m p s) (hdst : dst + s.length < 2 ^ 64)
include hb hdst

/-- A string that the copy does not overtake is copied with its terminator. -/
theorem StringAt.copyStr (hover : ¬ Overtakes dst p (s.length + 1)) (fuel : Nat) {i : Nat} {m' : Mem}
    (hi : i ≤ s.length) (h : Moved dst p 0 i m m') :
    (s.length < i + fuel → ∃ m'', Strings.copyStr dst p fuel i m' = some (s.length + 1, m'') ∧
      Moved dst p 0 (s.length + 1) m m'') ∧
    (i + fuel ≤ s.length → Strings.copyStr dst p fuel i m' = none) := by
  induction fuel generalizing i m' with
  | zero => exact ⟨by omega, fun _ => rfl⟩
  | succ fuel ih =>
    have hfits := hb.fits
    have hnext := h.next (show dst + (s.length + 1) ≤ 2 ^ 64 by omega) (by omega) hover (by omega)
    have hread : m' (p + i) = m (p + i) := h.frame _ (by
      unfold Overtakes at hover
      omega)
    rw [Strings.copyStr, hb.addr hi, hread]
    by_cases hend : i = s.length
    · rw [hend] at hnext ⊢
      rw [if_pos hb.nul]
      exact ⟨fun _ => ⟨_, rfl, hnext⟩, by omega⟩
    · rw [if_neg (hb.ne_zero (by omega))]
      obtain ⟨hends, hnone⟩ := ih (i := i + 1) (by omega) hnext
      exact ⟨fun hfuel => hends (by omega), fun hfuel => hnone (by omega)⟩

/-- `strcpy` of such a string. -/
theorem StringAt.strcpy (hover : ¬ Overtakes dst p (s.length + 1)) {fuel : Nat} (hfuel : s.length < fuel) :
    ∃ m', Strings.strcpy fuel m dst p = some m' ∧ StringAt m' dst s ∧
      ∀ x, ¬ (dst ≤ x ∧ x ≤ dst + s.length) → m' x = m x := by
  obtain ⟨m', hm', hmoved⟩ := (hb.copyStr hdst hover fuel (Nat.zero_le _) (moved_none _ _ 0 m)).1 (by omega)
  refine ⟨m', by rw [Strings.strcpy, hm']; rfl, ⟨hb.nonZero, fun i hi => ?_, hdst⟩,
    fun x hx => hmoved.frame x (by omega)⟩
  exact (hmoved.copied i (by omega) (by omega)).trans (hb.bytes i hi)

end Strings

/-- With `d` bytes ahead of the copy that are not zero it writes the next one itself, and so goes on. -/
theorem copyStr_hangs {src d : Nat} (fuel : Nat) {i : Nat} {m : Mem}
    (h : ∀ j, i ≤ j → j < i + d → m (elemAddr src j) ≠ 0) (hd : 0 < d) :
    copyStr (src + d) src fuel i m = none := by
  induction fuel generalizing i m with
  | zero => rfl
  | succ fuel ih =>
    have hread := h i (Nat.le_refl i) (by omega)
    have haddr : elemAddr (src + d) i = elemAddr src (i + d) := by
      unfold elemAddr
      congr 1
      omega
    rw [copyStr, if_neg hread]
    refine ih fun j hlo hhi => ?_
    rw [copyByte, haddr]
    by_cases hwritten : elemAddr src j = elemAddr src (i + d)
    · rw [hwritten, Function.update_self]
      exact hread
    · rw [Function.update_of_ne hwritten]
      refine h j (by omega) ?_
      have hne : j ≠ i + d := fun heq => hwritten (heq ▸ rfl)
      omega

section Append
variable {m : Mem} {dst src : Nat} {a b : List Byte} (ha : StringAt m dst a) (hb : StringAt m src b)
  (hroom : dst + a.length + b.length < 2 ^ 64)
include ha hroom

theorem strcat_eq (fuel : Nat) : strcat fuel m dst src = if a.length < fuel then
    (copyStr (dst + a.length) src fuel 0 m).map fun r => (elemAddr dst (a.length + r.1), r.2) else none := by
  have hend : elemAddr dst a.length = dst + a.length := Nat.mod_eq_of_lt (by omega)
  by_cases hfuel : a.length < fuel
  · rw [if_pos hfuel, strcat, ha.findNul (Nat.zero_le _) (by omega), ← hend]
    change (copyStr (elemAddr dst a.length) src fuel 0 m >>= _) = _
    cases copyStr (elemAddr dst a.length) src fuel 0 m <;> rfl
  · rw [if_neg hfuel, strcat, ha.findNul_none (by omega)]
    rfl

include hb

/-- Both strings are behind each other, if the second one is not overtaken. -/
theorem strcat_copies (hover : ¬ Overtakes (dst + a.length) src (b.length + 1)) (fuel : Nat) :
    (a.length < fuel ∧ b.length < fuel → ∃ m',
      strcat fuel m dst src = some (elemAddr dst (a.length + b.length + 1), m') ∧ StringAt m' dst (a ++ b) ∧
      ∀ x, ¬ (dst + a.length ≤ x ∧ x ≤ dst + a.length + b.length) → m' x = m x) ∧
    (¬ (a.length < fuel ∧ b.length < fuel) → strcat fuel m dst src = none) := by
  obtain ⟨hends, hnone⟩ := hb.copyStr hroom hover fuel (Nat.zero_le _) (moved_none _ _ 0 m)
  rw [strcat_eq ha hroom]
  constructor
  · rintro ⟨hfa, hfb⟩
    obtain ⟨m', hm', hmoved⟩ := hends (by omega)
    rw [if_pos hfa, hm']
    refine ⟨m', rfl, ⟨?_, fun i hi => ?_, ?_⟩, fun x hx => hmoved.frame x (by omega)⟩
    · exact List.forall_mem_append.mpr ⟨ha.nonZero, hb.nonZero⟩
    · rw [List.length_append] at hi
      rcases Nat.lt_or_ge i a.length with hia | hia
      · rw [List.getD_append _ _ _ _ hia]
        exact (hmoved.frame _ (by omega)).trans (ha.bytes i (by omega))
      · have haddr : dst + i = dst + a.length + (i - a.length) := by omega
        rw [List.getD_append_right _ _ _ _ hia, haddr]
        exact (hmoved.copied _ (by omega) (by omega)).trans (hb.bytes _ (by omega))
    · rw [List.length_append]
      omega
  · intro hfuel
    by_cases hfa : a.length < fuel
    · rw [if_pos hfa, hnone (by omega)]
      rfl
    · exact if_neg hfa

/-- It does not end if the second string is overtaken: its terminator is gone. -/
theorem strcat_hangs (hover : Overtakes (dst + a.length) src (b.length + 1)) (fuel : Nat) :
    strcat fuel m dst src = none := by
  obtain ⟨hlt, hin⟩ := hover
  have hdst : dst + a.length = src + (dst + a.length - src) := by omega
  have hnone : copyStr (dst + a.length) src fuel 0 m = none := by
    rw [hdst]
    refine copyStr_hangs fuel (fun j _ hj => ?_) (by omega)
    rw [hb.addr (by omega)]
    exact hb.ne_zero (by omega)
  rw [strcat_eq ha hroom, hnone]
  split <;> rfl

end Append

/-- `strcat` returns if and only if the end of the first string, where it begins to write, is not inside
the second. Then the string at `dst` is both, all other bytes are as they were, and the pointer that comes
back is not `dst` but the one behind the terminator. -/
theorem strcat_ends_iff {m : Mem} {dst src : Nat} {a b : List Byte} (ha : StringAt m dst a)
    (hb : StringAt m src b) (hroom : dst + a.length + b.length < 2 ^ 64) :
    ((∃ fuel r, strcat fuel m dst src = some r) ↔ ¬ Overtakes (dst + a.length) src (b.length + 1)) ∧
    ∀ fuel r, strcat fuel m dst src = some r → StringAt r.2 dst (a ++ b) ∧
      r.1 = elemAddr dst (a.length + b.length + 1) ∧
      ∀ x, ¬ (dst + a.length ≤ x ∧ x ≤ dst + a.length + b.length) → r.2 x = m x := by
  by_cases hover : Overtakes (dst + a.length) src (b.length + 1)
  · have hnone := strcat_hangs ha hb hroom hover
    refine ⟨⟨?_, fun h => absurd hover h⟩, fun fuel r h => ?_⟩
    · rintro ⟨fuel, r, h⟩
      rw [hnone] at h
      cases h
    · rw [hnone] at h
      cases h
  · refine ⟨⟨fun _ => hover, fun _ => ?_⟩, fun fuel r h => ?_⟩
    · obtain ⟨m', hm', -⟩ := (strcat_copies ha hb hroom hover (a.length + b.length + 1)).1 (by omega)
      exact ⟨_, _, hm'⟩
    · obtain ⟨hends, hnone⟩ := strcat_copies ha hb hroom hover fuel
      by_cases hfuel : a.length < fuel ∧ b.length < fuel
      · obtain ⟨m', hm', hstring, hframe⟩ := hends hfuel
        rw [hm'] at h
        cases h
        exact ⟨hstring, rfl, hframe⟩
      · rw [hnone hfuel] at h
        cases h

/-- The string `"ab"` at 16. -/
def twoChars : Mem := fun x => if x = 16 then 97 else if x = 17 then 98 else 0

theorem twoChars_string : StringAt twoChars 16 [97, 98] where
  nonZero := by simp [NonZero]
  bytes := by decide
  fits := by decide

theorem twoChars_end : StringAt twoChars 18 [] where
  nonZero := nofun
  bytes := by decide
  fits := by decide

/-- Its end can be appended to it, the string itself cannot. -/
theorem strcat_ends_two_chars : (∃ fuel r, strcat fuel twoChars 16 18 = some r) ∧
    ¬ ∃ fuel r, strcat fuel twoChars 16 16 = some r :=
  ⟨(strcat_ends_iff twoChars_string twoChars_end (by decide)).1.mpr (by decide),
    (strcat_ends_iff twoChars_string twoChars_string (by decide)).1.not.mpr (by decide)⟩

end NyaOS.Strings
