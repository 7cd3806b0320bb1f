import NyaOS.Stdio.IntStr
import NyaOS.Strings.Copy

/-! `__int_str` in memory: its arrays are bytes at addresses, and it calls the functions of `libc/string`.
The buffers of `intStr` stand for them. -/
namespace NyaOS.Stdio.InMemory
open Library.ByteMemory
open Strings (elemAddr findNul copyStr StringAt Overtakes Moved moved_none elemAddr_eq)

/-- A `char` in memory. -/
def charByte (c : Char) : BitVec 8 := BitVec.ofNat 8 c.toNat

def stringBytes (s : List Char) : List (BitVec 8) := s.map charByte

/-- `p[i] = c` -/
def setChar (m : Mem) (p i : Nat) (c : Char) : Mem := Function.update m (elemAddr p i) (charByte c)

/-- `while (padding--) b[strlen(b)] = c` -/
def padLoop (fuel b : Nat) (c : Char) : Nat → Mem → Option Mem
  | 0, m => some m
  | n + 1, m => do
    let k ← Strings.strlen fuel m b
    padLoop fuel b c n (setChar m b k c)

/-- `do { *--p = digit[i % base]; i = i / base; } while (i)` -/
def fillDigits (digit base : Nat) : Nat → Nat → Nat → Mem → Option Mem
  | 0, _, _, _ => none
  | fuel + 1, p, i, m =>
    let p := (p + (2 ^ 64 - 1)) % 2 ^ 64
    let m := Function.update m p (m (elemAddr digit (i % base)))
    if i / base = 0 then some m else fillDigits digit base fuel p (i / base) m

/-- The arrays of `__int_str` and its string literals. -/
structure Locals where
  digit : Nat
  a : Nat
  decimal : Nat
  upper : Nat
  lower : Nat

/-- `digit` is zeroed twice. -/
def makeDigits (fuel : Nat) (fr : Locals) (base : Nat) (m : Mem) : Option Mem := do
  let m := (Strings.memset m fr.digit 0 32).2
  let m := (Strings.memset m fr.digit 0 32).2
  let m ← Strings.strcpy fuel m fr.digit fr.decimal
  if base = 16 then return (← Strings.strcat fuel m fr.digit fr.upper).2
  else if base = 17 then return (← Strings.strcat fuel m fr.digit fr.lower).2
  else return m

def putSign (m : Mem) (b : Nat) : List Char → Mem
  | [] => m
  | c :: _ => setChar m b 0 c

/-- Returns the memory and `*length`. -/
def intStr (fuel : Nat) (fr : Locals) (m : Mem) (i b base : Nat) (l : Layout) (isNegative : Bool) :
    Option (Mem × Nat) := do
  let m ← makeDigits fuel fr base m
  let base := if base = 17 then 16 else base
  let sign := l.sign isNegative
  let m := putSign m b sign
  let length := countDigits base 64 i
  let p := sign.length + length
  let m := setChar m b p nul
  let m ← fillDigits fr.digit base fuel (elemAddr b p) i m
  let padding := toInt32 (l.lengthSpec - (← Strings.strlen fuel m b))
  let padding := if padding < 0 then 0 else padding
  if l.leftJustify then
    let m ← padLoop fuel b l.padChar padding.toNat m
    return (m, length)
  else
    let m := (Strings.memset m fr.a 0 256).2
    let m ← padLoop fuel fr.a l.padChar padding.toNat m
    let (_, m) ← Strings.strcat fuel m fr.a b
    let m ← Strings.strcpy fuel m b fr.a
    return (m, length)

/-- The `n` bytes from `p` on. -/
def Within (p n x : Nat) : Prop := p ≤ x ∧ x < p + n

def Apart (p n q k : Nat) : Prop := p + n ≤ q ∨ q + k ≤ p

instance (p n q k : Nat) : Decidable (Apart p n q k) := inferInstanceAs (Decidable (_ ∨ _))

/-- The buffer is in memory at `p`. -/
structure Holds (m : Mem) (p : Nat) (b : Buffer) : Prop where
  bytes : ∀ i < b.length, (m (p + i)).toNat = (b.getD i nul).toNat
  fits : p + b.length ≤ 2 ^ 64

theorem toNat_charByte {c : Char} (h : c.toNat < 256) : (charByte c).toNat = c.toNat := by
  rw [charByte, BitVec.toNat_ofNat, Nat.mod_eq_of_lt h]

theorem charByte_ne_zero {c : Char} (hc : c ≠ nul) (h : c.toNat < 256) : charByte c ≠ 0 := by
  intro hzero
  have htoNat : c.toNat = 0 := by
    rw [← toNat_charByte h, hzero]
    rfl
  exact hc (by rw [← Char.ofNat_toNat c, htoNat, nul])

theorem Apart.symm {p n q k : Nat} (h : Apart p n q k) : Apart q k p n := Or.symm h

theorem Apart.not_within {p n q k x : Nat} (h : Apart p n q k) (hx : Within q k x) : ¬ Within p n x := by
  unfold Apart at h
  unfold Within at hx ⊢
  omega

theorem ok_of_bind {α β : Type} {x : Except Fault α} {f : α → Except Fault β} {r : β} (h : x >>= f = .ok r) :
    ∃ a, x = .ok a ∧ f a = .ok r := by
  cases x with
  | error e => cases h
  | ok a => exact ⟨a, rfl, h⟩

section Holds
variable {m m' : Mem} {p : Nat} {b b' : Buffer}

theorem Holds.congr (h : Holds m p b) (hsame : ∀ x, Within p b.length x → m' x = m x) : Holds m' p b where
  bytes i hi := by rw [hsame (p + i) ⟨by omega, by omega⟩, h.bytes i hi]
  fits := h.fits

theorem Holds.frame (h : Holds m p b) {q n : Nat} (hapart : Apart q n p b.length) (honly : OnlyIn (Within q n) m m') :
    Holds m' p b :=
  h.congr fun x hx => honly x (hapart.not_within hx)

theorem Holds.small (h : Holds m p b) {i : Nat} (hi : i < b.length) : (b.getD i nul).toNat < 256 := by
  rw [← h.bytes i hi]
  exact (m (p + i)).isLt

theorem Holds.charByte (h : Holds m p b) {i : Nat} (hi : i < b.length) :
    m (p + i) = InMemory.charByte (b.getD i nul) := by
  rw [← BitVec.toNat_inj, toNat_charByte (h.small hi), h.bytes i hi]

/-- A text with its terminator is a string. -/
theorem Holds.string {s post : List Char} (h : Holds m p (s ++ nul :: post)) (hs : NoNul s) :
    StringAt m p (stringBytes s) where
  nonZero := by
    intro x hx
    obtain ⟨c, hc, rfl⟩ := List.mem_map.mp hx
    obtain ⟨i, hi, rfl⟩ := List.getElem_of_mem hc
    have hsmall := h.small (i := i) (by rw [List.length_append]; omega)
    rw [List.getD_append _ _ _ _ hi, List.getD_eq_getElem _ _ hi] at hsmall
    exact charByte_ne_zero (hs _ hc) hsmall
  bytes i hi := by
    rw [stringBytes, List.length_map] at hi
    have hchar : (s ++ nul :: post).getD i nul = s.getD i nul := by
      rcases Nat.lt_or_eq_of_le hi with hlt | rfl
      · rw [List.getD_append _ _ _ _ hlt]
      · rw [List.getD_append_right _ _ _ _ (Nat.le_refl _), Nat.sub_self,
          List.getD_eq_default s nul (Nat.le_refl _)]
        rfl
    rw [h.charByte (by rw [List.length_append, List.length_cons]; omega), hchar]
    exact (List.getD_map s nul InMemory.charByte).symm
  fits := by
    have hfits := h.fits
    rw [List.length_append, List.length_cons] at hfits
    rw [stringBytes, List.length_map]
    omega

/-- A store of a character is a `put`. -/
theorem Holds.setChar (h : Holds m p b) {k : Nat} {c : Char} (hc : c.toNat < 256) (hput : put b k c = .ok b') :
    Holds (InMemory.setChar m p k c) p b' ∧ b'.length = b.length ∧
      OnlyIn (Within p b.length) m (InMemory.setChar m p k c) := by
  unfold put at hput
  by_cases hk : k < b.length
  · rw [if_pos hk] at hput
    cases hput
    have haddr := elemAddr_eq h.fits hk
    refine ⟨⟨fun i hi => ?_, ?_⟩, List.length_set, fun x hx => ?_⟩
    · rw [List.length_set] at hi
      rw [InMemory.setChar, haddr]
      by_cases hik : i = k
      · rw [hik, Function.update_self, toNat_charByte hc, List.getD_eq_getElem _ _ (by rwa [List.length_set]),
          List.getElem_set_self]
      · rw [Function.update_of_ne (by omega), h.bytes i hi, List.getD_eq_getElem _ _ hi,
          List.getD_eq_getElem _ _ (by rwa [List.length_set]), List.getElem_set_ne fun h => hik h.symm]
    · rw [List.length_set]
      exact h.fits
    · rw [InMemory.setChar, haddr, Function.update_of_ne]
      rintro rfl
      exact hx ⟨by omega, by omega⟩
  · rw [if_neg hk] at hput
    cases hput

/-- A length that `strlen` finds in the buffer. -/
theorem strlen_ok {n : Nat} (h : Stdio.strlen b = .ok n) : ∃ s post, b = s ++ nul :: post ∧ NoNul s ∧ s.length = n := by
  induction b generalizing n with
  | nil => cases h
  | cons c b ih =>
    by_cases hc : c = nul
    · rw [Stdio.strlen, if_pos hc] at h
      cases h
      exact ⟨[], b, by rw [hc]; rfl, List.forall_mem_nil _, rfl⟩
    · rw [Stdio.strlen, if_neg hc] at h
      cases hb : Stdio.strlen b with
      | error e =>
        rw [hb] at h
        cases h
      | ok k =>
        rw [hb] at h
        cases h
        obtain ⟨s, post, rfl, hs, rfl⟩ := ih hb
        exact ⟨c :: s, post, rfl, List.forall_mem_cons.mpr ⟨hc, hs⟩, rfl⟩

theorem Holds.strlen (h : Holds m p b) {n fuel : Nat} (hrun : Stdio.strlen b = .ok n) (hfuel : b.length ≤ fuel) :
    Strings.strlen fuel m p = some n ∧ n < b.length := by
  obtain ⟨s, post, rfl, hs, rfl⟩ := strlen_ok hrun
  have hlength : (stringBytes s).length = s.length := List.length_map ..
  have hstring := h.string hs
  rw [List.length_append, List.length_cons] at hfuel ⊢
  rw [Strings.strlen, hstring.findNul (Nat.zero_le _) (by omega), hlength]
  exact ⟨rfl, by omega⟩

theorem Holds.padLoop (h : Holds m p b) {c : Char} (hc : c.toNat < 256) {n fuel : Nat}
    (hrun : Stdio.padLoop c n b = .ok b') (hfuel : b.length ≤ fuel) :
    ∃ m', InMemory.padLoop fuel p c n m = some m' ∧ Holds m' p b' ∧ b'.length = b.length ∧
      OnlyIn (Within p b.length) m m' := by
  induction n generalizing m b with
  | zero =>
    cases hrun
    exact ⟨m, rfl, h, rfl, fun _ _ => rfl⟩
  | succ n ih =>
    rw [Stdio.padLoop] at hrun
    obtain ⟨k, hk, hrun⟩ := ok_of_bind hrun
    obtain ⟨b₁, hput, hrun⟩ := ok_of_bind hrun
    obtain ⟨hlen, -⟩ := h.strlen hk hfuel
    obtain ⟨hb₁, hlength, honly⟩ := h.setChar hc hput
    obtain ⟨m', hm', hb', hlength', honly'⟩ := ih hb₁ hrun (hlength ▸ hfuel)
    rw [hlength] at honly'
    refine ⟨m', ?_, hb', hlength'.trans hlength, honly.trans honly'⟩
    rw [InMemory.padLoop, hlen]
    exact hm'

/-- What the copying loop leaves of a buffer. -/
theorem copyTo_ok {src : Buffer} {k : Nat} (hrun : copyTo b k src = .ok b') :
    ∃ t post, src = t ++ nul :: post ∧ NoNul t ∧ k + t.length < b.length ∧ b'.length = b.length ∧
      ∀ i < b.length, b'.getD i nul =
        if k ≤ i ∧ i ≤ k + t.length then src.getD (i - k) nul else b.getD i nul := by
  induction src generalizing b k with
  | nil => cases hrun
  | cons c src ih =>
    rw [copyTo] at hrun
    obtain ⟨b₁, hput, hrun⟩ := ok_of_bind hrun
    have hk : k < b.length := by
      by_contra hk
      rw [put, if_neg hk] at hput
      cases hput
    rw [put, if_pos hk] at hput
    cases hput
    have hset : ∀ i < b.length, (b.set k c).getD i nul = if i = k then c else b.getD i nul := by
      intro i hi
      rw [List.getD_eq_getElem _ _ (by rwa [List.length_set]), List.getElem_set, List.getD_eq_getElem _ _ hi]
      exact if_congr eq_comm rfl rfl
    by_cases hc : c = nul
    · rw [if_pos hc] at hrun
      cases hrun
      refine ⟨[], src, by rw [hc]; rfl, List.forall_mem_nil _, hk, List.length_set, fun i hi => ?_⟩
      rw [hset i hi, List.length_nil, Nat.add_zero]
      by_cases hik : i = k
      · rw [if_pos hik, if_pos (by omega), hik, Nat.sub_self]
        rfl
      · rw [if_neg hik, if_neg (by omega)]
    · rw [if_neg hc] at hrun
      obtain ⟨t, post, rfl, ht, hroom, hlength, hget⟩ := ih hrun
      rw [List.length_set] at hroom hlength hget
      refine ⟨c :: t, post, rfl, List.forall_mem_cons.mpr ⟨hc, ht⟩, ?_, hlength, fun i hi => ?_⟩
      · rw [List.length_cons]
        omega
      · rw [hget i hi, hset i hi, List.length_cons]
        by_cases hin : k + 1 ≤ i ∧ i ≤ k + 1 + t.length
        · rw [if_pos hin, if_pos (by omega), show i - k = i - (k + 1) + 1 by omega, List.getD_cons_succ]
        · rw [if_neg hin]
          by_cases hik : i = k
          · rw [if_pos hik, if_pos (by omega), hik, Nat.sub_self, List.getD_cons_zero]
          · rw [if_neg hik, if_neg (by omega)]

/-- The copying loop, from one array to another. -/
theorem Holds.copyStr (h : Holds m p b) {src : Buffer} {q k fuel : Nat} (hs : Holds m q src)
    (hapart : Apart p b.length q src.length) (hrun : copyTo b k src = .ok b') (hfuel : src.length ≤ fuel) :
    ∃ n m', Strings.copyStr (elemAddr p k) q fuel 0 m = some (n, m') ∧ Holds m' p b' ∧ b'.length = b.length ∧
      OnlyIn (Within p b.length) m m' := by
  obtain ⟨t, post, rfl, ht, hroom, hlength, hget⟩ := copyTo_ok hrun
  have hstring := hs.string ht
  have hbytes : (stringBytes t).length = t.length := List.length_map ..
  have hfits := h.fits
  rw [List.length_append, List.length_cons] at hfuel hapart
  have hover : ¬ Overtakes (p + k) q ((stringBytes t).length + 1) := by
    unfold Overtakes
    unfold Apart at hapart
    omega
  obtain ⟨m', hm', hmoved⟩ := (hstring.copyStr (show p + k + (stringBytes t).length < 2 ^ 64 by omega) hover
    fuel (Nat.zero_le _) (moved_none _ _ 0 m)).1 (by omega)
  rw [hbytes] at hm' hmoved
  refine ⟨_, m', by rw [elemAddr_eq hfits (by omega)]; exact hm', ⟨fun i hi => ?_, by omega⟩, hlength,
    fun x hx => hmoved.frame x fun hin => hx ⟨by omega, by omega⟩⟩
  rw [hlength] at hi
  rw [hget i hi]
  by_cases hin : k ≤ i ∧ i ≤ k + t.length
  · have hcopied := hmoved.copied (i - k) (by omega) (by omega)
    rw [show p + k + (i - k) = p + i by omega] at hcopied
    rw [if_pos hin, hcopied]
    exact hs.bytes _ (by rw [List.length_append, List.length_cons]; omega)
  · rw [if_neg hin, hmoved.frame _ (by omega)]
    exact h.bytes i hi

/-- The backward loop, with the table of the digits at `q`. -/
theorem Holds.fillDigits (h : Holds m p b) {table : List Char} {q base : Nat} (htable : Holds m q table)
    (hbase : base ≤ table.length) (hpos : 0 < base) (hapart : Apart p b.length q table.length) {k i fuel : Nat}
    (hrun : Stdio.fillDigits table base b k i = .ok b') (hfuel : k ≤ fuel) :
    ∃ m', InMemory.fillDigits q base fuel (elemAddr p k) i m = some m' ∧ Holds m' p b' ∧ b'.length = b.length ∧
      OnlyIn (Within p b.length) m m' := by
  induction fuel generalizing k i m b with
  | zero =>
    obtain rfl := Nat.le_zero.mp hfuel
    cases hrun
  | succ fuel ih =>
    cases k with
    | zero => cases hrun
    | succ k =>
      rw [Stdio.fillDigits] at hrun
      obtain ⟨b₁, hput, hrun⟩ := ok_of_bind hrun
      have hdigit : i % base < table.length := Nat.lt_of_lt_of_le (Nat.mod_lt _ hpos) hbase
      have hback : (elemAddr p (k + 1) + (2 ^ 64 - 1)) % 2 ^ 64 = elemAddr p k := by
        unfold elemAddr
        omega
      have hread : m (elemAddr q (i % base)) = InMemory.charByte (table.getD (i % base) nul) := by
        rw [elemAddr_eq htable.fits hdigit, htable.charByte hdigit]
      obtain ⟨hb₁, hlength, honly⟩ := h.setChar (htable.small hdigit) hput
      have hstep : Function.update m (elemAddr p k) (m (elemAddr q (i % base))) =
          InMemory.setChar m p k (table.getD (i % base) nul) := by
        rw [hread]
        rfl
      rw [InMemory.fillDigits, hback, hstep]
      by_cases hend : i / base = 0
      · rw [if_pos hend] at hrun ⊢
        cases hrun
        exact ⟨_, rfl, hb₁, hlength, honly⟩
      · rw [if_neg hend] at hrun ⊢
        have htable' : Holds (InMemory.setChar m p k (table.getD (i % base) nul)) q table :=
          htable.frame hapart honly
        obtain ⟨m', hm', hb', hlength', honly'⟩ := ih hb₁ htable' (hlength ▸ hapart) hrun (by omega)
        rw [hlength] at honly'
        exact ⟨m', hm', hb', hlength'.trans hlength, honly.trans honly'⟩

end Holds

/-- The literals are strings, `digit` has its own bytes and `b` is neither of the other arrays. `digit` and
`a` may share theirs: they are not in use at the same time. -/
structure Locals.Placed (fr : Locals) (m : Mem) (b : Nat) : Prop where
  decimal : StringAt m fr.decimal (stringBytes "0123456789".toList)
  upper : StringAt m fr.upper (stringBytes "ABCDEF".toList)
  lower : StringAt m fr.lower (stringBytes "abcdef".toList)
  decimal_apart : Apart fr.digit 32 fr.decimal 11
  upper_apart : Apart fr.digit 32 fr.upper 7
  lower_apart : Apart fr.digit 32 fr.lower 7
  digit_fits : fr.digit + 32 ≤ 2 ^ 64
  a_fits : fr.a + bufferSize ≤ 2 ^ 64
  digit_b : Apart fr.digit 32 b bufferSize
  a_b : Apart fr.a bufferSize b bufferSize

theorem holds_of_string {m : Mem} {p : Nat} {s : List Char} (h : StringAt m p (stringBytes s))
    (hs : ∀ c ∈ s, c.toNat < 256) : Holds m p s where
  bytes i hi := by
    have hbyte := h.bytes i (by rw [stringBytes, List.length_map]; omega)
    have hchar : (stringBytes s).getD i 0 = charByte (s.getD i nul) := List.getD_map s nul charByte
    rw [hbyte, hchar, toNat_charByte]
    rw [List.getD_eq_getElem _ _ hi]
    exact hs _ (List.getElem_mem hi)
  fits := by
    have hfits := h.fits
    rw [stringBytes, List.length_map] at hfits
    omega

theorem digitTable_length {base : Nat} (h : IsBase base) :
    radix base ≤ (digitTable base).length ∧ (digitTable base).length ≤ 16 := by
  rcases h with rfl | rfl | rfl | rfl <;> decide

theorem digitTable_small {base : Nat} (h : IsBase base) : ∀ c ∈ digitTable base, c.toNat < 256 := by
  have hall : (digitTable base).all (fun c => c.toNat < 256) = true := by
    rcases h with rfl | rfl | rfl | rfl <;> rfl
  exact fun c hc => of_decide_eq_true (List.all_eq_true.mp hall c hc)

section Build
variable {fr : Locals} {m : Mem} {b base fuel : Nat}

theorem stringAt_frame {m' : Mem} {p n q : Nat} {s : List (BitVec 8)} (hs : StringAt m q s)
    (hapart : Apart p n q (s.length + 1)) (honly : OnlyIn (Within p n) m m') : StringAt m' q s :=
  hs.congr fun x hlo hhi => honly x (hapart.not_within ⟨hlo, by omega⟩)

theorem Apart.not_overtakes {p n q k : Nat} (h : Apart p n q k) {j : Nat} (hj : j + k ≤ n) : ¬ Overtakes (p + j) q k := by
  unfold Overtakes
  unfold Apart at h
  omega

/-- The zeroed array takes the decimal digits. -/
theorem makeDigits_decimal (h : fr.Placed m b) (hfuel : 16 ≤ fuel) :
    ∃ m', Strings.strcpy fuel (Strings.memset (Strings.memset m fr.digit 0 32).2 fr.digit 0 32).2 fr.digit fr.decimal =
        some m' ∧
      StringAt m' fr.digit (stringBytes "0123456789".toList) ∧ OnlyIn (Within fr.digit 32) m m' := by
  have hfits := h.digit_fits
  have hzero : OnlyIn (Within fr.digit 32) m
      (Strings.memset (Strings.memset m fr.digit 0 32).2 fr.digit 0 32).2 := by
    intro x hx
    unfold Within at hx
    rw [Strings.memset_bytes hfits, if_neg hx, Strings.memset_bytes hfits, if_neg hx]
  have hlength : (stringBytes "0123456789".toList).length = 10 := rfl
  obtain ⟨m', hm', hdigits, hframe⟩ := (stringAt_frame h.decimal h.decimal_apart hzero).strcpy
    (by rw [hlength]; omega) (h.decimal_apart.not_overtakes (j := 0) (by decide)) (show 10 < fuel by omega)
  rw [hlength] at hframe
  refine ⟨m', hm', hdigits, fun x hx => (hframe x fun hin => hx ⟨hin.1, ?_⟩).trans (hzero x hx)⟩
  omega

/-- And the six letters after them. -/
theorem makeDigits_letters {m' : Mem} {q : Nat} {s : List Char} (hlength : s.length = 6)
    (hs : StringAt m q (stringBytes s)) (hapart : Apart fr.digit 32 q 7) (hfits : fr.digit + 32 ≤ 2 ^ 64)
    (hdigits : StringAt m' fr.digit (stringBytes "0123456789".toList)) (honly : OnlyIn (Within fr.digit 32) m m')
    (hfuel : 16 ≤ fuel) :
    ∃ r m'', Strings.strcat fuel m' fr.digit q = some (r, m'') ∧
      StringAt m'' fr.digit (stringBytes ("0123456789".toList ++ s)) ∧ OnlyIn (Within fr.digit 32) m m'' := by
  have hten : (stringBytes "0123456789".toList).length = 10 := rfl
  have hsix : (stringBytes s).length = 6 := by rw [stringBytes, List.length_map, hlength]
  have hover : ¬ Overtakes (fr.digit + 10) q 7 := hapart.not_overtakes (by decide)
  have hletters : StringAt m' q (stringBytes s) := stringAt_frame hs (by rwa [hsix]) honly
  obtain ⟨m'', hm'', hstring, hframe⟩ := (Strings.strcat_copies hdigits hletters (by rw [hten, hsix]; omega)
    (by rwa [hten, hsix]) fuel).1 (by rw [hten, hsix]; omega)
  rw [hten, hsix] at hframe
  refine ⟨_, m'', hm'', ?_, fun x hx => ?_⟩
  · rw [stringBytes, List.map_append]
    exact hstring
  · rw [hframe x fun hin => hx ⟨by omega, by omega⟩, honly x hx]

/-- `digit` is the table of the base. -/
theorem makeDigits_run (h : fr.Placed m b) (hbase : IsBase base) (hfuel : 16 ≤ fuel) :
    ∃ m', makeDigits fuel fr base m = some m' ∧ Holds m' fr.digit (digitTable base) ∧
      OnlyIn (Within fr.digit 32) m m' := by
  obtain ⟨m₂, hm₂, hdigits, honly₂⟩ := makeDigits_decimal h hfuel
  have hsmall := digitTable_small hbase
  rw [makeDigits]
  rw [hm₂, Option.bind_eq_bind, Option.bind_some]
  rcases hbase with rfl | rfl | rfl | rfl
  · exact ⟨m₂, rfl, holds_of_string hdigits hsmall, honly₂⟩
  · exact ⟨m₂, rfl, holds_of_string hdigits hsmall, honly₂⟩
  · obtain ⟨r, m', hm', hstring, honly⟩ :=
      makeDigits_letters rfl h.upper h.upper_apart h.digit_fits hdigits honly₂ hfuel
    refine ⟨m', ?_, holds_of_string hstring hsmall, honly⟩
    rw [if_pos rfl, hm']
    rfl
  · obtain ⟨r, m', hm', hstring, honly⟩ :=
      makeDigits_letters rfl h.lower h.lower_apart h.digit_fits hdigits honly₂ hfuel
    refine ⟨m', ?_, holds_of_string hstring hsmall, honly⟩
    rw [if_neg (by decide), if_pos rfl, hm']
    rfl

theorem sign_small (l : Layout) (isNegative : Bool) : ∀ c ∈ l.sign isNegative, c.toNat < 256 := by
  intro c hc
  unfold Layout.sign at hc
  split at hc
  · rw [List.mem_singleton.mp hc]
    decide
  · split at hc
    · rw [List.mem_singleton.mp hc]
      decide
    · split at hc
      · rw [List.mem_singleton.mp hc]
        decide
      · cases hc

theorem padChar_small (l : Layout) : l.padChar.toNat < 256 := by
  unfold Layout.padChar
  split <;> decide

theorem Holds.putSign {buf buf' : Buffer} (h : Holds m b buf) {sign : List Char} (hs : ∀ c ∈ sign, c.toNat < 256)
    (hrun : Stdio.putSign buf sign = .ok buf') :
    Holds (InMemory.putSign m b sign) b buf' ∧ buf'.length = buf.length ∧
      OnlyIn (Within b buf.length) m (InMemory.putSign m b sign) := by
  cases sign with
  | nil =>
    cases hrun
    exact ⟨h, rfl, fun _ _ => rfl⟩
  | cons c sign => exact h.setChar (hs c List.mem_cons_self) hrun

/-- Zeroed bytes are a zeroed buffer. -/
theorem holds_memset {a : Nat} (hfits : a + bufferSize ≤ 2 ^ 64) :
    Holds (Strings.memset m a 0 bufferSize).2 a zeroBuffer ∧
      OnlyIn (Within a bufferSize) m (Strings.memset m a 0 bufferSize).2 := by
  have hlength : zeroBuffer.length = bufferSize := List.length_replicate
  refine ⟨⟨fun i hi => ?_, by rwa [hlength]⟩, fun x hx => ?_⟩
  · rw [hlength] at hi
    rw [Strings.memset_bytes hfits, if_pos (by omega), zeroBuffer, List.getD_replicate nul hi]
    rfl
  · unfold Within at hx
    rw [Strings.memset_bytes hfits, if_neg hx]

/-- The sign, the terminator and the digits of a number. -/
theorem Holds.putNumber {buf buf₁ buf₂ buf₃ : Buffer} (h : Holds m b buf) (hsize : buf.length = bufferSize)
    {table : List Char} {q : Nat} (htable : Holds m q table) (hbase : base ≤ table.length) (hpos : 0 < base)
    (hapart : Apart b bufferSize q table.length) {sign : List Char} (hs : ∀ c ∈ sign, c.toNat < 256) {n i : Nat}
    (hsign : Stdio.putSign buf sign = .ok buf₁) (hput : put buf₁ (sign.length + n) nul = .ok buf₂)
    (hfill : Stdio.fillDigits table base buf₂ (sign.length + n) i = .ok buf₃) (hfuel : bufferSize ≤ fuel) :
    ∃ m', InMemory.fillDigits q base fuel (elemAddr b (sign.length + n)) i
        (InMemory.setChar (InMemory.putSign m b sign) b (sign.length + n) nul) = some m' ∧
      Holds m' b buf₃ ∧ buf₃.length = bufferSize ∧ OnlyIn (Within b bufferSize) m m' := by
  obtain ⟨hb₁, hlength₁, honly₁⟩ := h.putSign hs hsign
  obtain ⟨hb₂, hlength₂, honly₂⟩ := hb₁.setChar (by decide) hput
  have hroom : sign.length + n < buf₁.length := by
    by_contra hfull
    rw [put, if_neg hfull] at hput
    cases hput
  rw [hlength₁] at hlength₂ honly₂ hroom
  rw [hsize] at hlength₂ honly₁ honly₂ hroom
  have honly := honly₁.trans honly₂
  rw [← hlength₂] at hapart
  obtain ⟨m', hm', hb₃, hlength₃, honly₃⟩ := hb₂.fillDigits (htable.frame hapart (by rwa [hlength₂])) hbase hpos
    hapart hfill (show _ ≤ fuel by omega)
  rw [hlength₂] at hlength₃ honly₃
  exact ⟨m', hm', hb₃, hlength₃, honly.trans honly₃⟩

/-- The number after its padding, by way of the zeroed array `a`. -/
theorem Holds.padBefore {a : Nat} {buf buf' a₁ a₂ : Buffer} (h : Holds m b buf) (hsize : buf.length = bufferSize)
    (hfits : a + bufferSize ≤ 2 ^ 64) (hapart : Apart a bufferSize b bufferSize) {c : Char} (hc : c.toNat < 256)
    {n : Nat} (hpad : Stdio.padLoop c n zeroBuffer = .ok a₁) (hcat : Stdio.strcat a₁ buf = .ok a₂)
    (hcopy : Stdio.strcpy buf a₂ = .ok buf') (hfuel : bufferSize ≤ fuel) :
    ∃ m₁ r m₂ m', InMemory.padLoop fuel a c n (Strings.memset m a 0 bufferSize).2 = some m₁ ∧
      Strings.strcat fuel m₁ a b = some (r, m₂) ∧ Strings.strcpy fuel m₂ b a = some m' ∧ Holds m' b buf' ∧
      OnlyIn (fun x => Within a bufferSize x ∨ Within b bufferSize x) m m' := by
  have hzero : zeroBuffer.length = bufferSize := List.length_replicate
  -- the padding goes into `a`
  obtain ⟨ha, honly₀⟩ := holds_memset (m := m) hfits
  obtain ⟨m₁, hm₁, ha₁, hlength₁, honly₁⟩ := ha.padLoop hc hpad (show _ ≤ fuel by omega)
  rw [hzero] at hlength₁ honly₁
  have hb₁ : Holds m₁ b buf := h.frame (by rwa [hsize]) (honly₀.trans honly₁)
  -- then the number
  obtain ⟨k, hk, hcat⟩ := ok_of_bind hcat
  obtain ⟨hstrlen, -⟩ := ha₁.strlen hk (show _ ≤ fuel by omega)
  obtain ⟨r, m₂, hm₂, ha₂, hlength₂, honly₂⟩ := ha₁.copyStr hb₁ (by rwa [hlength₁, hsize]) hcat
    (show _ ≤ fuel by omega)
  rw [hlength₁] at hlength₂ honly₂
  have hb₂ : Holds m₂ b buf := hb₁.frame (by rwa [hsize]) honly₂
  have hcat' : Strings.strcat fuel m₁ a b = some (elemAddr a (k + r), m₂) := by
    rw [Strings.strcat, show findNul m₁ a fuel 0 = some k from hstrlen]
    change (Strings.copyStr (elemAddr a k) b fuel 0 m₁ >>= _) = _
    rw [hm₂]
    rfl
  -- and both go back
  obtain ⟨r', m₃, hm₃, hb₃, -, honly₃⟩ := hb₂.copyStr ha₂ (by rw [hsize, hlength₂]; exact hapart.symm) hcopy
    (show _ ≤ fuel by omega)
  rw [hsize] at honly₃
  have hcopy' : Strings.strcpy fuel m₂ b a = some m₃ := by
    rw [elemAddr_eq h.fits (by rw [hsize]; decide), Nat.add_zero] at hm₃
    rw [Strings.strcpy, hm₃]
    rfl
  have honly := (honly₀.trans honly₁).trans honly₂
  exact ⟨m₁, _, m₂, m₃, hm₁, hcat', hcopy', hb₃,
    (honly.mono fun x hx => .inl hx).trans (honly₃.mono fun x hx => .inr hx)⟩

end Build

/-- Whenever the buffers of `intStr` have room, `__int_str` in memory does the same: it returns, with the same
length, the array `b` has the bytes of the buffer, and no byte outside the three arrays has changed. -/
theorem intStr_refines {fr : Locals} {m : Mem} {b base : Nat} (hplaced : fr.Placed m b) (hbase : IsBase base)
    {buf buf' : Buffer} (hb : Holds m b buf) (hsize : buf.length = bufferSize) {i length : Nat} {l : Layout}
    {isNegative : Bool} (hrun : Stdio.intStr i buf base l isNegative = .ok (buf', length)) {fuel : Nat}
    (hfuel : bufferSize ≤ fuel) :
    ∃ m', InMemory.intStr fuel fr m i b base l isNegative = some (m', length) ∧ Holds m' b buf' ∧
      OnlyIn (fun x => Within fr.digit 32 x ∨ Within fr.a bufferSize x ∨ Within b bufferSize x) m m' := by
  have hsize' : bufferSize = 256 := rfl
  obtain ⟨m₁, hm₁, htable, honly₁⟩ := makeDigits_run hplaced hbase (show 16 ≤ fuel by omega)
  have hb₁ : Holds m₁ b buf := hb.frame (by rw [hsize]; exact hplaced.digit_b) honly₁
  obtain ⟨hradix, hdigits⟩ := digitTable_length hbase
  have hradix' := hbase.radix
  have hbase' : (if base = 17 then 16 else base) = radix base := rfl
  have htable_b : Apart b bufferSize fr.digit (digitTable base).length := by
    have := hplaced.digit_b
    unfold Apart at this ⊢
    omega
  simp only [Stdio.intStr, hbase'] at hrun
  simp only [InMemory.intStr, hbase', hm₁, Option.bind_eq_bind, Option.bind_some]
  obtain ⟨buf₂, hsign, hrun⟩ := ok_of_bind hrun
  obtain ⟨buf₃, hput, hrun⟩ := ok_of_bind hrun
  obtain ⟨buf₄, hfill, hrun⟩ := ok_of_bind hrun
  obtain ⟨n, hlen, hrun⟩ := ok_of_bind hrun
  obtain ⟨m₄, hm₄, hb₄, hlength₄, honly₄⟩ := hb₁.putNumber hsize htable hradix (by omega) htable_b
    (sign_small l isNegative) hsign hput hfill hfuel
  obtain ⟨hstrlen, -⟩ := hb₄.strlen hlen (show _ ≤ fuel by omega)
  have honly : OnlyIn (fun x => Within fr.digit 32 x ∨ Within fr.a bufferSize x ∨ Within b bufferSize x) m m₄ :=
    (honly₁.mono fun x hx => .inl hx).trans (honly₄.mono fun x hx => .inr (.inr hx))
  rw [hm₄, Option.bind_some, hstrlen, Option.bind_some]
  cases hjust : l.leftJustify with
  | true =>
    rw [hjust, if_pos rfl] at hrun
    obtain ⟨buf₅, hpad, hrun⟩ := ok_of_bind hrun
    cases hrun
    obtain ⟨m₅, hm₅, hb₅, -, honly₅⟩ := hb₄.padLoop (padChar_small l) hpad (show _ ≤ fuel by omega)
    rw [hlength₄] at honly₅
    rw [if_pos rfl, hm₅]
    exact ⟨m₅, rfl, hb₅, honly.trans (honly₅.mono fun x hx => .inr (.inr hx))⟩
  | false =>
    rw [hjust, if_neg (by decide)] at hrun
    obtain ⟨a₁, hpad, hrun⟩ := ok_of_bind hrun
    obtain ⟨a₂, hcat, hrun⟩ := ok_of_bind hrun
    obtain ⟨buf₅, hcopy, hrun⟩ := ok_of_bind hrun
    cases hrun
    obtain ⟨m₅, r, m₆, m₇, hm₅, hm₆, hm₇, hb₇, honly₇⟩ := hb₄.padBefore hlength₄ hplaced.a_fits hplaced.a_b
      (padChar_small l) hpad hcat hcopy hfuel
    refine ⟨m₇, ?_, hb₇, honly.trans (honly₇.mono fun x hx => .inr hx)⟩
    rw [hsize'] at hm₅
    rw [if_neg (by decide), hm₅, Option.bind_some, hm₆, Option.bind_some, hm₇]
    rfl

/-- The literals from 16 on, the rest zeroed. -/
def literalMem : Mem := fun x =>
  (stringBytes ("0123456789".toList ++ nul :: "ABCDEF".toList ++ nul :: "abcdef".toList)).getD (x - 16) 0

def literalLocals : Locals := ⟨1024, 2048, 16, 27, 34⟩

theorem literalLocals_placed : literalLocals.Placed literalMem 4096 where
  decimal := ⟨by simp [Strings.NonZero, stringBytes, charByte], by decide, by decide⟩
  upper := ⟨by simp [Strings.NonZero, stringBytes, charByte], by decide, by decide⟩
  lower := ⟨by simp [Strings.NonZero, stringBytes, charByte], by decide, by decide⟩
  decimal_apart := by decide
  upper_apart := by decide
  lower_apart := by decide
  digit_fits := by decide
  a_fits := by decide
  digit_b := by decide
  a_b := by decide

theorem literalMem_zero : Holds literalMem 4096 zeroBuffer where
  bytes i hi := by
    rw [literalMem, List.getD_eq_default _ _ (by
      change 24 ≤ 4096 + i - 16
      omega), zeroBuffer, List.getD_replicate nul (by simpa [zeroBuffer] using hi)]
    rfl
  fits := by
    rw [zeroBuffer, List.length_replicate]
    decide

/-- `-255` in six characters, in lower-case hexadecimal. -/
theorem intStr_refines_minus_ff : ∃ m',
    InMemory.intStr bufferSize literalLocals literalMem 255 4096 17 ⟨false, false, 6, false, false⟩ true = some (m', 2) ∧
      Holds m' 4096 (holding "   -ff".toList) := by
  obtain ⟨m', hm', hb', -⟩ := intStr_refines literalLocals_placed (.inr (.inr (.inr rfl))) literalMem_zero
    List.length_replicate (show Stdio.intStr 255 zeroBuffer 17 ⟨false, false, 6, false, false⟩ true =
      .ok (holding "   -ff".toList, 2) by decide +kernel)
    (Nat.le_refl bufferSize)
  exact ⟨m', hm', hb'⟩

end NyaOS.Stdio.InMemory
