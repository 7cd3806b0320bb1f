import NyaOS.Library.Numeral

/-! `__int_str`: the text of an integer, built in a 256-byte buffer that the caller has
zeroed. Buffers keep their length; an access outside one ends the run. -/
namespace NyaOS.Stdio
open NyaOS.Library.Numeral

/-- What a run can end in instead of returning: a read of the format behind the memory
that is mapped, or an access outside a buffer. -/
inductive Fault where
  | unmapped | overrun
deriving DecidableEq

def nul : Char := Char.ofNat 0

abbrev Buffer := List Char

def bufferSize : Nat := 256

/-- `memset(b, 0, 256)` -/
def zeroBuffer : Buffer := List.replicate bufferSize nul

def put (b : Buffer) (k : Nat) (c : Char) : Except Fault Buffer :=
  if k < b.length then .ok (b.set k c) else .error .overrun

def strlen : Buffer → Except Fault Nat
  | [] => .error .overrun
  | c :: cs => if c = nul then .ok 0 else (strlen cs).map (· + 1)

/-- The copying loop that `strcpy` and `strcat` share, from `dst + k` on. -/
def copyTo (dst : Buffer) (k : Nat) : Buffer → Except Fault Buffer
  | [] => .error .overrun
  | c :: cs => do
    let dst ← put dst k c
    if c = nul then .ok dst else copyTo dst (k + 1) cs

def strcpy (dst src : Buffer) : Except Fault Buffer := copyTo dst 0 src

def strcat (dst src : Buffer) : Except Fault Buffer := do
  copyTo dst (← strlen dst) src

/-- C's conversion to `int`. -/
def toInt32 (x : Int) : Int := x.bmod (2 ^ 32)

/-- The table `digit`; base 17 asks for lower case. -/
def digitTable (base : Nat) : List Char :=
  if base = 16 then "0123456789ABCDEF".toList
  else if base = 17 then "0123456789abcdef".toList
  else "0123456789".toList

/-- The first loop: a 64-bit value has at most 64 digits. -/
def countDigits (base : Nat) : Nat → Nat → Nat
  | 0, _ => 0
  | fuel + 1, shifter =>
    if shifter / base = 0 then 1 else countDigits base fuel (shifter / base) + 1

/-- The second loop writes the digits backwards from `b + p`. -/
def fillDigits (digit : List Char) (base : Nat) : Buffer → Nat → Nat → Except Fault Buffer
  | _, 0, _ => .error .overrun
  | b, p + 1, i => do
    let b ← put b p (digit.getD (i % base) nul)
    if i / base = 0 then .ok b else fillDigits digit base b p (i / base)

/-- `while (padding--)` -/
def padLoop (c : Char) : Nat → Buffer → Except Fault Buffer
  | 0, b => .ok b
  | n + 1, b => do
    let b ← put b (← strlen b) c
    padLoop c n b

/-- The flags and the width that `vprintf` hands on. -/
structure Layout where
  plusSign : Bool
  spaceNoSign : Bool
  lengthSpec : Int
  leftJustify : Bool
  zeroPad : Bool

def Layout.padChar (l : Layout) : Char := if l.zeroPad then '0' else ' '

/-- The sign character, if one is written. -/
def Layout.sign (l : Layout) (isNegative : Bool) : List Char :=
  if isNegative then ['-']
  else if l.plusSign then ['+']
  else if l.spaceNoSign then [' ']
  else []

def putSign (b : Buffer) : List Char → Except Fault Buffer
  | [] => .ok b
  | c :: _ => put b 0 c

/-- Returns the buffer and `*length`. -/
def intStr (i : Nat) (b : Buffer) (base : Nat) (l : Layout) (isNegative : Bool) :
    Except Fault (Buffer × Nat) := do
  let digit := digitTable base
  let base := if base = 17 then 16 else base
  let sign := l.sign isNegative
  let b ← putSign b sign
  let length := countDigits base 64 i
  let p := sign.length + length
  let b ← put b p nul
  let b ← fillDigits digit base b p i
  let padding := toInt32 (l.lengthSpec - (← strlen b))
  let padding := if padding < 0 then 0 else padding
  if l.leftJustify then
    let b ← padLoop l.padChar padding.toNat b
    return (b, length)
  else
    let a ← padLoop l.padChar padding.toNat zeroBuffer
    let a ← strcat a b
    let b ← strcpy b a
    return (b, length)

@[simp] theorem ok_bind {α β : Type} (a : α) (f : α → Except Fault β) :
    (Except.ok a >>= f) = f a := rfl

@[simp] theorem error_bind {α β : Type} (e : Fault) (f : α → Except Fault β) :
    (Except.error e >>= f) = .error e := rfl

/-! Buffers that hold a text followed by zeros. -/

def holding (s : List Char) : Buffer := s ++ List.replicate (bufferSize - s.length) nul

def NoNul (s : List Char) : Prop := ∀ c ∈ s, c ≠ nul

instance (s : List Char) : Decidable (NoNul s) := List.decidableBAll (fun c => c ≠ nul) s

theorem NoNul.append {s t : List Char} (hs : NoNul s) (ht : NoNul t) : NoNul (s ++ t) :=
  List.forall_mem_append.mpr ⟨hs, ht⟩

theorem noNul_replicate {c : Char} (h : c ≠ nul) (n : Nat) : NoNul (List.replicate n c) := by
  intro d hd
  rw [List.eq_of_mem_replicate hd]
  exact h

theorem length_holding {s : List Char} (h : s.length ≤ bufferSize) :
    (holding s).length = bufferSize := by
  rw [holding, List.length_append, List.length_replicate]
  omega

theorem holding_nil : holding [] = zeroBuffer := rfl

/-- A text shorter than the buffer is followed by a zero. -/
theorem holding_eq {s : List Char} (h : s.length < bufferSize) :
    holding s = s ++ nul :: List.replicate (bufferSize - s.length - 1) nul := by
  rw [holding, ← List.replicate_succ]
  congr 2
  omega

theorem put_middle (pre post : List Char) (x c : Char) :
    put (pre ++ x :: post) pre.length c = .ok (pre ++ c :: post) := by
  rw [put, if_pos (by simp), List.set_append_right _ _ (Nat.le_refl _), Nat.sub_self, List.set_cons_zero]

theorem put_end {s : List Char} (h : s.length < bufferSize) (c : Char) :
    put (holding s) s.length c = .ok (holding (s ++ [c])) := by
  rw [holding_eq h, put_middle, holding, List.length_append, List.length_singleton]
  simp [Nat.sub_sub]

theorem strlen_text {s : List Char} (hs : NoNul s) (post : List Char) :
    strlen (s ++ nul :: post) = .ok s.length := by
  induction s with
  | nil => rfl
  | cons c s ih =>
    obtain ⟨hc, hs⟩ := List.forall_mem_cons.mp hs
    rw [List.cons_append, strlen, if_neg hc, ih hs]
    rfl

theorem strlen_unterminated {s : List Char} (hs : NoNul s) : strlen s = .error .overrun := by
  induction s with
  | nil => rfl
  | cons c s ih =>
    obtain ⟨hc, hs⟩ := List.forall_mem_cons.mp hs
    rw [strlen, if_neg hc, ih hs]
    rfl

theorem copyTo_text {t : List Char} (ht : NoNul t) (pre mid post junk : List Char)
    (hm : mid.length = t.length + 1) :
    copyTo (pre ++ mid ++ post) pre.length (t ++ nul :: junk) = .ok (pre ++ t ++ nul :: post) := by
  induction t generalizing pre mid with
  | nil =>
    obtain ⟨x, rfl⟩ := List.length_eq_one_iff.mp hm
    rw [List.append_assoc, List.nil_append, copyTo, List.singleton_append, put_middle]
    simp
  | cons c t ih =>
    obtain ⟨hc, ht⟩ := List.forall_mem_cons.mp ht
    obtain ⟨x, mid, rfl⟩ := List.exists_cons_of_length_eq_add_one hm
    have hmid : mid.length = t.length + 1 := by simpa using hm
    have := ih ht (pre ++ [c]) mid hmid
    rw [List.append_assoc, List.cons_append, List.cons_append, copyTo, put_middle]
    simp only [ok_bind, if_neg hc]
    simpa using this

theorem copyTo_overrun {t : List Char} (ht : NoNul t) (dst junk : List Char) (k : Nat)
    (h : dst.length ≤ k + t.length) :
    copyTo dst k (t ++ nul :: junk) = .error .overrun := by
  induction t generalizing dst k with
  | nil =>
    have hk : ¬ k < dst.length := by simpa using h
    rw [List.nil_append, copyTo, put, if_neg hk]
    rfl
  | cons c t ih =>
    obtain ⟨hc, ht⟩ := List.forall_mem_cons.mp ht
    rw [List.cons_append, copyTo, put]
    split
    · simp only [ok_bind]
      apply ih ht
      rw [List.length_set]
      simp only [List.length_cons] at h
      omega
    · rfl

theorem padLoop_run {c : Char} (hc : c ≠ nul) (n : Nat) {s : List Char} (hs : NoNul s)
    (h : s.length + n ≤ bufferSize) :
    padLoop c n (holding s) = .ok (holding (s ++ List.replicate n c)) := by
  induction n generalizing s with
  | zero => simp [padLoop]
  | succ n ih =>
    have hlt : s.length < bufferSize := by omega
    rw [padLoop, holding_eq hlt, strlen_text hs, ← holding_eq hlt]
    simp only [ok_bind, put_end hlt]
    rw [ih (hs.append (List.forall_mem_singleton.mpr hc)) (by simp; omega), List.append_assoc,
      List.singleton_append, ← List.replicate_succ]

theorem padLoop_overrun {c : Char} (hc : c ≠ nul) (n : Nat) {s : List Char} (hs : NoNul s)
    (hle : s.length ≤ bufferSize) (h : bufferSize < s.length + n) :
    padLoop c n (holding s) = .error .overrun := by
  induction n generalizing s with
  | zero => omega
  | succ n ih =>
    rcases Nat.lt_or_ge s.length bufferSize with hlt | hge
    · rw [padLoop, holding_eq hlt, strlen_text hs, ← holding_eq hlt]
      simp only [ok_bind, put_end hlt]
      exact ih (hs.append (List.forall_mem_singleton.mpr hc)) (by simp; omega) (by simp; omega)
    · have hfull : holding s = s := by
        rw [holding, Nat.sub_eq_zero_of_le hge, List.replicate_zero, List.append_nil]
      rw [padLoop, hfull, strlen_unterminated hs]
      rfl

theorem countDigits_eq {digit : Nat → Char} {base fuel n : Nat} (hb : 1 < base) (hf : 0 < fuel)
    (h : n < base ^ fuel) : countDigits base fuel n = (numeral digit base n).length := by
  induction fuel generalizing n with
  | zero => omega
  | succ fuel ih =>
    by_cases hlt : n < base
    · rw [countDigits, if_pos (Nat.div_eq_of_lt hlt), numeral_of_lt hlt, List.length_singleton]
    · have hq : n / base ≠ 0 := Nat.div_ne_zero_iff.mpr ⟨by omega, by omega⟩
      have hlt' : n / base < base ^ fuel := by
        apply Nat.div_lt_of_lt_mul
        rwa [Nat.pow_succ, Nat.mul_comm] at h
      have hf' : 0 < fuel := by
        rcases Nat.eq_zero_or_pos fuel with rfl | hf'
        · rw [Nat.pow_zero] at hlt'
          exact absurd (Nat.lt_one_iff.mp hlt') hq
        · exact hf'
      have hle : base ≤ n := Nat.le_of_not_lt hlt
      rw [countDigits, if_neg hq, ih hf' hlt', numeral_of_le (n := n) hb hle, List.length_append,
        List.length_singleton]

/-- The backward loop replaces as many characters as the numeral has. -/
theorem fillDigits_run {digit : List Char} {base n : Nat} (hb : 1 < base)
    (pre mid post : List Char)
    (hm : mid.length = (numeral (fun d => digit.getD d nul) base n).length) :
    fillDigits digit base (pre ++ mid ++ post) (pre.length + mid.length) n =
      .ok (pre ++ numeral (fun d => digit.getD d nul) base n ++ post) := by
  induction n using Nat.strongRecOn generalizing mid post with
  | ind n ih =>
    by_cases hlt : n < base
    · rw [numeral_of_lt hlt] at hm ⊢
      obtain ⟨x, rfl⟩ := List.length_eq_one_iff.mp hm
      rw [List.length_singleton, fillDigits, List.append_assoc, List.singleton_append, put_middle]
      simp [Nat.div_eq_of_lt hlt, Nat.mod_eq_of_lt hlt]
    · have hq : n / base ≠ 0 := Nat.div_ne_zero_iff.mpr ⟨by omega, by omega⟩
      rw [numeral_of_le hb (by omega), List.length_append, List.length_singleton] at hm
      obtain ⟨mid, x, rfl⟩ : ∃ mid' x, mid = mid' ++ [x] := by
        have hne : mid ≠ [] := List.ne_nil_of_length_pos (by omega)
        exact ⟨_, _, (List.dropLast_append_getLast hne).symm⟩
      have hmid : mid.length = (numeral (fun d => digit.getD d nul) base (n / base)).length := by
        simpa using hm
      have hput : put (pre ++ (mid ++ [x]) ++ post) (pre.length + mid.length)
          (digit.getD (n % base) nul) =
          .ok (pre ++ mid ++ digit.getD (n % base) nul :: post) := by
        have := put_middle (pre ++ mid) post x (digit.getD (n % base) nul)
        simpa using this
      rw [List.length_append, List.length_singleton, ← Nat.add_assoc, fillDigits, hput]
      simp only [ok_bind, if_neg hq]
      rw [ih _ (Nat.div_lt_self (by omega) hb) mid _ hmid, numeral_of_le (n := n) hb (by omega)]
      simp

/-! The text that `__int_str` is to build. -/

def radix (base : Nat) : Nat := if base = 17 then 16 else base

def numeralOf (base i : Nat) : List Char :=
  numeral (fun d => (digitTable base).getD d nul) (radix base) i

/-- Sign and digits. -/
def Layout.text (l : Layout) (base : Nat) (isNegative : Bool) (i : Nat) : List Char :=
  l.sign isNegative ++ numeralOf base i

/-- How many padding characters the width asks for. -/
def Layout.padding (l : Layout) (text : List Char) : Nat := (toInt32 (l.lengthSpec - text.length)).toNat

/-- The whole field: the text, padded behind when left-justified and in front otherwise. -/
def Layout.field (l : Layout) (text : List Char) : List Char :=
  if l.leftJustify then text ++ List.replicate (l.padding text) l.padChar
  else List.replicate (l.padding text) l.padChar ++ text

/-- A right-justified field is copied with its terminator, a left-justified one is not. -/
def Layout.limit (l : Layout) : Nat := if l.leftJustify then bufferSize else bufferSize - 1

/-- The bases `vprintf` uses; 17 stands for lower-case hexadecimal. -/
def IsBase (base : Nat) : Prop := base = 8 ∨ base = 10 ∨ base = 16 ∨ base = 17

theorem IsBase.radix {base : Nat} (h : IsBase base) : 8 ≤ radix base ∧ radix base ≤ 16 := by
  rcases h with rfl | rfl | rfl | rfl <;> decide

theorem IsBase.digit_ne_nul {base d : Nat} (h : IsBase base) (hd : d < NyaOS.Stdio.radix base) :
    (digitTable base).getD d nul ≠ nul := by
  rcases h with rfl | rfl | rfl | rfl <;> revert d <;> decide

theorem noNul_numeralOf {base : Nat} (h : IsBase base) (i : Nat) : NoNul (numeralOf base i) := by
  intro c hc
  obtain ⟨d, hd, rfl⟩ := of_mem_numeral (by have := h.radix; omega) hc
  exact h.digit_ne_nul hd

theorem length_numeralOf {base i : Nat} (h : IsBase base) (hi : i < 2 ^ 64) :
    (numeralOf base i).length ≤ 22 := by
  have hr := h.radix
  apply length_numeral_le (by omega) (by decide)
  calc
    i < 8 ^ 22 := by omega
    _ ≤ NyaOS.Stdio.radix base ^ 22 := Nat.pow_le_pow_left hr.1 22

theorem Layout.padChar_ne_nul (l : Layout) : l.padChar ≠ nul := by
  unfold Layout.padChar
  split <;> decide

theorem Layout.sign_cases (l : Layout) (isNegative : Bool) :
    l.sign isNegative = [] ∨ ∃ c, l.sign isNegative = [c] ∧ c ≠ nul := by
  unfold Layout.sign
  split
  · exact Or.inr ⟨'-', rfl, by decide⟩
  · split
    · exact Or.inr ⟨'+', rfl, by decide⟩
    · split
      · exact Or.inr ⟨' ', rfl, by decide⟩
      · exact Or.inl rfl

theorem Layout.noNul_sign (l : Layout) (isNegative : Bool) : NoNul (l.sign isNegative) := by
  rcases l.sign_cases isNegative with h | ⟨c, h, hc⟩
  · rw [h]
    exact List.forall_mem_nil _
  · rw [h]
    exact List.forall_mem_singleton.mpr hc

theorem Layout.length_sign (l : Layout) (isNegative : Bool) : (l.sign isNegative).length ≤ 1 := by
  rcases l.sign_cases isNegative with h | ⟨c, h, -⟩ <;> simp [h]

theorem Layout.noNul_text (l : Layout) {base : Nat} (h : IsBase base) (isNegative : Bool) (i : Nat) :
    NoNul (l.text base isNegative i) :=
  (l.noNul_sign isNegative).append (noNul_numeralOf h i)

theorem Layout.length_text (l : Layout) {base i : Nat} (h : IsBase base) (hi : i < 2 ^ 64)
    (isNegative : Bool) : (l.text base isNegative i).length ≤ 23 := by
  have hdigits := length_numeralOf h hi
  have hsign := l.length_sign isNegative
  rw [Layout.text, List.length_append]
  omega

private theorem sign_written (l : Layout) (isNegative : Bool) :
    putSign zeroBuffer (l.sign isNegative) = .ok (holding (l.sign isNegative)) := by
  rcases l.sign_cases isNegative with h | ⟨c, h, -⟩
  · rw [h, holding_nil, putSign]
  · have hput := put_end (s := []) (by decide) c
    rw [holding_nil] at hput
    rw [h]
    exact hput

private theorem put_nul {s : List Char} {p : Nat} (hs : s.length ≤ p) (hp : p < bufferSize) :
    put (holding s) p nul = .ok (holding s) := by
  have hsplit : holding s = (s ++ List.replicate (p - s.length) nul) ++
      nul :: List.replicate (bufferSize - p - 1) nul := by
    rw [holding, List.append_assoc, ← List.replicate_succ, List.replicate_append_replicate]
    congr 2
    omega
  have hlen : (s ++ List.replicate (p - s.length) nul).length = p := by
    rw [List.length_append, List.length_replicate]
    omega
  have hrun := put_middle (s ++ List.replicate (p - s.length) nul)
    (List.replicate (bufferSize - p - 1) nul) nul nul
  rwa [hlen, ← hsplit] at hrun

/-- The digits land behind the sign. -/
private theorem digits_written {s : List Char} {base i : Nat} (h : IsBase base)
    (hs : s.length + (numeralOf base i).length ≤ bufferSize) :
    fillDigits (digitTable base) (radix base) (holding s) (s.length + (numeralOf base i).length) i =
      .ok (holding (s ++ numeralOf base i)) := by
  have hsplit : holding s = s ++ List.replicate (numeralOf base i).length nul ++
      List.replicate (bufferSize - (s ++ numeralOf base i).length) nul := by
    rw [holding, List.append_assoc, List.replicate_append_replicate, List.length_append]
    congr 2
    omega
  have hr := h.radix
  have hzeros : (List.replicate (numeralOf base i).length nul).length =
      (numeralOf base i).length := List.length_replicate ..
  have hrun := fillDigits_run (by omega) s (List.replicate (numeralOf base i).length nul)
    (List.replicate (bufferSize - (s ++ numeralOf base i).length) nul) hzeros
  rw [List.length_replicate] at hrun
  rw [hsplit, hrun]
  rfl

/-- Copying a shorter-or-equal text over one that the buffer already holds. -/
private theorem strcpy_holding {s t : List Char} (ht : NoNul t) (hst : s.length ≤ t.length)
    (hlt : t.length < bufferSize) : strcpy (holding s) (holding t) = .ok (holding t) := by
  have hlen := length_holding (s := s) (by omega)
  have hdrop : (holding s).drop (t.length + 1) = List.replicate (bufferSize - t.length - 1) nul := by
    rw [holding, List.drop_append, List.drop_eq_nil_of_le (by omega), List.nil_append,
      List.drop_replicate]
    congr 1
    omega
  have hcopy := copyTo_text ht [] ((holding s).take (t.length + 1)) ((holding s).drop (t.length + 1))
    (List.replicate (bufferSize - t.length - 1) nul) (by rw [List.length_take]; omega)
  rw [List.nil_append, List.take_append_drop, hdrop, ← holding_eq hlt, List.nil_append,
    ← holding_eq hlt] at hcopy
  exact hcopy

/-- The right-justified end of `__int_str`: padding into a second buffer, then two copies. -/
private theorem right_justified {c : Char} (hc : c ≠ nul) {t : List Char} (ht : NoNul t)
    (hlt : t.length < bufferSize) (n : Nat) :
    (do
      let a ← padLoop c n zeroBuffer
      let a ← strcat a (holding t)
      strcpy (holding t) a) =
      if n + t.length ≤ bufferSize - 1 then .ok (holding (List.replicate n c ++ t))
      else .error .overrun := by
  have hpadded := noNul_replicate hc n
  have hlen : (List.replicate n c).length = n := List.length_replicate
  have hb : 0 < bufferSize := by decide
  rw [← holding_nil]
  split
  · next h =>
    have hpad := padLoop_run hc n (List.forall_mem_nil _) (by simp; omega)
    have hnlt : (List.replicate n c).length < bufferSize := by omega
    have hcat : strcat (holding (List.replicate n c)) (holding t) =
        .ok (holding (List.replicate n c ++ t)) := by
      have hcopy := copyTo_text ht (List.replicate n c) (List.replicate (t.length + 1) nul)
        (List.replicate (bufferSize - (n + t.length) - 1) nul)
        (List.replicate (bufferSize - t.length - 1) nul) List.length_replicate
      have hdst : List.replicate n c ++ List.replicate (t.length + 1) nul ++
          List.replicate (bufferSize - (n + t.length) - 1) nul = holding (List.replicate n c) := by
        rw [holding, List.append_assoc, List.replicate_append_replicate, hlen]
        congr 2
        omega
      have hres : List.replicate n c ++ t ++
          nul :: List.replicate (bufferSize - (n + t.length) - 1) nul =
          holding (List.replicate n c ++ t) := by
        rw [holding_eq (by rw [List.length_append]; omega), List.length_append, hlen]
      rw [hdst, hres, hlen, ← holding_eq hlt] at hcopy
      rw [strcat, holding_eq hnlt, strlen_text hpadded, ← holding_eq hnlt, hlen]
      exact hcopy
    rw [hpad, List.nil_append]
    simp only [ok_bind, hcat]
    exact strcpy_holding (hpadded.append ht) (by simp) (by rw [List.length_append]; omega)
  · next h =>
    rcases Nat.lt_or_ge bufferSize n with hn | hn
    · rw [padLoop_overrun hc n (List.forall_mem_nil _) (by simp) (by simpa using hn)]
      rfl
    · rw [padLoop_run hc n (List.forall_mem_nil _) (by simpa using hn), List.nil_append]
      simp only [ok_bind, strcat]
      rcases Nat.lt_or_ge n bufferSize with hlt' | hge
      · rw [holding_eq (by omega), strlen_text hpadded, ← holding_eq (by omega), ok_bind,
          holding_eq hlt, copyTo_overrun ht _ _ _ (by rw [length_holding (by omega)]; omega)]
        rfl
      · have hfull : holding (List.replicate n c) = List.replicate n c := by
          rw [holding, hlen, Nat.sub_eq_zero_of_le hge, List.replicate_zero, List.append_nil]
        rw [hfull, strlen_unterminated hpadded]
        rfl

/-- What `__int_str` leaves in a zeroed buffer: the whole field when it fits, and the
number of digits, which is not the length of the field. -/
theorem intStr_run {base i : Nat} (h : IsBase base) (hi : i < 2 ^ 64) (l : Layout)
    (isNegative : Bool) :
    intStr i zeroBuffer base l isNegative =
      if (l.field (l.text base isNegative i)).length ≤ l.limit then
        .ok (holding (l.field (l.text base isNegative i)), (numeralOf base i).length)
      else .error .overrun := by
  have hr := h.radix
  have hlen := l.length_text h hi isNegative
  have htext : (l.text base isNegative i).length = (l.sign isNegative).length +
      (numeralOf base i).length := List.length_append
  have hsize : bufferSize = 256 := rfl
  have hlt : (l.text base isNegative i).length < bufferSize := by omega
  have hnul := l.noNul_text h isNegative i
  have hcount : countDigits (radix base) 64 i = (numeralOf base i).length :=
    countDigits_eq (by omega) (by decide)
      (Nat.lt_of_lt_of_le hi (Nat.pow_le_pow_left (by omega) 64))
  have hclamp : ∀ x : Int, (if x < 0 then 0 else x).toNat = x.toNat := by
    intro x
    split <;> omega
  have hstrlen : strlen (holding (l.text base isNegative i)) =
      .ok (l.text base isNegative i).length := by
    rw [holding_eq hlt, strlen_text hnul]
  have hput : put (holding (l.sign isNegative))
      ((l.sign isNegative).length + (numeralOf base i).length) nul =
      .ok (holding (l.sign isNegative)) := put_nul (by omega) (by omega)
  have hfill := digits_written (s := l.sign isNegative) (i := i) h (by omega)
  rw [← Layout.text] at hfill
  have hbase : (if base = 17 then 16 else base) = radix base := rfl
  simp only [intStr, sign_written, ok_bind, hbase, hcount, hput, hfill, hstrlen, hclamp]
  rw [← Layout.padding, Layout.field, Layout.limit]
  cases l.leftJustify with
  | true =>
    simp only [if_true, List.length_append, List.length_replicate]
    split
    · next hfit =>
      rw [padLoop_run l.padChar_ne_nul _ hnul hfit]
      rfl
    · next hfit =>
      rw [padLoop_overrun l.padChar_ne_nul _ hnul (by omega) (by omega)]
      rfl
  | false =>
    have hright := right_justified l.padChar_ne_nul hnul hlt (l.padding (l.text base isNegative i))
    simp only [Bool.false_eq_true, if_false, List.length_append, List.length_replicate]
    have hbind := congrArg (fun x => x >>= fun b => .ok (b, (numeralOf base i).length)) hright
    simp only [bind_assoc] at hbind
    refine hbind.trans ?_
    split <;> rfl

end NyaOS.Stdio
