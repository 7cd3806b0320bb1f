import Mathlib.Data.List.TakeWhile
import NyaOS.Stdio.Grammar

/-! Integer directives: the value and the field they ask for, and how much of the field is
displayed. -/
namespace NyaOS.Stdio
open NyaOS.Library.Numeral

/-- The width a directive asks for when `k` arguments have been taken before. -/
def Width.value (env : Env) (k : Nat) : Width → Int
  | .absent => 0
  | .number first rest => (rest.foldl (fun n (d : Fin 10) => n * 10 + d.val) (first.val + 1) : Nat)
  | .star => ((env.word k).setWidth 32).toInt

private theorem digitChar_value (d : Fin 10) :
    ((digitChar d).toNat : Int) - ('0'.toNat : Int) = d.val := by
  revert d
  decide

private theorem bmod_step (n d : Int) (m : Nat) :
    ((n.bmod m * 10).bmod m + d).bmod m = (n * 10 + d).bmod m := by
  rw [Int.bmod_add_bmod, ← Int.bmod_add_bmod, Int.bmod_mul_bmod, Int.bmod_add_bmod]

theorem number_cons (n : Int) (c : Char) (ds : List Char) :
    number n (c :: ds) =
      number (toInt32 (toInt32 (n * 10) + ((c.toNat : Int) - ('0'.toNat : Int)))) ds := rfl

/-- Digits read in `int` arithmetic give their value, taken to `int`. -/
theorem number_digitsText (n : Nat) (ds : List (Fin 10)) :
    number (toInt32 n) (digitsText ds) =
      toInt32 (ds.foldl (fun n (d : Fin 10) => n * 10 + d.val) n : Nat) := by
  induction ds generalizing n with
  | nil => rw [digitsText, List.map_nil, number, List.foldl_nil, List.foldl_nil]
  | cons d ds ih =>
    have hstep : toInt32 (toInt32 (toInt32 n * 10) + d.val) = toInt32 (n * 10 + d.val : Nat) := by
      have hcast : ((n * 10 + d.val : Nat) : Int) = n * 10 + d.val := by omega
      rw [hcast]
      exact bmod_step n d.val (2 ^ 32)
    change number _ (digitChar d :: digitsText ds) = _
    rw [number_cons, digitChar_value, hstep, ih, List.foldl_cons]

theorem toInt32_of_lt {x : Int} (hlo : -2 ^ 31 ≤ x) (hhi : x < 2 ^ 31) : toInt32 x = x := by
  apply Int.bmod_eq_of_le
  · exact hlo
  · exact hhi

theorem Directive.lengthSpec_eq (d : Directive) (env : Env) (k : Nat)
    (h : d.width.value env k ≤ 200) : (d.conv env k).lengthSpec = d.width.value env k := by
  change starValue env k d.width.isStar (number 0 d.width.digits) = _
  cases hw : d.width with
  | absent => rfl
  | star => rfl
  | number first rest =>
    rw [hw, Width.value] at h
    change number 0 (digitsText (⟨first.val + 1, by omega⟩ :: rest)) = _
    have hnum := number_digitsText 0 (⟨first.val + 1, by omega⟩ :: rest)
    rw [List.foldl_cons, Nat.zero_mul, Nat.zero_add] at hnum
    refine hnum.trans (toInt32_of_lt ?_ ?_)
    · exact le_trans (by decide) (Int.natCast_nonneg _)
    · exact lt_of_le_of_lt h (by decide)

/-- A field of the conversion that only the flag `f` sets. -/
theorem foldl_applyFlag {π : Conv → Bool} {f : Flag}
    (hπ : ∀ cv g, π (applyFlag cv (Flag.char g)) = true ↔ π cv = true ∨ g = f)
    (flags : List Flag) (cv : Conv) :
    π ((flags.map Flag.char).foldl applyFlag cv) = true ↔ π cv = true ∨ f ∈ flags := by
  induction flags generalizing cv with
  | nil => simp
  | cons g flags ih =>
    rw [List.map_cons, List.foldl_cons, ih, hπ, List.mem_cons, or_assoc, eq_comm (a := g)]

section
variable (d : Directive) (env : Env) (k : Nat)

/-- The flags part of the conversion that is dispatched. -/
private def flagged : Conv := (d.flags.map Flag.char).foldl applyFlag .init

private theorem flagged_iff {π : Conv → Bool} {f : Flag}
    (hπ : ∀ cv g, π (applyFlag cv (Flag.char g)) = true ↔ π cv = true ∨ g = f)
    (h0 : π .init = false) : π (flagged d) = true ↔ f ∈ d.flags := by
  have h := foldl_applyFlag hπ d.flags .init
  rw [h0] at h
  simpa [flagged] using h

theorem Directive.plusSign_iff : (d.conv env k).plusSign = true ↔ .plus ∈ d.flags := by
  refine @flagged_iff d Conv.plusSign .plus (fun cv g => ?_) rfl
  cases g <;> simp [applyFlag, setFlag, Flag.char]

theorem Directive.spaceNoSign_iff : (d.conv env k).spaceNoSign = true ↔ .space ∈ d.flags := by
  refine @flagged_iff d Conv.spaceNoSign .space (fun cv g => ?_) rfl
  cases g <;> simp [applyFlag, setFlag, Flag.char]

theorem Directive.altForm_iff : (d.conv env k).altForm = true ↔ .hash ∈ d.flags := by
  refine @flagged_iff d Conv.altForm .hash (fun cv g => ?_) rfl
  cases g <;> simp [applyFlag, setFlag, Flag.char]

end

/-! What an integer directive asks for. -/

def Letter.IsInteger : Letter → Prop
  | .d | .i | .u | .x | .X | .o => True
  | .c | .s | .n => False

/-- The base as `__int_str` is told it, 17 for lower-case hexadecimal. -/
def Letter.base : Letter → Nat
  | .x => 17
  | .X => 16
  | .o => 8
  | _ => 10

/-- What `#` puts in front. -/
def Letter.altPrefix : Letter → List Char
  | .x | .X => ['0', 'x']
  | .o => ['0']
  | _ => []

/-- The width of the type the modifier names. -/
def Modifier.bits : Modifier → Nat
  | .absent => 32
  | .hh => 8
  | .h => 16
  | _ => 64

/-- The argument reduced to its type; `size_t` is unsigned under every letter. -/
def Directive.value (d : Directive) (w : BitVec 64) : Int :=
  match d.letter with
  | .d | .i => if d.modifier = .z then w.toNat else (w.setWidth d.modifier.bits).toInt
  | _ => (w.setWidth d.modifier.bits).toNat

/-- An integer directive with the flags `-`, `+`, space and `0`, without precision, and with a
modifier other than `hh`. -/
structure Directive.IsInteger (d : Directive) : Prop where
  letter : d.letter.IsInteger
  flags : .hash ∉ d.flags
  prec : d.prec = .absent
  modifier : d.modifier ≠ .hh

def digitValue (c : Char) : Nat :=
  if '0' ≤ c ∧ c ≤ '9' then c.toNat - '0'.toNat
  else if 'a' ≤ c ∧ c ≤ 'f' then c.toNat - 'a'.toNat + 10
  else if 'A' ≤ c ∧ c ≤ 'F' then c.toNat - 'A'.toNat + 10
  else 16

/-- Reads a number as far as its digits go. -/
def readNat (r : Nat) (s : List Char) : Nat :=
  read digitValue r (s.takeWhile fun c => digitValue c < r)

/-- Reads an integer back: blanks, a sign, digits. -/
def readInt (r : Nat) (s : List Char) : Int :=
  match s.dropWhile (· == ' ') with
  | '-' :: t => -(readNat r t : Int)
  | '+' :: t => readNat r t
  | t => readNat r t

theorem Letter.isBase_base (l : Letter) : IsBase l.base := by
  cases l <;> simp [Letter.base, IsBase]

theorem digit_properties {base n : Nat} (hb : IsBase base) (hn : n < radix base) :
    digitValue ((digitTable base).getD n nul) = n ∧ (digitTable base).getD n nul ≠ ' ' ∧
      (digitTable base).getD n nul ≠ '-' ∧ (digitTable base).getD n nul ≠ '+' := by
  rcases hb with rfl | rfl | rfl | rfl <;> revert n <;> decide

theorem readNat_numeralOf {base : Nat} (hb : IsBase base) (n : Nat) :
    readNat (radix base) (numeralOf base n) = n := by
  have hr := hb.radix
  have htake : (numeralOf base n).takeWhile (fun c => digitValue c < radix base) =
      numeralOf base n := by
    rw [List.takeWhile_eq_self_iff]
    intro c hc
    obtain ⟨d, hd, rfl⟩ := of_mem_numeral (by omega) hc
    rw [(digit_properties hb hd).1]
    exact decide_eq_true hd
  rw [readNat, htake]
  exact read_numeral (by omega) (fun d hd => (digit_properties hb hd).1) n

section
variable {d : Directive}

theorem Directive.action_value (hd : d.letter.IsInteger) (env : Env) (k : Nat) :
    ∃ t f, (d.conv env k).action = .integer t f ∧ ∀ w, f w = d.value w := by
  obtain ⟨flags, width, prec, modifier, letter⟩ := d
  cases letter <;> first | exact absurd hd id | cases modifier
  all_goals exact ⟨_, _, rfl, fun w => by simp [Directive.value, Modifier.bits]⟩

theorem Directive.conv_base (env : Env) (k : Nat) : (d.conv env k).base = d.letter.base := by
  obtain ⟨flags, width, prec, modifier, letter⟩ := d
  cases letter <;> rfl

theorem Directive.value_bounds (d : Directive) (w : BitVec 64) :
    -2 ^ 63 ≤ d.value w ∧ d.value w < 2 ^ 64 := by
  have hbits : d.modifier.bits ≤ 64 := by cases d.modifier <;> decide
  have hlo := BitVec.le_toInt (w.setWidth d.modifier.bits)
  have hhi := (w.setWidth d.modifier.bits).toInt_lt
  have hnat := (w.setWidth d.modifier.bits).isLt
  have hw := w.isLt
  have hpow : 2 ^ d.modifier.bits ≤ 2 ^ 64 := Nat.pow_le_pow_right (by decide) hbits
  have hpow' : (2 : Int) ^ (d.modifier.bits - 1) ≤ 2 ^ 63 :=
    pow_le_pow_right₀ (by decide) (by omega)
  unfold Directive.value
  split
  · split
    · omega
    · omega
  · split
    · omega
    · omega
  · omega

theorem Layout.length_field (l : Layout) (text : List Char) :
    (l.field text).length = text.length + l.padding text := by
  unfold Layout.field
  split <;> rw [List.length_append, List.length_replicate]
  omega

theorem Layout.padding_eq {l : Layout} {text : List Char} (hlo : 0 ≤ l.lengthSpec)
    (hhi : l.lengthSpec < 2 ^ 31) (ht : text.length ≤ 2 ^ 31) :
    l.padding text = (l.lengthSpec - text.length).toNat := by
  rw [Layout.padding, toInt32_of_lt (by omega) (by omega)]

variable {env : Env} {k : Nat}

/-- The field of a directive whose width is at most 200 fits the buffers. -/
theorem Directive.conv_fits (hlo : 0 ≤ d.width.value env k) (hhi : d.width.value env k ≤ 200)
    (w : BitVec 64) : (d.conv env k).fits env w = true := by
  by_cases hd : d.letter.IsInteger
  · obtain ⟨t, f, ha, hf⟩ := Directive.action_value hd env k
    have hv := d.value_bounds w
    have hl : (d.conv env k).layout.lengthSpec = d.width.value env k := d.lengthSpec_eq env k hhi
    have hlen : ((d.conv env k).intText (d.value w)).length ≤ 23 :=
      (d.conv env k).layout.length_text (d.conv env k).isBase_base (by omega) _
    have hpad : (d.conv env k).layout.padding ((d.conv env k).intText (d.value w)) = _ :=
      Layout.padding_eq (by rwa [hl]) (by omega) (by omega)
    have hlimit : 255 ≤ (d.conv env k).layout.limit := by
      unfold Layout.limit bufferSize
      split <;> decide
    rw [Conv.fits, ha]
    dsimp only
    rw [hf, Layout.length_field, hpad, hl]
    exact decide_eq_true (by omega)
  · obtain ⟨flags, width, prec, modifier, letter⟩ := d
    cases letter <;> first | exact absurd trivial hd | (cases modifier <;> rfl)

/-- What is displayed behind the prefix: as many characters of the field as the value has
digits. -/
theorem Directive.shown_eq (hd : d.letter.IsInteger) (w : BitVec 64) :
    (d.conv env k).shown env w = (d.conv env k).altText ++
      ((d.conv env k).layout.field ((d.conv env k).layout.text d.letter.base
        (decide (d.value w < 0)) (d.value w).natAbs)).take
          (numeralOf d.letter.base (d.value w).natAbs).length := by
  obtain ⟨t, f, ha, hf⟩ := Directive.action_value hd env k
  rw [Conv.shown, ha, ← Directive.conv_base env k, ← hf]
  rfl

theorem Directive.altText_eq (d : Directive) (env : Env) (k : Nat) :
    (d.conv env k).altText = if .hash ∈ d.flags then d.letter.altPrefix else [] := by
  have halt : (d.conv env k).altForm = decide (.hash ∈ d.flags) := by
    rw [Bool.eq_iff_iff, d.altForm_iff, decide_eq_true_iff]
  unfold Conv.altText
  by_cases h : .hash ∈ d.flags
  · rw [if_pos h, halt, decide_eq_true h]
    obtain ⟨flags, width, prec, modifier, letter⟩ := d
    cases letter <;> rfl
  · rw [if_neg h, halt, decide_eq_false h]
    obtain ⟨flags, width, prec, modifier, letter⟩ := d
    cases letter <;> rfl

/-- A text that fills the width is its own field. -/
theorem Layout.field_eq_text {l : Layout} {text : List Char} (hlo : 0 ≤ l.lengthSpec)
    (hhi : l.lengthSpec ≤ 200) (ht : text.length ≤ 200) (h : l.lengthSpec ≤ text.length) :
    l.field text = text := by
  have hpad : l.padding text = 0 := by
    rw [Layout.padding_eq hlo (by omega) (by omega)]
    omega
  rw [Layout.field, hpad, List.replicate_zero, List.append_nil, List.nil_append, ite_self]

end

section
variable {env : Env} {before : List Item} {behind : List Char} {s : Cursor} {p : Progress}
  {d : Directive}

end

end NyaOS.Stdio
