import Mathlib.Data.Int.Order.Basic
import Mathlib.Tactic.Common

/-! `memcmp`, `strcmp` and `strncmp` of `libc/string`. A pointer is the bytes from there to the end
of its object; a read behind them has no result. The comparisons of strings go by `char`, which is
signed here, the comparison of memory by `unsigned char`. -/
namespace NyaOS.Strings

abbrev Byte := BitVec 8

def memcmp : List Byte → List Byte → Nat → Option Int
  | _, _, 0 => some 0
  | x :: xs, y :: ys, size + 1 =>
    if x < y then some (-1) else if y < x then some 1 else memcmp xs ys size
  | _, _, _ => none

def strcmp : List Byte → List Byte → Option Int
  | x :: xs, y :: ys => if x ≠ 0 ∧ x = y then strcmp xs ys else some (x.toInt - y.toInt)
  | _, _ => none

def strncmp : List Byte → List Byte → Nat → Option Int
  | _, _, 0 => some 0
  | x :: xs, y :: ys, n + 1 =>
    if x ≠ y then some (x.toInt - y.toInt) else if x = 0 then some 0 else strncmp xs ys n
  | _, _, _ => none

def NonZero (s : List Byte) : Prop := ∀ b ∈ s, b ≠ 0

/-- A string in memory: its text, the terminator and what comes behind. -/
structure CString where
  text : List Byte
  after : List Byte
  nonZero : NonZero text

def CString.bytes (s : CString) : List Byte := s.text ++ 0 :: s.after

/-- The smaller length. -/
def shorter (a b : CString) : Nat := min a.text.length b.text.length

/-- Both comparisons of strings have the sign that `memcmp` returns. -/
structure OneOrder (a b : CString) : Prop where
  whole : ∃ r, strcmp a.bytes b.bytes = some r ∧
    memcmp a.bytes b.bytes (shorter a b + 1) = some r.sign
  counted : ∀ n, ∃ r, strncmp a.bytes b.bytes n = some r ∧
    memcmp a.bytes b.bytes (min n (shorter a b + 1)) = some r.sign

/-- The strings differ first behind `p`, in the bytes `x` and `y`. -/
structure DifferAt (a b : CString) (p : List Byte) (x y : Byte) : Prop where
  left : ∃ xs, a.bytes = p ++ x :: xs
  right : ∃ ys, b.bytes = p ++ y :: ys
  common : NonZero p
  ne : x ≠ y
  inside : p.length ≤ shorter a b

section Common
variable {p s t : List Byte}

theorem memcmp_append (p s t : List Byte) (n : Nat) :
    memcmp (p ++ s) (p ++ t) (p.length + n) = memcmp s t n := by
  induction p with
  | nil => rw [List.nil_append, List.nil_append, List.length_nil, Nat.zero_add]
  | cons x p ih =>
    rw [List.length_cons, Nat.add_right_comm, List.cons_append, List.cons_append, memcmp,
      if_neg (BitVec.lt_irrefl x), if_neg (BitVec.lt_irrefl x), ih]

theorem memcmp_common {n : Nat} (h : n ≤ p.length) : memcmp (p ++ s) (p ++ t) n = some 0 := by
  have htake := memcmp_append (p.take n) (p.drop n ++ s) (p.drop n ++ t) 0
  rwa [← List.append_assoc, ← List.append_assoc, List.take_append_drop, List.length_take,
    Nat.min_eq_left h, Nat.add_zero, memcmp] at htake

theorem strcmp_append (hp : NonZero p) : strcmp (p ++ s) (p ++ t) = strcmp s t := by
  induction p with
  | nil => rfl
  | cons x p ih =>
    obtain ⟨hx, hp⟩ := List.forall_mem_cons.mp hp
    rw [List.cons_append, List.cons_append, strcmp, if_pos ⟨hx, rfl⟩, ih hp]

theorem strncmp_append (hp : NonZero p) (n : Nat) :
    strncmp (p ++ s) (p ++ t) (p.length + n) = strncmp s t n := by
  induction p with
  | nil => rw [List.nil_append, List.nil_append, List.length_nil, Nat.zero_add]
  | cons x p ih =>
    obtain ⟨hx, hp⟩ := List.forall_mem_cons.mp hp
    rw [List.length_cons, Nat.add_right_comm, List.cons_append, List.cons_append, strncmp,
      if_neg (not_not.mpr rfl), if_neg hx, ih hp]

theorem strncmp_common {n : Nat} (hp : NonZero p) (h : n ≤ p.length) :
    strncmp (p ++ s) (p ++ t) n = some 0 := by
  have hfront : NonZero (p.take n) := fun b hb => hp b (List.mem_of_mem_take hb)
  have htake := strncmp_append (s := p.drop n ++ s) (t := p.drop n ++ t) hfront 0
  rwa [← List.append_assoc, ← List.append_assoc, List.take_append_drop, List.length_take,
    Nat.min_eq_left h, Nat.add_zero, strncmp] at htake

end Common

/-- The signed order is the unsigned one for bytes that are both below `0x80` or both not. -/
theorem toInt_lt_iff {x y : Byte} (h : x < y) : x.toInt < y.toInt ↔ x.msb = y.msb := by
  have hx := x.isLt
  have hy := y.isLt
  rw [BitVec.lt_def] at h
  rw [BitVec.toInt_eq_toNat_cond, BitVec.toInt_eq_toNat_cond, BitVec.msb_eq_decide,
    BitVec.msb_eq_decide, decide_eq_decide]
  split <;> split <;> omega

theorem memcmp_sign_iff {x y : Byte} (h : x ≠ y) (xs ys : List Byte) (n : Nat) :
    memcmp (x :: xs) (y :: ys) (n + 1) = some (x.toInt - y.toInt).sign ↔ x.msb = y.msb := by
  rw [memcmp]
  by_cases hlt : x < y
  · rw [if_pos hlt, Option.some_inj, eq_comm, Int.sign_eq_neg_one_iff_neg, ← toInt_lt_iff hlt]
    omega
  · have hgt : y < x := by
      rw [BitVec.lt_def] at hlt ⊢
      have hne : x.toNat ≠ y.toNat := fun he => h (BitVec.eq_of_toNat_eq he)
      omega
    rw [if_neg hlt, if_pos hgt, Option.some_inj, eq_comm, Int.sign_eq_one_iff_pos, Int.sub_pos,
      toInt_lt_iff hgt, eq_comm]

/-- Two strings have the same text, or a first place where they differ. -/
theorem text_eq_or_differAt (a b : CString) : a.text = b.text ∨ ∃ p x y, DifferAt a b p x y := by
  obtain ⟨s, after, hs⟩ := a
  obtain ⟨t, after', ht⟩ := b
  induction s generalizing t with
  | nil =>
    cases t with
    | nil => exact .inl rfl
    | cons y t =>
      obtain ⟨hy, -⟩ := List.forall_mem_cons.mp ht
      exact .inr ⟨[], 0, y, ⟨after, rfl⟩, ⟨_, rfl⟩, List.forall_mem_nil _, hy.symm, Nat.zero_le _⟩
  | cons x s ih =>
    obtain ⟨hx, hs⟩ := List.forall_mem_cons.mp hs
    cases t with
    | nil => exact .inr ⟨[], x, 0, ⟨_, rfl⟩, ⟨after', rfl⟩, List.forall_mem_nil _, hx, Nat.zero_le _⟩
    | cons y t =>
      obtain ⟨-, ht'⟩ := List.forall_mem_cons.mp ht
      by_cases hxy : x = y
      · subst hxy
        rcases ih hs t ht' with h | ⟨p, x', y', ⟨xs, hl⟩, ⟨ys, hr⟩, hp, hne, hlen⟩
        · exact .inl (congrArg (List.cons x) h)
        · refine .inr ⟨x :: p, x', y', ⟨xs, congrArg _ hl⟩, ⟨ys, congrArg _ hr⟩,
            List.forall_mem_cons.mpr ⟨hx, hp⟩, hne, ?_⟩
          simp only [shorter, List.length_cons] at hlen ⊢
          omega
      · exact .inr ⟨[], x, y, ⟨_, rfl⟩, ⟨_, rfl⟩, List.forall_mem_nil _, hxy, Nat.zero_le _⟩

section Order
variable {a b : CString}

/-- Strings of one text are equal for all three, through their terminators. -/
theorem oneOrder_of_text_eq (h : a.text = b.text) : OneOrder a b := by
  have hlen : shorter a b = a.text.length := by rw [shorter, ← h, Nat.min_self]
  have hmem : ∀ n, n ≤ shorter a b + 1 → memcmp a.bytes b.bytes n = some 0 := by
    intro n hn
    have hcommon := memcmp_common (s := a.after) (t := b.after) (p := a.text ++ [0])
      (show n ≤ (a.text ++ [0]).length by rw [List.length_append, ← hlen]; exact hn)
    rw [List.append_assoc, List.append_assoc, List.singleton_append, List.singleton_append] at hcommon
    rwa [CString.bytes, CString.bytes, ← h]
  refine ⟨⟨0, ?_, hmem _ (Nat.le_refl _)⟩, fun n => ⟨0, ?_, hmem _ (Nat.min_le_right _ _)⟩⟩
  · rw [CString.bytes, CString.bytes, ← h, strcmp_append a.nonZero]
    rfl
  · rw [CString.bytes, CString.bytes, ← h]
    rcases Nat.le_total n a.text.length with hn | hn
    · exact strncmp_common a.nonZero hn
    · obtain ⟨k, rfl⟩ := Nat.exists_eq_add_of_le hn
      rw [strncmp_append a.nonZero]
      cases k <;> rfl

variable {p : List Byte} {x y : Byte} (h : DifferAt a b p x y)
include h

theorem DifferAt.strcmp : strcmp a.bytes b.bytes = some (x.toInt - y.toInt) := by
  obtain ⟨xs, hl⟩ := h.left
  obtain ⟨ys, hr⟩ := h.right
  rw [hl, hr, strcmp_append h.common, Strings.strcmp, if_neg fun hxy => h.ne hxy.2]

theorem DifferAt.strncmp {n : Nat} (hn : p.length < n) :
    strncmp a.bytes b.bytes n = some (x.toInt - y.toInt) := by
  obtain ⟨xs, hl⟩ := h.left
  obtain ⟨ys, hr⟩ := h.right
  obtain ⟨k, rfl⟩ := Nat.exists_eq_add_of_lt hn
  rw [hl, hr, Nat.add_assoc, strncmp_append h.common, Strings.strncmp, if_pos h.ne]

theorem DifferAt.memcmp_iff {n : Nat} (hn : p.length < n) :
    memcmp a.bytes b.bytes n = some (x.toInt - y.toInt).sign ↔ x.msb = y.msb := by
  obtain ⟨xs, hl⟩ := h.left
  obtain ⟨ys, hr⟩ := h.right
  obtain ⟨k, rfl⟩ := Nat.exists_eq_add_of_lt hn
  rw [hl, hr, Nat.add_assoc, memcmp_append, memcmp_sign_iff h.ne]

/-- A count that ends before the first difference sees equal bytes. -/
theorem DifferAt.equal_before {n : Nat} (hn : n ≤ p.length) :
    Strings.strncmp a.bytes b.bytes n = some 0 ∧ memcmp a.bytes b.bytes n = some 0 := by
  obtain ⟨xs, hl⟩ := h.left
  obtain ⟨ys, hr⟩ := h.right
  rw [hl, hr]
  exact ⟨strncmp_common h.common hn, memcmp_common hn⟩

theorem DifferAt.order_iff : OneOrder a b ↔ x.msb = y.msb := by
  have hin := h.inside
  constructor
  · intro horder
    obtain ⟨r, hr, hmem⟩ := horder.whole
    rw [h.strcmp, Option.some_inj] at hr
    rw [← hr] at hmem
    exact (h.memcmp_iff (Nat.lt_succ_of_le hin)).mp hmem
  · intro hmsb
    refine ⟨⟨_, h.strcmp, (h.memcmp_iff (Nat.lt_succ_of_le hin)).mpr hmsb⟩, fun n => ?_⟩
    rcases Nat.lt_or_ge p.length n with hn | hn
    · exact ⟨_, h.strncmp hn, (h.memcmp_iff (by omega)).mpr hmsb⟩
    · obtain ⟨hstr, hmem⟩ := h.equal_before hn
      rw [Nat.min_eq_left (by omega)]
      exact ⟨0, hstr, hmem⟩

theorem DifferAt.getElem? : a.bytes[p.length]? = some x ∧ b.bytes[p.length]? = some y := by
  obtain ⟨xs, hl⟩ := h.left
  obtain ⟨ys, hr⟩ := h.right
  rw [hl, hr]
  simp

theorem DifferAt.getElem?_before {j : Nat} (hj : j < p.length) : a.bytes[j]? = b.bytes[j]? := by
  obtain ⟨xs, hl⟩ := h.left
  obtain ⟨ys, hr⟩ := h.right
  rw [hl, hr, List.getElem?_append_left hj, List.getElem?_append_left hj]

end Order

/-- The three comparisons define one order on `a` and `b` exactly if, where the strings first
differ, terminators included, both bytes are below `0x80` or both are not. -/
theorem oneOrder_iff (a b : CString) : OneOrder a b ↔
    ∀ i x y, i ≤ shorter a b → (∀ j < i, a.bytes[j]? = b.bytes[j]?) →
      a.bytes[i]? = some x → b.bytes[i]? = some y → x.msb = y.msb := by
  rcases text_eq_or_differAt a b with heq | ⟨p, x, y, h⟩
  · refine iff_of_true (oneOrder_of_text_eq heq) fun i x y hi _ hx hy => ?_
    rw [shorter, ← heq, Nat.min_self] at hi
    have hsame : a.bytes[i]? = b.bytes[i]? := by
      have hend : i < (a.text ++ [0]).length := by rw [List.length_append]; exact Nat.lt_succ_of_le hi
      rw [CString.bytes, CString.bytes, ← heq, List.append_cons, List.append_cons _ _ b.after,
        List.getElem?_append_left hend, List.getElem?_append_left hend]
    rw [hsame, hy, Option.some_inj] at hx
    rw [hx]
  · obtain ⟨hx, hy⟩ := h.getElem?
    rw [h.order_iff]
    constructor
    · intro hmsb i x' y' _ hbefore hx' hy'
      rcases Nat.lt_trichotomy i p.length with hi | rfl | hi
      · rw [h.getElem?_before hi, hy', Option.some_inj] at hx'
        rw [hx']
      · rw [hx, Option.some_inj] at hx'
        rw [hy, Option.some_inj] at hy'
        rw [← hx', ← hy', hmsb]
      · have heq := hbefore p.length hi
        rw [hx, hy, Option.some_inj] at heq
        exact absurd heq h.ne
    · intro hfirst
      exact hfirst p.length x y h.inside (fun j hj => h.getElem?_before hj) hx hy

/-- A byte of `0x80` is above 1 for `memcmp` and below it for `strcmp`. -/
theorem highByte_disagrees : ∃ a b : CString, a.text = [0x80] ∧ b.text = [0x01] ∧ ¬ OneOrder a b := by
  have hone : ∀ b : Byte, b ≠ 0 → NonZero [b] := fun _ h => List.forall_mem_singleton.mpr h
  refine ⟨⟨[0x80], [], hone _ (by decide)⟩, ⟨[0x01], [], hone _ (by decide)⟩, rfl, rfl, fun h => ?_⟩
  obtain ⟨r, hstr, hmem⟩ := h.whole
  have hr : (-129 : Int) = r := Option.some_inj.mp hstr
  rw [← hr] at hmem
  have hsign : memcmp [0x80, 0] [0x01, 0] 2 = some (-1) := hmem
  exact absurd hsign (by decide)

end NyaOS.Strings
