import NyaOS.Library.ByteMemory

/-! `memmove` of `libc/string`: two loops that copy byte by byte inside one memory, where the
source and the destination may overlap. -/
namespace NyaOS.Strings
open Library.ByteMemory

/-- The address of `p[i]`. -/
def elemAddr (p i : Nat) : Nat := (p + i) % 2 ^ 64

/-- `dst[i] = src[i]` -/
def copyByte (dst src i : Nat) (m : Mem) : Mem :=
  Function.update m (elemAddr dst i) (m (elemAddr src i))

/-- `for (i = 0; i < size; ++i)`, with `n` turns left. -/
def copyUp (dst src : Nat) : Nat → Nat → Mem → Mem
  | 0, _, m => m
  | n + 1, i, m => copyUp dst src n (i + 1) (copyByte dst src i m)

/-- `for (i = size; i != 0; --i)` -/
def copyDown (dst src : Nat) : Nat → Mem → Mem
  | 0, m => m
  | i + 1, m => copyDown dst src i (copyByte dst src i m)

/-- Returns `dstptr` and the memory. -/
def memmove (m : Mem) (dst src size : Nat) : Nat × Mem :=
  if dst < src then (dst, copyUp dst src size 0 m) else (dst, copyDown dst src size m)

/-- The bytes `lo` to `hi` have been copied from the memory as it was, and nothing else has
changed. -/
structure Moved (dst src lo hi : Nat) (m m' : Mem) : Prop where
  copied : ∀ i, lo ≤ i → i < hi → m' (dst + i) = m (src + i)
  frame : ∀ x, ¬ (dst + lo ≤ x ∧ x < dst + hi) → m' x = m x

section Loops
variable {dst src size : Nat} {m m' : Mem}

theorem elemAddr_eq {p i : Nat} (h : p + size ≤ 2 ^ 64) (hi : i < size) : elemAddr p i = p + i :=
  Nat.mod_eq_of_lt (by omega)

theorem moved_none (dst src i : Nat) (m : Mem) : Moved dst src i i m m where
  copied := by omega
  frame _ _ := rfl

variable (hdst : dst + size ≤ 2 ^ 64) (hsrc : src + size ≤ 2 ^ 64)
include hdst hsrc

/-- One more byte, next to the bytes copied so far. Its source is not one of them. -/
theorem Moved.copyByte {lo hi lo' hi' i : Nat} (h : Moved dst src lo hi m m')
    (his : i < size)
    (hjoin : ∀ j, lo' ≤ j ∧ j < hi' ↔ lo ≤ j ∧ j < hi ∨ j = i)
    (hsource : ¬ (dst + lo ≤ src + i ∧ src + i < dst + hi)) :
    Moved dst src lo' hi' m (Strings.copyByte dst src i m') := by
  rw [Strings.copyByte, elemAddr_eq hdst his, elemAddr_eq hsrc his, h.frame _ hsource]
  constructor
  · intro j hlo hhi
    by_cases hji : j = i
    · rw [hji, Function.update_self]
    · rw [Function.update_of_ne (by omega)]
      have := (hjoin j).mp ⟨hlo, hhi⟩
      exact h.copied j (by omega) (by omega)
  · intro x hx
    have hxi : x ≠ dst + i := by
      rintro rfl
      have := (hjoin i).mpr (Or.inr rfl)
      exact hx (by omega)
    rw [Function.update_of_ne hxi]
    apply h.frame
    intro hin
    have := (hjoin (x - dst)).mpr (Or.inl (by omega))
    exact hx (by omega)

/-- Upwards, each byte is read before the loop gets to it: the source lies above. -/
theorem copyUp_moved (hlt : dst < src) (n i : Nat) (hn : i + n = size)
    (h : Moved dst src 0 i m m') : Moved dst src 0 size m (copyUp dst src n i m') := by
  induction n generalizing i m' with
  | zero => exact hn ▸ h
  | succ n ih =>
    apply ih (i + 1) (by omega)
    exact h.copyByte hdst hsrc (by omega) (by omega) (by omega)

/-- Downwards, the source lies below or is the destination itself. -/
theorem copyDown_moved (hle : src ≤ dst) (i : Nat) (hi : i ≤ size)
    (h : Moved dst src i size m m') : Moved dst src 0 size m (copyDown dst src i m') := by
  induction i generalizing m' with
  | zero => exact h
  | succ i ih =>
    apply ih (by omega)
    exact h.copyByte hdst hsrc (by omega) (by omega) (by omega)

end Loops

/-- `memmove` copies the source as it was, whatever the overlap, and writes nothing else. -/
theorem memmove_moves (m : Mem) {dst src size : Nat} (hdst : dst + size ≤ 2 ^ 64)
    (hsrc : src + size ≤ 2 ^ 64) :
    (∀ i < size, (memmove m dst src size).2 (dst + i) = m (src + i)) ∧
      (∀ x, ¬ (dst ≤ x ∧ x < dst + size) → (memmove m dst src size).2 x = m x) ∧
      (memmove m dst src size).1 = dst := by
  have hmoved : Moved dst src 0 size m (memmove m dst src size).2 ∧
      (memmove m dst src size).1 = dst := by
    unfold memmove
    split
    · next hlt => exact ⟨copyUp_moved hdst hsrc hlt size 0 (by omega) (moved_none dst src 0 m), rfl⟩
    · next hlt =>
      exact ⟨copyDown_moved hdst hsrc (by omega) size (by omega) (moved_none dst src size m), rfl⟩
  exact ⟨fun i hi => hmoved.1.copied i (by omega) hi, hmoved.1.frame, hmoved.2⟩

/-- Four bytes moved up by two, over the last two of them. -/
theorem memmove_overlapping :
    (memmove (fun x => BitVec.ofNat 8 x) 102 100 4).2 (102 + 3) = BitVec.ofNat 8 (100 + 3) :=
  (memmove_moves (fun x => BitVec.ofNat 8 x) (by decide) (by decide)).1 3 (by decide)

end NyaOS.Strings
