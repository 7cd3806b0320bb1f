import Mathlib.Algebra.Group.Nat.Defs
import Mathlib.Tactic.Common

/-! Byte-addressed memory with little-endian values of `n` bytes. -/
namespace NyaOS.Library.ByteMemory

abbrev Mem := Nat → BitVec 8

/-- The `n`-byte value at `a`. -/
def load (m : Mem) : Nat → Nat → Nat
  | _, 0 => 0
  | a, n + 1 => (m a).toNat + 256 * load m (a + 1) n

/-- The memory with the low `n` bytes of `v` at `a`. -/
def store (m : Mem) (a n v : Nat) : Mem :=
  fun x => if a ≤ x ∧ x < a + n then BitVec.ofNat 8 (v / 256 ^ (x - a)) else m x

variable {m m' : Mem} {a n : Nat}

theorem load_congr (h : ∀ x, a ≤ x → x < a + n → m' x = m x) : load m' a n = load m a n := by
  induction n generalizing a with
  | zero => rfl
  | succ n ih =>
    rw [load, load, h a (Nat.le_refl a) (by omega), ih fun x hlo hhi => h x (by omega) (by omega)]

theorem load_lt (m : Mem) (a n : Nat) : load m a n < 256 ^ n := by
  induction n generalizing a with
  | zero => simp [load]
  | succ n ih =>
    have hb := (m a).isLt
    have hr := ih (a + 1)
    rw [load, Nat.pow_succ]
    omega

/-- The bytes outside the stored range are untouched. -/
theorem store_off {x : Nat} (m : Mem) (a n v : Nat) (h : x < a ∨ a + n ≤ x) :
    store m a n v x = m x := by
  rw [store, if_neg (by omega)]

theorem load_store_off {b k : Nat} (m : Mem) (a n v : Nat) (h : b + k ≤ a ∨ a + n ≤ b) :
    load (store m a n v) b k = load m b k :=
  load_congr fun x _ _ => store_off m a n v (by omega)

private theorem load_store_mod (m : Mem) (a n v : Nat) : load (store m a n v) a n = v % 256 ^ n := by
  induction n generalizing a v with
  | zero => simp [load, Nat.mod_one]
  | succ n ih =>
    have htail : load (store m a (n + 1) v) (a + 1) n = load (store m (a + 1) n (v / 256)) (a + 1) n := by
      apply load_congr
      intro x hlo hhi
      have hpow : 256 ^ (x - a) = 256 * 256 ^ (x - (a + 1)) := by
        rw [show x - a = x - (a + 1) + 1 by omega, Nat.pow_succ, Nat.mul_comm]
      rw [store, store, if_pos (by omega), if_pos (by omega), hpow, Nat.div_div_eq_div_mul]
    have hhead : (store m a (n + 1) v a).toNat = v % 256 := by
      rw [store, if_pos (by omega), Nat.sub_self, Nat.pow_zero, Nat.div_one, BitVec.toNat_ofNat]
    rw [load, htail, ih, hhead, Nat.pow_succ, Nat.mul_comm (256 ^ n) 256, Nat.mod_mul]

/-- A value that fits is read back. -/
theorem load_store {v : Nat} (m : Mem) (a : Nat) (h : v < 256 ^ n) : load (store m a n v) a n = v := by
  rw [load_store_mod, Nat.mod_eq_of_lt h]

theorem load_of_zero (h : ∀ x, a ≤ x → x < a + n → m x = 0) : load m a n = 0 := by
  induction n generalizing a with
  | zero => rfl
  | succ n ih =>
    rw [load, h a (Nat.le_refl a) (by omega), ih fun x hlo hhi => h x (by omega) (by omega)]
    rfl

/-- Reading inside zeroed memory. -/
theorem load_store_zero {b k : Nat} (m : Mem) (h : a ≤ b) (h' : b + k ≤ a + n) :
    load (store m a n 0) b k = 0 := by
  apply load_of_zero
  intro x hlo hhi
  rw [store, if_pos (by omega), Nat.zero_div]
  rfl

attribute [irreducible] load store

/-- The two memories differ only at addresses in `S`. -/
def OnlyIn (S : Nat → Prop) (m m' : Mem) : Prop := ∀ x, ¬ S x → m' x = m x

variable {S T : Nat → Prop}

theorem OnlyIn.load (h : OnlyIn S m m') (hoff : ∀ x, a ≤ x → x < a + n → ¬ S x) :
    load m' a n = load m a n :=
  load_congr fun x hlo hhi => h x (hoff x hlo hhi)

theorem OnlyIn.mono (h : OnlyIn S m m') (hST : ∀ x, S x → T x) : OnlyIn T m m' :=
  fun x hx => h x fun hS => hx (hST x hS)

theorem OnlyIn.trans {m'' : Mem} (h : OnlyIn S m m') (h' : OnlyIn S m' m'') : OnlyIn S m m'' :=
  fun x hx => (h' x hx).trans (h x hx)

theorem onlyIn_store (m : Mem) {v : Nat} (hS : ∀ x, a ≤ x → x < a + n → S x) :
    OnlyIn S m (store m a n v) := by
  intro x hx
  apply store_off
  by_contra hin
  exact hx (hS x (by omega) (by omega))

end NyaOS.Library.ByteMemory
