import Mathlib.Logic.Function.Basic
import NyaOS.Library.ByteMemory

/-! Straight-line code on a downward stack of 64-bit words. What it pushes lies on the stack as a
list of words, and popping takes the words back. -/
namespace NyaOS.Library.StackCode
open ByteMemory

structure Machine (R : Type) where
  regs : R → BitVec 64
  rsp : BitVec 64
  mem : Mem

inductive Instr (R : Type) where
  | pushImm (v : BitVec 64)
  | push (r : R)
  | pop (r : R)
  | movRsp (r : R)
  | addRsp (n : BitVec 64)

/-- The words from address `a` upwards. -/
def WordsAt (m : Mem) : Nat → List (BitVec 64) → Prop
  | _, [] => True
  | a, w :: ws => load m a 8 = w.toNat ∧ WordsAt m (a + 8) ws

section Words
variable {m m' : Mem} {a : Nat} {ws vs : List (BitVec 64)}

theorem WordsAt.congr (h : WordsAt m a ws) (hsame : ∀ x, a ≤ x → x < a + 8 * ws.length → m' x = m x) :
    WordsAt m' a ws := by
  induction ws generalizing a with
  | nil => trivial
  | cons w ws ih =>
    rw [List.length_cons] at hsame
    refine ⟨?_, ih h.2 fun x hlo hhi => hsame x (by omega) (by omega)⟩
    rw [load_congr fun x hlo hhi => hsame x hlo (by omega), h.1]

theorem wordsAt_append : WordsAt m a (ws ++ vs) ↔ WordsAt m a ws ∧ WordsAt m (a + 8 * ws.length) vs := by
  induction ws generalizing a with
  | nil => exact (and_iff_right trivial).symm
  | cons w ws ih =>
    rw [List.cons_append, WordsAt, WordsAt, ih, and_assoc, List.length_cons,
      show a + 8 + 8 * ws.length = a + 8 * (ws.length + 1) by omega]

/-- The `i`-th of the words. -/
theorem WordsAt.load_getD (h : WordsAt m a ws) {i : Nat} (hi : i < ws.length) :
    load m (a + 8 * i) 8 = (ws.getD i 0).toNat := by
  induction ws generalizing a i with
  | nil => exact absurd hi (Nat.not_lt_zero i)
  | cons w ws ih =>
    cases i with
    | zero => exact h.1
    | succ i =>
      rw [List.getD_cons_succ, ← ih h.2 (Nat.lt_of_succ_lt_succ hi)]
      exact congrArg (load m · 8) (by omega)

end Words

variable {R : Type}

def pushWord (v : BitVec 64) (s : Machine R) : Machine R :=
  { s with rsp := s.rsp - 8, mem := store s.mem (s.rsp - 8).toNat 8 v.toNat }

/-- From `s` to `s'` the words `ws` were put on the stack, the latest first, and nothing else was
written. -/
structure Pushed (ws : List (BitVec 64)) (s s' : Machine R) : Prop where
  regs : s'.regs = s.regs
  rsp : s'.rsp.toNat + 8 * ws.length = s.rsp.toNat
  words : WordsAt s'.mem s'.rsp.toNat ws
  frame : ∀ x, x < s'.rsp.toNat ∨ s.rsp.toNat ≤ x → s'.mem x = s.mem x

section Push
variable {s s' s'' : Machine R} {ws vs : List (BitVec 64)}

theorem pushed_none (s : Machine R) : Pushed [] s s := ⟨rfl, rfl, trivial, fun _ _ => rfl⟩

theorem pushed_word (v : BitVec 64) (h : 8 ≤ s.rsp.toNat) : Pushed [v] s (pushWord v s) := by
  have hsub : (s.rsp - 8).toNat = s.rsp.toNat - 8 := BitVec.toNat_sub_of_le (BitVec.le_def.mpr h)
  refine ⟨rfl, ?_, ⟨load_store _ _ v.isLt, trivial⟩, fun x hx => store_off _ _ _ _ ?_⟩
  · change (s.rsp - 8).toNat + 8 = s.rsp.toNat
    omega
  · change x < (s.rsp - 8).toNat ∨ _ at hx
    omega

theorem Pushed.trans (h : Pushed ws s s') (h' : Pushed vs s' s'') : Pushed (vs ++ ws) s s'' := by
  have hrsp := h.rsp
  have hrsp' := h'.rsp
  refine ⟨h'.regs.trans h.regs, ?_, wordsAt_append.mpr ⟨h'.words, ?_⟩, fun x hx => ?_⟩
  · rw [List.length_append]
    omega
  · rw [hrsp']
    exact h.words.congr fun x hlo hhi => h'.frame x (.inr hlo)
  · rw [h'.frame x (by omega), h.frame x (by omega)]

end Push

variable [DecidableEq R]

def Instr.exec : Instr R → Machine R → Machine R
  | .pushImm v, s => pushWord v s
  | .push r, s => pushWord (s.regs r) s
  | .pop r, s =>
    { s with regs := Function.update s.regs r (BitVec.ofNat 64 (load s.mem s.rsp.toNat 8)), rsp := s.rsp + 8 }
  | .movRsp r, s => { s with regs := Function.update s.regs r s.rsp }
  | .addRsp n, s => { s with rsp := s.rsp + n }

def exec (code : List (Instr R)) (s : Machine R) : Machine R := code.foldl (fun s i => i.exec s) s

theorem exec_append (p q : List (Instr R)) (s : Machine R) : exec (p ++ q) s = exec q (exec p s) :=
  List.foldl_append

/-- Pushing constants. -/
theorem pushed_imms {s : Machine R} (ws : List (BitVec 64)) (h : 8 * ws.length ≤ s.rsp.toNat) :
    Pushed ws.reverse s (exec (ws.map .pushImm) s) := by
  induction ws generalizing s with
  | nil => exact pushed_none s
  | cons w ws ih =>
    rw [List.length_cons] at h
    have hone := pushed_word w (s := s) (by omega)
    have hrsp := hone.rsp
    rw [List.length_singleton] at hrsp
    rw [List.reverse_cons]
    exact hone.trans (ih (by omega))

/-- Pushing registers is pushing what they hold. -/
theorem exec_pushes (rs : List R) (s : Machine R) :
    exec (rs.map .push) s = exec ((rs.map s.regs).map .pushImm) s := by
  induction rs generalizing s with
  | nil => rfl
  | cons r rs ih => exact ih (pushWord (s.regs r) s)

theorem pushed_regs {s : Machine R} (rs : List R) (h : 8 * rs.length ≤ s.rsp.toNat) :
    Pushed (rs.map s.regs).reverse s (exec (rs.map .push) s) := by
  rw [exec_pushes]
  exact pushed_imms _ (by rwa [List.length_map])

section Pop
variable {s : Machine R}

/-- Taking registers back, each with the value on the stack. -/
theorem exec_pops (rs : List R) (f : R → BitVec 64) (ws : List (BitVec 64))
    (h : WordsAt s.mem s.rsp.toNat (rs.map f ++ ws)) (hroom : s.rsp.toNat + 8 * rs.length < 2 ^ 64) :
    (exec (rs.map .pop) s).mem = s.mem ∧
      (exec (rs.map .pop) s).rsp.toNat = s.rsp.toNat + 8 * rs.length ∧
      ∀ r, (exec (rs.map .pop) s).regs r = if r ∈ rs then f r else s.regs r := by
  induction rs generalizing s with
  | nil => exact ⟨rfl, rfl, fun r => rfl⟩
  | cons r rs ih =>
    rw [List.length_cons] at hroom
    obtain ⟨hword, hwords⟩ := h
    have hadd : (s.rsp + 8).toNat = s.rsp.toNat + 8 := by
      rw [BitVec.toNat_add_of_lt]
      · rfl
      · change s.rsp.toNat + 8 < 2 ^ 64
        omega
    obtain ⟨hmem, hrsp, hregs⟩ := ih (s := Instr.exec (.pop r) s) (by
      change WordsAt s.mem (s.rsp + 8).toNat _
      rwa [hadd]) (by
      change (s.rsp + 8).toNat + _ < _
      omega)
    refine ⟨hmem, ?_, fun r' => (hregs r').trans ?_⟩
    · refine hrsp.trans ?_
      change (s.rsp + 8).toNat + _ = _
      rw [hadd, List.length_cons]
      omega
    · change (if r' ∈ rs then f r' else Function.update s.regs r (BitVec.ofNat 64 (load s.mem s.rsp.toNat 8)) r') = _
      rw [hword, BitVec.ofNat_toNat, BitVec.setWidth_eq]
      by_cases hr : r' = r
      · rw [hr, Function.update_self, ite_self, if_pos List.mem_cons_self]
      · rw [Function.update_of_ne hr]
        exact (if_congr (List.mem_cons.trans (or_iff_right hr)) rfl rfl).symm

end Pop

end NyaOS.Library.StackCode
