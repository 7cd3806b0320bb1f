import NyaOS.Stdio.Fields

/-! The formats the kernel prints with: literals, strings, characters and unsigned numbers
without width, precision or flags other than `#`. -/
namespace NyaOS.Stdio
open NyaOS.Library.Numeral

/-- The canonical numeral under a letter: upper-case digits for `X` only. -/
def Letter.canonical (l : Letter) (n : Nat) : List Char :=
  match l with
  | .x => Nat.toDigits 16 n
  | .X => (Nat.toDigits 16 n).map Char.toUpper
  | .o => Nat.toDigits 8 n
  | _ => Nat.toDigits 10 n

def Letter.InFragment : Letter → Prop
  | .u | .x | .X | .o | .c | .s => True
  | .d | .i | .n => False

/-- At most the flag `#`, no width, no precision, and one of the modifiers `h`, `l`, `ll`, `j`
and `z`, if any. -/
structure Directive.InFragment (d : Directive) : Prop where
  letter : d.letter.InFragment
  flags : d.flags = [] ∨ d.flags = [.hash]
  width : d.width = .absent
  prec : d.prec = .absent
  modifier : d.modifier ≠ .hh ∧ d.modifier ≠ .t

def Item.InFragment : Item → Prop
  | .literal _ _ _ => True
  | .percent => False
  | .directive d => d.InFragment

/-- The text a directive is to print for its argument. -/
def Directive.expected (env : Env) (d : Directive) (w : BitVec 64) : List Char :=
  match d.letter with
  | .s => env.string w
  | .c => [Char.ofNat (w.setWidth 8).toNat]
  | l => (if d.flags = [] then [] else l.altPrefix) ++
    l.canonical (w.setWidth d.modifier.bits).toNat

/-- The text of the items, the `k`-th argument being the next. -/
def expectedAll (env : Env) : Nat → List Item → List Char
  | _, [] => []
  | k, .literal c _ _ :: items => c :: expectedAll env k items
  | k, .percent :: items => '%' :: expectedAll env k items
  | k, .directive d :: items => d.expected env (env.word k) ++ expectedAll env (k + 1) items

def Item.argType? : Item → Option VaType
  | .directive d => some d.argType
  | _ => none

/-- The format is read to its end, the expected text and nothing else goes to `putchar`, and
each directive takes one argument, in order. -/
def Rendered (env : Env) (items : List Item) (behind : List Char) : Prop :=
  ∃ s p, vprintf env (formatOf items ++ nul :: behind) = .ok (s, p) ∧
    s.i = (formatOf items).length ∧
    p.trace = (expectedAll env 0 items).map .putchar ∧
    p.taken = items.filterMap Item.argType?

theorem canonical_eq (l : Letter) (n : Nat) : l.canonical n = numeralOf l.base n := by
  have hplain : ∀ base, 1 < radix base →
      (∀ d < radix base, (digitTable base).getD d nul = id (Nat.digitChar d)) →
      Nat.toDigits (radix base) n = numeralOf base n := by
    intro base hb hdigit
    rw [numeralOf, numeral_eq_toDigits hb hdigit, List.map_id]
  have hten : Nat.toDigits 10 n = numeralOf 10 n := hplain 10 (by decide) (by decide)
  cases l with
  | X => exact (numeral_eq_toDigits (by decide) (by decide) n).symm
  | x => exact hplain 17 (by decide) (by decide)
  | o => exact hplain 8 (by decide) (by decide)
  | _ => exact hten

section
variable {d : Directive} (hd : d.InFragment) (env : Env) (k : Nat)
include hd

private theorem not_signed : .plus ∉ d.flags ∧ .space ∉ d.flags := by
  rcases hd.flags with h | h <;> rw [h] <;> simp

private theorem starArgs_nil : d.starArgs = [] := by
  obtain ⟨flags, width, prec, modifier, letter⟩ := d
  obtain ⟨-, -, rfl, rfl, -⟩ := hd
  rfl

private theorem altText_flags :
    (d.conv env k).altText = if d.flags = [] then [] else d.letter.altPrefix := by
  rw [d.altText_eq]
  rcases hd.flags with h | h <;> simp [h]

/-- An unsigned number of the fragment is displayed whole. -/
private theorem shown_number (hi : d.letter.IsInteger) (hv : ∀ w, 0 ≤ d.value w) (w : BitVec 64) :
    (d.conv env k).shown env w = (if d.flags = [] then [] else d.letter.altPrefix) ++
      d.letter.canonical (d.value w).natAbs := by
  obtain ⟨hplus, hspace⟩ := not_signed hd
  have hzero : d.width.value env k = 0 := by rw [hd.width, Width.value]
  have hwidth : (d.conv env k).layout.lengthSpec = 0 :=
    (d.lengthSpec_eq env k (by omega)).trans hzero
  have hp : (d.conv env k).layout.plusSign = false :=
    Bool.eq_false_iff.mpr fun h => hplus ((d.plusSign_iff env k).mp h)
  have hs : (d.conv env k).layout.spaceNoSign = false :=
    Bool.eq_false_iff.mpr fun h => hspace ((d.spaceNoSign_iff env k).mp h)
  have hvalue := d.value_bounds w
  have hlen := length_numeralOf d.letter.isBase_base (by omega : (d.value w).natAbs < 2 ^ 64)
  have htext : (d.conv env k).layout.text d.letter.base (decide (d.value w < 0))
      (d.value w).natAbs = numeralOf d.letter.base (d.value w).natAbs := by
    rw [Layout.text, Layout.sign, decide_eq_false (not_lt.mpr (hv w)), hp, hs]
    rfl
  have hfield : (d.conv env k).layout.field (numeralOf d.letter.base (d.value w).natAbs) =
      numeralOf d.letter.base (d.value w).natAbs :=
    Layout.field_eq_text (by omega) (by omega) (by omega) (by omega)
  rw [Directive.shown_eq hi, htext, hfield, List.take_length, altText_flags hd, canonical_eq]

theorem Directive.shown_expected (w : BitVec 64) :
    (d.conv env k).shown env w = d.expected env w := by
  have hl := hd.letter
  have hnumber := shown_number hd env k
  have halt := altText_flags hd env k
  obtain ⟨flags, width, prec, modifier, letter⟩ := d
  cases letter with
  | d => exact absurd hl id
  | i => exact absurd hl id
  | n => exact absurd hl id
  | s =>
    rw [Conv.shown, halt]
    exact congrArg (· ++ env.string w) (ite_self _)
  | c =>
    rw [Conv.shown, halt]
    exact congrArg (· ++ [Char.ofNat (w.setWidth 8).toNat]) (ite_self _)
  | u => exact hnumber trivial (fun w => Int.natCast_nonneg _) w
  | x => exact hnumber trivial (fun w => Int.natCast_nonneg _) w
  | X => exact hnumber trivial (fun w => Int.natCast_nonneg _) w
  | o => exact hnumber trivial (fun w => Int.natCast_nonneg _) w

/-- One directive of the fragment takes one argument and prints what is expected. -/
theorem Directive.result_expected (p : Progress) :
    (((Item.directive d).meaning env).result env p).taken = p.taken ++ [d.argType] ∧
      (((Item.directive d).meaning env).result env p).trace =
        p.trace ++ (d.expected env (env.word p.taken.length)).map .putchar := by
  have hstore : ∀ chars w, (d.conv env p.taken.length).stores chars w = [] := by
    intro chars w
    have hl := hd.letter
    obtain ⟨flags, width, prec, modifier, letter⟩ := d
    cases letter <;> first | exact absurd hl id | (cases modifier <;> rfl)
  constructor
  · rw [Turn.result_taken, Item.meaning_args, Item.argTypes, starArgs_nil hd, List.nil_append]
  · rw [Item.meaning, starArgs_nil hd, Turn.result, Conv.result]
    dsimp only
    rw [List.append_nil, hstore, List.append_nil, Directive.shown_expected hd]

end

/-- The run over a format of the fragment, from any state. -/
theorem runAll_fragment (env : Env) {items : List Item} (h : ∀ item ∈ items, item.InFragment)
    (p : Progress) :
    ∃ p', runAll env (turnsOf env items) p = .ok p' ∧
      p'.trace = p.trace ++ (expectedAll env p.taken.length items).map .putchar ∧
      p'.taken = p.taken ++ items.filterMap Item.argType? := by
  induction items generalizing p with
  | nil => exact ⟨p, rfl, (List.append_nil _).symm, (List.append_nil _).symm⟩
  | cons item items ih =>
    obtain ⟨hitem, hitems⟩ := List.forall_mem_cons.mp h
    cases item with
    | percent => exact absurd hitem id
    | literal c hp hn =>
      obtain ⟨p', hrun, htrace, htaken⟩ := ih hitems
        { p with trace := p.trace ++ [.putchar c], chars := p.chars + BitVec.ofNat 32 1 }
      refine ⟨p', hrun, ?_, htaken⟩
      rw [htrace, List.append_assoc]
      rfl
    | directive d =>
      have hd : d.InFragment := hitem
      have hm : ¬ (Item.directive d).Slips := hd.modifier.1
      have hwidth : d.width.value env p.taken.length = 0 := by rw [hd.width, Width.value]
      have hfit : ((Item.directive d).meaning env).fits env p.taken.length = true :=
        Directive.conv_fits (by omega) (by omega) _
      obtain ⟨htaken₁, htrace₁⟩ := Directive.result_expected hd env p
      obtain ⟨p', hrun, htrace, htaken⟩ := ih hitems (((Item.directive d).meaning env).result env p)
      refine ⟨p', ?_, ?_, ?_⟩
      · rw [turnsOf, List.flatMap_cons, Item.turns_eq hm, List.singleton_append, runAll,
          List.foldlM_cons, Turn.run_eq, if_pos hfit, ok_bind]
        exact hrun
      · rw [htrace, htrace₁, htaken₁, List.length_append, List.append_assoc, ← List.map_append]
        rfl
      · rw [htaken, htaken₁, List.append_assoc]
        rfl

/-- Every format of the fragment is rendered as expected. -/
theorem rendered_of_fragment (env : Env) {items : List Item} (h : ∀ item ∈ items, item.InFragment)
    (behind : List Char) : Rendered env items behind := by
  obtain ⟨p, hrun, htrace, htaken⟩ := runAll_fragment env h .init
  rw [Rendered, vprintf_items, piecesOf_turns, hrun]
  exact ⟨_, p, rfl, rfl, htrace, htaken⟩

end NyaOS.Stdio
