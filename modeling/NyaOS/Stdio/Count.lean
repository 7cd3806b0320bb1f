import NyaOS.Stdio.Fragment

/-! The counter `chars`: what `vprintf` returns and what `%n` stores, against the characters
that went to `putchar`. -/
namespace NyaOS.Stdio

/-- Every store in the trace carries the number of characters put before it, `n` of them before
the trace begins. -/
def StoresRight : Nat → List Effect → Prop
  | _, [] => True
  | n, .putchar _ :: trace => StoresRight (n + 1) trace
  | n, .store _ _ v :: trace => v = n ∧ StoresRight n trace

/-- `vprintf` returns the number of characters it printed, and so does every `%n` on its way. -/
def CountsOutput (env : Env) (items : List Item) (behind : List Char) : Prop :=
  ∃ s p, vprintf env (formatOf items ++ nul :: behind) = .ok (s, p) ∧
    p.chars.toInt = (printed p.trace).length ∧ StoresRight 0 p.trace

/-! What an item prints and takes, as `vprintf` reads it. -/

/-- A directive with `hh` leaves its own argument. -/
def Item.takes : Item → Nat
  | .directive d => if d.modifier = .hh then d.starArgs.length else d.starArgs.length + 1
  | _ => 0

/-- How many characters a directive prints: its letter under `hh`, else the string, the
character, or the digits with the mark that `#` adds. -/
def Directive.size (env : Env) (k : Nat) (d : Directive) : Nat :=
  if d.modifier = .hh then 1
  else match d.letter with
    | .s => (env.string (env.word (k + d.starArgs.length))).length
    | .c => 1
    | .n => 0
    | l => (if .hash ∈ d.flags then l.altPrefix.length else 0) +
      (numeralOf l.base (d.value (env.word (k + d.starArgs.length))).natAbs).length

def Item.size (env : Env) (k : Nat) : Item → Nat
  | .literal _ _ _ => 1
  | .percent => 0
  | .directive d => d.size env k

def sizeAll (env : Env) : Nat → List Item → Nat
  | _, [] => 0
  | k, item :: items => item.size env k + sizeAll env (k + item.takes) items

/-- A character conversion; under `hh` the letter is not read as one. -/
def Item.IsChar : Item → Prop
  | .directive d => d.letter = .c ∧ d.modifier ≠ .hh
  | _ => False

/-- A `%hn`, whose pointee is a `short`. -/
def Item.IsShortStore : Item → Prop
  | .directive d => d.letter = .n ∧ d.modifier = .h
  | _ => False

/-- Every `%hn` stands where fewer than 2 ^ 15 characters have been printed. -/
def ShortStores (env : Env) : Nat → Nat → List Item → Prop
  | _, _, [] => True
  | k, n, item :: items => (item.IsShortStore → n < 2 ^ 15) ∧
    ShortStores env (k + item.takes) (n + item.size env k) items

/-- The widths are between 0 and 200. -/
def WidthsOk (env : Env) : Nat → List Item → Prop
  | _, [] => True
  | k, item :: items => (∀ d, item = .directive d → 0 ≤ d.width.value env k ∧
    d.width.value env k ≤ 200) ∧ WidthsOk env (k + item.takes) items

theorem storesRight_append (n : Nat) (t u : List Effect) :
    StoresRight n (t ++ u) ↔ StoresRight n t ∧ StoresRight (n + (printed t).length) u := by
  induction t generalizing n with
  | nil => exact ⟨fun h => ⟨trivial, h⟩, And.right⟩
  | cons e t ih =>
    cases e with
    | putchar c =>
      rw [List.cons_append, StoresRight, StoresRight, ih, Nat.add_assoc, Nat.add_comm 1]
      rfl
    | store a t v => rw [List.cons_append, StoresRight, StoresRight, ih, and_assoc]; rfl

theorem storesRight_putchars (n : Nat) (text : List Char) :
    StoresRight n (text.map .putchar) := by
  induction text generalizing n with
  | nil => trivial
  | cons c text ih => exact ih (n + 1)

section
variable (d : Directive) (env : Env) (k : Nat)

private theorem length_shown_number (hd : d.letter.IsInteger) (w : BitVec 64) :
    ((d.conv env k).shown env w).length =
      (if .hash ∈ d.flags then d.letter.altPrefix.length else 0) +
        (numeralOf d.letter.base (d.value w).natAbs).length := by
  have hmark : (if .hash ∈ d.flags then d.letter.altPrefix else []).length =
      if .hash ∈ d.flags then d.letter.altPrefix.length else 0 := by split <;> rfl
  rw [Directive.shown_eq hd, d.altText_eq, List.length_append, hmark, List.length_take,
    Layout.length_field, Layout.text, List.length_append]
  omega

/-- The characters a directive shows. -/
theorem Directive.length_shown (hm : d.modifier ≠ .hh) :
    ((d.conv env k).shown env (env.word (k + d.starArgs.length))).length = d.size env k := by
  have hnumber := length_shown_number d env k
  have halt := d.altText_eq env k
  rw [Directive.size, if_neg hm]
  obtain ⟨flags, width, prec, modifier, letter⟩ := d
  cases letter with
  | s =>
    rw [Conv.shown, halt, List.length_append]
    simp [Letter.altPrefix]
    rfl
  | c =>
    rw [Conv.shown, halt, List.length_append]
    simp [Letter.altPrefix]
    rfl
  | n =>
    rw [Conv.shown, halt, List.length_append]
    simp [Letter.altPrefix]
    cases modifier <;> rfl
  | d => exact hnumber trivial _
  | i => exact hnumber trivial _
  | u => exact hnumber trivial _
  | x => exact hnumber trivial _
  | X => exact hnumber trivial _
  | o => exact hnumber trivial _

/-- `display_character` does not count. -/
theorem Directive.counted_eq (w : BitVec 64) :
    (d.conv env k).counted env w =
      if d.letter = .c then 0 else ((d.conv env k).shown env w).length := by
  obtain ⟨flags, width, prec, modifier, letter⟩ := d
  cases letter <;> cases modifier <;> rfl

/-- Only `%n` stores. -/
theorem Directive.stores_eq (hm : d.modifier ≠ .hh) (chars : BitVec 32) (w : BitVec 64) :
    (d.conv env k).stores chars w = if d.letter = .n then
      [.store w d.modifier.pointee (d.modifier.pointee.convert chars.toInt)] else [] := by
  obtain ⟨flags, width, prec, modifier, letter⟩ := d
  cases letter <;> cases modifier <;> first | exact absurd rfl hm | rfl

end

/-- The count fits every pointee but, from 2 ^ 15 on, a `short`. -/
theorem convert_count_iff {m : Modifier} (hm : m ≠ .hh) {n : Nat} (hn : n < 2 ^ 31) :
    m.pointee.convert n = n ↔ (m = .h → n < 2 ^ 15) := by
  have hint : (n : Int).bmod (2 ^ 32) = n := Int.bmod_eq_of_le (by omega) (by omega)
  have hlong : (n : Int).bmod (2 ^ 64) = n := Int.bmod_eq_of_le (by omega) (by omega)
  have hsize : (n : Int) % 2 ^ 64 = n := Int.emod_eq_of_lt (by omega) (by omega)
  cases m with
  | hh => exact absurd rfl hm
  | absent => exact iff_of_true hint nofun
  | l => exact iff_of_true hlong nofun
  | ll => exact iff_of_true hlong nofun
  | j => exact iff_of_true hlong nofun
  | z => exact iff_of_true hsize nofun
  | t => exact iff_of_true hlong nofun
  | h =>
    have hconv : Modifier.h.pointee.convert n = (n : Int).bmod (2 ^ 16) := rfl
    rw [hconv]
    constructor
    · intro h _
      have hlt : (n : Int).bmod (2 ^ 16) < _ := Int.bmod_lt (by decide)
      rw [h] at hlt
      exact Int.ofNat_lt.mp hlt
    · intro h
      have hlt := h rfl
      exact Int.bmod_eq_of_le (by omega) (by omega)

theorem toInt_count {n : Nat} (hn : n < 2 ^ 31) : (BitVec.ofNat 32 n).toInt = n := by
  have hnat : (BitVec.ofNat 32 n).toNat = n := by
    rw [BitVec.toNat_ofNat]
    omega
  rw [BitVec.toInt_eq_toNat_of_lt (by omega), hnat]

/-- What an item adds to `chars`. -/
def Item.counted (env : Env) (k : Nat) : Item → Nat
  | .directive d => if d.letter = .c ∧ d.modifier ≠ .hh then 0 else d.size env k
  | item => item.size env k

def countedAll (env : Env) : Nat → List Item → Nat
  | _, [] => 0
  | k, item :: items => item.counted env k + countedAll env (k + item.takes) items

/-- What one item does to the state. -/
structure ItemStep (env : Env) (item : Item) (p p' : Progress) : Prop where
  taken : p'.taken.length = p.taken.length + item.takes
  chars : p'.chars = p.chars + BitVec.ofNat 32 (item.counted env p.taken.length)
  trace : ∃ ext, p'.trace = p.trace ++ ext ∧
    (printed ext).length = item.size env p.taken.length ∧
    ∀ n < 2 ^ 31, p.chars = BitVec.ofNat 32 n →
      (StoresRight n ext ↔ (item.IsShortStore → n < 2 ^ 15))

/-- A conversion of no effect, and its stars. -/
private theorem nothing_run (env : Env) (p : Progress) {stars : List VaType} {cv : Nat → Conv}
    (ha : (cv p.taken.length).action = .nothing) (ht : (cv p.taken.length).altText = []) :
    (Turn.conv stars cv).run env p = .ok { p with taken := p.taken ++ stars } := by
  have hf : (Turn.conv stars cv).fits env p.taken.length = true := by
    rw [Turn.fits, Conv.fits, ha]
  rw [Turn.run_eq, if_pos hf, Turn.result, Conv.result]
  simp only [Conv.shown, Conv.stores, Conv.counted, ha, ht, Action.args, List.append_nil,
    List.map_nil, List.length_nil, BitVec.add_zero]

private theorem literal_step (env : Env) (p : Progress) (c : Char) :
    (Turn.literal c).run env p =
      .ok { p with trace := p.trace ++ [.putchar c], chars := p.chars + BitVec.ofNat 32 1 } := rfl

private theorem runAll_pair {env : Env} {x y : Turn} {p p₁ p₂ : Progress} (hx : x.run env p = .ok p₁)
    (hy : y.run env p₁ = .ok p₂) : runAll env [x, y] p = .ok p₂ := by
  rw [runAll, List.foldlM_cons, hx, ok_bind, List.foldlM_cons, hy]
  rfl

private theorem runAll_singleton {env : Env} {x : Turn} {p p' : Progress}
    (hx : x.run env p = .ok p') : runAll env [x] p = .ok p' := by
  rw [runAll, List.foldlM_cons, hx]
  rfl

private theorem directive_step (env : Env) (p : Progress) {d : Directive} (hm : d.modifier ≠ .hh)
    (hfit : ((Item.directive d).meaning env).fits env p.taken.length = true) :
    ∃ p', runAll env ((Item.directive d).pieces.map (Piece.turn env)) p = .ok p' ∧
      ItemStep env (.directive d) p p' := by
  have hrun : ((Item.directive d).meaning env).run env p = _ := Turn.run_eq ..
  rw [if_pos hfit] at hrun
  refine ⟨((Item.directive d).meaning env).result env p, ?_, ?_, ?_, ?_⟩
  · rw [Item.turns_eq (show ¬ (Item.directive d).Slips from hm)]
    exact runAll_singleton hrun
  · rw [Turn.result_taken, Item.meaning_args, List.length_append, Item.takes, if_neg hm,
      Item.argTypes, List.length_append, List.length_singleton]
  · have hcount : (d.conv env p.taken.length).counted env
        (env.word (p.taken.length + d.starArgs.length)) =
          (Item.directive d).counted env p.taken.length := by
      rw [Directive.counted_eq, Directive.length_shown d env _ hm, Item.counted]
      simp only [hm, ne_eq, not_false_eq_true, and_true]
    rw [← hcount, Item.meaning, Turn.result, Conv.result]
    dsimp only
    rw [List.length_append]
  · have htrace : (((Item.directive d).meaning env).result env p).trace = p.trace ++
        (((d.conv env p.taken.length).shown env
          (env.word (p.taken.length + d.starArgs.length))).map .putchar ++
        (d.conv env p.taken.length).stores p.chars
          (env.word (p.taken.length + d.starArgs.length))) := by
      rw [Item.meaning, Turn.result, Conv.result]
      dsimp only
      rw [List.length_append, List.append_assoc]
    have hlen := Directive.length_shown d env p.taken.length hm
    refine ⟨_, htrace, ?_, fun n hn hchars => ?_⟩
    · rw [printed_append, printed_putchars, Conv.printed_stores, List.append_nil, hlen]
      rfl
    · rw [storesRight_append, printed_putchars, hlen, Directive.stores_eq d env _ hm]
      by_cases hl : d.letter = .n
      · have hzero : d.size env p.taken.length = 0 := by rw [Directive.size, if_neg hm, hl]
        rw [if_pos hl, hzero, Nat.add_zero, hchars, toInt_count hn]
        simp only [storesRight_putchars, true_and, StoresRight, and_true, Item.IsShortStore, hl]
        exact convert_count_iff hm hn
      · rw [if_neg hl]
        exact iff_of_true ⟨storesRight_putchars _ _, trivial⟩ fun h => absurd h.1 hl

/-- Every item of admissible width returns and does to the state what `ItemStep` says. -/
theorem item_step (env : Env) (p : Progress) (item : Item)
    (hw : ∀ d, item = .directive d → 0 ≤ d.width.value env p.taken.length ∧
      d.width.value env p.taken.length ≤ 200) :
    ∃ p', runAll env (item.pieces.map (Piece.turn env)) p = .ok p' ∧ ItemStep env item p p' := by
  cases item with
  | literal c hp hn =>
    refine ⟨_, runAll_singleton (literal_step env p c), rfl, rfl, [.putchar c], rfl, rfl, ?_⟩
    exact fun n _ _ => iff_of_true (storesRight_putchars n [c]) fun h => by cases h
  | percent =>
    refine ⟨_, runAll_singleton (nothing_run env p rfl rfl), ?_, ?_, [], ?_, rfl, ?_⟩
    · exact congrArg List.length (List.append_nil _)
    · exact (BitVec.add_zero _).symm
    · exact (List.append_nil _).symm
    · exact fun n _ _ => iff_of_true trivial fun h => by cases h
  | directive d =>
    obtain ⟨hlo, hhi⟩ := hw d rfl
    by_cases hm : d.modifier = .hh
    -- The second `h` is a specifier without effect, and the letter is a literal.
    · have hturns : (Item.directive d).pieces.map (Piece.turn env) =
          [.conv d.starArgs ((d.spec ['h'] 'h').conv env), .literal d.letter.char] := by
        rw [Item.pieces, if_pos hm]
        rfl
      rw [hturns]
      refine ⟨_, runAll_pair (nothing_run env p rfl rfl) (literal_step env _ _), ?_, ?_,
        [.putchar d.letter.char], rfl, ?_, ?_⟩
      · rw [Item.takes, if_pos hm]
        exact List.length_append
      · rw [Item.counted, if_neg fun h => h.2 hm, Directive.size, if_pos hm]
      · rw [Item.size, Directive.size, if_pos hm]
        rfl
      · refine fun n _ _ => iff_of_true (storesRight_putchars n [d.letter.char]) fun h => ?_
        cases hm.symm.trans h.2
    · exact directive_step env p hm (Directive.conv_fits hlo hhi _)

/-- The run over all items, from any state. -/
theorem items_run (env : Env) {items : List Item} {p : Progress}
    (hw : WidthsOk env p.taken.length items) :
    ∃ p' ext, runAll env (turnsOf env items) p = .ok p' ∧ p'.trace = p.trace ++ ext ∧
      (printed ext).length = sizeAll env p.taken.length items ∧
      p'.chars = p.chars + BitVec.ofNat 32 (countedAll env p.taken.length items) := by
  induction items generalizing p with
  | nil => exact ⟨p, [], rfl, (List.append_nil _).symm, rfl, (BitVec.add_zero _).symm⟩
  | cons item items ih =>
    obtain ⟨p₁, hrun₁, htaken, hchars₁, ext₁, htrace₁, hlen₁, -⟩ := item_step env p item hw.1
    have hw₁ := hw.2
    rw [← htaken] at hw₁
    obtain ⟨p', ext, hrun, htrace, hlen, hchars⟩ := ih hw₁
    refine ⟨p', ext₁ ++ ext, ?_, ?_, ?_, ?_⟩
    · rw [turnsOf, List.flatMap_cons, runAll, List.foldlM_append, ← runAll, hrun₁, ok_bind]
      exact hrun
    · rw [htrace, htrace₁, List.append_assoc]
    · rw [printed_append, List.length_append, hlen₁, hlen, htaken]
      rfl
    · rw [hchars, hchars₁, htaken, BitVec.add_assoc, ← BitVec.ofNat_add]
      rfl

theorem Item.counted_le (env : Env) (k : Nat) (item : Item) : item.counted env k ≤ item.size env k := by
  cases item with
  | literal c hp hn => exact Nat.le_refl _
  | percent => exact Nat.le_refl _
  | directive d =>
    rw [Item.counted]
    split
    · exact Nat.zero_le _
    · exact Nat.le_refl _

/-- Only a character conversion is not counted in full. -/
theorem Item.counted_eq_size_iff (env : Env) (k : Nat) (item : Item) :
    item.counted env k = item.size env k ↔ ¬ item.IsChar := by
  cases item with
  | literal c hp hn => exact iff_of_true rfl nofun
  | percent => exact iff_of_true rfl nofun
  | directive d =>
    rw [Item.counted, Item.IsChar, Item.size]
    split
    · next h =>
      have hsize : d.size env k = 1 := by rw [Directive.size, if_neg h.2, h.1]
      rw [hsize]
      exact iff_of_false Nat.zero_ne_one (not_not.mpr h)
    · next h => exact iff_of_true rfl h

theorem countedAll_eq_size_iff (env : Env) (k : Nat) (items : List Item) :
    countedAll env k items ≤ sizeAll env k items ∧
      (countedAll env k items = sizeAll env k items ↔ ∀ item ∈ items, ¬ item.IsChar) := by
  induction items generalizing k with
  | nil => exact ⟨Nat.le_refl _, iff_of_true rfl (List.forall_mem_nil _)⟩
  | cons item items ih =>
    obtain ⟨hle, heq⟩ := ih (k + item.takes)
    have hitem := item.counted_le env k
    rw [countedAll, sizeAll, List.forall_mem_cons, ← heq, ← item.counted_eq_size_iff env k]
    exact ⟨by omega, by omega⟩

/-- Where the counter is right and stays small, the stores are right exactly when no `%hn` comes
too late. -/
theorem items_stores (env : Env) {items : List Item} {p p' : Progress} {n : Nat}
    (hw : WidthsOk env p.taken.length items) (hc : ∀ item ∈ items, ¬ item.IsChar)
    (hp : p.chars = BitVec.ofNat 32 n) (hn : n + sizeAll env p.taken.length items < 2 ^ 31)
    (hrun : runAll env (turnsOf env items) p = .ok p') :
    ∃ ext, p'.trace = p.trace ++ ext ∧
      (StoresRight n ext ↔ ShortStores env p.taken.length n items) := by
  induction items generalizing p n with
  | nil =>
    cases hrun
    exact ⟨[], (List.append_nil _).symm, Iff.rfl⟩
  | cons item items ih =>
    obtain ⟨hitem, hitems⟩ := List.forall_mem_cons.mp hc
    rw [sizeAll] at hn
    obtain ⟨p₁, hrun₁, htaken, hchars₁, ext₁, htrace₁, hlen₁, hstores₁⟩ :=
      item_step env p item hw.1
    have hw₁ := hw.2
    rw [← htaken] at hw₁
    have hp₁ : p₁.chars = BitVec.ofNat 32 (n + item.size env p.taken.length) := by
      rw [hchars₁, hp, (item.counted_eq_size_iff env _).mpr hitem, BitVec.ofNat_add]
    have hrest : runAll env (turnsOf env items) p₁ = .ok p' := by
      rw [turnsOf, List.flatMap_cons, runAll, List.foldlM_append, ← runAll, hrun₁, ok_bind] at hrun
      exact hrun
    obtain ⟨ext, htrace, hstores⟩ := ih hw₁ hitems hp₁ (by rw [htaken]; omega) hrest
    refine ⟨ext₁ ++ ext, by rw [htrace, htrace₁, List.append_assoc], ?_⟩
    rw [storesRight_append, hlen₁, hstores₁ n (by omega) hp, hstores, htaken]
    rfl

/-- With widths up to 200, the result and every `%n` count the output exactly when no character
conversion occurs, fewer than 2 ^ 31 characters are printed in all, and fewer than 2 ^ 15 before
each `%hn`. -/
theorem counts_output_iff {env : Env} {items : List Item} (hw : WidthsOk env 0 items)
    (behind : List Char) :
    CountsOutput env items behind ↔
      (∀ item ∈ items, ¬ item.IsChar) ∧ sizeAll env 0 items < 2 ^ 31 ∧
        ShortStores env 0 0 items := by
  obtain ⟨p, ext, hrun, htrace, hlen, hchars⟩ := items_run env (p := .init) hw
  obtain ⟨hle, hchar⟩ := countedAll_eq_size_iff env 0 items
  have hext : p.trace = ext := htrace
  have hcount : p.chars = BitVec.ofNat 32 (countedAll env 0 items) :=
    hchars.trans (BitVec.zero_add _)
  have hprinted : (printed p.trace).length = sizeAll env 0 items := by
    rw [hext, hlen]
    rfl
  have hvprintf := vprintf_items env items behind
  rw [piecesOf_turns, hrun] at hvprintf
  -- Both directions first show that the counter is right at the end; the stores then follow.
  have hstores : (∀ item ∈ items, ¬ item.IsChar) → sizeAll env 0 items < 2 ^ 31 →
      (StoresRight 0 p.trace ↔ ShortStores env 0 0 items) := by
    intro hc hlt
    have hlt' : 0 + sizeAll env 0 items < 2 ^ 31 := by rwa [Nat.zero_add]
    obtain ⟨ext', htrace', hiff⟩ := items_stores env (p := .init) (n := 0) hw hc rfl hlt' hrun
    have hext' : p.trace = ext' := htrace'
    rw [hext']
    exact hiff
  constructor
  · rintro ⟨s, p', hrun', hresult, hright⟩
    rw [hvprintf] at hrun'
    cases hrun'
    rw [hprinted] at hresult
    have hlt : sizeAll env 0 items < 2 ^ 31 := by
      have := p.chars.toInt_lt
      omega
    rw [hcount, toInt_count (by omega)] at hresult
    have hc := hchar.mp (Int.ofNat_inj.mp hresult)
    exact ⟨hc, hlt, (hstores hc hlt).mp hright⟩
  · rintro ⟨hc, hlt, hshort⟩
    refine ⟨_, p, hvprintf, ?_, (hstores hc hlt).mpr hshort⟩
    rw [hcount, hprinted, hchar.mpr hc, toInt_count hlt]

/-- The format `ok`. -/
def okItems : List Item :=
  [.literal 'o' (by decide) (by decide), .literal 'k' (by decide) (by decide)]

theorem counts_output_text : CountsOutput noArgs okItems [] := by
  have hw : WidthsOk noArgs 0 okItems := ⟨nofun, nofun, trivial⟩
  refine (counts_output_iff hw []).mpr ⟨?_, by decide, nofun, nofun, trivial⟩
  simp [okItems, Item.IsChar]

/-- `%c` -/
def charDirective : Directive := ⟨[], .absent, .absent, .absent, .c⟩

/-- `printf("%c", '*')` prints one character and returns 0. -/
theorem char_not_counted :
    (vprintf { noArgs with word := fun _ => 42 } (formatOf [.directive charDirective] ++ [nul])) =
        .ok (⟨2, [nul], 2⟩, ⟨[.value .int], [.putchar '*'], 0⟩) ∧
      WidthsOk { noArgs with word := fun _ => 42 } 0 [.directive charDirective] ∧
      ¬ CountsOutput { noArgs with word := fun _ => 42 } [.directive charDirective] [] := by
  have hrun : vprintf { noArgs with word := fun _ => 42 }
      (formatOf [.directive charDirective] ++ [nul]) =
        .ok (⟨2, [nul], 2⟩, ⟨[.value .int], [.putchar '*'], 0⟩) :=
    vprintf_items _ [.directive charDirective] []
  refine ⟨hrun, ⟨?_, trivial⟩, ?_⟩
  · rintro d hd
    cases hd
    decide
  · rintro ⟨s, p, hrun', hresult, -⟩
    rw [hrun] at hrun'
    cases hrun'
    exact absurd hresult (by decide)

end NyaOS.Stdio
