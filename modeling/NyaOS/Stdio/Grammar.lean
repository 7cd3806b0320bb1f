import NyaOS.Stdio.Inside

/-! The conversion grammar: formats built from literals, `%%` and directives, what each item
is meant to do, and what the scanner makes of it. -/
namespace NyaOS.Stdio

inductive Flag where
  | minus | plus | hash | space | zero
deriving DecidableEq

def Flag.char : Flag → Char
  | .minus => '-'
  | .plus => '+'
  | .hash => '#'
  | .space => ' '
  | .zero => '0'

def digitChar (d : Nat) : Char := Char.ofNat (48 + d)

def digitsText (ds : List (Fin 10)) : List Char := ds.map fun d : Fin 10 => digitChar d

/-- A width does not begin with a zero, which would be a flag: its first digit is `first + 1`. -/
inductive Width where
  | absent
  | number (first : Fin 9) (rest : List (Fin 10))
  | star

inductive Precision where
  | absent
  | number (ds : List (Fin 10))
  | star

inductive Modifier where
  | absent | hh | h | l | ll | j | z | t
deriving DecidableEq

inductive Letter where
  | d | i | u | x | X | o | c | s | n
deriving DecidableEq

def Letter.char : Letter → Char
  | .d => 'd'
  | .i => 'i'
  | .u => 'u'
  | .x => 'x'
  | .X => 'X'
  | .o => 'o'
  | .c => 'c'
  | .s => 's'
  | .n => 'n'

def Modifier.text : Modifier → List Char
  | .absent => []
  | .hh => ['h', 'h']
  | .h => ['h']
  | .l => ['l']
  | .ll => ['l', 'l']
  | .j => ['j']
  | .z => ['z']
  | .t => ['t']

/-- The letter by which the dispatch knows the modifier. -/
def Modifier.letter : Modifier → Char
  | .absent => nul
  | .hh => 'H'
  | .h => 'h'
  | .l => 'l'
  | .ll => 'q'
  | .j => 'j'
  | .z => 'z'
  | .t => 't'

structure Directive where
  flags : List Flag
  width : Width
  prec : Precision
  modifier : Modifier
  letter : Letter

inductive Item where
  | literal (c : Char) (not_percent : c ≠ '%') (not_nul : c ≠ nul)
  | percent
  | directive (d : Directive)

def Width.digits : Width → List Char
  | .number first rest => digitChar (first + 1) :: digitsText rest
  | _ => []

def Width.isStar : Width → Bool
  | .star => true
  | _ => false

def Precision.parts : Precision → Option (List Char × Bool)
  | .absent => none
  | .number ds => some (digitsText ds, false)
  | .star => some ([], true)

/-- The directive as a specification with the given modifier text and specifier. -/
def Directive.spec (d : Directive) (length : List Char) (specifier : Char) : Spec :=
  ⟨d.flags.map Flag.char, d.width.digits, d.width.isStar, d.prec.parts, length, specifier⟩

def Item.text : Item → List Char
  | .literal c _ _ => [c]
  | .percent => ['%', '%']
  | .directive d => '%' :: (d.spec d.modifier.text d.letter.char).text

def formatOf (items : List Item) : List Char := items.flatMap Item.text

/-! What the items mean. -/

/-- The type an integer directive names; `h` and `hh` name types that are promoted. -/
def Modifier.signedType : Modifier → IntType
  | .absent | .hh | .h => .int
  | .l => .long
  | .ll => .longLong
  | .j => .intmax
  | .z => .size
  | .t => .ptrdiff

def Modifier.unsignedType : Modifier → IntType
  | .absent | .hh | .h => .unsignedInt
  | .l => .unsignedLong
  | .ll => .unsignedLongLong
  | .j => .uintmax
  | .z => .size
  | .t => .ptrdiff

def Modifier.pointee : Modifier → IntType
  | .absent => .int
  | .hh => .signedChar
  | .h => .short
  | m => m.signedType

/-- The argument a directive is to take. -/
def Directive.argType (d : Directive) : VaType :=
  match d.letter with
  | .d | .i => .value d.modifier.signedType
  | .u | .x | .X | .o => .value d.modifier.unsignedType
  | .c => .value (if d.modifier = .l then .wchar else .int)
  | .s => .charPtr
  | .n => .pointer d.modifier.pointee

def Directive.starArgs (d : Directive) : List VaType := (d.spec [] d.letter.char).starArgs

def Item.argTypes : Item → List VaType
  | .directive d => d.starArgs ++ [d.argType]
  | _ => []

/-- The conversion a directive stands for. -/
def Directive.conv (d : Directive) (env : Env) (k : Nat) : Conv :=
  { (d.spec [] d.letter.char).conv env k with length := d.modifier.letter }

/-- What an item is meant to do: a literal prints itself, `%%` prints one `%`, and a directive
is one conversion. -/
def Item.meaning (env : Env) : Item → Turn
  | .literal c _ _ => .literal c
  | .percent => .literal '%'
  | .directive d => .conv d.starArgs (d.conv env)

/-- The pieces the scanner finds: with `hh` the second `h` is taken for the specifier, and the
letter is left over as a literal. -/
def Item.pieces : Item → List Piece
  | .literal c _ _ => [.literal c]
  | .percent => [.conv ⟨[], [], false, none, [], '%'⟩]
  | .directive d =>
    if d.modifier = .hh then [.conv (d.spec ['h'] 'h'), .literal d.letter.char]
    else [.conv (d.spec d.modifier.text d.letter.char)]

/-- A character that ends flags, numbers and precision. -/
def Plain (c : Char) : Prop := isFlag c = false ∧ isdigit c = false ∧ c ≠ '*' ∧ c ≠ '.'

instance (c : Char) : Decidable (Plain c) := inferInstanceAs (Decidable (_ ∧ _ ∧ _ ∧ _))

private theorem isdigit_digitChar (d : Fin 10) : isdigit (digitChar d) = true := by
  revert d
  decide

private theorem isFlag_digitChar (d : Fin 9) : isFlag (digitChar (d + 1)) = false := by
  revert d
  decide

private theorem isFlag_char (f : Flag) : isFlag f.char = true := by cases f <;> decide

private theorem all_digits (ds : List (Fin 10)) :
    ∀ c ∈ digitsText ds, isdigit c = true := by
  intro c hc
  obtain ⟨d, -, rfl⟩ := List.mem_map.mp hc
  exact isdigit_digitChar d

private theorem stops_cons {P : Char → Bool} {c : Char} (m : List Char) (h : P c = false) :
    Stops P (c :: m) := ⟨c, m, rfl, h⟩

/-- The specification of a directive is taken as one unit when its modifier and specifier are. -/
private theorem spec_munched (d : Directive) {length : List Char} {specifier : Char}
    (hl : length = [] ∧ isLength specifier = false ∨
      ∃ c, isLength c = true ∧ (length = [c] ∧ specifier ≠ 'l' ∨ length = [c, 'l']))
    {c : Char} {m : List Char} (ht : length ++ [specifier] = c :: m) (hc : Plain c) :
    (d.spec length specifier).Munched := by
  obtain ⟨hf, hd, hst, hdot⟩ := hc
  obtain ⟨flags, width, prec, modifier, letter⟩ := d
  have hprec : ∀ P : Char → Bool, P c = false → P '.' = false →
      Stops P (precisionText prec.parts ++ c :: m) := by
    intro P hPc hPdot
    cases prec with
    | absent => exact stops_cons _ hPc
    | number ds => exact stops_cons _ hPdot
    | star => exact stops_cons _ hPdot
  have hstar : ∀ P : Char → Bool, P c = false → P '.' = false → P '*' = false →
      Stops P (starText width.isStar ++ (precisionText prec.parts ++ c :: m)) := by
    intro P hPc hPdot hPstar
    cases width with
    | star => exact stops_cons _ hPstar
    | absent => exact hprec P hPc hPdot
    | number first rest => exact hprec P hPc hPdot
  constructor
  · intro f hf
    obtain ⟨f, -, rfl⟩ := List.mem_map.mp hf
    exact isFlag_char f
  · simp only [Directive.spec, Spec.widthTail, Spec.starTail, Spec.precTail, Spec.lengthTail,
      Spec.precText, ht]
    cases width with
    | number first rest => exact stops_cons _ (isFlag_digitChar first)
    | absent => exact hstar _ hf (by decide) (by decide)
    | star => exact hstar _ hf (by decide) (by decide)
  · cases width with
    | number first rest =>
      exact List.forall_mem_cons.mpr ⟨isdigit_digitChar ⟨first + 1, by omega⟩, all_digits rest⟩
    | absent => exact List.forall_mem_nil _
    | star => exact List.forall_mem_nil _
  · simp only [Directive.spec, Spec.starTail, Spec.precTail, Spec.lengthTail, Spec.precText, ht]
    exact hstar _ hd (by decide) (by decide)
  · intro _
    simp only [Directive.spec, Spec.precTail, Spec.lengthTail, Spec.precText, ht]
    exact hprec _ (by simpa using hst) (by decide)
  · intro _
    simp only [Directive.spec, Spec.lengthTail, ht]
    exact stops_cons _ (by simpa using hdot)
  · intro ds star h
    simp only [Directive.spec, Spec.lengthTail, ht] at h ⊢
    cases prec with
    | absent => cases h
    | number ds' =>
      cases h
      exact ⟨all_digits ds', stops_cons _ hd, fun _ => stops_cons _ (by simpa using hst)⟩
    | star =>
      cases h
      exact ⟨List.forall_mem_nil _, stops_cons _ (by decide), fun h => by cases h⟩
  · exact hl

private theorem letter_plain (l : Letter) : Plain l.char ∧ isLength l.char = false ∧
    l.char ≠ 'l' ∧ l.char ≠ '%' ∧ l.char ≠ nul := by
  cases l <;> decide

/-- The modifier's text is what the scanner takes as one, except for `hh`. -/
private theorem modifier_text {m : Modifier} (hm : m ≠ .hh) :
    m.text = [] ∨ ∃ c, isLength c = true ∧ Plain c ∧ (m.text = [c] ∨ m.text = [c, 'l']) := by
  cases m with
  | absent => exact Or.inl rfl
  | hh => exact absurd rfl hm
  | h => exact Or.inr ⟨'h', by decide, by decide, Or.inl rfl⟩
  | l => exact Or.inr ⟨'l', by decide, by decide, Or.inl rfl⟩
  | ll => exact Or.inr ⟨'l', by decide, by decide, Or.inr rfl⟩
  | j => exact Or.inr ⟨'j', by decide, by decide, Or.inl rfl⟩
  | z => exact Or.inr ⟨'z', by decide, by decide, Or.inl rfl⟩
  | t => exact Or.inr ⟨'t', by decide, by decide, Or.inl rfl⟩

private theorem directive_munched {d : Directive} (hm : d.modifier ≠ .hh) :
    (d.spec d.modifier.text d.letter.char).Munched := by
  obtain ⟨hplain, hlen, hl, -⟩ := letter_plain d.letter
  rcases modifier_text hm with h | ⟨c, hc, hp, h | h⟩ <;> rw [h]
  · exact spec_munched d (Or.inl ⟨rfl, hlen⟩) rfl hplain
  · exact spec_munched d (Or.inr ⟨c, hc, Or.inl ⟨rfl, hl⟩⟩) rfl hp
  · exact spec_munched d (Or.inr ⟨c, hc, Or.inr rfl⟩) rfl hp

/-- Every piece of an item is one the scanner takes as a unit. -/
theorem Item.pieces_ok (item : Item) : ∀ x ∈ item.pieces, x.Ok := by
  cases item with
  | literal c hp hn => exact List.forall_mem_singleton.mpr ⟨hp, hn⟩
  | percent =>
    have h : (Directive.spec ⟨[], .absent, .absent, .absent, .d⟩ [] '%').Munched :=
      spec_munched _ (Or.inl ⟨rfl, by decide⟩) rfl (by decide)
    exact List.forall_mem_singleton.mpr h
  | directive d =>
    rw [Item.pieces]
    split
    · have h : (d.spec ['h'] 'h').Munched :=
        spec_munched d (Or.inr ⟨'h', by decide, Or.inl ⟨rfl, by decide⟩⟩) rfl (by decide)
      obtain ⟨-, -, -, hp, hn⟩ := letter_plain d.letter
      exact List.forall_mem_cons.mpr ⟨h, List.forall_mem_singleton.mpr ⟨hp, hn⟩⟩
    · next hm => exact List.forall_mem_singleton.mpr (directive_munched hm)

theorem Item.render_pieces (item : Item) : render item.pieces = item.text := by
  cases item with
  | literal c hp hn => rfl
  | percent => rfl
  | directive d =>
    rw [Item.pieces]
    split
    · next hm =>
      simp [render, Piece.text, Item.text, hm, Modifier.text, Spec.text_eq, Spec.body,
        Directive.spec, Spec.precText]
    · simp [render, Piece.text, Item.text]

def piecesOf (items : List Item) : List Piece := items.flatMap Item.pieces

theorem render_piecesOf (items : List Item) : render (piecesOf items) = formatOf items := by
  rw [render, piecesOf, formatOf, List.flatMap_assoc]
  congr 1
  funext item
  exact item.render_pieces

theorem piecesOf_ok (items : List Item) : ∀ x ∈ piecesOf items, x.Ok := by
  intro x hx
  obtain ⟨item, -, hx⟩ := List.mem_flatMap.mp hx
  exact item.pieces_ok x hx

/-- `vprintf` on a format of the grammar is the run of what the scanner makes of it. -/
theorem vprintf_items (env : Env) (items : List Item) (behind : List Char) :
    vprintf env (formatOf items ++ nul :: behind) =
      (runAll env ((piecesOf items).map (Piece.turn env)) .init).map fun p =>
        (⟨(formatOf items).length, nul :: behind, (formatOf items).length⟩, p) := by
  rw [← render_piecesOf]
  exact vprintf_pieces env (piecesOf_ok items) behind

/-- The items the scanner gets wrong. -/
def Item.Slips : Item → Prop
  | .literal _ _ _ => False
  | .percent => True
  | .directive d => d.modifier = .hh

private theorem conv_eq {d : Directive} (hm : d.modifier ≠ .hh) (env : Env) :
    (d.spec d.modifier.text d.letter.char).conv env = d.conv env := by
  funext k
  have hc : (d.spec d.modifier.text d.letter.char).lengthChar = d.modifier.letter := by
    obtain ⟨flags, width, prec, modifier, letter⟩ := d
    cases modifier <;> first | exact absurd rfl hm | (cases letter <;> rfl)
  rw [Directive.conv, ← hc]
  rfl

/-- Every other item causes exactly the turn it means. -/
theorem Item.turns_eq {item : Item} (h : ¬ item.Slips) (env : Env) :
    item.pieces.map (Piece.turn env) = [item.meaning env] := by
  cases item with
  | literal c hp hn => rfl
  | percent => exact absurd trivial h
  | directive d =>
    have hm : d.modifier ≠ .hh := h
    rw [Item.pieces, if_neg hm, List.map_singleton, Piece.turn, conv_eq hm]
    rfl

theorem Directive.action_args (d : Directive) (env : Env) (k : Nat) :
    (d.conv env k).action.args = [d.argType] := by
  obtain ⟨flags, width, prec, modifier, letter⟩ := d
  cases letter <;> cases modifier <;> rfl

theorem Item.meaning_args (env : Env) (k : Nat) (item : Item) :
    (item.meaning env).args k = item.argTypes := by
  cases item with
  | literal c hp hn => rfl
  | percent => rfl
  | directive d => rw [Item.meaning, Turn.args, d.action_args]; rfl

/-- The turns a format of the grammar really causes. -/
def turnsOf (env : Env) (items : List Item) : List Turn :=
  items.flatMap fun item => item.pieces.map (Piece.turn env)

theorem piecesOf_turns (env : Env) (items : List Item) :
    (piecesOf items).map (Piece.turn env) = turnsOf env items :=
  List.map_flatMap ..

end NyaOS.Stdio
