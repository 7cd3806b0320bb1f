import NyaOS.Stdio.IntStr

/-! `vprintf`: one loop over the format that prints literal characters and, at each `%`,
scans a conversion and dispatches on its specifier. The format is the memory from its first
byte on, so that a read behind the terminator finds whatever follows it. -/
namespace NyaOS.Stdio

inductive IntType where
  | signedChar | short | int | unsignedInt | long | unsignedLong | longLong | unsignedLongLong
  | intmax | uintmax | size | ptrdiff | wchar
deriving DecidableEq

/-- Conversion of a value to the type, as an assignment does it. -/
def IntType.convert : IntType → Int → Int
  | .signedChar, v => v.bmod (2 ^ 8)
  | .short, v => v.bmod (2 ^ 16)
  | .int, v | .wchar, v => v.bmod (2 ^ 32)
  | .unsignedInt, v => v % 2 ^ 32
  | .long, v | .longLong, v | .intmax, v | .ptrdiff, v => v.bmod (2 ^ 64)
  | .unsignedLong, v | .unsignedLongLong, v | .uintmax, v | .size, v => v % 2 ^ 64

/-- The type that `va_arg` is called with. -/
inductive VaType where
  | value (t : IntType)
  | pointer (t : IntType)
  | charPtr
  | double
deriving DecidableEq

/-- What `vprintf` does to the outside, in order. -/
inductive Effect where
  | putchar (c : Char)
  | store (addr : BitVec 64) (t : IntType) (value : Int)
deriving DecidableEq

/-- The flags, numbers and letters of one conversion; no modifier is `nul`. -/
structure Conv where
  leftJustify : Bool
  plusSign : Bool
  altForm : Bool
  spaceNoSign : Bool
  zeroPad : Bool
  lengthSpec : Int
  precSpec : Int
  length : Char
  specifier : Char

def Conv.init : Conv := ⟨false, false, false, false, false, 0, 0, nul, nul⟩

def Conv.layout (cv : Conv) : Layout :=
  ⟨cv.plusSign, cv.spaceNoSign, cv.lengthSpec, cv.leftJustify, cv.zeroPad⟩

/-- The argument list, slot by slot, the string at an address, and the floating-point
conversions: what they print and add to the count, if they return. -/
structure Env where
  word : Nat → BitVec 64
  string : BitVec 64 → List Char
  float : Conv → BitVec 64 → Option (List Char × Nat)

/-- What a run has done so far: the types of the arguments taken, the effects, and the
`int` counter `chars`. -/
structure Progress where
  taken : List VaType
  trace : List Effect
  chars : BitVec 32

def Progress.init : Progress := ⟨[], [], 0⟩

abbrev Print := StateT Progress (Except Fault)

def vaArg (env : Env) (t : VaType) : Print (BitVec 64) := fun p =>
  .ok (env.word p.taken.length, { p with taken := p.taken ++ [t] })

def emit (effects : List Effect) : Print Unit := fun p =>
  .ok ((), { p with trace := p.trace ++ effects })

def count (n : Nat) : Print Unit := fun p =>
  .ok ((), { p with chars := p.chars + BitVec.ofNat 32 n })

/-- `putchar` of an unsigned char is never `EOF`, so `print` always succeeds. -/
def print (s : List Char) : Print Unit := emit (s.map .putchar)

def displayString (s : List Char) : Print Unit := do
  print s
  count s.length

def displayCharacter (c : Char) : Print Unit := emit [.putchar c]

/-- `va_arg` and the conversion to the variable `integer` in the unsigned cases; a modifier
outside the switch takes no argument. -/
def unsignedArg (length : Char) : Option (IntType × (BitVec 64 → Nat)) :=
  if length = nul then some (.unsignedInt, fun w => (w.setWidth 32).toNat)
  else if length = 'H' then some (.unsignedInt, fun w => (w.setWidth 8).toNat)
  else if length = 'h' then some (.unsignedInt, fun w => (w.setWidth 16).toNat)
  else if length = 'l' then some (.unsignedLong, BitVec.toNat)
  else if length = 'q' then some (.unsignedLongLong, BitVec.toNat)
  else if length = 'j' then some (.uintmax, BitVec.toNat)
  else if length = 'z' then some (.size, BitVec.toNat)
  else if length = 't' then some (.ptrdiff, BitVec.toNat)
  else none

/-- The same in the signed cases; `size_t` stays unsigned there. -/
def signedArg (length : Char) : Option (IntType × (BitVec 64 → Int)) :=
  if length = nul then some (.int, fun w => (w.setWidth 32).toInt)
  else if length = 'H' then some (.int, fun w => (w.setWidth 8).toInt)
  else if length = 'h' then some (.int, fun w => (w.setWidth 16).toInt)
  else if length = 'l' then some (.long, BitVec.toInt)
  else if length = 'q' then some (.longLong, BitVec.toInt)
  else if length = 'j' then some (.intmax, BitVec.toInt)
  else if length = 'z' then some (.size, fun w => w.toNat)
  else if length = 't' then some (.ptrdiff, BitVec.toInt)
  else none

/-- The pointee of `%n`. -/
def storeType (length : Char) : Option IntType :=
  if length = 'H' then some .signedChar
  else if length = 'h' then some .short
  else if length = nul then some .int
  else if length = 'l' then some .long
  else if length = 'q' then some .longLong
  else if length = 'j' then some .intmax
  else if length = 'z' then some .size
  else if length = 't' then some .ptrdiff
  else none

/-- `__int_str` into the zeroed buffer and `display_string` of as many characters as it
counted. -/
def displayInt (i base : Nat) (cv : Conv) (isNegative : Bool) : Print Unit := do
  let (b, length) ← intStr i zeroBuffer base cv.layout isNegative
  displayString (b.take length)

def convertUnsigned (env : Env) (cv : Conv) (base : Nat) : Print Unit :=
  match unsignedArg cv.length with
  | none => pure ()
  | some (t, integer) => do
    let w ← vaArg env (.value t)
    displayInt (integer w) base cv false

def convertSigned (env : Env) (cv : Conv) (base : Nat) : Print Unit :=
  match signedArg cv.length with
  | none => pure ()
  | some (t, integer) => do
    let w ← vaArg env (.value t)
    let neg := decide (integer w < 0)
    let u := BitVec.ofInt 64 (integer w)
    displayInt (if neg then -u else u).toNat base cv neg

def convertChar (env : Env) (cv : Conv) : Print Unit := do
  let w ← vaArg env (.value (if cv.length = 'l' then .wchar else .int))
  displayCharacter (Char.ofNat (w.setWidth 8).toNat)

def convertString (env : Env) : Print Unit := do
  let w ← vaArg env .charPtr
  displayString (env.string w)

def convertStore (env : Env) (cv : Conv) : Print Unit :=
  match storeType cv.length with
  | none => pure ()
  | some t => do
    let w ← vaArg env (.pointer t)
    let p ← get
    emit [.store w t (t.convert p.chars.toInt)]

def convertFloat (env : Env) (cv : Conv) : Print Unit := do
  let w ← vaArg env .double
  match env.float cv w with
  | none => throw .overrun
  | some (s, n) => do
    print s
    count n

/-- The octal prefix goes out before the switch, through `print` and `++chars`. -/
def altOctal (cv : Conv) : Print Unit :=
  if cv.altForm then do
    print ['0']
    count 1
  else pure ()

def altHex (cv : Conv) : Print Unit :=
  if cv.altForm then displayString ['0', 'x'] else pure ()

/-- The switch on the specifier, after `o` and `p` have been rewritten to `u`. -/
def convert (env : Env) (cv : Conv) : Print Unit :=
  match cv.specifier with
  | 'o' => do
    altOctal cv
    convertUnsigned env cv 8
  | 'p' => convertUnsigned env { cv with length := 'z' } 16
  | 'X' => do
    altHex cv
    convertUnsigned env cv 16
  | 'x' => do
    altHex cv
    convertUnsigned env cv 17
  | 'u' => convertUnsigned env cv 10
  | 'd' | 'i' => convertSigned env cv 10
  | 'c' => convertChar env cv
  | 's' => convertString env
  | 'n' => convertStore env cv
  | 'e' | 'E' | 'f' | 'F' | 'g' | 'G' => convertFloat env cv
  | _ => pure ()

/-- The scanner's position: the index `i`, the memory from there on, and the highest index
of the format read so far. -/
structure Cursor where
  i : Nat
  rest : List Char
  top : Nat

/-- A run of `vprintf`: where the scanner is and what has been done. -/
abbrev Vprintf := StateT Cursor Print

def peek : Vprintf Char := fun s =>
  match s.rest with
  | [] => throw .unmapped
  | c :: _ => pure (c, { s with top := max s.top s.i })

def skip : Vprintf Unit := fun s => pure ((), { s with i := s.i + 1, rest := s.rest.tail })

def isdigit (c : Char) : Bool := '0' ≤ c && c ≤ '9'

/-- The effect of a flag character, if it is one. -/
def setFlag (cv : Conv) : Char → Option Conv
  | '-' => some { cv with leftJustify := true }
  | '+' => some { cv with plusSign := true }
  | '#' => some { cv with altForm := true }
  | ' ' => some { cv with spaceNoSign := true }
  | '0' => some { cv with zeroPad := true }
  | _ => none

/-- `while (true) switch (format[i])` -/
def scanFlags : Nat → Conv → Vprintf Conv
  | 0, _ => throw .unmapped
  | fuel + 1, cv => do
    match setFlag cv (← peek) with
    | some cv =>
      skip
      scanFlags fuel cv
    | none => pure cv

/-- `while (isdigit(format[i]))` -/
def scanNumber : Nat → Int → Vprintf Int
  | 0, _ => throw .unmapped
  | fuel + 1, n => do
    let c ← peek
    if isdigit c then
      skip
      scanNumber fuel (toInt32 (toInt32 (n * 10) + (c.toNat - '0'.toNat)))
    else pure n

/-- `if (format[i] == '*')` -/
def scanStar (env : Env) (n : Int) : Vprintf Int := do
  if (← peek) = '*' then
    let w ← vaArg env (.value .int)
    skip
    pure (w.setWidth 32).toInt
  else pure n

/-- The length modifier; a second `h` changes the letter but stays unread. -/
def scanLength : Vprintf Char := do
  let c ← peek
  if c = 'h' ∨ c = 'l' ∨ c = 'j' ∨ c = 'z' ∨ c = 't' ∨ c = 'L' then
    skip
    let d ← peek
    if d = 'h' then pure 'H'
    else if d = 'l' then
      skip
      pure 'q'
    else pure c
  else pure nul

/-- The precision: a `.` with a number or a star behind it, else 6. -/
def scanPrec (env : Env) (fuel : Nat) : Vprintf Int := do
  if (← peek) = '.' then
    skip
    let precSpec ← scanNumber fuel 0
    scanStar env precSpec
  else pure 6

/-- From behind the `%` to the specifier, which is read but not passed. -/
def scanConv (env : Env) : Vprintf Conv := do
  let fuel := (← get).rest.length
  let cv ← scanFlags fuel .init
  let lengthSpec ← scanNumber fuel 0
  let lengthSpec ← scanStar env lengthSpec
  let precSpec ← scanPrec env fuel
  let length ← scanLength
  let specifier ← peek
  pure { cv with
    lengthSpec := lengthSpec
    precSpec := precSpec
    length := length
    specifier := specifier }

/-- `putchar(format[i]); chars++;` -/
def putLiteral (c : Char) : Print Unit := do
  print [c]
  count 1

/-- `for (int i = 0; format[i]; ++i)`; each turn moves on, so the memory bounds the turns. -/
def vprintfLoop (env : Env) : Nat → Vprintf Unit
  | 0 => throw .unmapped
  | fuel + 1 => do
    let c ← peek
    if c = nul then pure ()
    else do
      if c = '%' then
        skip
        let cv ← scanConv env
        convert env cv
      else putLiteral c
      skip
      vprintfLoop env fuel

/-- Runs `vprintf` on the memory at `format`; the result is the final position and what was
done, with `chars` the value returned. -/
def vprintf (env : Env) (format : List Char) : Except Fault (Cursor × Progress) := do
  let ((_, s), p) ← vprintfLoop env format.length ⟨0, format, 0⟩ .init
  pure (s, p)

end NyaOS.Stdio
