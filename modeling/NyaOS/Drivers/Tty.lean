import Mathlib.Data.Nat.Bitwise
import Mathlib.Logic.Function.Basic
import NyaOS.Library.Painting

/-! The framebuffer terminal of `tty.c`. Only set bits of a glyph are painted; what was on the
screen before stays. -/
namespace NyaOS.Drivers.Tty
open Library.Painting

/-- The fields of `limine_framebuffer` the terminal uses. -/
structure Framebuffer where
  width : Nat
  height : Nat
  pitch : Nat

/-- A PSF2 font file: the header, and its bytes by their offset in the file. -/
structure PsfFont where
  headersize : Nat
  numglyph : Nat
  bytesperglyph : Nat
  height : Nat
  width : Nat
  byte : Nat → BitVec 8

structure Color where
  r : Nat
  g : Nat
  b : Nat

def Color.word (c : Color) : Nat := (c.r <<< 16) ||| (c.g <<< 8) ||| c.b

def terminalFg : Color := ⟨202, 211, 245⟩
def terminalBg : Color := ⟨48, 52, 70⟩
def fontSize : Nat := 2

/-- A `putpixel` call, or a read of the font file while a character is drawn. -/
inductive Access
  | pixel (x y : Nat)
  | glyph (c : BitVec 8) (offset : Nat)

/-- The words behind `fb->address`. -/
abbrev Screen := Canvas Nat Access

structure Terminal where
  screen : Screen
  row : Nat
  column : Nat

section Code
variable (fb : Framebuffer) (font : PsfFont)

/-- The word `putpixel` stores to. -/
def pixelIndex (x y : Nat) : Nat := (y * (fb.pitch / 4) + x) % 2 ^ 32

def putpixel (c : Color) (x y : Nat) (t : Screen) : Screen where
  mem := Function.update t.mem (pixelIndex fb x y) c.word
  log := .pixel x y :: t.log

/-- `fillrect`; `fb_ptr` starts at the first row of the framebuffer. -/
def fillrect (c : Color) (x y w h : Nat) : Screen → Screen :=
  forLoop ((y + h) % 2 ^ 32 - y) fun i => forLoop ((x + w) % 2 ^ 32 - x) fun j t =>
    { t with mem := Function.update t.mem (i * (fb.pitch / 4) + (x + j)) c.word }

/-- The glyph drawn for a byte. -/
def glyphIndex (c : BitVec 8) : Nat := if 0 < c.toNat ∧ c.toNat < font.numglyph then c.toNat else 0

/-- The pixels of the bit in line `i` and column `j`, with `x` and `y` as unsigned ints. -/
def fillBlock (color : Color) (x y pixelSize i j : Nat) : Screen → Screen :=
  forLoop pixelSize fun px => forLoop pixelSize fun py =>
    putpixel fb color ((x + j * pixelSize + px) % 2 ^ 32) ((y + i * pixelSize + py) % 2 ^ 32)

/-- The inner loop of `draw_char`: `n` more bits of line `i`, from bit `j` on. -/
def drawBits (c : BitVec 8) (color : Color) (x y pixelSize i : Nat) :
    Nat → BitVec 8 → Nat → Nat → Screen → Screen
  | 0, _, _, _, t => t
  | n + 1, mask, currentByte, j, t =>
    let t : Screen := { t with log := .glyph c currentByte :: t.log }
    let t := if font.byte currentByte &&& mask ≠ 0 then fillBlock fb color x y pixelSize i j t else t
    if mask >>> 1 = 0 then drawBits c color x y pixelSize i n 0x80 (currentByte + 1) (j + 1) t
    else drawBits c color x y pixelSize i n (mask >>> 1) currentByte (j + 1) t

/-- `draw_char`; the offset of the glyph and of its lines are 32-bit products. -/
def drawChar (c : BitVec 8) (x y : Nat) (color : Color) (pixelSize : Nat) : Screen → Screen :=
  let glyph := font.headersize + glyphIndex font c * font.bytesperglyph % 2 ^ 32
  let bytesPerGlyphLine := (font.width + 7) % 2 ^ 32 / 8
  forLoop font.height fun i =>
    drawBits fb font c color x y pixelSize i font.width 0x80 (glyph + bytesPerGlyphLine * i % 2 ^ 32) 0

def clearScreen : Screen → Screen :=
  forLoop fb.height fun y => forLoop fb.width fun x =>
    putpixel fb terminalBg (x % 2 ^ 32) (y % 2 ^ 32)

/-- The rows and columns `terminal_putchar` counts to. For a font that fits the divisor is not
zero. -/
def rowCount : Nat := fb.height / (font.height * fontSize % 2 ^ 32)
def columnCount : Nat := fb.width / (font.width * fontSize % 2 ^ 32)

/-- `if (++terminal_row == ...)`, which is there twice. -/
def nextRow (t : Terminal) : Terminal :=
  if t.row + 1 = rowCount fb font then { t with screen := clearScreen fb t.screen, row := 0 }
  else { t with row := t.row + 1 }

def newline : BitVec 8 := 10

def terminalPutchar (c : BitVec 8) (t : Terminal) : Terminal :=
  if c = newline then nextRow fb font { t with column := 0 }
  else
    let x := t.column * font.width * fontSize % 2 ^ 32
    let y := t.row * font.height * fontSize % 2 ^ 32
    let t := { t with screen := drawChar fb font c x y terminalFg fontSize t.screen }
    if t.column + 1 = columnCount fb font then nextRow fb font { t with column := 0 }
    else { t with column := t.column + 1 }

def terminalWrite (data : List (BitVec 8)) (t : Terminal) : Terminal :=
  data.foldl (fun t c => terminalPutchar fb font c t) t

end Code

/-- `terminal_initialize` takes the first framebuffer and clears it; without one it halts. The
cursor is not set. -/
def terminalInitialize (framebuffers : List Framebuffer) (t : Terminal) : Option (Framebuffer × Terminal) :=
  match framebuffers with
  | [] => none
  | fb :: _ => some (fb, { t with screen := clearScreen fb t.screen })

/-- A byte other than newline is drawn at the cursor, which then moves on. -/
theorem terminalPutchar_of_ne {fb : Framebuffer} {font : PsfFont} {c : BitVec 8} (hnl : c ≠ newline)
    (s : Screen) (r q : Nat) :
    terminalPutchar fb font c ⟨s, r, q⟩ =
      let s := drawChar fb font c (q * font.width * fontSize % 2 ^ 32)
        (r * font.height * fontSize % 2 ^ 32) terminalFg fontSize s
      if q + 1 = columnCount fb font then nextRow fb font ⟨s, r, 0⟩ else ⟨s, r, q + 1⟩ := by
  rw [terminalPutchar, if_neg hnl]

section Effects
variable (fb : Framebuffer) (font : PsfFont)

theorem paints_putpixel (c : Color) (x y : Nat) (t : Screen) :
    Paints c.word (· = pixelIndex fb x y) (· = .pixel x y) t (putpixel fb c x y t) where
  inside := by
    rintro a rfl
    exact Function.update_self ..
  outside := fun a ha => Function.update_of_ne ha ..
  log := fun e => by
    rw [putpixel, List.mem_cons]
    exact or_comm

/-- The words and the calls of one block. -/
def InBlock (x y pixelSize i j a : Nat) : Prop := ∃ px < pixelSize, ∃ py < pixelSize,
  a = pixelIndex fb ((x + j * pixelSize + px) % 2 ^ 32) ((y + i * pixelSize + py) % 2 ^ 32)

def BlockCall (x y pixelSize i j : Nat) (e : Access) : Prop := ∃ px < pixelSize, ∃ py < pixelSize,
  e = .pixel ((x + j * pixelSize + px) % 2 ^ 32) ((y + i * pixelSize + py) % 2 ^ 32)

theorem paints_fillBlock (color : Color) (x y pixelSize i j : Nat) (t : Screen) :
    Paints color.word (InBlock fb x y pixelSize i j) (BlockCall x y pixelSize i j) t
      (fillBlock fb color x y pixelSize i j t) :=
  paints_forLoop pixelSize (fun _ _ => paints_forLoop pixelSize fun _ _ =>
    paints_putpixel fb color _ _) t

theorem paints_clearScreen (t : Screen) :
    Paints terminalBg.word
      (fun a => ∃ y < fb.height, ∃ x < fb.width, a = pixelIndex fb (x % 2 ^ 32) (y % 2 ^ 32))
      (fun e => ∃ y < fb.height, ∃ x < fb.width, e = .pixel (x % 2 ^ 32) (y % 2 ^ 32)) t
      (clearScreen fb t) :=
  paints_forLoop fb.height (fun _ _ => paints_forLoop fb.width fun _ _ =>
    paints_putpixel fb terminalBg _ _) t

/-- Bit `j` of the line that starts at `line`: bits go from the high end of each byte. -/
def litAt (line j : Nat) : Bool := (font.byte (line + j / 8)).getLsbD (7 - j % 8)

/-- The mask at column `k` of a byte picks its bit, and is shifted out after the last. -/
theorem mask_bit {k : Nat} (hk : k < 8) (b : BitVec 8) :
    (b &&& (0x80#8 >>> k) ≠ 0 ↔ b.getLsbD (7 - k) = true) ∧ (0x80#8 >>> k >>> 1 = 0 ↔ k = 7) := by
  revert b k
  decide +kernel

private theorem exists_lt_succ {Q : Nat → Prop} (n j : Nat) :
    (∃ d < n + 1, Q (j + d)) ↔ Q j ∨ ∃ d < n, Q (j + 1 + d) := by
  rw [Nat.exists_lt_succ_left]
  simp only [Nat.add_zero, Nat.add_assoc, Nat.add_comm 1]

/-- The mask walks over the bits from `j` on. -/
theorem paints_drawBits (c : BitVec 8) (color : Color) (x y pixelSize i line n j : Nat) (t : Screen) :
    Paints color.word
      (fun a => ∃ d < n, litAt font line (j + d) = true ∧ InBlock fb x y pixelSize i (j + d) a)
      (fun e => ∃ d < n, e = .glyph c (line + (j + d) / 8) ∨
        litAt font line (j + d) = true ∧ BlockCall x y pixelSize i (j + d) e) t
      (drawBits fb font c color x y pixelSize i n (0x80#8 >>> (j % 8)) (line + j / 8) j t) := by
  induction n generalizing j t with
  | zero => exact (paints_refl _ t).congr (by simp) (by simp)
  | succ n ih =>
    obtain ⟨hlit, hlast⟩ := mask_bit (Nat.mod_lt j (by decide)) (font.byte (line + j / 8))
    -- one turn: the read, and the block if the bit is set
    let t₁ : Screen := { t with log := .glyph c (line + j / 8) :: t.log }
    let t₂ := if font.byte (line + j / 8) &&& (0x80#8 >>> (j % 8)) ≠ 0 then
      fillBlock fb color x y pixelSize i j t₁ else t₁
    have hread : Paints color.word (fun _ => False) (· = .glyph c (line + j / 8)) t t₁ :=
      ⟨fun _ h => h.elim, fun _ _ => rfl, fun e => by rw [List.mem_cons, or_comm]⟩
    have hfill : Paints color.word
        (fun a => litAt font line j = true ∧ InBlock fb x y pixelSize i j a)
        (fun e => litAt font line j = true ∧ BlockCall x y pixelSize i j e) t₁ t₂ := by
      by_cases hset : font.byte (line + j / 8) &&& (0x80#8 >>> (j % 8)) ≠ 0
      · have hl : litAt font line j = true := hlit.mp hset
        rw [show t₂ = _ from if_pos hset]
        exact (paints_fillBlock fb color x y pixelSize i j t₁).congr (fun a => and_iff_right hl)
          fun e => and_iff_right hl
      · have hl : ¬ litAt font line j = true := mt hlit.mpr hset
        rw [show t₂ = t₁ from if_neg hset]
        exact (paints_refl _ t₁).congr (fun a => iff_false_intro fun h => hl h.1)
          fun e => iff_false_intro fun h => hl h.1
    have hrest : drawBits fb font c color x y pixelSize i (n + 1) (0x80#8 >>> (j % 8)) (line + j / 8) j t =
        drawBits fb font c color x y pixelSize i n (0x80#8 >>> ((j + 1) % 8)) (line + (j + 1) / 8)
          (j + 1) t₂ := by
      rw [drawBits]
      by_cases h7 : j % 8 = 7
      · rw [if_pos (hlast.mpr h7), show (j + 1) % 8 = 0 by omega, show (j + 1) / 8 = j / 8 + 1 by omega]
        rfl
      · rw [if_neg (mt hlast.mp h7), show (j + 1) % 8 = j % 8 + 1 by omega,
          show (j + 1) / 8 = j / 8 by omega, BitVec.shiftRight_add]
    rw [hrest]
    refine ((hread.trans hfill).trans (ih (j + 1) t₂)).congr (fun a => ?_) fun e => ?_
    · rw [false_or]
      exact exists_lt_succ (Q := fun j => litAt font line j = true ∧ InBlock fb x y pixelSize i j a) n j
    · exact exists_lt_succ (Q := fun j => e = .glyph c (line + j / 8) ∨
        litAt font line j = true ∧ BlockCall x y pixelSize i j e) n j

/-- Where a line of a glyph starts for the code. -/
def lineStart (c : BitVec 8) (i : Nat) : Nat :=
  font.headersize + glyphIndex font c * font.bytesperglyph % 2 ^ 32 +
    (font.width + 7) % 2 ^ 32 / 8 * i % 2 ^ 32

theorem paints_drawChar (c : BitVec 8) (x y : Nat) (color : Color) (pixelSize : Nat) (t : Screen) :
    Paints color.word
      (fun a => ∃ i < font.height, ∃ j < font.width,
        litAt font (lineStart font c i) j = true ∧ InBlock fb x y pixelSize i j a)
      (fun e => ∃ i < font.height, ∃ j < font.width, e = .glyph c (lineStart font c i + j / 8) ∨
        litAt font (lineStart font c i) j = true ∧ BlockCall x y pixelSize i j e) t
      (drawChar fb font c x y color pixelSize t) := by
  refine paints_forLoop font.height (fun i _ t => ?_) t
  refine (paints_drawBits fb font c color x y pixelSize i (lineStart font c i) font.width 0 t).congr
    (fun a => ?_) fun e => ?_
  · simp only [Nat.zero_add]
  · simp only [Nat.zero_add]

/-- The words of a rectangle. -/
def Rectangle (x y w h a : Nat) : Prop := ∃ i < h, ∃ j < w, a = (y + i) * (fb.pitch / 4) + (x + j)

theorem paints_fillrect (c : Color) {x y w h : Nat} (hx : x + w < 2 ^ 31) (hy : y + h < 2 ^ 31) (t : Screen) :
    Paints c.word (Rectangle fb x 0 w h) (fun _ => False) t (fillrect fb c x y w h t) := by
  have hrows : (y + h) % 2 ^ 32 - y = h := by omega
  have hcolumns : (x + w) % 2 ^ 32 - x = w := by omega
  have hword : ∀ i j (t : Screen), Paints c.word (· = i * (fb.pitch / 4) + (x + j)) (fun _ => False) t
      { t with mem := Function.update t.mem (i * (fb.pitch / 4) + (x + j)) c.word } := by
    refine fun i j t => ⟨?_, fun a ha => Function.update_of_ne ha .., fun e => (or_false _).to_iff.symm⟩
    rintro a rfl
    exact Function.update_self ..
  rw [fillrect, hrows, hcolumns]
  refine (paints_forLoop h (fun i _ => paints_forLoop w fun j _ => hword i j) t).congr (fun a => ?_) fun e => ?_
  · simp only [Rectangle, Nat.zero_add]
  · simp

end Effects

/-- `fillrect` fills its columns from the top of the screen on, so it fills the rectangle that it is asked for
only at the top, or if there is nothing to fill. -/
theorem fillrect_rectangle_iff (fb : Framebuffer) (c : Color) {x y w h : Nat} (hy : y + h < 2 ^ 31)
    (hpitch : x + w ≤ fb.pitch / 4) (hx : x + w < 2 ^ 31) :
    (∀ t, Paints c.word (Rectangle fb x 0 w h) (fun _ => False) t (fillrect fb c x y w h t)) ∧
    ((∀ t, Paints c.word (Rectangle fb x y w h) (fun _ => False) t (fillrect fb c x y w h t)) ↔
      y = 0 ∨ w = 0 ∨ h = 0) := by
  have hpaints := paints_fillrect fb c hx hy
  refine ⟨hpaints, fun hrect => ?_, fun hempty t => (hpaints t).congr (fun a => ?_) fun _ => Iff.rfl⟩
  · -- on a screen of another colour the last row asked for tells the two apart
    by_contra hne
    have hlast : Rectangle fb x y w h ((y + (h - 1)) * (fb.pitch / 4) + (x + 0)) := ⟨h - 1, by omega, 0, by omega, rfl⟩
    have hinside := (hrect ⟨fun _ => c.word + 1, []⟩).inside _ hlast
    by_cases htop : Rectangle fb x 0 w h ((y + (h - 1)) * (fb.pitch / 4) + (x + 0))
    · obtain ⟨i, hi, j, hj, heq⟩ := htop
      have hrow : ∀ r k, k < fb.pitch / 4 → (r * (fb.pitch / 4) + k) / (fb.pitch / 4) = r := by
        intro r k hk
        rw [Nat.mul_comm, Nat.mul_add_div (by omega), Nat.div_eq_of_lt hk, Nat.add_zero]
      have hrows := congrArg (· / (fb.pitch / 4)) heq
      rw [hrow _ _ (by omega), hrow _ _ (by omega)] at hrows
      omega
    · rw [(hpaints ⟨fun _ => c.word + 1, []⟩).outside _ htop] at hinside
      change c.word + 1 = c.word at hinside
      omega
  · rcases hempty with rfl | rfl | rfl <;> simp [Rectangle]

theorem fillrect_rectangle_corner : ¬ ∀ t, Paints terminalFg.word (Rectangle ⟨64, 64, 256⟩ 8 8 4 4) (fun _ => False) t
    (fillrect ⟨64, 64, 256⟩ terminalFg 8 8 4 4 t) :=
  (fillrect_rectangle_iff ⟨64, 64, 256⟩ terminalFg (by decide) (by decide) (by decide)).2.not.mpr (by decide)

end NyaOS.Drivers.Tty
