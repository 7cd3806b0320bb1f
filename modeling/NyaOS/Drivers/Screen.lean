import NyaOS.Drivers.Tty

/-! What the terminal shows: the framebuffer is the picture of a grid of characters, as long as no
glyph's offset overflows. -/
namespace NyaOS.Drivers.Tty
open Library.Painting

/-- The size of a character cell in pixels. -/
def cellWidth (font : PsfFont) : Nat := font.width * fontSize
def cellHeight (font : PsfFont) : Nat := font.height * fontSize

/-- A framebuffer whose pixels have 32-bit indices, and a font with room for one character. -/
structure Fits (fb : Framebuffer) (font : PsfFont) : Prop where
  line : fb.width ≤ fb.pitch / 4
  pixels : fb.height * (fb.pitch / 4) < 2 ^ 32
  width_pos : 1 ≤ font.width
  height_pos : 1 ≤ font.height
  glyph : font.bytesperglyph = font.height * ((font.width + 7) / 8)
  glyphs : 1 ≤ font.numglyph
  columns : cellWidth font ≤ fb.width
  rows : cellHeight font ≤ fb.height

/-- A grid of characters with a cursor. -/
structure Grid where
  cell : Nat → Nat → Option (BitVec 8)
  row : Nat
  column : Nat

namespace Grid

def blank : Grid := ⟨fun _ _ => none, 0, 0⟩

/-- To the start of the next row; the grid is blanked when there is none. -/
def down (rows : Nat) (g : Grid) : Grid :=
  if g.row + 1 = rows then blank else { g with row := g.row + 1, column := 0 }

def setCell (g : Grid) (c : BitVec 8) : Grid :=
  { g with cell := fun r q => if r = g.row ∧ q = g.column then some c else g.cell r q }

@[simp] theorem setCell_self (g : Grid) (c : BitVec 8) : (g.setCell c).cell g.row g.column = some c :=
  if_pos ⟨rfl, rfl⟩

theorem setCell_of_ne {g : Grid} {r q : Nat} (h : ¬ (r = g.row ∧ q = g.column)) (c : BitVec 8) :
    (g.setCell c).cell r q = g.cell r q := if_neg h

def put (rows columns : Nat) (g : Grid) (c : BitVec 8) : Grid :=
  if c = newline then g.down rows
  else if g.column + 1 = columns then (g.setCell c).down rows
  else { g.setCell c with column := g.column + 1 }

def ofText (rows columns : Nat) (data : List (BitVec 8)) : Grid := data.foldl (put rows columns) blank

end Grid

/-- The first byte of a byte's glyph, and the bit of the glyph in line `i` and column `j`. -/
def glyphStart (font : PsfFont) (c : BitVec 8) : Nat :=
  font.headersize + glyphIndex font c * font.bytesperglyph

def glyphBit (font : PsfFont) (c : BitVec 8) (i j : Nat) : Bool :=
  litAt font (glyphStart font c + (font.width + 7) / 8 * i) j

/-- The colour of a pixel: foreground exactly where the glyph of its cell has a bit. -/
def Grid.pixel (font : PsfFont) (g : Grid) (x y : Nat) : Color :=
  match g.cell (y / cellHeight font) (x / cellWidth font) with
  | none => terminalBg
  | some c =>
    if glyphBit font c (y % cellHeight font / fontSize) (x % cellWidth font / fontSize) then terminalFg
    else terminalBg

example : terminalFg.word ≠ terminalBg.word := by decide

/-- Calls of `putpixel` are on the screen, and a character is read from its own glyph. -/
def Allowed (fb : Framebuffer) (font : PsfFont) : Access → Prop
  | .pixel x y => x < fb.width ∧ y < fb.height
  | .glyph c offset => glyphStart font c ≤ offset ∧ offset < glyphStart font c + font.bytesperglyph

/-- The bytes written from `t` on are shown. -/
structure ShowsText (fb : Framebuffer) (font : PsfFont) (t : Terminal) (data : List (BitVec 8)) : Prop where
  cursor : ∀ written, written <+: data →
    (terminalWrite fb font written t).row < fb.height / cellHeight font ∧
      (terminalWrite fb font written t).column < fb.width / cellWidth font
  accesses : ∀ e ∈ (terminalWrite fb font data t).screen.log, Allowed fb font e
  picture : ∀ x < fb.width, ∀ y < fb.height,
    (terminalWrite fb font data t).screen.mem (y * (fb.pitch / 4) + x) =
      ((Grid.ofText (fb.height / cellHeight font) (fb.width / cellWidth font) data).pixel font x y).word

section Arithmetic
variable {fb : Framebuffer} {font : PsfFont} (h : Fits fb font)
include h

theorem Fits.cell_pos : 0 < cellWidth font ∧ 0 < cellHeight font := by
  have hw := h.width_pos
  have hh := h.height_pos
  unfold cellWidth cellHeight fontSize
  omega

theorem Fits.size_lt : fb.width < 2 ^ 32 ∧ fb.height < 2 ^ 32 := by
  have hpos := h.cell_pos
  have hline := h.line
  have hpixels := h.pixels
  have hcolumns := h.columns
  have hrows := h.rows
  have h₁ := Nat.le_mul_of_pos_left (fb.pitch / 4) (show 0 < fb.height by omega)
  have h₂ := Nat.le_mul_of_pos_right fb.height (show 0 < fb.pitch / 4 by omega)
  omega

/-- The code's counts of rows and columns. -/
theorem Fits.counts : rowCount fb font = fb.height / cellHeight font ∧
    columnCount fb font = fb.width / cellWidth font := by
  have hsize := h.size_lt
  have hcolumns := h.columns
  have hrows := h.rows
  constructor
  · rw [rowCount, Nat.mod_eq_of_lt (show font.height * fontSize < 2 ^ 32 from by
      change cellHeight font < 2 ^ 32; omega)]
    rfl
  · rw [columnCount, Nat.mod_eq_of_lt (show font.width * fontSize < 2 ^ 32 from by
      change cellWidth font < 2 ^ 32; omega)]
    rfl

/-- A pixel of the screen has its own word. -/
theorem Fits.index {x y : Nat} (hx : x < fb.width) (hy : y < fb.height) :
    pixelIndex fb x y = y * (fb.pitch / 4) + x := by
  have hline := h.line
  have hpixels := h.pixels
  have hmul := Nat.mul_le_mul_right (fb.pitch / 4) hy
  rw [Nat.succ_mul] at hmul
  exact Nat.mod_eq_of_lt (by omega)

theorem Fits.index_inj {x y x' y' : Nat} (hx : x < fb.width) (hx' : x' < fb.width)
    (he : y * (fb.pitch / 4) + x = y' * (fb.pitch / 4) + x') : x = x' ∧ y = y' := by
  have hline := h.line
  have hpos : 0 < fb.pitch / 4 := by omega
  have hmod := congrArg (· % (fb.pitch / 4)) he
  have hdiv := congrArg (· / (fb.pitch / 4)) he
  simp only [Nat.mul_comm _ (fb.pitch / 4), Nat.mul_add_mod, Nat.mul_add_div hpos] at hmod hdiv
  rw [Nat.mod_eq_of_lt (by omega), Nat.mod_eq_of_lt (by omega)] at hmod
  rw [Nat.div_eq_of_lt (show x < _ by omega), Nat.div_eq_of_lt (show x' < _ by omega)] at hdiv
  exact ⟨hmod, hdiv⟩

/-- A glyph is smaller than the screen. -/
theorem Fits.glyph_lt : font.bytesperglyph < 2 ^ 32 := by
  have hw := h.width_pos
  have hcolumns : font.width * 2 ≤ fb.width := h.columns
  have hrows : font.height * 2 ≤ fb.height := h.rows
  have hline := h.line
  have hpixels := h.pixels
  have hmul := Nat.mul_le_mul (show font.height ≤ fb.height by omega)
    (show (font.width + 7) / 8 ≤ fb.pitch / 4 by omega)
  rw [h.glyph]
  omega

/-- The lines of a glyph whose offset does not overflow. -/
theorem Fits.lineStart_eq {c : BitVec 8} (hc : glyphIndex font c * font.bytesperglyph < 2 ^ 32)
    {i : Nat} (hi : i < font.height) :
    lineStart font c i = glyphStart font c + (font.width + 7) / 8 * i ∧
      (font.width + 7) / 8 * i + (font.width + 7) / 8 ≤ font.bytesperglyph := by
  have hsize := h.size_lt
  have hcolumns : font.width * 2 ≤ fb.width := h.columns
  have hglyph := h.glyph_lt
  have hmul := Nat.mul_le_mul_left ((font.width + 7) / 8) hi
  rw [Nat.mul_succ, Nat.mul_comm _ font.height, ← h.glyph] at hmul
  refine ⟨?_, hmul⟩
  rw [lineStart, glyphStart, Nat.mod_eq_of_lt hc, Nat.mod_eq_of_lt (show font.width + 7 < 2 ^ 32 by omega),
    Nat.mod_eq_of_lt (show (font.width + 7) / 8 * i < 2 ^ 32 by omega)]

end Arithmetic

/-- The cell and the bit a pixel belongs to. -/
theorem cell_of_pixel {w q j p : Nat} (hj : j < w) (hp : p < 2) :
    (q * (w * 2) + (j * 2 + p)) / (w * 2) = q ∧ (q * (w * 2) + (j * 2 + p)) % (w * 2) / 2 = j := by
  have hlt : j * 2 + p < w * 2 := by omega
  constructor
  · rw [Nat.mul_comm q, Nat.mul_add_div (by omega), Nat.div_eq_of_lt hlt, Nat.add_zero]
  · rw [Nat.mul_comm q, Nat.mul_add_mod, Nat.mod_eq_of_lt hlt]
    omega

/-- The code's coordinate of a pixel of cell `q`, along either side of a screen of `n` pixels. -/
theorem coordinate_eq {n w q j p : Nat} (hn : n < 2 ^ 32) (hq : q < n / (w * fontSize)) (hj : j < w)
    (hp : p < fontSize) :
    (q * w * fontSize % 2 ^ 32 + j * fontSize + p) % 2 ^ 32 = q * (w * 2) + (j * 2 + p) ∧
      q * (w * 2) + (j * 2 + p) < n := by
  unfold fontSize at hq hp ⊢
  have hmul := Nat.mul_le_mul_right (w * 2) hq
  have hle := Nat.div_mul_le_self n (w * 2)
  rw [Nat.succ_mul] at hmul
  rw [Nat.mul_assoc q, Nat.mod_eq_of_lt (show q * (w * 2) < 2 ^ 32 by omega),
    Nat.mod_eq_of_lt (by omega)]
  omega

section Draw
variable {fb : Framebuffer} {font : PsfFont} (h : Fits fb font) {c : BitVec 8} {r q : Nat}
  (hr : r < fb.height / cellHeight font) (hq : q < fb.width / cellWidth font)
include h hr hq

/-- The pixels of a block, by the cell and the bit they belong to. -/
theorem inBlock_iff {i j x y : Nat} (hi : i < font.height) (hj : j < font.width) (hx : x < fb.width)
    (hy : y < fb.height) :
    InBlock fb (q * font.width * fontSize % 2 ^ 32) (r * font.height * fontSize % 2 ^ 32) fontSize i j
        (y * (fb.pitch / 4) + x) ↔
      (x / cellWidth font = q ∧ x % cellWidth font / fontSize = j) ∧
        y / cellHeight font = r ∧ y % cellHeight font / fontSize = i := by
  have hsize := h.size_lt
  constructor
  · rintro ⟨px, hpx, py, hpy, he⟩
    obtain ⟨hxe, hxlt⟩ := coordinate_eq hsize.1 hq hj hpx
    obtain ⟨hye, hylt⟩ := coordinate_eq hsize.2 hr hi hpy
    rw [hxe, hye, h.index hxlt hylt] at he
    obtain ⟨rfl, rfl⟩ := h.index_inj hx hxlt he
    exact ⟨cell_of_pixel hj hpx, cell_of_pixel hi hpy⟩
  · rintro ⟨⟨hxq, hxj⟩, hyr, hyi⟩
    unfold fontSize at hxj hyi
    refine ⟨x % cellWidth font % 2, Nat.mod_lt _ (by decide), y % cellHeight font % 2,
      Nat.mod_lt _ (by decide), ?_⟩
    obtain ⟨hxe, hxlt⟩ := coordinate_eq hsize.1 hq hj (Nat.mod_lt (x % cellWidth font) (by decide))
    obtain ⟨hye, hylt⟩ := coordinate_eq hsize.2 hr hi (Nat.mod_lt (y % cellHeight font) (by decide))
    have hxdiv := Nat.div_add_mod' x (cellWidth font)
    have hydiv := Nat.div_add_mod' y (cellHeight font)
    rw [hxq] at hxdiv
    rw [hyr] at hydiv
    have hx' : q * (font.width * 2) + (j * 2 + x % cellWidth font % 2) = x := by
      change q * cellWidth font + _ = x
      omega
    have hy' : r * (font.height * 2) + (i * 2 + y % cellHeight font % 2) = y := by
      change r * cellHeight font + _ = y
      omega
    change _ = pixelIndex fb ((q * font.width * fontSize % 2 ^ 32 + j * fontSize +
      x % cellWidth font % fontSize) % 2 ^ 32) ((r * font.height * fontSize % 2 ^ 32 + i * fontSize +
      y % cellHeight font % fontSize) % 2 ^ 32)
    rw [hxe, hye]
    change _ = pixelIndex fb (q * (font.width * 2) + (j * 2 + x % cellWidth font % 2))
      (r * (font.height * 2) + (i * 2 + y % cellHeight font % 2))
    rw [hx', hy', h.index hx hy]

variable (hc : glyphIndex font c * font.bytesperglyph < 2 ^ 32)
include hc

/-- `draw_char` paints the set bits of the glyph into its cell and leaves every other pixel. -/
theorem drawChar_picture (t : Screen) {x y : Nat} (hx : x < fb.width) (hy : y < fb.height) :
    (drawChar fb font c (q * font.width * fontSize % 2 ^ 32) (r * font.height * fontSize % 2 ^ 32)
        terminalFg fontSize t).mem (y * (fb.pitch / 4) + x) =
      if y / cellHeight font = r ∧ x / cellWidth font = q ∧
        glyphBit font c (y % cellHeight font / fontSize) (x % cellWidth font / fontSize) = true
      then terminalFg.word else t.mem (y * (fb.pitch / 4) + x) := by
  have hpaint := paints_drawChar fb font c (q * font.width * fontSize % 2 ^ 32)
    (r * font.height * fontSize % 2 ^ 32) terminalFg fontSize t
  have hpos := h.cell_pos
  have hlit : ∀ {i : Nat}, i < font.height → ∀ j, litAt font (lineStart font c i) j = glyphBit font c i j :=
    fun hi j => by rw [(h.lineStart_eq hc hi).1, glyphBit]
  split
  · rename_i hin
    obtain ⟨hyr, hxq, hbit⟩ := hin
    have hi : y % cellHeight font / fontSize < font.height :=
      Nat.div_lt_of_lt_mul (Nat.mul_comm .. ▸ Nat.mod_lt y hpos.2)
    have hj : x % cellWidth font / fontSize < font.width :=
      Nat.div_lt_of_lt_mul (Nat.mul_comm .. ▸ Nat.mod_lt x hpos.1)
    refine hpaint.inside _ ⟨_, hi, _, hj, (hlit hi _).trans hbit, ?_⟩
    exact (inBlock_iff h hr hq hi hj hx hy).mpr ⟨⟨hxq, rfl⟩, hyr, rfl⟩
  · rename_i hout
    refine hpaint.outside _ ?_
    rintro ⟨i, hi, j, hj, hbit, hblock⟩
    obtain ⟨⟨hxq, rfl⟩, hyr, rfl⟩ := (inBlock_iff h hr hq hi hj hx hy).mp hblock
    exact hout ⟨hyr, hxq, (hlit hi _).symm.trans hbit⟩

theorem drawChar_allowed (t : Screen) {e : Access}
    (he : e ∈ (drawChar fb font c (q * font.width * fontSize % 2 ^ 32)
      (r * font.height * fontSize % 2 ^ 32) terminalFg fontSize t).log) :
    e ∈ t.log ∨ Allowed fb font e := by
  have hsize := h.size_lt
  refine ((paints_drawChar fb font c _ _ terminalFg fontSize t).log e).mp he |>.imp_right ?_
  rintro ⟨i, hi, j, hj, rfl | ⟨-, px, hpx, py, hpy, rfl⟩⟩
  · obtain ⟨hline, hlast⟩ := h.lineStart_eq hc hi
    rw [hline]
    exact ⟨by omega, by omega⟩
  · obtain ⟨hxe, hxlt⟩ := coordinate_eq hsize.1 hq hj hpx
    obtain ⟨hye, hylt⟩ := coordinate_eq hsize.2 hr hi hpy
    rw [hxe, hye]
    exact ⟨hxlt, hylt⟩

end Draw

/-- The screen is the picture of the grid, and was drawn as allowed. -/
structure Drawn (fb : Framebuffer) (font : PsfFont) (s : Screen) (g : Grid) : Prop where
  log : ∀ e ∈ s.log, Allowed fb font e
  picture : ∀ x < fb.width, ∀ y < fb.height,
    s.mem (y * (fb.pitch / 4) + x) = (g.pixel font x y).word

/-- The terminal shows the grid, and the cells from the cursor on are blank: `draw_char` never
erases. -/
structure Simulates (fb : Framebuffer) (font : PsfFont) (t : Terminal) (g : Grid) : Prop where
  drawn : Drawn fb font t.screen g
  row : t.row = g.row
  column : t.column = g.column
  row_lt : g.row < fb.height / cellHeight font
  column_lt : g.column < fb.width / cellWidth font
  ahead : ∀ r q, g.row < r ∨ r = g.row ∧ g.column ≤ q → g.cell r q = none

section Simulation
variable {fb : Framebuffer} {font : PsfFont} (h : Fits fb font)
include h

theorem Fits.count_pos : 0 < fb.height / cellHeight font ∧ 0 < fb.width / cellWidth font :=
  ⟨Nat.div_pos h.rows h.cell_pos.2, Nat.div_pos h.columns h.cell_pos.1⟩

theorem drawn_clearScreen {s : Screen} (hlog : ∀ e ∈ s.log, Allowed fb font e) :
    Drawn fb font (clearScreen fb s) .blank := by
  have hsize := h.size_lt
  have hpaint := paints_clearScreen fb s
  refine ⟨fun e he => ?_, fun x hx y hy => hpaint.inside _ ⟨y, hy, x, hx, ?_⟩⟩
  · rcases (hpaint.log e).mp he with he | ⟨y, hy, x, hx, rfl⟩
    · exact hlog e he
    · rw [Nat.mod_eq_of_lt (by omega), Nat.mod_eq_of_lt (by omega)]
      exact ⟨hx, hy⟩
  · rw [Nat.mod_eq_of_lt (by omega), Nat.mod_eq_of_lt (by omega), h.index hx hy]

theorem simulates_blank {s : Screen} (hlog : ∀ e ∈ s.log, Allowed fb font e) :
    Simulates fb font ⟨clearScreen fb s, 0, 0⟩ .blank :=
  ⟨drawn_clearScreen h hlog, rfl, rfl, h.count_pos.1, h.count_pos.2, fun _ _ _ => rfl⟩

theorem simulates_nextRow {s : Screen} {g : Grid} (hdrawn : Drawn fb font s g)
    (hrow : g.row < fb.height / cellHeight font) (hbelow : ∀ r q, g.row < r → g.cell r q = none) :
    Simulates fb font (nextRow fb font ⟨s, g.row, 0⟩) (g.down (fb.height / cellHeight font)) := by
  rw [nextRow, Grid.down, h.counts.1]
  by_cases hlast : g.row + 1 = fb.height / cellHeight font
  · rw [if_pos hlast, if_pos hlast]
    exact simulates_blank h hdrawn.log
  · rw [if_neg hlast, if_neg hlast]
    refine ⟨⟨hdrawn.log, hdrawn.picture⟩, rfl, rfl, ?_, h.count_pos.2, fun r q hrq => hbelow r q ?_⟩
    · change g.row + 1 < _
      omega
    · change g.row + 1 < r ∨ r = g.row + 1 ∧ 0 ≤ q at hrq
      omega

/-- Drawing into the blank cell at the cursor. -/
theorem drawn_setCell {t : Terminal} {g : Grid} {c : BitVec 8} (hsim : Simulates fb font t g)
    (hc : glyphIndex font c * font.bytesperglyph < 2 ^ 32) :
    Drawn fb font (drawChar fb font c (g.column * font.width * fontSize % 2 ^ 32)
      (g.row * font.height * fontSize % 2 ^ 32) terminalFg fontSize t.screen) (g.setCell c) := by
  refine ⟨fun e he => ?_, fun x hx y hy => ?_⟩
  · exact (drawChar_allowed h hsim.row_lt hsim.column_lt hc t.screen he).elim (hsim.drawn.log e) id
  · rw [drawChar_picture h hsim.row_lt hsim.column_lt hc t.screen hx hy, hsim.drawn.picture x hx y hy,
      Grid.pixel, Grid.pixel]
    by_cases hcell : y / cellHeight font = g.row ∧ x / cellWidth font = g.column
    · have hnone := hsim.ahead g.row g.column (.inr ⟨rfl, Nat.le_refl _⟩)
      simp only [hcell, true_and, hnone, Grid.setCell_self]
      split <;> rfl
    · rw [Grid.setCell_of_ne hcell, if_neg fun hin => hcell ⟨hin.1, hin.2.1⟩]

/-- One byte. -/
theorem Simulates.putchar {t : Terminal} {g : Grid} {c : BitVec 8} (hsim : Simulates fb font t g)
    (hc : c ≠ newline → glyphIndex font c * font.bytesperglyph < 2 ^ 32) :
    Simulates fb font (terminalPutchar fb font c t)
      (g.put (fb.height / cellHeight font) (fb.width / cellWidth font) c) := by
  obtain ⟨screen, row, column⟩ := t
  obtain ⟨rfl, rfl⟩ : row = g.row ∧ column = g.column := ⟨hsim.row, hsim.column⟩
  by_cases hnl : c = newline
  · rw [terminalPutchar, if_pos hnl, Grid.put, if_pos hnl]
    exact simulates_nextRow h hsim.drawn hsim.row_lt fun r q hr => hsim.ahead r q (.inl hr)
  · rw [terminalPutchar_of_ne hnl, Grid.put, if_neg hnl, h.counts.2]
    have hdrawn := drawn_setCell h hsim (hc hnl)
    have hahead : ∀ r q, g.row < r ∨ r = g.row ∧ g.column < q → (g.setCell c).cell r q = none := by
      intro r q hrq
      rw [Grid.setCell_of_ne (by omega)]
      exact hsim.ahead r q (by omega)
    by_cases hlast : g.column + 1 = fb.width / cellWidth font
    · rw [if_pos hlast]
      simp only [if_pos hlast]
      exact simulates_nextRow h hdrawn hsim.row_lt fun r q hr => hahead r q (.inl hr)
    · have hcolumn := hsim.column_lt
      rw [if_neg hlast]
      simp only [if_neg hlast]
      refine ⟨⟨hdrawn.log, hdrawn.picture⟩, rfl, rfl, hsim.row_lt, ?_, fun r q hrq => hahead r q hrq⟩
      change g.column + 1 < _
      omega

/-- All bytes. -/
theorem Simulates.write {t : Terminal} {g : Grid} (hsim : Simulates fb font t g) (data : List (BitVec 8))
    (hdata : ∀ c ∈ data, c ≠ newline → glyphIndex font c * font.bytesperglyph < 2 ^ 32) :
    Simulates fb font (terminalWrite fb font data t)
      (data.foldl (Grid.put (fb.height / cellHeight font) (fb.width / cellWidth font)) g) := by
  induction data generalizing t g with
  | nil => exact hsim
  | cons c data ih =>
    obtain ⟨hc, hrest⟩ := List.forall_mem_cons.mp hdata
    exact ih (hsim.putchar h hc) hrest

end Simulation

section Log
variable {fb : Framebuffer} {font : PsfFont}

theorem log_nextRow {t : Terminal} {e : Access} (he : e ∈ t.screen.log) :
    e ∈ (nextRow fb font t).screen.log := by
  rw [nextRow]
  split
  · exact ((paints_clearScreen fb t.screen).log e).mpr (.inl he)
  · exact he

/-- Nothing is taken from the log, and a byte that is drawn leaves the accesses of its drawing. -/
theorem log_putchar {t : Terminal} {c : BitVec 8} {e : Access} (he : e ∈ t.screen.log ∨
      c ≠ newline ∧ e ∈ (drawChar fb font c (t.column * font.width * fontSize % 2 ^ 32)
        (t.row * font.height * fontSize % 2 ^ 32) terminalFg fontSize t.screen).log) :
    e ∈ (terminalPutchar fb font c t).screen.log := by
  obtain ⟨s, r, q⟩ := t
  by_cases hnl : c = newline
  · rw [terminalPutchar, if_pos hnl]
    exact log_nextRow (he.resolve_right fun h => h.1 hnl)
  · have hdrawn := he.elim (fun h => ((paints_drawChar fb font c _ _ terminalFg fontSize s).log e).mpr
      (.inl h)) And.right
    rw [terminalPutchar_of_ne hnl]
    dsimp only
    split
    · exact log_nextRow hdrawn
    · exact hdrawn

theorem log_write {t : Terminal} {e : Access} (data : List (BitVec 8)) (he : e ∈ t.screen.log) :
    e ∈ (terminalWrite fb font data t).screen.log := by
  induction data generalizing t with
  | nil => exact he
  | cons c data ih => exact ih (log_putchar (.inl he))

/-- A glyph whose offset overflows is read from the wrong place. -/
theorem overflow_not_allowed (h : Fits fb font) {t : Terminal} {data : List (BitVec 8)} {c : BitVec 8}
    (hmem : c ∈ data) (hnl : c ≠ newline) (hbig : 2 ^ 32 ≤ glyphIndex font c * font.bytesperglyph) :
    ∃ e ∈ (terminalWrite fb font data t).screen.log, ¬ Allowed fb font e := by
  obtain ⟨before, after, rfl⟩ := List.append_of_mem hmem
  refine ⟨.glyph c (lineStart font c 0 + 0 / 8), ?_, ?_⟩
  · rw [terminalWrite, List.foldl_append]
    refine log_write after (log_putchar (.inr ⟨hnl, ?_⟩))
    exact ((paints_drawChar fb font c _ _ terminalFg fontSize _).log _).mpr
      (.inr ⟨0, h.height_pos, 0, h.width_pos, .inl rfl⟩)
  · rintro ⟨hlo, -⟩
    have hmod := Nat.mod_lt (glyphIndex font c * font.bytesperglyph) (show 0 < 2 ^ 32 by decide)
    rw [lineStart, glyphStart, Nat.mul_zero, Nat.zero_mod] at hlo
    omega

end Log

/-- The terminal shows whatever is written, exactly when no glyph that is drawn has an offset that
overflows 32 bits. -/
theorem shows_text_iff (framebuffers : List Framebuffer) (fb : Framebuffer) (font : PsfFont)
    (mem : Nat → Nat) (t : Terminal) (data : List (BitVec 8)) (h : Fits fb font)
    (hinit : terminalInitialize framebuffers ⟨⟨mem, []⟩, 0, 0⟩ = some (fb, t)) :
    ShowsText fb font t data ↔
      ∀ c ∈ data, c ≠ newline → glyphIndex font c * font.bytesperglyph < 2 ^ 32 := by
  constructor
  · intro hshows c hmem hnl
    by_contra hbig
    obtain ⟨e, he, hbad⟩ := overflow_not_allowed (t := t) h hmem hnl (Nat.not_lt.mp hbig)
    exact hbad (hshows.accesses e he)
  · intro hdata
    have hsim : Simulates fb font t .blank := by
      cases framebuffers with
      | nil => cases hinit
      | cons fb' rest =>
        cases hinit
        exact simulates_blank h (List.forall_mem_nil _)
    have hend := hsim.write h data hdata
    refine ⟨fun written hpre => ?_, hend.drawn.log, hend.drawn.picture⟩
    have hw := hsim.write h written fun c hc => hdata c (hpre.subset hc)
    rw [hw.row, hw.column]
    exact ⟨hw.row_lt, hw.column_lt⟩

/-- A screen of two rows and four columns for a font of 8 by 16 pixels. -/
def smallScreen : Framebuffer := ⟨64, 64, 256⟩
def smallFont : PsfFont := ⟨32, 128, 16, 16, 8, fun offset => BitVec.ofNat 8 offset⟩

theorem smallFont_fits : Fits smallScreen smallFont :=
  ⟨by decide, by decide, by decide, by decide, rfl, by decide, by decide, by decide⟩

theorem shows_text_hello : ∃ t,
    terminalInitialize [smallScreen] ⟨⟨fun _ => 0, []⟩, 0, 0⟩ = some (smallScreen, t) ∧
    ShowsText smallScreen smallFont t [72, 101, 108, 108, 111, 10, 33] :=
  ⟨_, rfl, (shows_text_iff [smallScreen] smallScreen smallFont _ _ _ smallFont_fits rfl).mpr (by decide)⟩

/-- A font with one column and `2 ^ 25` lines, on a screen with room for one character: the glyph of
the byte `0x80` is `2 ^ 32` bytes behind the first. -/
def tallScreen : Framebuffer := ⟨2, 2 ^ 26, 8⟩
def tallFont : PsfFont := ⟨32, 256, 2 ^ 25, 2 ^ 25, 1, fun _ => 0⟩

theorem tallFont_fits : Fits tallScreen tallFont :=
  ⟨by decide, by decide, by decide, by decide, rfl, by decide, by decide, by decide⟩

theorem tall_glyph_misread : ¬ ∀ (framebuffers : List Framebuffer) (fb : Framebuffer) (font : PsfFont)
    (mem : Nat → Nat) (t : Terminal) (data : List (BitVec 8)), Fits fb font →
    terminalInitialize framebuffers ⟨⟨mem, []⟩, 0, 0⟩ = some (fb, t) → ShowsText fb font t data := by
  intro hall
  have hshows := hall [tallScreen] tallScreen tallFont (fun _ => 0) _ [0x80] tallFont_fits rfl
  obtain ⟨e, he, hbad⟩ := overflow_not_allowed tallFont_fits (List.mem_singleton_self (0x80 : BitVec 8))
    (by decide) (by decide)
  exact hbad (hshows.accesses e he)

end NyaOS.Drivers.Tty
