import Mathlib.Data.Nat.Bitwise
import PongoOS.Support.Run
import PongoOS.Support.Words

/-!
# The console on the screen

`screen_putc` draws a glyph of 8 by 8 pixels, each of them a square of
`scale_factor` pixels, in the cell behind the cursor, and moves the cursor to it.
Lines are one pixel higher than glyphs.  Behind the last line the cursor returns
to the first one below the banner.
-/

namespace PongoOS

/-! ## Colours -/

/-- `color_decompose`, the component with index `i`. -/
def colorComponent (color : UInt32) (i : ℕ) : UInt32 :=
  (color >>> (8 * UInt32.ofNat i)) &&& 0xff

def colorCompose (c₀ c₁ c₂ c₃ : UInt32) : UInt32 :=
  ((c₃ &&& 0xff) <<< 24) ||| ((c₂ &&& 0xff) <<< 16) ||| ((c₁ &&& 0xff) <<< 8) |||
    (c₀ &&& 0xff)

def colorsAverage (color₁ color₂ : UInt32) : UInt32 :=
  let average i := (colorComponent color₁ i + colorComponent color₂ i) >>> 1
  colorCompose (average 0) (average 1) (average 2) (colorComponent color₁ 3)

/-! ## The screen -/

/-- `gFramebuffer[index] = color`, for a pixel in this column and row. -/
structure PixelWrite where
  column : ℕ
  row : ℕ
  index : ℕ
  color : UInt32
deriving DecidableEq, Repr

/-- The globals of the console.  `framebuffer` is `none` before `screen_init`. -/
structure Screen where
  framebuffer : Option (ℕ → UInt32)
  framebufferCopy : ℕ → UInt32
  gWidth : ℕ
  gHeight : ℕ
  gRowPixels : ℕ
  xCursor : ℕ
  yCursor : ℕ
  bannerHeight : ℕ
  scaleFactor : ℕ
  basecolor : UInt32

/-- The values that `screen_init` gives `scale_factor`, one after the other, on a
screen of this size. -/
def screenInitScales (width height : ℕ) : List ℕ :=
  [2] ++ (if 800 < width then [3] else []) ++ (if height < width then [1] else []) ++
    [1]

namespace Screen

def leftMargin (s : Screen) : ℕ := 4 * s.scaleFactor

/-- The width and the height of a glyph. -/
def glyphSize (s : Screen) : ℕ := 8 * s.scaleFactor

@[simps]
def setX (s : Screen) (x : ℕ) : Screen := { s with xCursor := x }

@[simps]
def setY (s : Screen) (y : ℕ) : Screen := { s with yCursor := y }

def indexOf (s : Screen) (column row : ℕ) : ℕ :=
  (column + row * s.gRowPixels) % 2 ^ 32

/-- A pixel is drawn, with the color for its index. -/
def pixel (s : Screen) (column row : ℕ) (color : ℕ → UInt32) : PixelWrite :=
  { column := column
    row := row
    index := s.indexOf column row
    color := color (s.indexOf column row) }

/-- The writes reach the framebuffer in this order. -/
def draw (s : Screen) (writes : List PixelWrite) : Screen :=
  { s with framebuffer := s.framebuffer.map fun fb =>
      writes.foldl (fun fb w => Function.update fb w.index w.color) fb }

/-- The loops of `screen_clear_all`. -/
def clearAllWrites (s : Screen) : List PixelWrite :=
  (List.range' s.bannerHeight (s.gHeight - s.bannerHeight)).flatMap fun y =>
    (List.range s.gWidth).map fun x => s.pixel x y s.framebufferCopy

/-- `screen_clear_row`. -/
def clearRowWrites (s : Screen) : List PixelWrite :=
  (List.range (1 + s.glyphSize)).flatMap fun y =>
    (List.range s.gWidth).map fun x =>
      s.pixel x ((y + s.yCursor) % 2 ^ 32) s.framebufferCopy

/-- The loops of `screen_putc`. -/
def glyphWrites (font : ℕ → ℕ → ℕ) (c : UInt8) (s : Screen) : List PixelWrite :=
  (List.range s.glyphSize).flatMap fun x =>
    (List.range s.glyphSize).map fun y =>
      s.pixel ((x + s.xCursor) % 2 ^ 32) ((y + s.yCursor) % 2 ^ 32) fun ind =>
        if (font (c &&& 0x7f).toNat (y / s.scaleFactor)).testBit
            (x / s.scaleFactor) then
          s.basecolor ^^^ 0xffffffff
        else colorsAverage (s.framebufferCopy ind) s.basecolor

/-- The branch for `'\b'`. -/
def backspace (s : Screen) : Screen :=
  let x := if s.glyphSize < s.xCursor then s.xCursor - s.glyphSize else 0
  s.setX (if x < s.leftMargin then s.leftMargin else x)

/-- The next character is on a new line. -/
def breaksLine (s : Screen) (c : UInt8) : Prop :=
  c = 10 ∨ sub32 s.gWidth (s.leftMargin * 2) < (s.xCursor + s.glyphSize) % 2 ^ 32

instance (s : Screen) (c : UInt8) : Decidable (s.breaksLine c) :=
  inferInstanceAs (Decidable (_ ∨ _))

/-- Where the line after the one of the cursor begins. -/
def nextLine (s : Screen) : ℕ :=
  if s.gHeight < (s.yCursor + 12 * s.scaleFactor + 16) % 2 ^ 32 then s.bannerHeight
  else (s.yCursor + (1 + s.glyphSize)) % 2 ^ 32

@[simps]
def newLine (s : Screen) : Screen :=
  { s with
    xCursor := s.leftMargin
    yCursor := s.nextLine }

/-- `screen_putc`, with what it draws. -/
def putc (font : ℕ → ℕ → ℕ) (c : UInt8) (s : Screen) : Screen × List PixelWrite :=
  if s.framebuffer.isNone then (s, [])
  else if c = 8 then (s.backspace, [])
  else
    let (s, cleared) :=
      if s.breaksLine c then (s.newLine, s.newLine.clearRowWrites) else (s, [])
    if c = 10 then (s, cleared)
    else if c = 13 then
      let s := s.setX s.leftMargin
      (s, cleared ++ s.clearRowWrites)
    else
      let s := s.setX ((s.xCursor + s.glyphSize) % 2 ^ 32)
      (s, cleared ++ s.glyphWrites font c)

@[simps]
def markBanner (s : Screen) : Screen := { s with bannerHeight := s.yCursor }

/-- `screen_clear_all`, with what it draws. -/
def clearAll (s : Screen) : Screen × List PixelWrite :=
  (s.setY s.bannerHeight, s.clearAllWrites)

end Screen

/-- A call of one of the functions of the console. -/
inductive ScreenOp where
  | putc (c : UInt8)
  | markBanner
  | clearAll
deriving DecidableEq, Repr

namespace ScreenOp

variable (font : ℕ → ℕ → ℕ)

def call : ScreenOp → Screen → Screen × List PixelWrite
  | putc c, s => s.putc font c
  | markBanner, s => (s.markBanner, [])
  | clearAll, s => s.clearAll

def writes (op : ScreenOp) (s : Screen) : List PixelWrite := (op.call font s).2

def Step (s : Screen) (op : ScreenOp) (s' : Screen) : Prop :=
  s' = (op.call font s).1.draw (op.call font s).2

end ScreenOp

/-! ## On the screen -/

/-- A screen on which a line has room for the cells that a character needs. -/
structure Screen.Fits (s : Screen) : Prop where
  scale : ∃ width height, s.scaleFactor ∈ screenInitScales width height
  width : 20 * s.scaleFactor ≤ s.gWidth
  height : 1 + 8 * s.scaleFactor ≤ s.gHeight
  row : s.gWidth ≤ s.gRowPixels
  size : s.gHeight * s.gRowPixels < 2 ^ 32

/-- The write is to a pixel that is visible and not above the banner's end. -/
structure PixelWrite.OnScreen (s : Screen) (w : PixelWrite) : Prop where
  column_lt : w.column < s.gWidth
  row_ge : s.bannerHeight ≤ w.row
  row_lt : w.row < s.gHeight
  index_eq : w.index = w.column + w.row * s.gRowPixels
  index_lt : w.index < s.gHeight * s.gRowPixels

/-- The line and the cell of the cursor are on the screen. -/
structure Screen.CursorOk (s : Screen) : Prop where
  banner : s.bannerHeight ≤ s.yCursor
  line : s.yCursor + 1 + 8 * s.scaleFactor ≤ s.gHeight
  cell : s.xCursor + 8 * s.scaleFactor ≤ s.gWidth

theorem mem_screenInitScales {width height n : ℕ}
    (h : n ∈ screenInitScales width height) : 1 ≤ n ∧ n ≤ 3 := by
  unfold screenInitScales at h
  simp only [List.mem_append, List.mem_singleton] at h
  rcases h with ((rfl | h) | h) | rfl
  · decide
  · split at h
    · rw [List.mem_singleton.mp h]
      decide
    · cases h
  · split at h
    · rw [List.mem_singleton.mp h]
      decide
    · cases h
  · decide

namespace Screen

variable {s s' : Screen} {w : PixelWrite} {column row : ℕ}

theorem Fits.scale_le (h : s.Fits) : 1 ≤ s.scaleFactor ∧ s.scaleFactor ≤ 3 := by
  obtain ⟨_, _, hmem⟩ := h.scale
  exact mem_screenInitScales hmem

/-- The arithmetic of the cursor stays far below the end of the words. -/
theorem Fits.small (h : s.Fits) : s.gWidth < 2 ^ 29 ∧ s.gHeight < 2 ^ 28 := by
  have hscale := h.scale_le
  have hwidth := h.width
  have hheight := h.height
  have hrow := h.row
  have hsize := h.size
  have hlines : 9 * s.gRowPixels ≤ s.gHeight * s.gRowPixels :=
    Nat.mul_le_mul_right _ (by omega)
  have hcells : s.gHeight * 20 ≤ s.gHeight * s.gRowPixels :=
    Nat.mul_le_mul_left _ (by omega)
  omega

theorem Fits.pixel_onScreen (h : s.Fits) {color : ℕ → UInt32}
    (hcolumn : column < s.gWidth) (hge : s.bannerHeight ≤ row)
    (hlt : row < s.gHeight) : (s.pixel column row color).OnScreen s := by
  have hrow := h.row
  have hsize := h.size
  have hlast : (row + 1) * s.gRowPixels ≤ s.gHeight * s.gRowPixels :=
    Nat.mul_le_mul_right _ hlt
  rw [Nat.succ_mul] at hlast
  have hindex : s.indexOf column row = column + row * s.gRowPixels :=
    Nat.mod_eq_of_lt (by omega)
  refine ⟨hcolumn, hge, hlt, hindex, ?_⟩
  change s.indexOf column row < s.gHeight * s.gRowPixels
  omega

theorem Fits.clearAll_onScreen (h : s.Fits) (hw : w ∈ s.clearAllWrites) :
    w.OnScreen s := by
  obtain ⟨y, hy, hw⟩ := List.mem_flatMap.mp hw
  obtain ⟨x, hx, rfl⟩ := List.mem_map.mp hw
  have hrow := List.mem_range'_1.mp hy
  exact h.pixel_onScreen (List.mem_range.mp hx) hrow.1 (by omega)

theorem Fits.clearRow_onScreen (h : s.Fits) (hcursor : s.CursorOk)
    (hw : w ∈ s.clearRowWrites) : w.OnScreen s := by
  obtain ⟨y, hy, hw⟩ := List.mem_flatMap.mp hw
  obtain ⟨x, hx, rfl⟩ := List.mem_map.mp hw
  have hsmall := h.small
  have hbanner := hcursor.banner
  have hline := hcursor.line
  have hlt := List.mem_range.mp hy
  unfold glyphSize at hlt
  have hrow : (y + s.yCursor) % 2 ^ 32 = y + s.yCursor :=
    Nat.mod_eq_of_lt (by omega)
  rw [hrow]
  exact h.pixel_onScreen (List.mem_range.mp hx) (by omega) (by omega)

theorem Fits.glyph_onScreen (h : s.Fits) (hcursor : s.CursorOk)
    {font : ℕ → ℕ → ℕ} {c : UInt8} (hw : w ∈ s.glyphWrites font c) :
    w.OnScreen s := by
  obtain ⟨x, hx, hw⟩ := List.mem_flatMap.mp hw
  obtain ⟨y, hy, rfl⟩ := List.mem_map.mp hw
  have hsmall := h.small
  have hbanner := hcursor.banner
  have hline := hcursor.line
  have hcell := hcursor.cell
  have hxlt := List.mem_range.mp hx
  have hylt := List.mem_range.mp hy
  unfold glyphSize at hxlt hylt
  have hcolumn : (x + s.xCursor) % 2 ^ 32 = x + s.xCursor :=
    Nat.mod_eq_of_lt (by omega)
  have hrow : (y + s.yCursor) % 2 ^ 32 = y + s.yCursor :=
    Nat.mod_eq_of_lt (by omega)
  rw [hcolumn, hrow]
  exact h.pixel_onScreen (by omega) (by omega) (by omega)

/-! ## The cursor -/

/-- Nothing but what is drawn and the positions on the screen differs. -/
structure SameSize (s s' : Screen) : Prop where
  gWidth : s'.gWidth = s.gWidth
  gHeight : s'.gHeight = s.gHeight
  gRowPixels : s'.gRowPixels = s.gRowPixels
  scaleFactor : s'.scaleFactor = s.scaleFactor

theorem SameSize.fits (hsame : SameSize s s') (h : s.Fits) : s'.Fits := by
  obtain ⟨hwidth, hheight, hrow, hscale⟩ := hsame
  refine ⟨?_, ?_, ?_, ?_, ?_⟩
  · rw [hscale]
    exact h.scale
  · rw [hscale, hwidth]
    exact h.width
  · rw [hscale, hheight]
    exact h.height
  · rw [hwidth, hrow]
    exact h.row
  · rw [hheight, hrow]
    exact h.size

theorem SameSize.setX (h : SameSize s s') (x : ℕ) : SameSize s (s'.setX x) :=
  ⟨h.gWidth, h.gHeight, h.gRowPixels, h.scaleFactor⟩

theorem SameSize.draw (h : SameSize s s') (writes : List PixelWrite) :
    SameSize s (s'.draw writes) :=
  ⟨h.gWidth, h.gHeight, h.gRowPixels, h.scaleFactor⟩

theorem onScreen_congr (hw : w.OnScreen s') (hsame : SameSize s s')
    (hbanner : s'.bannerHeight = s.bannerHeight) : w.OnScreen s := by
  obtain ⟨hwidth, hheight, hrow, -⟩ := hsame
  obtain ⟨hcolumn, hge, hlt, hindex, hsize⟩ := hw
  rw [hwidth] at hcolumn
  rw [hbanner] at hge
  rw [hrow] at hindex
  rw [hheight] at hlt
  rw [hheight, hrow] at hsize
  exact ⟨hcolumn, hge, hlt, hindex, hsize⟩

theorem CursorOk.setX (hcursor : s.CursorOk) {x : ℕ}
    (hx : x + 8 * s.scaleFactor ≤ s.gWidth) : (s.setX x).CursorOk :=
  ⟨hcursor.banner, hcursor.line, hx⟩

theorem CursorOk.margin (h : s.Fits) (hcursor : s.CursorOk) :
    (s.setX s.leftMargin).CursorOk := by
  have hwidth := h.width
  refine hcursor.setX ?_
  unfold leftMargin
  omega

theorem CursorOk.backspace (h : s.Fits) (hcursor : s.CursorOk) :
    s.backspace.CursorOk := by
  have hwidth := h.width
  have hcell := hcursor.cell
  refine hcursor.setX ?_
  unfold leftMargin glyphSize
  split <;> split <;> omega

/-- The next line has room for a glyph, and the first line below the banner
too. -/
theorem CursorOk.newLine (h : s.Fits) (hcursor : s.CursorOk) :
    s.newLine.CursorOk := by
  have hscale := h.scale_le
  have hsmall := h.small
  have hbanner := hcursor.banner
  have hline := hcursor.line
  have hwidth := h.width
  have hnext : s.bannerHeight ≤ s.nextLine ∧
      s.nextLine + 1 + 8 * s.scaleFactor ≤ s.gHeight := by
    unfold nextLine glyphSize
    split <;> omega
  refine ⟨?_, ?_, ?_⟩
  · rw [newLine_bannerHeight, newLine_yCursor]
    exact hnext.1
  · rw [newLine_yCursor, newLine_scaleFactor, newLine_gHeight]
    exact hnext.2
  · rw [newLine_xCursor, newLine_scaleFactor, newLine_gWidth]
    unfold leftMargin
    omega

/-- A glyph is drawn in the cell behind the cursor. -/
theorem CursorOk.advance (h : s.Fits) (hcursor : s.CursorOk)
    (hroom : s.xCursor + 16 * s.scaleFactor ≤ s.gWidth) :
    (s.setX ((s.xCursor + s.glyphSize) % 2 ^ 32)).CursorOk := by
  have hsmall := h.small
  have hcell := hcursor.cell
  refine hcursor.setX ?_
  unfold glyphSize
  rw [Nat.mod_eq_of_lt (by omega)]
  omega

/-- What a call keeps of a screen, and where it draws. -/
structure Stays (s s' : Screen) (writes : List PixelWrite) : Prop where
  same : SameSize s s'
  cursor : s'.CursorOk
  banner : s.bannerHeight ≤ s'.bannerHeight
  onScreen : ∀ w ∈ writes, w.OnScreen s

theorem Stays.refl (hcursor : s.CursorOk) : s.Stays s [] :=
  ⟨⟨rfl, rfl, rfl, rfl⟩, hcursor, le_rfl, fun _ hw => absurd hw List.not_mem_nil⟩

/-- The part of `putc` in front of the check for the end of the line: what
follows is drawn on a line that has room for it. -/
theorem breaksLine_stays (h : s.Fits) (hcursor : s.CursorOk) {c : UInt8}
    {s₁ : Screen} {cleared : List PixelWrite}
    (hbreak : (if s.breaksLine c then
      (s.newLine, s.newLine.clearRowWrites) else (s, [])) = (s₁, cleared)) :
    s.Stays s₁ cleared ∧ s₁.bannerHeight = s.bannerHeight ∧
      s₁.xCursor + 16 * s₁.scaleFactor ≤ s₁.gWidth := by
  have hwidth := h.width
  have hcell := hcursor.cell
  have hsmall := h.small
  split at hbreak
  · obtain ⟨rfl, rfl⟩ := Prod.mk.inj hbreak
    have hsame : SameSize s s.newLine := ⟨rfl, rfl, rfl, rfl⟩
    have hnext := hcursor.newLine h
    refine ⟨⟨hsame, hnext, le_rfl, fun w hw => ?_⟩, rfl, ?_⟩
    · exact onScreen_congr ((hsame.fits h).clearRow_onScreen hnext hw) hsame rfl
    · rw [newLine_xCursor, newLine_scaleFactor, newLine_gWidth]
      unfold leftMargin
      omega
  · rename_i hroom
    obtain ⟨rfl, rfl⟩ := Prod.mk.inj hbreak
    refine ⟨Stays.refl hcursor, rfl, ?_⟩
    have hroom := (not_or.mp hroom).2
    unfold leftMargin glyphSize at hroom
    rw [sub32_of_le (by omega) (by omega)] at hroom
    omega

theorem putc_stays (h : s.Fits) (hcursor : s.CursorOk) (font : ℕ → ℕ → ℕ)
    (c : UInt8) : s.Stays (s.putc font c).1 (s.putc font c).2 := by
  unfold putc
  split
  · exact Stays.refl hcursor
  split
  · exact ⟨⟨rfl, rfl, rfl, rfl⟩, hcursor.backspace h, le_rfl,
      fun _ hw => absurd hw List.not_mem_nil⟩
  rcases hbreak : (if s.breaksLine c then
    (s.newLine, s.newLine.clearRowWrites) else (s, [])) with ⟨s₁, cleared⟩
  obtain ⟨hstays, hbanner, hroom⟩ := breaksLine_stays h hcursor hbreak
  have hfits := hstays.same.fits h
  dsimp only
  split
  · exact hstays
  split
  · -- a carriage return also clears the line
    have hsame := hstays.same.setX s₁.leftMargin
    have hmargin := hstays.cursor.margin hfits
    refine ⟨hsame, hmargin, hstays.banner, fun w hw => ?_⟩
    rcases List.mem_append.mp hw with hcleared | hw
    · exact hstays.onScreen w hcleared
    · exact onScreen_congr ((hsame.fits h).clearRow_onScreen hmargin hw) hsame
        hbanner
  · have hsame := hstays.same.setX ((s₁.xCursor + s₁.glyphSize) % 2 ^ 32)
    have hadvance := hstays.cursor.advance hfits hroom
    refine ⟨hsame, hadvance, hstays.banner, fun w hw => ?_⟩
    rcases List.mem_append.mp hw with hcleared | hw
    · exact hstays.onScreen w hcleared
    · exact onScreen_congr ((hsame.fits h).glyph_onScreen hadvance hw) hsame
        hbanner

theorem clearAll_stays (h : s.Fits) (hcursor : s.CursorOk) :
    s.Stays s.clearAll.1 s.clearAll.2 := by
  have hbanner := hcursor.banner
  have hline := hcursor.line
  refine ⟨⟨rfl, rfl, rfl, rfl⟩, ⟨le_rfl, ?_, hcursor.cell⟩, le_rfl, fun w hw =>
    h.clearAll_onScreen hw⟩
  change s.bannerHeight + 1 + 8 * s.scaleFactor ≤ s.gHeight
  omega

theorem markBanner_stays (hcursor : s.CursorOk) : s.Stays s.markBanner [] :=
  ⟨⟨rfl, rfl, rfl, rfl⟩, ⟨le_rfl, hcursor.line, hcursor.cell⟩, hcursor.banner,
    fun _ hw => absurd hw List.not_mem_nil⟩

end Screen

/-! ## Every sequence of calls -/

namespace ScreenOp

variable {font : ℕ → ℕ → ℕ} {s s₁ s₂ : Screen} {before after : List ScreenOp}

theorem call_stays (font : ℕ → ℕ → ℕ) (h : s.Fits) (hcursor : s.CursorOk)
    (op : ScreenOp) :
    s.Stays (op.call font s).1 (op.call font s).2 := by
  cases op with
  | putc c => exact Screen.putc_stays h hcursor font c
  | markBanner => exact Screen.markBanner_stays hcursor
  | clearAll => exact Screen.clearAll_stays h hcursor

theorem step_stays {op : ScreenOp} (hstep : Step font s op s₁) (h : s.Fits)
    (hcursor : s.CursorOk) :
    s₁.Fits ∧ s₁.CursorOk ∧ s.bannerHeight ≤ s₁.bannerHeight := by
  have hstays := call_stays font h hcursor op
  have hsame := hstays.same.draw (op.call font s).2
  subst hstep
  exact ⟨hsame.fits h, ⟨hstays.cursor.banner, hstays.cursor.line,
    hstays.cursor.cell⟩, hstays.banner⟩

/-- What holds before a run holds after it, and the banner only grows. -/
theorem run_stays (hrun : Run (Step font) s before s₁) (h : s.Fits)
    (hcursor : s.CursorOk) :
    s₁.Fits ∧ s₁.CursorOk ∧ s.bannerHeight ≤ s₁.bannerHeight := by
  refine hrun.relates (R := fun a b => a.Fits → a.CursorOk →
    b.Fits ∧ b.CursorOk ∧ a.bannerHeight ≤ b.bannerHeight) ?_ ?_ ?_ h hcursor
  · exact fun a ha hcursor => ⟨ha, hcursor, le_rfl⟩
  · intro a b c hab hbc ha hcursor
    obtain ⟨hb, hcursor', hgrown⟩ := hab ha hcursor
    obtain ⟨hc, hcursor'', hgrown'⟩ := hbc hb hcursor'
    exact ⟨hc, hcursor'', Nat.le_trans hgrown hgrown'⟩
  · exact fun a op b hstep => step_stays hstep

/-- Whatever is called, in whatever order, only visible pixels are written, and
none above the banner, also where it was marked long before. -/
theorem writes_onScreen (h : s.Fits) (hx : s.xCursor = 0) (hy : s.yCursor = 0)
    (hbanner : s.bannerHeight = 0) (hbefore : Run (Step font) s before s₁)
    (hafter : Run (Step font) s₁ after s₂) (op : ScreenOp) :
    ∀ w ∈ op.writes font s₂, w.OnScreen s₂ ∧ s₁.bannerHeight ≤ w.row := by
  have hcursor : s.CursorOk := by
    have hwidth := h.width
    have hheight := h.height
    refine ⟨?_, ?_, ?_⟩ <;> omega
  obtain ⟨h₁, hcursor₁, -⟩ := run_stays hbefore h hcursor
  obtain ⟨h₂, hcursor₂, hgrown⟩ := run_stays hafter h₁ hcursor₁
  intro w hw
  have honScreen := (call_stays font h₂ hcursor₂ op).onScreen w hw
  exact ⟨honScreen, Nat.le_trans hgrown honScreen.row_ge⟩

/-- A screen of 640 by 480 pixels. -/
def vgaScreen : Screen where
  framebuffer := some fun _ => 0
  framebufferCopy := fun _ => 0
  gWidth := 640
  gHeight := 480
  gRowPixels := 640
  xCursor := 0
  yCursor := 0
  bannerHeight := 0
  scaleFactor := 1
  basecolor := 0x41414141

theorem vgaScreen_fits : vgaScreen.Fits :=
  ⟨⟨640, 480, by decide⟩, by decide, by decide, by decide, by decide⟩

/-- A line, the banner behind it, and a character on the cleared screen. -/
theorem writes_onScreen_vgaScreen :
    ∃ s₁ s₂, Run (Step fun _ _ => 0x18) vgaScreen [putc 65, putc 10, markBanner] s₁ ∧
      Run (Step fun _ _ => 0x18) s₁ [clearAll] s₂ ∧
      ∀ w ∈ (putc 66).writes (fun _ _ => 0x18) s₂,
        w.OnScreen s₂ ∧ s₁.bannerHeight ≤ w.row := by
  refine ⟨_, _, .cons rfl (.cons rfl (.single rfl)), .single rfl, ?_⟩
  exact writes_onScreen vgaScreen_fits rfl rfl rfl
    (.cons rfl (.cons rfl (.single rfl))) (.single rfl) (putc 66)

end ScreenOp

end PongoOS
