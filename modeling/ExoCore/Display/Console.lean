/-
  ExoCore.Display.Console — the text console of `kernel/console.c`.

  The console keeps 512 lines of 160 cells in a ring and draws a window of them, on
  the framebuffer when it is enabled and in VGA text memory otherwise.  `Console` is
  the module's static data, `Screen` what it draws on (with the boot mode it asks
  for), and every function passes both on.

  The mirror to the serial port and to the debug log (`serial_raw_putc`,
  `debuglog_char`) touches neither and is left out, as is the pointer `video`, which
  is the VGA text memory from the start on.  Keyboard input is not modelled.
-/
import ExoCore.Display.Framebuffer

namespace ExoCore.Display

open ExoCore.Lib Function

/-! ## §1. State. -/

/-- `BUF_LINES`. -/
def bufLines : ℕ := 512

/-- `MAX_COLS`. -/
def maxCols : ℕ := 160

/-- The static data of `console.c`. -/
structure Console where
  attr : UInt8
  vgaEnabled : Bool
  buf : ℕ → ℕ → UInt16
  lineLen : ℕ → ℕ
  head : ℕ
  count : ℕ
  curLine : ℕ
  curCol : ℕ
  view : ℕ
  displayHold : Bool

/-- What is drawn on: the framebuffer and its bytes, VGA text memory, and the flags of
`bootmode.c`. -/
structure Screen where
  fb : Framebuffer
  mem : Bytes
  video : Bytes
  logsVisible : Bool
  whiteTheme : Bool

/-- The console and its screen. -/
structure Terminal where
  con : Console
  scr : Screen

/-- `VGA_ATTR(fg, bg)`. -/
def vgaAttr (fg bg : ℕ) : UInt8 := UInt8.ofNat (bg * 16 ||| (fg &&& 0x0F))

/-- The console at power-on, for any contents of the screen. -/
def Terminal.powerOn (mem video : Bytes) : Terminal :=
  ⟨⟨vgaAttr 15 0, true, fun _ _ => 0, fun _ => 0, 0, 1, 0, 0, 0, false⟩,
    ⟨.zero, mem, video, true, false⟩⟩

/-- `console_display_enabled`. -/
def consoleDisplayEnabled (t : Terminal) : Bool :=
  t.scr.logsVisible && (t.con.vgaEnabled || t.scr.fb.enabled)

/-- `visible_cols`. -/
def visibleCols (fb : Framebuffer) : ℕ :=
  if fb.enabled then
    let cols := fb.logicalWidth / 8
    let cols := if maxCols < cols then maxCols else cols
    if cols = 0 then 1 else cols
  else 80

/-- `visible_rows`. -/
def visibleRows (fb : Framebuffer) : ℕ :=
  if fb.enabled then
    let rows := framebufferTextRows fb
    let rows := if bufLines < rows then bufLines else rows
    if rows = 0 then 1 else rows
  else 25

/-- `pack`. -/
def pack (attr c : UInt8) : UInt16 := UInt16.ofNat (attr.toNat * 256 + c.toNat)

/-- The character `' '`. -/
def blank : UInt8 := 32

/-- The character `'\n'`. -/
def newlineChar : UInt8 := 10

/-! ## §2. The ring of lines. -/

/-- `idx`. -/
def Console.idx (c : Console) (off : ℕ) : ℕ := (c.head + off) % bufLines

/-- The cells from `start` up to `stop` of a line become blank. -/
def blankCells (attr : UInt8) (line : ℕ → UInt16) (start stop : ℕ) : ℕ → UInt16 := fun i =>
  if start ≤ i ∧ i < stop then pack attr blank else line i

/-- `clear_line`. -/
def Console.clearLine (c : Console) (line : ℕ) : Console :=
  { c with
    buf := update c.buf line (blankCells c.attr (c.buf line) 0 maxCols)
    lineLen := update c.lineLen line 0 }

/-- `erase_prev_char`. -/
def Console.erasePrevChar (c : Console) : Console :=
  if c.curCol = 0 then c
  else
    let col := c.curCol - 1
    { c with
      buf := update c.buf c.curLine
        (update (c.buf c.curLine) col (pack c.attr blank))
      curCol := col
      lineLen := if col < c.lineLen c.curLine then update c.lineLen c.curLine (col % 256)
        else c.lineLen }

/-- `follow_tail`. -/
def Console.followTail (c : Console) (rows : ℕ) : Bool :=
  if c.count ≤ rows then true else decide (c.count ≤ add32 c.view rows)

/-- `newline`. -/
def Console.newline (c : Console) (cols : ℕ) : Console :=
  let line := c.curLine
  let clearFrom := if cols < c.lineLen line then cols else c.lineLen line
  let c :=
    { c with
      buf := update c.buf line (blankCells c.attr (c.buf line) clearFrom cols)
      lineLen := update c.lineLen line (clearFrom % 256)
      curCol := 0
      curLine := (c.curLine + 1) % bufLines }
  let c :=
    if c.count < bufLines then { c with count := c.count + 1 }
    else
      { c with
        head := (c.head + 1) % bufLines
        view := if 0 < c.view then c.view - 1 else c.view }
  c.clearLine c.curLine

/-- The branch of `console_emit_char` that stores a character. -/
def Console.store (c : Console) (cols : ℕ) (ch : UInt8) : Console :=
  let c := if cols ≤ c.curCol then c.newline cols else c
  let col := add32 c.curCol 1
  let c :=
    { c with
      buf := update c.buf c.curLine
        (update (c.buf c.curLine) c.curCol (pack c.attr ch))
      curCol := col
      lineLen := if c.lineLen c.curLine < col then update c.lineLen c.curLine (col % 256)
        else c.lineLen }
  if cols ≤ c.curCol then c.newline cols else c

/-- The character part of `console_emit_char`. -/
def Console.put (c : Console) (cols : ℕ) (ch : UInt8) : Console :=
  if ch = newlineChar then c.newline cols
  else if ch = 13 then { c with curCol := 0 }
  else if ch = 8 then c.erasePrevChar
  else c.store cols ch

/-- The window put at the end of the text. -/
def Console.toTail (c : Console) (rows : ℕ) : Console :=
  { c with view := if rows < c.count then c.count - rows else 0 }

/-! ## §3. Drawing. -/

/-- One cell of the console, on the framebuffer or in VGA text memory. -/
def drawCell (scr : Screen) (r c : ℕ) (cell : UInt16) : Screen :=
  if scr.fb.enabled then { scr with mem := framebufferDrawCell scr.fb c r cell scr.mem }
  else
    let low := update scr.video ((r * 80 + c) * 2) (UInt8.ofNat cell.toNat)
    { scr with video := update low ((r * 80 + c) * 2 + 1) (UInt8.ofNat (cell.toNat / 256)) }

/-- `draw_screen`. -/
def drawScreen (t : Terminal) : Terminal :=
  if t.con.displayHold then t
  else if !consoleDisplayEnabled t then t
  else
    let con := t.con
    let rows := visibleRows t.scr.fb
    let start := if rows < con.count ∧ con.count < add32 con.view rows then con.count - rows
      else con.view
    let start := if con.count ≤ rows then 0 else start
    { t with scr := forUpto rows (fun r =>
        let off := add32 start r
        forUpto (visibleCols t.scr.fb) fun c scr =>
          drawCell scr r c
            (if con.count ≤ off then pack con.attr blank else con.buf (con.idx off) c)) t.scr }

/-! ## §4. The calls. -/

/-- `console_emit_char`. -/
def consoleEmitChar (t : Terminal) (ch : UInt8) : Terminal :=
  let cols := visibleCols t.scr.fb
  let rows := visibleRows t.scr.fb
  let follow := t.con.followTail rows
  let t := { t with con := t.con.put cols ch }
  let t := if follow ∧ consoleDisplayEnabled t then { t with con := t.con.toTail rows } else t
  if follow then t else drawScreen t

/-- `console_flush`. -/
def consoleFlush (t : Terminal) : Terminal := drawScreen t

/-- `console_putc`. -/
def consolePutc (t : Terminal) (ch : UInt8) : Terminal := consoleFlush (consoleEmitChar t ch)

/-- `console_write`; `console_puts` is this call with the length of its string. -/
def consoleWrite (t : Terminal) (s : List UInt8) : Terminal :=
  if s = [] then t else consoleFlush (s.foldl consoleEmitChar t)

/-- The digits of `console_uhex`, least significant first. -/
def hexDigits : ℕ → ℕ → List UInt8
  | 0, _ => []
  | fuel + 1, val =>
    if val = 0 then []
    else
      let d := val % 16
      UInt8.ofNat (if d < 10 then 48 + d else 55 + d) :: hexDigits fuel (val / 16)

/-- What `console_uhex` prints for a 64-bit word. -/
def hexText (val : ℕ) : List UInt8 := if val = 0 then [48] else (hexDigits 16 val).reverse

/-- `console_uhex`. -/
def consoleUhex (t : Terminal) (val : ℕ) : Terminal := consoleWrite t (hexText val)

/-- The text of a string literal. -/
def text (s : String) : List UInt8 := s.toList.map fun c => UInt8.ofNat c.toNat

/-- `debuglog_print_timestamp`; `none` when `debug_mode` is off. -/
def debuglogPrintTimestamp (t : Terminal) (delta : Option ℕ) : Terminal :=
  match delta with
  | none => t
  | some delta =>
    let t := consoleWrite t (text "[")
    let t := consoleWrite t (text "ts=0x")
    let t := consoleUhex t delta
    consoleWrite t (text "] ")

/-- `console_set_attr`. -/
def consoleSetAttr (t : Terminal) (fg bg : ℕ) : Terminal :=
  { t with con := { t.con with attr := vgaAttr fg bg } }

/-- `console_apply_boot_theme`. -/
def consoleApplyBootTheme (t : Terminal) : Terminal :=
  if t.scr.whiteTheme then consoleSetAttr t 0 15 else consoleSetAttr t 15 0

/-- All lines cleared, and the ring put back to one empty line. -/
def Console.reset (c : Console) : Console :=
  { forUpto bufLines (fun l c => c.clearLine l) c with
    head := 0, count := 1, curLine := 0, curCol := 0, view := 0 }

/-- `console_init`. -/
def consoleInit (t : Terminal) (delta : Option ℕ) : Terminal :=
  let t := consoleApplyBootTheme t
  let t := drawScreen { t with con := t.con.reset }
  let t := debuglogPrintTimestamp t delta
  consoleWrite t (text "console_init complete\n")

/-- `console_clear`. -/
def consoleClear (t : Terminal) : Terminal :=
  drawScreen { t with con := { t.con with displayHold := false }.reset }

/-- `console_backspace`. -/
def consoleBackspace (t : Terminal) : Terminal :=
  let rows := visibleRows t.scr.fb
  let t := { t with con := t.con.erasePrevChar }
  drawScreen (if t.con.followTail rows ∧ consoleDisplayEnabled t then
    { t with con := t.con.toTail rows } else t)

/-- `console_scroll_up`. -/
def consoleScrollUp (t : Terminal) : Terminal :=
  if consoleDisplayEnabled t ∧ 0 < t.con.view then
    drawScreen { t with con := { t.con with view := t.con.view - 1 } }
  else t

/-- `console_scroll_down`. -/
def consoleScrollDown (t : Terminal) : Terminal :=
  if consoleDisplayEnabled t ∧ add32 t.con.view (visibleRows t.scr.fb) < t.con.count then
    drawScreen { t with con := { t.con with view := add32 t.con.view 1 } }
  else t

end ExoCore.Display
