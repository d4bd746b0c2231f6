/-
  ExoCore.Display.Scrollback — the console's ring holds EXACTLY THE LAST LINES of what
  was printed.

  The specification is unbounded: `logicalLines` breaks the printed characters at each
  newline and after each `cols` characters, and forgets nothing.  The ring of 512
  lines is a window on its end:

    • `Holds`             — head, count, cursor, cells and window against a logical text,
    • `Holds.newline`, `Holds.put` — what one character does,
    • `Shows.foldl`       — a sequence of steps, each with what it prints,
    • `exec_shows`        — one call of the console,
    • `scrollback_exact`  — any sequence of calls, from `console_init` or
      `console_clear`, of any terminal.
-/
import ExoCore.Display.Console
import ExoCore.Lib.Ring
import Mathlib.Tactic.IntervalCases

namespace ExoCore.Display

open ExoCore.Lib Function List

/-! ## §1. Logical lines. -/

/-- A text: its finished lines, and the current one. -/
abbrev Text := List (List UInt8) × List UInt8

/-- One more character: a newline ends the line, and so does the `cols`-th character. -/
def feed (cols : ℕ) (t : Text) (ch : UInt8) : Text :=
  if ch = newlineChar then (t.1 ++ [t.2], [])
  else if cols ≤ t.2.length + 1 then (t.1 ++ [t.2 ++ [ch]], [])
  else (t.1, t.2 ++ [ch])

/-- The text that a list of characters makes. -/
def textOf (cols : ℕ) (s : List UInt8) : Text := s.foldl (feed cols) ([], [])

/-- All lines of a text, the current one last. -/
def logicalLines (cols : ℕ) (s : List UInt8) : List (List UInt8) :=
  (textOf cols s).1 ++ [(textOf cols s).2]

theorem textOf_append (cols : ℕ) (s : List UInt8) (ch : UInt8) :
    textOf cols (s ++ [ch]) = feed cols (textOf cols s) ch := by
  unfold textOf
  rw [foldl_append]
  rfl

variable {cols rows : ℕ} {t : Terminal} {c : Console} {s : List UInt8}

theorem feed_length (hcols : 0 < cols) (t : Text) (ch : UInt8) :
    (feed cols t ch).2.length < cols := by
  unfold feed
  split
  · exact hcols
  · split
    · exact hcols
    · rw [length_append, length_singleton]
      omega

/-! ## §2. The ring against a text. -/

/-- The character of a cell. -/
def cellChar (cell : UInt16) : UInt8 := UInt8.ofNat cell.toNat

@[simp] theorem cellChar_pack (attr ch : UInt8) : cellChar (pack attr ch) = ch := by
  have ha := attr.toNat_lt
  have hc := ch.toNat_lt
  apply UInt8.toNat_inj.mp
  unfold cellChar pack
  rw [UInt8.toNat_ofNat', UInt16.toNat_ofNat']
  omega

/-- A row of cells shows `line`, padded with blanks. -/
def Reads (row : ℕ → UInt16) (line : List UInt8) : Prop :=
  ∀ j, j < maxCols → cellChar (row j) = line.getD j blank

/-- The ring, the cursor and the length of the current line are those of the text, and the
window of `rows` lines starts at its top or ends inside it. -/
structure Holds (rows : ℕ) (t : Text) (c : Console) : Prop where
  ring : RingHolds Reads bufLines c.head c.count c.buf (t.1 ++ [t.2])
  count : c.count = min (t.1.length + 1) bufLines
  head : c.head < bufLines
  curLine : c.curLine = (c.head + (c.count - 1)) % bufLines
  curCol : c.curCol = t.2.length
  len : c.lineLen c.curLine = t.2.length
  view : c.view = 0 ∨ c.view + rows ≤ c.count

theorem Holds.count_pos {t : Text} (h : Holds rows t c) : 0 < c.count := by
  rw [h.count]
  exact lt_min (Nat.succ_pos _) (by decide)

/-- The row of the current line. -/
theorem Holds.row {t : Text} (h : Holds rows t c) : Reads (c.buf c.curLine) t.2 := by
  have hpos := h.count_pos
  have hfits := h.ring.fits
  rw [length_append, length_singleton] at hfits
  rw [h.curLine]
  refine h.ring.entry (c.count - 1) t.2 (by omega) ?_
  rw [length_append, length_singleton, getElem?_append_right (by omega),
    show t.1.length + 1 - c.count + (c.count - 1) - t.1.length = 0 by omega]
  rfl

theorem reads_nil (attr : UInt8) (row : ℕ → UInt16) : Reads (blankCells attr row 0 maxCols) [] := by
  intro j hj
  unfold blankCells
  rw [if_pos ⟨Nat.zero_le j, hj⟩]
  exact cellChar_pack attr blank

/-- Blanks after the end of a line change nothing of what it shows. -/
theorem Reads.blank {row : ℕ → UInt16} {line : List UInt8} (h : Reads row line) (attr : UInt8)
    (stop : ℕ) : Reads (blankCells attr row line.length stop) line := by
  intro j hj
  unfold blankCells
  split
  · rename_i hin
    rw [cellChar_pack, getD_eq_default line _ hin.1]
  · exact h j hj

/-- A character stored behind the end of a line. -/
theorem Reads.snoc {row : ℕ → UInt16} {line : List UInt8} (h : Reads row line) (attr ch : UInt8) :
    Reads (update row line.length (pack attr ch)) (line ++ [ch]) := by
  intro j hj
  by_cases hlast : j = line.length
  · subst hlast
    rw [update_self, cellChar_pack, getD_append_right _ _ _ _ (le_refl _), Nat.sub_self]
    rfl
  · rw [update_of_ne hlast, h j hj]
    by_cases hlt : j < line.length
    · rw [getD_append _ _ _ _ hlt]
    · rw [getD_eq_default _ _ (by omega),
        getD_eq_default _ _ (by rw [length_append, length_singleton]; omega)]

/-! ## §3. One character. -/

/-- `newline` without its last step, the clearing of the new line. -/
def Console.advance (c : Console) (cols : ℕ) : Console :=
  { c with
    buf := update c.buf c.curLine (blankCells c.attr (c.buf c.curLine)
      (if cols < c.lineLen c.curLine then cols else c.lineLen c.curLine) cols)
    lineLen := update c.lineLen c.curLine
      ((if cols < c.lineLen c.curLine then cols else c.lineLen c.curLine) % 256)
    curCol := 0
    curLine := (c.curLine + 1) % bufLines
    count := if c.count < bufLines then c.count + 1 else c.count
    head := if c.count < bufLines then c.head else (c.head + 1) % bufLines
    view := if c.count < bufLines then c.view else c.view - 1 }

theorem newline_eq (c : Console) (cols : ℕ) :
    c.newline cols = (c.advance cols).clearLine ((c.curLine + 1) % bufLines) := by
  unfold Console.newline Console.advance
  dsimp only
  by_cases hroom : c.count < bufLines
  · simp only [if_pos hroom]
  · have hview : (if 0 < c.view then c.view - 1 else c.view) = c.view - 1 := by
      split <;> omega
    simp only [if_neg hroom, hview]

/-- **A new line.** -/
theorem Holds.newline {t : Text} (h : Holds rows t c)
    (hlen : t.2.length ≤ cols) : Holds rows (t.1 ++ [t.2], []) (c.newline cols) := by
  have hpos := h.count_pos
  have hview := h.view
  have hcount := h.count
  have hfrom : (if cols < c.lineLen c.curLine then cols else c.lineLen c.curLine) = t.2.length := by
    rw [h.len, if_neg (by omega)]
  -- the old line keeps its text, and the slot after it is cleared
  have hold := h.ring.setLast hpos (h.row.blank c.attr cols)
  rw [← h.curLine] at hold
  have hnext : (c.curLine + 1) % bufLines = (c.head + c.count) % bufLines := by
    rw [h.curLine, Nat.mod_add_mod, show c.head + (c.count - 1) + 1 = c.head + c.count by omega]
  rw [newline_eq]
  unfold Console.advance Console.clearLine
  rw [hfrom, hnext]
  by_cases hroom : c.count < bufLines
  · simp only [if_pos hroom]
    refine ⟨hold.push hroom (reads_nil _ _), ?_, h.head, ?_, rfl, update_self .., ?_⟩
    · dsimp only
      rw [length_append, length_singleton]
      omega
    · dsimp only
      rw [Nat.add_sub_cancel]
    · dsimp only
      omega
  · have hfull : c.count = bufLines := le_antisymm h.ring.room (not_lt.mp hroom)
    have hslot : (c.head + c.count) % bufLines = c.head % bufLines := by
      rw [hfull, Nat.add_mod_right]
    simp only [if_neg hroom]
    rw [hslot]
    rw [hfull] at hold
    refine ⟨?_, ?_, Nat.mod_lt _ (by decide), ?_, rfl, update_self .., ?_⟩
    · dsimp only
      rw [hfull]
      exact hold.pushFull (by decide) (reads_nil _ _)
    · dsimp only
      rw [length_append, length_singleton]
      omega
    · dsimp only
      rw [hfull, Nat.mod_add_mod]
      show c.head % bufLines = (c.head + 1 + (bufLines - 1)) % bufLines
      rw [show c.head + 1 + (bufLines - 1) = c.head + bufLines by rfl, Nat.add_mod_right]
    · dsimp only
      omega

/-- The character stored, before the test for a full line. -/
def Console.append (c : Console) (ch : UInt8) : Console :=
  { c with
    buf := update c.buf c.curLine
      (update (c.buf c.curLine) c.curCol (pack c.attr ch))
    curCol := add32 c.curCol 1
    lineLen := if c.lineLen c.curLine < add32 c.curCol 1 then
        update c.lineLen c.curLine (add32 c.curCol 1 % 256)
      else c.lineLen }

theorem Holds.append {t : Text} (h : Holds rows t c) (hlen : t.2.length < maxCols)
    (ch : UInt8) : Holds rows (t.1, t.2 ++ [ch]) (c.append ch) := by
  have hmax : maxCols = 160 := rfl
  have hcol : add32 c.curCol 1 = t.2.length + 1 := by
    rw [h.curCol]
    exact add32_of_lt (by omega)
  have hring := h.ring.setLast h.count_pos (h.row.snoc c.attr ch)
  rw [← h.curLine, ← h.curCol] at hring
  refine ⟨hring, h.count, h.head, h.curLine, ?_, ?_, h.view⟩
  · show add32 c.curCol 1 = (t.2 ++ [ch]).length
    rw [hcol, length_append, length_singleton]
  · show (if c.lineLen c.curLine < add32 c.curCol 1 then
        update c.lineLen c.curLine (add32 c.curCol 1 % 256)
      else c.lineLen) c.curLine = (t.2 ++ [ch]).length
    rw [hcol, h.len, if_pos (Nat.lt_succ_self _), update_self, length_append,
      length_singleton]
    omega

/-- The two tests for a full line, before and after the character. -/
theorem store_eq (c : Console) (cols : ℕ) (ch : UInt8) :
    c.store cols ch =
      if cols ≤ ((if cols ≤ c.curCol then c.newline cols else c).append ch).curCol then
        ((if cols ≤ c.curCol then c.newline cols else c).append ch).newline cols
      else (if cols ≤ c.curCol then c.newline cols else c).append ch := rfl

/-- **One character** that is neither a carriage return nor a backspace. -/
theorem Holds.put {t : Text} (h : Holds rows t c) (hcols : cols ≤ maxCols)
    (hlen : t.2.length < cols) {ch : UInt8} (hcr : ch ≠ 13) (hbs : ch ≠ 8) :
    Holds rows (feed cols t ch) (c.put cols ch) := by
  unfold feed Console.put
  by_cases hnl : ch = newlineChar
  · rw [if_pos hnl, if_pos hnl]
    exact h.newline (le_of_lt hlen)
  · rw [if_neg hnl, if_neg hnl, if_neg hcr, if_neg hbs]
    have happ := h.append (lt_of_lt_of_le hlen hcols) ch
    have hroom : ¬ cols ≤ c.curCol := by
      rw [h.curCol]
      exact not_le.mpr hlen
    rw [store_eq, if_neg hroom, happ.curCol]
    rw [length_append, length_singleton]
    by_cases hfull : cols ≤ t.2.length + 1
    · rw [if_pos hfull, if_pos hfull]
      refine happ.newline ?_
      rw [length_append, length_singleton]
      exact hlen
    · rw [if_neg hfull, if_neg hfull]
      exact happ

/-! ## §4. Calls. -/

/-- The terminal shows the text `s`, in a screen of `cols` by `rows`. -/
structure Shows (cols rows : ℕ) (s : List UInt8) (t : Terminal) : Prop where
  colsEq : visibleCols t.scr.fb = cols
  rowsEq : visibleRows t.scr.fb = rows
  holds : Holds rows (textOf cols s) t.con
  width : (textOf cols s).2.length < cols

theorem drawCell_fb (scr : Screen) (r c : ℕ) (cell : UInt16) : (drawCell scr r c cell).fb = scr.fb := by
  unfold drawCell
  split
  · rfl
  · rfl

/-- `draw_screen` changes pixels and text memory only. -/
theorem drawScreen_keeps (t : Terminal) :
    (drawScreen t).con = t.con ∧ (drawScreen t).scr.fb = t.scr.fb := by
  unfold drawScreen
  split
  · exact ⟨rfl, rfl⟩
  split
  · exact ⟨rfl, rfl⟩
  · refine ⟨rfl, ?_⟩
    refine forUpto_inv (fun _ (scr : Screen) => scr.fb = t.scr.fb) rfl fun r scr _ hscr => ?_
    refine forUpto_inv (fun _ (scr : Screen) => scr.fb = t.scr.fb) hscr fun c scr _ hscr => ?_
    rw [drawCell_fb]
    exact hscr

theorem Shows.draw (h : Shows cols rows s t) :
    Shows cols rows s (drawScreen t) := by
  obtain ⟨hcon, hfb⟩ := drawScreen_keeps t
  refine ⟨?_, ?_, ?_, h.width⟩
  · rw [hfb]; exact h.colsEq
  · rw [hfb]; exact h.rowsEq
  · rw [hcon]; exact h.holds

/-- Another window on the same text. -/
theorem Shows.scroll (h : Shows cols rows s t) {view : ℕ}
    (hview : view = 0 ∨ view + rows ≤ t.con.count) :
    Shows cols rows s { t with con := { t.con with view := view } } :=
  { h with holds := { h.holds with view := hview } }

theorem visibleCols_range (fb : Framebuffer) : 1 ≤ visibleCols fb ∧ visibleCols fb ≤ maxCols := by
  have hmax : maxCols = 160 := rfl
  unfold visibleCols
  split
  · dsimp only
    split <;> split <;> omega
  · omega

theorem visibleRows_range (fb : Framebuffer) : 1 ≤ visibleRows fb ∧ visibleRows fb ≤ bufLines := by
  have hmax : bufLines = 512 := rfl
  unfold visibleRows
  split
  · dsimp only
    split <;> split <;> omega
  · omega

/-- A character that is neither a carriage return nor a backspace. -/
def Plain (ch : UInt8) : Prop := ch ≠ 13 ∧ ch ≠ 8

instance (ch : UInt8) : Decidable (Plain ch) := inferInstanceAs (Decidable (_ ∧ _))

section

variable (h : Shows cols rows s t)
include h

theorem Shows.emit {ch : UInt8} (hch : Plain ch) :
    Shows cols rows (s ++ [ch]) (consoleEmitChar t ch) := by
  obtain ⟨hpos, hmax⟩ := visibleCols_range t.scr.fb
  have hput : Shows cols rows (s ++ [ch]) { t with con := t.con.put cols ch } := by
    rw [h.colsEq] at hpos hmax
    refine ⟨h.colsEq, h.rowsEq, ?_, ?_⟩
    · rw [textOf_append]
      exact h.holds.put hmax h.width hch.1 hch.2
    · rw [textOf_append]
      exact feed_length hpos _ ch
  have htail : Shows cols rows (s ++ [ch]) { t with con := (t.con.put cols ch).toTail rows } := by
    refine hput.scroll ?_
    dsimp only
    split <;> omega
  unfold consoleEmitChar
  rw [h.colsEq, h.rowsEq]
  dsimp only
  split
  · split
    · exact htail
    · exact hput
  · split
    · exact htail.draw
    · exact hput.draw

/-- **A sequence of steps**, each with the characters it prints. -/
theorem Shows.foldl {α : Type} {f : Terminal → α → Terminal} {chars : α → List UInt8}
    (hstep : ∀ {s t} a, Shows cols rows s t → (∀ ch ∈ chars a, Plain ch) →
      Shows cols rows (s ++ chars a) (f t a)) {l : List α}
    (hl : ∀ a ∈ l, ∀ ch ∈ chars a, Plain ch) :
    Shows cols rows (s ++ l.flatMap chars) (l.foldl f t) := by
  induction l generalizing s t with
  | nil =>
    rw [flatMap_nil, append_nil]
    exact h
  | cons a l ih =>
    rw [flatMap_cons, ← append_assoc]
    exact ih (hstep a h (hl a mem_cons_self)) fun b hb => hl b (mem_cons_of_mem a hb)

theorem Shows.write {w : List UInt8} (hw : ∀ ch ∈ w, Plain ch) :
    Shows cols rows (s ++ w) (consoleWrite t w) := by
  unfold consoleWrite
  split
  · rename_i hnil
    rw [hnil, append_nil]
    exact h
  · have hfold : Shows cols rows (s ++ w.flatMap fun ch => [ch]) (w.foldl consoleEmitChar t) :=
      h.foldl (fun ch h hch => h.emit (hch ch (mem_singleton_self ch)))
        fun ch hch c hc => mem_singleton.mp hc ▸ hw ch hch
    rw [flatMap_singleton'] at hfold
    exact hfold.draw

/-- The calls that print or scroll. -/
inductive ConsoleOp where
  | putc (ch : UInt8)
  | write (w : List UInt8)
  | scrollUp
  | scrollDown

/-- The characters of a call. -/
def ConsoleOp.chars : ConsoleOp → List UInt8
  | .putc ch => [ch]
  | .write w => w
  | .scrollUp => []
  | .scrollDown => []

def ConsoleOp.exec (t : Terminal) : ConsoleOp → Terminal
  | .putc ch => consolePutc t ch
  | .write w => consoleWrite t w
  | .scrollUp => consoleScrollUp t
  | .scrollDown => consoleScrollDown t

/-- **One call.** -/
theorem exec_shows (op : ConsoleOp) (hop : ∀ ch ∈ op.chars, Plain ch) :
    Shows cols rows (s ++ op.chars) (op.exec t) := by
  have hview := h.holds.view
  cases op with
  | putc ch => exact (h.emit (hop ch mem_cons_self)).draw
  | write w => exact h.write hop
  | scrollUp =>
    show Shows cols rows (s ++ []) (consoleScrollUp t)
    rw [append_nil]
    unfold consoleScrollUp
    split
    · exact (h.scroll (by omega)).draw
    · exact h
  | scrollDown =>
    show Shows cols rows (s ++ []) (consoleScrollDown t)
    rw [append_nil]
    unfold consoleScrollDown
    split
    · rename_i hroom
      have hcount : t.con.count ≤ bufLines := h.holds.ring.room
      have hbuf : bufLines = 512 := rfl
      have hmax := (visibleRows_range t.scr.fb).2
      have hrows := hroom.2
      rw [h.rowsEq] at hrows hmax
      have hadd : add32 t.con.view 1 = t.con.view + 1 := add32_of_lt (by omega)
      refine Shows.draw ?_
      rw [hadd]
      refine h.scroll ?_
      unfold add32 at hrows
      omega
    · exact h

end

/-! ## §5. From a cleared console. -/

theorem reset_holds (rows : ℕ) (c : Console) : Holds rows ([], []) c.reset := by
  -- the first turn blanks line 0, and no other turn touches it
  have hloop : 0 < bufLines → Reads ((forUpto bufLines (fun l c => c.clearLine l) c).buf 0) [] ∧
      (forUpto bufLines (fun l c => c.clearLine l) c).lineLen 0 = 0 := by
    refine forUpto_inv (fun i (d : Console) => 0 < i → Reads (d.buf 0) [] ∧ d.lineLen 0 = 0)
      (fun h => absurd h (lt_irrefl 0)) ?_
    intro i d _ ih _
    show Reads (update d.buf i _ 0) [] ∧ update d.lineLen i 0 0 = 0
    by_cases hi : 0 = i
    · subst hi
      rw [update_self, update_self]
      exact ⟨reads_nil _ _, rfl⟩
    · rw [update_of_ne hi, update_of_ne hi]
      exact ih (by omega)
  obtain ⟨hrow, hlen⟩ := hloop (by decide)
  have hbuf : c.reset.buf 0 = (forUpto bufLines (fun l c => c.clearLine l) c).buf 0 := by
    simp only [Console.reset]
  have hlens : c.reset.lineLen c.reset.curLine =
      (forUpto bufLines (fun l c => c.clearLine l) c).lineLen 0 := by
    simp only [Console.reset]
  have hslot : (c.reset.head + 0) % bufLines = 0 := by
    simp only [Console.reset, Nat.add_zero, Nat.zero_mod]
  refine ⟨⟨show 1 ≤ bufLines by decide, le_refl 1, ?_⟩, rfl, show 0 < bufLines by decide, rfl, rfl,
    ?_, .inl rfl⟩
  · intro k a hk hget
    obtain rfl : k = 0 := Nat.lt_one_iff.mp hk
    cases hget
    rw [hslot, hbuf]
    exact hrow
  · rw [hlens]
    exact hlen

theorem reset_shows (t : Terminal) (c : Console) :
    Shows (visibleCols t.scr.fb) (visibleRows t.scr.fb) [] { t with con := c.reset } :=
  ⟨rfl, rfl, reset_holds _ c, (visibleCols_range t.scr.fb).1⟩

theorem hexDigits_plain : ∀ (fuel val : ℕ), ∀ ch ∈ hexDigits fuel val, Plain ch := by
  intro fuel
  induction fuel with
  | zero =>
    intro val ch hch
    cases hch
  | succ fuel ih =>
    intro val ch hch
    unfold hexDigits at hch
    split at hch
    · cases hch
    · rcases mem_cons.mp hch with rfl | hrest
      · have hd : val % 16 < 16 := Nat.mod_lt _ (by decide)
        generalize val % 16 = d at hd
        interval_cases d <;> decide
      · exact ih _ ch hrest

theorem plain_of_all {l : List UInt8} (h : l.all (fun ch => decide (Plain ch)) = true) :
    ∀ ch ∈ l, Plain ch := fun ch hch => of_decide_eq_true (all_eq_true.mp h ch hch)

theorem hexText_plain (val : ℕ) : ∀ ch ∈ hexText val, Plain ch := by
  unfold hexText
  split
  · exact plain_of_all (by decide)
  · intro ch hch
    exact hexDigits_plain 16 val ch (mem_reverse.mp hch)

/-- The characters of the time stamp. -/
def stampText : Option ℕ → List UInt8
  | none => []
  | some delta => text "[" ++ text "ts=0x" ++ hexText delta ++ text "] "

theorem Shows.stamp (h : Shows cols rows s t)
    (delta : Option ℕ) : Shows cols rows (s ++ stampText delta) (debuglogPrintTimestamp t delta) := by
  cases delta with
  | none =>
    show Shows cols rows (s ++ []) t
    rw [append_nil]
    exact h
  | some delta =>
    have h1 := h.write (w := text "[") (plain_of_all (by decide))
    have h2 := h1.write (w := text "ts=0x") (plain_of_all (by decide))
    have h3 := h2.write (hexText_plain delta)
    have h4 := h3.write (w := text "] ") (plain_of_all (by decide))
    simp only [append_assoc] at h4
    simp only [stampText, append_assoc]
    exact h4

/-- Where a sequence of calls begins. -/
inductive Start where
  /-- `console_init`, at the time stamp it prints. -/
  | init (delta : Option ℕ)
  /-- `console_clear`. -/
  | clear

def Start.exec (t : Terminal) : Start → Terminal
  | .init delta => consoleInit t delta
  | .clear => consoleClear t

/-- What the beginning itself prints: `console_init` reports its end. -/
def Start.chars : Start → List UInt8
  | .init delta => stampText delta ++ text "console_init complete\n"
  | .clear => []

theorem start_shows (t : Terminal) (start : Start) :
    Shows (visibleCols t.scr.fb) (visibleRows t.scr.fb) start.chars (start.exec t) := by
  cases start with
  | clear => exact (reset_shows t { t.con with displayHold := false }).draw
  | init delta =>
    have htheme : (consoleApplyBootTheme t).scr = t.scr := by
      unfold consoleApplyBootTheme
      split
      · rfl
      · rfl
    have hreset := reset_shows (consoleApplyBootTheme t) (consoleApplyBootTheme t).con
    rw [← htheme]
    have hstamp := (hreset.draw.stamp delta).write (w := text "console_init complete\n")
      (plain_of_all (by decide))
    rw [nil_append] at hstamp
    exact hstamp

/-- What a terminal that shows `s` holds, line by line. -/
theorem Shows.lines (h : Shows cols rows s t) :
    t.con.count = min (logicalLines cols s).length 512 ∧
      t.con.curLine = (t.con.head + t.con.count - 1) % 512 ∧
      (∃ last, (logicalLines cols s).getLast? = some last ∧ t.con.curCol = last.length ∧
        t.con.curCol < cols) ∧
      (∀ k j, k < t.con.count → j < 160 → cellChar (t.con.buf ((t.con.head + k) % 512) j) =
        ((logicalLines cols s).getD ((logicalLines cols s).length - t.con.count + k) []).getD j
          blank) ∧
      (t.con.view = 0 ∨ t.con.view + rows ≤ t.con.count) := by
  have hpos := h.holds.count_pos
  have hlen : (logicalLines cols s).length = (textOf cols s).1.length + 1 := length_append
  refine ⟨?_, ?_, ?_, ?_, h.holds.view⟩
  · rw [hlen]
    exact h.holds.count
  · rw [Nat.add_sub_assoc hpos]
    exact h.holds.curLine
  · refine ⟨_, getLast?_concat, h.holds.curCol, ?_⟩
    rw [h.holds.curCol]
    exact h.width
  · intro k j hk hj
    have hfits : t.con.count ≤ (logicalLines cols s).length := h.holds.ring.fits
    have hin : (logicalLines cols s).length - t.con.count + k < (logicalLines cols s).length := by
      omega
    refine h.holds.ring.entry k _ hk ?_ j hj
    show (logicalLines cols s)[(logicalLines cols s).length - t.con.count + k]? = _
    rw [getElem?_eq_getElem hin, getD_eq_getElem _ _ hin]

/-- **The scrollback holds exactly the last lines.**  From `console_init` or
`console_clear` on any terminal, and after any calls that print neither a carriage
return nor a backspace: the number of lines, the cursor, the text of every line of the
ring and the bounds of the window are those of the logical lines printed so far. -/
theorem scrollback_exact (t₀ : Terminal) (start : Start) (ops : List ConsoleOp)
    (hops : ∀ op ∈ ops, ∀ ch ∈ op.chars, Plain ch) :
    let cols := visibleCols t₀.scr.fb
    let rows := visibleRows t₀.scr.fb
    let con := (ops.foldl ConsoleOp.exec (start.exec t₀)).con
    let lines := logicalLines cols (start.chars ++ ops.flatMap ConsoleOp.chars)
    con.count = min lines.length 512 ∧
      con.curLine = (con.head + con.count - 1) % 512 ∧
      (∃ last, lines.getLast? = some last ∧ con.curCol = last.length ∧ con.curCol < cols) ∧
      (∀ k j, k < con.count → j < 160 → cellChar (con.buf ((con.head + k) % 512) j) =
        (lines.getD (lines.length - con.count + k) []).getD j blank) ∧
      (con.view = 0 ∨ con.view + rows ≤ con.count) :=
  ((start_shows t₀ start).foldl (fun op h => exec_shows h op) hops).lines

theorem scrollback_exact_powerOn :
    (∀ op ∈ [ConsoleOp.write (text "ab\n"), .scrollUp, .putc 99], ∀ ch ∈ op.chars, Plain ch) ∧
      ([ConsoleOp.write (text "ab\n"), .scrollUp, .putc 99].foldl ConsoleOp.exec
        (Start.clear.exec (.powerOn (fun _ => 0) fun _ => 0))).con.count = 2 := by
  have hplain : ∀ op ∈ [ConsoleOp.write (text "ab\n"), .scrollUp, .putc 99],
      ∀ ch ∈ op.chars, Plain ch := by
    refine forall_mem_cons.mpr ⟨plain_of_all (by decide), forall_mem_cons.mpr ⟨?_, ?_⟩⟩
    · exact plain_of_all (by decide)
    · exact forall_mem_cons.mpr ⟨plain_of_all (by decide), fun _ h => by cases h⟩
  exact ⟨hplain, (scrollback_exact (.powerOn (fun _ => 0) fun _ => 0) .clear _ hplain).1⟩

end ExoCore.Display
