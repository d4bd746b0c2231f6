/-
  ExoCore.Boot.Mode — the boot flags of the kernel command line (`kernel/bootmode.c`).

  `token_eq` compares a flag with the text at ONE position and looks at the end of the
  match only; `bootmode_parse_cmdline` tries every flag at EVERY position.  A flag is
  therefore found wherever a word ENDS in it:

      bootmode_parse_cmdline cmd  =  one `readWord endsIn` for each word of cmd

  Main result: `flags_whole_words_iff` — when that is the same as reading whole words.
-/
import ExoCore.Display.Console

namespace ExoCore.Boot

open ExoCore.Display List

/-! ## §1. The source. -/

/-- `BOOT_THEME_DARK` and `BOOT_THEME_WHITE`. -/
inductive Theme where
  | dark
  | white
  deriving Repr, DecidableEq

/-- The statics of `bootmode.c`. -/
structure BootMode where
  logsVisible : Bool
  progressVisible : Bool
  theme : Theme
  deriving Repr, DecidableEq

/-- The characters that end a flag. -/
def isBlank (c : UInt8) : Bool := c == 0x20 || c == 0x09

/-- `token_eq`. -/
def tokenEq : List UInt8 → List UInt8 → Bool
  | [], [] => true
  | c :: _, [] => isBlank c
  | [], _ :: _ => false
  | a :: p, b :: t => a == b && tokenEq p t

/-- Flags, or the words of a command line. -/
abbrev Words := List (List UInt8)

/-- `bootmode_init`. -/
def bootmodeInit : BootMode := ⟨true, true, .dark⟩

def logsFlags : Words := [text "nologs", text "no-logs"]

def progressFlags : Words :=
  [text "bootprogress", text "progress", text "splashprogress"]

def whiteFlags : Words := [text "white", text "theme=white"]

def darkFlags : Words := [text "dark", text "theme=dark"]

/-- The loop body of `bootmode_parse_cmdline` at the position `p`. -/
def parseAt (m : BootMode) (p : List UInt8) : BootMode :=
  let m := if logsFlags.any (tokenEq p) then { m with logsVisible := false } else m
  let m := if progressFlags.any (tokenEq p) then { m with progressVisible := true } else m
  let m := if whiteFlags.any (tokenEq p) then { m with theme := .white } else m
  if darkFlags.any (tokenEq p) then { m with theme := .dark } else m

/-- The loop of `bootmode_parse_cmdline` from the position `p` on. -/
def parseFrom (m : BootMode) : List UInt8 → BootMode
  | [] => m
  | c :: p => parseFrom (parseAt m (c :: p)) p

/-- `bootmode_parse_cmdline`; `none` is the null pointer. -/
def bootmodeParseCmdline (m : BootMode) : Option (List UInt8) → BootMode
  | none => m
  | some cmd => parseFrom m cmd

/-! ## §2. Words. -/

/-- The maximal runs of characters other than space and tab. -/
def words (cmd : List UInt8) : Words := (cmd.splitOnP isBlank).filter (· ≠ [])

/-- `w` is one of the flags. -/
def isOne (flags : Words) (w : List UInt8) : Bool := decide (w ∈ flags)

/-- `w` ends in one of the flags. -/
def endsIn (flags : Words) (w : List UInt8) : Bool := flags.any (·.isSuffixOf w)

/-- The mode after the word `w`, for a way `has` of finding flags in it. -/
def readWord (has : Words → List UInt8 → Bool) (m : BootMode) (w : List UInt8) : BootMode where
  logsVisible := m.logsVisible && !has logsFlags w
  progressVisible := m.progressVisible || has progressFlags w
  theme := if has whiteFlags w then .white else if has darkFlags w then .dark else m.theme

/-- The last word with a theme flag has a white one. -/
def LastWhite (has : Words → List UInt8 → Bool) (ws : Words) : Prop :=
  ∃ w, (ws.filter fun w => has whiteFlags w || has darkFlags w).getLast? = some w ∧
    has whiteFlags w

section Read

variable (has : Words → List UInt8 → Bool) (m : BootMode) (ws : Words)

theorem logs_read : (ws.foldl (readWord has) m).logsVisible = false ↔
    m.logsVisible = false ∨ ∃ w ∈ ws, has logsFlags w := by
  induction ws generalizing m with
  | nil => simp
  | cons w ws ih =>
    rw [foldl_cons, ih]
    cases h : m.logsVisible <;> simp [readWord, h]

theorem theme_read : (ws.foldl (readWord has) bootmodeInit).theme = .white ↔ LastWhite has ws := by
  -- the last word decides, so the induction takes words from the end
  induction ws using reverseRecOn with
  | nil => simp [LastWhite, bootmodeInit]
  | append_singleton ws w ih =>
    rw [foldl_append]
    unfold LastWhite at ih ⊢
    rw [filter_append]
    cases hw : has whiteFlags w <;> cases hd : has darkFlags w <;>
      simp [readWord, hw, hd, ih]

end Read

/-! ## §3. The scan. -/

variable {p w : List UInt8} {ws : Words}

/-- **`token_eq` compares with the word from the position on.** -/
theorem tokenEq_iff {t : List UInt8} (ht : ∀ c ∈ t, isBlank c = false)
    (hp : p.splitOnP isBlank = w :: ws) : tokenEq p t = true ↔ w = t := by
  induction p generalizing t w ws with
  | nil =>
    obtain ⟨rfl, -⟩ : [] = w ∧ [] = ws := by simpa using hp
    cases t <;> simp [tokenEq]
  | cons a p ih =>
    obtain ⟨u, us, hu⟩ := exists_cons_of_ne_nil (splitOnP_ne_nil isBlank p)
    rw [splitOnP_cons_eq_if_modifyHead, hu] at hp
    cases ha : isBlank a with
    | true =>
      obtain ⟨rfl, -⟩ : [] = w ∧ _ = ws := by simpa [ha] using hp
      cases t with
      | nil => simp [tokenEq, ha]
      | cons b t =>
        have hb := ht b mem_cons_self
        have hab : a ≠ b := by
          intro hab
          rw [hab, hb] at ha
          exact absurd ha (by decide)
        simp [tokenEq, hab]
    | false =>
      obtain ⟨rfl, -⟩ : a :: u = w ∧ us = ws := by simpa [ha] using hp
      cases t with
      | nil => simp [tokenEq, ha]
      | cons b t =>
        have hrest := ih (fun c hc => ht c (mem_cons_of_mem b hc)) hu
        simp [tokenEq, hrest]

theorem any_tokenEq (hp : p.splitOnP isBlank = w :: ws) (flags : Words)
    (hf : ∀ t ∈ flags, t.all (!isBlank ·)) : flags.any (tokenEq p) = isOne flags w := by
  rw [Bool.eq_iff_iff, any_eq_true, isOne, decide_eq_true_eq]
  constructor
  · intro ⟨t, ht, heq⟩
    rw [(tokenEq_iff (by simpa using hf t ht) hp).mp heq]
    exact ht
  · intro hw
    exact ⟨w, hw, (tokenEq_iff (by simpa using hf w hw) hp).mpr rfl⟩

/-- No flag is of both colours. -/
theorem dark_of_white : ∀ w ∈ whiteFlags, w ∉ darkFlags ∧ endsIn darkFlags w.tail = false := by
  decide

/-- One position of the scan takes the word from there on as a whole. -/
theorem parseAt_eq (m : BootMode) (hp : p.splitOnP isBlank = w :: ws) :
    parseAt m p = readWord isOne m w := by
  have hlogs := any_tokenEq hp logsFlags (by decide)
  have hprogress := any_tokenEq hp progressFlags (by decide)
  have hwhite := any_tokenEq hp whiteFlags (by decide)
  have hdark := any_tokenEq hp darkFlags (by decide)
  have hcolour : isOne whiteFlags w = true → isOne darkFlags w = false := by
    simpa only [isOne, decide_eq_true_eq, decide_eq_false_iff_not] using
      fun hw => (dark_of_white w hw).1
  simp only [parseAt, hlogs, hprogress, hwhite, hdark, readWord]
  cases h1 : isOne logsFlags w <;> cases h2 : isOne progressFlags w <;>
    cases h3 : isOne whiteFlags w <;> cases h4 : isOne darkFlags w <;> simp_all

theorem endsIn_cons (flags : Words) (c : UInt8) (u : List UInt8) :
    endsIn flags (c :: u) = (isOne flags (c :: u) || endsIn flags u) := by
  rw [Bool.eq_iff_iff]
  simp only [endsIn, isOne, any_eq_true, isSuffixOf_iff_suffix, suffix_cons_iff,
    Bool.or_eq_true, decide_eq_true_eq]
  grind

/-- A word is read for its endings by taking it whole, then what follows its first character. -/
theorem readWord_cons (m : BootMode) (c : UInt8) (u : List UInt8) :
    readWord endsIn (readWord isOne m (c :: u)) u = readWord endsIn m (c :: u) := by
  have hcolour : isOne whiteFlags (c :: u) = true → endsIn darkFlags u = false := by
    intro hw
    exact (dark_of_white (c :: u) (of_decide_eq_true hw)).2
  have hdark : isOne whiteFlags (c :: u) = true → isOne darkFlags (c :: u) = false := by
    intro hw
    exact decide_eq_false (dark_of_white (c :: u) (of_decide_eq_true hw)).1
  simp only [readWord, endsIn_cons, BootMode.mk.injEq]
  refine ⟨by simp [Bool.and_assoc], by simp [Bool.or_assoc], ?_⟩
  cases h1 : isOne whiteFlags (c :: u) <;> cases h2 : endsIn whiteFlags u <;>
    cases h3 : endsIn darkFlags u <;> simp_all

theorem readWord_nil (m : BootMode) : readWord endsIn m [] = m ∧ readWord isOne m [] = m := by
  have hnil : ∀ flags ∈ [logsFlags, progressFlags, whiteFlags, darkFlags],
      endsIn flags [] = false ∧ isOne flags [] = false := by decide
  simp [readWord, hnil]

/-- **The scan reads every word for its endings.** -/
theorem parseFrom_eq (m : BootMode) (p : List UInt8) :
    parseFrom m p = (p.splitOnP isBlank).foldl (readWord endsIn) m := by
  induction p generalizing m with
  | nil => simp [parseFrom, readWord_nil]
  | cons c p ih =>
    obtain ⟨u, us, hu⟩ := exists_cons_of_ne_nil (splitOnP_ne_nil isBlank p)
    have hsplit : (c :: p).splitOnP isBlank = _ := splitOnP_cons_eq_if_modifyHead c p
    rw [hu] at ih hsplit
    rw [parseFrom, ih]
    cases hc : isBlank c with
    | true =>
      -- a blank is an empty word here
      rw [hc, if_pos rfl] at hsplit
      rw [parseAt_eq m hsplit, hsplit]
      simp only [foldl_cons, readWord_nil]
    | false =>
      rw [hc, if_neg (by decide), modifyHead_cons] at hsplit
      rw [parseAt_eq m hsplit, hsplit]
      simp only [foldl_cons, readWord_cons]

theorem parseFrom_words (m : BootMode) (cmd : List UInt8) :
    parseFrom m cmd = (words cmd).foldl (readWord endsIn) m := by
  rw [parseFrom_eq, words, foldl_filter]
  congr
  funext m w
  by_cases hw : w = []
  · simp [hw, readWord_nil]
  · simp [hw]

/-! ## §4. Whole words. -/

/-- **The flags count as whole words only**: the logs are hidden exactly when a word is one of
their flags, and the theme is that of the last word that is a theme flag. -/
def WholeWords (m : BootMode) (ws : Words) : Prop :=
  (m.logsVisible = false ↔ ∃ w ∈ ws, isOne logsFlags w) ∧ (m.theme = .white ↔ LastWhite isOne ws)

/-- **When the flags count as whole words only**: no word ends in a logs flag unless some word is
one, and the last word that ends in a theme flag has the colour of the last that is one. -/
theorem flags_whole_words_iff (cmd : Option (List UInt8)) :
    WholeWords (bootmodeParseCmdline bootmodeInit cmd) (words (cmd.getD [])) ↔
      ((∃ w ∈ words (cmd.getD []), endsIn logsFlags w) →
        ∃ w ∈ words (cmd.getD []), isOne logsFlags w) ∧
      (LastWhite endsIn (words (cmd.getD [])) ↔ LastWhite isOne (words (cmd.getD []))) := by
  have hscan : bootmodeParseCmdline bootmodeInit cmd =
      (words (cmd.getD [])).foldl (readWord endsIn) bootmodeInit := by
    cases cmd with
    | none => rfl
    | some cmd => exact parseFrom_words bootmodeInit cmd
  have hlogs := logs_read endsIn bootmodeInit (words (cmd.getD []))
  have hends : ∀ w : List UInt8, isOne logsFlags w = true → endsIn logsFlags w = true := by
    intro w hw
    exact any_eq_true.mpr ⟨w, of_decide_eq_true hw, by simp⟩
  rw [WholeWords, hscan, theme_read, hlogs]
  refine and_congr_left fun _ => ⟨fun h hw => h.mp (.inr hw), fun h => ⟨?_, ?_⟩⟩
  · intro hw
    exact h (hw.resolve_left (by decide))
  · intro ⟨w, hmem, hw⟩
    exact .inr ⟨w, hmem, hends w hw⟩

/-- A longer word that ends in `nologs` hides the logs. -/
theorem nologs_inside_word : ¬ WholeWords (bootmodeParseCmdline bootmodeInit (some (text "xnologs")))
    (words (text "xnologs")) := by
  intro h
  exact absurd (h.1.mp (by decide)) (by decide)

end ExoCore.Boot
