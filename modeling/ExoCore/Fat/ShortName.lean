/-
  ExoCore.Fat.ShortName — the grammar of `make_short_name`.

  One pass with two counters and a flag reads a name of the form `B` or `B.E`.  The scanner is
  modelled twice: `shortNameLoop` collects the characters of the two parts, and
  `makeShortNameInto` stores each of them at its index of the caller's 11 bytes, where a store
  outside of them is a fault.

    • `shortNameLoop_iff`      — the scanner accepts the grammar and nothing else;
    • `storeLoop_stores`       — the stores stay in the 11 bytes and leave the padded parts;
    • `encode_injective`       — padding hides nothing: no part contains a blank;
    • `short_names`            — `make_short_name` on every string.
-/
import ExoCore.Fat.Calls

namespace ExoCore.Fat

open ExoCore.Lib List

/-! ## §1. The grammar. -/

/-- A character of a name: not `/`, not `.`, and none of those that are refused. -/
def NameChar (c : UInt8) : Prop := c ≠ 0x2F ∧ c ≠ 0x2E ∧ badChar c = false

/-- **`p` is `B` or `B.E`**, with 1 to 8 characters in `B` and up to 3 in `E`. -/
structure Spells (p base ext : List UInt8) : Prop where
  form : (p = base ∧ ext = []) ∨ p = base ++ 0x2E :: ext
  base_pos : 1 ≤ base.length
  base_le : base.length ≤ 8
  ext_le : ext.length ≤ 3
  base_chars : ∀ c ∈ base, NameChar c
  ext_chars : ∀ c ∈ ext, NameChar c

/-- The path without the slashes in front. -/
def stripSlashes (path : List UInt8) : List UInt8 := path.dropWhile (· == 0x2F)

/-- The two parts in capitals, padded with blanks to 8 and 3 bytes. -/
def encode (base ext : List UInt8) : List UInt8 :=
  padTo 8 (base.map upperChar) ++ padTo 3 (ext.map upperChar)

section Scanner

variable {name ext : List UInt8} {r : List UInt8 × List UInt8}

/-- The first character is the dot behind an empty `B`, or the first one of `B`. -/
theorem exists_form_cons {c : UInt8} {p : List UInt8} {Q : List UInt8 → List UInt8 → Prop} :
    (∃ base ext, ((c :: p = base ∧ ext = []) ∨ c :: p = base ++ 0x2E :: ext) ∧ Q base ext) ↔
      (c = 0x2E ∧ Q [] p) ∨
        ∃ base ext, ((p = base ∧ ext = []) ∨ p = base ++ 0x2E :: ext) ∧ Q (c :: base) ext := by
  constructor
  · rintro ⟨base, ext, ⟨rfl, rfl⟩ | hform, hQ⟩
    · exact .inr ⟨p, [], .inl ⟨rfl, rfl⟩, hQ⟩
    · cases base with
      | nil =>
        cases hform
        exact .inl ⟨rfl, hQ⟩
      | cons b base =>
        cases hform
        exact .inr ⟨base, ext, .inr rfl, hQ⟩
  · rintro (⟨rfl, hQ⟩ | ⟨base, ext, ⟨rfl, rfl⟩ | rfl, hQ⟩)
    · exact ⟨[], p, .inr rfl, hQ⟩
    · exact ⟨c :: p, [], .inl ⟨rfl, rfl⟩, hQ⟩
    · exact ⟨c :: base, ext, .inr rfl, hQ⟩

/-- A character that is none of a name is refused, the first dot apart. -/
theorem shortNameLoop_refuses {c : UInt8} {inExt : Bool} (p : List UInt8) (hc : ¬ NameChar c)
    (hdot : c = 0x2E → inExt = true) : shortNameLoop (c :: p) name ext inExt = none := by
  rw [shortNameLoop]
  split_ifs <;> grind [NameChar]

/-- A character of a name goes to its part, while there is room. -/
theorem shortNameLoop_char {c : UInt8} {inExt : Bool} (p : List UInt8) (hc : NameChar c) :
    shortNameLoop (c :: p) name ext inExt = if inExt then
        if ext.length ≥ 3 then none else shortNameLoop p name (ext ++ [upperChar c]) true
      else if name.length ≥ 8 then none
      else shortNameLoop p (name ++ [upperChar c]) ext false := by
  rw [shortNameLoop, if_neg hc.1, if_neg hc.2.1, hc.2.2]
  cases inExt <;> rfl

/-- Behind the dot: the rest is the extension. -/
theorem shortNameLoop_ext : ∀ (p : List UInt8) {ext : List UInt8}, ext.length ≤ 3 →
    (shortNameLoop p name ext true = some r ↔
      (∀ c ∈ p, NameChar c) ∧ ext.length + p.length ≤ 3 ∧ 0 < name.length ∧
        r = (name, ext ++ p.map upperChar)) := by
  intro p
  induction p with
  | nil =>
    intro ext hext
    simp [shortNameLoop, hext, eq_comm]
  | cons c p ih =>
    intro ext hext
    rw [length_cons, map_cons, forall_mem_cons]
    by_cases hc : NameChar c
    · rw [shortNameLoop_char p hc, if_pos rfl]
      by_cases hfull : ext.length ≥ 3
      · rw [if_pos hfull]
        exact iff_of_false nofun fun h => absurd h.2.1 (by omega)
      · have hlen : (ext ++ [upperChar c]).length = ext.length + 1 := length_append
        rw [if_neg hfull, ih (by omega), hlen, append_assoc, singleton_append, and_iff_right hc,
          Nat.add_right_comm, ← Nat.add_assoc]
    · rw [shortNameLoop_refuses p hc fun _ => rfl]
      exact iff_of_false nofun fun h => hc h.1.1

/-- **The scanner**, from the start: what is left is `B` or `B.E`. -/
theorem shortNameLoop_base : ∀ (p : List UInt8) {name : List UInt8}, name.length ≤ 8 →
    (shortNameLoop p name [] false = some r ↔
      ∃ base ext, ((p = base ∧ ext = []) ∨ p = base ++ 0x2E :: ext) ∧
        0 < name.length + base.length ∧ name.length + base.length ≤ 8 ∧ ext.length ≤ 3 ∧
        (∀ c ∈ base, NameChar c) ∧ (∀ c ∈ ext, NameChar c) ∧
        r = (name ++ base.map upperChar, ext.map upperChar)) := by
  intro p
  induction p with
  | nil =>
    intro name hname
    rw [shortNameLoop]
    constructor
    · intro h
      by_cases hpos : name.length > 0
      · rw [if_pos hpos] at h
        cases h
        exact ⟨[], [], .inl ⟨rfl, rfl⟩, hpos, hname, Nat.zero_le _, by simp⟩
      · rw [if_neg hpos] at h
        cases h
    · rintro ⟨base, ext, ⟨rfl, rfl⟩ | hform, hpos, -, -, -, -, rfl⟩
      · rw [map_nil, append_nil]
        exact if_pos hpos
      · cases base <;> cases hform
  | cons c p ih =>
    intro name hname
    rw [exists_form_cons]
    simp only [forall_mem_cons, length_cons, map_cons]
    by_cases hdot : c = 0x2E
    · -- behind the dot; `B` is what has been read
      have hno : ¬ NameChar 0x2E := fun h => h.2.1 rfl
      rw [hdot, shortNameLoop, if_neg (by decide), if_pos rfl, if_neg (by decide),
        shortNameLoop_ext p (Nat.zero_le _)]
      simp [hno, hname]
      tauto
    by_cases hc : NameChar c
    · rw [shortNameLoop_char p hc, if_neg (by decide)]
      by_cases hfull : name.length ≥ 8
      · rw [if_pos hfull]
        grind
      · have hlen : (name ++ [upperChar c]).length = name.length + 1 := length_append
        rw [if_neg hfull, ih (by omega), hlen, or_iff_right fun h => hdot h.1]
        simp only [append_assoc, singleton_append, and_iff_right hc, Nat.add_right_comm _ 1,
          ← Nat.add_assoc]
    · rw [shortNameLoop_refuses p hc fun h => absurd h hdot]
      simp [hdot, hc]

theorem Spells.cons {p base ext : List UInt8} (h : Spells p base ext) :
    ∃ c b q, base = c :: b ∧ p = c :: q ∧ NameChar c := by
  have hpos := h.base_pos
  cases base with
  | nil =>
    rw [length_nil] at hpos
    omega
  | cons c b =>
    have hc := h.base_chars c mem_cons_self
    rcases h.form with ⟨hp, -⟩ | hp
    · exact ⟨c, b, b, rfl, hp, hc⟩
    · exact ⟨c, b, b ++ 0x2E :: ext, rfl, hp, hc⟩

/-- **The scanner accepts the grammar and nothing else.** -/
theorem shortNameLoop_iff (p : List UInt8) : shortNameLoop p [] [] false = some r ↔
    ∃ base ext, Spells p base ext ∧ r = (base.map upperChar, ext.map upperChar) := by
  rw [shortNameLoop_base p (Nat.zero_le _)]
  simp only [length_nil, Nat.zero_add, nil_append]
  constructor
  · rintro ⟨base, ext, hform, hpos, hle, hext, hbase, hexts, rfl⟩
    exact ⟨base, ext, ⟨hform, hpos, hle, hext, hbase, hexts⟩, rfl⟩
  · rintro ⟨base, ext, h, rfl⟩
    exact ⟨base, ext, h.form, h.base_pos, h.base_le, h.ext_le, h.base_chars, h.ext_chars, rfl⟩

/-- **`make_short_name`**: the name it gives is the encoding of the two parts. -/
theorem makeShortName_iff (path out : List UInt8) : makeShortName path = some out ↔
    ∃ base ext, Spells (stripSlashes path) base ext ∧ out = encode base ext := by
  show (if stripSlashes path = [] then none else
    (shortNameLoop (stripSlashes path) [] [] false).map _) = some out ↔ _
  generalize stripSlashes path = p
  by_cases hnil : p = []
  · rw [if_pos hnil]
    refine ⟨nofun, ?_⟩
    rintro ⟨base, ext, h, -⟩
    obtain ⟨c, b, q, -, hp, -⟩ := h.cons
    rw [hnil] at hp
    cases hp
  · rw [if_neg hnil, Option.map_eq_some_iff]
    constructor
    · rintro ⟨r, hr, rfl⟩
      obtain ⟨base, ext, h, rfl⟩ := (shortNameLoop_iff p).mp hr
      exact ⟨base, ext, h, rfl⟩
    · rintro ⟨base, ext, h, rfl⟩
      exact ⟨_, (shortNameLoop_iff p).mpr ⟨base, ext, h, rfl⟩, rfl⟩

end Scanner

/-! ## §2. The two parts can be read back. -/

section Encoding

/-- A capital letter is no blank. -/
theorem upperChar_ne_blank {c : UInt8} (h : NameChar c) : upperChar c ≠ 0x20 := by
  have hbad := h.2.2
  have hgt : ¬c ≤ 0x20 := by
    intro hle
    rw [badChar, decide_eq_true hle] at hbad
    cases hbad
  unfold upperChar
  split
  · rename_i hlow
    intro heq
    -- a small letter minus 0x20 is a capital letter
    have h1 := UInt8.le_iff_toNat_le.mp hlow.1
    have h2 := congrArg UInt8.toNat heq
    rw [UInt8.toNat_sub_of_le _ _ (UInt8.le_iff_toNat_le.mpr (Nat.le_trans (by decide) h1))] at h2
    change 0x61 ≤ c.toNat at h1
    change c.toNat - 0x20 = 0x20 at h2
    omega
  · rintro rfl
    exact hgt (UInt8.le_refl _)

/-- Blanks behind a part that has none can be taken off again. -/
theorem padTo_injective {n : ℕ} {a b : List UInt8} (ha : ∀ c ∈ a, c ≠ 0x20) (hb : ∀ c ∈ b, c ≠ 0x20)
    (h : padTo n a = padTo n b) : a = b := by
  have hstrip : ∀ {l : List UInt8}, (∀ c ∈ l, c ≠ 0x20) → (padTo n l).takeWhile (· != 0x20) = l := by
    intro l hl
    unfold padTo
    rw [takeWhile_append_of_pos (fun c hc => bne_iff_ne.mpr (hl c hc))]
    cases n - l.length with
    | zero => rw [replicate_zero, takeWhile_nil, append_nil]
    | succ k => rw [replicate_succ, takeWhile_cons_of_neg (by decide), append_nil]
  rw [← hstrip ha, ← hstrip hb, h]

theorem length_padTo {n : ℕ} {l : List UInt8} (h : l.length ≤ n) : (padTo n l).length = n := by
  rw [padTo, length_append, length_replicate]
  omega

/-- A short name is 11 bytes long. -/
theorem makeShortName_length {path name : List UInt8} (h : makeShortName path = some name) :
    name.length = 11 := by
  obtain ⟨base, ext, hs, rfl⟩ := (makeShortName_iff path name).mp h
  rw [encode, length_append, length_padTo (by rw [length_map]; exact hs.base_le),
    length_padTo (by rw [length_map]; exact hs.ext_le)]

theorem map_upperChar_ne_blank {l : List UInt8} (h : ∀ c ∈ l, NameChar c) :
    ∀ c ∈ l.map upperChar, c ≠ 0x20 := by
  intro c hc
  obtain ⟨d, hd, rfl⟩ := mem_map.mp hc
  exact upperChar_ne_blank (h d hd)

/-- **Equal names have equal parts**, up to capitals. -/
theorem encode_injective {p p' base ext base' ext' : List UInt8} (h : Spells p base ext)
    (h' : Spells p' base' ext') : encode base ext = encode base' ext' ↔
      base.map upperChar = base'.map upperChar ∧ ext.map upperChar = ext'.map upperChar := by
  constructor
  · intro heq
    have hlen : (padTo 8 (base.map upperChar)).length = (padTo 8 (base'.map upperChar)).length := by
      rw [length_padTo (by rw [length_map]; exact h.base_le),
        length_padTo (by rw [length_map]; exact h'.base_le)]
    obtain ⟨hbase, hext⟩ := append_inj heq hlen
    exact ⟨padTo_injective (map_upperChar_ne_blank h.base_chars)
      (map_upperChar_ne_blank h'.base_chars) hbase,
      padTo_injective (map_upperChar_ne_blank h.ext_chars) (map_upperChar_ne_blank h'.ext_chars) hext⟩
  · rintro ⟨hbase, hext⟩
    rw [encode, encode, hbase, hext]

end Encoding

/-! ## §3. The stores. -/

/-- `out[i] = c`, inside the array. -/
def putOut (out : List UInt8) (i : ℕ) (c : UInt8) : Except Fault (List UInt8) :=
  if i < out.length then .ok (out.set i c) else .error .buffer

/-- The loop of `make_short_name` on the array itself: the answer, and the array. -/
def storeLoop : List UInt8 → ℕ → ℕ → Bool → List UInt8 → Except Fault (Bool × List UInt8)
  | [], nameLen, _, _, out => .ok (decide (nameLen > 0), out)
  | ch :: path, nameLen, extLen, inExt, out =>
    if ch = 0x2F then .ok (false, out)
    else if ch = 0x2E then
      if inExt then .ok (false, out) else storeLoop path nameLen extLen true out
    else if badChar ch then .ok (false, out)
    else if !inExt then
      if nameLen ≥ 8 then .ok (false, out)
      else do
        let out ← putOut out nameLen (upperChar ch)
        storeLoop path (nameLen + 1) extLen inExt out
    else
      if extLen ≥ 3 then .ok (false, out)
      else do
        let out ← putOut out (8 + extLen) (upperChar ch)
        storeLoop path nameLen (extLen + 1) inExt out

/-- `make_short_name(path, out)`: whether it answers `0`, and the array afterwards. -/
def makeShortNameInto (path out : List UInt8) : Except Fault (Bool × List UInt8) :=
  if stripSlashes path = [] then .ok (false, out)
  else storeLoop (stripSlashes path) 0 0 false (List.replicate 11 0x20)

section Stores

/-- A character behind the ones stored replaces the first blank. -/
theorem set_padTo {n : ℕ} {l : List UInt8} (h : l.length < n) (c : UInt8) :
    (padTo n l).set l.length c = padTo n (l ++ [c]) := by
  obtain ⟨k, hk⟩ : ∃ k, n - l.length = k + 1 := ⟨n - l.length - 1, by omega⟩
  unfold padTo
  rw [hk, set_append_right _ _ (Nat.le_refl _), Nat.sub_self, replicate_succ,
    set_cons_zero, length_append, length_singleton,
    show n - (l.length + 1) = k by omega, append_assoc, singleton_append]

/-- **The loop stores what the scanner collects**, inside the 11 bytes: the array is the two
parts, padded, after every turn. -/
theorem storeLoop_stores : ∀ (p name ext : List UInt8) (inExt : Bool), name.length ≤ 8 →
    ext.length ≤ 3 →
    ∃ out, storeLoop p name.length ext.length inExt (padTo 8 name ++ padTo 3 ext) =
        .ok ((shortNameLoop p name ext inExt).isSome, out) ∧ out.length = 11 ∧
      ∀ r, shortNameLoop p name ext inExt = some r → out = padTo 8 r.1 ++ padTo 3 r.2 := by
  intro p
  induction p with
  | nil =>
    intro name ext inExt hname hext
    refine ⟨padTo 8 name ++ padTo 3 ext, ?_, ?_, ?_⟩
    · rw [storeLoop, shortNameLoop]
      by_cases hpos : name.length > 0
      · rw [if_pos hpos, decide_eq_true hpos]
        rfl
      · rw [if_neg hpos, decide_eq_false hpos]
        rfl
    · rw [length_append, length_padTo hname, length_padTo hext]
    · intro r hr
      rw [shortNameLoop] at hr
      split at hr
      · cases hr
        rfl
      · cases hr
  | cons c p ih =>
    intro name ext inExt hname hext
    have hlen : (padTo 8 name ++ padTo 3 ext).length = 11 := by
      rw [length_append, length_padTo hname, length_padTo hext]
    -- a refusal leaves the array as it is
    have hstop : ∃ out, (.ok (false, padTo 8 name ++ padTo 3 ext) : Except Fault _) =
        .ok ((none : Option (List UInt8 × List UInt8)).isSome, out) ∧ out.length = 11 ∧
        ∀ r, (none : Option (List UInt8 × List UInt8)) = some r →
          out = padTo 8 r.1 ++ padTo 3 r.2 := ⟨_, rfl, hlen, nofun⟩
    rw [storeLoop, shortNameLoop]
    by_cases hslash : c = 0x2F
    · rw [if_pos hslash, if_pos hslash]
      exact hstop
    rw [if_neg hslash, if_neg hslash]
    by_cases hdot : c = 0x2E
    · rw [if_pos hdot, if_pos hdot]
      cases inExt with
      | true => exact hstop
      | false => exact ih name ext true hname hext
    rw [if_neg hdot, if_neg hdot]
    by_cases hbad : badChar c = true
    · rw [if_pos hbad, if_pos hbad]
      exact hstop
    rw [if_neg hbad, if_neg hbad]
    cases inExt with
    | false =>
      simp only [Bool.not_false, ↓reduceIte]
      by_cases hfull : name.length ≥ 8
      · rw [if_pos hfull, if_pos hfull]
        exact hstop
      have hput : putOut (padTo 8 name ++ padTo 3 ext) name.length (upperChar c) =
          .ok (padTo 8 (name ++ [upperChar c]) ++ padTo 3 ext) := by
        rw [putOut, if_pos (by omega), set_append_left _ _ (by rw [length_padTo hname]; omega),
          set_padTo (by omega)]
      rw [if_neg hfull, if_neg hfull, hput]
      have hrest := ih (name ++ [upperChar c]) ext false
        (by rw [length_append, length_singleton]; omega) hext
      rw [length_append, length_singleton] at hrest
      exact hrest
    | true =>
      simp only [Bool.not_true, Bool.false_eq_true, ↓reduceIte]
      by_cases hfull : ext.length ≥ 3
      · rw [if_pos hfull, if_pos hfull]
        exact hstop
      have hput : putOut (padTo 8 name ++ padTo 3 ext) (8 + ext.length) (upperChar c) =
          .ok (padTo 8 name ++ padTo 3 (ext ++ [upperChar c])) := by
        have hbase := length_padTo hname
        rw [putOut, if_pos (by omega), set_append_right _ _ (by omega), hbase,
          Nat.add_sub_cancel_left, set_padTo (by omega)]
      rw [if_neg hfull, if_neg hfull, hput]
      have hrest := ih name (ext ++ [upperChar c]) true hname
        (by rw [length_append, length_singleton]; omega)
      rw [length_append, length_singleton] at hrest
      exact hrest

/-- The array version answers like the other one, and its stores are inside the array. -/
theorem makeShortNameInto_stores (path : List UInt8) {out₀ : List UInt8} (h₀ : out₀.length = 11) :
    ∃ out, makeShortNameInto path out₀ = .ok ((makeShortName path).isSome, out) ∧
      out.length = 11 ∧ ∀ name, makeShortName path = some name → out = name := by
  have hname : makeShortName path = if stripSlashes path = [] then none else
      (shortNameLoop (stripSlashes path) [] [] false).map fun r =>
        padTo 8 r.1 ++ padTo 3 r.2 := rfl
  rw [hname]
  unfold makeShortNameInto
  by_cases hnil : stripSlashes path = []
  · rw [if_pos hnil, if_pos hnil]
    exact ⟨out₀, rfl, h₀, fun name hname => by cases hname⟩
  · obtain ⟨out, hret, hlen, hout⟩ := storeLoop_stores (stripSlashes path) [] [] false (Nat.zero_le _)
      (Nat.zero_le _)
    rw [if_neg hnil, if_neg hnil, Option.isSome_map]
    refine ⟨out, hret, hlen, fun name hname => ?_⟩
    obtain ⟨r, hr, rfl⟩ := Option.map_eq_some_iff.mp hname
    exact hout r hr

end Stores

/-- **SHORT NAMES.**  For every string and every array of 11 bytes, `make_short_name` returns and
stores inside the array only; it succeeds exactly when the string, without the slashes in front,
is `B` or `B.E`; the array is then the encoding of the two parts; and two strings it accepts get
equal names exactly when their parts are equal in capitals. -/
theorem short_names (path : List UInt8) {out₀ : List UInt8} (h₀ : out₀.length = 11) :
    ∃ ok out, makeShortNameInto path out₀ = .ok (ok, out) ∧ out.length = 11 ∧
      (ok = true ↔ ∃ base ext, Spells (stripSlashes path) base ext) ∧
      (∀ base ext, Spells (stripSlashes path) base ext → out = encode base ext) ∧
      ∀ path' base ext base' ext', Spells (stripSlashes path) base ext →
        Spells (stripSlashes path') base' ext' →
        (makeShortNameInto path' out₀ = .ok (true, out) ↔
          base.map upperChar = base'.map upperChar ∧ ext.map upperChar = ext'.map upperChar) := by
  obtain ⟨out, hret, hlen, hout⟩ := makeShortNameInto_stores path h₀
  have hencode : ∀ base ext, Spells (stripSlashes path) base ext → out = encode base ext :=
    fun base ext h => hout _ ((makeShortName_iff path _).mpr ⟨base, ext, h, rfl⟩)
  refine ⟨_, out, hret, hlen, ?_, hencode, ?_⟩
  · rw [Option.isSome_iff_exists]
    constructor
    · rintro ⟨name, hname⟩
      obtain ⟨base, ext, h, -⟩ := (makeShortName_iff path name).mp hname
      exact ⟨base, ext, h⟩
    · rintro ⟨base, ext, h⟩
      exact ⟨_, (makeShortName_iff path _).mpr ⟨base, ext, h, rfl⟩⟩
  · intro path' base ext base' ext' h h'
    obtain ⟨out', hret', -, hout'⟩ := makeShortNameInto_stores path' h₀
    have hname' := (makeShortName_iff path' _).mpr ⟨base', ext', h', rfl⟩
    rw [hret', hname', hout' _ hname', hencode base ext h, ← encode_injective h h']
    constructor
    · intro heq
      exact (congrArg Prod.snd (Except.ok.inj heq)).symm
    · intro heq
      rw [heq]
      rfl

/-- `a.TXT` and `/A.txt`. -/
theorem short_names_example :
    makeShortNameInto [0x2F, 0x41, 0x2E, 0x74, 0x78, 0x74] (List.replicate 11 0) =
        .ok (true, encode [0x61] [0x54, 0x58, 0x54]) := by
  obtain ⟨ok, out, -, -, -, hout, hpair⟩ :=
    short_names [0x61, 0x2E, 0x54, 0x58, 0x54] (show (List.replicate 11 0).length = 11 by decide)
  have hchars : ∀ {l : List UInt8}, (l.all fun c => c != 0x2F && (c != 0x2E && !badChar c)) = true →
      ∀ c ∈ l, NameChar c := by
    intro l h c hc
    have hall := all_eq_true.mp h c hc
    simp only [Bool.and_eq_true, bne_iff_ne, Bool.not_eq_true'] at hall
    exact hall
  have hsmall : Spells (stripSlashes [0x61, 0x2E, 0x54, 0x58, 0x54]) [0x61] [0x54, 0x58, 0x54] :=
    ⟨.inr rfl, by decide, by decide, by decide, hchars (by decide), hchars (by decide)⟩
  have hcapital : Spells (stripSlashes [0x2F, 0x41, 0x2E, 0x74, 0x78, 0x74]) [0x41] [0x74, 0x78, 0x74] :=
    ⟨.inr rfl, by decide, by decide, by decide, hchars (by decide), hchars (by decide)⟩
  rw [← hout _ _ hsmall]
  exact (hpair _ _ _ _ _ hsmall hcapital).mpr (by decide)

end ExoCore.Fat
