/-
  ExoCore.Fat.Directory — the root directory as a list of slots.

  The scan of `find_dir_entry` walks the clusters of the root chain; here it is a
  recursion over ONE list, the offsets of all slots (`dirSlots`), and what it
  finds is said in terms of that list:

    • `Finds d name l o` — the slot of the name is `o`: the scan skips what is in
      front of it;
    • `scanList_cases`   — the three answers of a scan;
    • `findDirEntry_eq`  — the code computes that scan.

  The 32 bytes of an entry are then read and written by `entryFirst`,
  `entrySize`, `putEntry` and `newEntry`.
-/
import ExoCore.Fat.Chains

namespace ExoCore.Fat

open ExoCore.Lib List

/-! ## §1. The slots. -/

/-- `n` slots from `off` on. -/
def slotsFrom (off : ℕ) : ℕ → List ℕ
  | 0 => []
  | n + 1 => off :: slotsFrom (off + 32) n

/-- The slots of a directory with the clusters `root`. -/
def dirSlots (s : FsState) (root : List ℕ) : List ℕ :=
  root.flatMap fun c => slotsFrom (clusterOffset s c) (clusterSize s / 32)

/-- The driver passes over the entry: a part of a long name, or a directory. -/
def Hidden (d : Bytes) (o : ℕ) : Prop :=
  d (o + 11) &&& 0x0F = 0x0F ∨ d (o + 11) &&& attrDirectory ≠ 0

/-- The slot holds a file. -/
def IsFile (d : Bytes) (o : ℕ) : Prop := d o ≠ 0x00 ∧ d o ≠ 0xE5 ∧ ¬ Hidden d o

/-- The slot holds the file `name`. -/
def Matches (d : Bytes) (name : List UInt8) (o : ℕ) : Prop :=
  IsFile d o ∧ getBytes d o 11 = name

/-- The scan for `name` goes on behind the slot. -/
def Skips (d : Bytes) (name : List UInt8) (o : ℕ) : Prop := d o ≠ 0x00 ∧ ¬ Matches d name o

/-- The slot can be given to a new file. -/
def Vacant (d : Bytes) (o : ℕ) : Prop := d o = 0x00 ∨ d o = 0xE5

theorem Vacant.not_isFile {d : Bytes} {o : ℕ} (hv : Vacant d o) : ¬ IsFile d o :=
  fun hf => hv.elim hf.1 hf.2.1

/-- **The slot of the name.** -/
def Finds (d : Bytes) (name : List UInt8) (l : List ℕ) (o : ℕ) : Prop :=
  ∃ pre post, l = pre ++ o :: post ∧ (∀ q ∈ pre, Skips d name q) ∧ Matches d name o

section Slots

variable {s s' : FsState} {root : List ℕ} {o q off n : ℕ}

theorem mem_slotsFrom : ∀ {n off : ℕ}, o ∈ slotsFrom off n → ∃ k, k < n ∧ o = off + 32 * k
  | 0, _, h => by cases h
  | n + 1, off, h => by
    rcases mem_cons.mp h with rfl | h
    · exact ⟨0, by omega, by omega⟩
    · obtain ⟨k, hk, rfl⟩ := mem_slotsFrom h
      exact ⟨k + 1, by omega, by omega⟩

theorem nodup_slotsFrom : ∀ (n off : ℕ), (slotsFrom off n).Nodup
  | 0, _ => nodup_nil
  | n + 1, off => by
    refine nodup_cons.mpr ⟨fun hmem => ?_, nodup_slotsFrom n (off + 32)⟩
    obtain ⟨k, _, hk⟩ := mem_slotsFrom hmem
    omega

/-- A slot lies in one cluster of the directory. -/
theorem slot_cluster (ho : o ∈ dirSlots s root) : ∃ c ∈ root, ∃ k,
    o = clusterOffset s c + 32 * k ∧ 32 * k + 32 ≤ clusterSize s := by
  obtain ⟨c, hc, ho⟩ := mem_flatMap.mp ho
  obtain ⟨k, hk, rfl⟩ := mem_slotsFrom ho
  refine ⟨c, hc, k, rfl, ?_⟩
  have := Nat.div_mul_le_self (clusterSize s) 32
  omega

section

variable (h : Layout s) (hr : Held s root)
include h hr

section

variable (ho : o ∈ dirSlots s root)
include ho

theorem slot_has : Has s o 32 := by
  obtain ⟨c, hc, k, rfl, hk⟩ := slot_cluster ho
  have := h.cluster_inside (hr.valid c hc)
  exact ⟨h.present, by omega⟩

theorem dataStart_le_slot : dataStart s ≤ o := by
  obtain ⟨c, hc, k, rfl, _⟩ := slot_cluster ho
  have := h.dataStart_le (hr.valid c hc)
  omega

theorem slot_pos : 0 < o := by
  have h1 := dataStart_le_slot h hr ho
  have h2 : 0 < s.fat.firstDataSector := by
    have := h.before
    have := h.reserved
    omega
  have h3 : 0 < dataStart s := Nat.mul_pos h2 (by have := h.sector.1; omega)
  omega

/-- **Different slots do not meet.** -/
theorem slot_apart (hq : q ∈ dirSlots s root) (hne : o ≠ q) : Apart o 32 q 32 := by
  obtain ⟨c, hc, k, rfl, hk⟩ := slot_cluster ho
  obtain ⟨e, he, j, rfl, hj⟩ := slot_cluster hq
  unfold Apart
  by_cases hce : c = e
  · subst hce
    omega
  · have := h.cluster_apart (hr.valid c hc) (hr.valid e he) hce
    unfold Apart at this
    omega

end

theorem nodup_dirSlots : (dirSlots s root).Nodup := by
  refine nodup_flatMap.mpr ⟨fun c _ => nodup_slotsFrom _ _, ?_⟩
  refine hr.nodup.imp_of_mem fun {c e} hc he hce => ?_
  intro o hoc hoe
  obtain ⟨k, hk, hk'⟩ := mem_slotsFrom hoc
  obtain ⟨j, hj, hj'⟩ := mem_slotsFrom hoe
  have happ := h.cluster_apart (hr.valid c hc) (hr.valid e he) hce
  have := Nat.div_mul_le_self (clusterSize s) 32
  unfold Apart at happ
  omega

end

theorem OnlyData.dirSlots (hd : OnlyData s s') : dirSlots s' root = dirSlots s root := by
  obtain ⟨d, rfl⟩ := hd
  rfl

/-- The slots are bytes of the directory's clusters. -/
theorem slot_same (hd : OnlyData s s')
    (hsame : ∀ c ∈ root, ∀ k, k < clusterSize s → cbyte s' c k = cbyte s c k)
    (ho : o ∈ Fat.dirSlots s root) : ∀ k, k < 32 → s'.data (o + k) = s.data (o + k) := by
  intro k hk
  obtain ⟨c, hc, j, rfl, hj⟩ := slot_cluster ho
  have := hsame c hc (32 * j + k) (by omega)
  unfold cbyte at this
  rw [hd.clusterOffset, ← Nat.add_assoc] at this
  exact this

end Slots

/-! ## §2. The scan. -/

/-- `find_dir_entry` over a list of slots. -/
def scanList (d : Bytes) (name : List UInt8) : List ℕ → ℕ → Scan
  | [], freeOff => .past freeOff
  | o :: l, freeOff =>
    if d o = 0x00 then .stop (noteFree freeOff o)
    else if d o = 0xE5 then scanList d name l (noteFree freeOff o)
    else if d (o + 11) &&& 0x0F = 0x0F then scanList d name l freeOff
    else if d (o + 11) &&& attrDirectory ≠ 0 then scanList d name l freeOff
    else if getBytes d o 11 = name then .found (o % 2 ^ 32) freeOff
    else scanList d name l freeOff

/-- What `find_dir_entry` returns. -/
def Scan.answer : Scan → Option ℕ × ℕ
  | .stop freeOff => (none, freeOff)
  | .found off freeOff => (some off, freeOff)
  | .past freeOff => (none, freeOff)

section Scan

variable {s : FsState} {d : Bytes} {name : List UInt8} {root : List ℕ}

/-- The scan of one cluster. -/
theorem scanSlots_eq : ∀ (n off freeOff : ℕ), Has s off (32 * n) →
    scanSlots s name n off freeOff = .ok (scanList s.data name (slotsFrom off n) freeOff) := by
  intro n
  induction n with
  | zero =>
    intro off freeOff _
    rfl
  | succ n ih =>
    intro off freeOff hhas
    have hb : Has s off 1 := hhas.sub (by omega)
    have ha : Has s (off + 11) 1 := hhas.sub (by omega)
    have he : Has s off 11 := hhas.sub (by omega)
    have hrest : Has s (off + 32) (32 * n) := hhas.sub (by omega)
    unfold scanSlots slotsFrom scanList
    rw [rdByte, if_pos hb, rdByte, if_pos ha, copyOut, if_pos he]
    simp only [ih _ _ hrest, bind, Except.bind]
    split_ifs <;> rfl

theorem scanList_append (l l' : List ℕ) (freeOff : ℕ) : scanList d name (l ++ l') freeOff =
    match scanList d name l freeOff with
    | .past freeOff => scanList d name l' freeOff
    | r => r := by
  induction l generalizing freeOff with
  | nil => rfl
  | cons o l ih =>
    rw [cons_append, scanList, scanList]
    split_ifs <;> first | rfl | exact ih _

/-- One cluster of the directory. -/
theorem findLoop_scan {c : ℕ} (hc : validCluster s c = true)
    (hok : rangeOk s (clusterOffset s c) (clusterSize s) = true) (fuel freeOff : ℕ) :
    findLoop s name (fuel + 1) c freeOff =
      match scanList s.data name (slotsFrom (clusterOffset s c) (clusterSize s / 32)) freeOff with
      | .stop freeOff => .ok (none, freeOff)
      | .found off freeOff => .ok (some off, freeOff)
      | .past freeOff =>
        if isEoc (link s c) then .ok (none, freeOff)
        else findLoop s name fuel (link s c) freeOff := by
  have hslots : Has s (clusterOffset s c) (32 * (clusterSize s / 32)) := by
    have := Nat.div_mul_le_self (clusterSize s) 32
    exact (has_of_rangeOk hok).sub (by omega)
  rw [findLoop, if_pos hc, hok]
  show (scanSlots s name _ _ freeOff >>= _) = _
  rw [scanSlots_eq _ _ _ hslots, fatGet_link]
  cases scanList s.data name (slotsFrom (clusterOffset s c) (clusterSize s / 32)) freeOff <;> rfl

/-- **The loop of `find_dir_entry`** scans the slots of the chain. -/
theorem findLoop_eq (h : Layout s) : ∀ (l : List ℕ) (c fuel freeOff : ℕ), Held s (c :: l) →
    l.length < fuel → findLoop s name fuel c freeOff =
      .ok (scanList s.data name (dirSlots s (c :: l)) freeOff).answer := by
  intro l
  -- what a turn asks of a cluster of the chain
  have hturn : ∀ {c}, Valid s c → validCluster s c = true ∧
      rangeOk s (clusterOffset s c) (clusterSize s) = true ∧ link s c = next s c := fun hc =>
    ⟨h.validCluster.mpr hc, rangeOk_of_has ⟨h.present, h.cluster_inside hc⟩,
      link_eq (h.entry_has hc.2 h.copies)⟩
  induction l with
  | nil =>
    intro c fuel freeOff hl hfuel
    obtain ⟨fuel, rfl⟩ := Nat.exists_eq_succ_of_ne_zero (Nat.ne_of_gt hfuel)
    have heoc : isEoc (next s c) = true := (isEoc_iff _).mpr hl.chain
    have hone : dirSlots s [c] = slotsFrom (clusterOffset s c) (clusterSize s / 32) :=
      flatMap_singleton _ _
    obtain ⟨hvalid, hok, hlink⟩ := hturn (hl.valid c mem_cons_self)
    rw [findLoop_scan hvalid hok, hlink, heoc, hone]
    cases scanList s.data name (slotsFrom (clusterOffset s c) (clusterSize s / 32)) freeOff <;> rfl
  | cons e l ih =>
    intro c fuel freeOff hl hfuel
    obtain ⟨fuel, rfl⟩ := Nat.exists_eq_succ_of_ne_zero (show fuel ≠ 0 by omega)
    have hnext : next s c = e := hl.chain.1
    have hrest : Held s (e :: l) := ⟨hl.chain.tail, fun x hx => hl.valid x (mem_cons_of_mem c hx),
      (nodup_cons.mp hl.nodup).2⟩
    have heoc : isEoc e = false := by
      rw [Bool.eq_false_iff, Ne, isEoc_iff]
      exact h.not_eoc (hl.valid e (by simp))
    have hcons : dirSlots s (c :: e :: l) =
        slotsFrom (clusterOffset s c) (clusterSize s / 32) ++ dirSlots s (e :: l) :=
      flatMap_cons
    obtain ⟨hvalid, hok, hlink⟩ := hturn (hl.valid c mem_cons_self)
    rw [findLoop_scan hvalid hok, hlink, hnext, heoc, hcons, scanList_append]
    cases scanList s.data name (slotsFrom (clusterOffset s c) (clusterSize s / 32)) freeOff with
    | stop freeOff => rfl
    | found off freeOff => rfl
    | past freeOff => exact ih e fuel freeOff hrest (by rw [length_cons] at hfuel; omega)

/-- **`find_dir_entry`.** -/
theorem findDirEntry_eq (h : Layout s) (hr : Held s root)
    (hhead : root.head? = some s.fat.rootCluster) {fuel : ℕ} (hfuel : root.length ≤ fuel) :
    findDirEntry fuel s name = .ok (scanList s.data name (dirSlots s root) 0).answer := by
  obtain ⟨l, rfl⟩ : ∃ l, root = s.fat.rootCluster :: l := by
    cases root with
    | nil => cases hhead
    | cons c l =>
      cases hhead
      exact ⟨l, rfl⟩
  exact findLoop_eq h l _ fuel 0 hr hfuel

/-! ### The answers. -/

variable {l : List ℕ} {o : ℕ}

theorem Finds.cons {q : ℕ} (h : Finds d name l o) (hq : Skips d name q) :
    Finds d name (q :: l) o := by
  obtain ⟨pre, post, rfl, hpre, hm⟩ := h
  exact ⟨q :: pre, post, rfl, forall_mem_cons.mpr ⟨hq, hpre⟩, hm⟩

theorem Finds.mem (h : Finds d name l o) : o ∈ l := by
  obtain ⟨pre, post, rfl, _, _⟩ := h
  exact mem_append_right pre mem_cons_self

theorem Finds.isFile (h : Finds d name l o) : IsFile d o := by
  obtain ⟨_, _, _, _, hm⟩ := h
  exact hm.1

/-- A slot that is passed over. -/
theorem scanList_skip (hs : Skips d name o) (l : List ℕ) (freeOff : ℕ) :
    scanList d name (o :: l) freeOff =
      scanList d name l (if d o = 0xE5 then noteFree freeOff o else freeOff) := by
  obtain ⟨h0, hm⟩ := hs
  unfold Matches IsFile Hidden at hm
  rw [scanList, if_neg h0]
  split_ifs <;> first | rfl | tauto

theorem scanList_match (hm : Matches d name o) (l : List ℕ) (freeOff : ℕ) :
    scanList d name (o :: l) freeOff = .found (o % 2 ^ 32) freeOff := by
  obtain ⟨⟨h0, h5, hh⟩, hname⟩ := hm
  unfold Hidden at hh
  push Not at hh
  rw [scanList, if_neg h0, if_neg h5, if_neg hh.1, if_neg (not_not.mpr hh.2), if_pos hname]

/-- Once a vacant slot is noted, it stays. -/
theorem scanList_noted : ∀ (l : List ℕ) {freeOff : ℕ}, freeOff ≠ 0 → (∀ o ∈ l, o < 2 ^ 32) →
    (∃ o, (scanList d name l freeOff).answer.1 = some o ∧ Finds d name l o) ∨
      (scanList d name l freeOff).answer = (none, freeOff) := by
  intro l
  induction l with
  | nil =>
    intro freeOff _ _
    exact .inr rfl
  | cons o l ih =>
    intro freeOff hfree hl
    have hnote : noteFree freeOff o = freeOff := if_neg hfree
    by_cases h0 : d o = 0x00
    · rw [scanList, if_pos h0, hnote]
      exact .inr rfl
    by_cases hm : Matches d name o
    · rw [scanList_match hm, Nat.mod_eq_of_lt (hl o mem_cons_self)]
      exact .inl ⟨o, rfl, [], l, rfl, fun q hq => (by cases hq), hm⟩
    · rw [scanList_skip ⟨h0, hm⟩, hnote, ite_self]
      refine (ih hfree fun q hq => hl q (mem_cons_of_mem o hq)).imp ?_ id
      rintro ⟨q, hq, hfinds⟩
      exact ⟨q, hq, hfinds.cons ⟨h0, hm⟩⟩

/-- **The answers of a scan**: the slot of the name; nothing; or the first vacant slot. -/
theorem scanList_cases (d : Bytes) (name : List UInt8) : ∀ (l : List ℕ), (∀ o ∈ l, 0 < o ∧ o < 2 ^ 32) →
    (∃ o, (scanList d name l 0).answer.1 = some o ∧ Finds d name l o) ∨
      (scanList d name l 0).answer = (none, 0) ∨
      ∃ o, (scanList d name l 0).answer = (none, o) ∧ o ≠ 0 ∧ Vacant d o ∧
        ∃ pre post, l = pre ++ o :: post ∧ ∀ q ∈ pre, Skips d name q := by
  intro l
  induction l with
  | nil =>
    intro _
    exact .inr (.inl rfl)
  | cons o l ih =>
    intro hl
    obtain ⟨hpos, hlt⟩ := hl o mem_cons_self
    have hrest : ∀ q ∈ l, 0 < q ∧ q < 2 ^ 32 := fun q hq => hl q (mem_cons_of_mem o hq)
    have hnote : noteFree 0 o = o := Nat.mod_eq_of_lt hlt
    by_cases h0 : d o = 0x00
    · rw [scanList, if_pos h0, hnote]
      exact .inr (.inr ⟨o, rfl, by omega, .inl h0, [], l, rfl, fun q hq => (by cases hq)⟩)
    by_cases hm : Matches d name o
    · rw [scanList_match hm, Nat.mod_eq_of_lt hlt]
      exact .inl ⟨o, rfl, [], l, rfl, fun q hq => (by cases hq), hm⟩
    have hs : Skips d name o := ⟨h0, hm⟩
    rw [scanList_skip hs, hnote]
    by_cases h5 : d o = 0xE5
    · -- the first vacant slot
      rw [if_pos h5]
      obtain ⟨q, hq, hfinds⟩ | hnone := scanList_noted l (Nat.ne_of_gt hpos) fun q hq => (hrest q hq).2
      · exact .inl ⟨q, hq, hfinds.cons hs⟩
      · exact .inr (.inr ⟨o, hnone, by omega, .inr h5, [], l, rfl, fun q hq => (by cases hq)⟩)
    · rw [if_neg h5]
      obtain ⟨q, hq, hfinds⟩ | hnone | ⟨q, hq, hq0, hv, pre, post, hl', hpre⟩ := ih hrest
      · exact .inl ⟨q, hq, hfinds.cons hs⟩
      · exact .inr (.inl hnone)
      · refine .inr (.inr ⟨q, hq, hq0, hv, o :: pre, post, ?_, ?_⟩)
        · rw [hl']
          rfl
        · exact forall_mem_cons.mpr ⟨hs, hpre⟩

/-- The scan finds the slot of the name. -/
theorem scanList_of_finds (h : Finds d name l o) (hlt : o < 2 ^ 32)
    (freeOff : ℕ) : (scanList d name l freeOff).answer.1 = some o := by
  obtain ⟨pre, post, rfl, hpre, hm⟩ := h
  induction pre generalizing freeOff with
  | nil =>
    rw [nil_append, scanList_match hm, Nat.mod_eq_of_lt hlt]
    rfl
  | cons q pre ih =>
    rw [cons_append, scanList_skip (hpre q mem_cons_self)]
    exact ih _ fun x hx => hpre x (mem_cons_of_mem q hx)

/-! ### A directory without files behind its end. -/

/-- **Filling a slot** that no end is in front of: the zeros stay behind it. -/
theorem zeros_fill {d' : Bytes} {pre post : List ℕ} (hnodup : (pre ++ o :: post).Nodup)
    (htail : (pre ++ o :: post).Pairwise fun p q => d p = 0x00 → d q = 0x00)
    (hpre : ∀ q ∈ pre, d q ≠ 0x00) (ho : d' o ≠ 0x00)
    (hbyte : ∀ q ∈ pre ++ o :: post, q ≠ o → d' q = d q) :
    (pre ++ o :: post).Pairwise fun p q => d' p = 0x00 → d' q = 0x00 := by
  obtain ⟨hpw, hpw', -⟩ := pairwise_append.mp htail
  obtain ⟨-, hnd, hdisj⟩ := nodup_append.mp hnodup
  have hnot := (nodup_cons.mp hnd).1
  have hpre0 : ∀ q ∈ pre, d' q ≠ 0x00 := by
    intro q hq
    rw [hbyte q (mem_append_left _ hq) (hdisj q hq o mem_cons_self)]
    exact hpre q hq
  refine pairwise_append.mpr ⟨?_, pairwise_cons.mpr ⟨fun q _ h0 => absurd h0 ho, ?_⟩, ?_⟩
  · exact hpw.imp_of_mem fun {p q} hp _ _ hp0 => absurd hp0 (hpre0 p hp)
  · refine (pairwise_cons.mp hpw').2.imp_of_mem fun {p q} hp hq hpq => ?_
    rw [hbyte p (by simp [hp]) (ne_of_mem_of_not_mem hp hnot),
      hbyte q (by simp [hq]) (ne_of_mem_of_not_mem hq hnot)]
    exact hpq
  · exact fun p hp q _ hp0 => absurd hp0 (hpre0 p hp)

end Scan

/-! ## §3. The entries. -/

/-- `entry_first_cluster`. -/
def entryFirst (d : Bytes) (o : ℕ) : ℕ := rdLE d (o + 20) 2 * 2 ^ 16 + rdLE d (o + 26) 2

/-- The size field. -/
def entrySize (d : Bytes) (o : ℕ) : ℕ := rdLE d (o + 28) 4

/-- `entry_set_first_cluster`. -/
def putFirst (d : Bytes) (o c : ℕ) : Bytes :=
  wrLE (wrLE d (o + 20) 2 (c / 2 ^ 16 % 2 ^ 16)) (o + 26) 2 (c % 2 ^ 16)

/-- The entry at `o` now begins at `c` and has `n` bytes. -/
def putEntry (d : Bytes) (o c n : ℕ) : Bytes := wrLE (putFirst d o c) (o + 28) 4 n

/-- `putEntry` on the image. -/
def FsState.enter (s : FsState) (o c n : ℕ) : FsState := { s with data := putEntry s.data o c n }

/-- The entry of a new file. -/
def newEntry (d : Bytes) (o : ℕ) (name : List UInt8) : Bytes :=
  putFirst (wrLE (putBytes (putBytes (fillBytes d o 32 0) o name) (o + 11) [attrArchive])
    (o + 28) 4 0) o 0

section Entries

variable {s : FsState} {d d' : Bytes} {name : List UInt8} {o c n a : ℕ}

/-! ### The code. -/

section

variable (h : Has s o 32)
include h

theorem entryFirstCluster_eq : entryFirstCluster s o = .ok (entryFirst s.data o) := by
  have h1 : Has s (o + 20) 2 := h.sub (by omega)
  have h2 : Has s (o + 26) 2 := h.sub (by omega)
  unfold entryFirstCluster
  rw [rd16, if_pos h1, rd16, if_pos h2]
  rfl

theorem entrySize_eq : rd32 s (o + 28) = .ok (entrySize s.data o) :=
  if_pos (h.sub (by omega))

theorem entrySetFirstCluster_eq (c : ℕ) :
    entrySetFirstCluster s o c = .ok { s with data := putFirst s.data o c } := by
  have h1 : Has s (o + 20) 2 := h.sub (by omega)
  have h2 : Has { s with data := wrLE s.data (o + 20) 2 (c / 2 ^ 16 % 2 ^ 16) } (o + 26) 2 :=
    h.sub (show o ≤ o + 26 ∧ o + 26 + 2 ≤ o + 32 by omega)
  unfold entrySetFirstCluster
  rw [wr16, if_pos h1]
  exact if_pos h2

theorem putEntry_eq (c n : ℕ) :
    (entrySetFirstCluster s o c >>= fun s => wr32 s (o + 28) n) = .ok (s.enter o c n) := by
  have h1 : Has { s with data := putFirst s.data o c } (o + 28) 4 :=
    h.sub (show o ≤ o + 28 ∧ o + 28 + 4 ≤ o + 32 by omega)
  rw [entrySetFirstCluster_eq h]
  exact if_pos h1

theorem createEntry_eq (hname : name.length = 11) :
    createEntry s name o = .ok { s with data := newEntry s.data o name } := by
  have hsub : ∀ {d : Bytes} {m k : ℕ}, m + k ≤ 32 → Has { s with data := d } (o + m) k :=
    fun {d m k} hm => ⟨h.1, by have := h.2; show o + m + k ≤ s.size; omega⟩
  have hn : ∀ {d : Bytes}, Has { s with data := d } o name.length := by
    intro d
    rw [hname]
    exact hsub (m := 0) (by omega)
  unfold createEntry
  rw [memset, if_pos h]
  show (copyIn { s with data := _ } o name >>= _) = _
  rw [copyIn, if_pos hn]
  show (copyIn { s with data := _ } (o + 11) [attrArchive] >>= _) = _
  rw [copyIn, if_pos (hsub (k := [attrArchive].length) (by decide))]
  show (wr32 { s with data := _ } (o + 28) 0 >>= _) = _
  rw [wr32, if_pos (hsub (by omega))]
  have hall : ∀ d : Bytes, entrySetFirstCluster { s with data := d } o 0 =
      .ok { s with data := putFirst d o 0 } := fun d => entrySetFirstCluster_eq (hsub (m := 0) (by omega)) 0
  exact hall _

end

/-! ### Reading back. -/

theorem putFirst_apart (h : a < o + 20 ∨ o + 28 ≤ a) : putFirst d o c a = d a := by
  unfold putFirst
  rw [wrLE_apart (by omega), wrLE_apart (by omega)]

theorem putEntry_apart (h : a < o + 20 ∨ o + 32 ≤ a) : putEntry d o c n a = d a := by
  unfold putEntry
  rw [wrLE_apart (by omega), putFirst_apart (by omega)]

theorem entryFirst_congr (h : ∀ k, 20 ≤ k → k < 28 → d' (o + k) = d (o + k)) :
    entryFirst d' o = entryFirst d o := by
  have hbyte : ∀ i, o + 20 ≤ i → i < o + 28 → d' i = d i := by
    intro i h1 h2
    have := h (i - o) (by omega) (by omega)
    rwa [show o + (i - o) = i by omega] at this
  unfold entryFirst
  rw [rdLE_congr 2 (o + 20) fun i h1 h2 => hbyte i h1 (by omega),
    rdLE_congr 2 (o + 26) fun i h1 h2 => hbyte i (by omega) (by omega)]

theorem entrySize_congr (h : ∀ k, 28 ≤ k → k < 32 → d' (o + k) = d (o + k)) :
    entrySize d' o = entrySize d o := by
  refine rdLE_congr 4 (o + 28) fun i h1 h2 => ?_
  have := h (i - o) (by omega) (by omega)
  rwa [show o + (i - o) = i by omega] at this

theorem entryFirst_putFirst (hc : c < 2 ^ 32) : entryFirst (putFirst d o c) o = c := by
  have h1 : c / 2 ^ 16 % 2 ^ 16 < 256 ^ 2 := Nat.mod_lt _ (by norm_num)
  have h2 : c % 2 ^ 16 < 256 ^ 2 := Nat.mod_lt _ (by norm_num)
  unfold entryFirst putFirst
  rw [rdLE_wrLE_of_lt h2, rdLE_wrLE_apart (by unfold Apart; omega), rdLE_wrLE_of_lt h1]
  omega

theorem entryFirst_putEntry (hc : c < 2 ^ 32) : entryFirst (putEntry d o c n) o = c := by
  refine (entryFirst_congr fun k _ _ => ?_).trans (entryFirst_putFirst (d := d) hc)
  exact wrLE_apart (by omega)

theorem entrySize_putEntry (hn : n < 2 ^ 32) : entrySize (putEntry d o c n) o = n :=
  rdLE_wrLE_of_lt hn

theorem entrySize_lt (d : Bytes) (o : ℕ) : entrySize d o < 2 ^ 32 := rdLE_lt d 4 (o + 28)

section

variable (h : ∀ k, k < 12 → d' (o + k) = d (o + k))
include h

/-- What a name says depends on the first twelve bytes of the slot. -/
theorem isFile_congr : IsFile d' o ↔ IsFile d o := by
  have h0 := h 0 (by omega)
  rw [Nat.add_zero] at h0
  unfold IsFile Hidden
  rw [h0, h 11 (by omega)]

theorem matches_congr : Matches d' name o ↔ Matches d name o := by
  have hb : getBytes d' o 11 = getBytes d o 11 := by
    refine getBytes_congr fun i h1 h2 => ?_
    have := h (i - o) (by omega)
    rwa [show o + (i - o) = i by omega] at this
  unfold Matches
  rw [isFile_congr h, hb]

theorem skips_congr : Skips d' name o ↔ Skips d name o := by
  have h0 := h 0 (by omega)
  rw [Nat.add_zero] at h0
  unfold Skips
  rw [matches_congr h, h0]

end

theorem Finds.congr {l : List ℕ} (h : Finds d name l o)
    (hsame : ∀ q ∈ l, ∀ k, k < 12 → d' (q + k) = d (q + k)) : Finds d' name l o := by
  obtain ⟨pre, post, rfl, hpre, hm⟩ := h
  refine ⟨pre, post, rfl, fun q hq => ?_, ?_⟩
  · exact (skips_congr (hsame q (mem_append_left _ hq))).mpr (hpre q hq)
  · exact (matches_congr (hsame o (by simp))).mpr hm

/-! ### The new entry. -/

theorem newEntry_apart (hname : name.length = 11) (h : a < o ∨ o + 32 ≤ a) :
    newEntry d o name a = d a := by
  unfold newEntry
  rw [putFirst_apart (by omega), wrLE_apart (by omega),
    putBytes_apart (by rw [length_singleton]; omega), putBytes_apart (by omega),
    fillBytes_apart h]

theorem newEntry_name (hname : name.length = 11) {k : ℕ} (hk : k < 11) :
    newEntry d o name (o + k) = name.getD k 0 := by
  unfold newEntry
  rw [putFirst_apart (by omega), wrLE_apart (by omega),
    putBytes_apart (by rw [length_singleton]; omega), putBytes, if_pos (by omega),
    Nat.add_sub_cancel_left]

theorem newEntry_attr : newEntry d o name (o + 11) = attrArchive := by
  unfold newEntry
  rw [putFirst_apart (by omega), wrLE_apart (by omega), putBytes,
    if_pos (by rw [length_singleton]; omega), Nat.sub_self]
  rfl

theorem entryFirst_newEntry : entryFirst (newEntry d o name) o = 0 :=
  entryFirst_putFirst (by norm_num)

theorem entrySize_newEntry : entrySize (newEntry d o name) o = 0 := by
  refine (entrySize_congr fun k _ _ => putFirst_apart (by omega)).trans ?_
  exact rdLE_wrLE_of_lt (by norm_num)

theorem getBytes_newEntry (hname : name.length = 11) : getBytes (newEntry d o name) o 11 = name := by
  unfold getBytes
  refine ext_getElem (by simp [hname]) fun i h1 h2 => ?_
  rw [getElem_map, getElem_range, newEntry_name hname (by omega),
    getD_eq_getElem _ _ h2]

/-- **The new entry holds the name.** -/
theorem newEntry_matches (hname : name.length = 11) (h0 : name.getD 0 0 ≠ 0x00)
    (h5 : name.getD 0 0 ≠ 0xE5) : Matches (newEntry d o name) name o := by
  have hfirst : newEntry d o name o = name.getD 0 0 := newEntry_name (k := 0) hname (by omega)
  refine ⟨⟨?_, ?_, ?_⟩, getBytes_newEntry hname⟩
  · rw [hfirst]
    exact h0
  · rw [hfirst]
    exact h5
  · unfold Hidden
    rw [newEntry_attr]
    decide

end Entries

end ExoCore.Fat
