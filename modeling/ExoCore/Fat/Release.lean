/-
  ExoCore.Fat.Release — `free_chain` on ANY table.

  The loop destroys the links it follows, and the image may be damaged: chains may be cyclic or
  meet, and the copies of the table may lie on top of each other.  All it writes are zeros.  So
  the entries of copy 0 that are not zero become fewer with every turn that goes on
  (`freeChain_returns`), and the walk over the table as it is being cleared is the walk over the
  table as it was, up to the first cluster it meets again (`freeChain_visits`).

  Main result: `free_chain_exact`.
-/
import ExoCore.Fat.Geometry
import Mathlib.Data.Finset.Card
import Mathlib.Data.Finset.Range

namespace ExoCore.Fat

open ExoCore.Lib Finset

/-! ## §1. Clearing bytes. -/

/-- The bytes `A` of the image were cleared, and nothing else changed. -/
structure Cleared (s s' : FsState) (A : Set ℕ) : Prop where
  data : OnlyData s s'
  zero : ∀ a ∈ A, s'.data a = 0
  same : ∀ a, a ∉ A → s'.data a = s.data a

section Cleared

variable {s t u : FsState} {A B : Set ℕ} {c : ℕ}

theorem Cleared.refl (s : FsState) : Cleared s s ∅ :=
  ⟨.refl s, fun _ ha => absurd ha (Set.notMem_empty _), fun _ _ => rfl⟩

theorem Cleared.trans (h : Cleared s t A) (h' : Cleared t u B) : Cleared s u (A ∪ B) := by
  refine ⟨h.data.trans h'.data, ?_, ?_⟩
  · intro a ha
    by_cases hb : a ∈ B
    · exact h'.zero a hb
    · rw [h'.same a hb]
      exact h.zero a (ha.resolve_right hb)
  · intro a ha
    rw [h'.same a fun hb => ha (.inr hb), h.same a fun hA => ha (.inl hA)]

theorem Cleared.byte (h : Cleared s t A) (a : ℕ) : t.data a = s.data a ∨ t.data a = 0 := by
  by_cases ha : a ∈ A
  · exact .inr (h.zero a ha)
  · exact .inl (h.same a ha)

/-- Four bytes, with the top four bits masked out. -/
theorem rdLE_mask (m : Bytes) (a : ℕ) : rdLE m a 4 &&& 0x0FFFFFFF =
    ((m a).toNat + 256 * ((m (a + 1)).toNat + 256 * ((m (a + 2)).toNat + 256 * (m (a + 3)).toNat))) %
      2 ^ 28 :=
  Nat.and_two_pow_sub_one_eq_mod _ 28

/-- A link that is zero stays zero. -/
theorem Cleared.next_zero (h : Cleared s t A) (h0 : next s c = 0) : next t c = 0 := by
  have hbyte : ∀ a, (t.data a).toNat = (s.data a).toNat ∨ (t.data a).toNat = 0 := by
    intro a
    rcases h.byte a with hb | hb
    · exact .inl (congrArg UInt8.toNat hb)
    · exact .inr (congrArg UInt8.toNat hb)
  unfold next at h0 ⊢
  rw [h.data.fatEntryOffset, rdLE_mask]
  rw [rdLE_mask] at h0
  generalize fatEntryOffset s c 0 = o at h0 ⊢
  have b0 := hbyte o
  have b1 := hbyte (o + 1)
  have b2 := hbyte (o + 2)
  have b3 := hbyte (o + 3)
  have l0 := (s.data o).toNat_lt
  have l1 := (s.data (o + 1)).toNat_lt
  have l2 := (s.data (o + 2)).toNat_lt
  have l3 := (s.data (o + 3)).toNat_lt
  omega

/-- A link whose four bytes are cleared. -/
theorem Cleared.next_cleared (h : Cleared s t A)
    (hA : ∀ a, fatEntryOffset s c 0 ≤ a → a < fatEntryOffset s c 0 + 4 → a ∈ A) : next t c = 0 := by
  unfold next
  rw [h.data.fatEntryOffset, rdLE_mask, h.zero _ (hA _ (by omega) (by omega)),
    h.zero _ (hA _ (by omega) (by omega)), h.zero _ (hA _ (by omega) (by omega)),
    h.zero _ (hA _ (by omega) (by omega))]
  rfl

/-- A link none of whose bytes is cleared. -/
theorem Cleared.next_same (h : Cleared s t A)
    (hA : ∀ a, fatEntryOffset s c 0 ≤ a → a < fatEntryOffset s c 0 + 4 → a ∉ A) :
    next t c = next s c := by
  unfold next
  rw [h.data.fatEntryOffset, rdLE_congr 4 _ fun a h1 h2 => h.same a (hA a h1 h2)]

end Cleared

/-! ## §2. `fat_set(c, 0)`. -/

/-- The bytes of the entry of `c` in the copies `i, …, i + n - 1`. -/
def entryRange (s : FsState) (c i n : ℕ) : Set ℕ :=
  { a | ∃ j, i ≤ j ∧ j < i + n ∧ fatEntryOffset s c j ≤ a ∧ a < fatEntryOffset s c j + 4 }

/-- The bytes of the entry of `c`, in every copy of the table. -/
def entryBytes (s : FsState) (c : ℕ) : Set ℕ := entryRange s c 0 s.fat.fatCount

section FatSet

variable {s t : FsState} {c : ℕ}

theorem OnlyData.entryRange (h : OnlyData s t) (c i n : ℕ) :
    entryRange t c i n = Fat.entryRange s c i n := by
  obtain ⟨d, rfl⟩ := h
  rfl

theorem OnlyData.rangeOk (h : OnlyData s t) (off n : ℕ) : rangeOk t off n = Fat.rangeOk s off n := by
  obtain ⟨d, rfl⟩ := h
  rfl

theorem wr32_zero {off : ℕ} (h : rangeOk s off 4 = true) :
    ∃ t, wr32 s off (0 &&& 0x0FFFFFFF) = .ok t ∧ Cleared s t { a | off ≤ a ∧ a < off + 4 } := by
  refine ⟨_, if_pos (has_of_rangeOk h), ⟨_, rfl⟩, ?_, ?_⟩
  · intro a ha
    show wrLE s.data off 4 (0 &&& 0x0FFFFFFF) a = 0
    rw [wrLE, if_pos (show off ≤ a ∧ a < off + 4 from ha), Nat.zero_and, Nat.zero_div]
    rfl
  · intro a ha
    show wrLE s.data off 4 (0 &&& 0x0FFFFFFF) a = s.data a
    rw [wrLE, if_neg (show ¬(off ≤ a ∧ a < off + 4) from ha)]

/-- **The loop clears entries**: the first one when it is in the image, all of them when all
are. -/
theorem fatSetLoop_clears (c : ℕ) : ∀ (n i : ℕ) (s : FsState),
    ∃ r t A, fatSetLoop s c 0 i n = .ok (r, t) ∧ Cleared s t A ∧
      (0 < n → rangeOk s (fatEntryOffset s c i) 4 = true →
        ∀ a, fatEntryOffset s c i ≤ a → a < fatEntryOffset s c i + 4 → a ∈ A) ∧
      ((∀ j, i ≤ j → j < i + n → rangeOk s (fatEntryOffset s c j) 4 = true) →
        A = entryRange s c i n) := by
  intro n
  induction n with
  | zero =>
    intro i s
    refine ⟨true, s, ∅, rfl, .refl s, fun h => absurd h (Nat.lt_irrefl 0), fun _ => ?_⟩
    refine (Set.eq_empty_of_forall_notMem ?_).symm
    rintro a ⟨j, h1, h2, -⟩
    omega
  | succ n ih =>
    intro i s
    by_cases hok : rangeOk s (fatEntryOffset s c i) 4 = true
    · obtain ⟨t, hwr, hcl⟩ := wr32_zero hok
      obtain ⟨r, u, A, hret, hcl', -, hall⟩ := ih (i + 1) t
      refine ⟨r, u, { a | fatEntryOffset s c i ≤ a ∧ a < fatEntryOffset s c i + 4 } ∪ A, ?_,
        hcl.trans hcl', fun _ _ a h1 h2 => .inl ⟨h1, h2⟩, ?_⟩
      · rw [fatSetLoop, hok, hwr]
        exact hret
      · intro hrange
        have hA := hall fun j h1 h2 => by
          rw [hcl.data.fatEntryOffset, hcl.data.rangeOk]
          exact hrange j (by omega) (by omega)
        rw [hA, hcl.data.entryRange]
        -- the copies from `i` on are copy `i` and the ones behind it
        ext a
        constructor
        · rintro (⟨h1, h2⟩ | ⟨j, h1, h2, h3⟩)
          · exact ⟨i, le_refl i, by omega, h1, h2⟩
          · exact ⟨j, by omega, by omega, h3⟩
        · rintro ⟨j, h1, h2, h3⟩
          by_cases hj : j = i
          · rw [hj] at h3
            exact .inl h3
          · exact .inr ⟨j, by omega, by omega, h3⟩
    · refine ⟨false, s, ∅, ?_, .refl s, fun _ h => absurd h hok, fun hrange => ?_⟩
      · rw [fatSetLoop, Bool.eq_false_iff.mpr hok]
        rfl
      · exact absurd (hrange i (le_refl i) (by omega)) hok

end FatSet

/-! ## §3. The loop ends. -/

/-- The number of clusters that copy 0 has a link for. -/
def live (s : FsState) : ℕ := ((Finset.range (clusterEnd s)).filter fun c => next s c ≠ 0).card

section Ends

variable {s t : FsState} {A : Set ℕ} {c : ℕ}

theorem OnlyData.clusterEnd (h : OnlyData s t) : clusterEnd t = Fat.clusterEnd s := by
  obtain ⟨d, rfl⟩ := h
  rfl

/-- Clearing a link leaves fewer of them. -/
theorem Cleared.live_lt (h : Cleared s t A) (hc : validCluster s c = true) (hs : next s c ≠ 0)
    (ht : next t c = 0) : live t < live s := by
  have hlt : c < clusterEnd s := by
    unfold validCluster at hc
    rw [Bool.and_eq_true, decide_eq_true_eq, decide_eq_true_eq] at hc
    exact hc.2
  unfold live
  rw [h.data.clusterEnd]
  refine card_lt_card (ssubset_iff_of_subset ?_ |>.mpr ⟨c, ?_, ?_⟩)
  · intro d hd
    obtain ⟨hd, hne⟩ := mem_filter.mp hd
    exact mem_filter.mpr ⟨hd, fun h0 => hne (h.next_zero h0)⟩
  · exact mem_filter.mpr ⟨mem_range.mpr hlt, hs⟩
  · exact fun hmem => (mem_filter.mp hmem).2 ht

/-- One turn. -/
theorem freeChain_turn {r : Bool} (hc : validCluster s c = true) (hset : fatSet s c 0 = .ok (r, t))
    (fuel : ℕ) : freeChain (fuel + 1) s c =
      if isEoc (link s c) then .ok t else freeChain fuel t (link s c) := by
  rw [freeChain, if_pos hc, fatGet_link]
  show (fatSet s c 0 >>= _) = _
  rw [hset]
  rfl

/-- **`free_chain` returns**, whatever the table holds. -/
theorem freeChain_returns (hcount : 0 < s.fat.fatCount) (c : ℕ) :
    ∃ t, Returns (fun fuel => freeChain fuel s c) t := by
  induction hn : live s using Nat.strong_induction_on generalizing s c with
  | _ n ih =>
    by_cases hc : validCluster s c = true
    · obtain ⟨r, t, A, hset, hcl, hfirst, -⟩ := fatSetLoop_clears c s.fat.fatCount 0 s
      have hturn := freeChain_turn hc hset
      by_cases heoc : isEoc (link s c) = true
      · refine ⟨t, .stop fun fuel => ?_⟩
        rw [hturn, if_pos heoc]
      -- an entry outside the image reads as an end mark, so this one is inside
      have hok : rangeOk s (fatEntryOffset s c 0) 4 = true := by
        by_contra hno
        rw [link, if_neg hno] at heoc
        exact heoc rfl
      have hlink : link s c = next s c := if_pos hok
      rw [hlink] at heoc hturn
      have hrest : ∃ u, Returns (fun fuel => freeChain fuel t (next s c)) u := by
        by_cases h0 : next s c = 0
        · refine ⟨t, .stop fun fuel => ?_⟩
          rw [freeChain, h0]
          rfl
        · have hlt := hcl.live_lt hc h0 (hcl.next_cleared (hfirst hcount hok))
          refine ih (live t) (hn ▸ hlt) ?_ (next s c) rfl
          rw [hcl.data.fat]
          exact hcount
      obtain ⟨u, hu⟩ := hrest
      refine ⟨u, hu.turn fun fuel => ?_⟩
      rw [hturn, if_neg heoc]
    · refine ⟨s, .stop fun fuel => ?_⟩
      rw [freeChain, if_neg hc]

end Ends

/-! ## §4. What it clears. -/

/-- **The clusters on the links from `first`**, up to an end mark, a zero or a link that leaves the
volume; a cluster that is met again adds nothing. -/
inductive Visited (s : FsState) (first : ℕ) : ℕ → Prop
  | start (h : Valid s first) : Visited s first first
  | follow {c : ℕ} (hc : Visited s first c) (hgo : ¬ Eoc (next s c)) (hv : Valid s (next s c)) :
      Visited s first (next s c)

/-- The entries of the clusters `V`, in every copy. -/
def chainBytes (s : FsState) (V : Set ℕ) : Set ℕ := { a | ∃ c ∈ V, a ∈ entryBytes s c }

/-- **The tables**: entries of different copies do not overlap, and every copy has the entries of
all clusters ahead of the data area. -/
structure Tabled (s : FsState) : Prop where
  copies : ∀ i j c d, i < s.fat.fatCount → j < s.fat.fatCount → i ≠ j →
    c < s.fat.totalClusters + 2 → d < s.fat.totalClusters + 2 →
    Apart (fatEntryOffset s c i) 4 (fatEntryOffset s d j) 4
  ahead : ∀ i c, i < s.fat.fatCount → c < s.fat.totalClusters + 2 →
    fatEntryOffset s c i + 4 ≤ dataStart s

/-- What the proof needs besides: the data area begins in the image, and the cluster numbers are
32-bit numbers. -/
structure Sound (s : FsState) : Prop where
  tabled : Tabled s
  count : 0 < s.fat.fatCount
  present : s.present = true
  start : dataStart s ≤ s.size
  numbers : s.fat.totalClusters + 2 < 2 ^ 32

section Visits

variable {s t t' : FsState} {V : Set ℕ} {c d first : ℕ}

theorem Visited.valid (h : Visited s first c) : Valid s c := by
  cases h with
  | start h => exact h
  | follow _ _ hv => exact hv

/-- The clusters visited are the least set with `first` that the links do not leave. -/
theorem Visited.mem (h : Visited s first c) (hfirst : Valid s first → first ∈ V)
    (hclosed : ∀ c ∈ V, ¬ Eoc (next s c) → Valid s (next s c) → next s c ∈ V) : c ∈ V := by
  induction h with
  | start h => exact hfirst h
  | follow _ hgo hv ih => exact hclosed _ ih hgo hv

theorem OnlyData.sound (hd : OnlyData s t) (h : Sound s) : Sound t := by
  obtain ⟨d, rfl⟩ := hd
  exact ⟨⟨h.tabled.copies, h.tabled.ahead⟩, h.count, h.present, h.start, h.numbers⟩

theorem Sound.entry (h : Sound s) {i : ℕ} (hi : i < s.fat.fatCount) (hc : Valid s c) :
    rangeOk s (fatEntryOffset s c i) 4 = true :=
  rangeOk_of_has ⟨h.present, (h.tabled.ahead i c hi hc.2).trans h.start⟩

theorem Sound.validCluster (h : Sound s) : validCluster s c = true ↔ Valid s c := by
  unfold Fat.validCluster Valid clusterEnd
  rw [Nat.mod_eq_of_lt h.numbers, Bool.and_eq_true, decide_eq_true_eq, decide_eq_true_eq]

theorem Sound.link (h : Sound s) (hc : Valid s c) : link s c = next s c := if_pos (h.entry h.count hc)

/-- `fat_set(c, 0)` clears the entry in every copy. -/
theorem Sound.fatSet (h : Sound s) (hc : Valid s c) :
    ∃ r t, fatSet s c 0 = .ok (r, t) ∧ Cleared s t (entryBytes s c) := by
  obtain ⟨r, t, A, hset, hcl, -, hall⟩ := fatSetLoop_clears c s.fat.fatCount 0 s
  rw [hall fun j _ hj => h.entry (by omega) hc] at hcl
  exact ⟨r, t, hset, hcl⟩

/-- The link of a cluster is not among the entries of other clusters. -/
theorem Sound.link_apart (h : Sound s) (hc : Valid s c) (hV : ∀ d ∈ V, Valid s d) (hcV : c ∉ V) {a : ℕ}
    (h1 : fatEntryOffset s c 0 ≤ a) (h2 : a < fatEntryOffset s c 0 + 4) : a ∉ chainBytes s V := by
  rintro ⟨d, hd, j, -, hj, h3, h4⟩
  by_cases hj0 : j = 0
  · have hne : c ≠ d := fun hcd => hcV (hcd ▸ hd)
    rw [hj0, fatEntryOffset_eq] at h3 h4
    rw [fatEntryOffset_eq] at h1 h2
    omega
  · have happ := h.tabled.copies 0 j c d h.count (by omega) (Ne.symm hj0) hc.2 (hV d hd).2
    unfold Apart at happ
    omega

theorem chainBytes_insert (s : FsState) (c : ℕ) (V : Set ℕ) :
    chainBytes s V ∪ entryBytes s c = chainBytes s (insert c V) := by
  ext a
  constructor
  · rintro (⟨d, hd, ha⟩ | ha)
    · exact ⟨d, .inr hd, ha⟩
    · exact ⟨c, .inl rfl, ha⟩
  · rintro ⟨d, rfl | hd, ha⟩
    · exact .inr ha
    · exact .inl ⟨d, hd, ha⟩

/-- **The walk over the cleared table.**  `V` are the clusters done so far, whose entries are
cleared: they have been visited, and so has every link out of them, but for the one to `cur`. -/
structure Walking (s t : FsState) (first cur : ℕ) (V : Set ℕ) : Prop where
  cleared : Cleared s t (chainBytes s V)
  visited : ∀ c ∈ V, Visited s first c
  start : Valid s first → first ∈ V ∨ first = cur
  closed : ∀ c ∈ V, ¬ Eoc (next s c) → Valid s (next s c) → next s c ∈ V ∨ next s c = cur
  current : Valid s cur → Visited s first cur

/-- What `fat_get` reads on the way: the link as it was, or the zero of a cluster that is done. -/
theorem Walking.link (h : Walking s t first c V) (hs : Sound s) (hc : Valid s c) :
    (c ∉ V ∧ link t c = next s c) ∨ (c ∈ V ∧ link t c = 0) := by
  have ht : Fat.link t c = next t c := (h.cleared.data.sound hs).link (h.cleared.data.valid.mpr hc)
  by_cases hcV : c ∈ V
  · refine .inr ⟨hcV, ht.trans (h.cleared.next_cleared fun a h1 h2 => ?_)⟩
    have hcount := hs.count
    exact ⟨c, hcV, 0, le_refl 0, by omega, h1, h2⟩
  · refine .inl ⟨hcV, ht.trans (h.cleared.next_same fun a h1 h2 => ?_)⟩
    exact hs.link_apart hc (fun d hd => (h.visited d hd).valid) hcV h1 h2

/-- **One more cluster**: the walk goes on where its link leads, if it leads anywhere. -/
theorem Walking.step (h : Walking s t first c V) (hc : Valid s c)
    (hset : Cleared t t' (entryBytes t c)) (hto : c ∉ V → ¬ Eoc (next s c) → next s c = d)
    (hd : Valid s d → Visited s first d) : Walking s t' first d (insert c V) := by
  have hbytes : entryBytes t c = entryBytes s c := by
    unfold entryBytes
    rw [h.cleared.data.entryRange, h.cleared.data.fat]
  have hold : ∀ e ∈ V, ¬ Eoc (next s e) → Valid s (next s e) → next s e ∈ insert c V := by
    intro e he hne hv
    rcases h.closed e he hne hv with hmem | heq
    · exact .inr hmem
    · exact .inl heq
  refine ⟨?_, ?_, ?_, ?_, hd⟩
  · rw [← chainBytes_insert, ← hbytes]
    exact h.cleared.trans hset
  · rintro e (rfl | he)
    · exact h.current hc
    · exact h.visited e he
  · intro hv
    rcases h.start hv with hin | rfl
    · exact .inl (.inr hin)
    · exact .inl (.inl rfl)
  · rintro e (rfl | he) hne hv
    · by_cases hin : e ∈ V
      · exact .inl (hold e hin hne hv)
      · exact .inr (hto hin hne)
    · exact .inl (hold e he hne hv)

/-- A walk with nothing left to visit has cleared the chain. -/
theorem Walking.done (h : Walking s t first c V) (hc : Valid s c → c ∈ V) :
    Cleared s t (chainBytes s { d | Visited s first d }) := by
  have heq : V = { d | Visited s first d } := by
    ext d
    refine ⟨h.visited d, fun hd => Visited.mem hd (fun hv => ?_) fun e he hne hv => ?_⟩
    · rcases h.start hv with hin | rfl
      · exact hin
      · exact hc hv
    · rcases h.closed e he hne hv with hin | rfl
      · exact hin
      · exact hc hv
  rw [← heq]
  exact h.cleared

/-- **`free_chain` clears the entries of the clusters it visits.** -/
theorem freeChain_visits (hs : Sound s) : ∀ (fuel : ℕ) {t : FsState} {c : ℕ} {V : Set ℕ},
    Walking s t first c V → freeChain fuel t c = .ok t' →
    Cleared s t' (chainBytes s { d | Visited s first d }) := by
  intro fuel
  induction fuel with
  | zero =>
    intro t c V _ hret
    cases hret
  | succ fuel ih =>
    intro t c V h hret
    have ht := h.cleared.data.sound hs
    by_cases hc : Valid s c
    · have hct : Valid t c := h.cleared.data.valid.mpr hc
      obtain ⟨r, u, hset, hcl⟩ := ht.fatSet hct
      rw [freeChain_turn (ht.validCluster.mpr hct) hset] at hret
      have hlink := h.link hs hc
      by_cases heoc : isEoc (link t c) = true
      · -- only the link of a cluster that was not met before can be an end mark
        rw [if_pos heoc] at hret
        cases hret
        have hend : c ∉ V → Eoc (next s c) := by
          intro hnew
          rcases hlink with ⟨-, hl⟩ | ⟨hin, -⟩
          · rw [← hl]
            exact (isEoc_iff _).mp heoc
          · exact absurd hin hnew
        exact (h.step hc hcl (fun hnew hne => absurd (hend hnew) hne) h.current).done
          fun _ => .inl rfl
      · rw [if_neg heoc] at hret
        have hgo : ¬ Eoc (link t c) := fun he => heoc ((isEoc_iff _).mpr he)
        refine ih (h.step hc hcl (fun hnew _ => ?_) fun hv => ?_) hret
        · rcases hlink with ⟨-, hl⟩ | ⟨hin, -⟩
          · exact hl.symm
          · exact absurd hin hnew
        · rcases hlink with ⟨-, hl⟩ | ⟨-, hl⟩
          · rw [hl] at hv hgo ⊢
            exact .follow (h.current hc) hgo hv
          · rw [hl] at hv
            exact absurd hv.1 (by decide)
    · rw [freeChain, if_neg fun hv => hc (h.cleared.data.valid.mp (ht.validCluster.mp hv))] at hret
      cases hret
      exact h.done fun hv => absurd hv hc

end Visits

/-- An accepted image whose tables are in order. -/
theorem fsMount_sound {data : Bytes} {present : Bool} {size : ℕ} {m : FsState}
    (hmount : fsMount data present size = .ok m) (hmode : m.mode = .fat32) (h : Tabled m) : Sound m := by
  obtain ⟨hpresent, hsize, -, b, hb, hparse⟩ := fsMount_fat32 hmount hmode
  obtain ⟨-, htotal⟩ := readBootSector_lt hb
  obtain ⟨hbps, -, h512, hspc, hres, hcount, hend, hin⟩ := BootSector.parse_facts hparse
  have hclusters : m.fat.totalClusters ≤ m.fat.totalClusters * m.fat.sectorsPerCluster :=
    Nat.le_mul_of_pos_right _ hspc
  refine ⟨h, hcount, hpresent, ?_, ?_⟩
  · unfold dataStart
    rw [hbps, hsize]
    exact (Nat.mul_le_mul_right _ (by omega)).trans hin
  · -- the reserved sectors and a table lie ahead of the data, so its first sector is not 0 or 1
    have hahead := h.ahead 0 0 hcount (by omega)
    rw [fatEntryOffset_eq] at hahead
    have hstart : m.fat.bytesPerSector ≤ tableStart m 0 := by
      unfold tableStart
      exact Nat.le_mul_of_pos_left _ (by omega)
    have hfirst : 2 ≤ m.fat.firstDataSector := by
      by_contra hlt
      have hle : dataStart m ≤ 1 * m.fat.bytesPerSector := Nat.mul_le_mul_right _ (by omega)
      omega
    omega

/-- **FREE_CHAIN.**  On every accepted image, whatever it has come to hold, and from every first
cluster, `free_chain` returns; and if the copies of the table do not overlap and have the entries
of all clusters ahead of the data, it clears the entries of the clusters on the links from
`first`, in every copy, and no other byte. -/
theorem free_chain_exact {data : Bytes} {present : Bool} {size : ℕ} {m : FsState}
    (hmount : fsMount data present size = .ok m) (hmode : m.mode = .fat32) (d : Bytes) (first : ℕ) :
    ∃ d', Returns (fun fuel => freeChain fuel { m with data := d } first) { m with data := d' } ∧
      (Tabled m → ∀ a,
        ((∃ c i, Visited { m with data := d } first c ∧ i < m.fat.fatCount ∧
          fatEntryOffset m c i ≤ a ∧ a < fatEntryOffset m c i + 4) → d' a = 0) ∧
        ((¬∃ c i, Visited { m with data := d } first c ∧ i < m.fat.fatCount ∧
          fatEntryOffset m c i ≤ a ∧ a < fatEntryOffset m c i + 4) → d' a = d a)) := by
  obtain ⟨-, -, -, b, -, hparse⟩ := fsMount_fat32 hmount hmode
  obtain ⟨-, -, -, -, -, hcount, -⟩ := BootSector.parse_facts hparse
  obtain ⟨t, ht⟩ := freeChain_returns (s := { m with data := d }) hcount first
  obtain ⟨fuel, hfuel⟩ := ht
  have hret := hfuel fuel (le_refl _)
  obtain ⟨d', rfl⟩ := (freeChain_bounds fuel _ first).value hret
  refine ⟨d', ⟨fuel, hfuel⟩, fun htab => ?_⟩
  have hs : Sound { m with data := d } :=
    OnlyData.sound ⟨d, rfl⟩ (fsMount_sound hmount hmode htab)
  have hwalk : Walking { m with data := d } { m with data := d } first first ∅ := by
    refine ⟨?_, fun c hc => absurd hc (Set.notMem_empty c), fun _ => .inr rfl,
      fun c hc => absurd hc (Set.notMem_empty c), fun hv => .start hv⟩
    have hnone : chainBytes { m with data := d } ∅ = ∅ := by
      refine Set.eq_empty_of_forall_notMem ?_
      rintro a ⟨c, hc, -⟩
      exact hc
    rw [hnone]
    exact .refl _
  have hcl := freeChain_visits hs fuel hwalk hret
  intro a
  constructor
  · rintro ⟨c, i, hc, hi, h1, h2⟩
    exact hcl.zero a ⟨c, hc, i, Nat.zero_le i, by rw [Nat.zero_add]; exact hi, h1, h2⟩
  · intro hno
    refine hcl.same a ?_
    rintro ⟨c, hc, i, -, hi, h1, h2⟩
    rw [Nat.zero_add] at hi
    exact hno ⟨c, i, hc, hi, h1, h2⟩

theorem smallVolume_tabled : Tabled smallVolume := by
  have hentry : ∀ c i, fatEntryOffset smallVolume c i = (1 + i * 1) * 512 + c * 4 := fun _ _ => rfl
  refine ⟨?_, ?_⟩
  · intro i j c d hi hj hij hc hd
    change i < 2 at hi
    change j < 2 at hj
    change c < 15 at hc
    change d < 15 at hd
    unfold Apart
    rw [hentry, hentry]
    omega
  · intro i c hi hc
    change i < 2 at hi
    change c < 15 at hc
    show fatEntryOffset smallVolume c i + 4 ≤ 3 * 512
    rw [hentry]
    omega

/-- Clusters 3 and 4 linked to each other. -/
def cyclicImage : Bytes := putBytes (putBytes smallImage (512 + 12) (leBytes 4 4)) (512 + 16) (leBytes 4 3)

theorem free_chain_exact_cycle : ∃ d',
    Returns (fun fuel => freeChain fuel { smallVolume with data := cyclicImage } 3)
      { smallVolume with data := d' } ∧
    d' (512 + 12) = 0 ∧ d' (512 + 16) = 0 ∧ d' 510 = 0x55 := by
  obtain ⟨d', hret, hbytes⟩ := free_chain_exact fsMount_smallImage rfl cyclicImage 3
  have h3 : Visited { smallVolume with data := cyclicImage } 3 3 := .start ⟨by decide, by decide⟩
  have hnext : next { smallVolume with data := cyclicImage } 3 = 4 := by decide +kernel
  have h4 : Visited { smallVolume with data := cyclicImage } 3 4 := by
    rw [← hnext]
    refine .follow h3 ?_ ?_
    · rw [hnext]
      decide
    · rw [hnext]
      exact ⟨by decide, by decide⟩
  refine ⟨d', hret, ?_, ?_, ?_⟩
  · exact (hbytes smallVolume_tabled _).1 ⟨3, 0, h3, by decide, by decide, by decide⟩
  · exact (hbytes smallVolume_tabled _).1 ⟨4, 0, h4, by decide, by decide, by decide⟩
  · refine ((hbytes smallVolume_tabled 510).2 ?_).trans (by decide)
    rintro ⟨c, i, -, -, hle, -⟩
    change (1 + i * 1) * 512 + c * 4 ≤ 510 at hle
    omega

end ExoCore.Fat
