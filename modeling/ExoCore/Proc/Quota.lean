/-
  ExoCore.Proc.Quota — the STATISTICS of the memory contexts.

  The counters of a context are exact: `used` and `allocations` are the sum and the
  number of its block entries, `peak` is the largest `used` so far, and a quota is
  never exceeded.  The sum `used + size` of the quota test can wrap only for a size
  that `mem_alloc` refuses.

  Main results:
    • `Ledger.create`, `.alloc`, `.free`, `.destroy` — one lemma per call;
    • `memctx_accounting` — every run, as long as `next_ctx_id` has not wrapped;
    • `memctx_ids_collide` — after `2^32` creations two active contexts share an id.
-/
import ExoCore.Proc.Ledger

namespace ExoCore.Proc

open ExoCore.Lib Function List

/-! ## §1. Sums over the entries of a context. -/

/-- The sum of `f` over the entries that carry `ctxId`. -/
def MemctxState.total (m : MemctxState) (f : MemctxBlock → ℕ) (ctxId : ℤ) : ℕ :=
  ∑ b with (m.blocks b).ctxId = ctxId, f (m.blocks b)

section Totals

variable {m m' : MemctxState} {ctxId : ℤ} {b : BlockSlot} {x : MemctxBlock} (f : MemctxBlock → ℕ)

/-- What one entry contributes to the sum. -/
def MemctxBlock.share (x : MemctxBlock) (f : MemctxBlock → ℕ) (ctxId : ℤ) : ℕ :=
  if x.ctxId = ctxId then f x else 0

theorem total_eq (m : MemctxState) (ctxId : ℤ) :
    m.total f ctxId = ∑ b, (m.blocks b).share f ctxId := by
  unfold MemctxState.total MemctxBlock.share
  rw [Finset.sum_filter]

/-- **One entry changed.** -/
theorem total_update (h : m'.blocks = update m.blocks b x) (ctxId : ℤ) :
    m'.total f ctxId + (m.blocks b).share f ctxId = m.total f ctxId + x.share f ctxId := by
  rw [total_eq, total_eq, h]
  exact sum_update_add m.blocks (fun e => e.share f ctxId) b x

/-- 128 entries, none above `n`. -/
theorem total_le {n : ℕ} (ctxId : ℤ) (h : ∀ b, f (m.blocks b) ≤ n) :
    m.total f ctxId ≤ 128 * n := by
  refine (Finset.sum_le_card_nsmul _ _ n fun b _ => h b).trans ?_
  rw [smul_eq_mul]
  exact Nat.mul_le_mul_right n ((Finset.card_le_univ _).trans (by simp))

theorem share_zero (h : 1 ≤ ctxId) : MemctxBlock.zero.share f ctxId = 0 := by
  refine if_neg fun he => ?_
  have : (0 : ℤ) = ctxId := he
  omega

theorem share_other (h : x.ctxId ≠ ctxId) : x.share f ctxId = 0 := if_neg h

end Totals

/-! ## §2. The ledger. -/

/-- **The statistics of a context are exact.** -/
structure Exact (m : MemctxState) (c : Memctx) : Prop where
  used : c.stats.used = m.total MemctxBlock.size c.id
  allocations : c.stats.allocations = m.total (fun _ => 1) c.id
  quota : c.stats.quota ≠ 0 → c.stats.used ≤ c.stats.quota

/-- Every active context has exact statistics, and no entry is larger than `limit`. -/
structure Ledger (limit : ℕ) (m : MemctxState) : Prop extends BlocksOk m where
  small : ∀ b, (m.blocks b).size ≤ limit
  exact : ∀ i, (m.contexts i).active = true → Exact m (m.contexts i)

section Keep

variable {limit : ℕ} {m m' : MemctxState} {ctxId : ℤ} {i : CtxSlot} {b : BlockSlot}

theorem Exact.congr {c : Memctx} (h : Exact m c) (hsum : ∀ f, m'.total f c.id = m.total f c.id) :
    Exact m' c :=
  ⟨h.used.trans (hsum _).symm, h.allocations.trans (hsum _).symm, h.quota⟩

theorem memctxInit_ledger (limit : ℕ) (m : MemctxState) : Ledger limit (memctxInit m) := by
  refine ⟨memctxInit_blocksOk m, fun _ => Nat.zero_le _, fun i hi => ?_⟩
  cases hi

/-- A new id stands in no entry. -/
theorem BlocksOk.total_next (h : BlocksOk m) (hnext : 0 < m.nextCtxId) (f : MemctxBlock → ℕ) :
    m.total f m.nextCtxId = 0 := by
  rw [total_eq]
  refine Finset.sum_eq_zero fun b _ => ?_
  by_cases hb : (m.blocks b).ptr = 0
  · rw [h.empty hb]
    exact share_zero f hnext
  · refine share_other f fun hctx => ?_
    exact h.not_carries (fun j hj => ((h.ids j hj).2 hnext).ne) b ⟨hb, hctx⟩

theorem Ledger.create (h : Ledger limit m) (hi : (m.contexts i).active = false)
    (hnext : 0 < m.nextCtxId) (ownerPid : ℤ) (quota : ℕ) :
    Ledger limit (opened m i ownerPid quota) := by
  have hsum : ∀ f id, (opened m i ownerPid quota).total f id = m.total f id := fun _ _ => rfl
  refine ⟨h.toBlocksOk.create hi hnext ownerPid quota, h.small, fun j hj => ?_⟩
  rw [opened_context] at hj ⊢
  split at hj
  · rw [if_pos ‹_›]
    refine ⟨?_, ?_, fun _ => Nat.zero_le _⟩
    · rw [hsum, h.total_next hnext]
    · rw [hsum, h.total_next hnext]
  · rw [if_neg ‹_›]
    exact (h.exact j hj).congr fun f => hsum f _

/-- Two active contexts have different ids. -/
theorem BlocksOk.id_ne (h : BlocksOk m) {j : CtxSlot} (hi : (m.contexts i).active = true)
    (hj : (m.contexts j).active = true) (hne : j ≠ i) : (m.contexts i).id ≠ (m.contexts j).id :=
  fun he => hne (h.distinct i j hi hj he).symm

section

variable (h : Ledger limit m)
include h

/-- The statistics after a call that changed those of `i` only, and one entry of `i`. -/
theorem Ledger.of_stats (hok : BlocksOk m') {st : MemctxStats} {x : MemctxBlock}
    (hi : (m.contexts i).active = true)
    (hctx : m'.contexts = update m.contexts i { m.contexts i with stats := st })
    (hblk : m'.blocks = update m.blocks b x)
    (hold : (m.blocks b).ctxId = (m.contexts i).id ∨ m.blocks b = MemctxBlock.zero)
    (hx : x.ctxId = (m.contexts i).id ∨ x = MemctxBlock.zero) (hsmall : x.size ≤ limit)
    (hnew : Exact m' { m.contexts i with stats := st }) : Ledger limit m' := by
  -- an entry of `i`, or an empty one, is nothing to the other contexts
  have hshare : ∀ {j : CtxSlot} {e : MemctxBlock} (f : MemctxBlock → ℕ),
      (m.contexts j).active = true → j ≠ i → (e.ctxId = (m.contexts i).id ∨ e = MemctxBlock.zero) →
        e.share f (m.contexts j).id = 0 := by
    intro j e f hj hji he
    rcases he with he | he
    · refine share_other f ?_
      rw [he]
      exact h.id_ne hi hj hji
    · rw [he]
      exact share_zero f (h.ids j hj).1
  refine ⟨hok, ?_, fun j hj => ?_⟩
  · rw [hblk]
    exact (forall_update_iff m.blocks fun _ e => e.size ≤ limit).mpr ⟨hsmall, fun b' _ => h.small b'⟩
  rw [hctx] at hj ⊢
  by_cases hji : j = i
  · rw [hji, update_self]
    exact hnew
  · rw [update_of_ne hji] at hj ⊢
    refine (h.exact j hj).congr fun f => ?_
    have hup := total_update f hblk (m.contexts j).id
    rw [hshare f hj hji hold, hshare f hj hji hx] at hup
    exact hup

/-- **`memctx_alloc`**: the sum of the quota test did not wrap, since the table cannot hold
that much. -/
theorem Ledger.alloc {ptr size : ℕ} (hlimit : 128 * limit < 2 ^ 64) (hi : findCtx m ctxId = some i)
    (hb : (m.blocks b).ptr = 0) (hptr : ptr ≠ 0) (hfresh : m.live ptr = none) (hsize : size ≤ limit)
    (hquota : (m.contexts i).stats.quota ≠ 0 →
      add64 (m.contexts i).stats.used size ≤ (m.contexts i).stats.quota) :
    Ledger limit (noteBlock m i b ctxId ptr size) ∧
      add64 (m.contexts i).stats.used size = (m.contexts i).stats.used + size := by
  obtain ⟨hactive, hid⟩ := findCtx_some hi
  have hok := h.toBlocksOk.alloc (b := b) size hi hptr hfresh
  have hzero := h.empty hb
  have hpos := (h.ids i hactive).1
  have hblk : (noteBlock m i b ctxId ptr size).blocks =
      update m.blocks b ⟨ptr, size, ctxId⟩ := rfl
  -- the entry was empty and now counts for `i`
  have hadd : ∀ f : MemctxBlock → ℕ,
      (noteBlock m i b ctxId ptr size).total f (m.contexts i).id =
        m.total f (m.contexts i).id + f ⟨ptr, size, ctxId⟩ := by
    intro f
    have hup := total_update f hblk (m.contexts i).id
    rw [hzero, share_zero f hpos] at hup
    rw [show (⟨ptr, size, ctxId⟩ : MemctxBlock).share f (m.contexts i).id = _ from if_pos hid.symm]
      at hup
    exact hup
  have hle : ∀ b', ((noteBlock m i b ctxId ptr size).blocks b').size ≤ limit := by
    rw [hblk]
    exact (forall_update_iff m.blocks fun _ e => e.size ≤ limit).mpr ⟨hsize, fun b' _ => h.small b'⟩
  have hbytes := total_le MemctxBlock.size (m.contexts i).id hle
  have hcount := total_le (m := noteBlock m i b ctxId ptr size) (fun _ => 1) (m.contexts i).id
    (fun _ => le_rfl)
  rw [hadd] at hbytes hcount
  obtain ⟨hused, hallocs, hmax⟩ := h.exact i hactive
  have hnowrap : add64 (m.contexts i).stats.used size = (m.contexts i).stats.used + size := by
    refine add64_of_lt ?_
    dsimp only at hbytes
    omega
  refine ⟨h.of_stats hok hactive rfl hblk (.inr hzero) (.inl hid.symm) hsize
    ⟨?_, ?_, hquota⟩, hnowrap⟩
  · rw [hadd, ← hused]
    exact hnowrap
  · rw [hadd, ← hallocs]
    refine Nat.mod_eq_of_lt ?_
    omega

/-- **`memctx_free`**: the two guards of the source never hold back a subtraction. -/
theorem Ledger.free (hi : findCtx m ctxId = some i) (hb : m.Carries ctxId b) :
    Ledger limit (released m i b) ∧ (m.blocks b).size ≤ (m.contexts i).stats.used := by
  obtain ⟨hactive, hid⟩ := findCtx_some hi
  have hpos := (h.ids i hactive).1
  have hblk : (released m i b).blocks = update m.blocks b MemctxBlock.zero := rfl
  have hshare : ∀ f, (m.blocks b).share f (m.contexts i).id = f (m.blocks b) :=
    fun f => if_pos (hb.2.trans hid.symm)
  have hsub : ∀ f, (released m i b).total f (m.contexts i).id + f (m.blocks b) =
      m.total f (m.contexts i).id := by
    intro f
    have hup := total_update f hblk (m.contexts i).id
    rw [hshare, share_zero f hpos] at hup
    exact hup
  obtain ⟨hused, hallocs, hmax⟩ := h.exact i hactive
  have hbytes := hsub MemctxBlock.size
  have hcount := hsub fun _ => 1
  have hle : (m.blocks b).size ≤ (m.contexts i).stats.used := by omega
  refine ⟨h.of_stats (h.toBlocksOk.free i b) hactive rfl hblk (.inl (hb.2.trans hid.symm))
    (.inr rfl) (Nat.zero_le _) ⟨?_, ?_, ?_⟩, hle⟩
  · show (if _ then _ else _) = (released m i b).total _ (m.contexts i).id
    rw [if_pos hle]
    omega
  · show (if _ then _ else _) = (released m i b).total _ (m.contexts i).id
    rw [if_pos (by omega)]
    omega
  · intro hq
    show (if _ then _ else _) ≤ _
    rw [if_pos hle]
    have := hmax hq
    show _ ≤ (m.contexts i).stats.quota
    omega

/-- **`memctx_destroy`**: the entries of the other contexts stay. -/
theorem Ledger.destroy (hi : findCtx m ctxId = some i) (hd : Destroyed m ctxId i m') :
    Ledger limit m' := by
  obtain ⟨hactive, hid⟩ := findCtx_some hi
  refine ⟨h.toBlocksOk.destroy hi hd, fun b => ?_, fun j hj => ?_⟩
  · rw [hd.blocks b]
    split
    · exact Nat.zero_le _
    · exact h.small b
  obtain ⟨hji, he⟩ := hd.context hj
  rw [he] at hj ⊢
  refine (h.exact j hj).congr fun f => ?_
  rw [total_eq, total_eq]
  refine Finset.sum_congr rfl fun b _ => ?_
  rw [hd.blocks b]
  split
  · rename_i hc
    rw [share_zero f (h.ids j hj).1, share_other f]
    rw [hc.2, ← hid]
    exact h.id_ne hactive hj hji
  · rfl

end

end Keep

/-! ## §3. The history of `used`. -/

/-- The values `used` has had since the context in a slot was created. -/
abbrev Usage := CtxSlot → List ℕ

/-- The history after a call that led from `m` to `m'`. -/
def Usage.next (u : Usage) (m m' : MemctxState) : Usage := fun i =>
  if (m'.contexts i).active then
    (m'.contexts i).stats.used :: (if (m.contexts i).active then u i else [])
  else []

/-- `peak` is the largest of them, and `used` the last. -/
def Peaks (m : MemctxState) (u : Usage) : Prop :=
  ∀ i, (m.contexts i).active = true →
    (m.contexts i).stats.used ∈ u i ∧ IsGreatest {n | n ∈ u i} (m.contexts i).stats.peak

variable {m : MemctxState} {u : Usage}

/-- The peak after one call: the old one or the new `used`. -/
theorem Peaks.next {m' : MemctxState} (h : Peaks m u)
    (hstep : ∀ i, (m'.contexts i).active = true →
      ((m.contexts i).active = true ∧ (m'.contexts i).stats.peak =
        max (m.contexts i).stats.peak (m'.contexts i).stats.used) ∨
      ((m.contexts i).active = false ∧
        (m'.contexts i).stats.peak = (m'.contexts i).stats.used)) :
    Peaks m' (u.next m m') := by
  intro i hi
  unfold Usage.next
  rw [if_pos hi]
  refine ⟨mem_cons_self, ?_⟩
  rcases hstep i hi with ⟨hact, hpeak⟩ | ⟨hact, hpeak⟩
  · obtain ⟨-, hmem, hmax⟩ := h i hact
    rw [if_pos hact, hpeak]
    constructor
    · show max _ _ ∈ _ :: u i
      rcases max_choice (m.contexts i).stats.peak (m'.contexts i).stats.used with he | he
      · rw [he]
        exact mem_cons_of_mem _ hmem
      · rw [he]
        exact mem_cons_self
    · intro n hn
      rcases mem_cons.mp hn with rfl | hn
      · exact le_max_right _ _
      · exact (hmax hn).trans (le_max_left _ _)
  · rw [if_neg (by rw [hact]; exact Bool.false_ne_true), hpeak]
    constructor
    · exact mem_cons_self
    · intro n hn
      rcases mem_cons.mp hn with rfl | hn
      · exact le_rfl
      · cases hn

/-- The step of a context whose statistics did not change. -/
theorem Peaks.same (h : Peaks m u) {i : CtxSlot}
    (hi : (m.contexts i).active = true) :
    (m.contexts i).stats.peak = max (m.contexts i).stats.peak (m.contexts i).stats.used := by
  obtain ⟨hmem, hmax⟩ := h i hi
  exact (max_eq_left (hmax.2 hmem)).symm

/-- The statistics of one context changed. -/
theorem Peaks.of_stats {m' : MemctxState} {i : CtxSlot} {st : MemctxStats}
    (h : Peaks m u)
    (hctx : m'.contexts = update m.contexts i { m.contexts i with stats := st })
    (hpeak : (m.contexts i).active = true → st.peak = max (m.contexts i).stats.peak st.used) :
    Peaks m' (u.next m m') := by
  refine h.next fun j hj => .inl ?_
  rw [hctx] at hj ⊢
  by_cases hji : j = i
  · subst hji
    rw [update_self] at hj ⊢
    exact ⟨hj, hpeak hj⟩
  · rw [update_of_ne hji] at hj ⊢
    exact ⟨hj, h.same hj⟩

/-! ## §4. Calls and runs. -/

/-- A call of the interface. -/
inductive MemctxOp where
  | create (ownerPid : ℤ) (quota : ℕ)
  | alloc (ctxId : ℤ) (size : ℕ)
  | free (ctxId : ℤ) (ptr : ℕ)
  | destroy (ctxId : ℤ)

/-- The answer of a call. -/
inductive MemctxRet where
  | id (n : ℤ)
  | ptr (p : ℕ)
  | done (ok : Bool)
  deriving Repr, DecidableEq

/-- A negative id, `NULL` or `-1`. -/
def MemctxRet.Failed : MemctxRet → Prop
  | .id n => n < 0
  | .ptr p => p = 0
  | .done ok => ok = false

/-- Perform a call: `none` when `mem_free` panics. -/
def memctxExec (alloc : HeapAlloc) (m : MemctxState) : MemctxOp → Option (MemctxRet × MemctxState)
  | .create ownerPid quota => some ((memctxCreate m ownerPid quota).map .id id)
  | .alloc ctxId size => some ((memctxAlloc alloc m ctxId size).map .ptr id)
  | .free ctxId ptr => (memctxFree m ctxId ptr).map (Prod.map .done id)
  | .destroy ctxId => (memctxDestroy m ctxId).map (Prod.map .done id)

/-- The contract of `mem_alloc`: `NULL` above `limit`, and otherwise `NULL` or a pointer that
is not live. -/
def HeapOk (limit : ℕ) (m : MemctxState) (alloc : HeapAlloc) : Prop :=
  ∀ size, alloc size = 0 ∨ (size ≤ limit ∧ m.live (alloc size) = none)

/-- The tables, with the history of `used`. -/
structure Meter where
  state : MemctxState
  usage : Usage

/-- One step, with the calls limited by `guard`: a call, or the rest of the kernel using the
heap without touching what the block table holds. -/
inductive MemctxStep (limit : ℕ) (guard : MemctxState → MemctxOp → Prop) : Meter → Meter → Prop
  | call {m m' : MemctxState} {u : Usage} {alloc : HeapAlloc} {op : MemctxOp} {r : MemctxRet}
      (hop : guard m op) (hheap : HeapOk limit m alloc) (h : memctxExec alloc m op = some (r, m')) :
      MemctxStep limit guard ⟨m, u⟩ ⟨m', u.next m m'⟩
  | other {m : MemctxState} {u : Usage} {live : ℕ → Option ℕ}
      (hlive : ∀ b, (m.blocks b).ptr ≠ 0 → live (m.blocks b).ptr = m.live (m.blocks b).ptr) :
      MemctxStep limit guard ⟨m, u⟩ ⟨{ m with live := live }, u⟩

/-- Any number of steps. -/
abbrev MemctxRun (limit : ℕ) (guard : MemctxState → MemctxOp → Prop) : Meter → Meter → Prop :=
  Relation.ReflTransGen (MemctxStep limit guard)

/-- Every call. -/
def AnyCall (_ : MemctxState) (_ : MemctxOp) : Prop := True

/-- No context is created once `next_ctx_id` has wrapped. -/
def Unwrapped (m : MemctxState) : MemctxOp → Prop
  | .create _ _ => 0 < m.nextCtxId
  | _ => True

section Steps

variable {limit : ℕ} {m m' : MemctxState} {u : Usage} {alloc : HeapAlloc} {op : MemctxOp}

/-- What a call does to the accounts. -/
structure CallOk (limit : ℕ) (m : MemctxState) (u : Usage) (r : MemctxRet) (m' : MemctxState) :
    Prop where
  ledger : Ledger limit m'
  peaks : Peaks m' (u.next m m')
  failed : r.Failed → m'.contexts = m.contexts ∧ m'.blocks = m.blocks

/-- A call that changes nothing. -/
theorem CallOk.idle (h : Ledger limit m) (hp : Peaks m u) (r : MemctxRet) : CallOk limit m u r m :=
  ⟨h, hp.next fun _ hi => .inl ⟨hi, hp.same hi⟩, fun _ => ⟨rfl, rfl⟩⟩

/-- **One call**: it returns, keeps the accounts, and a failure changes nothing. -/
theorem memctxExec_ok (hlimit : 128 * limit < 2 ^ 64) (h : Ledger limit m) (hp : Peaks m u)
    (hop : Unwrapped m op) (hheap : HeapOk limit m alloc) :
    ∃ r m', memctxExec alloc m op = some (r, m') ∧ CallOk limit m u r m' := by
  cases op with
  | create ownerPid quota =>
    rcases memctxCreate_cases m ownerPid quota with ⟨-, heq⟩ | ⟨i, hfree, heq⟩
    · exact ⟨.id (-1), m, by rw [memctxExec, heq]; rfl, .idle h hp _⟩
    have hi := freeCtx_some hfree
    refine ⟨.id m.nextCtxId, opened m i ownerPid quota, by rw [memctxExec, heq]; rfl,
      h.create hi hop ownerPid quota, hp.next fun j hj => ?_, fun hf => ?_⟩
    · rw [opened_context] at hj ⊢
      split at hj
      · rename_i hji
        subst hji
        rw [if_pos rfl]
        exact .inr ⟨hi, rfl⟩
      · rw [if_neg (by assumption)]
        exact .inl ⟨hj, hp.same hj⟩
    · exact absurd hop (not_lt.mpr (show m.nextCtxId < 0 from hf).le)
  | alloc ctxId size =>
    rcases memctxAlloc_cases alloc m ctxId size with
      heq | ⟨i, slot, hi, hslot, -, hptr, hquota, heq⟩
    · exact ⟨.ptr 0, m, by rw [memctxExec, heq]; rfl, .idle h hp _⟩
    obtain ⟨hsize, hfresh⟩ := (hheap size).resolve_left hptr
    obtain ⟨hledger, hsum⟩ := h.alloc hlimit hi hslot hptr hfresh hsize hquota
    refine ⟨.ptr (alloc size), noteBlock m i slot ctxId (alloc size) size,
      by rw [memctxExec, heq]; rfl, hledger, hp.of_stats rfl fun _ => ?_, fun hf => absurd hf hptr⟩
    exact (max_def_lt (m.contexts i).stats.peak (add64 (m.contexts i).stats.used size)).symm
  | free ctxId ptr =>
    rcases (h.freeable ctxId).memctxFree_cases ptr with heq | ⟨i, b, hi, hb, -, heq⟩
    · exact ⟨.done false, m, by rw [memctxExec, heq]; rfl, .idle h hp _⟩
    obtain ⟨hledger, hle⟩ := h.free hi hb
    refine ⟨.done true, released m i b, by rw [memctxExec, heq]; rfl, hledger,
      hp.of_stats rfl fun hact => ?_, fun hf => by cases hf⟩
    have hpeak := hp.same hact
    show (m.contexts i).stats.peak = max _ (if _ then _ else _)
    rw [if_pos hle]
    omega
  | destroy ctxId =>
    rcases (h.freeable ctxId).memctxDestroy_cases with heq | ⟨i, m', hi, hd, heq⟩
    · exact ⟨.done false, m, by rw [memctxExec, heq]; rfl, .idle h hp _⟩
    refine ⟨.done true, m', by rw [memctxExec, heq]; rfl, h.destroy hi hd, hp.next fun j hj => ?_,
      fun hf => by cases hf⟩
    obtain ⟨-, he⟩ := hd.context hj
    rw [he] at hj ⊢
    exact .inl ⟨hj, hp.same hj⟩

/-- **One step keeps the accounts.** -/
theorem MemctxStep.keeps {t t' : Meter} (hlimit : 128 * limit < 2 ^ 64)
    (hstep : MemctxStep limit Unwrapped t t') (h : Ledger limit t.state ∧ Peaks t.state t.usage) :
    Ledger limit t'.state ∧ Peaks t'.state t'.usage := by
  cases hstep with
  | call hop hheap hexec =>
    obtain ⟨r, m', heq, hok⟩ := memctxExec_ok hlimit h.1 h.2 hop hheap
    obtain ⟨rfl, rfl⟩ := Prod.mk.inj (Option.some.inj (hexec.symm.trans heq))
    exact ⟨hok.ledger, hok.peaks⟩
  | other hlive =>
    obtain ⟨h, hp⟩ := h
    refine ⟨{ h with
      entry := fun b => (h.entry b).imp_right fun he => ?_
      exact := fun i hi => (h.exact i hi).congr fun _ => rfl }, hp⟩
    exact ⟨he.ptr, he.owned, (hlive b he.ptr).trans he.backed⟩

end Steps

/-! ## §5. The accounts. -/

/-- **What the statistics say**, over natural numbers. -/
structure Accounts (m : MemctxState) (u : Usage) : Prop where
  used : ∀ i, (m.contexts i).active = true → (m.contexts i).stats.used =
    ∑ b with (m.blocks b).ctxId = (m.contexts i).id, (m.blocks b).size
  allocations : ∀ i, (m.contexts i).active = true → (m.contexts i).stats.allocations =
    (Finset.univ.filter fun b => (m.blocks b).ctxId = (m.contexts i).id).card
  quota : ∀ i, (m.contexts i).active = true → (m.contexts i).stats.quota ≠ 0 →
    (m.contexts i).stats.used ≤ (m.contexts i).stats.quota
  peak : ∀ i, (m.contexts i).active = true → IsGreatest {n | n ∈ u i} (m.contexts i).stats.peak
  distinct : ∀ i j, (m.contexts i).active = true → (m.contexts j).active = true →
    (m.contexts i).id = (m.contexts j).id → i = j

theorem Ledger.accounts {limit : ℕ} (h : Ledger limit m)
    (hp : Peaks m u) : Accounts m u := by
  refine ⟨fun i hi => (h.exact i hi).used, fun i hi => ?_, fun i hi => (h.exact i hi).quota,
    fun i hi => (hp i hi).2, h.distinct⟩
  rw [Finset.card_eq_sum_ones]
  exact (h.exact i hi).allocations

/-- **The memory contexts keep their books**: after `memctx_init` and any calls, with any
other use of the heap between them, the statistics of every active context are exact, the
next call returns, and when it answers failure it has changed no context and no entry.
The heap refuses requests above its maximum and `swap_space`, and its maximum is such that
128 blocks cannot reach `2^64` bytes. -/
theorem memctx_accounting {heapMax : ℕ} (hmax : 128 * (heapMax + 64 * 1024) < 2 ^ 64)
    {m₀ m : MemctxState} {u : Usage}
    (hrun : MemctxRun (heapMax + 64 * 1024) Unwrapped ⟨memctxInit m₀, fun _ => []⟩ ⟨m, u⟩) :
    Accounts m u ∧ ∀ alloc op, HeapOk (heapMax + 64 * 1024) m alloc → Unwrapped m op →
      ∃ r m', memctxExec alloc m op = some (r, m') ∧
        (r.Failed → m'.contexts = m.contexts ∧ m'.blocks = m.blocks) := by
  have hinit : Ledger (heapMax + 64 * 1024) (memctxInit m₀) ∧
      Peaks (memctxInit m₀) fun _ => [] :=
    ⟨memctxInit_ledger _ m₀, fun i hi => by cases hi⟩
  obtain ⟨h, hp⟩ := inv_of_run
    (fun t : Meter => Ledger (heapMax + 64 * 1024) t.state ∧ Peaks t.state t.usage) hrun hinit
    fun h hstep => hstep.keeps hmax h
  refine ⟨h.accounts hp, fun alloc op hheap hop => ?_⟩
  obtain ⟨r, m', heq, hok⟩ := memctxExec_ok hmax h hp hop hheap
  exact ⟨r, m', heq, hok.failed⟩

/-- A context with a quota of 10 bytes, and 4 of them in use. -/
theorem memctx_accounting_quota :
    ∃ m u, (m.contexts 0).stats = ⟨10, 4, 4, 1⟩ ∧
      MemctxRun (8 * 1024 * 1024 + 64 * 1024) Unwrapped
        ⟨memctxInit ⟨fun _ => .zero, fun _ => .zero, 0, fun _ => none⟩, fun _ => []⟩ ⟨m, u⟩ ∧
      Accounts m u := by
  let m₀ := memctxInit ⟨fun _ => .zero, fun _ => .zero, 0, fun _ => none⟩
  let m₁ := opened m₀ 0 1 10
  let m₂ := noteBlock m₁ 0 0 1 4096 4
  let alloc : HeapAlloc := fun size => if size ≤ 4 then 4096 else 0
  have hheap : ∀ m, m.live = m₀.live → HeapOk (8 * 1024 * 1024 + 64 * 1024) m alloc := by
    intro m hm size
    show (if size ≤ 4 then 4096 else 0) = 0 ∨ _
    by_cases hs : size ≤ 4
    · refine .inr ⟨by omega, ?_⟩
      rw [hm]
      rfl
    · exact .inl (if_neg hs)
  have hcreate : memctxExec alloc m₀ (.create 1 10) = some (.id 1, m₁) := by rfl
  have halloc : memctxExec alloc m₁ (.alloc 1 4) = some (.ptr 4096, m₂) := by rfl
  have hpos : Unwrapped m₀ (.create 1 10) := (by decide : (0 : ℤ) < 1)
  have hany : Unwrapped m₁ (.alloc 1 4) := trivial
  have hrun : MemctxRun (8 * 1024 * 1024 + 64 * 1024) Unwrapped ⟨m₀, fun _ => []⟩
      ⟨m₂, Usage.next (Usage.next (fun _ => []) m₀ m₁) m₁ m₂⟩ :=
    .tail (.single (.call hpos (hheap _ rfl) hcreate)) (.call hany (hheap _ rfl) halloc)
  exact ⟨m₂, _, rfl, hrun, (memctx_accounting (by decide) hrun).1⟩

/-! ## §6. After the wrap. -/

/-- One context that stays, and nothing else. -/
def oneContext (next : ℤ) : MemctxState :=
  { contexts := fun i => if i = 0 then ⟨true, 1, 1, ⟨0, 0, 0, 0⟩⟩ else Memctx.zero
    blocks := fun _ => MemctxBlock.zero
    nextCtxId := next
    live := fun _ => none }

theorem freeCtx_oneContext (next : ℤ) : freeCtx (oneContext next) = some 1 := by
  show List.find? (fun i => !(if i = 0 then _ else Memctx.zero : Memctx).active) _ = _
  decide

/-- The id of the new context leads to the new context. -/
theorem findCtx_opened {next : ℤ} (h : next ≠ 1) :
    findCtx (opened (oneContext next) 1 2 0) next = some 1 := by
  refine find?_finRange_eq_some.mpr ⟨?_, fun j hj => ?_⟩
  · rw [opened_context, if_pos rfl]
    simp [oneContext]
  · have hj0 : j = 0 := by omega
    subst hj0
    rw [opened_context, if_neg (by decide)]
    simp [oneContext, h.symm]

/-- **A context is created and destroyed**: only the counter has moved. -/
theorem create_destroy (limit : ℕ) {next : ℤ} (h : next ≠ 1) (u : Usage) :
    ∃ u', MemctxRun limit AnyCall ⟨oneContext next, u⟩ ⟨oneContext (toInt (next + 1)), u'⟩ := by
  have hheap : ∀ m, HeapOk limit m fun _ => 0 := fun _ _ => .inl rfl
  have hcreate : memctxExec (fun _ => 0) (oneContext next) (.create 2 0) =
      some (.id next, opened (oneContext next) 1 2 0) := by
    unfold memctxExec memctxCreate
    rw [freeCtx_oneContext]
    rfl
  have hdestroy : memctxExec (fun _ => 0) (opened (oneContext next) 1 2 0) (.destroy next) =
      some (.done true, oneContext (toInt (next + 1))) := by
    show Option.map _ (memctxDestroy _ next) = _
    unfold memctxDestroy
    rw [findCtx_opened h]
    dsimp only
    rw [freeBlocks_none fun b hb => hb.1 rfl]
    have hctx : update (opened (oneContext next) 1 2 0).contexts 1 Memctx.zero =
        (oneContext next).contexts := by
      show update (update _ _ _) _ _ = _
      rw [update_idem]
      exact update_eq_self 1 (oneContext next).contexts
    show some (MemctxRet.done true, { opened (oneContext next) 1 2 0 with
      contexts := update (opened (oneContext next) 1 2 0).contexts 1 Memctx.zero }) = _
    rw [hctx]
    rfl
  exact ⟨_, .tail (.single (.call trivial (hheap _) hcreate)) (.call trivial (hheap _) hdestroy)⟩

/-- `k` times. -/
theorem create_destroy_many (limit : ℕ) (u : Usage) : ∀ k : ℕ, k < 2 ^ 32 →
    ∃ u', MemctxRun limit AnyCall ⟨oneContext 2, u⟩ ⟨oneContext (toInt (2 + k)), u'⟩ := by
  intro k
  induction k with
  | zero => exact fun _ => ⟨u, .refl⟩
  | succ k ih =>
    intro hk
    obtain ⟨u₁, hrun⟩ := ih (by omega)
    obtain ⟨u₂, hlast⟩ := create_destroy limit (toInt_ne_one (k := k) (by omega)) u₁
    rw [toInt_toInt_add] at hlast
    refine ⟨u₂, hrun.trans ?_⟩
    rw [show (2 : ℤ) + ((k + 1 : ℕ) : ℤ) = 2 + k + 1 by push_cast; ring]
    exact hlast

/-- **The counter comes round**: one context stays, and `2^32 - 1` others are created and
destroyed one after the other; the next one gets the id of the first. -/
theorem memctx_ids_collide :
    ∃ m u, MemctxRun (8 * 1024 * 1024 + 64 * 1024) AnyCall
        ⟨memctxInit (oneContext 0), fun _ => []⟩ ⟨m, u⟩ ∧
      (m.contexts 0).active = true ∧ (m.contexts 1).active = true ∧
        (m.contexts 0).id = (m.contexts 1).id := by
  have hheap : ∀ m, HeapOk (8 * 1024 * 1024 + 64 * 1024) m fun _ => 0 := fun _ _ => .inl rfl
  have hfirst : memctxExec (fun _ => 0) (memctxInit (oneContext 0)) (.create 1 0) =
      some (.id 1, oneContext 2) := by
    have hfree : freeCtx (memctxInit (oneContext 0)) = some 0 := by decide
    unfold memctxExec memctxCreate
    rw [hfree]
    have hctx : update (fun _ => Memctx.zero) (0 : CtxSlot) ⟨true, 1, 1, ⟨0, 0, 0, 0⟩⟩ =
        (oneContext 2).contexts := funext fun _ => update_apply ..
    show some (MemctxRet.id 1, { memctxInit (oneContext 0) with
      contexts := update (fun _ => Memctx.zero) (0 : CtxSlot) ⟨true, 1, 1, ⟨0, 0, 0, 0⟩⟩
      nextCtxId := toInt (1 + 1) }) = _
    rw [hctx]
    rfl
  obtain ⟨u, hrun⟩ := create_destroy_many (8 * 1024 * 1024 + 64 * 1024)
    (Usage.next (fun _ => []) (memctxInit (oneContext 0)) (oneContext 2)) (2 ^ 32 - 1) (by decide)
  have hnext : toInt (2 + ((2 ^ 32 - 1 : ℕ) : ℤ)) = 1 := by decide
  rw [hnext] at hrun
  have hlast : memctxExec (fun _ => 0) (oneContext 1) (.create 2 0) =
      some (.id 1, opened (oneContext 1) 1 2 0) := by
    unfold memctxExec memctxCreate
    rw [freeCtx_oneContext]
    rfl
  refine ⟨_, _, .tail (.trans (.single (.call trivial (hheap _) hfirst)) hrun)
    (.call trivial (hheap _) hlast), ?_, ?_, ?_⟩
  · rfl
  · rfl
  · rfl

end ExoCore.Proc
