/-
  ExoCore.Proc.Reclaim — the memory of a process COMES BACK.

  `Holders` is kept outside the tables, from what the heap sees alone: a pointer that
  becomes live is held by the process the call allocates for, and one that is freed
  is held by nobody.  `HeldOk` says that the block table agrees with it, although it
  links blocks to processes only through context ids.

  Main results:
    • `memory_reclaimed` — in every run, before `next_pid` has wrapped: contexts and
      processes stand one to one, and `proc_wait` frees exactly what its child holds;
    • `context_leaks` — after `2^31 - 1` creations a context stays without a process.
-/
import ExoCore.Proc.Tenants

namespace ExoCore.Proc

open ExoCore.Lib ExoCore.Vfs Function List

/-! ## §1. Who holds a pointer. -/

/-- The process that each live pointer was handed to. -/
abbrev Holders := ℕ → Option ℤ

/-- The holders after a call for `who`. -/
def Holders.next (o : Holders) (who : ℤ) (live live' : ℕ → Option ℕ) : Holders := fun p =>
  if (live' p).isSome = (live p).isSome then o p
  else if (live' p).isSome then some who else none

/-- Some block of the context `q` is the pointer `p`. -/
def Carried (m : MemctxState) (q : ℤ) (p : ℕ) : Prop := ∃ b, m.Carries q b ∧ (m.blocks b).ptr = p

/-- **The block table knows the holders.** -/
def HeldOk (o : Holders) (m : MemctxState) : Prop := ∀ p q, o p = some q ↔ Carried m q p

section Held

variable {o : Holders} {m m' : MemctxState} {who : ℤ}

/-- What has to be seen of a step: an entry that is in use before stays, unless its pointer was
freed, one that is in use afterwards is an old one or a new one of `who`, and every pointer that
became live is entered for `who`. -/
theorem HeldOk.next (h : HeldOk o m) (hm : BlocksOk m) (hok : BlocksOk m')
    (hkept : ∀ b, (m.blocks b).ptr ≠ 0 →
      m'.blocks b = m.blocks b ∨ m'.live (m.blocks b).ptr = none)
    (hnew : ∀ b, (m'.blocks b).ptr ≠ 0 → m'.blocks b = m.blocks b ∨
      m.live (m'.blocks b).ptr = none ∧ (m'.blocks b).ctxId = who)
    (hborn : ∀ p, m.live p = none → (m'.live p).isSome = true → Carried m' who p) :
    HeldOk (o.next who m.live m'.live) m' := by
  intro p q
  unfold Holders.next
  by_cases hp : (m'.live p).isSome = (m.live p).isSome
  · rw [if_pos hp, h p q]
    constructor
    · rintro ⟨b, hb, rfl⟩
      rcases hkept b hb.1 with he | hnone
      · unfold Carried MemctxState.Carries
        exact ⟨b, by rwa [he], by rw [he]⟩
      · rw [hnone, (hm.inUse hb.1).backed] at hp
        cases hp
    · rintro ⟨b, hb, rfl⟩
      rcases hnew b hb.1 with he | ⟨hnone, -⟩
      · unfold MemctxState.Carries at hb
        rw [he] at hb ⊢
        exact ⟨b, hb, rfl⟩
      · rw [hnone, (hok.inUse hb.1).backed] at hp
        cases hp
  rw [if_neg hp]
  by_cases hp' : (m'.live p).isSome = true
  · have hnone : m.live p = none := by
      cases hlive : m.live p with
      | none => rfl
      | some n =>
        rw [hp', hlive] at hp
        exact absurd rfl hp
    rw [if_pos hp']
    constructor
    · intro he
      cases he
      exact hborn p hnone hp'
    · rintro ⟨b, hb, rfl⟩
      rcases hnew b hb.1 with he | ⟨-, hwho⟩
      · rw [he] at hnone
        have hback := (hm.inUse (b := b) (by rw [← he]; exact hb.1)).backed
        rw [hnone] at hback
        cases hback
      · rw [← hb.2, hwho]
  · -- a pointer that is not live is in no block
    rw [if_neg hp']
    refine ⟨fun he => (by cases he), ?_⟩
    rintro ⟨b, hb, rfl⟩
    rw [(hok.inUse hb.1).backed] at hp'
    exact absurd rfl hp'

/-- A step that allocates nothing. -/
theorem HeldOk.shrunk (h : HeldOk o m) (hm : BlocksOk m) (hok : BlocksOk m')
    (hblock : ∀ b, m'.blocks b = m.blocks b ∨
      (m'.blocks b).ptr = 0 ∧ ((m.blocks b).ptr ≠ 0 → m'.live (m.blocks b).ptr = none))
    (hlive : ∀ p, m'.live p = none ∨ m'.live p = m.live p) :
    HeldOk (o.next who m.live m'.live) m' := by
  refine h.next hm hok (fun b hb => ?_) (fun b hb => ?_) fun p hp hp' => ?_
  · exact (hblock b).imp_right fun hc => hc.2 hb
  · exact .inl ((hblock b).resolve_right fun hc => hb hc.1)
  · rcases hlive p with he | he
    · rw [he] at hp'
      cases hp'
    · rw [he, hp] at hp'
      cases hp'

theorem HeldOk.of_same (h : HeldOk o m) (hm : BlocksOk m) (hok : BlocksOk m')
    (hblocks : m'.blocks = m.blocks) (hlive : m'.live = m.live) :
    HeldOk (o.next who m.live m'.live) m' :=
  h.shrunk hm hok (fun b => .inl (congrFun hblocks b)) fun p => .inr (congrFun hlive p)

theorem HeldOk.charged (h : HeldOk o m) (hm : BlocksOk m) {c : CtxSlot} {b : BlockSlot}
    {ptr size : ℕ} (hc : findCtx m who = some c) (hb : (m.blocks b).ptr = 0) (hptr : ptr ≠ 0)
    (hfresh : m.live ptr = none) : HeldOk
      (o.next who m.live (noteBlock m c b who ptr size).live) (noteBlock m c b who ptr size) := by
  have hold : ∀ {b'}, b' ≠ b → (noteBlock m c b who ptr size).blocks b' = m.blocks b' := by
    intro b' hne
    rw [noteBlock_block, if_neg hne]
  have hnew : (noteBlock m c b who ptr size).blocks b = ⟨ptr, size, who⟩ := by
    rw [noteBlock_block, if_pos rfl]
  refine h.next hm (hm.alloc size hc hptr hfresh) (fun b' hb' => .inl (hold ?_))
    (fun b' _ => ?_) fun p hp hp' => ⟨b, ?_⟩
  · intro he
    rw [he] at hb'
    exact hb' hb
  · by_cases he : b' = b
    · rw [he, hnew]
      exact .inr ⟨hfresh, rfl⟩
    · exact .inl (hold he)
  · have he : p = ptr := by
      by_contra hne
      rw [show (noteBlock m c b who ptr size).live p = m.live p from update_of_ne hne _ _, hp] at hp'
      cases hp'
    unfold MemctxState.Carries
    rw [hnew, he]
    exact ⟨⟨hptr, rfl⟩, rfl⟩

theorem HeldOk.credited (h : HeldOk o m) (hm : BlocksOk m) (c : CtxSlot) (b : BlockSlot) :
    HeldOk (o.next who m.live (released m c b).live) (released m c b) := by
  refine h.shrunk hm (hm.free c b) (fun b' => ?_) fun p => ?_
  · show update m.blocks b _ b' = _ ∨ (update m.blocks b _ b').ptr = 0 ∧
      (_ → update m.live _ _ _ = _)
    by_cases he : b' = b
    · rw [he, update_self, update_self]
      exact .inr ⟨rfl, fun _ => rfl⟩
    · exact .inl (update_of_ne he _ _)
  · show update m.live _ none p = _ ∨ _
    by_cases he : p = (m.blocks b).ptr
    · rw [he, update_self]
      exact .inl rfl
    · exact .inr (update_of_ne he _ _)

theorem HeldOk.destroyed (h : HeldOk o m) (hm : BlocksOk m) {id : ℤ} {c : CtxSlot}
    (hc : findCtx m id = some c) (hd : Destroyed m id c m') :
    HeldOk (o.next who m.live m'.live) m' := by
  refine h.shrunk hm (hm.destroy hc hd) (fun b => ?_) fun p => ?_
  · rw [hd.blocks b, hd.live]
    by_cases hb : m.Carries id b
    · rw [if_pos hb, if_pos ⟨b, hb, rfl⟩]
      exact .inr ⟨rfl, fun _ => rfl⟩
    · exact .inl (if_neg hb)
  · rw [hd.live p]
    exact (ite_eq_or_eq _ none _)

/-- **A step of a call** keeps the books. -/
theorem TenantStep.held {s s' : ProcState} (hstep : TenantStep s who s') (ht : Tenants s)
    (h : HeldOk o s.memctx) : HeldOk (o.next who s.memctx.live s'.memctx.live) s'.memctx := by
  have ht' := hstep.tenants ht
  cases hstep with
  | idle hs hm => exact h.of_same ht.ctx ht'.ctx (by rw [hm]) (by rw [hm])
  | @created i c _ _ hi hc hpos =>
    refine h.of_same ht.ctx ht'.ctx ?_ ?_
    · show (memctxCreate s.memctx s.nextPid 0).2.blocks = _
      rw [memctxCreate_free hc]
      rfl
    · show (memctxCreate s.memctx s.nextPid 0).2.live = _
      rw [memctxCreate_free hc]
      rfl
  | charged hs hc hb hptr hfresh hm =>
    rw [hm]
    exact h.charged ht.ctx hc hb hptr hfresh
  | credited hs hb hm =>
    rw [hm]
    exact h.credited ht.ctx _ _
  | reaped hi hc hd => exact h.destroyed ht.ctx hc hd

/-- A spawn that was got ready: the new blocks are held by the new process. -/
theorem HeldOk.spawning (h : HeldOk o m) (hm : BlocksOk m) {c : CtxSlot} (hch : Charged m c m')
    (hok : BlocksOk m') : HeldOk (o.next m.nextCtxId m.live m'.live) m' := by
  refine h.next hm hok (fun b hb => .inl (hch.kept b hb)) (fun b hb => ?_) fun p hp hp' => ?_
  · by_cases h0 : (m.blocks b).ptr = 0
    · have hid := hch.taken b h0 hb
      exact .inr ⟨hch.fresh b ⟨hb, hid⟩, hid⟩
    · exact .inl (hch.kept b h0)
  · by_contra hnone
    rw [hch.other p fun b hb he => hnone ⟨b, hb, he⟩, hp] at hp'
    cases hp'

/-- A spawn that failed: nobody holds anything else. -/
theorem HeldOk.restored (h : HeldOk o m) (hm : BlocksOk m) (hr : MemctxRestored m m')
    (hok : BlocksOk m') : HeldOk (o.next who m.live m'.live) m' := by
  refine h.shrunk hm hok (fun b => ?_) fun p => .inr (congrFun hr.live p)
  obtain ⟨huse, heq⟩ := hr.blocks b
  by_cases h0 : (m.blocks b).ptr = 0
  · exact .inr ⟨not_not.mp fun hb => huse.mp hb h0, absurd h0⟩
  · exact .inl (heq h0)

end Held

/-! ## §2. What `proc_wait` frees. -/

/-- The pointers that the loop of `memctx_destroy` passes to `mem_free`, in order. -/
def freedBlocks (ctxId : ℤ) : List BlockSlot → MemctxState → List ℕ
  | [], _ => []
  | b :: rest, m =>
    if (m.blocks b).ptr ≠ 0 ∧ (m.blocks b).ctxId = ctxId then
      (m.blocks b).ptr ::
        match heapFree m (m.blocks b).ptr (m.blocks b).size with
        | none => []
        | some m => freedBlocks ctxId rest (m.setBlock b MemctxBlock.zero)
    else freedBlocks ctxId rest m

/-- The pointers that `proc_wait` passes to `mem_free`, in order. -/
def waitFrees (s : ProcState) (parentPid childPid : ℤ) : List ℕ :=
  match findProc s childPid with
  | none => []
  | some i =>
    let child := (s.procs i).info
    if child.parentPid ≠ parentPid ∨ child.state ≠ .exited then []
    else
      match findCtx s.memctx child.memctx with
      | none => []
      | some _ => freedBlocks child.memctx (List.finRange 128) s.memctx

section Wait

variable {m m' : MemctxState} {ctxId : ℤ}

theorem freedBlocks_carried {b : BlockSlot} {l : List BlockSlot} (h : Freeable m ctxId)
    (hb : m.Carries ctxId b) :
    freedBlocks ctxId (b :: l) m = (m.blocks b).ptr :: freedBlocks ctxId l (dropBlock m b) := by
  obtain ⟨n, hlive, hsize⟩ := h.backed b hb
  show (if m.Carries ctxId b then _ else _) = _
  rw [if_pos hb, heapFree_eq hlive hsize]
  rfl

/-- The loop frees the entries of the context, each once. -/
theorem freedBlocks_eq (l : List BlockSlot) (hl : l.Nodup) (h : Freeable m ctxId) :
    freedBlocks ctxId l m = (l.filter fun b => m.Carries ctxId b).map fun b => (m.blocks b).ptr := by
  induction l generalizing m with
  | nil => rfl
  | cons b l ih =>
    obtain ⟨hmem, hl⟩ := nodup_cons.mp hl
    by_cases hb : m.Carries ctxId b
    · -- the rest of the list does not meet `b` again
      have hne : ∀ {b'}, b' ∈ l → b' ≠ b := by
        intro b' hb' he
        rw [he] at hb'
        exact hmem hb'
      rw [freedBlocks_carried h hb, ih hl (h.dropBlock hb), filter_cons_of_pos (by simpa using hb),
        map_cons]
      congr 1
      have hfilter : (l.filter fun b' => (dropBlock m b).Carries ctxId b') =
          l.filter fun b' => m.Carries ctxId b' := by
        refine filter_congr fun b' hb' => ?_
        rw [decide_eq_decide, dropBlock_carries]
        exact and_iff_left (hne hb')
      rw [hfilter]
      refine map_congr_left fun b' hb' => ?_
      rw [dropBlock_block (hne (mem_filter.mp hb').1)]
    · show (if m.Carries ctxId b then _ else _) = _
      rw [if_neg hb, ih hl h, filter_cons_of_neg (by simpa using hb)]

theorem freedBlocks_nodup (h : Freeable m ctxId) :
    (freedBlocks ctxId (List.finRange 128) m).Nodup := by
  rw [freedBlocks_eq _ (nodup_finRange 128) h]
  refine List.Nodup.map_on (fun b hb b' hb' heq => ?_) ((nodup_finRange 128).filter _)
  exact h.apart b b' (by simpa using (mem_filter.mp hb).2)
    (by simpa using (mem_filter.mp hb').2) heq

theorem mem_freedBlocks (h : Freeable m ctxId) (p : ℕ) :
    p ∈ freedBlocks ctxId (List.finRange 128) m ↔ Carried m ctxId p := by
  rw [freedBlocks_eq _ (nodup_finRange 128) h]
  simp [Carried]

/-- The context of another process after `memctx_destroy`. -/
structure Spared (m m' : MemctxState) (c : CtxSlot) : Prop where
  context : m'.contexts c = m.contexts c
  blocks : ∀ b, m'.Carries (m.contexts c).id b ↔ m.Carries (m.contexts c).id b
  block : ∀ b, m.Carries (m.contexts c).id b →
    m'.blocks b = m.blocks b ∧ m'.live (m.blocks b).ptr = m.live (m.blocks b).ptr

theorem Destroyed.spared {i c : CtxSlot} (hd : Destroyed m ctxId i m') (hok : BlocksOk m)
    (hi : findCtx m ctxId = some i) (hne : (m.contexts c).id ≠ ctxId) : Spared m m' c := by
  obtain ⟨hactive, hid⟩ := findCtx_some hi
  have hci : c ≠ i := by
    intro he
    rw [he] at hne
    exact hne hid
  have hnot : ∀ {b}, m.Carries (m.contexts c).id b → ¬ m.Carries ctxId b := by
    intro b hb hb'
    exact hne (hb.2.symm.trans hb'.2)
  have hkept : ∀ {b}, m.Carries (m.contexts c).id b → m'.blocks b = m.blocks b := by
    intro b hb
    rw [hd.blocks b, if_neg (hnot hb)]
  refine ⟨?_, fun b => ⟨fun hb => ?_, fun hb => ?_⟩, fun b hb => ⟨hkept hb, ?_⟩⟩
  · rw [hd.contexts, update_of_ne hci]
  · unfold MemctxState.Carries at hb
    rw [hd.blocks b] at hb
    split at hb
    · exact absurd rfl hb.1
    · exact hb
  · unfold MemctxState.Carries
    rw [hkept hb]
    exact hb
  · rw [hd.live, if_neg]
    rintro ⟨b', hb', heq⟩
    rw [hok.apart b' b hb'.1 heq] at hb'
    exact hnot hb hb'

end Wait

/-! ## §3. Runs. -/

/-- The state, the calls of `proc_start_flat` that have not returned, and the holders. -/
structure Books where
  state : ProcState
  frames : List (ℤ × ℤ)
  held : Holders

/-- One step, with the creations limited by `guard`: a call, a spawn up to the start of its
program, or the start and the end of a program.  The heap hands out no live pointer. -/
inductive BookStep (guard : ProcState → Prop) : Books → Books → Prop
  | call {b : Books} {env : Env} {op : Op} {r : Ret} {s' : ProcState}
      (hop : op.Creates → guard b.state) (hheap : FreshIn env b.state)
      (h : exec env b.state op = .ok (r, s')) :
      BookStep guard b
        ⟨s', b.frames, b.held.next (recipient op) b.state.memctx.live s'.memctx.live⟩
  | spawn {b : Books} {env : SpawnEnv} {parentPid : ℤ} {path : Str} {p : Prepared}
      {s' : ProcState} (hguard : guard b.state) (hheap : FreshHeap env)
      (h : spawnPrepare env b.state parentPid path = .ok (p, s')) :
      BookStep guard b
        ⟨s', b.frames, b.held.next b.state.nextPid b.state.memctx.live s'.memctx.live⟩
  | enter {b : Books} {pid : ℤ} {s' : ProcState} (h : startEnter b.state pid = some s') :
      BookStep guard b ⟨s', (pid, b.state.currentPid) :: b.frames, b.held⟩
  | leave {s s' : ProcState} {pid previous : ℤ} {frames : List (ℤ × ℤ)} {held : Holders}
      (h : startLeave s pid previous = .ok s') :
      BookStep guard ⟨s, (pid, previous) :: frames, held⟩ ⟨s', frames, held⟩

/-- Any number of steps. -/
abbrev BookRun (guard : ProcState → Prop) : Books → Books → Prop :=
  Relation.ReflTransGen (BookStep guard)

/-- After `proc_init`; nobody holds anything. -/
def firstBooks (s : ProcState) : Books := ⟨procInit s, [], fun _ => none⟩

/-- `next_pid` has not wrapped. -/
def Unworn (s : ProcState) : Prop := 0 < s.nextPid

section Runs

/-- **Every step keeps the invariant and the books.** -/
theorem BookStep.keeps {b b' : Books} (hstep : BookStep Unworn b b')
    (h : Tenants b.state ∧ HeldOk b.held b.state.memctx) :
    Tenants b'.state ∧ HeldOk b'.held b'.state.memctx := by
  obtain ⟨ht, hheld⟩ := h
  cases hstep with
  | call hop hheap hexec =>
    have hstep := exec_tenants ht hop hheap hexec
    exact ⟨hstep.tenants ht, hstep.held ht hheld⟩
  | spawn hguard hheap hspawn =>
    obtain ⟨ht', hend, -⟩ := spawnPrepare_tenants hheap ht hguard hspawn
    refine ⟨ht', ?_⟩
    rcases hend with hrestored | ⟨i, c, hspawning⟩
    · exact hheld.restored ht.ctx hrestored.memctx ht'.ctx
    · have hnext := hheld.spawning ht.ctx hspawning.charged ht'.ctx
      rw [ht.same] at hnext
      exact hnext
  | enter henter =>
    have hidle := startEnter_idle henter
    refine ⟨(hidle.step 0).tenants ht, ?_⟩
    show HeldOk b.held _
    rw [hidle.memctx]
    exact hheld
  | leave hleave =>
    have hidle := startLeave_idle hleave
    refine ⟨(hidle.step 0).tenants ht, ?_⟩
    dsimp only at hheld ⊢
    rw [hidle.memctx]
    exact hheld

theorem BookRun.keeps {s : ProcState} {b : Books} (hrun : BookRun Unworn (firstBooks s) b) :
    Tenants b.state ∧ HeldOk b.held b.state.memctx := by
  refine inv_of_run (fun b : Books => Tenants b.state ∧ HeldOk b.held b.state.memctx) hrun
    ⟨procInit_tenants s, fun p q => ?_⟩ fun h hstep => hstep.keeps h
  refine ⟨fun he => (by cases he), ?_⟩
  rintro ⟨b, hb, -⟩
  exact absurd rfl hb.1

variable {s : ProcState}

/-- **What holds after every run.** -/
structure Reclaims (s : ProcState) (held : Holders) : Prop where
  paired : ∃ e : {i // (s.procs i).used = true} ≃ {c // (s.memctx.contexts c).active = true},
    ∀ i, (s.memctx.contexts (e i)).id = (s.procs i).info.memctx ∧
      (s.memctx.contexts (e i)).ownerPid = (s.procs i).info.pid
  /-- `memctx_create` does not fail in `proc_create`; only a full table does. -/
  creates : Unworn s → ∀ name parentPid, Accepts s parentPid →
    0 ≤ (memctxCreate s.memctx s.nextPid 0).1 ∧
      ((procCreate s name parentPid).1 < 0 ↔ freeProc s = none)
  /-- `proc_wait` comes back. -/
  returns : ∀ parentPid childPid, ∃ r, procWait s parentPid childPid = .ok r
  waits : ∀ parentPid childPid st s', procWait s parentPid childPid = .ok (some st, s') →
    (waitFrees s parentPid childPid).Nodup ∧
      (∀ p, p ∈ waitFrees s parentPid childPid ↔ held p = some childPid) ∧
      (∀ p, s'.memctx.live p =
        if p ∈ waitFrees s parentPid childPid then none else s.memctx.live p) ∧
      ∀ c, (s.memctx.contexts c).active = true → (s.memctx.contexts c).ownerPid ≠ childPid →
        Spared s.memctx s'.memctx c

theorem Tenants.wait_returns (h : Tenants s) (parentPid childPid : ℤ) :
    ∃ r, procWait s parentPid childPid = .ok r := by
  unfold procWait
  split
  · exact ⟨_, rfl⟩
  rename_i i hi
  dsimp only
  split
  · exact ⟨_, rfl⟩
  obtain ⟨ok, m, hm⟩ := (h.ctx.freeable (s.procs i).info.memctx).destroys
  rw [hm]
  exact ⟨_, rfl⟩

/-- **Contexts and processes stand one to one**, and `proc_wait` frees what its child holds. -/
theorem Tenants.reclaims {held : Holders} (h : Tenants s) (hheld : HeldOk held s.memctx) :
    Reclaims s held where
  paired := by
    choose f hactive hid using fun i : {i // (s.procs i).used = true} => (h.row i i.2).housed
    have hbij : Function.Bijective fun i =>
        (⟨f i, hactive i⟩ : {c // (s.memctx.contexts c).active = true}) := by
      constructor
      · intro i j hij
        have hf : f i = f j := congrArg Subtype.val hij
        refine Subtype.ext (h.distinct i j i.2 j.2 ?_)
        rw [← hid i, ← hid j, hf]
      · rintro ⟨c, hc⟩
        obtain ⟨-, i, hi, hic⟩ := h.owned c hc
        refine ⟨⟨i, hi⟩, Subtype.ext (h.ctx.distinct _ _ (hactive _) hc ?_)⟩
        rw [hid ⟨i, hi⟩, hic]
    refine ⟨Equiv.ofBijective _ hbij, fun i => ?_⟩
    show (s.memctx.contexts (f i)).id = _ ∧ (s.memctx.contexts (f i)).ownerPid = _
    rw [(h.owned _ (hactive i)).1, hid i, (h.row i i.2).memctx]
    exact ⟨rfl, rfl⟩
  creates := by
    intro hpos name parentPid haccepts
    obtain ⟨c, hc⟩ := h.ctx_free
    have hctx : 0 ≤ (memctxCreate s.memctx s.nextPid 0).1 := by
      rw [memctxCreate_free hc, h.same]
      exact hpos.le
    refine ⟨hctx, ?_⟩
    rcases procCreate_cases s name parentPid with
      ⟨r, hr, heq, hfull⟩ | ⟨i, hi, -, ⟨hneg, -⟩ | ⟨-, heq⟩⟩
    · rw [heq]
      exact iff_of_true hr (hfull haccepts).1
    · exact absurd hneg (not_lt.mpr hctx)
    · rw [heq, hi]
      exact iff_of_false (not_lt.mpr hpos.le) (by simp)
  returns := h.wait_returns
  waits := by
    intro parentPid childPid st s' hwait
    rcases procWait_cases hwait with ⟨hnone, -⟩ | ⟨i, ok, m, hi, hparent, hstate, hm, -, rfl⟩
    · cases hnone
    obtain ⟨hused, hpid⟩ := findProc_some hi
    have hid : (s.procs i).info.memctx = childPid := (h.row i hused).memctx.trans hpid
    obtain ⟨c, hc⟩ := h.ctx_found hused
    have hfreeable := h.ctx.freeable childPid
    rw [hid] at hc hm
    obtain ⟨m', hm', hd⟩ := hfreeable.memctxDestroy hc
    rw [hm] at hm'
    cases hm'
    have hfrees : waitFrees s parentPid childPid =
        freedBlocks childPid (List.finRange 128) s.memctx := by
      unfold waitFrees
      rw [hi]
      dsimp only
      rw [if_neg (by simp [hparent, hstate]), hid, hc]
    rw [hfrees]
    refine ⟨freedBlocks_nodup hfreeable, fun p => ?_, fun p => ?_, fun d hactive howner => ?_⟩
    · rw [mem_freedBlocks hfreeable]
      exact (hheld p childPid).symm
    · refine (hd.live p).trans (if_congr ?_ rfl rfl)
      exact (mem_freedBlocks hfreeable p).symm
    · refine hd.spared h.ctx hc ?_
      rw [← (h.owned d hactive).1]
      exact howner

/-- **The memory of a process comes back**: after every run from `proc_init` in which no
process is created once `next_pid` has wrapped. -/
theorem memory_reclaimed {b : Books} (hrun : BookRun Unworn (firstBooks s) b) :
    Reclaims b.state b.held := by
  obtain ⟨h, hheld⟩ := hrun.keeps
  exact h.reclaims hheld

end Runs

/-- A heap that answers one pointer. -/
def onePointer (p : ℕ) : Env := ⟨fun _ => p, fun _ => none⟩

/-- One more call, with that heap. -/
theorem BookRun.call {guard : ProcState → Prop} {first b : Books} (h : BookRun guard first b)
    (p : ℕ) (op : Op) {r : Ret} {s' : ProcState} (hop : op.Creates → guard b.state)
    (hp : p = 0 ∨ b.state.memctx.live p = none)
    (hexec : exec (onePointer p) b.state op = .ok (r, s')) :
    BookRun guard first
      ⟨s', b.frames, b.held.next (recipient op) b.state.memctx.live s'.memctx.live⟩ :=
  h.tail (.call hop (fun _ => hp) hexec)

/-- Process 2 is created, allocates, and exits; what it holds is there for `proc_wait`. -/
theorem memory_reclaimed_child : ∃ b, BookRun Unworn (firstBooks blank) b ∧
    b.held 0x2000 = some 2 ∧ Reclaims b.state b.held := by
  have h₁ := BookRun.call (.refl : BookRun Unworn (firstBooks blank) _) 0
    (.create [] 0) (fun _ => (by decide : (0 : ℤ) < 1)) (.inl rfl) rfl
  have h₂ := h₁.call 0 (.create [] 1) (fun _ => (by decide : (0 : ℤ) < 2)) (.inl rfl) rfl
  have h₃ := h₂.call 0x2000 (.alloc 2 8) (fun h => h.elim) (.inr rfl) rfl
  have h₄ := h₃.call 0 (.exit 2 7) (fun h => h.elim) (.inl rfl) rfl
  exact ⟨_, h₄, rfl, memory_reclaimed h₄⟩

/-! ## §4. After the wrap. -/

/-- Process 1 alone, not running, with both counters at `next`. -/
def alone (next : ℤ) : ProcState := { initOnly next with currentPid := 0 }

theorem procInit_create : ∃ r, exec (onePointer 0) (procInit (alone 0)) (.create [] 0) =
    .ok (r, alone 2) := by
  have hprocs : update (fun _ : ProcSlot => ProcEntry.zero) 0 (newEntry 1 0 1 []) =
      (alone 2).procs := funext fun _ => update_apply ..
  have hctx : update (fun _ : CtxSlot => Memctx.zero) 0 ⟨true, 1, 1, ⟨0, 0, 0, 0⟩⟩ =
      (alone 2).memctx.contexts := funext fun _ => update_apply ..
  refine ⟨.int 1, ?_⟩
  show Except.ok (Ret.int 1, ({ procInit (alone 0) with
    procs := update (fun _ => ProcEntry.zero) 0 (newEntry 1 0 1 [])
    nextPid := 2
    memctx := { (procInit (alone 0)).memctx with
      contexts := update (fun _ => Memctx.zero) 0 ⟨true, 1, 1, ⟨0, 0, 0, 0⟩⟩
      nextCtxId := 2 } } : ProcState)) = _
  rw [hprocs, hctx]
  rfl

/-- A spawn by process 1 gets as far as the second slots. -/
theorem alone_reaches (next : ℤ) : Reaches (alone next) 1 pathP 1 1 := by
  have hfind : findProc (alone next) 1 = some 0 := rfl
  refine ⟨?_, .inr ⟨by decide, 0, hfind⟩, ⟨⟨.file, 1, 2, 0⟩, rfl, rfl, by decide⟩, rfl, rfl⟩
  rw [hfind]
  exact Option.some_ne_none 0

theorem alone_unclaimed {next : ℤ} (h : 2 ≤ next) : Unclaimed (alone next) 1 1 := by
  have hnonneg : 0 ≤ next := by omega
  have hne : (1 : ℤ) ≠ next := by omega
  refine ⟨hnonneg, fun j hj _ => ?_, hnonneg, fun d hd _ => ?_, fun b hb => hb.1 rfl⟩
  · rw [show j = 0 from Fin.ext (Nat.lt_one_iff.mp hj)]
    exact hne
  · rw [show d = 0 from Fin.ext (Nat.lt_one_iff.mp hd)]
    exact hne

/-- **A failed spawn**: only the counters have moved. -/
theorem alone_spawn {next : ℤ} (h : 2 ≤ next) : spawnPrepare noHeap (alone next) 1 pathP =
    .ok (.failed procErrNomem, alone (toInt (next + 1))) := by
  have hu := alone_unclaimed h
  have hreach := alone_reaches next
  have hspawning := spawning_spawned hu hreach.ctx 1 pathP
  -- the second slots are written twice, and are what they were
  have hprocs : update (spawned (alone next) 1 1 pathP).procs 1 ProcEntry.zero =
      (alone next).procs := by
    show update (update (alone next).procs 1 _) 1 _ = _
    rw [update_idem]
    exact update_eq_self 1 (alone next).procs
  have hctx : update (spawned (alone next) 1 1 pathP).memctx.contexts 1 Memctx.zero =
      (alone next).memctx.contexts := by
    rw [spawned_memctx hreach.ctx]
    show update (update (alone next).memctx.contexts 1 _) 1 _ = _
    rw [update_idem]
    exact update_eq_self 1 (alone next).memctx.contexts
  have hdestroy : memctxDestroy (spawned (alone next) 1 1 pathP).memctx
      ((spawned (alone next) 1 1 pathP).procs 1).info.memctx = some (true,
        (spawned (alone next) 1 1 pathP).memctx.setCtx 1 Memctx.zero) := by
    rw [hspawning.memctx]
    unfold memctxDestroy
    rw [hspawning.charged.findCtx hu.ctx]
    dsimp only
    rw [freeBlocks_none]
    · rfl
    · rw [spawned_memctx hreach.ctx]
      exact hu.ctx.blocks
  have habandon := abandon_spawned (hspawning.findProc hu) hdestroy
  refine hreach.spawnPrepare_noHeap hu.ctx.nonneg hu.nonneg (habandon.trans ?_)
  unfold MemctxState.setCtx ProcState.setProc
  dsimp only
  rw [hprocs, hctx, spawned_memctx hreach.ctx]
  rfl

/-- `k` of them. -/
theorem alone_spawns (k : ℕ) (hk : k ≤ 2 ^ 31 - 2) : ∃ held,
    BookRun (fun _ => True) (firstBooks (alone 0)) ⟨alone (toInt (2 + k)), [], held⟩ := by
  induction k with
  | zero =>
    obtain ⟨r, hcreate⟩ := procInit_create
    exact ⟨_, .single (.call (fun _ => trivial) (fun _ => .inl rfl) hcreate)⟩
  | succ k ih =>
    obtain ⟨held, hrun⟩ := ih (by omega)
    have hnext : toInt (2 + k) = 2 + k := toInt_of_range (by omega) (by omega)
    rw [hnext] at hrun
    have hspawn := alone_spawn (show (2 : ℤ) ≤ 2 + k by omega)
    have hstep : BookStep (fun _ => True) ⟨alone (2 + k), [], held⟩
        ⟨alone (toInt (2 + k + 1)), [], _⟩ := .spawn trivial noHeap_fresh hspawn
    rw [show (2 : ℤ) + ((k + 1 : ℕ) : ℤ) = 2 + k + 1 by push_cast; ring]
    exact ⟨_, hrun.tail hstep⟩

/-- **A context without a process**: the `2^31`-th creation answers `PROC_ERR_NOMEM` and
leaves an active context that no process names. -/
theorem context_leaks : ∃ b, BookRun (fun _ => True) (firstBooks (alone 0)) b ∧
    (b.state.memctx.contexts 1).active = true ∧
    ∀ i, (b.state.procs i).used = true →
      (b.state.procs i).info.memctx ≠ (b.state.memctx.contexts 1).id := by
  obtain ⟨held, hrun⟩ := alone_spawns (2 ^ 31 - 2) le_rfl
  have hnext : toInt (2 + ((2 ^ 31 - 2 : ℕ) : ℤ)) = -2 ^ 31 := by decide
  rw [hnext] at hrun
  have hreach := alone_reaches (-2 ^ 31)
  have hcreate : procCreate (alone (-2 ^ 31)) [] 1 =
      (procErrNomem, enrolled (alone (-2 ^ 31)) 1 ProcEntry.zero) := by
    rcases hreach.procCreate [] with ⟨-, heq⟩ | ⟨hctx, -⟩
    · exact heq
    · exact absurd hctx (show ¬ (0 : ℤ) ≤ -2 ^ 31 by decide)
  have hexec : exec (onePointer 0) (alone (-2 ^ 31)) (.create [] 1) =
      .ok (.int procErrNomem, enrolled (alone (-2 ^ 31)) 1 ProcEntry.zero) := by
    show Except.ok ((procCreate (alone (-2 ^ 31)) [] 1).map Ret.int id) = _
    rw [hcreate]
    rfl
  have hctx : (enrolled (alone (-2 ^ 31)) 1 ProcEntry.zero).memctx.contexts 1 =
      ⟨true, -2 ^ 31, -2 ^ 31, ⟨0, 0, 0, 0⟩⟩ := by
    show (memctxCreate (alone (-2 ^ 31)).memctx (-2 ^ 31) 0).2.contexts 1 = _
    rw [memctxCreate_free hreach.ctx, opened_context, if_pos rfl]
    rfl
  refine ⟨_, hrun.call 0 (.create [] 1) (fun _ => trivial) (.inl rfl) hexec, ?_, ?_⟩
  · show ((enrolled (alone (-2 ^ 31)) 1 ProcEntry.zero).memctx.contexts 1).active = true
    rw [hctx]
  · intro i hi
    show ((enrolled (alone (-2 ^ 31)) 1 ProcEntry.zero).procs i).info.memctx ≠
      ((enrolled (alone (-2 ^ 31)) 1 ProcEntry.zero).memctx.contexts 1).id
    rw [hctx]
    revert i
    refine (forall_update_iff (alone (-2 ^ 31)).procs (p := fun _ x => x.used = true →
      x.info.memctx ≠ -2 ^ 31)).mpr ⟨fun hx => (by cases hx), fun i _ hi => ?_⟩
    have hi0 : i = 0 := by
      by_contra hne
      rw [show (alone (-2 ^ 31)).procs i = ProcEntry.zero from if_neg hne] at hi
      cases hi
    subst hi0
    exact (by decide : (1 : ℤ) ≠ -2 ^ 31)

end ExoCore.Proc
