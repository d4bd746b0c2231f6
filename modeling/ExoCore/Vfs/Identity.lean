/-
  ExoCore.Vfs.Identity — a descriptor denotes THE NODE IT WAS OPENED ON.

  `open_files` holds a bare index, and `vfs_unlink` and `vfs_rmdir` give indices
  back.  To tell a node from a later one in the same slot, a run is traced with
  ghost stamps: `born i` is the time the node in slot `i` was created.

    * `descriptor_identity` — as long as no slot that an open descriptor refers to
      is handed out again, a call on a descriptor fails and touches nothing, or reads
      and changes the node its `vfs_open` found or made, and no other;
    * `descriptor_reused` — `open /a`, `unlink /a`, `open /b`: the first
      descriptor now works on `/b`.
-/
import ExoCore.Vfs.Growth
import ExoCore.Vfs.Slots

namespace ExoCore.Vfs

open ExoCore.Lib Function

/-! ## §1. Traced runs. -/

/-- A state with the time and the birth time of every slot's node. -/
structure Traced where
  vfs : VfsState
  clock : ℕ
  born : NodeId → ℕ

/-- One call, traced: a slot that becomes used holds a new node. -/
structure TCall (guard : VfsState → Op → Prop) (t : Traced) (op : Op) (r : Ret) (t' : Traced) :
    Prop where
  call : Call guard t.vfs op r t'.vfs
  clock : t'.clock = t.clock + 1
  born : ∀ i, t'.born i =
    if (t.vfs.nodes i).used = false ∧ (t'.vfs.nodes i).used = true then t.clock + 1 else t.born i

def TStep (guard : VfsState → Op → Prop) (t t' : Traced) : Prop := ∃ op r, TCall guard t op r t'

abbrev TRun (guard : VfsState → Op → Prop) : Traced → Traced → Prop :=
  Relation.ReflTransGen (TStep guard)

/-- The start of a traced run: `vfs_init`, at time `0`. -/
def tracedInit (s : VfsState) : Traced := ⟨(vfsInit s).2, 0, fun _ => 0⟩

/-- The call takes a slot from `alloc_node`. -/
def Creates (s : VfsState) : Op → Prop
  | .mkdir path => ∃ p leaf, resolveParent s path = some (p, leaf) ∧ findChild s p leaf = none
  | .open path flags => resolvePath s path = none ∧ hasFlag flags vfsOCreat = true ∧
      ∃ p leaf, resolveParent s path = some (p, leaf)
  | _ => False

/-- No open descriptor refers to the slot that a creating call takes. -/
def NoReuse (s : VfsState) (op : Op) : Prop :=
  Creates s op → ∀ i, freeNode s = some i →
    ∀ k, (s.openFiles k).used = true → (s.openFiles k).node ≠ i

/-! ## §2. What a call does to the descriptor table. -/

/-- Open slots stay open on their node. -/
def SlotsKept (s s' : VfsState) : Prop :=
  ∀ k, (s.openFiles k).used = true →
    (s'.openFiles k).used = true ∧ (s'.openFiles k).node = (s.openFiles k).node

section Slots

variable {alloc : Allocator} {s s' s'' : VfsState}

theorem SlotsSame.kept (h : SlotsSame s s') : SlotsKept s s' := by
  intro k hk
  obtain ⟨h1, h2⟩ := h k
  exact ⟨h1.trans hk, h2⟩

theorem slotsKept_of_eq (h : s'.openFiles = s.openFiles) : SlotsKept s s' := by
  intro k hk
  rw [h]
  exact ⟨hk, rfl⟩

/-- Moving the cursor of a slot, or filling an unused one. -/
theorem slotsKept_setOpen {slot : Slot} {o : VfsOpen}
    (h : (s.openFiles slot).used = true → o.used = true ∧ o.node = (s.openFiles slot).node) :
    SlotsKept s (s.setOpen slot o) := by
  intro k hk
  by_cases hks : k = slot
  · subst hks
    simpa [VfsState.setOpen] using h hk
  · simpa [VfsState.setOpen, hks] using hk

theorem dropNode_openFiles {node : NodeId} {b : Bool} (h : dropNode s node = .ok (b, s')) :
    s'.openFiles = s.openFiles := by
  obtain ⟨bufs, rfl⟩ := dropNode_frame h
  rfl

/-- A slot is taken only when it is not in use. -/
theorem claimSlot_slotsKept (s : VfsState) (node : NodeId) (flags : ℕ) :
    SlotsKept s (claimSlot s node flags).2 := by
  unfold claimSlot
  split
  · exact slotsKept_of_eq rfl
  · rename_i fd hfd
    have hfree := List.find?_some hfd
    refine slotsKept_setOpen fun hused => ?_
    rw [hused] at hfree
    cases hfree

/-- **Only `close` takes a descriptor off its node.** -/
theorem exec_slotKept {op : Op} {r : Ret} (h : exec alloc s op = .ok (r, s')) {k : Slot}
    (hk : (s.openFiles k).used = true) (hop : op ≠ .close (k.val : ℤ)) :
    (s'.openFiles k).used = true ∧ (s'.openFiles k).node = (s.openFiles k).node := by
  cases exec_effect h with
  | none => exact ⟨hk, rfl⟩
  | mkdir _ _ halloc => exact slotsKept_of_eq (allocNode_openFiles halloc) k hk
  | unlink _ _ _ _ hdrop => exact slotsKept_of_eq (dropNode_openFiles hdrop) k hk
  | rmdir _ _ _ _ hdrop => exact slotsKept_of_eq (dropNode_openFiles hdrop) k hk
  | rename _ _ _ _ => exact ⟨hk, rfl⟩
  | chdir _ _ => exact ⟨hk, rfl⟩
  | @«open» path flags node s₁ hnode =>
    have hfiles : (truncated s₁ node flags).openFiles = s.openFiles :=
      (truncated_openFiles s₁ node flags).trans (openNode_openFiles hnode)
    have hkept := claimSlot_slotsKept (truncated s₁ node flags) node flags k
    rw [hfiles] at hkept
    exact hkept hk
  | @close fd j hj =>
    have hne : k ≠ j := by
      rintro rfl
      exact hop (congrArg Op.close (openSlot_some hj).1)
    show (update s.openFiles j VfsOpen.zero k).used = true ∧
      (update s.openFiles j VfsOpen.zero k).node = (s.openFiles k).node
    rw [update_of_ne hne]
    exact ⟨hk, rfl⟩
  | read | lseek | getdents => exact (slotsSame_setOpen s _ _).kept k hk
  | write _ _ hwrite => exact (writeFile_slots hwrite).kept k hk

end Slots

/-! ## §3. The node behind an open descriptor. -/

section Identity

variable {alloc : Allocator} {s s' : VfsState}

variable {op : Op} {n : NodeId} {fd : Slot}

/-- **The node of an open descriptor** is not replaced: it keeps its inode number
as long as it is used, and its slot does not come back to life. -/
theorem TreeStep.node_kept (h : TreeStep s op s') (hok : NoReuse s op) {k : Slot}
    (hk : (s.openFiles k).used = true) (hn : (s.openFiles k).node = n) :
    (s'.entry n).used = true →
      (s.entry n).used = true ∧ (s'.entry n).inode = (s.entry n).inode := by
  intro hused
  have hadds : ∀ {i p : NodeId} {t : NodeType} {leaf : Str}, Creates s op →
      Adds s s' i t p leaf → (s.entry n).used = true ∧ (s'.entry n).inode = (s.entry n).inode := by
    intro i p t leaf hcr hadd
    have hni : n ≠ i := fun hni => hok hcr i hadd.free k hk (hn.trans hni)
    rw [hadd.entry, update_of_ne hni] at hused ⊢
    exact ⟨hused, rfl⟩
  cases h with
  | same h =>
    rw [h.entry] at hused ⊢
    exact ⟨hused, rfl⟩
  | mkdir hpath hnew h => exact hadds ⟨_, _, hpath, hnew⟩ h
  | create hnone hcreat hpath h => exact hadds ⟨hnone, hcreat, _, _, hpath⟩ h
  | rename hold hroot hpath hnew h =>
    rw [(h.kept n).1] at hused
    exact ⟨hused, (h.kept n).2.2⟩
  | remove hop hpath h =>
    have hsame := kept_of_cleared h.entry hused
    rw [hsame] at hused ⊢
    exact ⟨hused, rfl⟩
  | chdir _ _ hentry _ _ =>
    rw [hentry] at hused ⊢
    exact ⟨hused, rfl⟩

/-- What is known of the descriptor `fd` that was opened on `n` at time `when`. -/
structure Denotes (t : Traced) (fd : Slot) (n : NodeId) (ino when : ℕ) : Prop where
  wf : Wf t.vfs
  used : (t.vfs.openFiles fd).used = true
  node : (t.vfs.openFiles fd).node = n
  same : (t.vfs.nodes n).used = true → (t.vfs.nodes n).inode = ino ∧ t.born n ≤ when

/-- **One call keeps what a descriptor denotes.** -/
theorem Denotes.step {t t' : Traced} {ino when : ℕ}
    (h : Denotes t fd n ino when)
    (hstep : TStep (fun s op => NoReuse s op ∧ op ≠ .close (fd.val : ℤ)) t t') :
    Denotes t' fd n ino when := by
  obtain ⟨op, r, ⟨⟨hok, hclose⟩, alloc, -, hexec⟩, -, hborn⟩ := hstep
  have htree := exec_tree hexec
  obtain ⟨hu, hn⟩ := exec_slotKept hexec h.used hclose
  refine ⟨htree.wf h.wf, hu, hn.trans h.node, ?_⟩
  intro hused
  obtain ⟨hold, hino⟩ := htree.node_kept hok h.used h.node hused
  obtain ⟨h1, h2⟩ := h.same hold
  refine ⟨hino.trans h1, ?_⟩
  rw [hborn n, if_neg]
  · exact h2
  · rintro ⟨hfalse, -⟩
    have hold' : (t.vfs.nodes n).used = true := hold
    rw [hfalse] at hold'
    cases hold'

/-- The calls that work on the node of a descriptor. -/
def UsesFd (fd : ℤ) : Op → Prop
  | .read fd' _ _ => fd' = fd
  | .write fd' _ => fd' = fd
  | .fstat fd' => fd' = fd
  | .getdents fd' _ _ => fd' = fd
  | _ => False

/-- Neither a node nor a buffer changed. -/
def Untouched (s s' : VfsState) : Prop := s'.nodes = s.nodes ∧ s'.bufs = s.bufs

/-- **The call works on node `n`**: what it answers is read there, what it stores is stored there,
and it changes nothing else. -/
def ActsOn (s : VfsState) (fd : Slot) (n : NodeId) (s' : VfsState) : Op → Ret → Prop
  | .read _ _ _, r => Untouched s s' ∧ ∃ l, r = .bytes l ∧
      readBuf s (s.nodes n).data (s.openFiles fd).offset l.length = .ok l
  | .write _ buf, r => Touches s s' n ∧ ∃ bytes, buf = some bytes ∧ r = .count bytes.length ∧
      readBuf s' (s'.nodes n).data (cursor s fd) bytes.length = .ok bytes
  | .fstat _, r => Untouched s s' ∧ ∃ st, r = .stat st ∧ fillStat s n = some st
  | .getdents _ _ maxEnts, r => Untouched s s' ∧ r = .dents
      (getdentsLoop s n (s.openFiles fd).offset maxEnts (List.finRange 64) 0 0)
  | _, _ => False

/-- **A call through a descriptor** fails and touches nothing, or works on the node in use behind
the descriptor. -/
theorem usesFd_acts (hb : Bounded s) (ha : AllocOk alloc s)
    (hfd : (s.openFiles fd).used = true) (hn : (s.openFiles fd).node = n) {r : Ret}
    (hop : UsesFd (fd.val : ℤ) op) (h : exec alloc s op = .ok (r, s')) :
    (r = .fail ∧ Untouched s s') ∨ ((s.nodes n).used = true ∧ ActsOn s fd n s' op r) := by
  have hslot := openSlot_of_used hfd
  cases exec_effect h with
  | none hidle =>
    cases op with
    | read fd' buf len =>
      cases hop
      obtain ⟨rfl, -⟩ | ⟨rfl, -, k, hk, hfile, -⟩ := hidle
      · exact .inl ⟨rfl, rfl, rfl⟩
      · cases hslot.symm.trans hk
        exact .inr ⟨hn ▸ hb.used_of_file hfile, ⟨rfl, rfl⟩, [], rfl, rfl⟩
    | write fd' buf => exact .inl ⟨hidle.1, rfl, rfl⟩
    | fstat fd' =>
      cases hop
      have hidle : r = Ret.ofOption .stat (fillStat s n) := by
        rw [← hn]
        simpa [Idle, vfsFstat, hslot] using hidle
      subst hidle
      cases hst : fillStat s n with
      | none => exact .inl ⟨rfl, rfl, rfl⟩
      | some st =>
        refine .inr ⟨?_, ⟨rfl, rfl⟩, st, rfl, hst⟩
        by_contra hu
        simp [fillStat, hu] at hst
    | getdents fd' buf maxEnts => exact .inl ⟨hidle, rfl, rfl⟩
    | _ => exact absurd hop id
  | read hk hfile _ _ hread =>
    cases hop
    cases hslot.symm.trans hk
    rw [hn] at hfile hread
    exact .inr ⟨hb.used_of_file hfile, ⟨rfl, rfl⟩, _, rfl, hread⟩
  | getdents hk hdir hl =>
    cases hop
    cases hslot.symm.trans hk
    rw [hn] at hdir hl
    exact .inr ⟨hb.used_of_type (by simp [hdir]), ⟨rfl, rfl⟩, congrArg Ret.dents hl⟩
  | write hk hfile hwrite =>
    cases hop
    cases hslot.symm.trans hk
    obtain ⟨rfl, rfl⟩ | ⟨rfl, hw⟩ := writeFile_returns hb ha hfile hwrite
    · exact .inl ⟨rfl, seekAppend_nodes s fd, seekAppend_bufs s fd⟩
    · rw [hn] at hfile hw
      exact .inr ⟨hb.used_of_file hfile, hw.touches, _, rfl, rfl, hw.back⟩
  | _ => exact absurd hop id

/-- The slot `vfs_open` returns is open on the node it chose. -/
theorem vfsOpen_slot {path : Str} {flags : ℕ}
    (h : vfsOpen alloc s path flags = .ok (some fd, s')) :
    (s'.openFiles fd).used = true ∧
      ∃ s₁, openNode s path flags = some ((s'.openFiles fd).node, s₁) := by
  obtain ⟨-, hr, -⟩ | ⟨node, -, -, hr, -⟩ | ⟨node, s₁, hnode, hclaim⟩ := vfsOpen_cases h
  · cases hr
  · cases hr
  unfold claimSlot at hclaim
  split at hclaim
  · cases hclaim
  · cases hclaim
    simp [VfsState.setOpen, hnode]

/-- Nodes were created in the past. -/
theorem born_le_clock {guard : VfsState → Op → Prop} {s₀ : VfsState} {t : Traced}
    (hrun : TRun guard (tracedInit s₀) t) : Wf t.vfs ∧ ∀ i, t.born i ≤ t.clock := by
  refine inv_of_run (fun t : Traced => Wf t.vfs ∧ ∀ i, t.born i ≤ t.clock) hrun
    ⟨vfsInit_wf s₀, fun _ => Nat.zero_le _⟩ ?_
  rintro a b ⟨hw, hle⟩ ⟨op, r, ⟨-, alloc, -, hexec⟩, hclock, hborn⟩
  refine ⟨(exec_tree hexec).wf hw, fun i => ?_⟩
  have := hle i
  rw [hborn i, hclock]
  split <;> omega

/-- A traced run is a run. -/
theorem TRun.run {guard : VfsState → Op → Prop} {t t' : Traced} (h : TRun guard t t') :
    Run (fun _ _ => True) t.vfs t'.vfs := by
  refine h.lift Traced.vfs fun a b hstep => ?_
  obtain ⟨op, r, ⟨-, hret⟩, -⟩ := hstep
  exact ⟨op, r, trivial, hret⟩

/-- **Descriptor identity.**  A descriptor is opened, and later, not having been
closed, used: the call fails and touches nothing, or the descriptor's node is the one
that `vfs_open` found or made, with the same inode number, not created since, and the
call works on this node and on no other. -/
theorem descriptor_identity {s₀ : VfsState} {t₁ t₂ t₃ : Traced} {path : Str} {flags : ℕ}
    {fd : Slot} (hrun : TRun NoReuse (tracedInit s₀) t₁)
    (hopen : TCall NoReuse t₁ (.open path flags) (.fd fd) t₂)
    (hlater : TRun (fun s op => NoReuse s op ∧ op ≠ .close (fd.val : ℤ)) t₂ t₃) :
    ∃ n, (∃ s₁, openNode t₁.vfs path flags = some (n, s₁)) ∧
      ∀ op r s', UsesFd (fd.val : ℤ) op → Call (fun _ _ => True) t₃.vfs op r s' →
        (r = .fail ∧ Untouched t₃.vfs s') ∨
          ((t₃.vfs.openFiles fd).node = n ∧ (t₃.vfs.nodes n).used = true ∧
            (t₃.vfs.nodes n).inode = (t₂.vfs.nodes n).inode ∧ t₃.born n ≤ t₂.clock ∧
            ActsOn t₃.vfs fd n s' op r) := by
  have hbound : Bounded t₃.vfs := by
    have hstep : Step (fun _ _ => True) t₁.vfs t₂.vfs := ⟨_, _, trivial, hopen.call.ret⟩
    exact run_bounded ((hrun.run.tail hstep).trans hlater.run)
  obtain ⟨-, hborn⟩ := born_le_clock hrun
  obtain ⟨⟨hok, alloc₀, -, hexec⟩, hclock, hborn₂⟩ := hopen
  have hwf₂ := (exec_tree hexec).wf (born_le_clock hrun).1
  obtain ⟨⟨o, t⟩, hret, heq⟩ := map_ok.mp hexec
  have hfd : o = some fd := by
    have h1 := congrArg Prod.fst heq
    cases o with
    | none => cases h1
    | some k =>
      cases h1
      rfl
  have ht : t = t₂.vfs := congrArg Prod.snd heq
  subst hfd
  subst ht
  obtain ⟨hused, hnode⟩ := vfsOpen_slot hret
  -- at the time of the `open`
  have h₂ : Denotes t₂ fd (t₂.vfs.openFiles fd).node
      (t₂.vfs.nodes (t₂.vfs.openFiles fd).node).inode t₂.clock := by
    refine ⟨hwf₂, hused, rfl, fun _ => ⟨rfl, ?_⟩⟩
    have := hborn (t₂.vfs.openFiles fd).node
    rw [hborn₂, hclock]
    split <;> omega
  have h₃ := inv_of_run (fun t => Denotes t fd (t₂.vfs.openFiles fd).node
    (t₂.vfs.nodes (t₂.vfs.openFiles fd).node).inode t₂.clock) hlater h₂
    (fun h hstep => h.step hstep)
  refine ⟨_, hnode, ?_⟩
  intro op r s' hop hcall
  obtain ⟨alloc, ha, hexec'⟩ := hcall.ret
  obtain hfail | ⟨hu, hacts⟩ := usesFd_acts hbound ha h₃.used h₃.node hop hexec'
  · exact .inl hfail
  · obtain ⟨hino, hb⟩ := h₃.same hu
    exact .inr ⟨h₃.node, hu, hino, hb, hacts⟩

end Identity

/-! ## §4. A slot that is handed out again. -/

/-- The traced state after a call. -/
def tracedAfter (alloc : Allocator) (t : Traced) (op : Op) : Traced where
  vfs := after alloc t.vfs op
  clock := t.clock + 1
  born := fun i =>
    if (t.vfs.nodes i).used = false ∧ ((after alloc t.vfs op).nodes i).used = true then t.clock + 1
    else t.born i

theorem tcall_of_answer {guard : VfsState → Op → Prop} {alloc : Allocator} {t : Traced} {op : Op}
    {r : Ret} (ha : AllocOk alloc t.vfs) (hok : guard t.vfs op)
    (h : answer alloc t.vfs op = some r) : TCall guard t op r (tracedAfter alloc t op) :=
  ⟨⟨hok, alloc, ha, exec_of_answer h⟩, rfl, fun _ => rfl⟩

/-- `open /a`, `unlink /a`, `open /b`, the first after `vfs_init`. -/
abbrev openedA : Traced := tracedAfter noMemory (tracedInit blank) (.open pathA rdwrCreat)
abbrev unlinkedA : Traced := tracedAfter noMemory openedA (.unlink pathA)
abbrev openedB : Traced := tracedAfter noMemory unlinkedA (.open pathB rdwrCreat)

/-- A byte is written to `/a`, `/b` is opened, and the cursor on `/a` is set back. -/
abbrev writtenA : Traced := tracedAfter oneBlock openedA (.write 0 (some [0x78]))
abbrev bothOpen : Traced := tracedAfter noMemory writtenA (.open pathB rdwrCreat)
abbrev rewoundA : Traced := tracedAfter noMemory bothOpen (.lseek 0 0 0)

/-- What is read through the first descriptor is what was written to `/a`. -/
theorem descriptor_identity_read :
    ∃ s', Call (fun _ _ => True) rewoundA.vfs (.read 0 true 5) (.bytes [0x78]) s' ∧
      (rewoundA.vfs.openFiles 0).node = 1 ∧
      (rewoundA.vfs.nodes 1).inode = (openedA.vfs.nodes 1).inode ∧
      ActsOn rewoundA.vfs 0 1 s' (.read 0 true 5) (.bytes [0x78]) := by
  have hnode : (rewoundA.vfs.openFiles 0).node = 1 := by decide +kernel
  have hopen : TCall NoReuse (tracedInit blank) (.open pathA rdwrCreat) (.fd 0) openedA := by
    -- right after `vfs_init` no descriptor is open
    refine tcall_of_answer (noMemory_ok _) (fun _ i _ k hk => ?_) (by decide +kernel)
    cases hk
  have hlater : TRun (fun s op => NoReuse s op ∧ op ≠ .close ((0 : Slot).val : ℤ)) openedA rewoundA := by
    refine .tail (.tail (.single ⟨_, .count 1, tcall_of_answer (oneBlock_ok rfl) ?_ ?_⟩)
      ⟨_, .fd 1, tcall_of_answer (noMemory_ok _) ?_ ?_⟩)
      ⟨_, .pos 0, tcall_of_answer (noMemory_ok _) ?_ ?_⟩
    · exact ⟨fun h => absurd h id, nofun⟩
    · decide +kernel
    · refine ⟨fun _ i hi => ?_, nofun⟩
      cases (show freeNode writtenA.vfs = some 2 by decide +kernel).symm.trans hi
      decide +kernel
    · decide +kernel
    · exact ⟨fun h => absurd h id, nofun⟩
    · decide +kernel
  have hcall : Call (fun _ _ => True) rewoundA.vfs (.read 0 true 5) (.bytes [0x78])
      (after noMemory rewoundA.vfs (.read 0 true 5)) :=
    ⟨trivial, noMemory, noMemory_ok _, exec_of_answer (by decide +kernel)⟩
  obtain ⟨n, -, hacts⟩ := descriptor_identity .refl hopen hlater
  obtain ⟨hfail, -⟩ | ⟨hn, -, hino, -, hacts⟩ :=
    hacts (.read 0 true 5) _ _ rfl hcall
  · cases hfail
  · cases hnode.symm.trans hn
    exact ⟨_, hcall, hnode, hino, hacts⟩

/-- **A recycled slot**: after `open /a`, `unlink /a` and `open /b` the first
descriptor is still open, its node carries another inode number and was created
after that `open`, and a write through it changes `/b`. -/
theorem descriptor_reused :
    ∃ t₁ t₂ t₃ path flags fd n, TRun (fun _ _ => True) (tracedInit blank) t₁ ∧
      TCall (fun _ _ => True) t₁ (.open path flags) (.fd fd) t₂ ∧
      TRun (fun _ op => op ≠ .close (fd.val : ℤ)) t₂ t₃ ∧
      resolvePath t₃.vfs pathB = some n ∧ (t₃.vfs.openFiles fd).node = n ∧
      (t₃.vfs.nodes n).inode ≠ (t₂.vfs.nodes (t₂.vfs.openFiles fd).node).inode ∧
      t₂.clock < t₃.born n ∧
      ∃ alloc s', AllocOk alloc t₃.vfs ∧
        exec alloc t₃.vfs (.write (fd.val : ℤ) (some [0x78])) = .ok (.count 1, s') ∧
        s'.nodes n ≠ t₃.vfs.nodes n := by
  refine ⟨tracedInit blank, openedA, openedB, pathA, rdwrCreat, 0, 1, .refl,
    tcall_of_answer (noMemory_ok _) trivial (by decide +kernel), ?_, by decide +kernel, by decide +kernel,
    by decide +kernel, by decide +kernel, oneBlock,
    after oneBlock openedB.vfs (.write 0 (some [0x78])), ?_, exec_of_answer (by decide +kernel),
    by decide +kernel⟩
  · exact .tail (.single ⟨_, _, tcall_of_answer (r := .done) (noMemory_ok _) (fun h => by cases h) (by decide +kernel)⟩)
      ⟨_, _, tcall_of_answer (r := .fd 1) (noMemory_ok _) (fun h => by cases h) (by decide +kernel)⟩
  · exact oneBlock_ok rfl

end ExoCore.Vfs
