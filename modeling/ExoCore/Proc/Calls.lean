/-
  ExoCore.Proc.Calls — the process table of `kernel/proc.c`.

  The statics are `procs`, `next_pid` and `current_pid`; below them stand the memory
  contexts and the VFS.  A call answers as the source does, with its negative error
  codes, or HALTS: `panic`, a bad `mem_free`, or a fault of the VFS.

  `proc_start_flat` runs a program in the middle of the call.  It is therefore cut in
  two, `startEnter` before the program and `startLeave` after it; `procStartFlat` is
  the whole of it around any program.
-/
import ExoCore.Proc.Memctx
import ExoCore.Vfs.Ops
import ExoCore.Elf.Loader

namespace ExoCore.Proc

open ExoCore.Lib ExoCore.Vfs

/-! ## §1. The state. -/

/-- An index into `procs` (`PROC_MAX` is 16). -/
abbrev ProcSlot := Fin 16

/-- An index into `fds` (`PROC_MAX_FDS` is 16). -/
abbrev Fd := Fin 16

/-- The `PROC_STATE_…` constants, in their order. -/
inductive ProcStatus where
  | unused
  | ready
  | running
  | exited
  | zombie
  | dead
  deriving Repr, DecidableEq

/-- `proc_info_t`. -/
structure ProcInfo where
  pid : ℤ
  parentPid : ℤ
  state : ProcStatus
  exitStatus : ℤ
  memctx : ℤ
  name : Str
  cwd : Str
  exePath : Str
  entryPoint : ℕ
  imageBase : ℕ
  imageSize : ℕ
  requestedBase : ℕ
  requestedEnd : ℕ
  stackPointer : ℕ
  deriving Repr, DecidableEq

/-- `proc_entry_t`. -/
structure ProcEntry where
  info : ProcInfo
  used : Bool
  fds : Fd → ℤ

/-- A slot after `memset(&procs[i], 0, sizeof(procs[i]))`. -/
def ProcEntry.zero : ProcEntry :=
  { info := ⟨0, 0, .unused, 0, 0, [], [], [], 0, 0, 0, 0, 0, 0⟩, used := false, fds := fun _ => 0 }

/-- The statics of `proc.c`, with what they stand on. -/
structure ProcState where
  procs : ProcSlot → ProcEntry
  nextPid : ℤ
  currentPid : ℤ
  memctx : MemctxState
  vfs : VfsState

/-- Why a call does not come back. -/
inductive Halt where
  | panic (message : String)
  /-- The panic of `mem_free`. -/
  | badFree
  | vfs (fault : Fault)
  | elf (fault : Elf.Fault)
  /-- A member of `*find_proc(pid)` when there is no such process. -/
  | nullPointer
  deriving Repr, DecidableEq

/-- The environment of one call: the heap's answers, for the memory contexts and for
file data. -/
structure Env where
  heap : HeapAlloc
  files : Allocator

def procErrNotFound : ℤ := -3
def procErrProtected : ℤ := -13
def procErrNomem : ℤ := -12
def procErrInvalidState : ℤ := -22

/-- `PROC_STACK_SIZE`. -/
def procStackSize : ℕ := 4096

/-- `procs[i] = e`. -/
def ProcState.setProc (s : ProcState) (i : ProcSlot) (e : ProcEntry) : ProcState :=
  { s with procs := Function.update s.procs i e }

/-- `procs[i].info = …`. -/
def ProcState.setInfo (s : ProcState) (i : ProcSlot) (info : ProcInfo) : ProcState :=
  s.setProc i { s.procs i with info := info }

/-- `procs[i].info.state = …`. -/
def ProcState.setStatus (s : ProcState) (i : ProcSlot) (state : ProcStatus) : ProcState :=
  s.setInfo i { (s.procs i).info with state := state }

/-- `procs[i].fds[fd] = …`. -/
def ProcState.setFd (s : ProcState) (i : ProcSlot) (fd : Fd) (backing : ℤ) : ProcState :=
  s.setProc i { s.procs i with fds := Function.update (s.procs i).fds fd backing }

/-! ## §2. Creating processes. -/

/-- `proc_is_terminal_state`. -/
def procIsTerminalState : ProcStatus → Bool
  | .exited => true
  | .zombie => true
  | .dead => true
  | _ => false

/-- `find_proc`. -/
def findProc (s : ProcState) (pid : ℤ) : Option ProcSlot :=
  (List.finRange 16).find? fun i => (s.procs i).used && (s.procs i).info.pid == pid

/-- `copy_text`: what `dst` holds afterwards. -/
def copyText (dstLen : ℕ) (src : Str) : Str := src.take (dstLen - 1)

/-- `proc_init`. -/
def procInit (s : ProcState) : ProcState :=
  { s with
    procs := fun _ => ProcEntry.zero
    nextPid := 1
    currentPid := 0
    memctx := memctxInit s.memctx }

/-- The first unused entry. -/
def freeProc (s : ProcState) : Option ProcSlot :=
  (List.finRange 16).find? fun i => !(s.procs i).used

/-- The entry `proc_create` fills a slot with. -/
def newEntry (pid parentPid memctx : ℤ) (name : Str) : ProcEntry :=
  { info :=
      { ProcEntry.zero.info with
        pid := pid
        parentPid := parentPid
        state := .ready
        memctx := memctx
        name := copyText 32 name
        cwd := copyText 128 [slash] }
    used := true
    fds := fun _ => -1 }

/-- `proc_create`: the pid is used up even when no memory context can be had. -/
def procCreate (s : ProcState) (name : Str) (parentPid : ℤ) : ℤ × ProcState :=
  if parentPid ≠ 0 ∧ findProc s parentPid = none then (-1, s)
  else if parentPid = 0 ∧ s.nextPid ≠ 1 then (-1, s)
  else
    match freeProc s with
    | none => (procErrNomem, s)
    | some i =>
      let pid := s.nextPid
      let ctx := memctxCreate s.memctx pid 0
      let s := { s with nextPid := toInt (pid + 1), memctx := ctx.2 }
      if ctx.1 < 0 then (procErrNomem, s.setProc i ProcEntry.zero)
      else (pid, s.setProc i (newEntry pid parentPid ctx.1 name))

/-- `proc_alloc`: the pointer, `0` for `NULL`. -/
def procAlloc (env : Env) (s : ProcState) (pid : ℤ) (size : ℕ) : ℕ × ProcState :=
  match findProc s pid with
  | none => (0, s)
  | some i =>
    let r := memctxAlloc env.heap s.memctx (s.procs i).info.memctx size
    (r.1, { s with memctx := r.2 })

/-- `proc_free`. -/
def procFree (s : ProcState) (pid : ℤ) (ptr : ℕ) : Except Halt (ℤ × ProcState) :=
  match findProc s pid with
  | none => .ok (-1, s)
  | some i =>
    match memctxFree s.memctx (s.procs i).info.memctx ptr with
    | none => .error .badFree
    | some (ok, memctx) => .ok (if ok then 0 else -1, { s with memctx := memctx })

/-- `proc_attach_image`; `none` is a `NULL` image.  The image is recorded before the
stack is allocated. -/
def procAttachImage (env : Env) (s : ProcState) (pid : ℤ) (path : Str)
    (image : Option Elf.ElfImage) : ℤ × ProcState :=
  match findProc s pid, image with
  | some i, some image =>
    if image.loadBase = 0 ∨ image.entry = 0 then (-1, s)
    else
      let s := s.setInfo i
        { (s.procs i).info with
          entryPoint := image.entry
          imageBase := image.loadBase
          imageSize := image.loadSize
          requestedBase := image.requestedBase
          requestedEnd := image.requestedEnd
          exePath := copyText 128 path }
      let r := procAlloc env s pid procStackSize
      if r.1 = 0 then (-1, r.2)
      else (0, r.2.setInfo i
        { (r.2.procs i).info with stackPointer := add64 r.1 procStackSize })
  | _, _ => (-1, s)

/-! ## §3. The current process. -/

/-- The first half of `proc_set_current`: the old current process is `READY` again. -/
def parkCurrent (s : ProcState) : ProcState :=
  if s.currentPid ≠ 0 then
    match findProc s s.currentPid with
    | none => s
    | some old =>
      if (s.procs old).info.state = .running then s.setStatus old .ready else s
  else s

/-- `proc_set_current`. -/
def procSetCurrent (s : ProcState) (pid : ℤ) : ℤ × ProcState :=
  match findProc s pid with
  | none => (-1, s)
  | some i =>
    if procIsTerminalState (s.procs i).info.state then (-1, s)
    else (0, { parkCurrent s with currentPid := pid }.setStatus i .running)

/-- `proc_current_valid`. -/
def procCurrentValid (s : ProcState) : Bool :=
  match findProc s s.currentPid with
  | none => false
  | some i => decide (0 < s.currentPid) && (s.procs i).info.state == .running

/-- One turn of the loop of `proc_exit_locked` over the descriptors. -/
def closeFd (i : ProcSlot) (s : ProcState) (fd : Fd) : ProcState :=
  if 0 ≤ (s.procs i).fds fd then
    { s with vfs := (vfsClose s.vfs ((s.procs i).fds fd)).2 }.setFd i fd (-1)
  else s

/-- The children of `pid` become children of process 1. -/
def reparent (s : ProcState) (pid : ℤ) : ProcState :=
  { s with procs := fun i =>
      let e := s.procs i
      if e.used ∧ e.info.parentPid = pid then { e with info := { e.info with parentPid := 1 } }
      else e }

/-- `proc_exit_locked` past its checks. -/
def exitEntry (s : ProcState) (i : ProcSlot) (pid status : ℤ) : ProcState :=
  let s := (List.finRange 16).foldl (closeFd i) s
  let s := if pid ≠ 1 then reparent s pid else s
  let s := s.setInfo i { (s.procs i).info with exitStatus := status, state := .exited }
  if s.currentPid = pid then { s with currentPid := 0 } else s

/-- `proc_exit_locked`. -/
def procExitLocked (s : ProcState) (pid status : ℤ) : Except Halt (ℤ × ProcState) :=
  match findProc s pid with
  | none => .ok (procErrNotFound, s)
  | some i =>
    if procIsTerminalState (s.procs i).info.state then .ok (procErrInvalidState, s)
    else if pid = 1 then .error (.panic "init process exited")
    else .ok (0, exitEntry s i pid status)

/-- `proc_exit`. -/
def procExit (s : ProcState) (pid status : ℤ) : Except Halt (ℤ × ProcState) :=
  procExitLocked s pid status

/-- `proc_kill`. -/
def procKill (s : ProcState) (pid status : ℤ) : Except Halt (ℤ × ProcState) :=
  if pid ≤ 0 then .ok (procErrNotFound, s)
  else if pid = 1 then .ok (procErrProtected, s)
  else
    match findProc s pid with
    | none => .ok (procErrNotFound, s)
    | some i =>
      if procIsTerminalState (s.procs i).info.state then .ok (procErrInvalidState, s)
      else procExitLocked s pid status

/-- `proc_wait`: the exit status of the reaped child, `none` for `-1`. -/
def procWait (s : ProcState) (parentPid childPid : ℤ) : Except Halt (Option ℤ × ProcState) :=
  match findProc s childPid with
  | none => .ok (none, s)
  | some i =>
    let child := (s.procs i).info
    if child.parentPid ≠ parentPid ∨ child.state ≠ .exited then .ok (none, s)
    else
      match memctxDestroy s.memctx child.memctx with
      | none => .error .badFree
      | some (_, memctx) =>
        .ok (some child.exitStatus, { s with memctx := memctx }.setProc i ProcEntry.zero)

/-- `proc_start_flat` up to the call of the program: `none` when it refuses. -/
def startEnter (s : ProcState) (pid : ℤ) : Option ProcState :=
  match findProc s pid with
  | none => none
  | some i =>
    if (s.procs i).info.entryPoint = 0 ∨ procIsTerminalState (s.procs i).info.state then none
    else
      let r := procSetCurrent s pid
      if r.1 ≠ 0 then none else some r.2

/-- The exit `proc_start_flat` makes for a program that only returned. -/
def exitIfLive (s : ProcState) (pid : ℤ) : Except Halt ProcState :=
  match findProc s pid with
  | none => .ok s
  | some i =>
    if procIsTerminalState (s.procs i).info.state then .ok s
    else (procExitLocked s pid 0).map Prod.snd

/-- The end of `proc_start_flat`: back to the process that was current before. -/
def resume (s : ProcState) (pid previous : ℤ) : ProcState :=
  if previous ≠ 0 ∧ previous ≠ pid ∧ findProc s previous ≠ none then (procSetCurrent s previous).2
  else if s.currentPid = pid then { s with currentPid := 0 }
  else s

/-- `proc_start_flat` after the program has returned. -/
def startLeave (s : ProcState) (pid previous : ℤ) : Except Halt ProcState :=
  (exitIfLive s pid).map fun s => resume s pid previous

/-- `proc_start_flat` around the program `body`. -/
def procStartFlat (body : ProcState → Except Halt ProcState) (s : ProcState) (pid : ℤ) :
    Except Halt (ℤ × ProcState) :=
  match startEnter s pid with
  | none => .ok (-1, s)
  | some s₁ => do
    let s₂ ← body s₁
    let s₃ ← startLeave s₂ pid s.currentPid
    .ok (0, s₃)

/-- `proc_info`. -/
def procInfo (s : ProcState) (pid : ℤ) : Option ProcInfo :=
  (findProc s pid).map fun i => (s.procs i).info

/-- The used entries, in the order of the table. -/
def usedProcs (s : ProcState) : List ProcSlot := (List.finRange 16).filter fun i => (s.procs i).used

/-- `proc_list`: the entries stored and the number of processes. -/
def procList (s : ProcState) (maxInfos : ℕ) : List ProcInfo × ℕ :=
  (((usedProcs s).map fun i => (s.procs i).info).take maxInfos, (usedProcs s).length)

/-! ## §4. Descriptors. -/

theorem fd_lt {fd : ℤ} (h : 0 ≤ fd ∧ fd < 16) : fd.toNat < 16 := by omega

/-- `proc->fds[fd]` for an index in range. -/
def fdAt (s : ProcState) (i : ProcSlot) (fd : ℤ) : ℤ :=
  if h : 0 ≤ fd ∧ fd < 16 then (s.procs i).fds ⟨fd.toNat, fd_lt h⟩ else -1

/-- `real_fd`. -/
def realFd (s : ProcState) (proc : Option ProcSlot) (fd : ℤ) : ℤ :=
  match proc with
  | none => -1
  | some i => fdAt s i fd

/-- The first descriptor that is not in use. -/
def freeFd (s : ProcState) (i : ProcSlot) : Option Fd :=
  (List.finRange 16).find? fun fd => decide ((s.procs i).fds fd < 0)

/-- Run a call of the VFS. -/
def onVfs {α : Type} (s : ProcState) (r : Except Fault (α × VfsState)) :
    Except Halt (α × ProcState) :=
  match r with
  | .error e => .error (.vfs e)
  | .ok (a, vfs) => .ok (a, { s with vfs := vfs })

/-- The end of `proc_open`: the first free descriptor, or the file is closed again. -/
def installFd (s : ProcState) (i : ProcSlot) (slot : Slot) : ℤ × ProcState :=
  match freeFd s i with
  | some fd => ((fd : ℕ), s.setFd i fd (slot : ℕ))
  | none => (-1, { s with vfs := (vfsClose s.vfs (slot : ℕ)).2 })

/-- `proc_open`. -/
def procOpen (env : Env) (s : ProcState) (pid : ℤ) (path : Str) (flags : ℕ) :
    Except Halt (ℤ × ProcState) :=
  match findProc s pid with
  | none => .ok (-1, s)
  | some i =>
    if procIsTerminalState (s.procs i).info.state then .ok (-1, s)
    else do
      let (r, s) ← onVfs s (vfsOpen env.files s.vfs path flags)
      match r with
      | none => .ok (-1, s)
      | some slot => .ok (installFd s i slot)

/-- `proc_read`. -/
def procRead (s : ProcState) (pid fd : ℤ) (buf : Bool) (len : ℕ) :
    Except Halt (Option (List UInt8) × ProcState) :=
  onVfs s (vfsRead s.vfs (realFd s (findProc s pid) fd) buf len)

/-- `proc_write`. -/
def procWrite (env : Env) (s : ProcState) (pid fd : ℤ) (buf : Option (List UInt8)) :
    Except Halt (Option ℕ × ProcState) :=
  onVfs s (vfsWrite env.files s.vfs (realFd s (findProc s pid) fd) buf)

/-- `proc_lseek`. -/
def procLseek (s : ProcState) (pid fd offset whence : ℤ) : Option ℕ × ProcState :=
  let r := vfsLseek s.vfs (realFd s (findProc s pid) fd) offset whence
  (r.1, { s with vfs := r.2 })

/-- `proc->fds[fd] = backing` for an index in range. -/
def putFd (s : ProcState) (i : ProcSlot) (fd backing : ℤ) : ProcState :=
  if h : 0 ≤ fd ∧ fd < 16 then s.setFd i ⟨fd.toNat, fd_lt h⟩ backing else s

/-- `vfs_close(backing)`. -/
def closeBacking (s : ProcState) (backing : ℤ) : ProcState :=
  { s with vfs := (vfsClose s.vfs backing).2 }

/-- `proc_close`. -/
def procClose (s : ProcState) (pid fd : ℤ) : ℤ × ProcState :=
  match findProc s pid with
  | none => (-1, s)
  | some i =>
    let backing := fdAt s i fd
    if backing < 0 then (-1, s)
    else
      let s := putFd s i fd (-1)
      (if (vfsClose s.vfs backing).1 then 0 else -1, closeBacking s backing)

/-- `proc_dup`. -/
def procDup (s : ProcState) (pid oldfd : ℤ) : ℤ × ProcState :=
  match findProc s pid with
  | none => (-1, s)
  | some i =>
    let backing := fdAt s i oldfd
    if backing < 0 then (-1, s)
    else
      match freeFd s i with
      | none => (-1, s)
      | some fd => ((fd : ℕ), s.setFd i fd backing)

/-- `proc_dup2`. -/
def procDup2 (s : ProcState) (pid oldfd newfd : ℤ) : ℤ × ProcState :=
  match findProc s pid with
  | none => (-1, s)
  | some i =>
    let backing := fdAt s i oldfd
    if backing < 0 ∨ newfd < 0 ∨ 16 ≤ newfd then (-1, s)
    else
      let old := fdAt s i newfd
      let s := if 0 ≤ old ∧ old ≠ backing then closeBacking s old else s
      (newfd, putFd s i newfd backing)

/-! ## §5. Calls. -/

/-- A call of the interface, made for the process it names. -/
inductive Op where
  | create (name : Str) (parentPid : ℤ)
  | attachImage (pid : ℤ) (path : Str) (image : Option Elf.ElfImage)
  | setCurrent (pid : ℤ)
  | exit (pid status : ℤ)
  | kill (pid status : ℤ)
  | wait (parentPid childPid : ℤ)
  | alloc (pid : ℤ) (size : ℕ)
  | free (pid : ℤ) (ptr : ℕ)
  | open (pid : ℤ) (path : Str) (flags : ℕ)
  | read (pid fd : ℤ) (buf : Bool) (len : ℕ)
  | write (pid fd : ℤ) (buf : Option (List UInt8))
  | lseek (pid fd offset whence : ℤ)
  | close (pid fd : ℤ)
  | dup (pid oldfd : ℤ)
  | dup2 (pid oldfd newfd : ℤ)

/-- The answer of a call. -/
inductive Ret where
  | int (n : ℤ)
  | ptr (p : ℕ)
  | status (st : Option ℤ)
  | bytes (l : Option (List UInt8))
  | count (n : Option ℕ)
  deriving Repr, DecidableEq

/-- Perform a call. -/
def exec (env : Env) (s : ProcState) : Op → Except Halt (Ret × ProcState)
  | .create name parentPid => .ok ((procCreate s name parentPid).map .int id)
  | .attachImage pid path image => .ok ((procAttachImage env s pid path image).map .int id)
  | .setCurrent pid => .ok ((procSetCurrent s pid).map .int id)
  | .exit pid status => (procExit s pid status).map (Prod.map .int id)
  | .kill pid status => (procKill s pid status).map (Prod.map .int id)
  | .wait parentPid childPid => (procWait s parentPid childPid).map (Prod.map .status id)
  | .alloc pid size => .ok ((procAlloc env s pid size).map .ptr id)
  | .free pid ptr => (procFree s pid ptr).map (Prod.map .int id)
  | .open pid path flags => (procOpen env s pid path flags).map (Prod.map .int id)
  | .read pid fd buf len => (procRead s pid fd buf len).map (Prod.map .bytes id)
  | .write pid fd buf => (procWrite env s pid fd buf).map (Prod.map .count id)
  | .lseek pid fd offset whence => .ok ((procLseek s pid fd offset whence).map .count id)
  | .close pid fd => .ok ((procClose s pid fd).map .int id)
  | .dup pid oldfd => .ok ((procDup s pid oldfd).map .int id)
  | .dup2 pid oldfd newfd => .ok ((procDup2 s pid oldfd newfd).map .int id)

end ExoCore.Proc
