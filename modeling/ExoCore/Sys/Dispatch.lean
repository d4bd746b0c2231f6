/-
  ExoCore.Sys.Dispatch — the system calls of `kernel/syscall.c`.

  `syscallDispatch` is the switch of `syscall_dispatch` over all the call numbers.
  Besides the answer it gives a TRACE: every call of `user_ptr_valid` with its
  verdict, and every store through a pointer argument, in the order of the code.
  A store stays in the trace when the call faults afterwards.

  The calls are those of the other modules.  What lies outside them is the
  environment's: caller memory (`load`, `cstr`), the keyboard, the clock, the
  framebuffer, the program `proc_spawn_exec` runs and the interpreter.  Caller
  memory is apart from the tables of the kernel: a store is an event of the trace.
  The screen is left out; what the console prints goes to the debug log.
-/
import ExoCore.Proc.Calls
import ExoCore.Fat.Calls
import ExoCore.Mem.Apps

namespace ExoCore.Sys

open ExoCore.Lib ExoCore.Vfs ExoCore.Proc

/-! ## §1. The numbers. -/

/-- The `SYS_…` constants. -/
inductive Sysno where
  | write
  | exit
  | memAlloc
  | memFree
  | fsRead
  | fsWrite
  | procSpawn
  | fsOpen
  | fsReadFd
  | fsWriteFd
  | fsLseekFd
  | fsClose
  | fsFileSize
  | read
  | getpid
  | getppid
  | procInfo
  | procList
  | procWait
  | procKill
  | writeFd
  | dup
  | dup2
  | uptimeMs
  | sleepMs
  | pipe
  | execve
  | procSpawnEx
  | dmesgRead
  | memInfo
  | sync
  | ioctl
  | vfsOpen
  | vfsRead
  | vfsWrite
  | vfsLseek
  | vfsClose
  | vfsMkdir
  | vfsUnlink
  | vfsRename
  | vfsChdir
  | vfsGetcwd
  | vfsStat
  | vfsFstat
  | vfsGetdents
  | vfsRmdir
  | vfsAccess
  | mountInfo
  | diskList
  | diskInfo
  | reboot
  | poweroff
  | mpyExecFile
  | fbInfo
  | displayMode
  | fbClear
  | fbDrawPixel
  deriving Repr, DecidableEq

/-- The constants in the order of their values, from 0 on. -/
def sysnos : List Sysno :=
  [.write, .exit, .memAlloc, .memFree, .fsRead, .fsWrite, .procSpawn, .fsOpen, .fsReadFd,
    .fsWriteFd, .fsLseekFd, .fsClose, .fsFileSize, .read, .getpid, .getppid, .procInfo, .procList,
    .procWait, .procKill, .writeFd, .dup, .dup2, .uptimeMs, .sleepMs, .pipe, .execve, .procSpawnEx,
    .dmesgRead, .memInfo, .sync, .ioctl, .vfsOpen, .vfsRead, .vfsWrite, .vfsLseek, .vfsClose,
    .vfsMkdir, .vfsUnlink, .vfsRename, .vfsChdir, .vfsGetcwd, .vfsStat, .vfsFstat, .vfsGetdents,
    .vfsRmdir, .vfsAccess, .mountInfo, .diskList, .diskInfo, .reboot, .poweroff, .mpyExecFile,
    .fbInfo, .displayMode, .fbClear, .fbDrawPixel]

/-- The call a number names. -/
def sysnoOf (num : UInt64) : Option Sysno := sysnos[num.toNat]?

/-- `current_required`. -/
def currentRequired : Option Sysno → Bool
  | some .getpid => false
  | some .procInfo => false
  | some .procList => false
  | some .uptimeMs => false
  | some .memInfo => false
  | some .sync => false
  | some .fbInfo => false
  | some .displayMode => false
  | some .fbClear => false
  | some .fbDrawPixel => false
  | _ => true

/-! ## §2. The state. -/

/-- The statics of the modules below, the debug log and the display settings. -/
structure Kernel where
  proc : ProcState
  fs : Fat.FsState
  heap : Mem.Heap
  /-- `log_buf[0 .. log_pos)`. -/
  log : List UInt8
  /-- `log_size`; `0` when there is no `log_buf`. -/
  logSize : ℕ
  theme : ℕ
  logsVisible : Bool

/-- What the calls ask of the outside. -/
structure Env where
  /-- The address of `end`. -/
  kEnd : ℕ
  proc : Proc.Env
  /-- The bytes of caller memory. -/
  load : ℕ → ℕ → List UInt8
  /-- The string at an address of caller memory. -/
  cstr : ℕ → Str
  /-- What `console_getc` returns, call after call. -/
  input : ℕ → UInt8
  tsc : ℕ
  fbEnabled : Bool
  fbWidth : ℕ
  fbHeight : ℕ
  fbPitch : ℕ
  fbBpp : ℕ
  /-- `proc_spawn_exec`, with the program it runs. -/
  spawn : ProcState → ℤ → Str → Except Proc.Halt (ℤ × ProcState)
  /-- `mp_runtime_exec`. -/
  mpExec : Kernel → List UInt8 → Str → Kernel

/-- Why a call does not come back. -/
inductive Halt where
  | proc (halt : Proc.Halt)
  | vfs (fault : Vfs.Fault)
  | fs (fault : Fat.Fault)
  | mem (halt : Mem.Halt)
  deriving Repr, DecidableEq

/-! ## §3. The trace. -/

/-- What a store puts into memory. -/
inductive Value where
  | bytes (l : List UInt8)
  /-- A number in `width` bytes. -/
  | word (width n : ℕ)
  /-- A whole `proc_info_t`. -/
  | info (i : ProcInfo)
  /-- `n` bytes that are copied from outside a live buffer. -/
  | stray (n : ℕ)

def sizeofProcInfo : ℕ := 360
def sizeofVfsStat : ℕ := 24
def sizeofVfsDirent : ℕ := 48
def sizeofMemInfo : ℕ := 48
def sizeofFbInfo : ℕ := 24

/-- The number of bytes written. -/
def Value.size : Value → ℕ
  | .bytes l => l.length
  | .word width _ => width
  | .info _ => sizeofProcInfo
  | .stray n => n

/-- What a call does to caller memory, or asks about it. -/
inductive Event where
  /-- `user_ptr_valid(ptr, len)` returned `ok`. -/
  | check (ptr len : ℕ) (ok : Bool)
  | store (addr : ℕ) (v : Value)

/-- The trace of a call, and its answer with the state after it. -/
structure Reply where
  trace : List Event
  result : Except Halt (ℕ × Kernel)

/-- `(uint64_t)x`. -/
def toU64 (x : ℤ) : ℕ := (x % 2 ^ 64).toNat

/-- `(uint64_t)-1`. -/
def minusOne : ℕ := 2 ^ 64 - 1

/-- The answer of a call that returns an index, a count or a size, `-1` for `none`. -/
def countOr : Option ℕ → ℕ
  | some n => n % 2 ^ 64
  | none => minusOne

/-- The answer of a call that returns `0` or `-1`. -/
def zeroOr (ok : Bool) : ℕ := if ok then 0 else minusOne

/-- `return v`, after the stores `trace`. -/
def answer (k : Kernel) (v : ℕ) (trace : List Event) : Reply := ⟨trace, .ok (v, k)⟩

/-- `return (uint64_t)-1`. -/
def refuse (k : Kernel) : Reply := answer k minusOne []

/-- A call that may not come back. -/
def attempt {α : Type} (r : Except Halt α) (f : α → ℕ × Kernel) (trace : List Event) : Reply :=
  ⟨trace, r.map f⟩

/-! ## §4. Pointers. -/

/-- `user_ptr_valid`. -/
def userPtrValid (env : Env) (k : Kernel) (p len : ℕ) : Bool :=
  let e := add64 p len
  if e < p then false
  else if env.kEnd ≤ p then true
  else
    match procInfo k.proc k.proc.currentPid with
    | none => false
    | some info =>
      (decide (4096 ≤ info.stackPointer) && decide (info.stackPointer - 4096 ≤ p) &&
          decide (e ≤ info.stackPointer)) ||
        (info.imageBase != 0 && decide (info.imageBase ≤ p) &&
          decide (e ≤ add64 info.imageBase info.imageSize))

/-- `if (!user_ptr_valid(p, len)) return (uint64_t)-1`, before `body`. -/
def checked (env : Env) (k : Kernel) (p len : ℕ) (body : Reply) : Reply :=
  if userPtrValid env k p len then ⟨.check p len true :: body.trace, body.result⟩
  else ⟨[.check p len false], .ok (minusOne, k)⟩

/-- A buffer argument: `none` for `NULL`. -/
def bufferAt (env : Env) (p len : ℕ) : Option (List UInt8) :=
  if p = 0 then none else some (env.load p len)

/-- A path argument; `NULL` is treated like the empty path. -/
def pathAt (env : Env) (p : ℕ) : Str := if p = 0 then [] else env.cstr p

/-! ## §5. Calls with a result in caller memory. -/

/-- The number of bytes the `memcpy` of `vfs_read` stores. -/
def vfsReadLen (s : VfsState) (fd : ℤ) (buf : Bool) (len : ℕ) : ℕ :=
  match Vfs.openSlot s fd with
  | none => 0
  | some slot =>
    let f := s.openFiles slot
    let node := s.nodes f.node
    if !buf ∨ node.type ≠ .file then 0
    else if node.size ≤ f.offset then 0
    else if node.size < add64 f.offset len then node.size - f.offset else len

/-- The stores of a read into `dst`: the bytes, or `n` stray ones when the source is
outside its buffer. -/
def readStores {ε α : Type} (dst n : ℕ) (r : Except ε (Option (List UInt8) × α)) : List Event :=
  match r with
  | .ok (some l, _) => [.store dst (.bytes l)]
  | .ok (none, _) => []
  | .error _ => [.store dst (.stray n)]

/-- `vfs_read(fd, (void*)dst, len)`. -/
def readFile (k : Kernel) (fd : ℤ) (dst len : ℕ) : Reply :=
  let r := vfsRead k.proc.vfs fd (dst != 0) len
  attempt (r.mapError .vfs)
    (fun r => (countOr (r.1.map List.length), { k with proc := { k.proc with vfs := r.2 } }))
    (readStores dst (vfsReadLen k.proc.vfs fd (dst != 0) len) r)

/-- `fs_read(offset, (void*)dst, len)`. -/
def readRaw (k : Kernel) (offset dst len : ℕ) : Reply :=
  let r := (Fat.fsRead k.fs offset (dst != 0) len).map fun l => (some l, ())
  attempt (r.mapError .fs) (fun r => (countOr (r.1.map List.length), k))
    (readStores dst (Fat.rawLen k.fs offset len) r)

/-- The number of bytes the loop of `fs_read_fd` has stored when it ends, whatever ends it:
`done` so far, of `len`. -/
def fsReadLen (s : Fat.FsState) (len : ℕ) : ℕ → Fat.FsOpen → ℕ → ℕ
  | 0, _, done => done
  | fuel + 1, f, done =>
    if done < len then
      match Fat.chainCluster s f.firstCluster (f.pos / Fat.clusterSize s % 2 ^ 32) false with
      | .error _ => done
      | .ok (c, _) =>
        if c = 0 then done
        else
          let off := add64 (Fat.clusterOffset s c) (f.pos % Fat.clusterSize s)
          let chunk := Fat.chunkSize s f.pos (len - done)
          if !Fat.rangeOk s off chunk then done
          else fsReadLen s len fuel { f with pos := (f.pos + chunk) % 2 ^ 32 } (done + chunk)
    else done

/-- The number of bytes `fs_read_fd` stores. -/
def fsReadFdLen (fuel : ℕ) (s : Fat.FsState) (fd : ℤ) (len : ℕ) : ℕ :=
  match Fat.openSlot s fd with
  | none => 0
  | some slot =>
    let f := s.openFiles slot
    fsReadLen s (min len (f.size - f.pos)) fuel f 0

/-- `fs_read_fd(fd, (void*)dst, len)`. -/
def readFsFd (fuel : ℕ) (k : Kernel) (fd : ℤ) (dst len : ℕ) : Reply :=
  let r := Fat.fsReadFd fuel k.fs fd (dst != 0) len
  attempt (r.mapError .fs) (fun r => (countOr (r.1.map List.length), { k with fs := r.2 }))
    (readStores dst (fsReadFdLen fuel k.fs fd len) r)

/-- `proc_info(pid, (proc_info_t*)dst)`. -/
def storeInfo (k : Kernel) (pid : ℤ) (dst : ℕ) : Reply :=
  match procInfo k.proc pid with
  | none => refuse k
  | some info => if dst = 0 then refuse k else answer k 0 [.store dst (.info info)]

/-- The entries of an array at `dst`, from index `i` on. -/
def storeInfos (dst : ℕ) : ℕ → List ProcInfo → List Event
  | _, [] => []
  | i, info :: rest =>
    .store (add64 dst (sizeofProcInfo * i)) (.info info) :: storeInfos dst (i + 1) rest

/-- `proc_list((proc_info_t*)dst, maxInfos)`. -/
def listProcs (k : Kernel) (dst maxInfos : ℕ) : Reply :=
  if dst = 0 ∧ maxInfos ≠ 0 then refuse k
  else
    let r := procList k.proc maxInfos
    answer k r.2 (storeInfos dst 0 r.1)

/-- `proc_wait(current_pid, childPid, (int*)dst)`: the status is stored before the context of
the child is destroyed. -/
def waitChild (k : Kernel) (childPid : ℤ) (dst : ℕ) : Reply :=
  let stores : List Event :=
    match findProc k.proc childPid with
    | none => []
    | some i =>
      let child := (k.proc.procs i).info
      if child.parentPid ≠ k.proc.currentPid ∨ child.state ≠ .exited ∨ dst = 0 then []
      else [.store dst (.word 4 (toU64 child.exitStatus % 2 ^ 32))]
  attempt ((procWait k.proc k.proc.currentPid childPid).mapError .proc)
    (fun r => (if r.1.isSome then toU64 childPid else minusOne, { k with proc := r.2 })) stores

/-- `SYS_DMESG_READ` past its check. -/
def readLog (k : Kernel) (dst len start : ℕ) : Reply :=
  if k.log.length ≤ start then answer k 0 []
  else
    let n := min (k.log.length - start) len
    answer k n [.store dst (.bytes ((k.log.drop start).take n))]

/-- `mem_get_info((mem_info_t*)dst)`: the fields in their order.  The free bytes are counted
after the first store. -/
def storeMemInfo (fuel : ℕ) (k : Kernel) (dst : ℕ) : Reply :=
  if dst = 0 then answer k 0 []
  else
    let used : Event := .store dst (.word 8 k.heap.heapUsedBytes)
    match Mem.memGetInfo fuel k.heap with
    | .error e => ⟨[used], .error (.mem e)⟩
    | .ok info =>
      answer k 0
        [used, .store (add64 dst 8) (.word 8 info.heapFree),
          .store (add64 dst 16) (.word 8 info.heapCommitted),
          .store (add64 dst 24) (.word 8 info.heapMax),
          .store (add64 dst 32) (.word 8 info.growCount),
          .store (add64 dst 40) (.word 8 info.allocFailCount)]

/-- `VFS_TYPE_FILE` is 1, `VFS_TYPE_DIR` is 2. -/
def typeCode : NodeType → ℕ
  | .none => 0
  | .file => 1
  | .dir => 2

/-- `fill_stat` into `dst`. -/
def storeStat (k : Kernel) (st : Option VfsStat) (dst : ℕ) : Reply :=
  match st with
  | none => refuse k
  | some st =>
    if dst = 0 then refuse k
    else
      answer k 0
        [.store dst (.word 4 (typeCode st.type)), .store (add64 dst 8) (.word 8 st.size),
          .store (add64 dst 16) (.word 4 st.inode), .store (add64 dst 20) (.word 4 st.children)]

/-- `vfs_getcwd((char*)dst, len)`. -/
def storeCwd (k : Kernel) (dst len : ℕ) : Reply :=
  match vfsGetcwd k.proc.vfs (dst != 0) len with
  | none => refuse k
  | some path => answer k 0 [.store dst (.bytes (path ++ [0]))]

/-- The stores of one directory entry: three numbers, and the name with its terminator. -/
def storeDirent (addr : ℕ) (d : VfsDirent) : List Event :=
  [.store addr (.word 4 (typeCode d.type)), .store (add64 addr 4) (.word 4 d.inode),
    .store (add64 addr 8) (.word 8 d.size), .store (add64 addr 16) (.bytes (d.name ++ [0]))]

/-- The entries of an array at `dst`, from index `i` on. -/
def storeDirents (dst : ℕ) : ℕ → List VfsDirent → List Event
  | _, [] => []
  | i, d :: rest => storeDirent (add64 dst (sizeofVfsDirent * i)) d ++ storeDirents dst (i + 1) rest

/-- `vfs_getdents(fd, (vfs_dirent_t*)dst, maxEnts)`. -/
def listDir (k : Kernel) (fd : ℤ) (dst maxEnts : ℕ) : Reply :=
  let r := vfsGetdents k.proc.vfs fd (dst != 0) maxEnts
  answer { k with proc := { k.proc with vfs := r.2 } } (countOr (r.1.map List.length))
    (storeDirents dst 0 (r.1.getD []))

/-- `SYS_FB_INFO` past its check. -/
def storeFbInfo (env : Env) (k : Kernel) (dst : ℕ) : Reply :=
  answer k 0
    [.store dst (.word 4 env.fbWidth), .store (add64 dst 4) (.word 4 env.fbHeight),
      .store (add64 dst 8) (.word 4 env.fbPitch), .store (add64 dst 12) (.word 4 env.fbBpp),
      .store (add64 dst 16) (.word 4 k.theme),
      .store (add64 dst 20) (.word 4 (if k.logsVisible then 1 else 0))]

/-! ## §6. Calls without. -/

/-- What the console prints is appended to the debug log, as far as it has room. -/
def consolePrint (k : Kernel) (l : List UInt8) : Kernel :=
  { k with log := k.log ++ l.take (k.logSize - k.log.length) }

/-- `console_write((const char*)p, len)`. -/
def consoleWrite (env : Env) (k : Kernel) (p len : ℕ) : Kernel :=
  if p = 0 ∨ len = 0 then k else consolePrint k (env.load p len)

/-- A call of `proc.c`. -/
def onProc {α : Type} (k : Kernel) (r : Except Proc.Halt (α × ProcState)) (f : α → ℕ) : Reply :=
  attempt (r.mapError .proc) (fun r => (f r.1, { k with proc := r.2 })) []

/-- A call of `vfs.c`. -/
def onVfsCall {α : Type} (k : Kernel) (r : Except Vfs.Fault (α × VfsState)) (f : α → ℕ) : Reply :=
  attempt (r.mapError .vfs) (fun r => (f r.1, { k with proc := { k.proc with vfs := r.2 } })) []

/-- A call of `fs.c`. -/
def onFs {α : Type} (k : Kernel) (r : Except Fat.Fault (α × Fat.FsState)) (f : α → ℕ) : Reply :=
  attempt (r.mapError .fs) (fun r => (f r.1, { k with fs := r.2 })) []

/-- `memcpy(buf, l, …)` into a block of the heap. -/
def copyBlock (heap : Mem.Heap) (buf : ℕ) (l : List UInt8) : Mem.Heap :=
  heap.copyIn buf (fun i => l.getD i 0) l.length

/-- `SYS_MPY_EXEC_FILE` past its check: the file is read into a block of the heap, which is
given back afterwards. -/
def mpyExecFile (env : Env) (fuel : ℕ) (k : Kernel) (path : Str) : Except Halt (ℕ × Kernel) :=
  match vfsStat k.proc.vfs path with
  | none => .ok (minusOne, k)
  | some st =>
    if st.type ≠ .file ∨ st.size = 0 then .ok (minusOne, k)
    else do
      let (buf, heap) ← (Mem.memAlloc fuel k.heap (add64 st.size 1)).mapError .mem
      let k := { k with heap := heap }
      if buf = 0 then .ok (minusOne, k)
      else do
        let (fd, vfs) ← (Vfs.vfsOpen env.proc.files k.proc.vfs path 1).mapError .vfs
        let k := { k with proc := { k.proc with vfs := vfs } }
        match fd with
        | none => do
          let heap ← (Mem.memFree fuel k.heap buf (add64 st.size 1)).mapError .mem
          .ok (minusOne, { k with heap := heap })
        | some fd => do
          let (got, vfs) ← (Vfs.vfsRead k.proc.vfs (fd : ℕ) true st.size).mapError .vfs
          let k := { k with proc := { k.proc with vfs := (Vfs.vfsClose vfs (fd : ℕ)).2 } }
          match got with
          | some bytes => do
            let k := { k with heap := copyBlock k.heap buf bytes }
            if bytes.length ≠ st.size then do
              let heap ← (Mem.memFree fuel k.heap buf (add64 st.size 1)).mapError .mem
              .ok (minusOne, { k with heap := heap })
            else do
              let k := { k with heap := copyBlock k.heap (add64 buf st.size) [0] }
              let k := env.mpExec k bytes path
              let heap ← (Mem.memFree fuel k.heap buf (add64 st.size 1)).mapError .mem
              .ok (0, { k with heap := heap })
          | none => do
            let heap ← (Mem.memFree fuel k.heap buf (add64 st.size 1)).mapError .mem
            .ok (minusOne, { k with heap := heap })

/-- `SYS_DISPLAY_MODE`: show or hide the log, or choose a theme. -/
def displayMode (k : Kernel) (mode : ℕ) : Reply :=
  if mode = 1 then answer { k with logsVisible := true } 0 []
  else if mode = 2 then answer { k with logsVisible := false } 0 []
  else if mode = 3 then answer { k with theme := 0 } 0 []
  else if mode = 4 then answer { k with theme := 1 } 0 []
  else refuse k

/-! ## §7. The switch. -/

/-- The `switch` of `syscall_dispatch`. -/
def dispatch (env : Env) (fuel : ℕ) (k : Kernel) (a1 a2 a3 : ℕ) : Sysno → Reply
  | .write => checked env k a1 a2 (answer (consoleWrite env k a1 a2) a2 [])
  | .writeFd =>
    let fd := toInt a1
    checked env k a2 a3 <|
      if fd = 1 ∨ fd = 2 then answer (consoleWrite env k a2 a3) a3 []
      else if 3 ≤ fd then
        onProc k (procWrite env.proc k.proc k.proc.currentPid fd (bufferAt env a2 a3)) countOr
      else refuse k
  | .read =>
    checked env k a2 a3 <|
      if toInt a1 = 0 then
        answer k a3 [.store a2 (.bytes ((List.range a3).map env.input))]
      else readFile k (realFd k.proc (findProc k.proc k.proc.currentPid) (toInt a1)) a2 a3
  | .exit => onProc k (procExit k.proc k.proc.currentPid (toInt a1)) fun _ => 0
  | .memAlloc =>
    attempt ((Mem.memAlloc fuel k.heap a1).mapError .mem)
      (fun r => (r.1, { k with heap := r.2 })) []
  | .memFree =>
    checked env k a1 a2 <|
      attempt ((Mem.memFree fuel k.heap a1 a2).mapError .mem)
        (fun heap => (0, { k with heap := heap })) []
  | .fsRead => checked env k a2 a3 (readRaw k a1 a2 a3)
  | .fsWrite => checked env k a2 a3 (onFs k (Fat.fsWrite k.fs a1 (bufferAt env a2 a3)) fun n => n)
  | .procSpawn | .execve | .procSpawnEx =>
    checked env k a1 1 (onProc k (env.spawn k.proc k.proc.currentPid (pathAt env a1)) toU64)
  | .getpid => answer k (if procCurrentValid k.proc then toU64 k.proc.currentPid else minusOne) []
  | .getppid =>
    match procInfo k.proc k.proc.currentPid with
    | some info => answer k (if procCurrentValid k.proc then toU64 info.parentPid else minusOne) []
    | none => refuse k
  | .procInfo => checked env k a2 sizeofProcInfo (storeInfo k (toInt a1) a2)
  | .procList => checked env k a1 (a2 * sizeofProcInfo % 2 ^ 64) (listProcs k a1 a2)
  | .procWait =>
    if a2 ≠ 0 then checked env k a2 4 (waitChild k (toInt a1) a2)
    else waitChild k (toInt a1) a2
  | .procKill => onProc k (procKill k.proc (toInt a1) (toInt a2)) toU64
  | .dup =>
    let r := procDup k.proc k.proc.currentPid (toInt a1)
    answer { k with proc := r.2 } (toU64 r.1) []
  | .dup2 =>
    let r := procDup2 k.proc k.proc.currentPid (toInt a1) (toInt a2)
    answer { k with proc := r.2 } (toU64 r.1) []
  | .uptimeMs => answer k (env.tsc / 1000000) []
  | .sleepMs => answer k 0 []
  | .pipe => refuse k
  | .dmesgRead => checked env k a1 a2 (readLog k a1 a2 a3)
  | .memInfo => checked env k a1 sizeofMemInfo (storeMemInfo fuel k a1)
  | .sync =>
    if k.logSize = 0 then answer k 0 []
    else onFs k (Fat.fsWrite k.fs 0 (some k.log)) fun _ => 0
  | .ioctl => answer k 0 []
  | .fsOpen =>
    checked env k a1 1 <|
      onFs k (Fat.fsOpen fuel k.fs (pathAt env a1) (a2 % 2 ^ 32)) fun r =>
        countOr (r.map fun fd => (fd : ℕ))
  | .fsReadFd => checked env k a2 a3 (readFsFd fuel k (toInt a1) a2 a3)
  | .fsWriteFd =>
    checked env k a2 a3 <|
      onFs k (Fat.fsWriteFd fuel k.fs (toInt a1) (bufferAt env a2 a3)) countOr
  | .fsLseekFd =>
    let r := Fat.fsLseekFd k.fs (toInt a1) (toLong a2) (toInt a3)
    answer { k with fs := r.2 } (countOr r.1) []
  | .fsClose =>
    let r := Fat.fsClose k.fs (toInt a1)
    answer { k with fs := r.2 } (zeroOr r.1) []
  | .fsFileSize => answer k (countOr (Fat.fsFileSize k.fs (toInt a1))) []
  | .vfsOpen =>
    checked env k a1 1 <|
      onVfsCall k (vfsOpen env.proc.files k.proc.vfs (pathAt env a1) (a2 % 2 ^ 32)) fun r =>
        countOr (r.map fun fd => (fd : ℕ))
  | .vfsRead => checked env k a2 a3 (readFile k (toInt a1) a2 a3)
  | .vfsWrite =>
    checked env k a2 a3 <|
      onVfsCall k (vfsWrite env.proc.files k.proc.vfs (toInt a1) (bufferAt env a2 a3)) countOr
  | .vfsLseek =>
    let r := vfsLseek k.proc.vfs (toInt a1) (toLong a2) (toInt a3)
    answer { k with proc := { k.proc with vfs := r.2 } } (countOr r.1) []
  | .vfsClose =>
    let r := vfsClose k.proc.vfs (toInt a1)
    answer { k with proc := { k.proc with vfs := r.2 } } (zeroOr r.1) []
  | .vfsMkdir =>
    checked env k a1 1 <|
      onVfsCall k (.ok (vfsMkdir k.proc.vfs (pathAt env a1))) zeroOr
  | .vfsUnlink => checked env k a1 1 (onVfsCall k (vfsUnlink k.proc.vfs (pathAt env a1)) zeroOr)
  | .vfsRmdir => checked env k a1 1 (onVfsCall k (vfsRmdir k.proc.vfs (pathAt env a1)) zeroOr)
  | .vfsAccess =>
    checked env k a1 1 <|
      answer k (zeroOr (vfsAccess k.proc.vfs (pathAt env a1) (toInt a2))) []
  | .vfsRename =>
    checked env k a1 1 <| checked env k a2 1 <|
      onVfsCall k (.ok (vfsRename k.proc.vfs (pathAt env a1) (pathAt env a2))) zeroOr
  | .vfsChdir =>
    checked env k a1 1 (onVfsCall k (.ok (vfsChdir k.proc.vfs (pathAt env a1))) zeroOr)
  | .vfsGetcwd => checked env k a1 a2 (storeCwd k a1 a2)
  | .vfsStat =>
    checked env k a1 1 <| checked env k a2 sizeofVfsStat <|
      storeStat k (vfsStat k.proc.vfs (pathAt env a1)) a2
  | .vfsFstat =>
    checked env k a2 sizeofVfsStat (storeStat k (vfsFstat k.proc.vfs (toInt a1)) a2)
  | .vfsGetdents =>
    checked env k a2 (a3 * sizeofVfsDirent % 2 ^ 64) (listDir k (toInt a1) a2 a3)
  | .mountInfo | .diskList | .diskInfo => answer k 0 []
  | .fbInfo => checked env k a1 sizeofFbInfo (storeFbInfo env k a1)
  | .displayMode => displayMode k a1
  | .fbClear => answer k 0 []
  | .fbDrawPixel => answer k (zeroOr env.fbEnabled) []
  | .mpyExecFile => checked env k a1 1 ⟨[], mpyExecFile env fuel k (pathAt env a1)⟩
  | .reboot | .poweroff => answer k 0 []

/-- `syscall_dispatch`. -/
def syscallDispatch (env : Env) (fuel : ℕ) (k : Kernel) (num a1 a2 a3 : UInt64) : Reply :=
  let call := sysnoOf num
  if currentRequired call ∧ procCurrentValid k.proc = false then refuse k
  else
    match call with
    | some c => dispatch env fuel k a1.toNat a2.toNat a3.toNat c
    | none => refuse k

end ExoCore.Sys
