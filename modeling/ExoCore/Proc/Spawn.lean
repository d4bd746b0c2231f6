/-
  ExoCore.Proc.Spawn — `proc_spawn_exec` of `kernel/proc.c`.

  A spawn takes, one after the other: a process slot with a memory context, a buffer
  for the file, an open-file slot, the image, and the stack.  When a step fails, the
  source unwinds by hand: `memctx_destroy` and `memset` of the entry, both through a
  fresh `find_proc(pid)`.

  The program runs in the middle of the call.  `spawnPrepare` is everything before
  `proc_start_flat`, and `procSpawnExec` the whole of it around any program.  The
  bytes of the file buffer are the ones `vfs_read` stored; `mem_alloc` is the
  environment's answer, which may look at what is live.

  `Run` are the runs of the process layer: calls, spawns, and programs that start and
  return, nested to any depth.
-/
import ExoCore.Proc.Calls

namespace ExoCore.Proc

open ExoCore.Lib ExoCore.Vfs

/-! ## §1. The parts. -/

/-- The environment of a spawn: the heap's answers, for the memory contexts and for file data. -/
structure SpawnEnv where
  heap : (ℕ → Option ℕ) → HeapAlloc
  files : Allocator

/-- The environment of one allocation of the spawn. -/
def SpawnEnv.at (env : SpawnEnv) (s : ProcState) : Env := ⟨env.heap s.memctx.live, env.files⟩

/-- The loop of `basename_from_path`: `base` is what follows the last slash so far. -/
def afterSlash (base : Str) : Str → Str
  | [] => base
  | c :: rest => afterSlash (if c = slash then rest else base) rest

/-- `basename_from_path`. -/
def basenameFromPath (path : Str) : Str :=
  let base := afterSlash path path
  if base = [] then path else base

/-- `VFS_O_RDONLY`. -/
def vfsORdonly : ℕ := 0x01

/-- The `long` that `vfs_read` returns. -/
def readCount : Option (List UInt8) → ℤ
  | none => -1
  | some l => toLong l.length

/-- `read_vfs_file`: the bytes, `none` for `-1`. -/
def readVfsFile (files : Allocator) (s : VfsState) (path : Str) (size : ℕ) :
    Except Fault (Option (List UInt8) × VfsState) := do
  let (fd, s) ← vfsOpen files s path vfsORdonly
  match fd with
  | none => .ok (none, s)
  | some fd => do
    let (got, s) ← vfsRead s (fd : ℕ) true size
    let s := (vfsClose s (fd : ℕ)).2
    .ok (if readCount got = toLong size then some (got.getD []) else none, s)

/-- A call of the ELF loader. -/
def onElf {α : Type} (r : Except Elf.Fault α) : Except Halt α := r.mapError .elf

/-- `elf_load_process_image(pid, file, file_size, &image)`: `none` for `-1`. -/
def loadProcessImage (env : SpawnEnv) (s : ProcState) (pid : ℤ) (file : List UInt8) :
    Except Halt (Option Elf.ElfImage × ProcState) := do
  let valid ← onElf (Elf.elfValidate file)
  if !valid then .ok (none, s)
  else do
    let eh ← onElf (Elf.readHeader file)
    match ← onElf (Elf.inspectLoadRange file eh) with
    | none => .ok (none, s)
    | some r => do
      let loadSize := sub64 r.maxVaddr r.minVaddr
      let (base, s) := procAlloc (env.at s) s pid loadSize
      if base = 0 then .ok (none, s)
      else do
        let copied ← onElf (Elf.copyLoop file eh.ePhoff r.minVaddr (List.range eh.ePhnum)
          ⟨loadSize, fun _ => 0⟩)
        match copied with
        | .error _ => do
          let (_, s) ← procFree s pid base
          .ok (none, s)
        | .ok _ =>
          .ok (some
            { requestedBase := r.minVaddr
              requestedEnd := r.maxVaddr
              loadBase := base
              loadSize := loadSize
              entry := add64 base (sub64 eh.eEntry r.minVaddr) }, s)

/-- `elf_free_process_image`. -/
def freeProcessImage (s : ProcState) (pid : ℤ) (image : Elf.ElfImage) : Except Halt ProcState :=
  if image.loadBase = 0 then .ok s else (procFree s pid image.loadBase).map Prod.snd

/-- The unwinding: `memctx_destroy(find_proc(pid)->info.memctx)` and `memset` of the entry. -/
def abandon (s : ProcState) (pid : ℤ) : Except Halt ProcState :=
  match findProc s pid with
  | none => .error .nullPointer
  | some i =>
    match memctxDestroy s.memctx (s.procs i).info.memctx with
    | none => .error .badFree
    | some (_, memctx) => .ok ({ s with memctx := memctx }.setProc i ProcEntry.zero)

/-! ## §2. The call. -/

/-- How far a spawn got: the error to return, or a process to start. -/
inductive Prepared where
  | failed (r : ℤ)
  | ready (pid : ℤ)
  deriving Repr, DecidableEq

/-- Unwind and return `r`. -/
def giveUp (s : ProcState) (pid r : ℤ) : Except Halt (Prepared × ProcState) :=
  (abandon s pid).map fun s => (.failed r, s)

/-- The end of the preparation: attach the image. -/
def spawnAttach (env : SpawnEnv) (s : ProcState) (pid : ℤ) (path : Str) (image : Elf.ElfImage) :
    Except Halt (Prepared × ProcState) :=
  let r := procAttachImage (env.at s) s pid path (some image)
  if r.1 ≠ 0 then do
    let s ← freeProcessImage r.2 pid image
    giveUp s pid procErrNomem
  else .ok (.ready pid, r.2)

/-- From the bytes of the file on. -/
def spawnImage (env : SpawnEnv) (s : ProcState) (pid : ℤ) (path : Str) (file : List UInt8) :
    Except Halt (Prepared × ProcState) := do
  let (image, s) ← loadProcessImage env s pid file
  match image with
  | none => giveUp s pid procErrNomem
  | some image => spawnAttach env s pid path image

/-- From the new process on: the buffer for the file, and the file. -/
def spawnFile (env : SpawnEnv) (s : ProcState) (pid : ℤ) (path : Str) (size : ℕ) :
    Except Halt (Prepared × ProcState) :=
  let r := procAlloc (env.at s) s pid size
  if r.1 = 0 then giveUp r.2 pid procErrNomem
  else do
    let (file, s) ← onVfs r.2 (readVfsFile env.files r.2.vfs path size)
    match file with
    | none => giveUp s pid (-1)
    | some file => spawnImage env s pid path file

/-- `proc_spawn_exec` up to `proc_start_flat`. -/
def spawnPrepare (env : SpawnEnv) (s : ProcState) (parentPid : ℤ) (path : Str) :
    Except Halt (Prepared × ProcState) :=
  if findProc s parentPid = none then .ok (.failed (-1), s)
  else
    match vfsStat s.vfs path with
    | none => .ok (.failed (-1), s)
    | some st =>
      if st.type ≠ .file ∨ st.size = 0 then .ok (.failed (-1), s)
      else
        let r := procCreate s (basenameFromPath path) parentPid
        if r.1 < 0 then .ok (.failed r.1, r.2) else spawnFile env r.2 r.1 path st.size

/-- `proc_spawn_exec` around the program `body`. -/
def procSpawnExec (env : SpawnEnv) (body : ProcState → Except Halt ProcState) (s : ProcState)
    (parentPid : ℤ) (path : Str) : Except Halt (ℤ × ProcState) := do
  let (p, s) ← spawnPrepare env s parentPid path
  match p with
  | .failed r => .ok (r, s)
  | .ready pid => do
    let (start, s) ← procStartFlat body s pid
    .ok (if start = 0 then pid else -1, s)

/-! ## §3. Runs. -/

/-- The state together with the calls of `proc_start_flat` that have not returned: the
process started and the one that was current before, the innermost first. -/
structure Machine where
  state : ProcState
  frames : List (ℤ × ℤ)

/-- What happens next: a call, a spawn up to the start of its program, the start of a program,
or the return of the innermost one. -/
inductive Event where
  | call (op : Op)
  | spawn (parentPid : ℤ) (path : Str)
  | enter (pid : ℤ)
  | leave

/-- One step of a run.  A call that halts is no step: the run ends before it. -/
inductive Step : Machine → Event → Machine → Prop
  | call {m : Machine} {env : Env} {op : Op} {r : Ret} {s' : ProcState}
      (h : exec env m.state op = .ok (r, s')) : Step m (.call op) { m with state := s' }
  | spawn {m : Machine} {env : SpawnEnv} {parentPid : ℤ} {path : Str} {p : Prepared}
      {s' : ProcState} (h : spawnPrepare env m.state parentPid path = .ok (p, s')) :
      Step m (.spawn parentPid path) { m with state := s' }
  | enter {m : Machine} {pid : ℤ} {s' : ProcState} (h : startEnter m.state pid = some s') :
      Step m (.enter pid) ⟨s', (pid, m.state.currentPid) :: m.frames⟩
  | leave {s s' : ProcState} {pid previous : ℤ} {frames : List (ℤ × ℤ)}
      (h : startLeave s pid previous = .ok s') :
      Step ⟨s, (pid, previous) :: frames⟩ .leave ⟨s', frames⟩

/-- Any number of steps. -/
abbrev Run : Machine → List Event → Machine → Prop := Trace Step

/-- The steps, computed: `none` when the event cannot happen or halts. -/
def perform (env : Env) (m : Machine) : Event → Option Machine
  | .call op => (exec env m.state op).toOption.map fun r => { m with state := r.2 }
  | .spawn parentPid path =>
    (spawnPrepare ⟨fun _ => env.heap, env.files⟩ m.state parentPid path).toOption.map fun r =>
      { m with state := r.2 }
  | .enter pid =>
    (startEnter m.state pid).map fun s => ⟨s, (pid, m.state.currentPid) :: m.frames⟩
  | .leave =>
    match m.frames with
    | [] => none
    | (pid, previous) :: frames =>
      (startLeave m.state pid previous).toOption.map fun s => ⟨s, frames⟩

theorem toOption_some {ε α : Type} {x : Except ε α} {a : α} (h : x.toOption = some a) : x = .ok a := by
  cases x with
  | error e => cases h
  | ok b =>
    cases h
    rfl

theorem step_perform {env : Env} {m m' : Machine} {e : Event} (h : perform env m e = some m') :
    Step m e m' := by
  cases e with
  | call op =>
    obtain ⟨⟨r, s⟩, hexec, heq⟩ := Option.map_eq_some_iff.mp h
    subst heq
    exact Step.call (toOption_some hexec)
  | spawn parentPid path =>
    obtain ⟨⟨p, s⟩, hspawn, heq⟩ := Option.map_eq_some_iff.mp h
    subst heq
    exact Step.spawn (toOption_some hspawn)
  | enter pid =>
    obtain ⟨s, henter, heq⟩ := Option.map_eq_some_iff.mp h
    subst heq
    exact Step.enter henter
  | leave =>
    obtain ⟨s, frames⟩ := m
    cases frames with
    | nil => cases h
    | cons f frames =>
      obtain ⟨s', hleave, heq⟩ := Option.map_eq_some_iff.mp h
      subst heq
      exact Step.leave (toOption_some hleave)

/-- A computed run is a run. -/
theorem run_perform {env : Env} {l : List Event} {m m' : Machine}
    (h : l.foldlM (perform env) m = some m') : Run m l m' := by
  induction l generalizing m with
  | nil =>
    cases h
    exact Trace.nil
  | cons e l ih =>
    rw [List.foldlM_cons] at h
    obtain ⟨m₁, h1, h2⟩ := Option.bind_eq_some_iff.mp h
    exact Trace.cons (step_perform h1) (ih h2)

/-- The machine after `proc_init` and `vfs_init`, whatever was in memory before. -/
def boot (s : ProcState) : Machine := ⟨procInit { s with vfs := (vfsInit s.vfs).2 }, []⟩

end ExoCore.Proc
