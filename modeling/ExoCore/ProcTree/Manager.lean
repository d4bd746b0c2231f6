/-
  ExoCore.ProcTree.Manager — the process tree of `mpymod/process/init.py`, method by
  method.

  A process object is named by its `pid`, which the manager never gives out twice;
  `procs` is the heap of those objects.  `children` lists the keys of the
  dictionary of that name in insertion order, `processes` those of the registry.
  A pid that names no object reads as a terminated process without children.

  A method that raises may have changed the state before (a failed constructor has
  already taken a pid), so a call answers BOTH: `Outcome` is the returned value or
  the exception, with the state the call leaves.

  The methods that walk the tree (`_refresh_permissions`, `_terminate`,
  `assert_control`) recurse along pointers and carry FUEL; the walks of a forest
  end (`ProcTree/Walks.lean`).

  `run` is modelled by its two halves, `runEnter` and `runLeave`: what the target
  does in between is a sequence of other calls.  Names, termination reasons and the
  target itself are left out: no method reads them, except that `run` needs a
  target.
-/
import ExoCore.ProcTree.Policy
import ExoCore.Lib.Run
import Mathlib.Data.Finset.Dedup
import Mathlib.Data.Finset.Erase
import Mathlib.Data.Finset.Insert
import Mathlib.Logic.Function.Basic

namespace ExoCore.ProcTree

open ExoCore.Lib

/-! ## §1. Objects. -/

abbrev Pid := ℕ

/-- `ProcessState`. -/
inductive ProcessState where
  | ready
  | running
  | terminated
  deriving Repr, DecidableEq

/-- A `Process` object. -/
structure Process (R Lib : Type) where
  parent : Option Pid
  children : List Pid
  state : ProcessState
  hasTarget : Bool
  startTime : Option R
  deadline : Option R
  requested : Perms R Lib
  canKillParent : Bool
  effective : Perms R Lib

/-- The permissions of an object that asks for nothing. -/
def noPerms (R Lib : Type) : Perms R Lib := ⟨false, none, none, true, none, 0⟩

/-- What a pid without an object reads as. -/
def noProcess (R Lib : Type) : Process R Lib where
  parent := none
  children := []
  state := .terminated
  hasTarget := false
  startTime := none
  deadline := none
  requested := noPerms R Lib
  canKillParent := false
  effective := noPerms R Lib

/-- A `ProcessManager`, with the heap of its processes. -/
structure Manager (R Lib : Type) where
  procs : Pid → Process R Lib
  processes : List Pid
  pidCounter : Pid
  root : Option Pid

/-- `ProcessManager()`. -/
def newManager (R Lib : Type) : Manager R Lib where
  procs := fun _ => noProcess R Lib
  processes := []
  pidCounter := 1
  root := none

/-- The exceptions, with their texts. -/
inductive Err where
  | valueError (msg : String)
  | processError (msg : String)
  | permissionError (msg : String)
  | stateError (msg : String)
  | notFound (msg : String)
  | timeout (msg : String)
  deriving Repr, DecidableEq

/-- A walk that did not end within the given fuel. -/
inductive Halt where
  | fuel
  deriving Repr, DecidableEq

/-- The value or the exception, and the state afterwards. -/
abbrev Outcome (R Lib α : Type) := Except Err α × Manager R Lib

section Methods

variable {R Lib : Type}

/-- `d[key] = …` on the keys of a dictionary. -/
def setKey (keys : List Pid) (key : Pid) : List Pid :=
  if key ∈ keys then keys else keys ++ [key]

namespace Manager

/-- Assignment to the fields of the object `p`. -/
def modify (m : Manager R Lib) (p : Pid) (f : Process R Lib → Process R Lib) : Manager R Lib :=
  { m with procs := Function.update m.procs p (f (m.procs p)) }

/-- `_register`. -/
def register (m : Manager R Lib) (p : Pid) : Manager R Lib :=
  { m with processes := setKey m.processes p }

/-- `_unregister`. -/
def unregister (m : Manager R Lib) (p : Pid) : Manager R Lib :=
  { m with processes := m.processes.erase p }

/-- `self.parent` for every object. -/
def parent (m : Manager R Lib) (p : Pid) : Option Pid := (m.procs p).parent

/-- The requested permissions of every object. -/
def requested (m : Manager R Lib) (p : Pid) : Perms R Lib := (m.procs p).requested

/-- The effective permissions of every object. -/
def effective (m : Manager R Lib) (p : Pid) : Perms R Lib := (m.procs p).effective

end Manager

/-! ## §2. Arguments. -/

/-- The ways a library set is passed: `None`, one name, or an iterable. -/
inductive Libraries (Lib : Type) where
  | none
  | name (lib : Lib)
  | items (libs : List Lib)

/-- `_normalise_library_set`. -/
def normaliseLibrarySet [DecidableEq Lib] : Libraries Lib → Option (Finset Lib)
  | .none => none
  | .name lib => some {lib}
  | .items libs => some libs.toFinset

/-- `_normalise_runtime`. -/
def normaliseRuntime [LinearOrder R] [Zero R] (value : Option R) : Except Err (Option R) :=
  match value with
  | none => .ok none
  | some v => if v ≤ 0 then .error (.valueError "Runtime must be positive") else .ok (some v)

/-- `_normalise_max_children`. -/
def normaliseMaxChildren (value : Option ℤ) : Except Err (Option ℤ) :=
  match value with
  | none => .ok none
  | some v =>
    if v < 1 then .error (.valueError "max_children must be at least 1") else .ok (some v)

/-- The arguments a process is created with. -/
structure NewArgs (R Lib : Type) where
  hasTarget : Bool
  sandboxed : Bool
  ring : ℤ
  allowedLibraries : Libraries Lib
  maxRuntime : Option R
  canSpawn : Bool
  maxChildren : Option ℤ

/-- The arguments of `spawn_child`: sandboxing and ring default to the parent's. -/
structure SpawnArgs (R Lib : Type) where
  hasTarget : Bool
  sandboxed : Option Bool
  ring : Option ℤ
  allowedLibraries : Libraries Lib
  maxRuntime : Option R
  canSpawn : Bool
  maxChildren : Option ℤ

variable [LinearOrder R] [Zero R] [Add R] [DecidableEq Lib]

/-! ## §3. `_refresh_permissions`. -/

/-- `_update_deadline`. -/
def updateDeadline (p : Process R Lib) : Process R Lib :=
  match p.effective.maxRuntime with
  | none => { p with deadline := none }
  | some limit =>
    match p.startTime with
    | none => p
    | some start => { p with deadline := some (start + limit) }

/-- `_refresh_permissions(propagate=False)`. -/
def refreshSelf (m : Manager R Lib) (p : Pid) : Manager R Lib :=
  m.modify p fun q =>
    let q := { q with effective := restrict ((m.parent p).map m.effective) q.requested }
    if q.state = .running then updateDeadline q else q

/-- `_refresh_permissions(propagate=True)`: the object first, then every child. -/
def refreshPermissions : ℕ → Manager R Lib → Pid → Except Halt (Manager R Lib)
  | 0, _, _ => .error .fuel
  | fuel + 1, m, p =>
    let m := refreshSelf m p
    (m.procs p).children.foldlM (fun m child => refreshPermissions fuel m child) m

/-! ## §4. The constructor. -/

/-- The object `Process.__init__` builds, before its permissions are refreshed. -/
def newProcess (parent : Option Pid) (hasTarget : Bool) (requested : Perms R Lib) :
    Process R Lib where
  parent := parent
  children := []
  state := .ready
  hasTarget := hasTarget
  startTime := none
  deadline := none
  requested := requested
  canKillParent := false
  effective := { noPerms R Lib with ring := requested.ring }

/-- `Process.__init__`.  The pid is taken before the arguments are checked, so a
constructor that raises has used one up. -/
def initProcess (m : Manager R Lib) (parent : Option Pid) (args : NewArgs R Lib) :
    Outcome R Lib Pid :=
  if ¬(args.ring = 0 ∨ args.ring = 3) then (.error (.valueError "Ring must be 0 or 3"), m)
  else
    let pid := m.pidCounter
    let m := { m with pidCounter := pid + 1 }
    match normaliseRuntime args.maxRuntime with
    | .error e => (.error e, m)
    | .ok maxRuntime =>
      match normaliseMaxChildren args.maxChildren with
      | .error e => (.error e, m)
      | .ok maxChildren =>
        let requested :=
          { sandboxed := args.sandboxed
            allowedLibraries := normaliseLibrarySet args.allowedLibraries
            maxRuntime := maxRuntime
            canSpawn := args.canSpawn
            maxChildren := maxChildren
            ring := args.ring }
        let m := m.modify pid fun _ => newProcess parent args.hasTarget requested
        let m := m.register pid
        (.ok pid, refreshSelf m pid)

/-- `create_kernel_process`. -/
def createKernelProcess (m : Manager R Lib) (args : NewArgs R Lib) : Outcome R Lib Pid :=
  match m.root with
  | some _ => (.error (.processError "Kernel process already exists"), m)
  | none =>
    match initProcess m none args with
    | (.error e, m) => (.error e, m)
    | (.ok pid, m) => (.ok pid, { m with root := some pid })

/-- The children of `p` that are not terminated. -/
def activeChildren (m : Manager R Lib) (p : Pid) : List Pid :=
  (m.procs p).children.filter fun c => (m.procs c).state ≠ .terminated

/-- `self.max_children is not None and len(active_children) >= self.max_children`. -/
def childLimitReached (m : Manager R Lib) (p : Pid) : Bool :=
  match (m.effective p).maxChildren with
  | none => false
  | some limit => decide (limit ≤ ((activeChildren m p).length : ℤ))

/-- `spawn_child`. -/
def spawnChild (fuel : ℕ) (m : Manager R Lib) (p : Pid) (args : SpawnArgs R Lib) :
    Except Halt (Outcome R Lib Pid) :=
  if (m.effective p).canSpawn = false then
    .ok (.error (.permissionError "Spawning new processes is not permitted"), m)
  else if childLimitReached m p then
    .ok (.error (.permissionError "Maximum child processes reached"), m)
  else
    let newArgs : NewArgs R Lib :=
      { hasTarget := args.hasTarget
        sandboxed := args.sandboxed.getD (m.effective p).sandboxed
        ring := args.ring.getD (m.effective p).ring
        allowedLibraries := args.allowedLibraries
        maxRuntime := args.maxRuntime
        canSpawn := args.canSpawn
        maxChildren := args.maxChildren }
    match initProcess m (some p) newArgs with
    | (.error e, m) => .ok (.error e, m)
    | (.ok child, m) => do
      let m := m.modify p fun q => { q with children := setKey q.children child }
      let m ← refreshPermissions fuel m child
      .ok (.ok child, m)

/-! ## §5. Control, and the permission setters. -/

/-- The loop of `assert_control`. -/
def controlLoop (m : Manager R Lib) (controller : Pid) : ℕ → Option Pid → Except Halt Bool
  | 0, _ => .error .fuel
  | _ + 1, none => .ok false
  | fuel + 1, some node =>
    if node = controller then .ok true else controlLoop m controller fuel (m.parent node)

/-- `assert_control(controller, target)`, for two processes. -/
def assertControl (fuel : ℕ) (m : Manager R Lib) (controller target : Pid) :
    Except Halt (Except Err Unit) :=
  if controller = target then .ok (.ok ())
  else do
    let owns ← controlLoop m controller fuel (some target)
    if owns then .ok (.ok ())
    else .ok (.error (.permissionError "Controller does not own target"))

/-- A setter called with `by=caller`: check the control of `p`, change what `p` requests, and
refresh.  Every permission setter is this with its own change. -/
def setPermission (fuel : ℕ) (m : Manager R Lib) (p : Pid) (caller : Option Pid)
    (change : Perms R Lib → Except Err (Perms R Lib)) : Except Halt (Outcome R Lib Unit) := do
  match ← assertControl fuel m (caller.getD p) p with
  | .error e => .ok (.error e, m)
  | .ok () =>
    match change (m.requested p) with
    | .error e => .ok (.error e, m)
    | .ok requested => do
      let m ← refreshPermissions fuel (m.modify p fun q => { q with requested := requested }) p
      .ok (.ok (), m)

/-- The change `set_allowed_libraries` makes. -/
def changeLibraries (libraries : Libraries Lib) (r : Perms R Lib) :
    Except Err (Perms R Lib) :=
  .ok { r with allowedLibraries := normaliseLibrarySet libraries }

def setAllowedLibraries (fuel : ℕ) (m : Manager R Lib) (p : Pid) (libraries : Libraries Lib)
    (caller : Option Pid) : Except Halt (Outcome R Lib Unit) :=
  setPermission fuel m p caller (changeLibraries libraries)

/-- The change `add_allowed_library` makes: `None` becomes a set of one. -/
def addLibrary (library : Lib) (r : Perms R Lib) : Except Err (Perms R Lib) :=
  .ok { r with allowedLibraries := some (insert library (r.allowedLibraries.getD ∅)) }

def addAllowedLibrary (fuel : ℕ) (m : Manager R Lib) (p : Pid) (library : Lib)
    (caller : Option Pid) : Except Halt (Outcome R Lib Unit) :=
  setPermission fuel m p caller (addLibrary library)

/-- The change `remove_allowed_library` makes: an EMPTY set becomes `None`. -/
def removeLibrary (library : Lib) (r : Perms R Lib) : Except Err (Perms R Lib) :=
  match r.allowedLibraries with
  | none => .error (.permissionError "No explicit library restrictions to remove from")
  | some libs =>
    .ok { r with allowedLibraries :=
            if libs.erase library = ∅ then none else some (libs.erase library) }

def removeAllowedLibrary (fuel : ℕ) (m : Manager R Lib) (p : Pid) (library : Lib)
    (caller : Option Pid) : Except Halt (Outcome R Lib Unit) :=
  setPermission fuel m p caller (removeLibrary library)

/-- The change `set_max_runtime` makes. -/
def changeRuntime (seconds : Option R) (r : Perms R Lib) : Except Err (Perms R Lib) :=
  (normaliseRuntime seconds).map fun limit => { r with maxRuntime := limit }

def setMaxRuntime (fuel : ℕ) (m : Manager R Lib) (p : Pid) (seconds : Option R)
    (caller : Option Pid) : Except Halt (Outcome R Lib Unit) :=
  setPermission fuel m p caller (changeRuntime seconds)

/-- The change `set_sandboxed` makes. -/
def changeSandboxed (sandboxed : Bool) (r : Perms R Lib) : Except Err (Perms R Lib) :=
  .ok { r with sandboxed := sandboxed }

def setSandboxed (fuel : ℕ) (m : Manager R Lib) (p : Pid) (sandboxed : Bool)
    (caller : Option Pid) : Except Halt (Outcome R Lib Unit) :=
  setPermission fuel m p caller (changeSandboxed sandboxed)

/-- The change `set_can_spawn` makes. -/
def changeCanSpawn (canSpawn : Bool) (r : Perms R Lib) : Except Err (Perms R Lib) :=
  .ok { r with canSpawn := canSpawn }

def setCanSpawn (fuel : ℕ) (m : Manager R Lib) (p : Pid) (canSpawn : Bool)
    (caller : Option Pid) : Except Halt (Outcome R Lib Unit) :=
  setPermission fuel m p caller (changeCanSpawn canSpawn)

/-- The change `set_max_children` makes. -/
def changeMaxChildren (maxChildren : Option ℤ) (r : Perms R Lib) : Except Err (Perms R Lib) :=
  (normaliseMaxChildren maxChildren).map fun limit => { r with maxChildren := limit }

def setMaxChildren (fuel : ℕ) (m : Manager R Lib) (p : Pid) (maxChildren : Option ℤ)
    (caller : Option Pid) : Except Halt (Outcome R Lib Unit) :=
  setPermission fuel m p caller (changeMaxChildren maxChildren)

/-- The change `set_ring_level` makes. -/
def changeRing (ring : ℤ) (r : Perms R Lib) : Except Err (Perms R Lib) :=
  .ok { r with ring := ring }

/-- `set_ring_level`: the ring is checked before the controller. -/
def setRingLevel (fuel : ℕ) (m : Manager R Lib) (p : Pid) (ring : ℤ) (caller : Option Pid) :
    Except Halt (Outcome R Lib Unit) :=
  if ¬(ring = 0 ∨ ring = 3) then .ok (.error (.valueError "Ring must be 0 or 3"), m)
  else setPermission fuel m p caller (changeRing ring)

/-- `set_can_kill_parent`. -/
def setCanKillParent (fuel : ℕ) (m : Manager R Lib) (p : Pid) (allow : Bool) (caller : Option Pid) :
    Except Halt (Outcome R Lib Unit) :=
  if m.parent p = none then
    .ok (.error (.permissionError "Root process cannot configure parent kill"), m)
  else if caller.getD p = p then
    .ok (.error (.permissionError "Child processes cannot self-authorise parent termination"), m)
  else do
    match ← assertControl fuel m (caller.getD p) p with
    | .error e => .ok (.error e, m)
    | .ok () => .ok (.ok (), m.modify p fun q => { q with canKillParent := allow })

/-! ## §6. Lifecycle. -/

/-- `load_library`, up to the import. -/
def loadLibrary [ToString Lib] (m : Manager R Lib) (p : Pid) (name : Lib) : Except Err Unit :=
  match (m.effective p).allowedLibraries with
  | none => .ok ()
  | some libs =>
    if name ∈ libs then .ok ()
    else .error (.permissionError s!"Library '{name}' is not permitted")

/-- `run` up to the call of the target, at time `now`. -/
def runEnter (m : Manager R Lib) (p : Pid) (newTarget : Bool) (now : R) : Outcome R Lib Unit :=
  if (m.procs p).state = .terminated then
    (.error (.stateError "Process already terminated"), m)
  else
    let m := m.modify p fun q => { q with hasTarget := q.hasTarget || newTarget }
    if (m.procs p).hasTarget = false then
      (.error (.stateError "No target callable provided"), m)
    else
      (.ok (), m.modify p fun q =>
        { q with
          state := .running
          startTime := some now
          deadline := q.effective.maxRuntime.map fun limit => now + limit })

/-- The `finally` of `run`. -/
def runLeave (m : Manager R Lib) (p : Pid) : Manager R Lib :=
  if (m.procs p).state = .terminated then m
  else m.modify p fun q => { q with state := .ready, startTime := none, deadline := none }

/-- The end of `_terminate`, after the children: leave the tree, the registry and the
running state. -/
def detach (m : Manager R Lib) (p : Pid) : Manager R Lib :=
  let m := m.modify p fun q => { q with children := [] }
  let m :=
    match m.parent p with
    | some parent => m.modify parent fun q => { q with children := q.children.erase p }
    | none => if m.root = some p then { m with root := none } else m
  let m := m.unregister p
  m.modify p fun q => { q with state := .terminated, startTime := none, deadline := none }

/-- `_terminate`: the children first, over a copy of the list. -/
def terminateTree : ℕ → Manager R Lib → Pid → Except Halt (Manager R Lib)
  | 0, _, _ => .error .fuel
  | fuel + 1, m, p =>
    if (m.procs p).state = .terminated then .ok m
    else do
      let m ← (m.procs p).children.foldlM (fun m child => terminateTree fuel m child) m
      .ok (detach m p)

/-- `terminate`. -/
def terminate (fuel : ℕ) (m : Manager R Lib) (p : Pid) (caller : Option Pid) :
    Except Halt (Outcome R Lib Unit) := do
  match ← assertControl fuel m (caller.getD p) p with
  | .error e => .ok (.error e, m)
  | .ok () => do
    let m ← terminateTree fuel m p
    .ok (.ok (), m)

/-- `check_runtime` at time `now`. -/
def checkRuntime (fuel : ℕ) (m : Manager R Lib) (p : Pid) (now : R) :
    Except Halt (Outcome R Lib Unit) :=
  if (m.procs p).state ≠ .running then .ok (.ok (), m)
  else
    match (m.procs p).deadline with
    | none => .ok (.ok (), m)
    | some deadline =>
      if deadline < now then do
        let m ← terminateTree fuel m p
        .ok (.error (.timeout s!"Process {p} exceeded runtime"), m)
      else .ok (.ok (), m)

/-- `kill_child`. -/
def killChild (fuel : ℕ) (m : Manager R Lib) (p childPid : Pid) (caller : Option Pid) :
    Except Halt (Outcome R Lib Unit) :=
  if childPid ∉ (m.procs p).children then
    .ok (.error (.notFound s!"Child process {childPid} not found"), m)
  else do
    match ← assertControl fuel m (caller.getD p) childPid with
    | .error e => .ok (.error e, m)
    | .ok () => do
      let m ← terminateTree fuel m childPid
      .ok (.ok (), m)

/-- One turn of the adoption loop of `_promote_child`. -/
def adopt (p child : Pid) (m : Manager R Lib) (sibling : Pid) : Manager R Lib :=
  let m := m.modify p fun q => { q with children := q.children.erase sibling }
  let m := m.modify child fun q => { q with children := setKey q.children sibling }
  m.modify sibling fun q => { q with parent := some child }

/-- `_promote_child` up to the refresh: `child` takes the place of `p`, and the siblings
become its children. -/
def relink (m : Manager R Lib) (p child : Pid) : Manager R Lib :=
  let grandparent := m.parent p
  let m := m.modify p fun q => { q with children := q.children.erase child }
  let m := m.modify child fun q => { q with parent := grandparent }
  let m :=
    match grandparent with
    | none => { m with root := some child }
    | some g => m.modify g fun q => { q with children := setKey (q.children.erase p) child }
  (m.procs p).children.foldl (adopt p child) m

/-- `_promote_child`. -/
def promoteChild (fuel : ℕ) (m : Manager R Lib) (p child : Pid) :
    Except Halt (Outcome R Lib Unit) :=
  if child ∉ (m.procs p).children then
    .ok (.error (.notFound s!"Process {child} is not a child of {p}"), m)
  else do
    let m := relink m p child
    let m ← refreshPermissions fuel m child
    let m ← (m.procs child).children.foldlM (fun m adopted => refreshPermissions fuel m adopted) m
    let m := m.modify child fun q => { q with canKillParent := false }
    let m ← terminateTree fuel m p
    .ok (.ok (), m)

/-- `request_parent_termination`. -/
def requestParentTermination (fuel : ℕ) (m : Manager R Lib) (p : Pid) :
    Except Halt (Outcome R Lib Unit) :=
  match m.parent p with
  | none => .ok (.error (.permissionError "No parent to terminate"), m)
  | some parent =>
    if (m.procs p).canKillParent = false then
      .ok (.error (.permissionError "Permission to terminate parent denied"), m)
    else promoteChild fuel m parent p

end Methods

end ExoCore.ProcTree
