/-
  ExoCore.Sys.Bodies — PROGRAMS that start programs.

  A `Body` is a program as the process table sees it: a finite sequence of
  `SYS_PROC_SPAWN`, `SYS_EXIT`, `SYS_PROC_WAIT` and `SYS_PROC_KILL`, in which every
  spawn carries the body of the program it would start.  `run` sends each call through
  `syscall_dispatch`; `proc_spawn_exec` runs the child's body in the middle of the
  call.  A body may kill any process, also those it was started by.

  Main results:
    • `run_focus` — between its calls a program's process is current while it can run;
    • `nested_programs` — and `proc_start_flat` gives the caller back its place.
-/
import ExoCore.Elf.Contents
import ExoCore.Sys.CopyOut
import ExoCore.Proc.Focus
import ExoCore.Proc.Unwind

namespace ExoCore.Sys

open ExoCore.Lib ExoCore.Vfs ExoCore.Proc

/-! ## §1. Programs. -/

/-- The four calls. -/
inductive Number where
  | spawn
  | exit
  | wait
  | kill
  deriving Repr, DecidableEq

/-- `SYS_PROC_SPAWN`, `SYS_EXIT`, `SYS_PROC_WAIT`, `SYS_PROC_KILL`. -/
def Number.num : Number → UInt64
  | .spawn => 6
  | .exit => 1
  | .wait => 18
  | .kill => 19

/-- A program: what it calls, with what the outside answers at that time, and the program that
runs if the call is a spawn. -/
inductive Body where
  | done
  | call (env : Env) (n : Number) (a1 a2 a3 : UInt64) (heap : SpawnEnv) (child rest : Body)

/-- The four calls halt in `proc.c` only. -/
def Halt.inProc : Halt → Proc.Halt
  | .proc halt => halt
  | .vfs fault => .vfs fault
  | .fs _ => .badFree
  | .mem _ => .badFree

/-- The state a reply leaves. -/
def Reply.proc (r : Reply) : Except Proc.Halt ProcState :=
  (r.result.map fun r => r.2.proc).mapError Halt.inProc

/-- One call, through `syscall_dispatch`; the rest of the kernel is `k`. -/
def callOnce (k : Kernel) (env : Env) (n : Number) (a1 a2 a3 : UInt64)
    (spawn : ProcState → ℤ → Str → Except Proc.Halt (ℤ × ProcState)) (s : ProcState) :
    Except Proc.Halt ProcState :=
  (syscallDispatch { env with spawn := spawn } 0 { k with proc := s } n.num a1 a2 a3).proc

/-- A program runs to its end. -/
def run (k : Kernel) : Body → ProcState → Except Proc.Halt ProcState
  | .done, s => .ok s
  | .call env n a1 a2 a3 heap child rest, s => do
    let s ← callOnce k env n a1 a2 a3 (procSpawnExec heap (run k child)) s
    run k rest s

/-- The states between its calls, the first and the last one included. -/
def states (k : Kernel) : Body → ProcState → List ProcState
  | .done, s => [s]
  | .call env n a1 a2 a3 heap child rest, s =>
    s :: match callOnce k env n a1 a2 a3 (procSpawnExec heap (run k child)) s with
      | .ok s => states k rest s
      | .error _ => []

/-! ## §2. The states that can come about. -/

/-- Reached from the boot by calls of the interface, spawns, and starts and ends of programs;
the files may change at any time. -/
inductive Reachable : ProcState → Prop
  | boot (s : ProcState) : Reachable (boot s).state
  | call {s s' : ProcState} {env : Proc.Env} {op : Proc.Op} {r : Proc.Ret} (hs : Reachable s)
      (h : Proc.exec env s op = .ok (r, s')) : Reachable s'
  | files {s : ProcState} (hs : Reachable s) (vfs : VfsState) : Reachable { s with vfs := vfs }
  | spawn {s s' : ProcState} {env : SpawnEnv} {parentPid : ℤ} {path : Str} {q : Prepared}
      (hs : Reachable s) (h : spawnPrepare env s parentPid path = .ok (q, s')) : Reachable s'
  | enter {s s' : ProcState} {pid : ℤ} (hs : Reachable s) (h : startEnter s pid = some s') :
      Reachable s'
  | leave {s s' : ProcState} {pid previous : ℤ} (hs : Reachable s)
      (h : startLeave s pid previous = .ok s') : Reachable s'

theorem Reachable.inv {s : ProcState} (h : Reachable s) : TableInv s.table := by
  induction h with
  | boot s => exact boot_inv s
  | call _ hexec ih => exact (exec_table hexec).inv ih
  | files _ _ ih => exact ih
  | spawn _ hspawn ih => exact (spawnPrepare_ok ih hspawn).inv
  | enter _ henter ih => exact (startEnter_table henter).inv ih
  | leave _ hleave ih => exact (startLeave_table hleave).inv ih

theorem Reachable.startFlat {s s' : ProcState} {pid r : ℤ}
    {body : ProcState → Except Proc.Halt ProcState} (hs : Reachable s)
    (hbody : ∀ t t', startEnter s pid = some t → body t = .ok t' → Reachable t')
    (h : procStartFlat body s pid = .ok (r, s')) : Reachable s' := by
  unfold procStartFlat at h
  split at h
  · cases h
    exact hs
  rename_i t henter
  obtain ⟨t', hrun, h⟩ := bind_ok.mp h
  obtain ⟨t'', hleave, h⟩ := bind_ok.mp h
  cases h
  exact (hbody t t' henter hrun).leave hleave

/-! ## §3. One call. -/

section Call

variable {k : Kernel} {env : Env} {n : Number} {a1 a2 a3 : UInt64} {s s' : ProcState}
  {spawn : ProcState → ℤ → Str → Except Proc.Halt (ℤ × ProcState)}

/-- What one of the four calls does when `proc.c` is asked at all. -/
def Effect (env : Env) (spawn : ProcState → ℤ → Str → Except Proc.Halt (ℤ × ProcState))
    (n : Number) (a1 a2 : ℕ) (s s' : ProcState) : Prop :=
  match n with
  | .spawn => ∃ r, spawn s s.currentPid (pathAt env a1) = .ok (r, s')
  | .exit => ∃ r, procExit s s.currentPid (toInt a1) = .ok (r, s')
  | .wait => ∃ r, procWait s s.currentPid (toInt a1) = .ok (r, s')
  | .kill => ∃ r, procKill s (toInt a1) (toInt a2) = .ok (r, s')

theorem attempt_ok {α : Type} {r : Except Proc.Halt α} {f : α → ℕ × Kernel} {trace : List Event}
    (h : (attempt (r.mapError Halt.proc) f trace).proc = .ok s') :
    ∃ a, r = .ok a ∧ (f a).2.proc = s' := by
  cases r with
  | error e => cases h
  | ok a =>
    cases h
    exact ⟨a, rfl, rfl⟩

/-- A check before the call lets it through or answers `-1`. -/
theorem checked_ok {p len : ℕ} {body : Reply} (h : (checked env k p len body).proc = .ok s') :
    s' = k.proc ∨ body.proc = .ok s' := by
  unfold checked at h
  split at h
  · exact .inr h
  · cases h
    exact .inl rfl

/-- The switch. -/
theorem dispatch_effect {c : Sysno} (hc : sysnoOf n.num = some c)
    (h : (dispatch { env with spawn := spawn } 0 { k with proc := s } a1.toNat a2.toNat a3.toNat
      c).proc = .ok s') : s' = s ∨ Effect env spawn n a1.toNat a2.toNat s s' := by
  cases n with
  | spawn =>
    cases hc
    rcases checked_ok h with heq | h
    · exact .inl heq
    · obtain ⟨⟨r, s₁⟩, hr, rfl⟩ := attempt_ok h
      exact .inr ⟨r, hr⟩
  | exit =>
    cases hc
    obtain ⟨⟨r, s₁⟩, hr, rfl⟩ := attempt_ok h
    exact .inr ⟨r, hr⟩
  | wait =>
    cases hc
    have hwait : ∀ {dst : ℕ},
        (waitChild { k with proc := s } (toInt a1.toNat) dst).proc = .ok s' →
          Effect env spawn .wait a1.toNat a2.toNat s s' := by
      intro dst h
      obtain ⟨⟨r, s₁⟩, hr, rfl⟩ := attempt_ok h
      exact ⟨r, hr⟩
    replace h : (if a2.toNat ≠ 0 then
          checked { env with spawn := spawn } { k with proc := s } a2.toNat 4
            (waitChild { k with proc := s } (toInt a1.toNat) a2.toNat)
        else waitChild { k with proc := s } (toInt a1.toNat) a2.toNat).proc = .ok s' := h
    split at h
    · exact (checked_ok h).imp_right hwait
    · exact .inr (hwait h)
  | kill =>
    cases hc
    obtain ⟨⟨r, s₁⟩, hr, rfl⟩ := attempt_ok h
    exact .inr ⟨r, hr⟩

/-- **One call**: refused, or made for a current process that is running. -/
theorem callOnce_cases (h : callOnce k env n a1 a2 a3 spawn s = .ok s') :
    s' = s ∨ (procCurrentValid s = true ∧ Effect env spawn n a1.toNat a2.toNat s s') := by
  have hc : ∃ c, sysnoOf n.num = some c := by
    cases n <;> exact ⟨_, rfl⟩
  obtain ⟨c, hc⟩ := hc
  unfold callOnce syscallDispatch at h
  rw [hc] at h
  dsimp only at h
  split at h
  · cases h
    exact .inl rfl
  · rename_i hrefused
    refine (dispatch_effect hc h).imp_right fun heffect => ⟨?_, heffect⟩
    by_contra hvalid
    have hreq : currentRequired (some c) = true := by
      cases n <;> · cases hc; rfl
    exact hrefused ⟨hreq, Bool.eq_false_of_not_eq_true hvalid⟩

end Call

/-! ## §4. Whole programs. -/

section Programs

variable {k : Kernel} {env : Env} {n : Number} {a1 a2 a3 : UInt64} {s s' : ProcState} {p : ℤ}

/-- What a program keeps. -/
def Keeping (p : ℤ) (s : ProcState) : Prop := Reachable s ∧ Focus s.table p

theorem Keeping.enter (hs : Reachable s) (h : startEnter s p = some s') : Keeping p s' :=
  ⟨hs.enter h, (startEnter_focus h hs.inv).2⟩

/-- Only the process itself makes calls that are not refused. -/
theorem Keeping.current (h : Keeping p s) (hvalid : procCurrentValid s = true) :
    s.currentPid = p := by
  by_contra hne
  have hgone : ¬ s.table.LiveAt p := fun hlive => hne (h.2.live hlive)
  have h0 : s.currentPid = 0 := h.2.gone hgone
  unfold procCurrentValid at hvalid
  rw [h0] at hvalid
  cases hi : findProc s 0 <;> rw [hi] at hvalid <;> cases hvalid

/-- **A spawn in a program**, when the child's program does its part. -/
theorem Keeping.spawn {heap : SpawnEnv} {body : ProcState → Except Proc.Halt ProcState} {r : ℤ}
    {path : Str} (h : Keeping p s) (hvalid : procCurrentValid s = true)
    (hbody : ∀ q t t', Keeping q t → body t = .ok t' → Keeping q t')
    (hspawn : procSpawnExec heap body s s.currentPid path = .ok (r, s')) : Keeping p s' := by
  obtain ⟨⟨q, s₁⟩, hprepare, hstart⟩ := bind_ok.mp hspawn
  have hok := spawnPrepare_ok h.1.inv hprepare
  have hs₁ : Reachable s₁ := h.1.spawn hprepare
  cases q with
  | failed r₁ =>
    cases hstart
    exact ⟨hs₁, hok.failed _ rfl p h.2⟩
  | ready pid =>
    obtain ⟨⟨r₁, s₂⟩, hflat, hret⟩ := bind_ok.mp hstart
    cases hret
    have hkeep : ∀ t t', startEnter s₁ pid = some t → body t = .ok t' → Keeping pid t' :=
      fun t t' henter => hbody pid t t' (.enter hs₁ henter)
    refine ⟨hs₁.startFlat (fun t t' he hr => (hkeep t t' he hr).1) hflat, ?_⟩
    -- the caller is the process that was current before
    have hcur : s₁.currentPid = p := hok.current.trans (h.current hvalid)
    rcases startFlat_focus (fun t t' he hr => (hkeep t t' he hr).imp_left Reachable.inv) hflat with
      ⟨-, heq⟩ | ⟨-, -, hfocus⟩
    · have hfocus := hs₁.inv.focus_current
      rw [show s₁.table.current = p from hcur] at hfocus
      rw [heq]
      exact hfocus
    · rw [hcur] at hfocus
      exact hfocus

/-- **One call of a program.** -/
theorem Keeping.callOnce {heap : SpawnEnv} {body : ProcState → Except Proc.Halt ProcState}
    (h : Keeping p s) (hbody : ∀ q t t', Keeping q t → body t = .ok t' → Keeping q t')
    (hcall : Sys.callOnce k env n a1 a2 a3 (procSpawnExec heap body) s = .ok s') :
    Keeping p s' := by
  rcases callOnce_cases hcall with rfl | ⟨hvalid, heffect⟩
  · exact h
  have hinv := h.1.inv
  cases n with
  | spawn =>
    obtain ⟨r, hspawn⟩ := heffect
    exact h.spawn hvalid hbody hspawn
  | exit =>
    obtain ⟨r, hexit⟩ := heffect
    have hexec : Proc.exec env.proc s (.exit s.currentPid (toInt a1.toNat)) = .ok (.int r, s') :=
      map_ok.mpr ⟨_, hexit, rfl⟩
    exact ⟨h.1.call hexec, (procExitLocked_cases hexit).focus h.2 hinv⟩
  | wait =>
    obtain ⟨r, hwait⟩ := heffect
    have hexec : Proc.exec env.proc s (.wait s.currentPid (toInt a1.toNat)) = .ok (.status r, s') :=
      map_ok.mpr ⟨_, hwait, rfl⟩
    exact ⟨h.1.call hexec, procWait_focus h.2 hwait⟩
  | kill =>
    obtain ⟨r, hkill⟩ := heffect
    have hexec : Proc.exec env.proc s (.kill (toInt a1.toNat) (toInt a2.toNat)) =
        .ok (.int r, s') := by
      unfold Proc.exec
      dsimp only
      rw [hkill]
      rfl
    exact ⟨h.1.call hexec, (procKill_cases hkill).focus h.2 hinv⟩

/-- The state a program ends in is one of its states. -/
theorem run_mem_states (k : Kernel) (b : Body) : ∀ {s s' : ProcState},
    run k b s = .ok s' → s' ∈ states k b s := by
  induction b with
  | done =>
    intro s s' h
    cases h
    exact List.mem_singleton_self s
  | call env n a1 a2 a3 heap child rest _ ih =>
    intro s s' h
    obtain ⟨s₁, hcall, hrest⟩ := bind_ok.mp h
    unfold states
    rw [hcall]
    exact List.mem_cons_of_mem s (ih hrest)

/-- **A program keeps the focus on its process**, whatever programs it starts. -/
theorem run_focus (k : Kernel) (b : Body) : ∀ {p : ℤ} {s : ProcState},
    Keeping p s → ∀ t ∈ states k b s, Keeping p t := by
  -- on the program: the bodies of the children are parts of it
  induction b with
  | done =>
    intro p s h t ht
    rw [List.mem_singleton.mp ht]
    exact h
  | call env n a1 a2 a3 heap child rest ihchild ihrest =>
    intro p s h t ht
    unfold states at ht
    rcases List.mem_cons.mp ht with rfl | ht
    · exact h
    split at ht
    · rename_i s₁ hcall
      refine ihrest (h.callOnce (fun q u u' hq hrun => ?_) hcall) t ht
      exact ihchild hq u' (run_mem_states k child hrun)
    · cases ht

end Programs

/-- The process ended or is not there any more. -/
def Ended (s : ProcState) (p : ℤ) : Prop :=
  ∀ i, findProc s p = some i → procIsTerminalState (s.procs i).info.state = true

/-- **NESTED PROGRAMS**: between the calls of a program its process is current as long as it can
run, and afterwards nobody is; when `proc_start_flat` returns the process has ended, and the one
that was current before is current again, if it can still run. -/
theorem nested_programs (k : Kernel) (b : Body) (s : ProcState) (p : ℤ) (hs : Reachable s) :
    (∀ s₁, startEnter s p = some s₁ → ∀ t ∈ states k b s₁,
      (LiveProc t p → t.currentPid = p) ∧ (¬ LiveProc t p → t.currentPid = 0)) ∧
    ∀ s', procStartFlat (run k b) s p = .ok (0, s') →
      Ended s' p ∧
        (LiveProc s' s.currentPid → s'.currentPid = s.currentPid) ∧
        (¬ LiveProc s' s.currentPid → s'.currentPid = 0) := by
  have hbody : ∀ s₁, startEnter s p = some s₁ → ∀ t ∈ states k b s₁, Keeping p t :=
    fun s₁ henter => run_focus k b (.enter hs henter)
  refine ⟨fun s₁ henter t ht => ?_, fun s' hflat => ?_⟩
  · obtain ⟨hreach, hfocus⟩ := hbody s₁ henter t ht
    have hiff := liveProc_iff (p := p) hreach.inv.numbered.toRowsOk
    exact ⟨fun hl => hfocus.live (hiff.mp hl), fun hl => hfocus.gone fun hx => hl (hiff.mpr hx)⟩
  · have hrun : ∀ t t', startEnter s p = some t → run k b t = .ok t' → Keeping p t' :=
      fun t t' henter hrun => hbody t henter t' (run_mem_states k b hrun)
    have hreach := hs.startFlat (fun t t' he hr => (hrun t t' he hr).1) hflat
    have hrows := hreach.inv.numbered.toRowsOk
    rcases startFlat_focus (fun t t' he hr => (hrun t t' he hr).imp_left Reachable.inv) hflat with
      ⟨h0, -⟩ | ⟨-, hdead, hfocus⟩
    · exact absurd h0 (by decide)
    · refine ⟨fun i hi => ?_, fun hl => hfocus.live ((liveProc_iff hrows).mp hl),
        fun hl => hfocus.gone fun hx => hl ((liveProc_iff hrows).mpr hx)⟩
      by_contra hterm
      exact hdead ((liveProc_iff hrows).mp ⟨i, hi, Bool.eq_false_of_not_eq_true hterm⟩)

/-- Process 1 is current, and process 2 has an image. -/
def withImage : ProcState :=
  (procSetCurrent (procAttachImage env0 (procCreate (procCreate (boot blank).state [] 0).2 [] 1).2
    2 [] (some ⟨0, 0, 0x1000, 0x1000, 0x1000⟩)).2 1).2

theorem withImage_reachable : Reachable withImage := by
  have h₁ : Proc.exec env0 (boot blank).state (.create [] 0) = .ok _ := rfl
  have h₂ : Proc.exec env0 (procCreate (boot blank).state [] 0).2 (.create [] 1) = .ok _ := rfl
  have h₃ : Proc.exec env0 (procCreate (procCreate (boot blank).state [] 0).2 [] 1).2
    (.attachImage 2 [] (some ⟨0, 0, 0x1000, 0x1000, 0x1000⟩)) = .ok _ := rfl
  have h₄ : Proc.exec env0 (procAttachImage env0
    (procCreate (procCreate (boot blank).state [] 0).2 [] 1).2
    2 [] (some ⟨0, 0, 0x1000, 0x1000, 0x1000⟩)).2 (.setCurrent 1) = .ok _ := rfl
  exact ((((Reachable.boot blank).call h₁).call h₂).call h₃).call h₄

/-- `/a` holds a program. -/
def programVfs : VfsState :=
  (do
    let (_, v) ← vfsOpen (fun _ => none) (vfsInit Vfs.blank).2 pathA 0x16
    let (_, v) ← vfsWrite (fun n => some (1, ⟨n, fun _ => 0⟩)) v 0 (some Elf.overlapping)
    .ok (vfsClose v 0).2 : Except Vfs.Fault VfsState).toOption.getD Vfs.blank

/-- Starts `/a`, a program that kills itself, then kills itself too and goes on. -/
def killsItself : Body :=
  .call { bareEnv with cstr := fun _ => pathA } .spawn 0x400000 0 0 threeBlocks
    (.call bareEnv .kill 3 9 0 noHeap .done .done) <|
  .call bareEnv .kill 2 9 0 noHeap .done <|
  .call bareEnv .exit 0 0 0 noHeap .done .done

/-- Process 2 starts process 3; both are killed, and process 1 is back. -/
theorem nested_programs_spawned : ∃ s',
    procStartFlat (run bootKernel killsItself) { withImage with vfs := programVfs } 2 = .ok (0, s') ∧
      findProc s' 3 = some 2 ∧ Ended s' 2 ∧ LiveProc s' 1 ∧ s'.currentPid = 1 := by
  have heval : (procStartFlat (run bootKernel killsItself) { withImage with vfs := programVfs }
      2).toOption.map (fun r => (r.1, findProc r.2 3, findProc r.2 1,
        procIsTerminalState (r.2.procs 0).info.state)) = some (0, some 2, some 0, false) := by
    decide +kernel
  cases hflat : procStartFlat (run bootKernel killsItself) { withImage with vfs := programVfs } 2 with
  | error e =>
    rw [hflat] at heval
    cases heval
  | ok r =>
    obtain ⟨r, s'⟩ := r
    rw [hflat] at heval
    simp only [Except.toOption, Option.map_some, Option.some.injEq, Prod.mk.injEq] at heval
    obtain ⟨rfl, hchild, hfirst, hlive⟩ := heval
    obtain ⟨hended, hback, -⟩ := (nested_programs bootKernel killsItself
      { withImage with vfs := programVfs } 2 (withImage_reachable.files _)).2 s' hflat
    have hinit : LiveProc s' 1 := ⟨0, hfirst, hlive⟩
    exact ⟨s', rfl, hchild, hended, hinit, hback hinit⟩

end ExoCore.Sys
