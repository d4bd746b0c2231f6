/-
  ExoCore.Shell.Dmesg — the `dmesg` command of `run/userland/shelld.c`.

  The command reads the debug log piece by piece and prints each piece.  What is printed
  goes through the console, and the console feeds the log: the end of the log runs ahead
  of the reader, as many bytes as it has printed, until the log buffer is full.

  Main result: `dmesg_once_iff` — the command ends, and it prints just what the log held
  when it began exactly if the log was empty; otherwise it prints the buffer's whole
  capacity (`dmesg_returns`).
-/
import ExoCore.Sys.DebugLog

namespace ExoCore.Shell

open ExoCore.Lib ExoCore.Sys ExoCore.Fat

/-- `SYS_DMESG_READ` with room for `max` bytes: the bytes it copies out. -/
def dmesgRead (s : LogState) (max off : ℕ) : List UInt8 :=
  if s.pos ≤ off then [] else getBytes s.buf off (min (s.pos - off) max)

/-- **These are the bytes** that `SYS_DMESG_READ` of the kernel stores, and it returns their
number. -/
theorem readLog_eq {k : Kernel} {s : LogState} (h : LogView k s) (dst max off : ℕ) :
    (readLog k dst max off).result = .ok ((dmesgRead s max off).length, k) ∧
      ∀ e ∈ (readLog k dst max off).trace, e = .store dst (.bytes (dmesgRead s max off)) := by
  have hlen : k.log.length = s.pos := by rw [h.log]; exact length_getBytes s.buf 0 s.pos
  unfold readLog dmesgRead
  rw [hlen]
  split
  · exact ⟨rfl, fun e he => by cases he⟩
  · next hoff =>
      have hsplit : s.pos = off + (s.pos - off) := by omega
      have hbytes : (k.log.drop off).take (min (s.pos - off) max) =
          getBytes s.buf off (min (s.pos - off) max) := by
        rw [h.log, LogState.text, hsplit, ← getBytes_append,
          List.drop_left' (length_getBytes _ _ _), Nat.add_sub_cancel_left]
        unfold getBytes
        rw [← List.map_take, List.take_range, Nat.min_eq_left (Nat.min_le_left _ _)]
      dsimp only
      rw [hbytes, length_getBytes]
      exact ⟨rfl, fun e he => List.mem_singleton.mp he⟩

/-- The loop of the command, then `nl()`; `out` is what has been printed. -/
def dmesgLoop : ℕ → LogState → ℕ → List UInt8 → Except Unit (LogState × List UInt8)
  | 0, _, _, _ => .error ()
  | n + 1, s, off, out =>
    let b := dmesgRead s 256 off
    if 0 < b.length then dmesgLoop n (consolePuts s b) (off + b.length) (out ++ b)
    else .ok (consolePuts s [0x0A], out ++ [0x0A])

/-- The command `dmesg`. -/
def dmesg (fuel : ℕ) (s : LogState) : Except Unit (LogState × List UInt8) := dmesgLoop fuel s 0 []

/-- **A turn of the loop**, begun with a log of `len` bytes: what was printed is what the log
begins with, and the log has grown by as much as there was room for. -/
structure Echo (len size off : ℕ) (s : LogState) (out : List UInt8) : Prop where
  out : out = getBytes s.buf 0 off
  pos : s.pos = min (len + off) size
  size : s.size = size

section Reading

variable {len size off : ℕ} {s : LogState} {out : List UInt8}

theorem Echo.next (h : Echo len size off s out) (hoff : off < s.pos) :
    Echo len size (off + (dmesgRead s 256 off).length) (consolePuts s (dmesgRead s 256 off))
      (out ++ dmesgRead s 256 off) := by
  have hp := consolePuts_printed (dmesgRead s 256 off) s
  have hread : dmesgRead s 256 off = getBytes s.buf off (min (s.pos - off) 256) := by
    rw [dmesgRead, if_neg (by omega)]
  have hlen : (dmesgRead s 256 off).length = min (s.pos - off) 256 := by
    rw [hread, length_getBytes]
  have hsize := h.size
  have hpos := h.pos
  constructor
  · -- the part that was printed lies before the end of the log, so it stays
    rw [h.out, hlen, hread, getBytes_append]
    exact (getBytes_congr fun a _ ha => (hread ▸ hp).old (by omega)).symm
  · rw [hp.pos, List.length_take]
    omega
  · rw [hp.size, hsize]

/-- **The command ends**: a reader that has not come to the end of the log has printed less than
the buffer holds. -/
theorem dmesgLoop_returns (h : Echo len size off s out) (hoff : off ≤ s.pos) :
    ∃ s' out', Returns (fun n => dmesgLoop n s off out) (s', out' ++ [0x0A]) ∧
      out'.length = (if len = 0 then off else size) := by
  obtain ⟨k, hk⟩ : ∃ k, size - off = k := ⟨_, rfl⟩
  induction k using Nat.strong_induction_on generalizing off s out with
  | _ k ih =>
    have hpos := h.pos
    by_cases hend : off < s.pos
    · have hlen : (dmesgRead s 256 off).length = min (s.pos - off) 256 := by
        rw [dmesgRead, if_neg (by omega), length_getBytes]
      have hnext := h.next hend
      obtain ⟨s', out', hret, hout⟩ := ih _ (by omega) hnext (by have := hnext.pos; omega) rfl
      refine ⟨s', out', hret.turn fun n => ?_, ?_⟩
      · rw [dmesgLoop]
        exact if_pos (by omega)
      · rw [hout]
        split <;> omega
    · have hread : dmesgRead s 256 off = [] := if_pos (by omega)
      refine ⟨consolePuts s [0x0A], out, .stop fun n => ?_, ?_⟩
      · rw [dmesgLoop, hread]
        rfl
      · rw [h.out, length_getBytes]
        split <;> omega

end Reading

/-- What the command prints: nothing for an empty log, and otherwise as much as the log can
hold, however little it held. -/
theorem dmesg_returns (s : LogState) (h : s.pos < s.size) :
    ∃ s' out, Returns (fun n => dmesg n s) (s', out ++ [0x0A]) ∧
      out.length = (if s.pos = 0 then 0 else s.size) :=
  dmesgLoop_returns ⟨rfl, by omega, rfl⟩ (Nat.zero_le _)

/-- **The log is printed once** exactly if it is empty. -/
theorem dmesg_once_iff (s : LogState) (h : s.pos < s.size) :
    ∃ s' out, Returns (fun n => dmesg n s) (s', out) ∧ (out = s.text ++ [0x0A] ↔ s.pos = 0) := by
  obtain ⟨s', out, hret, hlen⟩ := dmesg_returns s h
  refine ⟨s', _, hret, ?_⟩
  have htext : s.text.length = s.pos := length_getBytes s.buf 0 s.pos
  constructor
  · intro heq
    have := congrArg List.length (List.append_cancel_right heq)
    split at hlen <;> omega
  · intro h0
    rw [if_pos h0] at hlen
    rw [List.length_eq_zero_iff.mp hlen, List.length_eq_zero_iff.mp (htext.trans h0)]

/-- A log buffer of the size `debuglog_init` asks for, with `n` bytes in it. -/
def filledLog (n : ℕ) : LogState where
  buf := fun _ => 0x78
  size := 64 * 1024
  pos := n
  fs := headerState 0
  shared := false

theorem dmesg_once_empty : ∃ s' out, Returns (fun n => dmesg n (filledLog 0)) (s', out) ∧
    (out = (filledLog 0).text ++ [0x0A] ↔ (filledLog 0).pos = 0) :=
  dmesg_once_iff (filledLog 0) (by decide)

/-- A log of one byte is printed 65536 times over. -/
theorem dmesg_repeats : ∃ s' out, Returns (fun n => dmesg n (filledLog 1)) (s', out) ∧
    out.length = 64 * 1024 + 1 ∧ out ≠ (filledLog 1).text ++ [0x0A] := by
  obtain ⟨s', out, hret, hlen⟩ := dmesg_returns (filledLog 1) (by decide)
  rw [if_neg (by decide)] at hlen
  have hcount : (out ++ [(0x0A : UInt8)]).length = 64 * 1024 + 1 := by
    rw [List.length_append, hlen]
    rfl
  refine ⟨s', _, hret, hcount, ?_⟩
  intro heq
  rw [heq] at hcount
  exact absurd hcount (by decide)

end ExoCore.Shell
