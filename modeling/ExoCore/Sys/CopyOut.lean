/-
  ExoCore.Sys.CopyOut — system calls store inside the ranges they have checked.

  A trace is COVERED when every byte of every store lies in a range that
  `user_ptr_valid` has accepted before.  Twelve of the fourteen calls with a result
  in caller memory are covered for all arguments.  The other two compute the length
  they check by a 64-bit MULTIPLICATION, which wraps:

    * `procList_escapes` — `SYS_PROC_LIST` with room for `2^61` entries checks 0 bytes;
    * `covered_iff`      — the exact condition: whatever is stored fits the product.
-/
import ExoCore.Sys.Dispatch
import ExoCore.Vfs.Listing

namespace ExoCore.Sys

open ExoCore.Lib ExoCore.Vfs ExoCore.Proc List

/-! ## §1. Covered traces. -/

/-- **Every stored byte has been checked**: it lies in a range accepted earlier. -/
def Covered (trace : List Event) : Prop :=
  ∀ before addr v after, trace = before ++ Event.store addr v :: after →
    ∀ i < v.size, ∃ p n, Event.check p n true ∈ before ∧ p ≤ add64 addr i ∧ add64 addr i < p + n

/-- Every stored byte lies in the range at `p`. -/
def Inside (p n : ℕ) (trace : List Event) : Prop :=
  ∀ addr v, Event.store addr v ∈ trace → ∀ i < v.size, p ≤ add64 addr i ∧ add64 addr i < p + n

/-- The part of a call after its checks. -/
def OnlyStores (trace : List Event) : Prop := ∀ e ∈ trace, ∃ addr v, e = Event.store addr v

theorem covered_nil : Covered [] := by
  intro before addr v after h
  cases before <;> cases h

/-- A further check does no harm. -/
theorem Covered.check {t : List Event} (h : Covered t) (p n : ℕ) (ok : Bool) :
    Covered (.check p n ok :: t) := by
  intro before addr v after heq i hi
  cases before with
  | nil => cases heq
  | cons e before =>
    obtain ⟨rfl, ht⟩ := List.cons.inj heq
    obtain ⟨p', n', hmem, hin⟩ := h before addr v after ht i hi
    exact ⟨p', n', mem_cons_of_mem _ hmem, hin⟩

/-- **One check, then stores.** -/
theorem covered_check_iff {t : List Event} (ht : OnlyStores t) (p n : ℕ) :
    Covered (.check p n true :: t) ↔ Inside p n t := by
  constructor
  · intro h addr v hmem i hi
    obtain ⟨before, after, rfl⟩ := append_of_mem hmem
    obtain ⟨p', n', hcheck, hin⟩ := h (.check p n true :: before) addr v after rfl i hi
    rcases mem_cons.mp hcheck with heq | hcheck
    · cases heq
      exact hin
    · obtain ⟨_, _, hstore⟩ := ht _ (mem_append_left _ hcheck)
      cases hstore
  · intro h before addr v after heq i hi
    cases before with
    | nil => cases heq
    | cons e before =>
      obtain ⟨rfl, rfl⟩ := List.cons.inj heq
      refine ⟨p, n, mem_cons_self .., h addr v ?_ i hi⟩
      exact mem_append_right _ (mem_cons_self ..)

/-! ## §2. Checked ranges. -/

theorem add64_add64 (p x y : ℕ) : add64 (add64 p x) y = add64 p (x + y) := by
  unfold add64
  omega

/-- The range `[p, p+n)` does not wrap, and lies past the kernel, on the stack or in the image
of the current process. -/
def Accepted (env : Env) (k : Kernel) (p n : ℕ) : Prop :=
  p + n < 2 ^ 64 ∧
    (env.kEnd ≤ p ∨ ∃ info, procInfo k.proc k.proc.currentPid = some info ∧
      ((4096 ≤ info.stackPointer ∧ info.stackPointer - 4096 ≤ p ∧ p + n ≤ info.stackPointer) ∨
        (info.imageBase ≠ 0 ∧ info.imageBase ≤ p ∧
          p + n ≤ add64 info.imageBase info.imageSize)))

variable {n p : ℕ}

/-- **`user_ptr_valid`.** -/
theorem userPtrValid_iff {env : Env} {k : Kernel} (hp : p < 2 ^ 64) (hn : n < 2 ^ 64) :
    userPtrValid env k p n = true ↔ Accepted env k p n := by
  unfold userPtrValid Accepted
  by_cases hwrap : p + n < 2 ^ 64
  · rw [add64_of_lt hwrap, and_iff_right hwrap]
    dsimp only
    rw [if_neg (by omega)]
    by_cases hend : env.kEnd ≤ p
    · simp [hend]
    · rw [if_neg hend]
      cases procInfo k.proc k.proc.currentPid with
      | none => simp [hend]
      | some info => simp [hend, and_assoc]
  · have hsmall : add64 p n < p := by
      unfold add64
      omega
    dsimp only
    rw [if_pos hsmall]
    exact iff_of_false Bool.false_ne_true fun h => hwrap h.1

/-- An offset is below `n` exactly when its address is in the range. -/
theorem in_range_iff {x : ℕ} (hp : p + n < 2 ^ 64) (hx : x < 2 ^ 64) :
    (p ≤ add64 p x ∧ add64 p x < p + n) ↔ x < n := by
  unfold add64
  omega

/-- A store of `v` at offset `off` of the range. -/
theorem inside_of_le {off i : ℕ} {v : Value} (hp : p + n < 2 ^ 64) (hoff : off + v.size ≤ n)
    (hi : i < v.size) : p ≤ add64 (add64 p off) i ∧ add64 (add64 p off) i < p + n := by
  rw [add64_add64]
  exact (in_range_iff hp (by omega)).mpr (by omega)

/-! ## §3. Replies. -/

section Replies

variable {env : Env} {k : Kernel} {p n : ℕ} {body : Reply}

/-- A call that stores nothing of its own. -/
theorem checked_of_covered (h : Covered body.trace) : Covered (checked env k p n body).trace := by
  unfold checked
  split
  · exact h.check p n true
  · exact covered_nil.check p n false

/-- A checked call whose stores stay inside what it has checked. -/
theorem checked_iff (hp : p < 2 ^ 64) (hn : n < 2 ^ 64) (hb : OnlyStores body.trace) :
    Covered (checked env k p n body).trace ↔ (Accepted env k p n → Inside p n body.trace) := by
  unfold checked
  by_cases hv : userPtrValid env k p n = true
  · rw [if_pos hv]
    have hacc := (userPtrValid_iff hp hn).mp hv
    rw [covered_check_iff hb]
    exact ⟨fun h _ => h, fun h => h hacc⟩
  · rw [if_neg hv]
    refine iff_of_true (covered_nil.check p n false) fun hacc => ?_
    exact absurd ((userPtrValid_iff hp hn).mpr hacc) hv

theorem onlyStores_nil : OnlyStores [] := fun _ he => absurd he not_mem_nil

variable {t : List Event} {v : Value}

theorem OnlyStores.cons (h : OnlyStores t) (addr : ℕ) (v : Value) :
    OnlyStores (.store addr v :: t) := by
  intro e he
  rcases mem_cons.mp he with rfl | he
  · exact ⟨addr, v, rfl⟩
  · exact h e he

/-- The reply stores, and only into the range at `p`. -/
structure Fits (p n : ℕ) (r : Reply) : Prop where
  stores : OnlyStores r.trace
  inside : p + n < 2 ^ 64 → Inside p n r.trace

theorem Fits.none (h : body.trace = []) : Fits p n body := by
  refine ⟨?_, fun _ addr v hmem => ?_⟩
  · rw [h]
    exact onlyStores_nil
  · rw [h] at hmem
    cases hmem

/-- A record: a store at the start of the range, then stores at offsets in it. -/
theorem Fits.record (l : List (ℕ × Value))
    (h : body.trace = .store p v :: l.map fun f => .store (add64 p f.1) f.2) (hv : v.size ≤ n)
    (hl : ∀ f ∈ l, f.1 + f.2.size ≤ n) : Fits p n body := by
  refine ⟨fun e he => ?_, fun hp addr w hmem i hi => ?_⟩
  · rw [h] at he
    rcases mem_cons.mp he with rfl | he
    · exact ⟨p, v, rfl⟩
    · obtain ⟨f, -, rfl⟩ := mem_map.mp he
      exact ⟨_, _, rfl⟩
  · rw [h] at hmem
    rcases mem_cons.mp hmem with heq | hmem
    · cases heq
      exact (in_range_iff hp (by omega)).mpr (by omega)
    · obtain ⟨f, hf, heq⟩ := mem_map.mp hmem
      cases heq
      exact inside_of_le hp (hl f hf) hi

/-- One store, at the start of the range. -/
theorem Fits.single (h : body.trace = [.store p v]) (hv : v.size ≤ n) : Fits p n body :=
  .record [] h hv nofun

theorem Fits.checked (h : Fits p n body) (hp : p < 2 ^ 64) (hn : n < 2 ^ 64) :
    Covered (checked env k p n body).trace :=
  (checked_iff hp hn h.stores).mpr fun hacc => h.inside hacc.1

end Replies

/-! ## §4. The calls that stay inside. -/

section Calls

variable {env : Env} {k : Kernel} {dst len : ℕ}

/-- A read whose length, computed before the copy, is at most `len`. -/
theorem fits_read {ε α : Type} {r : Except ε (Option (List UInt8) × α)} {m : ℕ} {body : Reply}
    (htrace : body.trace = readStores dst m r) (hm : m ≤ len)
    (hok : ∀ l a, r = .ok (some l, a) → l.length ≤ len) : Fits dst len body := by
  cases r with
  | error e => exact .single htrace hm
  | ok r =>
    obtain ⟨l, a⟩ := r
    cases l with
    | none => exact .none htrace
    | some l => exact .single htrace (hok l a rfl)

theorem vfsReadLen_le (s : VfsState) (fd : ℤ) (buf : Bool) (len : ℕ) :
    vfsReadLen s fd buf len ≤ len := by
  unfold vfsReadLen
  cases Vfs.openSlot s fd with
  | none => exact Nat.zero_le _
  | some slot =>
    dsimp only
    -- the clipped length is shorter, whether or not the sum wraps
    have hsum : add64 (s.openFiles slot).offset len ≤ (s.openFiles slot).offset + len :=
      Nat.mod_le _ _
    split_ifs <;> omega

variable {s : VfsState} {l : List UInt8}

/-- **`vfs_read` copies as many bytes as it computes.** -/
theorem vfsRead_length {s' : VfsState} {fd : ℤ} {buf : Bool}
    (h : vfsRead s fd buf len = .ok (some l, s')) : l.length = vfsReadLen s fd buf len := by
  have he := vfsRead_effect noMemory h
  unfold vfsReadLen
  cases he with
  | none hidle =>
    obtain ⟨hr, -⟩ | ⟨hr, rfl, slot, hk, hfile, hpast⟩ := hidle
    · cases hr
    · cases hr
      simp [hk, hfile, hpast]
  | read hk hfile hin hlen =>
    rw [hk]
    simpa [hfile, hin.not_ge] using hlen

theorem fits_readFile (fd : ℤ) : Fits dst len (readFile k fd dst len) :=
  fits_read rfl (vfsReadLen_le ..) fun _ _ h => (vfsRead_length h).le.trans (vfsReadLen_le ..)

theorem rawLen_le (s : Fat.FsState) (offset len : ℕ) : Fat.rawLen s offset len ≤ len := by
  unfold Fat.rawLen
  have hsum : add64 offset len ≤ offset + len := Nat.mod_le _ _
  split <;> omega

theorem copyOut_length {s : Fat.FsState} {off n : ℕ}
    (h : Fat.copyOut s off n = .ok l) : l.length = n := by
  unfold Fat.copyOut at h
  split at h
  · cases h
    exact length_getBytes _ _ _
  · cases h

theorem fits_readRaw (offset : ℕ) : Fits dst len (readRaw k offset dst len) := by
  refine fits_read rfl (rawLen_le ..) fun l a h => ?_
  obtain ⟨l', hl', heq⟩ := map_ok.mp h
  cases heq
  unfold Fat.fsRead at hl'
  split at hl'
  · cases hl'
    exact Nat.zero_le _
  · rw [copyOut_length hl']
    exact rawLen_le ..

/-- The loop never stores more than it was asked for. -/
theorem fsReadLen_le (s : Fat.FsState) (len fuel : ℕ) :
    ∀ (f : Fat.FsOpen) (done : ℕ), done ≤ len → fsReadLen s len fuel f done ≤ len := by
  induction fuel with
  | zero => exact fun _ _ h => h
  | succ fuel ih =>
    intro f done h
    unfold fsReadLen
    split
    · split
      · exact h
      · dsimp only
        split_ifs
        · exact h
        · exact h
        · refine ih _ _ ?_
          have hle : Fat.chunkSize s f.pos (len - done) ≤ len - done := min_le_right _ _
          omega
    · exact h

/-- **The loop of `fs_read_fd` copies as many bytes as counted.** -/
theorem readLoop_length {s s' : Fat.FsState} {slot : Fat.Slot} {cap fuel : ℕ} :
    ∀ {f : Fat.FsOpen} {out out' : List UInt8},
      Fat.readLoop s slot len cap fuel f out = .ok (out', s') →
        out'.length = fsReadLen s len fuel f out.length := by
  induction fuel with
  | zero =>
    intro f out out' h
    cases h
  | succ fuel ih =>
    intro f out out' h
    unfold Fat.readLoop at h
    unfold fsReadLen
    by_cases hmore : out.length < len
    · rw [if_pos hmore] at h ⊢
      obtain ⟨⟨c, s₁⟩, hchain, h⟩ := bind_ok.mp h
      rw [hchain]
      dsimp only at h ⊢
      by_cases hc : c = 0
      · rw [if_pos hc] at h ⊢
        cases h
        rfl
      · rw [if_neg hc] at h ⊢
        split at h
        · rename_i hrange
          cases h
          rw [if_pos hrange]
        · rename_i hrange
          obtain ⟨bytes, hbytes, h⟩ := bind_ok.mp h
          rw [if_neg hrange]
          split at h
          · cases h
          · rw [ih h, length_append, copyOut_length hbytes]
    · rw [if_neg hmore] at h ⊢
      cases h
      rfl

theorem fits_readFsFd (fuel : ℕ) (fd : ℤ) : Fits dst len (readFsFd fuel k fd dst len) := by
  refine fits_read rfl ?_ fun l a h => ?_
  · unfold fsReadFdLen
    split
    · exact Nat.zero_le _
    · exact (fsReadLen_le _ _ _ _ _ (Nat.zero_le _)).trans (min_le_left _ _)
  · unfold Fat.fsReadFd at h
    split at h
    · cases h
    · split at h
      · cases h
      · dsimp only at h
        split_ifs at h
        · cases h
        · cases h
          exact Nat.zero_le _
        · obtain ⟨⟨out, s'⟩, hloop, hret⟩ := bind_ok.mp h
          cases hret
          rw [readLoop_length hloop]
          exact (fsReadLen_le _ _ _ _ _ (Nat.zero_le _)).trans (min_le_left _ _)

theorem fits_storeInfo (pid : ℤ) : Fits dst sizeofProcInfo (storeInfo k pid dst) := by
  unfold storeInfo
  split
  · exact .none rfl
  · split
    · exact .none rfl
    · exact .single rfl (le_refl _)

theorem fits_waitChild (childPid : ℤ) : Fits dst 4 (waitChild k childPid dst) := by
  unfold waitChild
  cases findProc k.proc childPid with
  | none => exact .none rfl
  | some i =>
    dsimp only
    split_ifs
    · exact .none rfl
    · exact .single rfl (le_refl _)

/-- Without a pointer for the status nothing is stored. -/
theorem waitChild_null (childPid : ℤ) : (waitChild k childPid 0).trace = [] := by
  unfold waitChild
  cases findProc k.proc childPid with
  | none => rfl
  | some i => simp [attempt]

theorem fits_readLog (start : ℕ) : Fits dst len (readLog k dst len start) := by
  unfold readLog
  split
  · exact .none rfl
  · refine .single rfl ?_
    simp only [Value.size, length_take]
    omega

theorem fits_storeMemInfo (fuel : ℕ) : Fits dst sizeofMemInfo (storeMemInfo fuel k dst) := by
  have hword : ∀ v, (Value.word 8 v).size ≤ sizeofMemInfo := fun _ =>
    Nat.le_of_ble_eq_true rfl
  unfold storeMemInfo
  split
  · exact .none rfl
  · dsimp only
    split
    · exact .single rfl (hword _)
    · exact .record [(8, _), (16, _), (24, _), (32, _), (40, _)] rfl (hword _)
        (by simp [Value.size, sizeofMemInfo])

theorem fits_storeStat (st : Option VfsStat) : Fits dst sizeofVfsStat (storeStat k st dst) := by
  unfold storeStat
  split
  · exact .none rfl
  · split
    · exact .none rfl
    · exact .record [(8, _), (16, _), (20, _)] rfl (Nat.le_of_ble_eq_true rfl)
        (by simp [Value.size, sizeofVfsStat])

theorem fits_storeFbInfo : Fits dst sizeofFbInfo (storeFbInfo env k dst) :=
  .record [(4, _), (8, _), (12, _), (16, _), (20, _)] rfl (Nat.le_of_ble_eq_true rfl)
    (by simp [Value.size, sizeofFbInfo])

/-- The path fits its buffer together with the terminator. -/
theorem buildPath_length {node : NodeId} {buf : Bool} {path : Str}
    (h : buildPath s node buf len = some path) : path.length + 1 ≤ len := by
  unfold buildPath at h
  split_ifs at h with h1 h2 h3
  · cases h
    exact not_lt.mp h3
  · split at h
    · cases h
    · split_ifs at h with h4
      cases h
      exact not_lt.mp h4

theorem fits_storeCwd : Fits dst len (storeCwd k dst len) := by
  unfold storeCwd
  split
  · exact .none rfl
  · rename_i path hpath
    refine .single rfl ?_
    rw [Value.size, length_append]
    exact buildPath_length hpath

end Calls

/-! ## §5. The calls that multiply. -/

section Arrays

variable {env : Env} {k : Kernel} {dst n : ℕ}

/-- Membership in an array that is stored entry by entry. -/
theorem mem_array {α : Type} {g : ℕ → List α → List Event} {f : ℕ → α → List Event}
    (hnil : ∀ i, g i [] = []) (hcons : ∀ i a l, g i (a :: l) = f i a ++ g (i + 1) l) {l : List α}
    {e : Event} : ∀ {i}, e ∈ g i l ↔ ∃ j a, l[j]? = some a ∧ e ∈ f (i + j) a := by
  induction l with
  | nil => simp [hnil]
  | cons a l ih =>
    intro i
    rw [hcons, mem_append, ih]
    constructor
    · rintro (he | ⟨j, a', hj, he⟩)
      · exact ⟨0, a, rfl, he⟩
      · refine ⟨j + 1, a', hj, ?_⟩
        rwa [show i + (j + 1) = i + 1 + j by omega]
    · rintro ⟨j, a', hj, he⟩
      cases j with
      | zero =>
        cases hj
        exact .inl he
      | succ j =>
        refine .inr ⟨j, a', hj, ?_⟩
        rwa [show i + 1 + j = i + (j + 1) by omega]

theorem onlyStores_infos (l : List ProcInfo) : ∀ i, OnlyStores (storeInfos dst i l) := by
  induction l with
  | nil => exact fun _ => onlyStores_nil
  | cons info l ih => exact fun i => (ih (i + 1)).cons _ _

theorem mem_storeInfos {l : List ProcInfo} {addr : ℕ} {v : Value} :
    Event.store addr v ∈ storeInfos dst 0 l ↔
      ∃ j info, l[j]? = some info ∧ addr = add64 dst (sizeofProcInfo * j) ∧ v = .info info := by
  rw [mem_array (g := storeInfos dst)
    (f := fun i info => [.store (add64 dst (sizeofProcInfo * i)) (.info info)]) (fun _ => rfl)
    fun _ _ _ => rfl]
  simp

/-- **An array of `proc_info_t`** is inside the range exactly when all of it fits. -/
theorem inside_infos_iff (hp : dst + n < 2 ^ 64) {l : List ProcInfo} (hl : l.length ≤ 16) :
    Inside dst n (storeInfos dst 0 l) ↔ l.length * sizeofProcInfo ≤ n := by
  constructor
  · intro h
    by_cases hnil : l = []
    · simp [hnil]
    · -- the last byte of the last entry
      have hpos := length_pos_iff.mpr hnil
      obtain ⟨info, hinfo⟩ : ∃ info, l[l.length - 1]? = some info :=
        ⟨_, List.getElem?_eq_getElem (by omega)⟩
      have hbyte : 359 < (Value.info info).size := by
        show 359 < sizeofProcInfo
        decide
      have hlast := h _ _ (mem_storeInfos.mpr ⟨l.length - 1, info, hinfo, rfl, rfl⟩) 359 hbyte
      rw [add64_add64] at hlast
      unfold sizeofProcInfo at hlast ⊢
      have hx := (in_range_iff hp (by omega)).mp hlast
      omega
  · intro h addr v hmem i hi
    obtain ⟨j, info, hj, rfl, rfl⟩ := mem_storeInfos.mp hmem
    have hjlt : j < l.length := (List.getElem?_eq_some_iff.mp hj).1
    refine inside_of_le hp ?_ hi
    show sizeofProcInfo * j + sizeofProcInfo ≤ n
    unfold sizeofProcInfo at h ⊢
    omega

theorem onlyStores_dirents (l : List VfsDirent) : ∀ i, OnlyStores (storeDirents dst i l) := by
  induction l with
  | nil => exact fun _ => onlyStores_nil
  | cons d l ih =>
    intro i
    exact ((((ih (i + 1)).cons _ _).cons _ _).cons _ _).cons _ _

theorem mem_storeDirents {l : List VfsDirent} {e : Event} : e ∈ storeDirents dst 0 l ↔
    ∃ j d, l[j]? = some d ∧ e ∈ storeDirent (add64 dst (sizeofVfsDirent * (0 + j))) d :=
  mem_array (f := fun i => storeDirent (add64 dst (sizeofVfsDirent * i))) (fun _ => rfl)
    fun _ _ _ => rfl

/-- The stores of one entry, by their offsets in it. -/
theorem mem_storeDirent {a : ℕ} {d : VfsDirent} {addr : ℕ} {v : Value}
    (h : Event.store addr v ∈ storeDirent (add64 dst a) d) :
    ∃ off, addr = add64 dst (a + off) ∧ off + v.size ≤ 17 + d.name.length := by
  simp only [storeDirent, mem_cons, Event.store.injEq, not_mem_nil, or_false,
    add64_add64] at h
  rcases h with ⟨rfl, rfl⟩ | ⟨rfl, rfl⟩ | ⟨rfl, rfl⟩ | ⟨rfl, rfl⟩
  · exact ⟨0, rfl, by simp only [Value.size]; omega⟩
  · exact ⟨4, rfl, by simp only [Value.size]; omega⟩
  · exact ⟨8, rfl, by simp only [Value.size]; omega⟩
  · refine ⟨16, rfl, ?_⟩
    simp only [Value.size, length_append, length_singleton]
    omega

/-- **An array of `vfs_dirent_t`** is inside the range exactly when every entry is, up to the
terminator of its name. -/
theorem inside_dirents_iff (hp : dst + n < 2 ^ 64) {l : List VfsDirent} (hl : l.length ≤ 64)
    (hname : ∀ d ∈ l, d.name.length ≤ 31) :
    Inside dst n (storeDirents dst 0 l) ↔
      ∀ j d, l[j]? = some d → sizeofVfsDirent * j + 17 + d.name.length ≤ n := by
  constructor
  · intro h j d hj
    have hjlt : j < l.length := (List.getElem?_eq_some_iff.mp hj).1
    have hlen := hname d (mem_of_getElem? hj)
    -- the terminator of the name
    have hmem : Event.store (add64 (add64 dst (sizeofVfsDirent * (0 + j))) 16)
        (.bytes (d.name ++ [0])) ∈ storeDirents dst 0 l :=
      mem_storeDirents.mpr ⟨j, d, hj, by simp [storeDirent]⟩
    have hlast := h _ _ hmem d.name.length (by simp [Value.size])
    rw [add64_add64, add64_add64] at hlast
    unfold sizeofVfsDirent at hlast ⊢
    have hx := (in_range_iff hp (by omega)).mp hlast
    omega
  · intro h addr v hmem i hi
    obtain ⟨j, d, hj, he⟩ := mem_storeDirents.mp hmem
    obtain ⟨off, rfl, hoff⟩ := mem_storeDirent he
    refine inside_of_le hp ?_ hi
    have hd := h j d hj
    rw [Nat.zero_add]
    omega

end Arrays

/-! ## §6. The condition, and the theorem. -/

/-- The used processes, as many as asked for, fit the wrapped product. -/
def InfosFit (env : Env) (k : Kernel) (dst maxInfos : ℕ) : Prop :=
  dst ≠ 0 → Accepted env k dst (maxInfos * sizeofProcInfo % 2 ^ 64) →
    min maxInfos (usedProcs k.proc).length * sizeofProcInfo ≤ maxInfos * sizeofProcInfo % 2 ^ 64

/-- The pending children of an open directory, as many as asked for, fit the wrapped product:
each entry, up to the terminator of the name. -/
def DirentsFit (env : Env) (k : Kernel) (fd : ℤ) (dst maxEnts : ℕ) : Prop :=
  dst ≠ 0 → Accepted env k dst (maxEnts * sizeofVfsDirent % 2 ^ 64) →
    ∀ slot, Vfs.openSlot k.proc.vfs fd = some slot →
      (k.proc.vfs.nodes (k.proc.vfs.openFiles slot).node).type = .dir →
        ∀ j node, j < maxEnts → (pending k.proc.vfs slot)[j]? = some node →
          sizeofVfsDirent * j + 17 + min 31 (k.proc.vfs.nodes node).name.length ≤
            maxEnts * sizeofVfsDirent % 2 ^ 64

/-- **The condition**: only `SYS_PROC_LIST` and `SYS_VFS_GETDENTS` have one. -/
def CopyOutFits (env : Env) (k : Kernel) (num a1 a2 a3 : UInt64) : Prop :=
  (sysnoOf num = some .procList → InfosFit env k a1.toNat a2.toNat) ∧
    (sysnoOf num = some .vfsGetdents → procCurrentValid k.proc = true →
      DirentsFit env k (toInt a1.toNat) a2.toNat a3.toNat)

section Main

variable {env : Env} {k : Kernel} {dst : ℕ}

theorem usedProcs_length (s : ProcState) : (usedProcs s).length ≤ 16 := by
  unfold usedProcs
  exact (length_filter_le _ _).trans (by simp)

theorem listProcs_iff {maxInfos : ℕ} (hdst : dst < 2 ^ 64) :
    Covered (checked env k dst (maxInfos * sizeofProcInfo % 2 ^ 64)
        (listProcs k dst maxInfos)).trace ↔ InfosFit env k dst maxInfos := by
  have hn : maxInfos * sizeofProcInfo % 2 ^ 64 < 2 ^ 64 := Nat.mod_lt _ (by decide)
  unfold listProcs
  by_cases hnull : dst = 0
  · -- a `NULL` array is refused, or has no room
    refine iff_of_true (checked_of_covered ?_) fun h => absurd hnull h
    by_cases hroom : maxInfos = 0
    · subst hroom
      rw [if_neg (by simp)]
      exact covered_nil
    · rw [if_pos ⟨hnull, hroom⟩]
      exact covered_nil
  · rw [if_neg fun h => hnull h.1, checked_iff hdst hn (onlyStores_infos _ 0)]
    have hlen : (procList k.proc maxInfos).1.length = min maxInfos (usedProcs k.proc).length := by
      simp [procList]
    have hle : (procList k.proc maxInfos).1.length ≤ 16 := by
      have hused := usedProcs_length k.proc
      omega
    unfold InfosFit
    rw [← hlen]
    exact ⟨fun h _ hacc => (inside_infos_iff hacc.1 hle).mp (h hacc),
      fun h hacc => (inside_infos_iff hacc.1 hle).mpr (h hnull hacc)⟩

theorem pending_length (s : VfsState) (slot : Vfs.Slot) : (pending s slot).length ≤ 64 := by
  unfold pending childrenOf
  rw [length_drop]
  have hfilter := length_filter_le (listed s (s.openFiles slot).node) (List.finRange 64)
  rw [length_finRange] at hfilter
  omega

theorem direntOf_length (s : VfsState) (i : NodeId) :
    (direntOf s i).name.length = min 31 (s.nodes i).name.length :=
  length_take

/-- The entries `vfs_getdents` stores, in terms of the node table. -/
theorem inside_pending_iff {v : VfsState} {n : ℕ} (hp : dst + n < 2 ^ 64) (slot : Vfs.Slot)
    (maxEnts : ℕ) :
    Inside dst n (storeDirents dst 0 (((pending v slot).take maxEnts).map (direntOf v))) ↔
      ∀ j node, j < maxEnts → (pending v slot)[j]? = some node →
        sizeofVfsDirent * j + 17 + min 31 (v.nodes node).name.length ≤ n := by
  rw [inside_dirents_iff hp]
  · constructor
    · intro h j node hj hnode
      have hd := h j (direntOf v node) (by simp [hj, hnode])
      rwa [direntOf_length] at hd
    · intro h j d hd
      rw [List.getElem?_map, Option.map_eq_some_iff] at hd
      obtain ⟨node, hnode, rfl⟩ := hd
      rw [List.getElem?_take, Option.ite_none_right_eq_some] at hnode
      obtain ⟨hj, hnode⟩ := hnode
      rw [direntOf_length]
      exact h j node hj hnode
  · rw [length_map]
    exact (length_take_le' _ _).trans (pending_length v slot)
  · intro d hd
    obtain ⟨node, -, rfl⟩ := mem_map.mp hd
    rw [direntOf_length]
    exact min_le_left _ _

theorem listDir_iff {fd : ℤ} {maxEnts : ℕ} (hdst : dst < 2 ^ 64) :
    Covered (checked env k dst (maxEnts * sizeofVfsDirent % 2 ^ 64)
        (listDir k fd dst maxEnts)).trace ↔ DirentsFit env k fd dst maxEnts := by
  have hn : maxEnts * sizeofVfsDirent % 2 ^ 64 < 2 ^ 64 := Nat.mod_lt _ (by decide)
  have htrace : (listDir k fd dst maxEnts).trace =
      storeDirents dst 0 ((vfsGetdents k.proc.vfs fd (dst != 0) maxEnts).1.getD []) := rfl
  rw [vfsGetdents_fst] at htrace
  have hnone : (listDir k fd dst maxEnts).trace = [] → (Covered (checked env k dst
      (maxEnts * sizeofVfsDirent % 2 ^ 64) (listDir k fd dst maxEnts)).trace) := by
    intro h
    refine checked_of_covered ?_
    rw [h]
    exact covered_nil
  cases hslot : Vfs.openSlot k.proc.vfs fd with
  | none =>
    rw [hslot] at htrace
    refine iff_of_true (hnone htrace) fun _ _ slot hs => ?_
    rw [hslot] at hs
    cases hs
  | some slot =>
    rw [hslot] at htrace
    dsimp only at htrace
    by_cases hdir : dst ≠ 0 ∧ (k.proc.vfs.nodes (k.proc.vfs.openFiles slot).node).type = .dir
    · rw [if_neg (by simp [hdir.1, hdir.2]), Option.getD_some] at htrace
      rw [checked_iff hdst hn (by rw [htrace]; exact onlyStores_dirents _ 0), htrace]
      constructor
      · intro h _ hacc slot' hs _
        rw [hslot] at hs
        cases hs
        exact (inside_pending_iff hacc.1 slot maxEnts).mp (h hacc)
      · intro h hacc
        exact (inside_pending_iff hacc.1 slot maxEnts).mpr (h hdir.1 hacc slot hslot hdir.2)
    · rw [if_pos (by by_contra hc; exact hdir (by simpa [not_or] using hc))] at htrace
      refine iff_of_true (hnone htrace) fun hd _ slot' hs ht => ?_
      rw [hslot] at hs
      cases hs
      exact absurd ⟨hd, ht⟩ hdir

/-- Every call but the two that multiply is covered. -/
theorem dispatch_covered (env : Env) (fuel : ℕ) (k : Kernel) {a1 a2 a3 : ℕ} (h1 : a1 < 2 ^ 64)
    (h2 : a2 < 2 ^ 64) (h3 : a3 < 2 ^ 64) {c : Sysno} (hlist : c ≠ .procList)
    (hdir : c ≠ .vfsGetdents) : Covered (dispatch env fuel k a1 a2 a3 c).trace := by
  cases c with
  | procList => exact absurd rfl hlist
  | vfsGetdents => exact absurd rfl hdir
  | read =>
    refine Fits.checked ?_ h2 h3
    split
    · exact .single rfl (by simp [Value.size])
    · exact fits_readFile _
  | exit | memAlloc | getpid | procKill | dup | dup2 | uptimeMs | sleepMs | pipe | ioctl
  | fsLseekFd | fsClose | fsFileSize | vfsLseek | vfsClose | mountInfo | diskList | diskInfo
  | fbClear | fbDrawPixel | reboot | poweroff => exact covered_nil
  | write | memFree | fsWrite | procSpawn | execve | procSpawnEx | fsOpen | fsWriteFd | vfsOpen
  | vfsWrite | vfsMkdir | vfsUnlink | vfsRmdir | vfsAccess | vfsChdir | mpyExecFile =>
    exact checked_of_covered covered_nil
  | vfsRename => exact checked_of_covered (checked_of_covered covered_nil)
  | writeFd =>
    refine checked_of_covered ?_
    split_ifs <;> exact covered_nil
  | getppid =>
    unfold dispatch
    dsimp only
    split <;> exact covered_nil
  | sync =>
    show Covered (Reply.trace (if _ then _ else _))
    split <;> exact covered_nil
  | displayMode =>
    show Covered (displayMode k a1).trace
    unfold displayMode
    split_ifs <;> exact covered_nil
  | procWait =>
    show Covered (Reply.trace (if _ then _ else _))
    split
    · exact (fits_waitChild _).checked h2 (by decide)
    · rename_i hnull
      rw [not_not.mp hnull, waitChild_null]
      exact covered_nil
  | fsRead => exact (fits_readRaw _).checked h2 h3
  | fsReadFd => exact (fits_readFsFd fuel _).checked h2 h3
  | vfsRead => exact (fits_readFile _).checked h2 h3
  | procInfo => exact (fits_storeInfo _).checked h2 (by decide)
  | dmesgRead => exact (fits_readLog _).checked h1 h2
  | memInfo => exact (fits_storeMemInfo fuel).checked h1 (by decide)
  | vfsGetcwd => exact fits_storeCwd.checked h1 h2
  | vfsStat => exact checked_of_covered ((fits_storeStat _).checked h2 (by decide))
  | vfsFstat => exact (fits_storeStat _).checked h2 (by decide)
  | fbInfo => exact fits_storeFbInfo.checked h1 (by decide)

/-- **Copy-out stays inside the checked ranges exactly under the condition**, for every kernel
state, every call number and all 64-bit arguments. -/
theorem covered_iff (env : Env) (fuel : ℕ) (k : Kernel) (num a1 a2 a3 : UInt64) :
    Covered (syscallDispatch env fuel k num a1 a2 a3).trace ↔ CopyOutFits env k num a1 a2 a3 := by
  have h1 : a1.toNat < 2 ^ 64 := a1.toNat_lt
  have h2 : a2.toNat < 2 ^ 64 := a2.toNat_lt
  have h3 : a3.toNat < 2 ^ 64 := a3.toNat_lt
  unfold syscallDispatch CopyOutFits
  dsimp only
  cases hcall : sysnoOf num with
  | none =>
    refine iff_of_true ?_ ⟨nofun, nofun⟩
    split <;> exact covered_nil
  | some c =>
    by_cases hcur : currentRequired (some c) = true ∧ procCurrentValid k.proc = false
    · -- the call is refused, and the condition is about calls that are not
      rw [if_pos hcur]
      refine iff_of_true covered_nil ⟨fun hc => ?_, fun _ hvalid => ?_⟩
      · cases hc
        cases hcur.1
      · rw [hcur.2] at hvalid
        cases hvalid
    · rw [if_neg hcur]
      by_cases hlist : c = .procList
      · subst hlist
        refine (listProcs_iff h1).trans ⟨fun h => ⟨fun _ => h, nofun⟩, fun h => h.1 rfl⟩
      · by_cases hdir : c = .vfsGetdents
        · subst hdir
          have hvalid : procCurrentValid k.proc = true := by
            by_contra hc
            exact hcur ⟨rfl, Bool.eq_false_iff.mpr hc⟩
          refine (listDir_iff h2).trans ⟨fun h => ⟨nofun, fun _ _ => h⟩, fun h => h.2 rfl hvalid⟩
        · refine iff_of_true (dispatch_covered env fuel k h1 h2 h3 hlist hdir) ⟨?_, ?_⟩
          · exact fun hc => absurd (Option.some.inj hc) hlist
          · exact fun hc => absurd (Option.some.inj hc) hdir

end Main

/-! ## §7. A call that writes past its range. -/

/-- A kernel linked below 4 MiB, on a machine without a framebuffer, where nothing is typed
and no program runs. -/
def bareEnv : Env where
  kEnd := 0x400000
  proc := ⟨fun _ => 0, fun _ => none⟩
  load := fun _ _ => []
  cstr := fun _ => []
  input := fun _ => 0
  tsc := 0
  fbEnabled := false
  fbWidth := 0
  fbHeight := 0
  fbPitch := 0
  fbBpp := 0
  spawn := fun s _ _ => .ok (-1, s)
  mpExec := fun k _ _ => k

/-- The kernel after `mem_init`, `vfs_init`, `proc_init` and the creation of `init`, without a
mounted image. -/
def bootKernel : Kernel where
  proc := (procCreate (procInit
    { procs := fun _ => ProcEntry.zero
      nextPid := 1
      currentPid := 0
      memctx := ⟨fun _ => Memctx.zero, fun _ => MemctxBlock.zero, 1, fun _ => none⟩
      vfs := (vfsInit ⟨fun _ => VfsNode.zero, fun _ => VfsOpen.zero, 0, 0, false,
        fun _ => none⟩).2 }) [0x69, 0x6E, 0x69, 0x74] 0).2
  fs := ⟨fun _ => 0, false, 0, .none, Fat.FatInfo.zero, fun _ => Fat.FsOpen.zero⟩
  heap := Mem.memInit (fun _ => 0) 0x200000 false 0x400000 0x100000
  log := []
  logSize := 0
  theme := 0
  logsVisible := true

/-- **`SYS_PROC_LIST` writes past what it has checked**: with room for `2^61` entries the
product `2^61 * 360` wraps to 0, any address past the kernel is accepted for 0 bytes, and the
entry of `init` is stored there. -/
theorem procList_escapes :
    ¬ Covered (syscallDispatch bareEnv 0 bootKernel 17 0x400000 0x2000000000000000 0).trace := by
  have hnum : sysnoOf 17 = some .procList := by decide
  have ha1 : (0x400000 : UInt64).toNat = 0x400000 := by decide
  have ha2 : (0x2000000000000000 : UInt64).toNat = 2 ^ 61 := by decide
  unfold syscallDispatch
  rw [hnum, ha1, ha2]
  dsimp only
  rw [if_neg fun h => Bool.false_ne_true h.1]
  show ¬ Covered (checked bareEnv bootKernel 0x400000 (2 ^ 61 * sizeofProcInfo % 2 ^ 64)
    (listProcs bootKernel 0x400000 (2 ^ 61))).trace
  rw [listProcs_iff (by decide)]
  intro hfit
  have hused : (usedProcs bootKernel.proc).length = 1 := by decide
  have hend : bareEnv.kEnd ≤ 0x400000 := by decide
  have hle := hfit (by decide) ⟨by decide, .inl hend⟩
  rw [hused] at hle
  exact absurd hle (by decide)

end ExoCore.Sys
