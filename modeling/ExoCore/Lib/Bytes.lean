/-
  ExoCore.Lib.Bytes — byte-addressed stores.

  A store is a function from addresses to bytes.  Integers are read and written
  LITTLE-ENDIAN (`rdLE`/`wrLE`, any width), blocks of bytes are filled or copied
  in one update each (`fillBytes`/`putBytes`).  For every writer there are
  exactly two facts a proof needs:

    * what is read back at the place that was written, and
    * the FRAME: a read that does not meet the written range is unchanged.
-/
import ExoCore.Lib.Word

namespace ExoCore.Lib

open List

/-- A byte-addressed store. -/
abbrev Bytes := ℕ → UInt8

/-- Two ranges `[a, a+n)` and `[b, b+m)` do not meet. -/
def Apart (a n b m : ℕ) : Prop := a + n ≤ b ∨ b + m ≤ a

/-! ## §1. The operations. -/

/-- The little-endian value of the `n` bytes at `a`. -/
def rdLE (m : Bytes) (a : ℕ) : ℕ → ℕ
  | 0 => 0
  | n + 1 => (m a).toNat + 256 * rdLE m (a + 1) n

/-- Write the low `n` bytes of `v` at `a`, little-endian. -/
def wrLE (m : Bytes) (a n v : ℕ) : Bytes := fun i =>
  if a ≤ i ∧ i < a + n then UInt8.ofNat (v / 256 ^ (i - a)) else m i

/-- `memset`: the `n` bytes at `a` become `b`. -/
def fillBytes (m : Bytes) (a n : ℕ) (b : UInt8) : Bytes := fun i =>
  if a ≤ i ∧ i < a + n then b else m i

/-- `memcpy` into the store: the list `l` lands at `a`. -/
def putBytes (m : Bytes) (a : ℕ) (l : List UInt8) : Bytes := fun i =>
  if a ≤ i ∧ i < a + l.length then l.getD (i - a) 0 else m i

/-- `memcpy` out of the store: the `n` bytes at `a`. -/
def getBytes (m : Bytes) (a n : ℕ) : List UInt8 :=
  (List.range n).map fun i => m (a + i)

/-- The `n` bytes that spell `v`, little-endian. -/
def leBytes (n v : ℕ) : List UInt8 := (List.range n).map fun i => UInt8.ofNat (v / 256 ^ i)

/-! ## §2. Reads. -/

theorem rdLE_lt (m : Bytes) : ∀ (n a : ℕ), rdLE m a n < 256 ^ n
  | 0, _ => by simp [rdLE]
  | n + 1, a => by
    have ih := rdLE_lt m n (a + 1)
    have hb := (m a).toNat_lt
    rw [rdLE, Nat.pow_succ]
    omega

variable {m : Bytes} {a i n v : ℕ}

/-- A read depends only on the bytes of its own range. -/
theorem rdLE_congr {m' : Bytes} : ∀ (n a : ℕ),
    (∀ i, a ≤ i → i < a + n → m' i = m i) → rdLE m' a n = rdLE m a n
  | 0, _, _ => rfl
  | n + 1, a, h => by
    rw [rdLE, rdLE, h a (by omega) (by omega),
      rdLE_congr n (a + 1) (fun i h1 h2 => h i (by omega) (by omega))]

/-- Bytes that spell `v` from `a` on read back as `v`. -/
theorem rdLE_of_digits : ∀ (n a v : ℕ),
    (∀ k, k < n → m (a + k) = UInt8.ofNat (v / 256 ^ k)) → rdLE m a n = v % 256 ^ n
  | 0, _, v, _ => by simp [rdLE, Nat.mod_one]
  | n + 1, a, v, h => by
    have h0 : m a = UInt8.ofNat v := by simpa using h 0 (by omega)
    have ih : rdLE m (a + 1) n = v / 256 % 256 ^ n := by
      apply rdLE_of_digits
      intro k hk
      have hk' := h (k + 1) (by omega)
      rw [show a + 1 + k = a + (k + 1) by omega, hk', Nat.pow_succ, Nat.mul_comm,
        Nat.div_div_eq_div_mul]
    have hpow : 256 ^ (n + 1) = 256 * 256 ^ n := by rw [Nat.pow_succ, Nat.mul_comm]
    rw [rdLE, h0, ih, UInt8.toNat_ofNat', hpow, Nat.mod_mul]

/-- The digits of what is read are the bytes. -/
theorem digit_rdLE (m : Bytes) : ∀ (n a k : ℕ), k < n →
    UInt8.ofNat (rdLE m a n / 256 ^ k) = m (a + k)
  | 0, _, _, h => by omega
  | n + 1, a, 0, _ => by
    rw [pow_zero, Nat.div_one, rdLE, UInt8.ofNat_add, UInt8.ofNat_mul]
    simp
  | n + 1, a, k + 1, h => by
    have hlt := (m a).toNat_lt
    have hshift : rdLE m a (n + 1) / 256 = rdLE m (a + 1) n := by
      rw [rdLE]
      omega
    rw [pow_succ', ← Nat.div_div_eq_div_mul, hshift, digit_rdLE m n (a + 1) k (by omega),
      Nat.add_right_comm, Nat.add_assoc]

theorem length_leBytes (n v : ℕ) : (leBytes n v).length = n := by
  simp [leBytes]

/-- A field in the middle of a list of bytes. -/
theorem rdLE_leBytes {l : List UInt8} (pre post : List UInt8) (hl : l = pre ++ (leBytes n v ++ post))
    (hv : v < 256 ^ n) : rdLE (fun i => l.getD i 0) pre.length n = v := by
  rw [rdLE_of_digits n pre.length v, Nat.mod_eq_of_lt hv]
  intro k hk
  show l.getD (pre.length + k) 0 = _
  rw [hl, getD_append_right _ _ _ _ (by omega), Nat.add_sub_cancel_left,
    getD_append _ _ _ _ (by rw [length_leBytes]; exact hk)]
  unfold leBytes
  rw [getD_eq_getElem?_getD, getElem?_map, getElem?_range hk]
  rfl

theorem length_getBytes (m : Bytes) (a n : ℕ) : (getBytes m a n).length = n := by
  simp [getBytes]

/-- The bytes stored are the bytes read. -/
theorem getBytes_putBytes (m : Bytes) (a : ℕ) (l : List UInt8) :
    getBytes (putBytes m a l) a l.length = l := by
  refine List.ext_getElem (length_getBytes _ _ _) fun i h1 h2 => ?_
  simp [getBytes, putBytes, h2]

theorem getBytes_append (m : Bytes) (a n : ℕ) :
    getBytes m 0 a ++ getBytes m a n = getBytes m 0 (a + n) := by
  simp [getBytes, List.range_add]

theorem getBytes_congr {m' : Bytes}
    (h : ∀ i, a ≤ i → i < a + n → m' i = m i) : getBytes m' a n = getBytes m a n := by
  apply map_congr_left
  intro i hi
  exact h (a + i) (by omega) (by have := mem_range.mp hi; omega)

theorem getD_getBytes (m : Bytes) (ha : a < n) : (getBytes m 0 n).getD a 0 = m a := by
  unfold getBytes
  rw [getD_eq_getElem?_getD, getElem?_map, getElem?_range ha]
  show m (0 + a) = m a
  rw [Nat.zero_add]

/-! ## §3. Reading back what was written. -/

theorem rdLE_wrLE (m : Bytes) (a n v : ℕ) : rdLE (wrLE m a n v) a n = v % 256 ^ n := by
  apply rdLE_of_digits
  intro k hk
  simp [wrLE, hk]

theorem rdLE_wrLE_of_lt (hv : v < 256 ^ n) :
    rdLE (wrLE m a n v) a n = v := by
  rw [rdLE_wrLE, Nat.mod_eq_of_lt hv]

/-! ## §4. Frames. -/

theorem wrLE_apart (h : i < a ∨ a + n ≤ i) :
    wrLE m a n v i = m i := by
  unfold wrLE
  rw [if_neg (by omega)]

theorem fillBytes_apart {b : UInt8} (h : i < a ∨ a + n ≤ i) :
    fillBytes m a n b i = m i := by
  unfold fillBytes
  rw [if_neg (by omega)]

theorem putBytes_apart {l : List UInt8} (h : i < a ∨ a + l.length ≤ i) :
    putBytes m a l i = m i := by
  unfold putBytes
  rw [if_neg (by omega)]

/-- Writing what is there changes nothing. -/
theorem wrLE_same (hv : rdLE m a n = v) : wrLE m a n v = m := by
  subst hv
  funext i
  unfold wrLE
  split_ifs with h
  · rw [digit_rdLE m n a (i - a) (by omega), show a + (i - a) = i by omega]
  · rfl

theorem rdLE_wrLE_apart {b k : ℕ} (h : Apart a n b k) :
    rdLE (wrLE m a n v) b k = rdLE m b k := by
  apply rdLE_congr
  intro i h1 h2
  unfold Apart at h
  exact wrLE_apart (by omega)

/-! ## §5. A copy, byte by byte. -/

theorem putBytes_nil (m : Bytes) (a : ℕ) : putBytes m a [] = m :=
  funext fun i => putBytes_apart (by rw [length_nil]; omega)

/-- Copying a list is writing its first byte and then copying the rest. -/
theorem putBytes_cons (m : Bytes) (a : ℕ) (c : UInt8) (t : List UInt8) :
    putBytes (Function.update m a c) (a + 1) t = putBytes m a (c :: t) := by
  funext i
  unfold putBytes
  rw [length_cons]
  by_cases hi : i = a
  · subst hi
    rw [if_neg (by omega), if_pos (by omega), Function.update_self, Nat.sub_self]
    rfl
  · rw [Function.update_of_ne hi]
    by_cases hin : a + 1 ≤ i ∧ i < a + 1 + t.length
    · rw [if_pos hin, if_pos (by omega), show i - a = i - (a + 1) + 1 by omega, getD_cons_succ]
    · rw [if_neg hin, if_neg (by omega)]

end ExoCore.Lib
