/-
  ExoCore.Lib.LinkedList — singly linked lists through a `next` field.

  Nodes are addresses, `0` is the null pointer, and the links are a function
  `next`.  `Seg next h l t` says that following `next` from `h` visits exactly
  the nodes of `l`, in order, and then stands at `t`; a NULL-TERMINATED LIST is a
  segment to `0`.

    * a null-terminated list has no repeated node (`Seg.nodup`): the walk from a
      node is determined, so a node met twice would never reach `0`;
    * a segment survives every change of `next` outside its own nodes
      (`Seg.congr`), and redirecting its LAST link redirects its end
      (`Seg.relink`).
-/
import Mathlib.Data.List.Nodup
import Mathlib.Tactic.Common

namespace ExoCore.Lib

open List

/-- The walk along `next` from `h` visits `l` and ends at `t`. -/
def Seg (next : ℕ → ℕ) : ℕ → List ℕ → ℕ → Prop
  | h, [], t => h = t
  | h, a :: l, t => h = a ∧ a ≠ 0 ∧ Seg next (next a) l t

/-- A place that holds a list pointer: the list head, or a node's `next`. -/
inductive Link where
  | head
  | next (a : ℕ)
  deriving Repr, DecidableEq

/-- The link that holds the end pointer of a segment. -/
def lastLink (l : List ℕ) : Link :=
  match l.getLast? with
  | none => .head
  | some a => .next a

variable {next next' : ℕ → ℕ} {h h' t t' a b : ℕ} {l l' l₁ l₂ : List ℕ}

/-! ## §1. Structure. -/

theorem seg_append : Seg next h (l₁ ++ l₂) t ↔ ∃ m, Seg next h l₁ m ∧ Seg next m l₂ t := by
  induction l₁ generalizing h with
  | nil => simp [Seg]
  | cons a l₁ ih =>
    simp only [cons_append, Seg, ih]
    constructor
    · rintro ⟨rfl, ha, m, h1, h2⟩
      exact ⟨m, ⟨rfl, ha, h1⟩, h2⟩
    · rintro ⟨m, ⟨rfl, ha, h1⟩, h2⟩
      exact ⟨rfl, ha, m, h1, h2⟩

/-- A segment only reads the links of its own nodes. -/
theorem Seg.congr (hs : Seg next h l t) (hn : ∀ a ∈ l, next' a = next a) :
    Seg next' h l t := by
  induction l generalizing h with
  | nil => exact hs
  | cons b l ih =>
    obtain ⟨hb, hb0, hs⟩ := hs
    refine ⟨hb, hb0, ?_⟩
    rw [hn b mem_cons_self]
    exact ih hs (fun a ha => hn a (mem_cons_of_mem _ ha))

/-- The walk to null is determined by its start. -/
theorem Seg.unique (hs : Seg next h l 0) (hs' : Seg next h l' 0) : l = l' := by
  induction l generalizing h l' with
  | nil =>
    have h0 : h = 0 := hs
    cases l' with
    | nil => rfl
    | cons b l' => exact absurd (h0 ▸ hs'.1.symm) hs'.2.1
  | cons a l ih =>
    cases l' with
    | nil => exact absurd (hs.1 ▸ hs') hs.2.1
    | cons b l' =>
      have hab : a = b := hs.1.symm.trans hs'.1
      subst hab
      rw [ih hs.2.2 hs'.2.2]

/-- **A null-terminated list is acyclic.** -/
theorem Seg.nodup (hs : Seg next h l 0) : l.Nodup := by
  induction l generalizing h with
  | nil => exact nodup_nil
  | cons a l ih =>
    refine nodup_cons.mpr ⟨fun ha => ?_, ih hs.2.2⟩
    -- a second visit of `a` gives two walks to null of different length
    obtain ⟨p, q, rfl⟩ := append_of_mem ha
    obtain ⟨m, -, hq⟩ := seg_append.mp hs.2.2
    obtain ⟨rfl, ha0, hq⟩ := hq
    have hlen := congrArg List.length (hq.unique hs.2.2)
    simp at hlen
    omega

theorem seg_concat : Seg next h (l ++ [a]) t ↔ Seg next h l a ∧ a ≠ 0 ∧ next a = t := by
  rw [seg_append]
  constructor
  · rintro ⟨m, hl, rfl, ha, hn⟩
    exact ⟨hl, ha, hn⟩
  · rintro ⟨hl, ha, hn⟩
    exact ⟨a, hl, rfl, ha, hn⟩

/-! ## §2. Redirecting the last link. -/

theorem lastLink_nil : lastLink [] = .head := rfl

theorem lastLink_concat : lastLink (l ++ [a]) = .next a := by
  simp [lastLink]

theorem mem_of_lastLink (h : lastLink l = .next a) : a ∈ l := by
  rcases eq_nil_or_concat l with rfl | ⟨l, b, rfl⟩
  · exact absurd h (by simp [lastLink_nil])
  · rw [concat_eq_append, lastLink_concat] at h
    simp [Link.next.inj h]

/-- What a link holds, for head pointer `h` and links `next`. -/
def Link.get (h : ℕ) (next : ℕ → ℕ) : Link → ℕ
  | .head => h
  | .next a => next a

theorem Seg.get_lastLink (hs : Seg next h l t) : (lastLink l).get h next = t := by
  rcases eq_nil_or_concat l with rfl | ⟨l, a, rfl⟩
  · exact hs
  · rw [concat_eq_append] at hs ⊢
    rw [lastLink_concat]
    exact (seg_concat.mp hs).2.2

/-- **Relinking.**  Storing `t'` in the last link of a segment makes it end at
`t'`; the other links of the segment keep their value. -/
theorem Seg.relink (hs : Seg next h l t) (hnd : l.Nodup)
    (hhead : lastLink l ≠ .head → h' = h)
    (hkeep : ∀ a ∈ l, lastLink l ≠ .next a → next' a = next a)
    (hlast : (lastLink l).get h' next' = t') : Seg next' h' l t' := by
  rcases eq_nil_or_concat l with rfl | ⟨l, a, rfl⟩
  · exact hlast
  · rw [concat_eq_append] at *
    rw [lastLink_concat] at hhead hkeep hlast
    obtain ⟨hl, ha, -⟩ := seg_concat.mp hs
    have hal : a ∉ l := by
      have := (nodup_append.mp hnd).2.2
      intro ha'
      exact this a ha' a (by simp) rfl
    rw [hhead (by simp)]
    refine seg_concat.mpr ⟨hl.congr fun b hb => ?_, ha, hlast⟩
    apply hkeep b (by simp [hb])
    intro heq
    exact hal (Link.next.inj heq ▸ hb)

/-- **Unlinking.**  Storing the successor of `a` in the link that points to `a`
takes `a` out of a null-terminated list. -/
theorem Seg.unlink (hs : Seg next h (l₁ ++ a :: l₂) 0)
    (hhead : lastLink l₁ ≠ .head → h' = h)
    (hkeep : ∀ b ∈ l₁ ++ l₂, lastLink l₁ ≠ .next b → next' b = next b)
    (hlast : (lastLink l₁).get h' next' = next a) : Seg next' h' (l₁ ++ l₂) 0 := by
  have hnd := nodup_append.mp hs.nodup
  obtain ⟨m, hfront, -, -, hback⟩ := seg_append.mp hs
  refine seg_append.mpr ⟨next a, hfront.relink hnd.1 hhead ?_ hlast, hback.congr ?_⟩
  · intro b hb
    exact hkeep b (by simp [hb])
  · intro b hb
    refine hkeep b (by simp [hb]) fun hl => ?_
    exact hnd.2.2 b (mem_of_lastLink hl) b (by simp [hb]) rfl

end ExoCore.Lib
