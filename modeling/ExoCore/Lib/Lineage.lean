/-
  ExoCore.Lib.Lineage — parent pointers, lines of ancestors, inherited values.

  `Line parent x l` says that `l` is `x` followed by its ancestors, up to one that
  has no parent.  A node that has a line is on no cycle, so the lines of all nodes
  say that the pointers form a forest.  `Below parent a x` is "`x` is `a` or a
  descendant of it".

    * `Line.unique`, `Line.of_mem`   — a line is determined by its first node;
    * `Line.not_mem_of_parent`       — no node is below its own child;
    * `Line.acyclic`                 — nor is it, in any number of steps, its own ancestor;
    * `Line.down_induction`          — induction from the children to their parent;
    * `Inherits.frame`               — a value inherited from the parent only
                                       depends on the node and its parent.
-/
import Mathlib.Data.List.Basic
import Mathlib.Logic.Relation
import Mathlib.Order.Lattice
import Mathlib.Tactic.Common

namespace ExoCore.Lib

open List

/-! ## §1. Lines. -/

/-- `l` is `x` followed by its ancestors. -/
inductive Line {α : Type*} (parent : α → Option α) : α → List α → Prop
  | top {x : α} (h : parent x = none) : Line parent x [x]
  | step {x y : α} {l : List α} (h : parent x = some y) (hl : Line parent y l) :
      Line parent x (x :: l)

section Line

variable {α : Type*} {parent parent' : α → Option α} {a b x y : α} {l l' : List α}

section

variable (h : Line parent x l)
include h

theorem Line.self_mem : x ∈ l := by
  cases h <;> exact mem_cons_self ..

/-- The line of a node with a parent is the node and the line of the parent. -/
theorem Line.tail (hp : parent x = some y) : ∃ l', l = x :: l' ∧ Line parent y l' := by
  cases h with
  | top h0 =>
    rw [hp] at h0
    cases h0
  | @step _ z l' hz hl =>
    rw [hp] at hz
    cases hz
    exact ⟨l', rfl, hl⟩

theorem Line.eq_of_top (hp : parent x = none) : l = [x] := by
  cases h with
  | top _ => rfl
  | step hz _ =>
    rw [hp] at hz
    cases hz

/-- **A node has one line.** -/
theorem Line.unique (h' : Line parent x l') : l = l' := by
  induction h generalizing l' with
  | top hp => exact (h'.eq_of_top hp).symm
  | step hp _ ih =>
    obtain ⟨t, rfl, ht⟩ := h'.tail hp
    rw [ih ht]

/-- Every ancestor has its own line, a part of the node's line. -/
theorem Line.of_mem (ha : a ∈ l) :
    ∃ l', Line parent a l' ∧ l'.length ≤ l.length ∧ ∀ b ∈ l', b ∈ l := by
  induction h with
  | @top x hp =>
    rw [mem_singleton] at ha
    subst ha
    exact ⟨[a], .top hp, le_refl _, fun b hb => hb⟩
  | @step x y l hp hl ih =>
    rcases mem_cons.mp ha with rfl | ha
    · exact ⟨a :: l, .step hp hl, le_refl _, fun b hb => hb⟩
    · obtain ⟨l', hl', hlen, hsub⟩ := ih ha
      refine ⟨l', hl', ?_, fun b hb => mem_cons_of_mem _ (hsub b hb)⟩
      rw [length_cons]
      omega

end

/-- **No cycles**: a node is not among the ancestors of its parent. -/
theorem Line.not_mem_of_parent (h : Line parent y l) (hp : parent x = some y) : x ∉ l := by
  intro hx
  obtain ⟨l', hl', hlen, -⟩ := h.of_mem hx
  -- the line of `x` would be longer than itself
  have hself : l' = x :: l := hl'.unique (.step hp h)
  rw [hself, length_cons] at hlen
  omega

section

variable (h : Line parent x l)
include h

/-- The line of an ancestor is shorter. -/
theorem Line.lt_of_ancestor (hxy : Relation.TransGen (fun a b => parent a = some b) x y) :
    ∃ l', Line parent y l' ∧ l'.length < l.length := by
  induction hxy with
  | single hp =>
    obtain ⟨l', rfl, hl'⟩ := h.tail hp
    exact ⟨l', hl', Nat.lt_succ_self _⟩
  | tail _ hp ih =>
    obtain ⟨l', hl', hlt⟩ := ih
    obtain ⟨l'', rfl, hl''⟩ := hl'.tail hp
    exact ⟨l'', hl'', (Nat.lt_succ_self _).trans hlt⟩

/-- **A node that has a line is on no cycle.** -/
theorem Line.acyclic : ¬ Relation.TransGen (fun a b => parent a = some b) x x := by
  intro hcycle
  obtain ⟨l', hl', hlt⟩ := h.lt_of_ancestor hcycle
  rw [hl'.unique h] at hlt
  exact lt_irrefl _ hlt

/-- A proper ancestor is somebody's parent. -/
theorem Line.parent_of_mem (ha : a ∈ l) (hne : a ≠ x) : ∃ b, parent b = some a := by
  induction h with
  | top _ => exact absurd (mem_singleton.mp ha) hne
  | @step x y l hp _ ih =>
    rcases mem_cons.mp ha with rfl | ha
    · exact absurd rfl hne
    · by_cases hay : a = y
      · exact ⟨x, hay ▸ hp⟩
      · exact ih ha hay

/-- A line only reads the pointers of its own nodes. -/
theorem Line.congr (heq : ∀ a ∈ l, parent' a = parent a) : Line parent' x l := by
  induction h with
  | @top x hp => exact .top ((heq x (mem_singleton_self x)).trans hp)
  | @step x y l hp _ ih =>
    have hx := (heq x (mem_cons_self ..)).trans hp
    exact .step hx (ih fun a ha => heq a (mem_cons_of_mem _ ha))

end

/-- Finitely many lines have a longest one. -/
theorem Line.exists_bound (nodes : List α) (hall : ∀ x ∈ nodes, ∃ l, Line parent x l) :
    ∃ n, ∀ x ∈ nodes, ∀ l, Line parent x l → l.length ≤ n := by
  induction nodes with
  | nil => exact ⟨0, fun x hx => by cases hx⟩
  | cons y nodes ih =>
    obtain ⟨n, hn⟩ := ih fun x hx => hall x (mem_cons_of_mem _ hx)
    obtain ⟨ly, hly⟩ := hall y (mem_cons_self ..)
    refine ⟨max n ly.length, fun x hx l hl => ?_⟩
    rcases mem_cons.mp hx with rfl | hx
    · rw [hl.unique hly]
      exact le_max_right _ _
    · exact le_trans (hn x hx l hl) (le_max_left _ _)

/-- **Induction up the tree**: from the children among finitely many nodes to their parent. -/
@[elab_as_elim]
theorem Line.down_induction (nodes : List α) (hall : ∀ x, ∃ l, Line parent x l) {P : α → Prop}
    (hstep : ∀ x, (∀ c ∈ nodes, parent c = some x → P c) → P x) (x : α) : P x := by
  obtain ⟨n, hn⟩ := Line.exists_bound nodes fun x _ => hall x
  -- on how much longer a line can get
  have hdepth : ∀ k x l, Line parent x l → n ≤ k + l.length → P x := by
    intro k
    induction k with
    | zero =>
      intro x l hl hlen
      refine hstep x fun c hc hp => ?_
      have hle := hn c hc _ (.step hp hl)
      rw [length_cons] at hle
      omega
    | succ k ih =>
      intro x l hl hlen
      refine hstep x fun c _ hp => ih c _ (.step hp hl) ?_
      rw [length_cons]
      omega
  obtain ⟨l, hl⟩ := hall x
  exact hdepth n x l hl (Nat.le_add_right _ _)

end Line

/-! ## §2. Descendants. -/

/-- `x` is `a` or a descendant of `a`. -/
def Below {α : Type*} (parent : α → Option α) (a x : α) : Prop := ∃ l, Line parent x l ∧ a ∈ l

section Below

variable {α : Type*} {parent parent' : α → Option α} {a b x y : α}

theorem Below.self (h : ∃ l, Line parent x l) : Below parent x x := by
  obtain ⟨l, hl⟩ := h
  exact ⟨l, hl, hl.self_mem⟩

theorem Below.child (h : Below parent a y) (hp : parent x = some y) : Below parent a x := by
  obtain ⟨l, hl, ha⟩ := h
  exact ⟨x :: l, .step hp hl, mem_cons_of_mem _ ha⟩

/-- A proper descendant is below through its parent. -/
theorem Below.up (h : Below parent a x) (hne : x ≠ a) :
    ∃ y, parent x = some y ∧ Below parent a y := by
  obtain ⟨l, hl, ha⟩ := h
  cases hl with
  | top hp => exact absurd (mem_singleton.mp ha).symm hne
  | @step _ y l hp hl =>
    rcases mem_cons.mp ha with rfl | ha
    · exact absurd rfl hne
    · exact ⟨y, hp, l, hl, ha⟩

theorem Below.trans (h : Below parent a b) (h' : Below parent b x) : Below parent a x := by
  obtain ⟨l, hl, ha⟩ := h
  obtain ⟨k, hk, hb⟩ := h'
  obtain ⟨l', hl', -, hsub⟩ := hk.of_mem hb
  rw [hl'.unique hl] at hsub
  exact ⟨k, hk, hsub a ha⟩

/-- **A parent is not below its child.** -/
theorem not_below_of_parent (hp : parent x = some y) : ¬ Below parent x y := by
  rintro ⟨l, hl, hx⟩
  exact hl.not_mem_of_parent hp hx

theorem Below.antisymm (h : Below parent a b) (h' : Below parent b a) : a = b := by
  by_contra hne
  obtain ⟨y, hy, hay⟩ := h.up (Ne.symm hne)
  exact not_below_of_parent hy (h'.trans hay)

end Below

/-! ## §3. Inherited values. -/

/-- The value of `x` is computed from the value of its parent and its own entry. -/
def Inherits {α β ρ : Type*} (parent : α → Option α) (f : Option β → ρ → β) (own : α → ρ)
    (val : α → β) (x : α) : Prop :=
  val x = f ((parent x).map val) (own x)

/-- An inherited value depends on the node's own entry and on its parent only. -/
theorem Inherits.frame {α β ρ : Type*} {parent parent' : α → Option α} {f : Option β → ρ → β}
    {own own' : α → ρ} {val val' : α → β} {x : α} (h : Inherits parent f own val x)
    (hparent : parent' x = parent x) (hown : own' x = own x) (hval : val' x = val x)
    (hup : ∀ y, parent x = some y → val' y = val y) : Inherits parent' f own' val' x := by
  unfold Inherits
  rw [hval, hparent, hown, h]
  cases hp : parent x with
  | none => rfl
  | some y =>
    show f (some (val y)) (own x) = f (some (val' y)) (own x)
    rw [hup y hp]

end ExoCore.Lib
