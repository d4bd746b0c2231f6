/-
  ExoCore.ProcTree.Policy — the permissions of `mpymod/process/init.py`.

  A process REQUESTS six permissions and HAS six effective ones;
  `_refresh_permissions` computes the second from the first and from the
  effective permissions of the parent (`restrict`).  `None` means "no
  restriction" for a library set and for a limit.

    * `NoWider new old`       — nothing is permitted by `new` that `old` forbids;
    * `MeetAlong chain e`     — `e` is the meet of the requests of a chain of
                                processes, field by field;
    * `MeetAlong.restrict`    — restricting a meet by one more request.

  Runtimes are values of a linear order, libraries of any type with decidable
  equality.
-/
import Mathlib.Algebra.Order.Ring.Nat
import Mathlib.Data.Finset.Lattice.Basic
import Mathlib.Order.Lattice

namespace ExoCore.ProcTree

open List

/-! ## §1. The six permissions. -/

/-- The permission fields of a process, requested or effective. -/
structure Perms (R Lib : Type) where
  sandboxed : Bool
  allowedLibraries : Option (Finset Lib)
  maxRuntime : Option R
  canSpawn : Bool
  maxChildren : Option ℤ
  ring : ℤ

section Restrict

variable {R Lib X : Type} [LinearOrder R] [LinearOrder X] [DecidableEq Lib]

/-- "Allowed libraries propagate as an intersection." -/
def restrictLibraries (parentAllowed requestedAllowed : Option (Finset Lib)) :
    Option (Finset Lib) :=
  match parentAllowed, requestedAllowed with
  | none, none => none
  | none, some requested => some requested
  | some allowed, none => some allowed
  | some allowed, some requested => some (allowed ∩ requested)

/-- Limits (`max_runtime`, `max_children`) propagate as minima. -/
def restrictLimit (parentLimit requestedLimit : Option X) : Option X :=
  match parentLimit, requestedLimit with
  | none, requested => requested
  | some limit, none => some limit
  | some limit, some requested => some (min limit requested)

/-- `if requested_ring not in (0, 3): requested_ring = 3`. -/
def validRing (ring : ℤ) : ℤ := if ring = 0 ∨ ring = 3 then ring else 3

def restrictRing (parentRing requestedRing : ℤ) : ℤ :=
  if validRing requestedRing < parentRing then parentRing else validRing requestedRing

/-- The permissions `_refresh_permissions` computes, without a parent or from the
effective permissions of the parent. -/
def restrict (parent : Option (Perms R Lib)) (requested : Perms R Lib) : Perms R Lib where
  sandboxed :=
    match parent with
    | none => requested.sandboxed
    | some p => p.sandboxed || requested.sandboxed
  allowedLibraries :=
    restrictLibraries (parent.bind (·.allowedLibraries)) requested.allowedLibraries
  maxRuntime := restrictLimit (parent.bind (·.maxRuntime)) requested.maxRuntime
  canSpawn := (parent.elim true (·.canSpawn)) && requested.canSpawn
  maxChildren := restrictLimit (parent.bind (·.maxChildren)) requested.maxChildren
  ring := restrictRing (parent.elim 0 (·.ring)) requested.ring

end Restrict

/-! ## §2. The order. -/

section Order

variable {R Lib X : Type} [LinearOrder R] [LinearOrder X]

/-- A library set permits `lib`; `None` permits everything. -/
def allows (libs : Option (Finset Lib)) (lib : Lib) : Prop := ∀ s, libs = some s → lib ∈ s

/-- A limit that is at most `old`, and present when `old` is. -/
def TighterLimit (new old : Option X) : Prop := ∀ y, old = some y → ∃ x, new = some x ∧ x ≤ y

/-- **`new` is no wider than `old`.** -/
structure NoWider (new old : Perms R Lib) : Prop where
  sandboxed : old.sandboxed = true → new.sandboxed = true
  libraries : ∀ lib, allows new.allowedLibraries lib → allows old.allowedLibraries lib
  runtime : TighterLimit new.maxRuntime old.maxRuntime
  canSpawn : old.canSpawn = false → new.canSpawn = false
  children : TighterLimit new.maxChildren old.maxChildren
  ring : old.ring ≤ new.ring

theorem TighterLimit.refl (a : Option X) : TighterLimit a a := fun y hy => ⟨y, hy, le_refl y⟩

theorem TighterLimit.trans {a b c : Option X} (h : TighterLimit a b) (h' : TighterLimit b c) :
    TighterLimit a c := by
  intro z hz
  obtain ⟨y, hy, hyz⟩ := h' z hz
  obtain ⟨x, hx, hxy⟩ := h y hy
  exact ⟨x, hx, le_trans hxy hyz⟩

theorem NoWider.refl (p : Perms R Lib) : NoWider p p :=
  ⟨fun h => h, fun _ h => h, .refl _, fun h => h, .refl _, le_refl _⟩

theorem NoWider.trans {p q r : Perms R Lib} (h : NoWider p q) (h' : NoWider q r) : NoWider p r :=
  ⟨fun hr => h.sandboxed (h'.sandboxed hr), fun l hl => h'.libraries l (h.libraries l hl),
    h.runtime.trans h'.runtime, fun hr => h.canSpawn (h'.canSpawn hr),
    h.children.trans h'.children, le_trans h'.ring h.ring⟩

end Order

/-! ## §3. What each field of `restrict` permits. -/

section Fields

variable {R Lib X : Type} [LinearOrder R] [LinearOrder X] [DecidableEq Lib]

theorem allows_restrictLibraries {a b : Option (Finset Lib)} {lib : Lib} :
    allows (restrictLibraries a b) lib ↔ allows a lib ∧ allows b lib := by
  unfold allows
  cases a <;> cases b <;> simp [restrictLibraries]

theorem tighterLimit_restrictLimit {a b old : Option X} :
    TighterLimit (restrictLimit a b) old ↔ ∀ y, old = some y →
      (∃ x, a = some x ∧ x ≤ y) ∨ ∃ x, b = some x ∧ x ≤ y := by
  unfold TighterLimit
  cases a <;> cases b <;> simp [restrictLimit]

theorem le_restrictRing {a b old : ℤ} :
    old ≤ restrictRing a b ↔ old ≤ a ∨ old ≤ validRing b := by
  unfold restrictRing
  split <;> omega

theorem validRing_of_valid {ring : ℤ} (h : ring = 0 ∨ ring = 3) : validRing ring = ring :=
  if_pos h

end Fields

/-! ## §4. The meet of a chain of requests. -/

section Meet

variable {R Lib X : Type} [LinearOrder R] [LinearOrder X] [DecidableEq Lib]

/-- **The meet**: `e` is sandboxed when one request of `chain` is, permits the libraries
that every restricting request permits, has the smallest of the requested limits, may
spawn when every request does, and runs in the largest requested ring. -/
structure MeetAlong (chain : List (Perms R Lib)) (e : Perms R Lib) : Prop where
  sandboxed : e.sandboxed = chain.any (·.sandboxed)
  unrestricted : e.allowedLibraries = none ↔ ∀ r ∈ chain, r.allowedLibraries = none
  libraries : ∀ s, e.allowedLibraries = some s →
    ∀ lib, lib ∈ s ↔ ∀ r ∈ chain, ∀ t, r.allowedLibraries = some t → lib ∈ t
  maxRuntime : e.maxRuntime = (chain.filterMap (·.maxRuntime)).min?
  canSpawn : e.canSpawn = chain.all (·.canSpawn)
  maxChildren : e.maxChildren = (chain.filterMap (·.maxChildren)).min?
  ring : (chain.map (·.ring)).max? = some e.ring

theorem restrictLimit_min? (parentLimit : Option X) (rest : List X) (requestedLimit : Option X)
    (h : parentLimit = rest.min?) :
    restrictLimit parentLimit requestedLimit = (requestedLimit.toList ++ rest).min? := by
  subst h
  cases requestedLimit with
  | none => cases hm : rest.min? <;> simp [restrictLimit, hm]
  | some x => cases hm : rest.min? <;> simp [restrictLimit, min?_cons, hm, min_comm]

theorem filterMap_cons_toList {α β : Type} (f : α → Option β) (a : α) (l : List α) :
    (a :: l).filterMap f = (f a).toList ++ l.filterMap f := by
  cases h : f a <;> simp [h]

/-- The permissions of a process without a parent. -/
theorem MeetAlong.single {r : Perms R Lib} (hring : r.ring = 0 ∨ r.ring = 3) :
    MeetAlong [r] (restrict none r) := by
  have hr : (restrict none r).ring = r.ring := by
    show restrictRing 0 r.ring = r.ring
    unfold restrictRing
    rw [validRing_of_valid hring, if_neg (by omega)]
  refine ⟨?_, ?_, ?_, ?_, ?_, ?_, ?_⟩
  · simp [restrict]
  · cases h : r.allowedLibraries <;> simp [restrict, restrictLibraries, h]
  · cases h : r.allowedLibraries <;> simp [restrict, restrictLibraries, h]
  · cases h : r.maxRuntime <;> simp [restrict, restrictLimit, h]
  · simp [restrict]
  · cases h : r.maxChildren <;> simp [restrict, restrictLimit, h]
  · rw [hr]
    simp

variable {chain : List (Perms R Lib)} {e r : Perms R Lib} (h : MeetAlong chain e)
include h

omit [DecidableEq Lib] in
/-- A library is in the meet when every request allows it. -/
theorem MeetAlong.allows_iff {lib : Lib} : allows e.allowedLibraries lib ↔
    ∀ q ∈ chain, allows q.allowedLibraries lib := by
  cases he : e.allowedLibraries with
  | none =>
    have hnone := h.unrestricted.mp he
    refine ⟨fun _ q hq t ht => ?_, fun _ s hs => by cases hs⟩
    rw [hnone q hq] at ht
    cases ht
  | some s' =>
    refine Iff.trans ?_ (h.libraries s' he lib)
    simp [allows]

/-- **One more request**: restricting the meet of a chain gives the meet of the longer
chain. -/
theorem MeetAlong.restrict (hring : r.ring = 0 ∨ r.ring = 3) :
    MeetAlong (r :: chain) (restrict (some e) r) := by
  refine ⟨?_, ?_, ?_, ?_, ?_, ?_, ?_⟩
  · show (e.sandboxed || r.sandboxed) = _
    rw [h.sandboxed, any_cons, Bool.or_comm]
  · show restrictLibraries e.allowedLibraries r.allowedLibraries = none ↔ _
    rw [forall_mem_cons, ← h.unrestricted]
    cases e.allowedLibraries <;> cases r.allowedLibraries <;> simp [restrictLibraries]
  · intro s hs lib
    -- membership in the restricted set, through what the two sets allow
    have hall : lib ∈ s ↔ allows e.allowedLibraries lib ∧ allows r.allowedLibraries lib := by
      rw [← allows_restrictLibraries]
      have hs' : restrictLibraries e.allowedLibraries r.allowedLibraries = some s := hs
      rw [hs']
      simp [allows]
    rw [hall, h.allows_iff, forall_mem_cons]
    exact and_comm
  · show restrictLimit e.maxRuntime r.maxRuntime = _
    rw [filterMap_cons_toList]
    exact restrictLimit_min? _ _ _ h.maxRuntime
  · show (e.canSpawn && r.canSpawn) = _
    rw [h.canSpawn, all_cons, Bool.and_comm]
  · show restrictLimit e.maxChildren r.maxChildren = _
    rw [filterMap_cons_toList]
    exact restrictLimit_min? _ _ _ h.maxChildren
  · show (r.ring :: chain.map (·.ring)).max? = some (restrictRing e.ring r.ring)
    rw [max?_cons, h.ring]
    unfold restrictRing
    rw [validRing_of_valid hring]
    simp only [Option.elim_some, Option.some.injEq]
    split <;> omega

end Meet

end ExoCore.ProcTree
