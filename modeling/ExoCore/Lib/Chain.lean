/-
  ExoCore.Lib.Chain — chains in a table of links.

  A table `next` gives every node its successor; a link that `stop`s ends a
  chain.  A `Family` is a set of chains over the nodes `[lo, hi)` that share no
  node and leave no linked node out: NOTHING LOST, NOTHING SHARED.

  Main results:
    • `Chain.snoc`    — hang a new node behind the last one;
    • `Family.extend` — one chain grows by free nodes, the others stay;
    • `Family.drop`   — one chain is freed;
    • `Family.insert` — a new, empty chain.
-/
import Mathlib.Data.List.Nodup
import Mathlib.Logic.Function.Basic
import Mathlib.Data.Set.Insert

namespace ExoCore.Lib

open Function List

/-! ## §1. One chain. -/

/-- Every node of `l` is linked to the one behind it, the last link stops. -/
def Chain (next : ℕ → ℕ) (stop : ℕ → Prop) : List ℕ → Prop
  | [] => True
  | [c] => stop (next c)
  | c :: d :: l => next c = d ∧ Chain next stop (d :: l)

section Chain

variable {next next' : ℕ → ℕ} {stop : ℕ → Prop}

theorem Chain.tail {c : ℕ} {l : List ℕ} (h : Chain next stop (c :: l)) : Chain next stop l := by
  cases l with
  | nil => trivial
  | cons d l => exact h.2

/-- A chain reads the links of its own nodes only. -/
theorem Chain.congr : ∀ {l : List ℕ}, Chain next stop l → (∀ c ∈ l, next' c = next c) →
    Chain next' stop l
  | [], _, _ => trivial
  | [c], h, heq => by
    show stop (next' c)
    rw [heq c (mem_singleton_self c)]
    exact h
  | c :: d :: l, h, heq => by
    refine ⟨?_, Chain.congr h.2 fun e he => heq e (mem_cons_of_mem c he)⟩
    rw [heq c mem_cons_self]
    exact h.1

/-- The link of a node that is not the last. -/
theorem Chain.link : ∀ {l : List ℕ}, Chain next stop l → ∀ {i c d : ℕ}, l[i]? = some c →
    l[i + 1]? = some d → next c = d
  | [], _, i, c, d, hc, _ => by simp at hc
  | [_], _, i, c, d, _, hd => by simp at hd
  | a :: b :: l, h, i, c, d, hc, hd => by
    cases i with
    | zero =>
      simp only [getElem?_cons_zero, getElem?_cons_succ, Option.some.injEq] at hc hd
      rw [← hc, ← hd]
      exact h.1
    | succ i =>
      rw [getElem?_cons_succ] at hc hd
      exact Chain.link h.2 hc hd

/-- The link of the last node. -/
theorem Chain.last : ∀ {l : List ℕ}, Chain next stop l → ∀ {c : ℕ}, l.getLast? = some c →
    stop (next c)
  | [], _, c, hc => by cases hc
  | [a], h, c, hc => by
    cases hc
    exact h
  | a :: b :: l, h, c, hc => by
    rw [getLast?_cons_cons] at hc
    exact Chain.last h.2 hc

/-- A node behind the last one. -/
theorem Chain.snoc : ∀ {l : List ℕ} {c d : ℕ}, Chain next stop (l ++ [c]) →
    (∀ e ∈ l, next' e = next e) → next' c = d → stop (next' d) →
    Chain next' stop (l ++ [c] ++ [d])
  | [], c, d, _, _, hc, hd => ⟨hc, hd⟩
  | [a], c, d, h, heq, hc, hd => by
    refine ⟨?_, hc, hd⟩
    rw [heq a (mem_singleton_self a)]
    exact h.1
  | a :: b :: l, c, d, h, heq, hc, hd => by
    refine ⟨?_, Chain.snoc h.2 (fun e he => heq e (mem_cons_of_mem a he)) hc hd⟩
    rw [heq a mem_cons_self]
    exact h.1

/-- The link of every node of a chain over `[lo, …)` is a node or stops. -/
theorem Chain.link_ne_zero {lo : ℕ} (hlo : 0 < lo) (hstop : ¬ stop 0) : ∀ {l : List ℕ},
    Chain next stop l → (∀ c ∈ l, lo ≤ c) → ∀ c ∈ l, next c ≠ 0
  | [], _, _, c, hc => by cases hc
  | [a], h, _, c, hc => by
    rw [mem_singleton.mp hc]
    intro h0
    exact hstop (h0 ▸ h)
  | a :: b :: l, h, hmem, c, hc => by
    rcases mem_cons.mp hc with rfl | hc
    · rw [h.1]
      have := hmem b (by simp)
      omega
    · exact Chain.link_ne_zero hlo hstop h.2 (fun e he => hmem e (mem_cons_of_mem a he)) c hc

end Chain

/-! ## §2. A family of chains. -/

/-- **Chains over `[lo, hi)`**: disjoint, and every node with a link that is not
`reserved` is on one of them. -/
structure Family {ι : Type} (next : ℕ → ℕ) (stop reserved : ℕ → Prop) (lo hi : ℕ) (keys : Set ι)
    (chain : ι → List ℕ) : Prop where
  linked : ∀ i ∈ keys, Chain next stop (chain i)
  range : ∀ i ∈ keys, ∀ c ∈ chain i, lo ≤ c ∧ c < hi
  nodup : ∀ i ∈ keys, (chain i).Nodup
  apart : ∀ i ∈ keys, ∀ j ∈ keys, i ≠ j → ∀ c ∈ chain i, c ∉ chain j
  covered : ∀ c, lo ≤ c → c < hi → next c ≠ 0 → ¬ reserved (next c) → ∃ i ∈ keys, c ∈ chain i

section Family

variable {ι : Type} {next next' : ℕ → ℕ} {stop reserved : ℕ → Prop} {lo hi : ℕ} {keys : Set ι}
  {chain : ι → List ℕ} {i : ι}

/-- A family reads the links of `[lo, hi)` only. -/
theorem Family.congr (h : Family next stop reserved lo hi keys chain)
    (heq : ∀ c, lo ≤ c → c < hi → next' c = next c) :
    Family next' stop reserved lo hi keys chain := by
  refine ⟨?_, h.range, h.nodup, h.apart, ?_⟩
  · intro i hi
    refine (h.linked i hi).congr fun c hc => ?_
    obtain ⟨h1, h2⟩ := h.range i hi c hc
    exact heq c h1 h2
  · intro c h1 h2
    rw [heq c h1 h2]
    exact h.covered c h1 h2

variable [DecidableEq ι]

section

variable (h : Family next stop reserved lo hi keys chain)
include h

/-- **One chain is replaced**, or one is added; the links of the others are as before. -/
theorem Family.replace {new : List ℕ} (hchain : Chain next' stop new)
    (hrange : ∀ c ∈ new, lo ≤ c ∧ c < hi) (hnodup : new.Nodup)
    (hother : ∀ j ∈ keys, j ≠ i → ∀ c ∈ chain j, c ∉ new ∧ next' c = next c)
    (hcovered : ∀ c, lo ≤ c → c < hi → next' c ≠ 0 →
      c ∈ new ∨ ((i ∈ keys → c ∉ chain i) ∧ next' c = next c)) :
    Family next' stop reserved lo hi (insert i keys) (update chain i new) := by
  refine ⟨?_, ?_, ?_, ?_, ?_⟩
  · refine (forall_update_iff chain fun j l => j ∈ insert i keys → Chain next' stop l).mpr
      ⟨fun _ => hchain, fun j hji hj => ?_⟩
    have hj := hj.resolve_left hji
    exact (h.linked j hj).congr fun c hc => (hother j hj hji c hc).2
  · exact (forall_update_iff chain fun j l => j ∈ insert i keys → ∀ c ∈ l, lo ≤ c ∧ c < hi).mpr
      ⟨fun _ => hrange, fun j hji hj => h.range j (hj.resolve_left hji)⟩
  · exact (forall_update_iff chain fun j l => j ∈ insert i keys → l.Nodup).mpr
      ⟨fun _ => hnodup, fun j hji hj => h.nodup j (hj.resolve_left hji)⟩
  · intro j hj k hk hjk c
    by_cases hji : j = i
    · subst hji
      rw [update_self, update_of_ne (Ne.symm hjk)]
      intro hc hck
      exact (hother k (hk.resolve_left (Ne.symm hjk)) (Ne.symm hjk) c hck).1 hc
    · have hj := hj.resolve_left hji
      rw [update_of_ne hji]
      by_cases hki : k = i
      · rw [hki, update_self]
        exact fun hc => (hother j hj hji c hc).1
      · rw [update_of_ne hki]
        exact h.apart j hj k (hk.resolve_left hki) hjk c
  · intro c h1 h2 h0 hres
    rcases hcovered c h1 h2 h0 with hc | ⟨hc, hsame⟩
    · refine ⟨i, .inl rfl, ?_⟩
      rw [update_self]
      exact hc
    · rw [hsame] at h0 hres
      obtain ⟨j, hj, hcj⟩ := h.covered c h1 h2 h0 hres
      have hji : j ≠ i := by
        rintro rfl
        exact hc hj hcj
      refine ⟨j, .inr hj, ?_⟩
      rw [update_of_ne hji]
      exact hcj

/-- **One chain grows** by nodes that were free. -/
theorem Family.extend (hlo : 0 < lo) (hstop : ¬ stop 0) (hi' : i ∈ keys) {new : List ℕ}
    (hnew : ∀ c ∈ new, (lo ≤ c ∧ c < hi) ∧ next c = 0) (hnodup : (chain i ++ new).Nodup)
    (hchain : Chain next' stop (chain i ++ new))
    (hsame : ∀ c, lo ≤ c → c < hi → c ∉ chain i ++ new → next' c = next c) :
    Family next' stop reserved lo hi keys (update chain i (chain i ++ new)) := by
  -- no other chain meets the grown one
  have hother : ∀ j ∈ keys, j ≠ i → ∀ c ∈ chain j, c ∉ chain i ++ new := by
    intro j hj hji c hc hmem
    rcases mem_append.mp hmem with hci | hcn
    · exact h.apart j hj i hi' hji c hc hci
    · refine Chain.link_ne_zero hlo hstop (h.linked j hj) (fun e he => (h.range j hj e he).1) c hc ?_
      exact (hnew c hcn).2
  rw [← Set.insert_eq_of_mem hi']
  refine h.replace hchain ?_ hnodup ?_ ?_
  · intro c hc
    rcases mem_append.mp hc with hci | hcn
    · exact h.range i hi' c hci
    · exact (hnew c hcn).1
  · intro j hj hji c hc
    have hout := hother j hj hji c hc
    obtain ⟨h1, h2⟩ := h.range j hj c hc
    exact ⟨hout, hsame c h1 h2 hout⟩
  · intro c h1 h2 _
    by_cases hc : c ∈ chain i ++ new
    · exact .inl hc
    · exact .inr ⟨fun _ hci => hc (mem_append_left new hci), hsame c h1 h2 hc⟩

/-- **One chain is freed.** -/
theorem Family.drop (hi' : i ∈ keys) (hzero : ∀ c ∈ chain i, next' c = 0)
    (hsame : ∀ c, lo ≤ c → c < hi → c ∉ chain i → next' c = next c) :
    Family next' stop reserved lo hi keys (update chain i []) := by
  rw [← Set.insert_eq_of_mem hi']
  refine h.replace trivial (fun c hc => by cases hc) nodup_nil ?_ ?_
  · intro j hj hji c hc
    obtain ⟨h1, h2⟩ := h.range j hj c hc
    exact ⟨not_mem_nil, hsame c h1 h2 (h.apart j hj i hi' hji c hc)⟩
  · intro c h1 h2 h0
    have hc : c ∉ chain i := fun hc => h0 (hzero c hc)
    exact .inr ⟨fun _ => hc, hsame c h1 h2 hc⟩

/-- **A new key** with an empty chain. -/
theorem Family.insert (hi' : i ∉ keys) :
    Family next stop reserved lo hi (insert i keys) (update chain i []) := by
  refine h.replace trivial (fun c hc => by cases hc) nodup_nil ?_ ?_
  · exact fun _ _ _ _ _ => ⟨not_mem_nil, rfl⟩
  · exact fun _ _ _ _ => .inr ⟨fun hi => absurd hi hi', rfl⟩

end

end Family

end ExoCore.Lib
