import Mathlib.Data.Set.Insert
import Mathlib.Data.Finset.Insert
import Mathlib.Data.Finset.Card
import Mathlib.Logic.Function.Basic
import Mathlib.Tactic.Tauto

/-!
# Footprints

A program that takes pages from a free pool and gives pages back owns some pages
before it runs and some pages afterwards.  `Footprint free free' Same A A'` says
what that means for everybody else: the pages it owns are `A` before and `A'`
after, what it has gained came from the free pool and what it has lost went back
there, and every other page in use is the `Same`.

* `Footprint.trans` — one program after another.
* `Footprint.frame` — the pages of somebody else may be added on both sides.
* `Divided.update` — the pages in use stay divided among their owners when one of them
  runs a program.
* `Few.of_footprint` — a pool that is small afterwards was small before, up to what the
  program has taken.
-/

variable {P : Type}

/-- What a program does to a pool of pages.  `free` and `free'` are the pages free
before and after; `Same p` says that the contents of `p` are unchanged. -/
structure Footprint (free free' : P → Prop) (Same : P → Prop) (A A' : Set P) : Prop where
  free_iff : ∀ p, free' p ↔ (free p ∨ p ∈ A) ∧ p ∉ A'
  held : ∀ p ∈ A, ¬free p
  fresh : ∀ p ∈ A', p ∈ A ∨ free p
  same : ∀ p, ¬free p → p ∉ A → Same p

namespace Footprint

variable {free free' free'' : P → Prop} {Same Same' Same'' : P → Prop} {A A' A'' B : Set P}

/-- The pages owned afterwards are in use. -/
theorem held' (h : Footprint free free' Same A A') : ∀ p ∈ A', ¬free' p := by
  intro p hp hf
  exact ((h.free_iff p).1 hf).2 hp

/-- A page of somebody else stays in use, and is not gained. -/
theorem other (h : Footprint free free' Same A A') {p : P} (hf : ¬free p) (hp : p ∉ A) :
    ¬free' p ∧ p ∉ A' := by
  have hp' : p ∉ A' := fun hp' => (h.fresh p hp').elim hp hf
  rw [h.free_iff]
  exact ⟨by tauto, hp'⟩

/-- **One program after another.** -/
theorem trans (h : Footprint free free' Same A A') (h' : Footprint free' free'' Same' A' A'')
    (hs : ∀ p, Same p → Same' p → Same'' p) : Footprint free free'' Same'' A A'' where
  free_iff p := by
    have h1 := h.free_iff p
    have h2 := h'.free_iff p
    have h3 := h.fresh p
    tauto
  held := h.held
  fresh p hp := by
    rcases h'.fresh p hp with hp | hf
    · exact h.fresh p hp
    · exact ((h.free_iff p).1 hf).1.symm
  same p hf hp := by
    obtain ⟨hf', hp'⟩ := h.other hf hp
    exact hs p (h.same p hf hp) (h'.same p hf' hp')

/-- **The frame rule.** -/
theorem frame (h : Footprint free free' Same A A') (hB : ∀ p ∈ B, ¬free p ∧ p ∉ A) :
    Footprint free free' Same (A ∪ B) (A' ∪ B) where
  free_iff p := by
    have h1 := h.free_iff p
    have h2 := hB p
    have h3 := h.fresh p
    simp only [Set.mem_union]
    tauto
  held p hp := hp.elim (h.held p) fun hp => (hB p hp).1
  fresh p hp := by
    rcases hp with hp | hp
    · exact (h.fresh p hp).imp_left .inl
    · exact .inl (.inr hp)
  same p hf hp := h.same p hf fun hA => hp (.inl hA)

/-- One program after another, where each works on pages of its own. -/
theorem seq {B' : Set P} (h : Footprint free free' Same A A')
    (h' : Footprint free' free'' Same' B B') (hB : ∀ p ∈ B, ¬free p ∧ p ∉ A)
    (hs : ∀ p, Same p → Same' p → Same'' p) :
    Footprint free free'' Same'' (A ∪ B) (A' ∪ B') := by
  have h₂ := h'.frame (B := A') fun p hp => ⟨h.held' p hp, fun hpB =>
    (h.other (hB p hpB).1 (hB p hpB).2).2 hp⟩
  rw [Set.union_comm B, Set.union_comm B'] at h₂
  exact (h.frame hB).trans h₂ hs

/-- A program that does nothing. -/
theorem refl (hs : ∀ p, Same p) (hA : ∀ p ∈ A, ¬free p) : Footprint free free Same A A where
  free_iff p := by
    have := hA p
    tauto
  held := hA
  fresh _ hp := .inl hp
  same p _ _ := hs p

/-- A program that changes what its own pages hold. -/
theorem touch (hf : ∀ p, free' p ↔ free p) (hs : ∀ p, p ∉ A → Same p) (hA : ∀ p ∈ A, ¬free p) :
    Footprint free free' Same A A where
  free_iff p := by
    have := hA p
    have := hf p
    tauto
  held := hA
  fresh _ hp := .inl hp
  same p _ hp := hs p hp

end Footprint

/-- The pages in `range` that are not free are divided among owners. -/
structure Divided {I : Type} (free range : P → Prop) (own : I → Set P) : Prop where
  in_range : ∀ p, free p → range p
  held : ∀ i, ∀ p ∈ own i, range p ∧ ¬free p
  apart : ∀ i j p, p ∈ own i → p ∈ own j → i = j
  cover : ∀ p, range p → ¬free p → ∃ i, p ∈ own i

namespace Divided

variable {I : Type} {free free' range Same : P → Prop} {own : I → Set P} {A' : Set P} {i : I}

/-- Somebody else's pages are in use and none of one's own. -/
theorem other (h : Divided free range own) {j : I} (hj : j ≠ i) :
    ∀ p ∈ own j, ¬free p ∧ p ∉ own i :=
  fun p hp => ⟨(h.held j p hp).2, fun hi => hj (h.apart j i p hp hi)⟩

/-- **An owner runs a program.** -/
theorem update [DecidableEq I] (h : Divided free range own)
    (hf : Footprint free free' Same (own i) A') :
    Divided free' range (Function.update own i A') where
  in_range p hp := by
    rcases ((hf.free_iff p).1 hp).1 with hp | hp
    · exact h.in_range p hp
    · exact (h.held i p hp).1
  held j p hp := by
    by_cases hj : j = i
    · subst hj
      rw [Function.update_self] at hp
      refine ⟨?_, hf.held' p hp⟩
      rcases hf.fresh p hp with hp | hp
      · exact (h.held j p hp).1
      · exact h.in_range p hp
    · rw [Function.update_of_ne hj] at hp
      obtain ⟨h1, h2⟩ := h.other hj p hp
      exact ⟨(h.held j p hp).1, (hf.other h1 h2).1⟩
  apart j j' p hp hp' := by
    have hne : ∀ l, l ≠ i → p ∈ own l → p ∉ A' := fun l hl hpl =>
      (hf.other (h.other hl p hpl).1 (h.other hl p hpl).2).2
    by_cases hj : j = i <;> by_cases hj' : j' = i
    · rw [hj, hj']
    · rw [hj, Function.update_self] at hp
      rw [Function.update_of_ne hj'] at hp'
      exact absurd hp (hne j' hj' hp')
    · rw [Function.update_of_ne hj] at hp
      rw [hj', Function.update_self] at hp'
      exact absurd hp' (hne j hj hp)
    · rw [Function.update_of_ne hj] at hp
      rw [Function.update_of_ne hj'] at hp'
      exact h.apart j j' p hp hp'
  cover p hr hp := by
    by_cases hA : p ∈ A'
    · exact ⟨i, by rwa [Function.update_self]⟩
    · have hnot : ¬(free p ∨ p ∈ own i) := fun hc => hp ((hf.free_iff p).2 ⟨hc, hA⟩)
      obtain ⟨j, hj⟩ := h.cover p hr fun hc => hnot (.inl hc)
      refine ⟨j, ?_⟩
      rwa [Function.update_of_ne]
      rintro rfl
      exact hnot (.inr hj)

end Divided

/-- At most `k` pages are free. -/
def Few (free : P → Prop) (k : Nat) : Prop :=
  ∃ F : Finset P, F.card ≤ k ∧ ∀ p, free p → p ∈ F

namespace Few

variable {free free' : P → Prop} {Same : P → Prop} {A A' : Set P} {k k' : Nat}

theorem mono (h : Few free k) (hk : k ≤ k') : Few free k' := by
  obtain ⟨F, hF, hf⟩ := h
  exact ⟨F, hF.trans hk, hf⟩

theorem none (h : ∀ p, ¬free p) : Few free 0 := ⟨∅, by simp, fun p hp => absurd hp (h p)⟩

/-- A pool that is small after a program has run was small before, up to what the
program owns. -/
theorem of_footprint [DecidableEq P] (h : Few free' k) (hf : Footprint free free' Same A A')
    {G : Finset P} (hG : ∀ p ∈ A', p ∈ G) : Few free (k + G.card) := by
  obtain ⟨F, hF, hff⟩ := h
  refine ⟨F ∪ G, (Finset.card_union_le F G).trans (by omega), fun p hp => ?_⟩
  by_cases hA : p ∈ A'
  · exact Finset.mem_union_right _ (hG p hA)
  · exact Finset.mem_union_left _ (hff p ((hf.free_iff p).2 ⟨.inl hp, hA⟩))

end Few
