import Wl00.Lib.Footprint
import Wl00.Vm.Memory

/-!
# The page allocator and footprints

Pages are numbers here: page `p` is the 4096 bytes from `p * 4096` on.  `Frame s s' A A'`
says that a program which owned the pages `A` in `s` owns `A'` in `s'` and has done
nothing else that anybody who owns a page could see.

* `kalloc_spec`, `kfree_spec` — a page comes and goes.
* `frame_mapBytes` — a write stays in its page.
-/

namespace Wl00.Vm

open Prog

variable {L : Layout} {s s' s'' : Mem L} {A A' A'' B : Set Nat} {p : Nat}

/-- Page `p` is free. -/
def Mem.free (s : Mem L) (p : Nat) : Prop := 0x80000 ≤ p ∧ s.bitmap (p - 0x80000) = true

/-- Page `p` lies in `[start_page, MEM_END)`. -/
def InRange (L : Layout) (p : Nat) : Prop := L.startPage ≤ p * 4096 ∧ p < 0x88000

/-- Page `p` holds the same bytes. -/
def SamePage (m m' : Bytes) (p : Nat) : Prop := ∀ o < 4096, m' (p * 4096 + o) = m (p * 4096 + o)

/-- Page `p` is full of zeros. -/
def Zeroed (m : Bytes) (p : Nat) : Prop := ∀ o < 4096, m (p * 4096 + o) = 0

theorem Zeroed.congr {m m' : Bytes} {p : Nat} (h : Zeroed m p) (hs : SamePage m m' p) :
    Zeroed m' p := fun o ho => (hs o ho).trans (h o ho)

/-- A program that owned the pages `A` in `s` owns `A'` in `s'`, and nothing else has
changed. -/
def Frame (s s' : Mem L) (A A' : Set Nat) : Prop :=
  Footprint s.free s'.free (SamePage s.bytes s'.bytes) A A'

/-- The pages `A` are in use. -/
def Held (s : Mem L) (A : Set Nat) : Prop := ∀ p ∈ A, ¬s.free p

theorem Layout.startPage_eq (L : Layout) :
    L.startPage % 4096 = 0 ∧ 0x80002000 ≤ L.startPage ∧ L.startPage ≤ 0x88000000 := by
  have h1 := L.base_lt
  have h2 := L.aligned
  have h3 := L.etext_lt
  have h4 := L.kend_le
  simp only [Layout.startPage, pgRoundUp, KERNBASE, PAGE_SIZE, MEM_END] at *
  omega

theorem InRange.lt (h : InRange L p) : 0x80002 ≤ p ∧ p < 0x88000 := by
  have := L.startPage_eq
  unfold InRange at h
  omega

theorem Mem.free.inRange (h : s.free p) : InRange L p := by
  have hr := s.range _ h.2
  have hs := L.startPage_eq
  have h1 := h.1
  simp only [pageIdx, pgRoundDown, PAGE_SIZE, MEM_START, NUM_PAGES, MEM_END] at hr
  unfold InRange
  omega

/-! ## Frames -/

theorem SamePage.trans {m m' m'' : Bytes} (h : SamePage m m' p) (h' : SamePage m' m'' p) :
    SamePage m m'' p := fun o ho => (h' o ho).trans (h o ho)

theorem SamePage.word {m m' : Bytes} (h : SamePage m m' p) {j : Nat} (hj : j + 4 ≤ 4096) :
    m'.word (p * 4096 + j) = m.word (p * 4096 + j) := by
  apply Bytes.word_congr
  intro i hi
  rw [Nat.add_assoc]
  exact h (j + i) (by omega)

namespace Frame

theorem trans (h : Frame s s' A A') (h' : Frame s' s'' A' A'') : Frame s s'' A A'' :=
  Footprint.trans h h' fun _ => SamePage.trans

theorem refl (hA : Held s A) : Frame s s A A := Footprint.refl (fun _ _ _ => rfl) hA

theorem held' (h : Frame s s' A A') : Held s' A' := Footprint.held' h

theorem frame (h : Frame s s' A A') (hB : ∀ p ∈ B, ¬s.free p ∧ p ∉ A) :
    Frame s s' (A ∪ B) (A' ∪ B) := Footprint.frame h hB

/-- One program after another, where each works on pages of its own. -/
theorem seq {B' : Set Nat} (h : Frame s s' A A') (h' : Frame s' s'' B B')
    (hB : ∀ p ∈ B, ¬s.free p ∧ p ∉ A) : Frame s s'' (A ∪ B) (A' ∪ B') :=
  Footprint.seq h h' hB fun _ => SamePage.trans

/-- What somebody else holds stays held. -/
theorem held (h : Frame s s' A A') (hB : Held s B) (hd : ∀ p ∈ B, p ∉ A) : Held s' B :=
  fun p hp => (Footprint.other h (hB p hp) (hd p hp)).1

theorem not_mem (h : Frame s s' A A') (hB : Held s B) (hd : ∀ p ∈ B, p ∉ A) :
    ∀ p ∈ B, p ∉ A' := fun p hp => (Footprint.other h (hB p hp) (hd p hp)).2

/-- A program that works on some of the pages it owns. -/
theorem widen (h : Frame s s' A A') (hB : Held s B) (hAB : A ⊆ B) :
    Frame s s' B (A' ∪ (B \ A)) := by
  have := h.frame (B := B \ A) fun p hp => ⟨hB p hp.1, hp.2⟩
  rwa [Set.union_sdiff_cancel hAB] at this

theorem widen_self (h : Frame s s' A A) (hB : Held s B) (hAB : A ⊆ B) : Frame s s' B B := by
  have := h.widen hB hAB
  rwa [Set.union_sdiff_cancel hAB] at this

end Frame

@[simp] theorem Mem.bytes_mapBytes (f : Bytes → Bytes) : (s.mapBytes f).bytes = f s.bytes := rfl

@[simp] theorem Mem.free_mapBytes (f : Bytes → Bytes) : (s.mapBytes f).free p ↔ s.free p := Iff.rfl

/-- A write that stays in page `p`. -/
theorem frame_mapBytes {f : Bytes → Bytes} (hp : ¬s.free p)
    (hf : ∀ x, x / 4096 ≠ p → f s.bytes x = s.bytes x) : Frame s (s.mapBytes f) {p} {p} := by
  refine Footprint.touch (fun _ => Iff.rfl) ?_ (by rintro q rfl; exact hp)
  intro q hq o ho
  refine hf _ ?_
  rw [Set.mem_singleton_iff] at hq
  omega

/-! ## Words in a page -/

@[simp] theorem wp_load {Q : Nat → Mem L → Prop} (a : Nat) :
    wp (load a) Q s ↔ Q (s.bytes.word a) s := by
  rw [load, wp_bind, wp_get, wp_pure]

@[simp] theorem wp_store {Q : Unit → Mem L → Prop} (a w : Nat) :
    wp (store a w) Q s ↔ Q () (s.mapBytes (·.storeWord a w)) := by
  simp [store]

@[simp] theorem wp_memset {Q : Unit → Mem L → Prop} (a n : Nat) (b : UInt8) :
    wp (memset a b n) Q s ↔ Q () (s.mapBytes (·.fill a b n)) := by
  simp [memset]

@[simp] theorem wp_memmove {Q : Unit → Mem L → Prop} (d a n : Nat) :
    wp (memmove d a n) Q s ↔ Q () (s.mapBytes (move · d a n)) := by
  simp [memmove]

@[simp] theorem wp_memmoveFrom {Q : Unit → Mem L → Prop} (d : Nat) (src : List UInt8) :
    wp (memmoveFrom d src) Q s ↔ Q () (s.mapBytes (·.write d src)) := by
  simp [memmoveFrom]

theorem frame_store {j w : Nat} (hp : ¬s.free p) (hj : j + 4 ≤ 4096) :
    Frame s (s.mapBytes (·.storeWord (p * 4096 + j) w)) {p} {p} :=
  frame_mapBytes hp fun x hx => Bytes.storeWord_of_ne (by omega)

/-- Words are stored in page `p`, at the offsets that `l` says. -/
theorem frame_stores (l : List (Nat × Nat)) (hl : ∀ x ∈ l, x.1 + 4 ≤ 4096) (hp : ¬s.free p) :
    Frame s (l.foldl (fun s x => s.mapBytes (·.storeWord (p * 4096 + x.1) x.2)) s) {p} {p} := by
  induction l generalizing s with
  | nil => exact .refl (by rintro _ rfl; exact hp)
  | cons x l ih =>
      have h₁ := frame_store (w := x.2) hp (hl x (by simp))
      exact h₁.trans (ih (fun y hy => hl y (by simp [hy])) (h₁.held' p rfl))

theorem frame_fill (hp : ¬s.free p) :
    Frame s (s.mapBytes (·.fill (p * 4096) 0 4096)) {p} {p} :=
  frame_mapBytes hp fun x hx => by rw [Bytes.fill_apply, if_neg (by omega)]

/-! ## `kalloc` and `kfree` -/

theorem firstFree_some {b : Nat → Bool} {i n j : Nat} (h : firstFree b i n = some j) :
    b j = true := by
  induction n generalizing i with
  | zero => cases h
  | succ n ih =>
      rw [firstFree] at h
      split at h
      · next hb =>
        cases h
        exact hb
      · exact ih h

theorem firstFree_none {b : Nat → Bool} {i n j : Nat} (h : firstFree b i n = none) (hi : i ≤ j)
    (hj : j < i + n) : b j = false := by
  induction n generalizing i with
  | zero => omega
  | succ n ih =>
      rw [firstFree] at h
      split at h
      · cases h
      · next hb =>
        by_cases hij : i = j
        · subst hij
          simpa using hb
        · exact ih h (by omega) (by omega)

/-- **`kalloc` returns a free page, or 0 when there is none.** -/
theorem kalloc_spec (s : Mem L) : wp kalloc (fun pa s' =>
    (pa = 0 ∧ s' = s ∧ ∀ p, ¬s.free p) ∨
      ∃ p, pa = p * 4096 ∧ s.free p ∧ s'.bytes = s.bytes ∧ Frame s s' ∅ {p}) s := by
  unfold kalloc
  simp only [wp_bind, wp_get]
  cases h : firstFree s.bitmap 0 NUM_PAGES with
  | none =>
      dsimp only
      rw [wp_pure]
      left
      refine ⟨rfl, rfl, fun p hp => ?_⟩
      have hr := s.range _ hp.2
      have := firstFree_none h (Nat.zero_le (p - 0x80000)) (by omega)
      rw [hp.2] at this
      cases this
  | some i =>
      dsimp only
      rw [wp_bind, wp_set, wp_pure]
      right
      have hi := firstFree_some h
      refine ⟨0x80000 + i, ?_, ⟨by omega, by simpa using hi⟩, rfl, ?_, ?_, ?_, ?_⟩
      · simp only [MEM_START, PAGE_SIZE]
        omega
      · intro q
        simp only [Mem.free, Set.mem_empty_iff_false, or_false, Set.mem_singleton_iff]
        by_cases hq : q = 0x80000 + i
        · subst hq
          simp
        · by_cases hqi : q - 0x80000 = i
          · simp only [hqi, Function.update_self]
            constructor
            · intro hf
              exact absurd hf.2 (by decide)
            · intro hf
              exact absurd (by omega) hq
          · simp [Function.update_of_ne hqi, hq]
      · exact fun q hq => hq.elim
      · rintro q rfl
        exact .inr ⟨by omega, by simpa using hi⟩
      · exact fun q _ _ o _ => rfl

theorem pageIdx_page (p : Nat) : pageIdx (p * 4096) = p - 0x80000 := by
  simp only [pageIdx, pgRoundDown, PAGE_SIZE, MEM_START]
  omega

/-- **`kfree` gives a page back**, and clears it and no other. -/
theorem kfree_spec (hr : InRange L p) (hp : ¬s.free p) : wp (kfree (p * 4096)) (fun _ s' =>
    Frame s s' {p} ∅ ∧ Zeroed s'.bytes p ∧ ∀ q, q ≠ p → SamePage s.bytes s'.bytes q) s := by
  have hlt := hr.lt
  have hidx := pageIdx_page p
  have hb : s.bitmap (p - 0x80000) = false := by
    rw [Bool.eq_false_iff]
    exact fun h => hp ⟨by omega, h⟩
  unfold kfree
  rw [if_neg (by simp only [PAGE_SIZE]; omega), dif_neg (by simp only [MEM_END]; unfold InRange at hr; omega)]
  simp only [wp_bind, wp_memset, wp_get, hidx]
  rw [if_neg (by simpa [Mem.mapBytes] using hb)]
  simp only [wp_set]
  simp only [Mem.mapBytes]
  refine ⟨⟨?_, ?_, ?_, ?_⟩, ?_, ?_⟩
  · intro q
    simp only [Mem.free, Set.mem_singleton_iff, Set.mem_empty_iff_false, not_false_eq_true,
      and_true]
    by_cases hq : q = p
    · subst hq
      rw [Function.update_self]
      exact ⟨fun _ => .inr rfl, fun _ => ⟨by omega, rfl⟩⟩
    · by_cases hqi : q - 0x80000 = p - 0x80000
      · simp only [hqi, Function.update_self, hb]
        constructor
        · intro hf
          exact .inr (by omega)
        · rintro (hf | hf)
          · exact absurd hf.2 (by decide)
          · exact absurd hf hq
      · simp [Function.update_of_ne hqi, hq]
  · rintro q rfl
    exact hp
  · exact fun q hq => hq.elim
  · intro q _ hq o ho
    rw [Set.mem_singleton_iff] at hq
    dsimp only
    rw [Bytes.fill_apply, if_neg (by simp only [PAGE_SIZE]; omega)]
  · intro o ho
    rw [Bytes.fill_apply, if_pos (by simp only [PAGE_SIZE]; omega)]
  · intro q hq o ho
    rw [Bytes.fill_apply, if_neg (by simp only [PAGE_SIZE]; omega)]

end Wl00.Vm
