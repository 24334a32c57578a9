import Wl00.Space.User
import Wl00.Vm.Load

/-!
# Access to user memory

A user space maps the pages `D` for the user, each to a page of its own, and apart
from them what every table maps of the kernel; that is its `Shape`.  The functions
that read and write through a table only ever reach the pages behind `D`.

* `findUserPa_spec` — the translation of an address.
* `poke_frame` — a write stays in the pages behind `D`.
* `loadSegment_spec` — what the space holds after a segment has been copied into it.
-/

namespace Wl00.Vm

open Prog

variable {L : Layout} {s s' : Mem L} {sp : Space} {D : Set Nat}

/-! ## Shapes -/

/-- The user pages of `sp` are `D`; what it maps besides is the kernel. -/
structure Shape (L : Layout) (sp : Space) (D : Set Nat) : Prop where
  owns : Owns L sp D
  low : ∀ v ∈ D, (0 < v ∧ v < 0x10000) ∨ v = stackPage
  flags : ∀ v ∈ D, sp.pte v / 2 % 2 = 1 ∧ sp.pte v / 16 % 2 = 1
  kernel : ∀ v, v ∉ D → sp.pte v = kernelPte L v

theorem kernelPte_user (v : Nat) : kernelPte L v / 16 % 2 = 0 := by
  unfold kernelPte
  split_ifs <;> omega

/-- The kernel maps nothing where users do. -/
theorem kernelPte_low {v : Nat} (h : v < 0x10000 ∨ v = stackPage) : kernelPte L v = 0 := by
  obtain ⟨b, n, d, hb, hn, hd, hbd, ht, he⟩ := L.pages
  unfold kernelPte
  simp only [stackPage] at h
  rw [if_neg (by omega), if_neg (by omega)]

/-- An entry with `PTE_U` is one of `D`. -/
theorem Shape.mem_of_user (h : Shape L sp D) {v : Nat} (hu : sp.pte v / 16 % 2 = 1) : v ∈ D := by
  by_contra hv
  rw [h.kernel v hv, kernelPte_user] at hu
  omega

theorem Shape.lt (h : Shape L sp D) {v : Nat} (hv : v ∈ D) : v < 2 ^ 20 := by
  have := h.low v hv
  simp only [stackPage] at this
  omega

/-! ## Translation -/

theorem and_lt_32 {w m : Nat} (hm : m < 32) : w &&& m = w % 32 &&& m := by
  have h1 : w &&& m < 2 ^ 5 := Nat.lt_of_le_of_lt Nat.and_le_right hm
  calc w &&& m = (w &&& m) % 2 ^ 5 := (Nat.mod_eq_of_lt h1).symm
    _ = w % 2 ^ 5 &&& m % 2 ^ 5 := Nat.and_mod_two_pow
    _ = w % 32 &&& m := by rw [Nat.mod_eq_of_lt (show m < 2 ^ 5 from hm)]

theorem user_bit (w : Nat) : w &&& PTE_U ≠ 0 ↔ w / 16 % 2 = 1 := by
  have hbits : ∀ r < 32, (r &&& PTE_U ≠ 0 ↔ r / 16 = 1) := by decide
  rw [and_lt_32 (by decide), hbits (w % 32) (by omega)]
  omega

theorem pteFlags_eq (w : Nat) : pteFlags w = w % 1024 := Nat.and_two_pow_sub_one_eq_mod w 10

/-- Where a table translates `va`, for an access that needs the bits `need`. -/
def Space.userPa (sp : Space) (va need : Nat) : Nat :=
  if sp.pte (va / 4096) &&& (PTE_V ||| PTE_U ||| need) ≠ (PTE_V ||| PTE_U ||| need) then 0
  else pte2pa (sp.pte (va / 4096)) + va % 4096

theorem findUserPa_spec {va need : Nat} (h : Holds L s.bytes sp) (hva : va < 2 ^ 32) :
    wp (findUserPa (sp.root * 4096) va need) (fun pa s' => s' = s ∧ pa = sp.userPa va need) s := by
  rw [wp_findUserPa, physical, h.entryAt_eq hva, Space.userPa, ite_not]
  exact ⟨rfl, if_congr (by rw [Access, h.entryAt_eq hva]) rfl rfl⟩

/-- An address that is translated lies on a page of `D`. -/
theorem Shape.userPa_ne (h : Shape L sp D) {va need : Nat} (hn : sp.userPa va need ≠ 0) :
    va / 4096 ∈ D ∧ sp.userPa va need = sp.page (va / 4096) * 4096 + va % 4096 := by
  unfold Space.userPa at hn ⊢
  by_cases hm : sp.pte (va / 4096) &&& (PTE_V ||| PTE_U ||| need) ≠ (PTE_V ||| PTE_U ||| need)
  · rw [if_pos hm] at hn
    exact absurd rfl hn
  · rw [if_neg hm]
    rw [not_not] at hm
    have hbit : (sp.pte (va / 4096)).testBit 4 = true := by
      have hb := congrArg (·.testBit 4) hm
      simp only [Nat.testBit_and, Nat.testBit_or, show PTE_U.testBit 4 = true from rfl,
        Bool.or_true, Bool.true_or, Bool.and_true] at hb
      exact hb
    have hu : sp.pte (va / 4096) / 16 % 2 = 1 := by
      rw [Nat.testBit_eq_decide_div_mod_eq] at hbit
      simpa using hbit
    have hD := h.mem_of_user hu
    exact ⟨hD, by rw [h.owns.pte2pa hD]⟩

/-- Every page of `D` can be read. -/
theorem Shape.userPa_of_mem (h : Shape L sp D) {va need : Nat} (hD : va / 4096 ∈ D)
    (hneed : need = 0 ∨ need = PTE_R) :
    sp.userPa va need = sp.page (va / 4096) * 4096 + va % 4096 := by
  have hv := h.owns.valid _ hD
  obtain ⟨hr, hu⟩ := h.flags _ hD
  have hmask : sp.pte (va / 4096) &&& (PTE_V ||| PTE_U ||| need) = PTE_V ||| PTE_U ||| need := by
    have hlt : PTE_V ||| PTE_U ||| need < 32 := by rcases hneed with rfl | rfl <;> decide
    rw [and_lt_32 hlt]
    obtain ⟨r, hr32⟩ : ∃ r, r = sp.pte (va / 4096) % 32 := ⟨_, rfl⟩
    have h32 : r = 19 ∨ r = 23 ∨ r = 27 ∨ r = 31 := by omega
    rw [← hr32]
    rcases hneed with rfl | rfl <;> rcases h32 with rfl | rfl | rfl | rfl <;> rfl
  rw [Space.userPa, if_neg (not_not.2 hmask), h.owns.pte2pa hD]

/-! ## Tables as they stand in memory -/

/-- The byte that the space `sp` holds at the virtual address `x`. -/
def Space.byte (sp : Space) (m : Bytes) (x : Nat) : UInt8 :=
  m (sp.page (x / 4096) * 4096 + x % 4096)

/-- The entry for virtual page `v` -/
abbrev leafEntry (m : Bytes) (pt v : Nat) : Nat := entryAt m pt (v * PAGE_SIZE)

/-- The byte at the user address `va`. -/
def byteAt (m : Bytes) (pt va : Nat) : UInt8 := m (physical m pt va)

theorem Holds.leafEntry {m : Bytes} (h : Holds L m sp) {v : Nat} (hv : v < 2 ^ 20) :
    leafEntry m (sp.root * 4096) v = sp.pte v := by
  rw [Vm.leafEntry, h.entryAt_eq (by simp only [PAGE_SIZE]; omega), Nat.mul_div_cancel _ (by decide)]

theorem Holds.byteAt_eq {m : Bytes} (h : Holds L m sp) (ho : Owns L sp D) {va : Nat}
    (hva : va < 2 ^ 32) (hD : va / 4096 ∈ D) : byteAt m (sp.root * 4096) va = sp.byte m va := by
  rw [byteAt, physical, h.entryAt_eq hva, ho.pte2pa hD]
  rfl

/-! ## Writing -/

/-- A write to the page behind `v` is a write to that virtual page and to no other. -/
theorem Owns.byte_write {m : Bytes} (h : Owns L sp D) {va x : Nat} {l : List UInt8}
    (hv : va / 4096 ∈ D) (hl : va % 4096 + l.length ≤ 4096) (hx : x / 4096 ∈ D) :
    sp.byte (m.write (sp.page (va / 4096) * 4096 + va % 4096) l) x =
      if va ≤ x ∧ x < va + l.length then l.getD (x - va) 0 else sp.byte m x := by
  rw [Space.byte, Bytes.write_apply]
  by_cases he : x / 4096 = va / 4096
  · rw [he]
    by_cases hin : va ≤ x ∧ x < va + l.length
    · rw [if_pos (by omega), if_pos hin]
      congr 1
      omega
    · rw [if_neg (by omega), if_neg hin, Space.byte, he]
  · have hne : sp.page (x / 4096) ≠ sp.page (va / 4096) := fun hp => he (h.inj _ hx _ hv hp)
    rw [if_neg (by omega), if_neg (by omega), Space.byte]

/-- A write to the page behind `v`. -/
theorem frame_write (hh : Held s (sp.frames D)) {va : Nat} {l : List UInt8}
    (hv : va / 4096 ∈ D) (hl : va % 4096 + l.length ≤ 4096) :
    Frame s (s.mapBytes (·.write (sp.page (va / 4096) * 4096 + va % 4096) l))
      (sp.frames D) (sp.frames D) := by
  refine (frame_mapBytes (p := sp.page (va / 4096)) (hh _ ⟨_, hv, rfl⟩) fun x hx => ?_).widen_self hh
    (Set.singleton_subset_iff.2 ⟨_, hv, rfl⟩)
  rw [Bytes.write_apply, if_neg (by omega)]

/-- Work on the pages behind `D` leaves the tables alone. -/
theorem Holds.frame_user (h : Holds L s.bytes sp) (ho : Owns L sp D)
    (hh : Held s (sp.tables ∪ sp.frames D)) (hf : Frame s s' (sp.frames D) (sp.frames D)) :
    Holds L s'.bytes sp ∧ Held s' (sp.tables ∪ sp.frames D) := by
  have hd : ∀ p ∈ sp.tables, p ∉ sp.frames D := by
    rintro p hp ⟨v, hv, rfl⟩
    exact ho.apart v hv hp
  have hT : Held s sp.tables := fun p hp => hh p (.inl hp)
  refine ⟨h.frame hf hT hd, ?_⟩
  rintro p (hp | hp)
  · exact hf.held hT hd p hp
  · exact hf.held' p hp

theorem onPage_eq (pa len : Nat) : onPage pa len = min len (4096 - pa % 4096) := by
  rw [onPage]
  simp only [PAGE_SIZE]
  split_ifs <;> omega

theorem poke_frame {va need : Nat} {l : List UInt8} (hs : Shape L sp D)
    (hh : Held s (sp.frames D)) (hn : sp.userPa va need ≠ 0) (hl : l.length ≤ 1) :
    Frame s (s.mapBytes (·.write (sp.userPa va need) l)) (sp.frames D) (sp.frames D) := by
  obtain ⟨hD, hpa⟩ := hs.userPa_ne hn
  rw [hpa]
  exact frame_write hh hD (by omega)

/-- **`load_segment` copies the bytes of the image** to where all of them have a page,
and nothing else changes. -/
theorem loadSegment_spec {va off sz : Nat} {img : Image} (h : Holds L s.bytes sp)
    (hs : Shape L sp D) (hh : Held s (sp.tables ∪ sp.frames D)) (hva : va + sz < 2 ^ 32)
    (hD : ∀ x, va ≤ x → x < va + sz → x / 4096 ∈ D) :
    wp (loadSegment (sp.root * 4096) va img off sz) (fun r s' => r = 0 ∧
      Frame s s' (sp.frames D) (sp.frames D) ∧
      ∀ x, x / 4096 ∈ D → sp.byte s'.bytes x =
        if va ≤ x ∧ x < va + sz then img.bytes (off + (x - va)) else sp.byte s.bytes x) s := by
  unfold loadSegment
  -- after `j` bytes
  let I : Nat × Nat × Nat → Mem L → Prop := fun x s₁ => ∃ j, j ≤ sz ∧ x = (va + j, off + j, sz - j) ∧
    Frame s s₁ (sp.frames D) (sp.frames D) ∧
    ∀ y, y / 4096 ∈ D → sp.byte s₁.bytes y =
      if va ≤ y ∧ y < va + j then img.bytes (off + (y - va)) else sp.byte s.bytes y
  refine wp_loop I (fun x => x.2.2) ?_ ⟨0, by omega, rfl, .refl fun p hp => hh p (.inr hp), ?_⟩
    (by simp only [rounds]; omega)
  · rintro _ s₁ ⟨j, hj, rfl, hf, hb⟩
    obtain ⟨h₁, hh₁⟩ := h.frame_user hs.owns hh hf
    dsimp only
    by_cases hlen : sz - j > 0
    · have hmem := hD (va + j) (by omega) (by omega)
      have hpa : sp.userPa (va + j) 0 = _ := hs.userPa_of_mem hmem (.inl rfl)
      have hlt := hs.owns.lt hmem
      have hn := onPage_eq (sp.userPa (va + j) 0) (sz - j)
      rw [if_pos hlen, wp_bind, findPa]
      refine (findUserPa_spec h₁ (by omega)).mono fun pa s₂ hp => ?_
      obtain ⟨rfl, rfl⟩ := hp
      rw [if_neg (by omega), wp_bind, wp_memmoveFrom, wp_pure, hpa]
      rw [hpa] at hn
      obtain ⟨n, hnn⟩ : ∃ n, n = onPage (sp.page ((va + j) / 4096) * 4096 + (va + j) % 4096) (sz - j) :=
        ⟨_, rfl⟩
      rw [← hnn] at hn ⊢
      have hlen' : (img.bytes.read (off + j) n).length = n := Bytes.length_read ..
      have hfit : (va + j) % 4096 + (img.bytes.read (off + j) n).length ≤ 4096 := by omega
      refine ⟨⟨j + n, by omega, ?_, hf.trans (frame_write (fun p hp => hh₁ p (.inr hp)) hmem hfit),
        ?_⟩, by dsimp only; omega⟩
      · simp only [Prod.mk.injEq]
        omega
      · intro y hy
        rw [Mem.bytes_mapBytes, hs.owns.byte_write hmem hfit hy, hlen', hb y hy]
        by_cases hin : va + j ≤ y ∧ y < va + j + n
        · rw [if_pos hin, if_pos (by omega), Bytes.getD_read (by omega)]
          congr 1
          omega
        · rw [if_neg hin]
          by_cases hin' : va ≤ y ∧ y < va + j
          · rw [if_pos hin', if_pos (by omega)]
          · rw [if_neg hin', if_neg (by omega)]
    · obtain rfl : j = sz := by omega
      rw [if_neg hlen, wp_pure]
      exact ⟨rfl, hf, hb⟩
  · intro y _
    rw [if_neg (by omega)]

end Wl00.Vm
