import Wl00.Space.Access

/-!
# What `load_elf` builds

`load_elf` goes through the program headers of an image and maps the segments one
after another.  The headers it has loaded so far describe the space exactly: which
pages there are, with which flags, and what every byte is.

* `Shape.filled`, `Shape.undone` — a user space after `uvmalloc`.
* `Built` — the space that a list of headers describes.
* `loadPrg_spec`, `loadElf_spec` — one header, and all of them.
-/

namespace Wl00.Vm

open Prog

variable {L : Layout} {s s' : Mem L} {sp sp' : Space} {D : Set Nat} {a n : Nat}
  {f : Nat → Nat} {c : Nat → Nat → UInt8}

/-! ## A user space after `uvmalloc` -/

/-- More user pages. -/
theorem Shape.filled (hs : Shape L sp D) (hh : Held s (sp.tables ∪ sp.frames D))
    (hf : Filled s s' sp sp' a n f c)
    (hlow : ∀ v ∈ Set.Ico a (a + n), (0 < v ∧ v < 0x10000) ∨ v = stackPage)
    (hdis : ∀ v ∈ D, v ∉ Set.Ico a (a + n))
    (hRU : ∀ v ∈ Set.Ico a (a + n), (f v ||| 1) / 2 % 2 = 1 ∧ (f v ||| 1) / 16 % 2 = 1) :
    Shape L sp' (D ∪ Set.Ico a (a + n)) ∧
      Frame s s' (sp.tables ∪ sp.frames D) (sp'.tables ∪ sp'.frames (D ∪ Set.Ico a (a + n))) ∧
      ∀ v ∈ D, sp'.pte v = sp.pte v ∧ SamePage s.bytes s'.bytes (sp.page v) := by
  have hpte : ∀ v ∈ D, sp'.pte v = sp.pte v := fun v hv => hf.other v (hdis v hv)
  have hpage : ∀ v ∈ D, sp'.page v = sp.page v := fun v hv => by
    rw [Space.page, hpte v hv, Space.page]
  have hB : ∀ p ∈ sp.frames D, ¬s.free p ∧ p ∉ sp.tables := by
    rintro p ⟨v, hv, rfl⟩
    exact ⟨hh _ (.inr ⟨v, hv, rfl⟩), hs.owns.apart v hv⟩
  have hnew : ∀ v ∈ D, sp.page v ∉ sp'.tables ∪ sp'.frames (Set.Ico a (a + n)) := fun v hv =>
    hf.frame.not_mem (fun p hp => (hB p hp).1) (fun p hp => (hB p hp).2) _ ⟨v, hv, rfl⟩
  have hold : Owns L sp' D := hs.owns.congr hpte fun v hv hm => hnew v hv (.inl hm)
  refine ⟨⟨hold.union hf.owns fun v hv hm => ?_, ?_, ?_, ?_⟩, ?_, fun v hv => ⟨hpte v hv, ?_⟩⟩
  · rw [hpage v hv] at hm
    exact hnew v hv (.inr hm)
  · rintro v (hv | hv)
    · exact hs.low v hv
    · exact hlow v hv
  · rintro v (hv | hv)
    · rw [hpte v hv]
      exact hs.flags v hv
    · have := hf.flags v hv
      have := hRU v hv
      omega
  · intro v hv
    rw [hf.other v fun hm => hv (.inr hm)]
    exact hs.kernel v fun hm => hv (.inl hm)
  · have := hf.frame.frame hB
    rwa [Space.frames_union, Space.frames_congr hpte, Set.union_comm (sp.frames D),
      ← Set.union_assoc]
  · exact hf.frame.same _ (hB _ ⟨v, hv, rfl⟩).1 (hB _ ⟨v, hv, rfl⟩).2

/-- More tables. -/
theorem Shape.grows (hs : Shape L sp D) (hh : Held s (sp.tables ∪ sp.frames D))
    (hp : sp'.pte = sp.pte) (hf : Frame s s' sp.tables sp'.tables) :
    Shape L sp' D ∧ Frame s s' (sp.tables ∪ sp.frames D) (sp'.tables ∪ sp'.frames D) ∧
      ∀ v ∈ D, SamePage s.bytes s'.bytes (sp.page v) := by
  have hB : ∀ p ∈ sp.frames D, ¬s.free p ∧ p ∉ sp.tables := by
    rintro p ⟨v, hv, rfl⟩
    exact ⟨hh _ (.inr ⟨v, hv, rfl⟩), hs.owns.apart v hv⟩
  refine ⟨⟨?_, hs.low, ?_, ?_⟩, ?_, ?_⟩
  · refine hs.owns.congr (fun v _ => congrFun hp v) fun v hv => ?_
    exact hf.not_mem (fun p hp => (hB p hp).1) (fun p hp => (hB p hp).2) _ ⟨v, hv, rfl⟩
  · rw [hp]
    exact hs.flags
  · rw [hp]
    exact hs.kernel
  · rw [Space.frames_congr fun v _ => congrFun hp v]
    exact hf.frame hB
  · exact fun v hv => hf.same _ (hB _ ⟨v, hv, rfl⟩).1 (hB _ ⟨v, hv, rfl⟩).2

/-- An `uvmalloc` that has failed changes no entry of a user space. -/
theorem Shape.undone (hs : Shape L sp D) (hu : Undone s s' sp sp' a n)
    (hlow : ∀ v ∈ Set.Ico a (a + n), (0 < v ∧ v < 0x10000) ∨ v = stackPage)
    (hdis : ∀ v ∈ D, v ∉ Set.Ico a (a + n)) : sp'.pte = sp.pte := by
  funext v
  rcases hu.pte v with he | ⟨hv, he⟩
  · exact he
  · rw [he, hs.kernel v fun hD => hdis v hD hv]
    exact (kernelPte_low ((hlow v hv).imp_left And.right)).symm

/-! ## The image that headers describe -/

/-- A header that `load_elf` does not pass over. -/
def PrgHdr.Loads (ph : PrgHdr) : Prop := ph.type = PT_LOAD ∧ ph.memsz ≠ 0

instance (ph : PrgHdr) : Decidable ph.Loads := inferInstanceAs (Decidable (_ ∧ _))

/-- Where a segment ends. -/
def PrgHdr.fin (ph : PrgHdr) : Nat := ph.va + ph.memsz

/-- A segment as the checks of `load_elf` leave it. -/
structure PrgHdr.Fits (ph : PrgHdr) (len : Nat) : Prop where
  filesz_le : ph.filesz ≤ ph.memsz
  offset_le : ph.offset + ph.filesz ≤ len
  aligned : ph.va % 4096 = 0
  base_le : USER_BASE ≤ ph.va
  fin_le : ph.fin ≤ UART_0
  loads : ph.Loads

/-- Where the image ends that the headers `hs` describe. -/
def imageEnd (hs : List PrgHdr) : Nat := (hs.getLast?.map PrgHdr.fin).getD USER_BASE

/-- The byte at `x` in that image. -/
def imageByte (img : Bytes) (hs : List PrgHdr) (x : Nat) : UInt8 :=
  ((hs.find? fun ph => ph.va ≤ x ∧ x < ph.va + ph.filesz).map fun ph =>
    img (ph.offset + (x - ph.va))).getD 0

/-- The flags of page `v` in that image: those of the first header that ends above the
start of the page. -/
def imageFlags (hs : List PrgHdr) (v : Nat) : Nat :=
  ((hs.find? fun ph => v * 4096 < ph.fin).map fun ph =>
    PTE_R ||| PTE_U ||| ph.perm ||| PTE_V).getD 0

/-- The virtual pages of that image. -/
def imageDom (hs : List PrgHdr) : Set Nat := Set.Ico 1 ((imageEnd hs + 4095) / 4096)

/-- The headers of an image, in order, each above the one before. -/
structure Ascends (hs : List PrgHdr) (len : Nat) : Prop where
  fits : ∀ ph ∈ hs, ph.Fits len
  asc : hs.Pairwise fun ph ph' => pgRoundUp ph.fin ≤ ph'.va
  fin_le : ∀ ph ∈ hs, ph.fin ≤ imageEnd hs
  base_le : USER_BASE ≤ imageEnd hs
  end_le : imageEnd hs ≤ UART_0

theorem pgRoundUp_eq {x : Nat} (h : x ≤ UART_0) : pgRoundUp x = (x + 4095) / 4096 * 4096 := by
  simp only [UART_0] at h
  simp only [pgRoundUp, PAGE_SIZE]
  omega

theorem imageEnd_nil : imageEnd [] = USER_BASE := rfl

theorem imageEnd_concat (hs : List PrgHdr) (ph : PrgHdr) : imageEnd (hs ++ [ph]) = ph.fin := by
  simp [imageEnd]

theorem Ascends.nil (len : Nat) : Ascends [] len where
  fits _ h := by cases h
  asc := .nil
  fin_le _ h := by cases h
  base_le := Nat.le_refl _
  end_le := by decide

/-- One more header. -/
theorem Ascends.concat {hs : List PrgHdr} {ph : PrgHdr} {len : Nat} (h : Ascends hs len)
    (hf : ph.Fits len) (hle : imageEnd hs ≤ ph.va) : Ascends (hs ++ [ph]) len := by
  have hfin : ph.va ≤ ph.fin := Nat.le_add_right _ _
  have hend := h.end_le
  refine ⟨?_, ?_, ?_, ?_, ?_⟩
  · intro x hx
    rcases List.mem_append.1 hx with hx | hx
    · exact h.fits x hx
    · rw [List.mem_singleton.1 hx]
      exact hf
  · refine List.pairwise_append.2 ⟨h.asc, List.pairwise_singleton _ _, ?_⟩
    intro x hx y hy
    rw [List.mem_singleton.1 hy, pgRoundUp_eq ((h.fin_le x hx).trans hend)]
    have := h.fin_le x hx
    have := hf.aligned
    omega
  · intro x hx
    rw [imageEnd_concat]
    rcases List.mem_append.1 hx with hx | hx
    · exact (h.fin_le x hx).trans (hle.trans hfin)
    · rw [List.mem_singleton.1 hx]
  · rw [imageEnd_concat]
    exact hf.base_le.trans hfin
  · rw [imageEnd_concat]
    exact hf.fin_le

/-- No header so far reaches beyond the end. -/
theorem Ascends.find_none {hs : List PrgHdr} {len : Nat} (h : Ascends hs len) {p : PrgHdr → Bool}
    {x : Nat} (hx : imageEnd hs ≤ x) (hp : ∀ ph ∈ hs, p ph = true → x < ph.fin) :
    hs.find? p = none := by
  rw [List.find?_eq_none]
  intro ph hm hc
  have := hp ph hm hc
  have := h.fin_le ph hm
  omega

section Concat

variable {hs : List PrgHdr} {ph : PrgHdr} {len x v : Nat} {img : Bytes}

theorem imageByte_of_end_le (h : Ascends hs len) (hx : imageEnd hs ≤ x) :
    imageByte img hs x = 0 := by
  rw [imageByte, h.find_none hx]
  · rfl
  · intro q hq hc
    have := (h.fits q hq).filesz_le
    simp only [decide_eq_true_eq] at hc
    unfold PrgHdr.fin
    omega

theorem imageByte_concat (h : Ascends hs len) (hle : imageEnd hs ≤ ph.va) :
    imageByte img (hs ++ [ph]) x =
      if ph.va ≤ x ∧ x < ph.va + ph.filesz then img (ph.offset + (x - ph.va))
      else imageByte img hs x := by
  by_cases hx : ph.va ≤ x ∧ x < ph.va + ph.filesz
  · have hnone : hs.find? (fun ph => ph.va ≤ x ∧ x < ph.va + ph.filesz) = none := by
      refine h.find_none (hle.trans hx.1) fun q hq hc => ?_
      have := (h.fits q hq).filesz_le
      simp only [decide_eq_true_eq] at hc
      unfold PrgHdr.fin
      omega
    rw [if_pos hx, imageByte, List.find?_append, hnone, List.find?_singleton]
    simp [hx]
  · rw [if_neg hx, imageByte, imageByte, List.find?_append, List.find?_singleton]
    simp [hx]

theorem imageFlags_concat_old (hm : ∃ q ∈ hs, v * 4096 < q.fin) :
    imageFlags (hs ++ [ph]) v = imageFlags hs v := by
  obtain ⟨q, hq, hlt⟩ := hm
  have hsome : (hs.find? fun ph => v * 4096 < ph.fin).isSome = true := by
    rw [List.find?_isSome]
    exact ⟨q, hq, by simpa using hlt⟩
  obtain ⟨r, hr⟩ := Option.isSome_iff_exists.1 hsome
  rw [imageFlags, imageFlags, List.find?_append, hr]
  rfl

theorem imageFlags_concat_new (h : Ascends hs len) (hv : imageEnd hs ≤ v * 4096)
    (hlt : v * 4096 < ph.fin) :
    imageFlags (hs ++ [ph]) v = PTE_R ||| PTE_U ||| ph.perm ||| PTE_V := by
  have hnone : hs.find? (fun ph => v * 4096 < ph.fin) = none :=
    h.find_none hv fun q _ hc => by simpa using hc
  rw [imageFlags, List.find?_append, hnone, List.find?_singleton]
  simp [hlt]

/-- Every page of the image lies below the end of some header. -/
theorem exists_header (hv : v ∈ imageDom hs) : ∃ q ∈ hs, v * 4096 < q.fin := by
  obtain ⟨h1, h2⟩ := hv
  rcases List.eq_nil_or_concat hs with rfl | ⟨l, q, rfl⟩
  · rw [imageEnd_nil, USER_BASE] at h2
    omega
  · rw [List.concat_eq_append] at h2 ⊢
    rw [imageEnd_concat] at h2
    exact ⟨q, by simp, by omega⟩

end Concat

/-! ## Loading one segment -/

/-- The space `sp'` is `sp` with the image that the headers `hs` describe. -/
structure Built (img : Image) (s s' : Mem L) (sp sp' : Space) (hs : List PrgHdr) : Prop where
  grows : sp.Grows sp'
  holds : Holds L s'.bytes sp'
  shape : Shape L sp' (imageDom hs)
  frame : Frame s s' sp.tables (sp'.tables ∪ sp'.frames (imageDom hs))
  ascends : Ascends hs img.len
  flags : ∀ v ∈ imageDom hs, sp'.pte v % 1024 = imageFlags hs v
  bytes : ∀ x, x / 4096 ∈ imageDom hs → sp'.byte s'.bytes x = imageByte img.bytes hs x

/-- The checks of `load_elf` on a header whose fields are words. -/
theorem PrgHdr.Ok.fits {ph : PrgHdr} {len size : Nat} (h : ph.Ok len size) (hl : ph.Loads)
    (hb : USER_BASE ≤ size) (ho : ph.offset < 2 ^ 32) (hf : ph.filesz < 2 ^ 32)
    (hv : ph.va < 2 ^ 32) (hm : ph.memsz < 2 ^ 32) : ph.Fits len ∧ size ≤ ph.va := by
  obtain ⟨h1, h2, h3, h4, h5⟩ := h
  simp only [USER_BASE, UART_0, PAGE_SIZE] at *
  refine ⟨⟨by omega, by omega, by omega, ?_, ?_, hl⟩, by omega⟩
  · simp only [USER_BASE]
    omega
  · simp only [PrgHdr.fin, UART_0]
    omega

theorem PrgHdr.perm_cases (ph : PrgHdr) :
    ph.perm = 0 ∨ ph.perm = 4 ∨ ph.perm = 8 ∨ ph.perm = 12 := by
  unfold PrgHdr.perm
  split_ifs
  · exact .inr (.inr (.inr rfl))
  · exact .inr (.inr (.inl rfl))
  · exact .inr (.inl rfl)
  · exact .inl rfl

theorem perm_bits (ph : PrgHdr) : ph.perm < 1024 ∧
    (PTE_R ||| PTE_U ||| ph.perm ||| 1) / 2 % 2 = 1 ∧
    (PTE_R ||| PTE_U ||| ph.perm ||| 1) / 16 % 2 = 1 := by
  rcases ph.perm_cases with h | h | h | h <;> rw [h] <;> decide

theorem Space.byte_congr {m m' : Bytes} {x : Nat} (hp : sp'.pte (x / 4096) = sp.pte (x / 4096))
    (hs : SamePage m m' (sp.page (x / 4096))) : sp'.byte m' x = sp.byte m x := by
  rw [Space.byte, Space.byte, Space.page, hp]
  exact hs _ (Nat.mod_lt _ (by decide))

section Step

variable {img : Image} {hs : List PrgHdr} {ph : PrgHdr} {s₁ : Mem L} {sp₁ : Space}

theorem Built.held (h : Built img s s₁ sp sp₁ hs) :
    Held s₁ (sp₁.tables ∪ sp₁.frames (imageDom hs)) := h.frame.held'

/-- A pool that is small while an image is being loaded was small before. -/
theorem Built.few {j : Nat} (h : Built img s s₁ sp sp₁ hs) (hj : Few s₁.free j) :
    Few s.free (j + 1024 + (imageEnd hs + 4095) / 4096) := by
  have hbase := h.ascends.base_le
  simp only [USER_BASE] at hbase
  obtain ⟨G, hG, hmem⟩ := h.holds.pages_card 1 ((imageEnd hs + 4095) / 4096 - 1)
  rw [show 1 + ((imageEnd hs + 4095) / 4096 - 1) = (imageEnd hs + 4095) / 4096 by omega] at hmem
  exact (hj.of_footprint h.frame hmem).mono (by omega)

/-- Where the pages of the next segment lie. -/
theorem imageDom_concat (h : Ascends hs img.len) (hle : imageEnd hs ≤ ph.va) {a n : Nat}
    (ha : a = (imageEnd hs + 4095) / 4096) (hn : a + n = (ph.fin + 4095) / 4096) :
    imageDom hs ∪ Set.Ico a (a + n) = imageDom (hs ++ [ph]) := by
  have hb := h.base_le
  simp only [USER_BASE] at hb
  have hfin : ph.va ≤ ph.fin := Nat.le_add_right _ _
  ext v
  simp only [imageDom, imageEnd_concat, Set.mem_union, Set.mem_Ico]
  omega

/-- A segment for which there is no memory. -/
theorem Built.undone {s₂ : Mem L} {sp₂ : Space} {a n : Nat} (h : Built img s s₁ sp sp₁ hs)
    (hu : Undone s₁ s₂ sp₁ sp₂ a n)
    (hlow : ∀ v ∈ Set.Ico a (a + n), (0 < v ∧ v < 0x10000) ∨ v = stackPage)
    (hdis : ∀ v ∈ imageDom hs, v ∉ Set.Ico a (a + n)) : Built img s s₂ sp sp₂ hs := by
  have hpte := h.shape.undone hu hlow hdis
  obtain ⟨hsh, hfr, hsame⟩ := h.shape.grows h.held hpte hu.frame
  refine ⟨h.grows.trans hu.grows, hu.holds, hsh, h.frame.trans hfr, h.ascends, ?_, ?_⟩
  · intro v hv
    rw [hpte]
    exact h.flags v hv
  · intro x hx
    rw [Space.byte_congr (congrFun hpte _) (hsame _ hx)]
    exact h.bytes x hx

/-- A segment that has got its pages and its bytes. -/
theorem Built.concat {s₂ s₃ : Mem L} {sp₂ : Space} {a n : Nat} (h : Built img s s₁ sp sp₁ hs)
    (hf : ph.Fits img.len) (hle : imageEnd hs ≤ ph.va)
    (ha : a = (imageEnd hs + 4095) / 4096) (hn : a + n = (ph.fin + 4095) / 4096)
    (hfill : Filled s₁ s₂ sp₁ sp₂ a n (fun _ => PTE_R ||| PTE_U ||| ph.perm) fun _ _ => 0)
    (hsh : Shape L sp₂ (imageDom (hs ++ [ph])))
    (hfr : Frame s₁ s₂ (sp₁.tables ∪ sp₁.frames (imageDom hs))
      (sp₂.tables ∪ sp₂.frames (imageDom (hs ++ [ph]))))
    (hold : ∀ v ∈ imageDom hs, sp₂.pte v = sp₁.pte v ∧ SamePage s₁.bytes s₂.bytes (sp₁.page v))
    (h₃ : Holds L s₃.bytes sp₂)
    (hfr₃ : Frame s₂ s₃ (sp₂.frames (imageDom (hs ++ [ph]))) (sp₂.frames (imageDom (hs ++ [ph]))))
    (hb : ∀ x, x / 4096 ∈ imageDom (hs ++ [ph]) → sp₂.byte s₃.bytes x =
      if ph.va ≤ x ∧ x < ph.va + ph.filesz then img.bytes (ph.offset + (x - ph.va))
      else sp₂.byte s₂.bytes x) : Built img s s₃ sp sp₂ (hs ++ [ph]) := by
  have hfin : ph.va ≤ ph.fin := Nat.le_add_right _ _
  have hdom := imageDom_concat h.ascends hle ha hn
  have hwide : Frame s₂ s₃ (sp₂.tables ∪ sp₂.frames (imageDom (hs ++ [ph])))
      (sp₂.tables ∪ sp₂.frames (imageDom (hs ++ [ph]))) :=
    hfr₃.widen_self hfr.held' Set.subset_union_right
  refine ⟨h.grows.trans hfill.grows, h₃, hsh, h.frame.trans (hfr.trans hwide),
    h.ascends.concat hf hle, ?_, ?_⟩
  · intro v hv
    rw [← hdom] at hv
    rcases hv with hv | hv
    · rw [(hold v hv).1, h.flags v hv, imageFlags_concat_old (exists_header hv)]
    · have h1 := hv.1
      have h2 := hv.2
      rw [hfill.flags v hv, imageFlags_concat_new h.ascends (by omega) (by omega)]
  · intro x hx
    rw [hb x hx, imageByte_concat h.ascends hle]
    by_cases hin : ph.va ≤ x ∧ x < ph.va + ph.filesz
    · rw [if_pos hin, if_pos hin]
    · rw [if_neg hin, if_neg hin]
      rw [← hdom] at hx
      rcases hx with hx | hx
      · rw [Space.byte_congr (hold _ hx).1 (hold _ hx).2]
        exact h.bytes x hx
      · have h1 := hx.1
        rw [imageByte_of_end_le h.ascends (by omega), Space.byte]
        exact hfill.bytes _ hx _ (Nat.mod_lt _ (by decide))

/-- **One header.**  It is loaded, or the space is as it was. -/
theorem loadPrg_spec (h : Built img s s₁ sp sp₁ hs) (hl : ph.Loads) (ho : ph.offset < 2 ^ 32)
    (hfs : ph.filesz < 2 ^ 32) (hv : ph.va < 2 ^ 32) (hm : ph.memsz < 2 ^ 32) :
    wp (loadPrg (sp.root * 4096) img ph (imageEnd hs) (pgRoundUp (imageEnd hs))) (fun r s₂ =>
      ∃ sp₂, (r = (some ph.fin, pgRoundUp ph.fin) ∧ Built img s s₂ sp sp₂ (hs ++ [ph])) ∨
        (r = (none, pgRoundUp (imageEnd hs)) ∧ Built img s s₂ sp sp₂ hs ∧
          (¬ph.Ok img.len (imageEnd hs) ∨ Few s.free (3076 + (ph.fin + 4095) / 4096)))) s₁ := by
  unfold loadPrg
  by_cases hok : ph.Ok img.len (imageEnd hs)
  · obtain ⟨hf, hle⟩ := hok.fits hl h.ascends.base_le ho hfs hv hm
    have hbase := h.ascends.base_le
    have hend := h.ascends.end_le
    have hfl := hf.fin_le
    have hal := hf.aligned
    have hms := hl.2
    have hfm := hf.filesz_le
    have hfd : ph.fin = ph.va + ph.memsz := rfl
    simp only [UART_0, USER_BASE] at hbase hend hfl
    obtain ⟨a, ha⟩ : ∃ a, a = (imageEnd hs + 4095) / 4096 := ⟨_, rfl⟩
    obtain ⟨n, hn⟩ : ∃ n, a + n = (ph.fin + 4095) / 4096 :=
      ⟨(ph.fin + 4095) / 4096 - a, by omega⟩
    have hlow : ∀ v ∈ Set.Ico a (a + n), (0 < v ∧ v < 0x10000) ∨ v = stackPage := by
      rintro v ⟨h1, h2⟩
      exact .inl (by omega)
    have hdis : ∀ v ∈ imageDom hs, v ∉ Set.Ico a (a + n) := by
      rintro v ⟨h1, h2⟩ ⟨h3, h4⟩
      omega
    have hpre : ∀ v ∈ Set.Ico a (a + n), sp₁.pte v % 2 = 0 := by
      intro v hv
      rw [h.shape.kernel v fun hD => hdis v hD hv, kernelPte_low ((hlow v hv).imp_left And.right)]
    have hround : pgRoundUp (imageEnd hs) = a * 4096 := by rw [pgRoundUp_eq h.ascends.end_le, ha]
    have hnew : ∀ k, (a + k) * 4096 < (ph.va + ph.memsz) % 2 ^ 32 ↔ k < n := by
      intro k
      omega
    have hT : Held s₁ sp₁.tables := fun p hp => h.held p (.inl hp)
    rw [if_neg (not_not.2 hok), wp_bind, ← h.grows.root]
    refine wp.mono (uvmalloc_spec h.holds hT (by omega) hround (by omega) hnew
      (perm_bits ph).1 hpre) fun r s₂ hr => ?_
    rcases hr with ⟨rfl, sp₂, hfill⟩ | ⟨rfl, hfew, sp₂, hu⟩
    · obtain ⟨hsh, hfr, hold⟩ := h.shape.filled h.held hfill hlow hdis
        fun _ _ => (perm_bits ph).2
      rw [imageDom_concat h.ascends hle ha hn] at hsh hfr
      rw [if_neg (by omega), wp_bind, ← hfill.grows.root]
      have hcover : ∀ x, ph.va ≤ x → x < ph.va + ph.filesz → x / 4096 ∈ imageDom (hs ++ [ph]) := by
        intro x h1 h2
        rw [imageDom, imageEnd_concat]
        exact ⟨by omega, by omega⟩
      refine wp.mono (loadSegment_spec hfill.holds hsh hfr.held' (by omega) hcover)
        fun r s₃ hseg => ?_
      obtain ⟨rfl, hfr₃, hb⟩ := hseg
      rw [if_neg (by decide), wp_pure]
      refine ⟨sp₂, .inl ⟨?_, h.concat hf hle ha hn hfill hsh hfr hold
        (hfill.holds.frame_user hsh.owns hfr.held' hfr₃).1 hfr₃ hb⟩⟩
      rw [show (ph.va + ph.memsz) % 2 ^ 32 = ph.fin by omega]
    · rw [if_pos rfl, wp_pure]
      exact ⟨sp₂, .inr ⟨rfl, h.undone hu hlow hdis, .inr ((h.few hfew).mono (by omega))⟩⟩
  · rw [if_pos hok, wp_pure]
    exact ⟨sp₁, .inr ⟨rfl, h, .inl hok⟩⟩

end Step

/-! ## Loading an image -/

/-- Where program header `i` stands in the image. -/
def phdrOff (img : Image) (i : Nat) : Nat :=
  ((readElfHdr img.bytes).phoff + i * sizeofPrgHdr) % 2 ^ 32

/-- Program header `i`. -/
def phdr (img : Image) (i : Nat) : PrgHdr := readPrgHdr img.bytes (phdrOff img i)

/-- The headers of the segments among the first `k` program headers, in table order. -/
def segmentsUpTo (img : Image) (k : Nat) : List PrgHdr :=
  ((List.range k).map (phdr img)).filter fun ph => ph.Loads

/-- The headers of the segments of an image. -/
def segments (img : Image) : List PrgHdr := segmentsUpTo img (readElfHdr img.bytes).phnum

/-- An image that passes all the checks of `load_elf`. -/
structure Accepts (img : Image) : Prop where
  len : ¬img.len < sizeofElfHdr
  elf : (readElfHdr img.bytes).Ok
  off : ∀ k < (readElfHdr img.bytes).phnum, ¬(phdrOff img k < (readElfHdr img.bytes).phoff ∨
    (phdrOff img k + sizeofPrgHdr) % 2 ^ 32 > img.len)
  ok : ∀ k < (readElfHdr img.bytes).phnum, (phdr img k).Loads →
    (phdr img k).Ok img.len (imageEnd (segmentsUpTo img k))

theorem segmentsUpTo_succ (img : Image) (k : Nat) : segmentsUpTo img (k + 1) =
    if (phdr img k).Loads then segmentsUpTo img k ++ [phdr img k] else segmentsUpTo img k := by
  unfold segmentsUpTo
  rw [List.range_succ, List.map_append, List.filter_append, List.map_singleton]
  by_cases hl : (phdr img k).Loads
  · rw [if_pos hl]
    simp [hl]
  · rw [if_neg hl]
    simp [hl]

/-- A table with the kernel's mappings only has the shape of a user space without pages. -/
theorem Shape.kernel_only (hk : sp.pte = kernelPte L) : Shape L sp ∅ where
  owns := .empty sp
  low _ h := h.elim
  flags _ h := h.elim
  kernel v _ := by rw [hk]

theorem imageDom_nil : imageDom [] = ∅ := Set.Ico_self 1

theorem Built.nil {img : Image} (h : Holds L s.bytes sp) (hk : sp.pte = kernelPte L)
    (hh : Held s sp.tables) : Built img s s sp sp [] where
  grows := .refl sp
  holds := h
  shape := by
    rw [imageDom_nil]
    exact .kernel_only hk
  frame := by
    rw [imageDom_nil, sp.frames_empty, Set.union_empty]
    exact .refl hh
  ascends := .nil _
  flags v hv := by
    rw [imageDom_nil] at hv
    exact hv.elim
  bytes x hx := by
    rw [imageDom_nil] at hx
    exact hx.elim

/-- **`load_elf` builds what the headers describe.**  Whatever the image is and wherever
memory runs out, it comes to an end without a panic and leaves the space that the
headers loaded so far describe, with its size in `*sz`; when it returns 0, those are all
the segments there are. -/
theorem loadElf_spec (img : Image) (h : Holds L s.bytes sp) (hk : sp.pte = kernelPte L)
    (hh : Held s sp.tables) :
    wp (loadElf (sp.root * 4096) img) (fun r s' => ∃ sp' hs, Built img s s' sp sp' hs ∧
      r.sz = pgRoundUp (imageEnd hs) ∧
      ((r.ret = -1 ∧ (¬Accepts img ∨ ∃ k < (readElfHdr img.bytes).phnum,
          Few s.free (3076 + ((phdr img k).fin + 4095) / 4096))) ∨
        (r.ret = 0 ∧ hs = segments img ∧ r.entry = (readElfHdr img.bytes).entry))) s := by
  have h₀ : Built img s s sp sp [] := .nil h hk hh
  have hbase : pgRoundUp (imageEnd []) = USER_BASE := rfl
  unfold loadElf
  by_cases hlen : img.len < sizeofElfHdr
  · rw [if_pos hlen, wp_pure]
    exact ⟨sp, [], h₀, hbase.symm, .inl ⟨rfl, .inl fun ha => ha.len hlen⟩⟩
  rw [if_neg hlen]
  by_cases hok : (readElfHdr img.bytes).Ok
  · rw [if_neg (not_not.2 hok)]
    unfold loadLoop
    let I : Nat × Nat × Nat → Mem L → Prop := fun x s₁ => ∃ sp₁ k,
      k ≤ (readElfHdr img.bytes).phnum ∧ Built img s s₁ sp sp₁ (segmentsUpTo img k) ∧
      x = (k, imageEnd (segmentsUpTo img k), pgRoundUp (imageEnd (segmentsUpTo img k)))
    have hnum : (readElfHdr img.bytes).phnum < 65536 := half_lt _ _
    refine wp_loop I (fun x => (readElfHdr img.bytes).phnum - x.1) ?_
      ⟨sp, 0, by omega, h₀, by rw [← hbase]; rfl⟩ (by simp only [rounds]; omega)
    rintro _ s₁ ⟨sp₁, k, hkn, hb, rfl⟩
    unfold loadRound
    dsimp only
    by_cases hlt : k < (readElfHdr img.bytes).phnum
    · have hsucc := segmentsUpTo_succ img k
      rw [if_pos hlt, ← phdrOff, ← phdr]
      by_cases hin : phdrOff img k < (readElfHdr img.bytes).phoff ∨
          (phdrOff img k + sizeofPrgHdr) % 2 ^ 32 > img.len
      · rw [if_pos hin, wp_pure]
        exact ⟨sp₁, _, hb, rfl, .inl ⟨rfl, .inl fun ha => ha.off k hlt hin⟩⟩
      rw [if_neg hin]
      by_cases hl : (phdr img k).Loads
      · rw [if_pos hl] at hsucc
        rw [if_neg (by rw [not_or, not_not]; exact hl), wp_bind]
        refine (loadPrg_spec hb hl (Bytes.word_lt _ _) (Bytes.word_lt _ _) (Bytes.word_lt _ _)
          (Bytes.word_lt _ _)).mono fun r s₂ hr => ?_
        obtain ⟨sp₂, ⟨rfl, hb₂⟩ | ⟨rfl, hb₂, hwhy⟩⟩ := hr
        · rw [wp_pure]
          refine ⟨⟨sp₂, k + 1, hlt, by rwa [hsucc], ?_⟩, by dsimp only; omega⟩
          rw [hsucc, imageEnd_concat]
        · rw [wp_pure]
          exact ⟨sp₂, _, hb₂, rfl, .inl ⟨rfl, hwhy.imp (fun hno ha => hno (ha.ok k hlt hl))
            fun hfew => ⟨k, hlt, hfew⟩⟩⟩
      · rw [if_neg hl] at hsucc
        rw [if_pos (by
          by_contra hc
          exact hl ⟨not_not.1 (not_or.1 hc).1, (not_or.1 hc).2⟩), wp_pure]
        exact ⟨⟨sp₁, k + 1, hlt, by rwa [hsucc], by rw [hsucc]⟩, by dsimp only; omega⟩
    · rw [if_neg hlt, wp_pure]
      obtain rfl : k = (readElfHdr img.bytes).phnum := by omega
      exact ⟨sp₁, _, hb, rfl, .inr ⟨rfl, rfl, rfl⟩⟩
  · rw [if_pos hok, wp_pure]
    exact ⟨sp, [], h₀, hbase.symm, .inl ⟨rfl, .inl fun ha => hok ha.elf⟩⟩

end Wl00.Vm
