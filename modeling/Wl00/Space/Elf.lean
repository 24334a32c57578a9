import Mathlib.Order.Interval.Finset.Nat
import Wl00.Space.Load

/-!
# What `load_elf` guarantees

The results about `load_elf` for its callers, said of memory itself: of the entries
that stand in the tables and of the bytes behind them.

* `loadElf_exact` — a program that has been loaded is the one its image describes.
* `loadElf_undo` — a call of `load_elf`, successful or not, is undone by `uvmfree`.
-/

namespace Wl00.Vm

open Prog

variable {L : Layout} {s s₁ s₂ : Mem L} {img : Image} {pt : Nat} {r : Loaded}

/-- A new table holds a space with the kernel's mappings. -/
theorem initUserpt_run (h : initUserpt s = .ok (pt, s₁)) (hne : pt ≠ 0) : ∃ sp : Space,
    pt = sp.root * 4096 ∧ sp.pte = kernelPte L ∧ Holds L s₁.bytes sp ∧ Frame s s₁ ∅ sp.tables := by
  rcases (initUserpt_spec s).of_run h with ⟨h0, -⟩ | ⟨sp, hpt, -, hk, hh, hf⟩
  · exact absurd h0 hne
  · exact ⟨sp, hpt, hk, hh, hf⟩

theorem mem_imageDom {hs : List PrgHdr} {len v : Nat} (h : Ascends hs len) :
    v ∈ imageDom hs ↔ USER_BASE ≤ v * 4096 ∧ v * 4096 < pgRoundUp (imageEnd hs) := by
  rw [pgRoundUp_eq h.end_le]
  simp only [imageDom, Set.mem_Ico, USER_BASE]
  omega

theorem mem_imageDom_byte {hs : List PrgHdr} {len x : Nat} (h : Ascends hs len) :
    x / 4096 ∈ imageDom hs ↔ USER_BASE ≤ x ∧ x < pgRoundUp (imageEnd hs) := by
  rw [mem_imageDom h, pgRoundUp_eq h.end_le]
  simp only [USER_BASE]
  omega

/-- Below the end of the image the headers do not overlap, so the first that covers a
byte is the only one. -/
theorem imageByte_of_mem {hs : List PrgHdr} {len k : Nat} {ph : PrgHdr} (h : Ascends hs len)
    (hm : ph ∈ hs) (hk : k < ph.filesz) (m : Bytes) :
    imageByte m hs (ph.va + k) = m (ph.offset + k) := by
  have hfind : hs.find? (fun q => q.va ≤ ph.va + k ∧ ph.va + k < q.va + q.filesz) = some ph := by
    obtain ⟨l₁, l₂, rfl⟩ := List.append_of_mem hm
    rw [List.find?_append, List.find?_cons, List.find?_eq_none.2]
    · simp [hk]
    · intro q hq hc
      simp only [decide_eq_true_eq] at hc
      have hpw := (List.pairwise_append.1 h.asc).2.2 q hq ph (by simp)
      have hfits := h.fits q (List.mem_append_left _ hq)
      have hround := pgRoundUp_eq hfits.fin_le
      have hfs := hfits.filesz_le
      have hfin : q.fin = q.va + q.memsz := rfl
      omega
  rw [imageByte, hfind]
  simp

/-- **`load_elf` builds exactly the image that the ELF file describes.**  When it returns
0, for the segments of the image in table order: they are aligned and each lies above
the pages of the one before; `*sz` is the rounded end of the last; exactly the pages of
`[USER_BASE, *sz)` carry `PTE_U`, with the flags of the first segment that ends above
the page; their bytes are those of the file, or 0; and no other entry has changed. -/
theorem loadElf_exact (hpt : initUserpt s = .ok (pt, s₁)) (hne : pt ≠ 0)
    (hrun : loadElf pt img s₁ = .ok (r, s₂)) (hret : r.ret = 0) :
    (∀ ph ∈ segments img, ph.va % PAGE_SIZE = 0) ∧
    (segments img).Pairwise (fun ph ph' => pgRoundUp ph.fin ≤ ph'.va) ∧
    r.sz = pgRoundUp (imageEnd (segments img)) ∧ r.sz ≤ UART_0 ∧
    (∀ v < 2 ^ 20, leafEntry s₂.bytes pt v &&& PTE_U ≠ 0 ↔ USER_BASE ≤ v * 4096 ∧ v * 4096 < r.sz) ∧
    (∀ v, USER_BASE ≤ v * 4096 → v * 4096 < r.sz →
      pteFlags (leafEntry s₂.bytes pt v) = imageFlags (segments img) v) ∧
    (∀ ph ∈ segments img, ∀ k < ph.filesz,
      byteAt s₂.bytes pt (ph.va + k) = img.bytes (ph.offset + k)) ∧
    (∀ x, USER_BASE ≤ x → x < r.sz →
      (∀ ph ∈ segments img, ¬(ph.va ≤ x ∧ x < ph.va + ph.filesz)) →
      byteAt s₂.bytes pt x = 0) ∧
    r.entry = (readElfHdr img.bytes).entry ∧
    (∀ v < 2 ^ 20, ¬(USER_BASE ≤ v * 4096 ∧ v * 4096 < r.sz) →
      leafEntry s₂.bytes pt v = leafEntry s₁.bytes pt v) := by
  obtain ⟨sp, rfl, hk, h₁, hf₁⟩ := initUserpt_run hpt hne
  obtain ⟨sp₂, hs, hb, hsz, hres⟩ := (loadElf_spec img h₁ hk hf₁.held').of_run hrun
  obtain ⟨-, rfl, hentry⟩ := hres.resolve_left fun h => by
    rw [hret] at h
    exact absurd h.1 (by decide)
  have hasc := hb.ascends
  have hround := pgRoundUp_eq hasc.end_le
  have hend := hasc.end_le
  simp only [UART_0] at hend
  have hlt : ∀ v, v * 4096 < r.sz → v < 2 ^ 20 := by
    intro v hv
    omega
  rw [← hb.grows.root] at *
  have hleaf : ∀ v < 2 ^ 20, leafEntry s₂.bytes (sp₂.root * 4096) v = sp₂.pte v :=
    fun v hv => hb.holds.leafEntry hv
  have hbyte : ∀ x, USER_BASE ≤ x → x < r.sz →
      byteAt s₂.bytes (sp₂.root * 4096) x = imageByte img.bytes (segments img) x := by
    intro x h1 h2
    have hD := (mem_imageDom_byte hasc).2 ⟨h1, hsz ▸ h2⟩
    rw [hb.holds.byteAt_eq hb.shape.owns (by omega) hD, hb.bytes x hD]
  refine ⟨fun ph hm => (hasc.fits ph hm).aligned, hasc.asc, hsz, ?_, ?_, ?_, ?_, ?_, hentry, ?_⟩
  · simp only [UART_0]
    omega
  · intro v hv
    rw [hleaf v hv, hsz, ← mem_imageDom hasc, user_bit]
    exact ⟨hb.shape.mem_of_user, fun hD => (hb.shape.flags v hD).2⟩
  · intro v h1 h2
    have hD := (mem_imageDom hasc).2 ⟨h1, hsz ▸ h2⟩
    rw [hleaf v (hlt v h2), pteFlags_eq, hb.flags v hD]
  · intro ph hm k hkl
    have hfits := hasc.fits ph hm
    have hfin := hasc.fin_le ph hm
    have hbase := hfits.base_le
    have hfs := hfits.filesz_le
    have hfd : ph.fin = ph.va + ph.memsz := rfl
    rw [hbyte _ (by omega) (by omega), imageByte_of_mem hasc hm hkl]
  · intro x h1 h2 hnone
    rw [hbyte x h1 h2, imageByte, List.find?_eq_none.2 fun ph hm => by simpa using hnone ph hm]
    rfl
  · intro v hv hnot
    rw [hleaf v hv, hb.shape.kernel v fun hD => hnot (hsz ▸ (mem_imageDom hasc).1 hD),
      hb.grows.root, h₁.leafEntry hv, hk]

/-! ## A machine and a program to try it on -/

/-- A memory in which every page the allocator may hand out is free. -/
def Mem.fresh (L : Layout) : Mem L where
  bytes _ := 0
  bitmap i := decide (pageIdx L.startPage ≤ i ∧ i < NUM_PAGES)
  range i hi := by simpa using hi

theorem free_fresh {p : Nat} (h1 : 0x80003 ≤ p) (h2 : p < 0x88000) :
    (Mem.fresh tinyLayout).free p := by
  refine ⟨by omega, ?_⟩
  have hidx : pageIdx tinyLayout.startPage = 3 := rfl
  simp only [Mem.fresh, hidx, NUM_PAGES, MEM_END, MEM_START, PAGE_SIZE, decide_eq_true_eq]
  omega

/-- More than 20000 pages are free in it. -/
theorem not_few_fresh : ¬Few (Mem.fresh tinyLayout).free 20000 := by
  rintro ⟨F, hF, hmem⟩
  have hsub : Finset.Ico 0x80003 0x87000 ⊆ F := by
    intro p hp
    rw [Finset.mem_Ico] at hp
    exact hmem p (free_fresh hp.1 (by omega))
  have hcard := Finset.card_le_card hsub
  rw [Nat.card_Ico] at hcard
  omega

/-- An ELF file with one segment of four bytes, which is to be eight bytes long at
`0x1000`. -/
def tinyBytes : List UInt8 :=
  [0x7F, 0x45, 0x4C, 0x46, 1, 1, 1, 0, 0, 0, 0, 0, 0, 0, 0, 0,
    2, 0, 0xF3, 0, 1, 0, 0, 0, 0, 0x10, 0, 0, 52, 0, 0, 0,
    0, 0, 0, 0, 0, 0, 0, 0, 52, 0, 32, 0, 1, 0, 0, 0, 0, 0, 0, 0,
    1, 0, 0, 0, 84, 0, 0, 0, 0, 0x10, 0, 0, 0, 0x10, 0, 0,
    4, 0, 0, 0, 8, 0, 0, 0, 5, 0, 0, 0, 0, 0x10, 0, 0,
    0x13, 0x05, 0x10, 0x00]

def tinyImage : Image where
  bytes i := tinyBytes.getD i 0
  len := 88
  len_lt := by decide

theorem tinyImage_accepts : Accepts tinyImage where
  len := by decide
  elf := by decide
  off := by decide
  ok := by decide

/-- With enough memory `init_userpt` makes a table. -/
theorem initUserpt_fresh : ∃ pt s₁, initUserpt (Mem.fresh tinyLayout) = .ok (pt, s₁) ∧ pt ≠ 0 ∧
    ¬Few s₁.free 18000 := by
  obtain ⟨pt, s₁, hrun, hpost⟩ := wp_iff.1 (initUserpt_spec (Mem.fresh tinyLayout))
  rcases hpost with ⟨-, -, hfew⟩ | ⟨sp, -, hne, -, hh, hf⟩
  · exact absurd (hfew.mono (by omega)) not_few_fresh
  · obtain ⟨G, hG, hmem⟩ := hh.tables_card
    exact ⟨pt, s₁, hrun, hne, fun hfew =>
      not_few_fresh ((hfew.of_footprint hf hmem).mono (by omega))⟩

/-- An image that passes the checks is loaded if there is enough memory. -/
theorem loadElf_accepts (hpt : initUserpt s = .ok (pt, s₁)) (hne : pt ≠ 0) (ha : Accepts img)
    (hm : ∀ k < (readElfHdr img.bytes).phnum,
      ¬Few s₁.free (3076 + ((phdr img k).fin + 4095) / 4096)) :
    ∃ r s₂, loadElf pt img s₁ = .ok (r, s₂) ∧ r.ret = 0 := by
  obtain ⟨sp, rfl, hk, h₁, hf₁⟩ := initUserpt_run hpt hne
  obtain ⟨r, s₂, hrun, sp₂, hs, -, -, ⟨-, hwhy⟩ | ⟨hret, -⟩⟩ :=
    wp_iff.1 (loadElf_spec img h₁ hk hf₁.held')
  · rcases hwhy with hno | ⟨k, hk, hfew⟩
    · exact absurd ha hno
    · exact absurd hfew (hm k hk)
  · exact ⟨r, s₂, hrun, hret⟩

theorem tinyImage_loads : ∃ pt s₁ r s₂, initUserpt (Mem.fresh tinyLayout) = .ok (pt, s₁) ∧ pt ≠ 0 ∧
    ¬Few s₁.free 18000 ∧ loadElf pt tinyImage s₁ = .ok (r, s₂) ∧ r.ret = 0 := by
  obtain ⟨pt, s₁, hpt, hne, hfew⟩ := initUserpt_fresh
  obtain ⟨r, s₂, hrun, hret⟩ := loadElf_accepts hpt hne tinyImage_accepts fun k hk hf => by
    have hk0 : k = 0 := by
      have : (readElfHdr tinyImage.bytes).phnum = 1 := by decide
      omega
    subst hk0
    have hfin : (phdr tinyImage 0).fin = 0x1008 := by decide
    rw [hfin] at hf
    exact hfew (hf.mono (by omega))
  exact ⟨pt, s₁, r, s₂, hpt, hne, hfew, hrun, hret⟩

theorem loadElf_exact_tiny : ∃ (pt : Nat) (s₁ s₂ : Mem tinyLayout) (r : Loaded),
    loadElf pt tinyImage s₁ = .ok (r, s₂) ∧ r.ret = 0 ∧ r.sz = 0x2000 ∧
    pteFlags (leafEntry s₂.bytes pt 1) = PTE_V ||| PTE_R ||| PTE_U ||| PTE_X ∧
    byteAt s₂.bytes pt 0x1000 = 0x13 ∧ byteAt s₂.bytes pt 0x1004 = 0 := by
  obtain ⟨pt, s₁, r, s₂, hpt, hne, -, hrun, hret⟩ := tinyImage_loads
  obtain ⟨-, -, hsz, -, -, hflags, hbytes, hzero, -⟩ := loadElf_exact hpt hne hrun hret
  have hseg : segments tinyImage = [phdr tinyImage 0] := by rfl
  have hsz' : r.sz = 0x2000 := by rw [hsz, hseg]; decide
  refine ⟨pt, s₁, s₂, r, hrun, hret, hsz', ?_, ?_, ?_⟩
  · rw [hflags 1 (by decide) (by rw [hsz']; decide), hseg]
    decide
  · have := hbytes (phdr tinyImage 0) (by rw [hseg]; simp) 0 (by decide)
    exact this
  · refine hzero 0x1004 (by decide) (by rw [hsz']; decide) fun ph hm => ?_
    rw [hseg, List.mem_singleton] at hm
    subst hm
    decide

/-! ## Undoing -/

theorem imageDom_eq {hs : List PrgHdr} {len : Nat} (h : Ascends hs len) :
    imageDom hs = imagePages (pgRoundUp (imageEnd hs)) := by
  rw [imageDom, imagePages, pgRoundUp_eq h.end_le, Nat.mul_div_cancel _ (by decide)]

theorem Shape.rest {sp : Space} {D : Set Nat} {sz : Nat} (h : Shape L sp D) (hsz : sz ≤ UART_0) :
    ∀ v ∈ imagePages sz ∪ {stackPage}, v ∉ D → sp.pte v % 2 = 0 := by
  intro v hv hD
  have hlow : v < 0x10000 ∨ v = stackPage := by
    rcases hv with ⟨-, hlt⟩ | hv
    · simp only [UART_0] at hsz
      exact .inl (by omega)
    · exact .inr hv
  rw [h.kernel v hD, kernelPte_low hlow]

/-- **Whatever `load_elf` returns, `uvmfree` with its `*sz` undoes it.**  Neither panics,
and the free pages are those before `init_userpt`. -/
theorem loadElf_undo (img : Image) (hpt : initUserpt s = .ok (pt, s₁)) (hne : pt ≠ 0) :
    ∃ r s₂, loadElf pt img s₁ = .ok (r, s₂) ∧ (r.ret = 0 ∨ r.ret = -1) ∧
      r.sz % PAGE_SIZE = 0 ∧ USER_BASE ≤ r.sz ∧ r.sz ≤ UART_0 ∧
      ∃ s₃, uvmfree pt r.sz s₂ = .ok ((), s₃) ∧ ∀ p, s₃.free p ↔ s.free p := by
  obtain ⟨sp, rfl, hk, h₁, hf₁⟩ := initUserpt_run hpt hne
  obtain ⟨r, s₂, hrun, sp₂, hs, hb, hsz, hret⟩ := wp_iff.1 (loadElf_spec img h₁ hk hf₁.held')
  have hround := pgRoundUp_eq hb.ascends.end_le
  have hbase := hb.ascends.base_le
  have hend := hb.ascends.end_le
  simp only [USER_BASE, UART_0] at hbase hend
  have hsz₁ : r.sz % 4096 = 0 := by omega
  have hsz₂ : r.sz ≤ UART_0 := by
    simp only [UART_0]
    omega
  have hwithin : Within L sp₂ r.sz (imageDom hs) := by
    refine ⟨hb.shape.owns, ?_, hb.shape.rest hsz₂⟩
    rw [imageDom_eq hb.ascends, ← hsz]
    exact Set.subset_union_left
  obtain ⟨u, s₃, hfree, hf₃⟩ := wp_iff.1 (uvmfree_spec hb.holds hwithin hb.held hsz₁ hsz₂)
  refine ⟨r, s₂, hrun, ?_, hsz₁, ?_, hsz₂, s₃, by rw [← hb.grows.root]; exact hfree, fun p => ?_⟩
  · rcases hret with ⟨h, -⟩ | ⟨h, -⟩
    · exact .inr h
    · exact .inl h
  · simp only [USER_BASE]
    omega
  · have hall := hf₁.trans (hb.frame.trans hf₃)
    rw [hall.free_iff p]
    simp

theorem loadElf_undo_tiny : ∃ (pt : Nat) (s₁ : Mem tinyLayout),
    initUserpt (Mem.fresh tinyLayout) = .ok (pt, s₁) ∧ ∃ r s₂ s₃,
      loadElf pt tinyImage s₁ = .ok (r, s₂) ∧ uvmfree pt r.sz s₂ = .ok ((), s₃) ∧
      ∀ p, s₃.free p ↔ (Mem.fresh tinyLayout).free p := by
  obtain ⟨pt, s₁, hpt, hne, -⟩ := initUserpt_fresh
  obtain ⟨r, s₂, hrun, -, -, -, -, s₃, hfree, hiff⟩ := loadElf_undo tinyImage hpt hne
  exact ⟨pt, s₁, hpt, r, s₂, s₃, hrun, hfree, hiff⟩

end Wl00.Vm
