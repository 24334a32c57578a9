import Wl00.Space.Lookup

/-!
# `copyin`, `copyout` and `copyinstr` byte by byte

The three functions go page by page; what they are for is said byte by byte.  `physical` is
the translation of one address and `Access` says that its page is valid, the user's, and has
the permission that is needed.  Nothing is assumed of the table but where its user pages lie:
`InPool` for reading, and `Scattered` for writing.

* `Reach` — the length of the longest prefix of a range that can be accessed.
* `copy_bytes` — `copyout` and `copyin` transfer exactly the bytes of that prefix.
* `copyinstr_bytes` — `copyinstr` finds the first NUL, and looks at no page after it.
* `copyout_spec` — what follows for the table of a process.
-/

namespace Wl00.Vm

open Prog

variable {L : Layout} {s s' : Mem L} {pt va u need : Nat}

/-! ## Translation -/

/-- The page of `va` is a user page. -/
abbrev User (m : Bytes) (pt va : Nat) : Prop := Access m pt 0 va

/-- The user pages lie in `[start_page, MEM_END)`. -/
def InPool (L : Layout) (m : Bytes) (pt : Nat) : Prop :=
  ∀ va < 2 ^ 32, User m pt va →
    L.startPage ≤ pte2pa (entryAt m pt va) ∧ pte2pa (entryAt m pt va) < MEM_END

/-- The user pages lie in `[start_page, MEM_END)`, are distinct, and are disjoint from the
pages of the table. -/
structure Scattered (L : Layout) (m : Bytes) (pt : Nat) : Prop where
  pool : InPool L m pt
  distinct : ∀ va < 2 ^ 32, ∀ u < 2 ^ 32, User m pt va → User m pt u →
    pte2pa (entryAt m pt va) = pte2pa (entryAt m pt u) → va / PAGE_SIZE = u / PAGE_SIZE
  root : ∀ va < 2 ^ 32, User m pt va → pte2pa (entryAt m pt va) + PAGE_SIZE ≤ pt ∨
    pt + PAGE_SIZE ≤ pte2pa (entryAt m pt va)
  table : ∀ va < 2 ^ 32, User m pt va → ∀ i < 1024, rootEntry m pt i % 2 = 1 →
    pte2pa (entryAt m pt va) ≠ pte2pa (rootEntry m pt i)

theorem and_of_and_or {w a b : Nat} (h : w &&& (a ||| b) = a ||| b) : w &&& a = a := by
  have hab : (a ||| b) &&& a = a := by
    apply Nat.eq_of_testBit_eq
    intro i
    simp only [Nat.testBit_and, Nat.testBit_or]
    cases a.testBit i <;> simp
  calc w &&& a = w &&& ((a ||| b) &&& a) := by rw [hab]
    _ = (w &&& (a ||| b)) &&& a := (Nat.and_assoc ..).symm
    _ = a := by rw [h, hab]

theorem Access.user {m : Bytes} (h : Access m pt need va) : User m pt va := by
  have := and_of_and_or h
  rwa [User, Access, Nat.or_zero]

theorem Access.ne_zero {m : Bytes} (hp : InPool L m pt) (hva : va < 2 ^ 32)
    (h : Access m pt need va) : physical m pt va ≠ 0 := by
  have h1 := (hp va hva h.user).1
  have h2 := L.startPage_eq
  unfold physical
  omega

theorem physical_mod (m : Bytes) (pt va : Nat) : physical m pt va % 4096 = va % 4096 := by
  rw [physical, pte2pa_eq, PAGE_SIZE]
  omega

/-- Byte `j + d` of a range lies `d` bytes after byte `j`, on the same page. -/
theorem physical_add {m : Bytes} {j d : Nat} (hd : (va + j) % 2 ^ 32 % 4096 + d < 4096) :
    physical m pt ((va + (j + d)) % 2 ^ 32) = physical m pt ((va + j) % 2 ^ 32) + d ∧
      ∀ need, Access m pt need ((va + (j + d)) % 2 ^ 32) ↔
        Access m pt need ((va + j) % 2 ^ 32) := by
  have he : entryAt m pt ((va + (j + d)) % 2 ^ 32) = entryAt m pt ((va + j) % 2 ^ 32) :=
    entryAt_page (Nat.mod_lt _ (by decide)) (Nat.mod_lt _ (by decide)) (by omega)
  refine ⟨?_, fun need => by rw [Access, Access, he]⟩
  rw [physical, physical, he, PAGE_SIZE]
  omega

/-- The `k` bytes at the user addresses from `va` on. -/
def bytesAt (m : Bytes) (pt va k : Nat) : List UInt8 :=
  (List.range k).map fun i => byteAt m pt ((va + i) % 2 ^ 32)

@[simp] theorem length_bytesAt (m : Bytes) (pt va k : Nat) : (bytesAt m pt va k).length = k := by
  simp [bytesAt]

/-- `k` is the length of the longest prefix of the `len` bytes from `va` on, modulo `2 ^ 32`,
all of whose pages can be accessed. -/
structure Reach (m : Bytes) (pt need va len k : Nat) : Prop where
  le : k ≤ len
  access : ∀ i < k, Access m pt need ((va + i) % 2 ^ 32)
  stop : k < len → ¬Access m pt need ((va + k) % 2 ^ 32)

theorem Reach.eq_iff {m : Bytes} {len k : Nat} (h : Reach m pt need va len k) :
    k = len ↔ ∀ i < len, Access m pt need ((va + i) % 2 ^ 32) := by
  constructor
  · rintro rfl
    exact h.access
  · intro hall
    by_contra hne
    have hlt : k < len := lt_of_le_of_ne h.le hne
    exact h.stop hlt (hall k hlt)

/-! ## The tables that the kernel builds -/

section Shape

variable {sp : Space} {D : Set Nat}

theorem Shape.mem_of_access (hs : Shape L sp D) (h : Holds L s.bytes sp) (hva : va < 2 ^ 32)
    (ha : Access s.bytes (sp.root * 4096) need va) : va / 4096 ∈ D := by
  refine hs.mem_of_user ?_
  rw [← user_bit, ← h.entryAt_eq hva]
  have hu := ha.user
  rw [User, Access, Nat.or_zero, Nat.or_comm] at hu
  rw [and_of_and_or hu]
  decide

/-- In a user space the user pages are scattered. -/
theorem Holds.scattered (h : Holds L s.bytes sp) (hs : Shape L sp D) :
    Scattered L s.bytes (sp.root * 4096) := by
  have hpa : ∀ va < 2 ^ 32, User s.bytes (sp.root * 4096) va →
      va / 4096 ∈ D ∧ pte2pa (entryAt s.bytes (sp.root * 4096) va) = sp.page (va / 4096) * 4096 := by
    intro va hva hu
    have hD := hs.mem_of_access h hva hu
    rw [h.entryAt_eq hva]
    exact ⟨hD, hs.owns.pte2pa hD⟩
  refine ⟨fun va hva hu => ?_, fun va hva u hu ha hb he => ?_, fun va hva hu => ?_,
    fun va hva hu i hi hv => ?_⟩
  · obtain ⟨hD, he⟩ := hpa va hva hu
    have hr := hs.owns.range _ hD
    rw [he]
    unfold InRange at hr
    simp only [MEM_END]
    omega
  · obtain ⟨hD, he₁⟩ := hpa va hva ha
    obtain ⟨hD', he₂⟩ := hpa u hu hb
    rw [he₁, he₂] at he
    exact hs.owns.inj _ hD _ hD' (Nat.eq_of_mul_eq_mul_right (by decide) he)
  · obtain ⟨hD, he⟩ := hpa va hva hu
    have hne : sp.page (va / 4096) ≠ sp.root := fun hr =>
      hs.owns.apart _ hD (hr ▸ sp.root_mem)
    rw [he, PAGE_SIZE]
    omega
  · obtain ⟨hD, he⟩ := hpa va hva hu
    obtain ⟨t, ht, he'⟩ := h.rootEntry_valid hi hv
    have hne : sp.page (va / 4096) ≠ t := fun hr => hs.owns.apart _ hD (hr ▸ Space.tbl_mem ht)
    rw [he, he']
    omega

end Shape

/-- The small program, loaded into a table of its own on the small machine: one page that
can be read and not written, and much memory left. -/
theorem tiny_loaded : ∃ (sp : Space) (s : Mem tinyLayout) (D : Set Nat),
    Holds tinyLayout s.bytes sp ∧ Shape tinyLayout sp D ∧ Held s (sp.tables ∪ sp.frames D) ∧
    ¬Few s.free 10000 ∧ 1 ∈ D ∧ sp.pte 1 % 32 = 27 ∧ ∀ va, va / 4096 = 1 →
      sp.byte s.bytes va = imageByte tinyImage.bytes [phdr tinyImage 0] va := by
  obtain ⟨pt, s₁, r, s₂, hpt, hne, hfew, hrun, hret⟩ := tinyImage_loads
  obtain ⟨sp, rfl, hk, h₁, hf₁⟩ := initUserpt_run hpt hne
  obtain ⟨sp₂, hs, hb, hsz, hres⟩ := (loadElf_spec tinyImage h₁ hk hf₁.held').of_run hrun
  obtain ⟨-, rfl, -⟩ := hres.resolve_left fun h => by
    rw [hret] at h
    exact absurd h.1 (by decide)
  have hseg : segments tinyImage = [phdr tinyImage 0] := rfl
  have hD : 1 ∈ imageDom (segments tinyImage) := by
    rw [hseg, imageDom, Set.mem_Ico]
    decide
  refine ⟨sp₂, s₂, imageDom (segments tinyImage), hb.holds, hb.shape, hb.frame.held',
    fun hf => hfew ((hb.few hf).mono ?_), hD, ?_, fun va hva => ?_⟩
  · rw [hseg, show imageEnd [phdr tinyImage 0] = 0x1008 by decide]
    omega
  · have := hb.flags 1 hD
    rw [hseg, show imageFlags [phdr tinyImage 0] 1 = 27 by decide] at this
    omega
  · rw [hb.bytes va (hva ▸ hD), hseg]

theorem tiny_scattered : ∃ (pt : Nat) (s : Mem tinyLayout), Scattered tinyLayout s.bytes pt ∧
    (∀ i < 4096, Access s.bytes pt PTE_R (USER_BASE + i)) ∧ ¬Access s.bytes pt PTE_W USER_BASE ∧
    bytesAt s.bytes pt USER_BASE 4 = [0x13, 0x05, 0x10, 0x00] := by
  obtain ⟨sp, s, D, h, hs, -, -, hD, hpte, hbyte⟩ := tiny_loaded
  have hat : ∀ va, va / 4096 = 1 → entryAt s.bytes (sp.root * 4096) va = sp.pte 1 := by
    intro va hva
    rw [h.entryAt_eq (by omega), hva]
  refine ⟨sp.root * 4096, s, h.scattered hs, fun i hi => ?_, ?_, ?_⟩
  · rw [Access, hat _ (by simp only [USER_BASE]; omega), and_lt_32 (by decide), hpte]
    decide
  · rw [Access, hat _ (by decide), and_lt_32 (by decide), hpte]
    decide
  · have hpage : ∀ i < 4, (USER_BASE + i) % 2 ^ 32 / 4096 = 1 := by
      intro i hi
      simp only [USER_BASE]
      omega
    have hcongr : bytesAt s.bytes (sp.root * 4096) USER_BASE 4 = (List.range 4).map fun i =>
        imageByte tinyImage.bytes [phdr tinyImage 0] ((USER_BASE + i) % 2 ^ 32) := by
      refine List.map_congr_left fun i hi => ?_
      have hp := hpage i (List.mem_range.1 hi)
      rw [h.byteAt_eq hs.owns (Nat.mod_lt _ (by decide)) (hp ▸ hD), hbyte _ hp]
    rw [hcongr]
    decide

/-! ## Writing -/

/-- Two user pages are one page or have no byte in common. -/
theorem Scattered.physical_inj {m : Bytes} (h : Scattered L m pt) (hva : va < 2 ^ 32)
    (hu : u < 2 ^ 32) (ha : User m pt va) (hb : User m pt u)
    (he : physical m pt va = physical m pt u) : va = u := by
  have h1 := pte2pa_eq (entryAt m pt va)
  have h2 := pte2pa_eq (entryAt m pt u)
  simp only [physical, PAGE_SIZE] at he
  have hp := h.distinct va hva u hu ha hb (by omega)
  simp only [PAGE_SIZE] at hp
  omega

/-- The pages of the table at `pt` hold the same entries. -/
structure SameTable (m m' : Bytes) (pt : Nat) : Prop where
  root : ∀ i < 1024, rootEntry m' pt i = rootEntry m pt i
  table : ∀ i < 1024, rootEntry m pt i % 2 = 1 → ∀ j < 1024,
    m'.word (pte2pa (rootEntry m pt i) + 4 * j) = m.word (pte2pa (rootEntry m pt i) + 4 * j)

theorem SameTable.entryAt {m m' : Bytes} (h : SameTable m m' pt) (hva : va < 2 ^ 32) :
    entryAt m' pt va = entryAt m pt va := by
  rw [Vm.entryAt, Vm.entryAt, pteAddr_eq hva, pteAddr_eq hva, h.root _ (by omega)]
  by_cases hv : rootEntry m pt (va / 4096 / 1024) % 2 = 1
  · rw [if_pos hv, h.table _ (by omega) hv _ (by omega)]
  · rw [if_neg hv, if_pos rfl, if_pos rfl]

theorem SameTable.access {m m' : Bytes} (h : SameTable m m' pt) (hva : va < 2 ^ 32) :
    Access m' pt need va ↔ Access m pt need va := by
  rw [Access, Access, h.entryAt hva]

theorem SameTable.physical {m m' : Bytes} (h : SameTable m m' pt) (hva : va < 2 ^ 32) :
    physical m' pt va = physical m pt va := by
  rw [Vm.physical, Vm.physical, h.entryAt hva]

/-- A write to a user page leaves the table alone. -/
theorem Scattered.write {m m₁ : Bytes} (h : Scattered L m pt) (hs : SameTable m m₁ pt)
    (hva : va < 2 ^ 32) (ha : User m pt va) {l : List UInt8} (hl : va % 4096 + l.length ≤ 4096) :
    SameTable m (m₁.write (physical m pt va) l) pt := by
  have hpa := pte2pa_eq (entryAt m pt va)
  have hword : ∀ b, (b + 4 ≤ pte2pa (entryAt m pt va) ∨ pte2pa (entryAt m pt va) + 4096 ≤ b) →
      (m₁.write (physical m pt va) l).word b = m₁.word b := by
    intro b hb
    refine Bytes.word_congr fun i hi => ?_
    rw [Bytes.write_apply, if_neg]
    simp only [physical, PAGE_SIZE]
    omega
  refine ⟨fun i hi => (hword _ ?_).trans (hs.root i hi),
    fun i hi hv j hj => (hword _ ?_).trans (hs.table i hi hv j hj)⟩
  · have := h.root va hva ha
    simp only [PAGE_SIZE] at this
    omega
  · have hne := h.table va hva ha i hi hv
    have := pte2pa_eq (rootEntry m pt i)
    omega

/-- The first `k` bytes of `src` have been written to the user addresses from `va` on, and
nothing else has changed. -/
structure Written (s s' : Mem L) (pt va : Nat) (src : List UInt8) (k : Nat) : Prop where
  bitmap : s'.bitmap = s.bitmap
  at_va : ∀ i < k, s'.bytes (physical s.bytes pt ((va + i) % 2 ^ 32)) = src.getD i 0
  other : ∀ x, (∀ i < k, x ≠ physical s.bytes pt ((va + i) % 2 ^ 32)) → s'.bytes x = s.bytes x

/-- The next bytes, on one page. -/
theorem Written.write {src : List UInt8} {j n : Nat} (h : Written s s' pt va src j)
    (hsc : Scattered L s.bytes pt) (hlen : src.length < 2 ^ 32) (hn : j + n ≤ src.length)
    (hacc : ∀ i < j + n, Access s.bytes pt need ((va + i) % 2 ^ 32))
    (hpage : (va + j) % 2 ^ 32 % 4096 + n ≤ 4096) :
    Written s (s'.mapBytes (·.write (physical s.bytes pt ((va + j) % 2 ^ 32))
      ((src.drop j).take n))) pt va src (j + n) := by
  have hl : ((src.drop j).take n).length = n := by
    rw [List.length_take, List.length_drop]
    omega
  -- byte `j + d` of the range is byte `d` of this page
  have hphys : ∀ d < n, physical s.bytes pt ((va + (j + d)) % 2 ^ 32) =
      physical s.bytes pt ((va + j) % 2 ^ 32) + d := by
    intro d hd
    exact (physical_add (by omega)).1
  refine ⟨h.bitmap, fun i hi => ?_, fun x hx => ?_⟩
  · rw [Mem.bytes_mapBytes, Bytes.write_apply, hl]
    by_cases hij : i < j
    · rw [if_neg, h.at_va i hij]
      intro hin
      obtain ⟨d, hd, hxd⟩ : ∃ d, d < n ∧ physical s.bytes pt ((va + i) % 2 ^ 32) =
          physical s.bytes pt ((va + j) % 2 ^ 32) + d := ⟨_, by omega, (Nat.add_sub_of_le hin.1).symm⟩
      rw [← hphys d hd] at hxd
      have := hsc.physical_inj (Nat.mod_lt _ (by decide)) (Nat.mod_lt _ (by decide))
        (hacc i (by omega)).user (hacc (j + d) (by omega)).user hxd
      omega
    · obtain ⟨d, rfl⟩ : ∃ d, i = j + d := ⟨i - j, by omega⟩
      have hd : d < n := by omega
      rw [hphys d hd, if_pos (by omega), Nat.add_sub_cancel_left]
      simp [List.getD, hd]
  · rw [Mem.bytes_mapBytes, Bytes.write_apply, hl, if_neg]
    · exact h.other x fun i hi => hx i (by omega)
    · intro hin
      refine hx (j + (x - physical s.bytes pt ((va + j) % 2 ^ 32))) (by omega) ?_
      rw [hphys _ (by omega)]
      omega

/-- One more page can be accessed. -/
theorem access_page {m : Bytes} {j n : Nat}
    (hacc : ∀ i < j, Access m pt need ((va + i) % 2 ^ 32))
    (ha : Access m pt need ((va + j) % 2 ^ 32)) (hpage : (va + j) % 2 ^ 32 % 4096 + n ≤ 4096) :
    ∀ i < j + n, Access m pt need ((va + i) % 2 ^ 32) := by
  intro i hi
  by_cases hij : i < j
  · exact hacc i hij
  · obtain ⟨d, rfl⟩ : ∃ d, i = j + d := ⟨i - j, by omega⟩
    exact ((physical_add (by omega)).2 need).2 ha

theorem copyout_bytes {src : List UInt8} (h : Scattered L s.bytes pt) (hva : va < 2 ^ 32)
    (hlen : src.length < 2 ^ 32) :
    wp (copyout pt va src) (fun r s' => ∃ k, Reach s.bytes pt PTE_W va src.length k ∧
      r = (if k = src.length then 0 else -1) ∧ Written s s' pt va src k) s := by
  unfold copyout
  -- after `j` bytes
  let I : Nat × List UInt8 → Mem L → Prop := fun x s₁ => ∃ j, j ≤ src.length ∧
    x = ((va + j) % 2 ^ 32, src.drop j) ∧ (∀ i < j, Access s.bytes pt PTE_W ((va + i) % 2 ^ 32)) ∧
    SameTable s.bytes s₁.bytes pt ∧ Written s s₁ pt va src j
  refine wp_loop I (fun x => x.2.length) ?_ ⟨0, Nat.zero_le _, ?_, fun i hi => by omega,
    ⟨fun _ _ => rfl, fun _ _ _ _ _ => rfl⟩, ⟨rfl, fun i hi => by omega, fun _ _ => rfl⟩⟩ hlen
  · rintro _ s₁ ⟨j, hj, rfl, hacc, hs, hw⟩
    have hlt : (va + j) % 2 ^ 32 < 2 ^ 32 := Nat.mod_lt _ (by decide)
    dsimp only
    rw [List.length_drop]
    by_cases hjl : j = src.length
    · rw [if_neg (by omega), wp_pure]
      exact ⟨j, ⟨hj, hacc, fun hlt => by omega⟩, by rw [if_pos hjl], hw⟩
    · rw [if_pos (by omega), wp_bind, wp_findUserPa]
      by_cases ha : Access s.bytes pt PTE_W ((va + j) % 2 ^ 32)
      · rw [if_pos ((hs.access hlt).2 ha), hs.physical hlt, if_neg (ha.ne_zero h.pool hlt)]
        have hn := onPage_eq (physical s.bytes pt ((va + j) % 2 ^ 32)) (src.length - j)
        rw [physical_mod] at hn
        obtain ⟨n, hnn⟩ : ∃ n, onPage (physical s.bytes pt ((va + j) % 2 ^ 32)) (src.length - j) = n :=
          ⟨_, rfl⟩
        rw [hnn] at hn
        have hl : ((src.drop j).take n).length ≤ n := by
          rw [List.length_take]
          omega
        have hacc' := access_page (n := n) hacc ha (by omega)
        simp only [hnn, wp_bind, wp_memmoveFrom, wp_pure]
        refine ⟨⟨j + n, by omega, ?_, hacc', h.write hs hlt ha.user (by omega),
          hw.write h hlen (by omega) hacc' (by omega)⟩, ?_⟩
        · simp only [Prod.mk.injEq, List.drop_drop, and_true]
          omega
        · rw [List.length_drop, List.length_drop]
          omega
      · rw [if_neg (mt (hs.access hlt).1 ha), if_pos rfl, wp_pure]
        exact ⟨j, ⟨hj, hacc, fun _ => ha⟩, by rw [if_neg hjl], hw⟩
  · simp only [Nat.add_zero, Nat.mod_eq_of_lt hva, List.drop_zero]

/-! ## Reading -/

/-- The next bytes, on one page. -/
theorem bytesAt_add {m : Bytes} {j n : Nat} (hpage : (va + j) % 2 ^ 32 % 4096 + n ≤ 4096) :
    bytesAt m pt va (j + n) =
      bytesAt m pt va j ++ m.read (physical m pt ((va + j) % 2 ^ 32)) n := by
  rw [bytesAt, List.range_add, List.map_append, List.map_map, bytesAt, Bytes.read]
  congr 1
  refine List.map_congr_left fun d hd => ?_
  rw [List.mem_range] at hd
  rw [Function.comp, byteAt, (physical_add (by omega)).1]

theorem copyin_bytes {len : Nat} (h : InPool L s.bytes pt) (hva : va < 2 ^ 32)
    (hlen : len < 2 ^ 32) :
    wp (copyin pt va len) (fun r s' => s' = s ∧ ∃ k, Reach s.bytes pt PTE_R va len k ∧
      r = (if k = len then 0 else -1, bytesAt s.bytes pt va k)) s := by
  unfold copyin
  let I : Nat × Nat × List UInt8 → Mem L → Prop := fun x s₁ => s₁ = s ∧ ∃ j, j ≤ len ∧
    x = ((va + j) % 2 ^ 32, len - j, bytesAt s.bytes pt va j) ∧
    ∀ i < j, Access s.bytes pt PTE_R ((va + i) % 2 ^ 32)
  refine wp_loop I (fun x => x.2.1) ?_ ⟨rfl, 0, Nat.zero_le _, ?_, fun i hi => by omega⟩ hlen
  · rintro _ s ⟨rfl, j, hj, rfl, hacc⟩
    have hlt : (va + j) % 2 ^ 32 < 2 ^ 32 := Nat.mod_lt _ (by decide)
    dsimp only
    by_cases hjl : j = len
    · rw [if_neg (by omega), wp_pure]
      exact ⟨rfl, j, ⟨hj, hacc, fun hlt => by omega⟩, by rw [if_pos hjl]⟩
    · rw [if_pos (by omega), wp_bind, wp_findUserPa]
      by_cases ha : Access s.bytes pt PTE_R ((va + j) % 2 ^ 32)
      · rw [if_pos ha, if_neg (ha.ne_zero h hlt), wp_bind, wp_get]
        have hn := onPage_eq (physical s.bytes pt ((va + j) % 2 ^ 32)) (len - j)
        rw [physical_mod] at hn
        obtain ⟨n, hnn⟩ : ∃ n, onPage (physical s.bytes pt ((va + j) % 2 ^ 32)) (len - j) = n :=
          ⟨_, rfl⟩
        rw [hnn] at hn
        simp only [hnn, wp_pure]
        refine ⟨⟨rfl, j + n, by omega, ?_, access_page hacc ha (by omega)⟩, by omega⟩
        rw [← bytesAt_add (by omega)]
        simp only [Prod.mk.injEq, and_true]
        omega
      · rw [if_neg ha, if_pos rfl, wp_pure]
        exact ⟨rfl, j, ⟨hj, hacc, fun _ => ha⟩, by rw [if_neg hjl]⟩
  · simp only [Nat.add_zero, Nat.mod_eq_of_lt hva, Nat.sub_zero]
    rfl

/-- **`copyout` and `copyin` byte by byte.**  For every table whose user pages lie in the
pool, are distinct and are disjoint from the table, and for every range of user addresses,
which may wrap: both end; they return 0 iff every byte of the range can be accessed; and they
transfer exactly the bytes of the longest prefix that can, which is all of them when they
return 0. -/
theorem copy_bytes (h : Scattered L s.bytes pt) (hva : va < 2 ^ 32) :
    (∀ src : List UInt8, src.length < 2 ^ 32 → ∃ r s' k, copyout pt va src s = .ok (r, s') ∧
      (r = 0 ∨ r = -1) ∧
      (r = 0 ↔ ∀ i < src.length, Access s.bytes pt PTE_W ((va + i) % 2 ^ 32)) ∧
      (r = 0 ↔ k = src.length) ∧ Reach s.bytes pt PTE_W va src.length k ∧
      Written s s' pt va src k) ∧
    (∀ len < 2 ^ 32, ∃ r dst k, copyin pt va len s = .ok ((r, dst), s) ∧
      (r = 0 ∨ r = -1) ∧
      (r = 0 ↔ ∀ i < len, Access s.bytes pt PTE_R ((va + i) % 2 ^ 32)) ∧
      (r = 0 ↔ k = len) ∧ Reach s.bytes pt PTE_R va len k ∧ dst = bytesAt s.bytes pt va k) := by
  have hret : ∀ {len k : Nat}, ((if k = len then 0 else -1 : Int) = 0 ↔ k = len) := by
    intro len k
    split <;> simp_all
  have hor : ∀ {len k : Nat}, (if k = len then 0 else -1 : Int) = 0 ∨
      (if k = len then 0 else -1 : Int) = -1 := by
    intro len k
    split <;> simp
  constructor
  · intro src hlen
    obtain ⟨r, s', hrun, k, hk, rfl, hw⟩ := wp_iff.1 (copyout_bytes h hva hlen)
    exact ⟨_, s', k, hrun, hor, hret.trans hk.eq_iff, hret, hk, hw⟩
  · intro len hlen
    obtain ⟨_, _, hrun, rfl, k, hk, rfl⟩ := wp_iff.1 (copyin_bytes h.pool hva hlen)
    exact ⟨_, _, k, hrun, hor, hret.trans hk.eq_iff, hret, hk, rfl⟩

/-- Eight bytes are read from the page of the small program; nothing is written to it. -/
theorem copy_bytes_tiny : ∃ (pt : Nat) (s s' : Mem tinyLayout) (dst : List UInt8),
    copyin pt USER_BASE 8 s = .ok ((0, dst), s) ∧ dst = bytesAt s.bytes pt USER_BASE 8 ∧
      copyout pt USER_BASE [1, 2] s = .ok (-1, s') ∧ s'.bytes = s.bytes := by
  obtain ⟨pt, s, hsc, hr, hw, -⟩ := tiny_scattered
  obtain ⟨hout, hin⟩ := copy_bytes hsc (show USER_BASE < 2 ^ 32 by decide)
  obtain ⟨r, dst, k, hrun, -, hiff, hk, -, rfl⟩ := hin 8 (by decide)
  have hr0 : r = 0 := hiff.2 fun i hi => by
    rw [Nat.mod_eq_of_lt (by simp only [USER_BASE]; omega)]
    exact hr i (by omega)
  obtain rfl := hk.1 hr0
  obtain ⟨r', s', k, hrun', hor, hiff', -, hreach, hwr⟩ := hout [1, 2] (by decide)
  have hno : ∀ i < k, False := fun i hi => by
    have := hreach.access 0 (by omega)
    exact hw this
  have hr1 : r' = -1 := hor.resolve_left fun h0 => hw (hiff'.1 h0 0 (by decide))
  refine ⟨pt, s, s', _, hr0 ▸ hrun, rfl, hr1 ▸ hrun', ?_⟩
  funext x
  exact hwr.other x fun i hi => (hno i hi).elim

/-! ## Strings -/

/-- What the inner loop of `copyinstr` finds. -/
theorem scanStr_spec (m : Bytes) (p n : Nat) :
    ((scanStr m p n).2 = true ∧ ∃ j < n, m (p + j) = 0 ∧ (∀ i < j, m (p + i) ≠ 0) ∧
      (scanStr m p n).1 = m.read p (j + 1)) ∨
    ((scanStr m p n).2 = false ∧ (∀ i < n, m (p + i) ≠ 0) ∧ (scanStr m p n).1 = m.read p n) := by
  induction n generalizing p with
  | zero => exact .inr ⟨rfl, fun i hi => by omega, rfl⟩
  | succ n ih =>
      rw [scanStr]
      by_cases hz : m p = 0
      · rw [if_pos hz]
        refine .inl ⟨rfl, 0, by omega, hz, fun i hi => by omega, ?_⟩
        rw [Bytes.read_succ, hz]
        rfl
      · rw [if_neg hz]
        have hnz : ∀ j, (∀ i < j, m (p + 1 + i) ≠ 0) → ∀ i < j + 1, m (p + i) ≠ 0 := by
          intro j hj i hi
          cases i with
          | zero => exact hz
          | succ i =>
              rw [show p + (i + 1) = p + 1 + i by omega]
              exact hj i (by omega)
        rcases ih (p + 1) with ⟨h2, j, hj, h0, hne, h1⟩ | ⟨h2, hne, h1⟩
        · refine .inl ⟨h2, j + 1, by omega, ?_, hnz j hne, ?_⟩
          · rw [show p + (j + 1) = p + 1 + j by omega]
            exact h0
          · dsimp only
            rw [h1, Bytes.read_succ (j + 1)]
        · refine .inr ⟨h2, hnz n hne, ?_⟩
          dsimp only
          rw [h1, Bytes.read_succ n]

/-- `copyinstr` with a record of the addresses that it translates. -/
def copyinstrLog (pt srcVa max : Nat) : MemM L ((Int × List UInt8) × List Nat) :=
  loop .diverge (fun ((va, max, acc), log) =>
    if max > 0 then do
      let pa ← findUserPa pt va PTE_R
      if pa = 0 then pure (.inr ((-1, acc), log ++ [va]))
      else do
        let s ← get
        let n := onPage pa max
        let r := scanStr s.bytes pa n
        if r.2 = true then pure (.inr ((0, acc ++ r.1), log ++ [va]))
        else pure (.inl (((va + n) % 2 ^ 32, max - n, acc ++ r.1), log ++ [va]))
    else pure (.inr ((-1, acc), log))) rounds ((srcVa, max, []), [])

/-- Without the record it is `copyinstr`. -/
theorem copyinstrLog_erase (pt va max : Nat) :
    Prod.fst <$> copyinstrLog pt va max = (copyinstr pt va max : MemM L _) := by
  unfold copyinstrLog copyinstr
  refine map_loop Prod.fst Prod.fst ?_ rounds ((va, max, []), [])
  rintro ⟨⟨va, max, acc⟩, log⟩
  dsimp only
  split
  · rw [map_bind]
    congr 1
    funext pa
    split
    · rfl
    · rw [map_bind]
      congr 1
      funext s
      split <;> rfl
  · rfl

/-- At `va` there is a string of `k` characters and its NUL, all of which the user may
read. -/
structure StrAt (m : Bytes) (pt va k : Nat) : Prop where
  access : ∀ i ≤ k, Access m pt PTE_R ((va + i) % 2 ^ 32)
  nul : byteAt m pt ((va + k) % 2 ^ 32) = 0
  char : ∀ i < k, byteAt m pt ((va + i) % 2 ^ 32) ≠ 0

theorem StrAt.unique {m : Bytes} {k k' : Nat} (h : StrAt m pt va k) (h' : StrAt m pt va k') :
    k = k' := by
  rcases lt_trichotomy k k' with hlt | heq | hlt
  · exact absurd h.nul (h'.char k hlt)
  · exact heq
  · exact absurd h'.nul (h.char k' hlt)

/-- No NUL among the first `j` bytes, and no byte after them: `max` is reached, or the next
page cannot be read. -/
structure NoStr (m : Bytes) (pt va max j : Nat) : Prop where
  le : j ≤ max
  char : ∀ i < j, byteAt m pt ((va + i) % 2 ^ 32) ≠ 0
  stop : j < max → ¬Access m pt PTE_R ((va + j) % 2 ^ 32)

theorem NoStr.not_strAt {m : Bytes} {max j k : Nat} (h : NoStr m pt va max j) (hk : k < max) :
    ¬StrAt m pt va k := by
  intro hs
  by_cases hkj : k < j
  · exact h.char k hkj hs.nul
  · exact h.stop (by omega) (hs.access j (by omega))

theorem copyinstrLog_spec {max : Nat} (h : InPool L s.bytes pt) (hva : va < 2 ^ 32)
    (hmax : max < 2 ^ 32) :
    wp (copyinstrLog pt va max) (fun r s' => s' = s ∧
      ((∃ k < max, StrAt s.bytes pt va k ∧ r.1 = (0, bytesAt s.bytes pt va (k + 1)) ∧
        ∀ a ∈ r.2, ∃ i ≤ k, a = (va + i) % 2 ^ 32) ∨
      (∃ j, NoStr s.bytes pt va max j ∧ r.1 = (-1, bytesAt s.bytes pt va j)))) s := by
  unfold copyinstrLog
  -- after `j` bytes, none of which is the NUL
  let I : (Nat × Nat × List UInt8) × List Nat → Mem L → Prop := fun x s₁ => s₁ = s ∧
    ∃ j, j ≤ max ∧ x.1 = ((va + j) % 2 ^ 32, max - j, bytesAt s.bytes pt va j) ∧
    (∀ i < j, Access s.bytes pt PTE_R ((va + i) % 2 ^ 32)) ∧
    (∀ i < j, byteAt s.bytes pt ((va + i) % 2 ^ 32) ≠ 0) ∧
    ∀ a ∈ x.2, ∃ i < j, a = (va + i) % 2 ^ 32
  refine wp_loop I (fun x => x.1.2.1) ?_ ⟨rfl, 0, Nat.zero_le _, ?_, fun i hi => by omega,
    fun i hi => by omega, fun a ha => by cases ha⟩ hmax
  · rintro ⟨_, log⟩ s ⟨rfl, j, hj, rfl, hacc, hchar, hlog⟩
    have hlt : (va + j) % 2 ^ 32 < 2 ^ 32 := Nat.mod_lt _ (by decide)
    have hlog' : ∀ a ∈ log ++ [(va + j) % 2 ^ 32], ∃ i ≤ j, a = (va + i) % 2 ^ 32 := by
      intro a ha
      rcases List.mem_append.1 ha with ha | ha
      · obtain ⟨i, hi, he⟩ := hlog a ha
        exact ⟨i, hi.le, he⟩
      · exact ⟨j, le_rfl, List.mem_singleton.1 ha⟩
    dsimp only
    by_cases hjm : j = max
    · rw [if_neg (by omega), wp_pure]
      exact ⟨rfl, .inr ⟨j, ⟨hj, hchar, fun hlt => by omega⟩, rfl⟩⟩
    rw [if_pos (by omega), wp_bind, wp_findUserPa]
    by_cases ha : Access s.bytes pt PTE_R ((va + j) % 2 ^ 32)
    swap
    · rw [if_neg ha, if_pos rfl, wp_pure]
      exact ⟨rfl, .inr ⟨j, ⟨hj, hchar, fun _ => ha⟩, rfl⟩⟩
    rw [if_pos ha, if_neg (ha.ne_zero h hlt), wp_bind, wp_get]
    have hn := onPage_eq (physical s.bytes pt ((va + j) % 2 ^ 32)) (max - j)
    rw [physical_mod] at hn
    obtain ⟨n, hnn⟩ : ∃ n, onPage (physical s.bytes pt ((va + j) % 2 ^ 32)) (max - j) = n :=
      ⟨_, rfl⟩
    rw [hnn] at hn
    have hpage : ∀ i < j + n, Access s.bytes pt PTE_R ((va + i) % 2 ^ 32) :=
      access_page hacc ha (by omega)
    -- the bytes of the page are the next bytes of the range
    have hbyte : ∀ d < n, byteAt s.bytes pt ((va + (j + d)) % 2 ^ 32) =
        s.bytes (physical s.bytes pt ((va + j) % 2 ^ 32) + d) := by
      intro d hd
      rw [byteAt, (physical_add (by omega)).1]
    have hcat : ∀ d, (∀ i < d, s.bytes (physical s.bytes pt ((va + j) % 2 ^ 32) + i) ≠ 0) →
        d ≤ n → ∀ i < j + d, byteAt s.bytes pt ((va + i) % 2 ^ 32) ≠ 0 := by
      intro d hd hdn i hi
      by_cases hij : i < j
      · exact hchar i hij
      · obtain ⟨e, rfl⟩ : ∃ e, i = j + e := ⟨i - j, by omega⟩
        rw [hbyte e (by omega)]
        exact hd e (by omega)
    simp only [hnn]
    rcases scanStr_spec s.bytes (physical s.bytes pt ((va + j) % 2 ^ 32)) n with
      ⟨h2, d, hd, h0, hne, h1⟩ | ⟨h2, hne, h1⟩
    · rw [if_pos h2, wp_pure, h1]
      refine ⟨rfl, .inl ⟨j + d, by omega, ⟨fun i hi => hpage i (by omega), ?_,
        hcat d hne hd.le⟩, ?_, fun a ha => ?_⟩⟩
      · rw [hbyte d hd]
        exact h0
      · rw [Nat.add_assoc, bytesAt_add (by omega)]
      · obtain ⟨i, hi, he⟩ := hlog' a ha
        exact ⟨i, by omega, he⟩
    · rw [if_neg (by rw [h2]; decide), wp_pure, h1]
      refine ⟨⟨rfl, j + n, by omega, ?_, hpage, hcat n hne le_rfl, fun a ha => ?_⟩, ?_⟩
      · rw [← bytesAt_add (by omega)]
        simp only [Prod.mk.injEq, and_true]
        omega
      · obtain ⟨i, hi, he⟩ := hlog' a ha
        exact ⟨i, by omega, he⟩
      · dsimp only
        omega
  · simp only [Nat.add_zero, Nat.mod_eq_of_lt hva, Nat.sub_zero]
    rfl

theorem copyinstr_str {max : Nat} (h : InPool L s.bytes pt) (hva : va < 2 ^ 32)
    (hmax : max < 2 ^ 32) :
    wp (copyinstr pt va max) (fun r s' => s' = s ∧
      ((∃ k < max, StrAt s.bytes pt va k ∧ r = (0, bytesAt s.bytes pt va (k + 1))) ∨
      (∃ j, NoStr s.bytes pt va max j ∧ r = (-1, bytesAt s.bytes pt va j)))) s := by
  obtain ⟨r, s', hrun, hs, hres⟩ := wp_iff.1 (copyinstrLog_spec h hva hmax)
  refine wp_iff.2 ⟨r.1, s', ?_, hs, ?_⟩
  · rw [← copyinstrLog_erase]
    exact map_of_run Prod.fst hrun
  · rcases hres with ⟨k, hk, hstr, he, -⟩ | hno
    · exact .inl ⟨k, hk, hstr, he⟩
    · exact .inr hno

/-- **`copyinstr` byte by byte.**  For every table whose user pages lie in the pool, every
address and every bound, `copyinstr` ends, writes at most `max` bytes, and returns 0 iff a
readable string with its NUL lies within the bound.  The buffer then has exactly its bytes,
and no address after its NUL has been translated. -/
theorem copyinstr_bytes {max : Nat} (h : InPool L s.bytes pt) (hva : va < 2 ^ 32)
    (hmax : max < 2 ^ 32) : ∃ r dst log, copyinstrLog pt va max s = .ok (((r, dst), log), s) ∧
      copyinstr pt va max s = .ok ((r, dst), s) ∧ (r = 0 ∨ r = -1) ∧ dst.length ≤ max ∧
      (r = 0 ↔ ∃ k < max, StrAt s.bytes pt va k) ∧
      ∀ k < max, StrAt s.bytes pt va k → dst = bytesAt s.bytes pt va (k + 1) ∧
        ∀ a ∈ log, ∃ i ≤ k, a = (va + i) % 2 ^ 32 := by
  obtain ⟨⟨⟨r, dst⟩, log⟩, s', hrun, hs, hres⟩ := wp_iff.1 (copyinstrLog_spec h hva hmax)
  subst s'
  have hrun' : copyinstr pt va max s = .ok ((r, dst), s) := by
    rw [← copyinstrLog_erase]
    exact map_of_run Prod.fst hrun
  refine ⟨r, dst, log, hrun, hrun', ?_⟩
  rcases hres with ⟨k, hk, hstr, he, hlog⟩ | ⟨j, hno, he⟩
  · obtain ⟨rfl, rfl⟩ := Prod.mk.inj he
    refine ⟨.inl rfl, by rw [length_bytesAt]; omega, ⟨fun _ => ⟨k, hk, hstr⟩, fun _ => rfl⟩, ?_⟩
    intro k' hk' hstr'
    obtain rfl := hstr.unique hstr'
    exact ⟨rfl, hlog⟩
  · obtain ⟨rfl, rfl⟩ := Prod.mk.inj he
    refine ⟨.inr rfl, by rw [length_bytesAt]; exact hno.le, ⟨fun h => absurd h (by decide), ?_⟩, ?_⟩
    · rintro ⟨k, hk, hstr⟩
      exact absurd hstr (hno.not_strAt hk)
    · intro k hk hstr
      exact absurd hstr (hno.not_strAt hk)

/-- The instruction of the small program ends in a 0, so it is a string of three characters. -/
theorem copyinstr_bytes_tiny : ∃ (pt : Nat) (s : Mem tinyLayout),
    copyinstr pt USER_BASE 8 s = .ok ((0, [0x13, 0x05, 0x10, 0x00]), s) := by
  obtain ⟨pt, s, hsc, hr, -, hb⟩ := tiny_scattered
  have hat : ∀ i < 4, byteAt s.bytes pt ((USER_BASE + i) % 2 ^ 32) =
      ([0x13, 0x05, 0x10, 0x00] : List UInt8).getD i 0 := by
    intro i hi
    rw [← hb, bytesAt]
    simp [List.getD, hi]
  have hstr : StrAt s.bytes pt USER_BASE 3 := by
    refine ⟨fun i hi => ?_, hat 3 (by decide), fun i hi => ?_⟩
    · rw [Nat.mod_eq_of_lt (by simp only [USER_BASE]; omega)]
      exact hr i (by omega)
    · rw [hat i (by omega)]
      exact (by decide : ∀ i < 3, ([0x13, 0x05, 0x10, 0x00] : List UInt8).getD i 0 ≠ 0) i hi
  obtain ⟨r, dst, log, -, hrun, -, -, hiff, hdst⟩ :=
    copyinstr_bytes hsc.pool (show USER_BASE < 2 ^ 32 by decide) (show 8 < 2 ^ 32 by decide)
  have hr0 : r = 0 := hiff.2 ⟨3, by decide, hstr⟩
  have hd : dst = [0x13, 0x05, 0x10, 0x00] := (hdst 3 (by decide) hstr).1.trans hb
  exact ⟨pt, s, hr0 ▸ hd ▸ hrun⟩

/-! ## On the table of a process -/

section Process

variable {sp : Space} {D : Set Nat}

/-- **`copyout` writes to the pages behind `D` only**, and comes to an end. -/
theorem copyout_spec {src : List UInt8} (h : Holds L s.bytes sp) (hs : Shape L sp D)
    (hh : Held s (sp.tables ∪ sp.frames D)) (hva : va < 2 ^ 32) (hl : src.length < 2 ^ 32) :
    wp (copyout (sp.root * 4096) va src) (fun r s' =>
      (r = 0 ∨ r = -1) ∧ Frame s s' (sp.frames D) (sp.frames D)) s := by
  refine (copyout_bytes (h.scattered hs) hva hl).mono fun r s' hc => ?_
  obtain ⟨k, hreach, rfl, hw⟩ := hc
  refine ⟨by split_ifs <;> simp, Footprint.touch (fun q => ?_) (fun q hq o ho => ?_)
    fun q hq => hh q (.inr hq)⟩
  · rw [Mem.free, hw.bitmap, Mem.free]
  · refine hw.other _ fun i hi he => hq ?_
    have hlt : (va + i) % 2 ^ 32 < 2 ^ 32 := Nat.mod_lt _ (by decide)
    have hD := hs.mem_of_access h hlt (hreach.access i hi)
    have hpage : physical s.bytes (sp.root * 4096) ((va + i) % 2 ^ 32) =
        sp.page ((va + i) % 2 ^ 32 / 4096) * 4096 + (va + i) % 2 ^ 32 % 4096 := by
      rw [physical, h.entryAt_eq hlt, hs.owns.pte2pa hD]
    exact ⟨_, hD, by omega⟩

end Process

end Wl00.Vm
