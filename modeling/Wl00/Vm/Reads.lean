import Wl00.Vm.Load

/-!
# Where `load_elf` reads

`load_elf` and `load_segment` once more, with every read of the image checked: a read
that is not inside the image stops the run and says where it was.

* `loadElfChecked_guards` — as long as every read is inside, the checked loader is the
  loader.
* `loadElf_reads_inside` — every read is inside, except where the loop comes to a program
  header whose 32 bytes run past the end of the 32-bit address space.
* `wrapImage_reads_outside` — an image where they do.
-/

namespace Wl00.Vm

open Prog

variable {L : Layout}

/-- Programs that may also stop at a read outside the image, with its index. -/
abbrev ImgM (L : Layout) := StateT (Mem L) (Except (Panic ⊕ Nat))

/-- A program on the memory that does not look at the image. -/
abbrev quiet {α : Type} (m : MemM L α) : ImgM L α := liftErr .inl m

/-- The `n` bytes of the image from index `i` on are read. -/
def touch (img : Image) (i n : Nat) : ImgM L Unit :=
  if i + n ≤ img.len then pure () else throw (.inr i)

/-- `load_segment` -/
def loadSegmentChecked (pt va : Nat) (img : Image) (offset sz : Nat) : ImgM L Int :=
  loop (.inl .diverge) (fun (va, off, sz) =>
    if sz > 0 then do
      let pa ← quiet (findPa pt va)
      if pa = 0 then pure (.inr (-1))
      else do
        touch img off (onPage pa sz)
        quiet (memmoveFrom pa (img.bytes.read off (onPage pa sz)))
        pure (.inl ((va + onPage pa sz) % 2 ^ 32, off + onPage pa sz, sz - onPage pa sz))
    else pure (.inr 0)) rounds (va, offset, sz)

/-- The body of the loop of `load_elf`, once the program header has been read. -/
def loadPrgChecked (pt : Nat) (img : Image) (ph : PrgHdr) (size sz : Nat) :
    ImgM L (Option Nat × Nat) :=
  if ¬ph.Ok img.len size then pure (none, sz)
  else do
    let newsz ← quiet (uvmalloc pt size ((ph.va + ph.memsz) % 2 ^ 32) ph.perm)
    if newsz = 0 then pure (none, sz)
    else do
      let r ← loadSegmentChecked pt ph.va img ph.offset ph.filesz
      if r < 0 then pure (none, pgRoundUp newsz) else pure (some newsz, pgRoundUp newsz)

/-- One round of the loop of `load_elf` -/
def loadRoundChecked (pt : Nat) (img : Image) (elf : ElfHdr) :
    Nat × Nat × Nat → ImgM L ((Nat × Nat × Nat) ⊕ Loaded) := fun (i, size, sz) =>
  if i < elf.phnum then do
    let off := (elf.phoff + i * sizeofPrgHdr) % 2 ^ 32
    if off < elf.phoff ∨ (off + sizeofPrgHdr) % 2 ^ 32 > img.len then pure (.inr ⟨-1, 0, sz⟩)
    else do
      touch img off sizeofPrgHdr
      let ph := readPrgHdr img.bytes off
      if ph.type ≠ PT_LOAD ∨ ph.memsz = 0 then pure (.inl (i + 1, size, sz))
      else do
        match ← loadPrgChecked pt img ph size sz with
        | (none, sz) => pure (.inr ⟨-1, 0, sz⟩)
        | (some size, sz) => pure (.inl (i + 1, size, sz))
  else pure (.inr ⟨0, elf.entry, pgRoundUp size⟩)

/-- The loop of `load_elf` -/
def loadLoopChecked (pt : Nat) (img : Image) (elf : ElfHdr) : Nat × Nat × Nat → ImgM L Loaded :=
  loop (.inl .diverge) (loadRoundChecked pt img elf) rounds

/-- `load_elf` -/
def loadElfChecked (pt : Nat) (img : Image) : ImgM L Loaded :=
  if img.len < sizeofElfHdr then pure ⟨-1, 0, USER_BASE⟩
  else do
    touch img 0 sizeofElfHdr
    if ¬(readElfHdr img.bytes).Ok then pure ⟨-1, 0, USER_BASE⟩
    else loadLoopChecked pt img (readElfHdr img.bytes) (0, USER_BASE, USER_BASE)

/-! ## The checks change nothing -/

/-- The error of a read outside the image. -/
def Outside (e : Panic ⊕ Nat) : Prop := ∃ i, e = .inr i

theorem touch_cases (img : Image) (i n : Nat) (s : Mem L) :
    (∃ e, Outside e ∧ touch img i n s = .error e) ∨ touch img i n s = .ok ((), s) := by
  unfold touch
  split_ifs
  · exact .inr rfl
  · exact .inl ⟨_, ⟨i, rfl⟩, rfl⟩

theorem loadSegmentChecked_guards (pt va : Nat) (img : Image) (offset sz : Nat) :
    Guards .inl Outside (loadSegmentChecked (L := L) pt va img offset sz)
      (loadSegment pt va img offset sz) := by
  refine .loop (fun (va, off, sz) => ?_) _ _
  dsimp only
  split_ifs
  · refine .bind (.lift _) fun pa => ?_
    split_ifs
    · exact .pure _
    · exact .check (touch_cases img _ _) (.bind (.lift _) fun _ => .pure _)
  · exact .pure _

theorem loadPrgChecked_guards (pt : Nat) (img : Image) (ph : PrgHdr) (size sz : Nat) :
    Guards .inl Outside (loadPrgChecked (L := L) pt img ph size sz)
      (loadPrg pt img ph size sz) := by
  unfold loadPrgChecked loadPrg
  split_ifs
  · refine .bind (.lift _) fun newsz => ?_
    split_ifs
    · exact .pure _
    · refine .bind (loadSegmentChecked_guards _ _ _ _ _) fun r => ?_
      split_ifs <;> exact .pure _
  · exact .pure _

theorem loadRoundChecked_guards (pt : Nat) (img : Image) (elf : ElfHdr) (x : Nat × Nat × Nat) :
    Guards .inl Outside (loadRoundChecked (L := L) pt img elf x) (loadRound pt img elf x) := by
  unfold loadRoundChecked loadRound
  dsimp only
  split_ifs
  · exact .pure _
  · exact .check (touch_cases img _ _) (.pure _)
  · refine .check (touch_cases img _ _) (.bind (loadPrgChecked_guards _ _ _ _ _) ?_)
    rintro ⟨_ | size, sz⟩ <;> exact .pure _
  · exact .pure _

/-- **The checked loader is the loader**, as long as every read is inside the image. -/
theorem loadElfChecked_guards (pt : Nat) (img : Image) :
    Guards .inl Outside (loadElfChecked (L := L) pt img) (loadElf pt img) := by
  unfold loadElfChecked loadElf
  split_ifs
  · exact .pure _
  · exact .check (touch_cases img _ _) (.loop (loadRoundChecked_guards pt img _) _ _)
  · exact .check (touch_cases img _ _) (.pure _)

/-! ## Every read is inside -/

/-- No read outside the image: the run ends, or stops for another reason. -/
abbrev ReadsInside {α : Type} (m : ImgM L α) : Prop :=
  ∀ s, wpe m (fun _ _ => True) (fun e => ∃ p, e = .inl p) s

theorem touch_inside {img : Image} {i n : Nat} (h : i + n ≤ img.len) {Q : Unit → Mem L → Prop}
    {E : Panic ⊕ Nat → Prop} {s : Mem L} (hq : Q () s) : wpe (touch img i n) Q E s := by
  rw [touch, if_pos h, wpe_pure]
  exact hq

/-- What is called without the image reads nothing of it. -/
theorem quiet_inside {α : Type} (m : MemM L α) (s : Mem L) :
    wpe (quiet m) (fun _ _ => True) (fun e => ∃ p, e = .inl p) s := by
  rw [wpe_liftErr, wpe_iff]
  rcases m s with e | ⟨a, s'⟩
  · exact .inr ⟨e, rfl, e, rfl⟩
  · exact .inl ⟨a, s', rfl, trivial⟩

theorem loadSegmentChecked_inside (pt va : Nat) {img : Image} {offset sz : Nat}
    (h : offset + sz ≤ img.len) :
    ReadsInside (L := L) (loadSegmentChecked pt va img offset sz) := by
  intro s
  -- what is left to read stays inside
  let I : Nat × Nat × Nat → Mem L → Prop := fun x _ => x.2.1 + x.2.2 ≤ img.len
  refine wpe_loop I ⟨_, rfl⟩ ?_ h
  rintro ⟨va, off, sz⟩ s₁ hi
  simp only [I] at hi
  dsimp only
  by_cases hsz : sz > 0
  · rw [if_pos hsz, wpe_bind]
    refine (quiet_inside _ _).mono (fun pa s₂ _ => ?_) fun _ => id
    by_cases hpa : pa = 0
    · rw [if_pos hpa, wpe_pure]
      trivial
    · have hn : onPage pa sz ≤ sz := by
        rw [onPage]
        split_ifs <;> omega
      rw [if_neg hpa, wpe_bind]
      refine touch_inside (by omega) ?_
      rw [wpe_bind]
      refine (quiet_inside _ _).mono (fun _ s₃ _ => ?_) fun _ => id
      rw [wpe_pure]
      show off + onPage pa sz + (sz - onPage pa sz) ≤ img.len
      omega
  · rw [if_neg hsz, wpe_pure]
    trivial

theorem loadPrgChecked_inside (pt : Nat) {img : Image} {ph : PrgHdr} (size sz : Nat)
    (ho : ph.offset < 2 ^ 32) (hf : ph.filesz < 2 ^ 32) :
    ReadsInside (L := L) (loadPrgChecked pt img ph size sz) := by
  intro s
  unfold loadPrgChecked
  by_cases hok : ph.Ok img.len size
  · have hfile := hok.2.1
    rw [if_neg (not_not.2 hok), wpe_bind]
    refine (quiet_inside _ _).mono (fun newsz s₁ _ => ?_) fun _ => id
    by_cases hn : newsz = 0
    · rw [if_pos hn, wpe_pure]
      trivial
    · rw [if_neg hn, wpe_bind]
      refine (loadSegmentChecked_inside pt ph.va (by omega) s₁).mono (fun r s₂ _ => ?_) fun _ => id
      split_ifs <;> exact (wpe_pure _).2 trivial
  · rw [if_pos hok, wpe_pure]
    trivial

/-! ## Where the program headers are -/

/-- Program header `i` starts inside the 32-bit address space and runs to its end or past it. -/
def ElfHdr.Overruns (elf : ElfHdr) (i : Nat) : Prop :=
  elf.phoff + i * sizeofPrgHdr < 2 ^ 32 ∧ 2 ^ 32 ≤ elf.phoff + i * sizeofPrgHdr + sizeofPrgHdr

/-- `load_elf` accepts the ELF header, and its loop comes to program header `i`. -/
def ComesTo (pt : Nat) (img : Image) (s : Mem L) (i : Nat) : Prop :=
  sizeofElfHdr ≤ img.len ∧ (readElfHdr img.bytes).Ok ∧ i < (readElfHdr img.bytes).phnum ∧
    ∃ size sz s', Comes (loadRound pt img (readElfHdr img.bytes))
      ((0, USER_BASE, USER_BASE), s) ((i, size, sz), s')

section Round

variable {pt : Nat} {img : Image} {elf : ElfHdr}

/-- The check of `load_elf` on where program header `i` is. -/
def Passes (img : Image) (elf : ElfHdr) (i : Nat) : Prop :=
  ¬((elf.phoff + i * sizeofPrgHdr) % 2 ^ 32 < elf.phoff ∨
    ((elf.phoff + i * sizeofPrgHdr) % 2 ^ 32 + sizeofPrgHdr) % 2 ^ 32 > img.len)

/-- Of the headers that pass the check, those that overrun are not inside the image. -/
theorem Passes.overruns_iff {i : Nat} (hp : Passes img elf i) (ho : elf.phoff < 2 ^ 32)
    (hi : i < 2 ^ 16) : elf.Overruns i ↔
      ¬(elf.phoff + i * sizeofPrgHdr) % 2 ^ 32 + sizeofPrgHdr ≤ img.len := by
  have hlen := img.len_lt
  simp only [Passes, ElfHdr.Overruns, sizeofPrgHdr] at *
  omega

/-- An overrunning header passes the check: the sum has wrapped. -/
theorem ElfHdr.Overruns.passes {i : Nat} (h : elf.Overruns i) (hlen : sizeofElfHdr ≤ img.len) :
    Passes img elf i := by
  simp only [Passes, ElfHdr.Overruns, sizeofPrgHdr, sizeofElfHdr] at *
  omega

/-- A round that goes on is for a header that is there and passes the check. -/
theorem loadRound_goes_on {a b : (Nat × Nat × Nat) × Mem L} (h : Round (loadRound pt img elf) a b) :
    b.1.1 = a.1.1 + 1 ∧ a.1.1 < elf.phnum ∧ Passes img elf a.1.1 := by
  obtain ⟨⟨i, size, sz⟩, s⟩ := a
  have hspec : wpe (loadRound pt img elf (i, size, sz)) (fun r _ => ∀ x, r = .inl x →
      x.1 = i + 1 ∧ i < elf.phnum ∧ Passes img elf i) (fun _ => True) s := by
    unfold loadRound
    dsimp only
    split_ifs with hi hin hskip
    · exact (wpe_pure _).2 fun x hx => by cases hx
    · refine (wpe_pure _).2 fun x hx => ?_
      cases hx
      exact ⟨rfl, hi, hin⟩
    · rw [wpe_bind]
      refine (wpe_total _ _).mono ?_ fun _ => id
      rintro ⟨_ | size', sz'⟩ s' -
      · exact (wpe_pure _).2 fun x hx => by cases hx
      · refine (wpe_pure _).2 fun x hx => ?_
        cases hx
        exact ⟨rfl, hi, hin⟩
    · exact (wpe_pure _).2 fun x hx => by cases hx
  exact hspec.of_ok h _ rfl

/-- A round reads outside the image when its header overruns, and only then. -/
theorem loadRoundChecked_outside {i size sz : Nat} {s : Mem L} (hlen : sizeofElfHdr ≤ img.len)
    (ho : elf.phoff < 2 ^ 32) (hn : elf.phnum < 2 ^ 16) :
    (∃ e, Outside e ∧ loadRoundChecked pt img elf (i, size, sz) s = .error e) ↔
      i < elf.phnum ∧ elf.Overruns i := by
  constructor
  · rintro ⟨_, ⟨j, rfl⟩, hr⟩
    by_contra hno
    have hspec : wpe (loadRoundChecked pt img elf (i, size, sz)) (fun _ _ => True)
        (fun e => ∃ p, e = .inl p) s := by
      unfold loadRoundChecked
      dsimp only
      split_ifs with hi hin hskip
      · exact (wpe_pure _).2 trivial
      · have hp : Passes img elf i := hin
        rw [wpe_bind]
        refine touch_inside (by_contra fun h => hno ⟨hi, (hp.overruns_iff ho (by omega)).2 h⟩) ?_
        exact (wpe_pure _).2 trivial
      · have hp : Passes img elf i := hin
        rw [wpe_bind]
        refine touch_inside (by_contra fun h => hno ⟨hi, (hp.overruns_iff ho (by omega)).2 h⟩) ?_
        rw [wpe_bind]
        refine (loadPrgChecked_inside pt size sz (Bytes.word_lt _ _) (Bytes.word_lt _ _) s).mono
          ?_ fun _ => id
        rintro ⟨_ | size', sz'⟩ s₂ - <;> exact (wpe_pure _).2 trivial
      · exact (wpe_pure _).2 trivial
    obtain ⟨p, hp⟩ := hspec.of_error hr
    cases hp
  · rintro ⟨hi, hover⟩
    have hp := hover.passes hlen
    have hout := (hp.overruns_iff ho (by omega)).1 hover
    refine ⟨_, ⟨(elf.phoff + i * sizeofPrgHdr) % 2 ^ 32, rfl⟩, ?_⟩
    unfold loadRoundChecked
    dsimp only
    rw [if_pos hi, if_neg hp, touch, if_neg hout]
    rfl

end Round

section Image

variable {pt : Nat} {img : Image} {s : Mem L}

/-- The loop reads outside exactly at an overrunning header that it comes to. -/
theorem loadElfChecked_outside :
    (∃ j, loadElfChecked pt img s = .error (.inr j)) ↔
      ∃ i, ComesTo pt img s i ∧ (readElfHdr img.bytes).Overruns i := by
  unfold loadElfChecked
  by_cases hlen : img.len < sizeofElfHdr
  · rw [if_pos hlen]
    refine iff_of_false ?_ ?_
    · rintro ⟨j, hj⟩
      cases hj
    · rintro ⟨i, hc, -⟩
      exact absurd hc.1 (Nat.not_le.2 hlen)
  rw [if_neg hlen, touch, if_pos (by simp only [sizeofElfHdr] at *; omega), pure_bind]
  by_cases hok : (readElfHdr img.bytes).Ok
  · have hnum : (readElfHdr img.bytes).phnum < 2 ^ 16 := half_lt _ _
    have hround : ∀ i size sz (s' : Mem L), (∃ e, Outside e ∧
        loadRoundChecked pt img (readElfHdr img.bytes) (i, size, sz) s' = .error e) ↔
          i < (readElfHdr img.bytes).phnum ∧ (readElfHdr img.bytes).Overruns i := by
      intro i size sz s'
      exact loadRoundChecked_outside (Nat.not_lt.1 hlen) (Bytes.word_lt img.bytes 28) hnum
    have hstop : (∃ e, Outside e ∧ loop (.inl .diverge) (loadRoundChecked pt img
        (readElfHdr img.bytes)) rounds (0, USER_BASE, USER_BASE) s = .error e) ↔ _ :=
      Guards.loop_stops_iff (loadRoundChecked_guards pt img _) (by rintro e ⟨j, hj⟩; cases hj)
        (fun x => (readElfHdr img.bytes).phnum - x.1)
        (fun a b hr => by have := loadRound_goes_on hr; omega) (by simp only [rounds]; omega)
    rw [if_neg (not_not.2 hok), loadLoopChecked]
    constructor
    · rintro ⟨j, hj⟩
      obtain ⟨⟨⟨i, size, sz⟩, s'⟩, hc, hout⟩ := hstop.1 ⟨_, ⟨j, rfl⟩, hj⟩
      obtain ⟨hi, hover⟩ := (hround i size sz s').1 hout
      exact ⟨i, ⟨Nat.not_lt.1 hlen, hok, hi, size, sz, s', hc⟩, hover⟩
    · rintro ⟨i, ⟨-, -, hi, size, sz, s', hc⟩, hover⟩
      obtain ⟨_, ⟨j, rfl⟩, hj⟩ := hstop.2 ⟨_, hc, (hround i size sz s').2 ⟨hi, hover⟩⟩
      exact ⟨j, hj⟩
  · rw [if_pos hok]
    refine iff_of_false ?_ ?_
    · rintro ⟨j, hj⟩
      cases hj
    · rintro ⟨i, hc, -⟩
      exact hok hc.2.1

/-- Every header after the first starts inside the file, or past the end of the address space. -/
theorem ComesTo.start {i : Nat} (hc : ComesTo pt img s (i + 1))
    (hlt : (readElfHdr img.bytes).phoff + (i + 1) * sizeofPrgHdr < 2 ^ 32) :
    (readElfHdr img.bytes).phoff + (i + 1) * sizeofPrgHdr ≤ img.len := by
  obtain ⟨-, -, -, size, sz, s', hc⟩ := hc
  have hpass := hc.invariant (fun x => 0 < x.1 → Passes img (readElfHdr img.bytes) (x.1 - 1))
    (fun h => absurd h (Nat.lt_irrefl 0)) fun a b hr _ _ => by
      obtain ⟨he, -, hp⟩ := loadRound_goes_on hr
      rw [he]
      exact hp
  have hp := hpass i.succ_pos
  simp only [Passes, Nat.add_sub_cancel, sizeofPrgHdr] at hp hlt ⊢
  omega

end Image

/-- **Where `load_elf` reads outside the image**: exactly at the program headers that its loop
comes to and that run past the end of the 32-bit address space.  In a file of less than
`2^32 - 32` bytes that can only be the first one. -/
theorem loadElf_reads_inside (pt : Nat) (img : Image) (s : Mem L) :
    ((∀ j, loadElfChecked pt img s ≠ .error (.inr j)) ↔
      ∀ i, ComesTo pt img s i → ¬(readElfHdr img.bytes).Overruns i) ∧
    (img.len < 2 ^ 32 - sizeofPrgHdr → ((∀ j, loadElfChecked pt img s ≠ .error (.inr j)) ↔
      ¬(sizeofElfHdr ≤ img.len ∧ (readElfHdr img.bytes).Ok ∧ 0 < (readElfHdr img.bytes).phnum ∧
        2 ^ 32 - sizeofPrgHdr ≤ (readElfHdr img.bytes).phoff))) := by
  have hout : (∃ j, loadElfChecked pt img s = .error (.inr j)) ↔ _ := loadElfChecked_outside
  have hphoff : (readElfHdr img.bytes).phoff < 2 ^ 32 := Bytes.word_lt img.bytes 28
  constructor
  · simpa only [not_exists, not_and] using not_congr hout
  · intro hlen
    rw [← not_exists, hout, not_iff_not]
    constructor
    · rintro ⟨i, hc, hover⟩
      have hi := hc.2.2.1
      cases i with
      | zero =>
          refine ⟨hc.1, hc.2.1, hi, ?_⟩
          simp only [ElfHdr.Overruns, sizeofPrgHdr] at hover ⊢
          omega
      | succ i =>
          have hstart := hc.start hover.1
          simp only [ElfHdr.Overruns, sizeofPrgHdr] at hover hstart hlen
          omega
    · rintro ⟨hle, hok, hpos, hoff⟩
      refine ⟨0, ⟨hle, hok, hpos, USER_BASE, USER_BASE, s, .refl⟩, ?_⟩
      simp only [ElfHdr.Overruns, sizeofPrgHdr] at hoff ⊢
      omega

/-- An ELF header for one program header, which is said to stand at the offset whose
bytes are `phoff`; the rest of the file is zeros. -/
def headerImage (phoff : List UInt8) (len : Nat) (h : len < 2 ^ 32) : Image where
  bytes i := ([0x7F, 0x45, 0x4C, 0x46, 1, 1, 1, 0, 0, 0, 0, 0, 0, 0, 0, 0,
    2, 0, 0xF3, 0, 1, 0, 0, 0, 0, 0x10, 0, 0] ++ phoff ++
    [0, 0, 0, 0, 0, 0, 0, 0, 52, 0, 32, 0, 1, 0, 0, 0, 0, 0, 0, 0]).getD i 0
  len := len
  len_lt := h

/-- With its program header right after the ELF header the file is read inside. -/
theorem headerImage_reads_inside :
    (readElfHdr (headerImage [52, 0, 0, 0] 84 (by decide)).bytes).phnum = 1 ∧
      ∀ j, loadElfChecked 0x80003000 (headerImage [52, 0, 0, 0] 84 (by decide))
        (.blank tinyLayout fun _ => 0) ≠ .error (.inr j) :=
  ⟨rfl, ((loadElf_reads_inside _ _ _).2 (by decide)).2 (by decide)⟩

/-- **A program header at `0xFFFFFFF0` is read outside**: the sum with its length is 16, so
the check on a file of 52 bytes lets it pass. -/
theorem wrapImage_reads_outside :
    loadElfChecked 0x80003000 (headerImage [0xF0, 0xFF, 0xFF, 0xFF] 52 (by decide))
      (.blank tinyLayout fun _ => 0) = .error (.inr 0xFFFFFFF0) :=
  rfl

end Wl00.Vm
