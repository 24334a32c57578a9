import Wl00.Lib.Bytes
import Wl00.Lib.Wp

/-!
# Physical memory

The model of `kernel/mem.c`, and the machine that the rest of `Wl00.Vm` runs on:
byte memory and the bitmap of free pages.

Here the kernel is followed one operation at a time; what several harts do at the
same time is the subject of `Wl00.Sched`, and the locks of `mem.c` are left out.
Addresses are numbers below `2 ^ 32`; where the source adds to a `uint32_t` and may
pass the end, the sum is taken `% 2 ^ 32`.  Where the source stops in `panic`, the
model throws.
-/

namespace Wl00.Vm

open Prog

/-! ## Constants of `mem.h` -/

abbrev PAGE_SIZE : Nat := 4096
abbrev MEM_START : Nat := 0x80000000
abbrev KERNBASE : Nat := 0x80000000
abbrev MEM_END : Nat := 0x88000000
abbrev NUM_PAGES : Nat := (MEM_END - MEM_START) / PAGE_SIZE

/-- `PGROUNDUP` on a `uint32_t` -/
def pgRoundUp (x : Nat) : Nat := (x + PAGE_SIZE - 1) % 2 ^ 32 / PAGE_SIZE * PAGE_SIZE

/-- `PGROUNDDOWN` -/
def pgRoundDown (x : Nat) : Nat := x / PAGE_SIZE * PAGE_SIZE

/-- What the linker script leaves open: where the trampoline and the end of the
kernel are, and the addresses of four functions.  The text before the trampoline
is not empty, and `.data`, `.bss` and the stacks lie between `_etext` and `end`. -/
structure Layout where
  trampoline : Nat
  kend : Nat
  forkret : Nat
  kerneltrap : Nat
  uTrapHandle : Nat
  usertrap : Nat
  base_lt : KERNBASE < trampoline
  aligned : trampoline % PAGE_SIZE = 0
  etext_lt : trampoline + PAGE_SIZE < kend
  kend_le : kend ≤ MEM_END

/-- `_etext`: the trampoline fills the last page of the text. -/
def Layout.etext (L : Layout) : Nat := L.trampoline + PAGE_SIZE

/-- `start_page` -/
def Layout.startPage (L : Layout) : Nat := pgRoundUp L.kend

/-- A kernel with one page of text before the trampoline and one page of data. -/
def tinyLayout : Layout where
  trampoline := 0x80001000
  kend := 0x80003000
  forkret := 0x80000100
  kerneltrap := 0x80000200
  uTrapHandle := 0x80000300
  usertrap := 0x80001000
  base_lt := by decide
  aligned := by decide
  etext_lt := by decide
  kend_le := by decide

/-- The ways into `panic` that the modelled functions have, a store through a NULL
page table, and a loop that does not end. -/
inductive Panic where
  /-- `kfree: address not page aligned` -/
  | kfreeAlign
  /-- `kfree: address outside the allocatable range` -/
  | kfreeRange
  /-- `kfree: double free` -/
  | kfreeDouble
  /-- `mappage: va not aligned` -/
  | mappageVa
  /-- `mappage: pa not aligned` -/
  | mappagePa
  /-- `mappage: remap of an already-mapped va` -/
  | remap
  /-- `uvmunmap: not aligned` -/
  | uvmunmapAlign
  /-- `uvmfree: size not aligned` -/
  | uvmfreeAlign
  /-- `uvmfirst: no init program` -/
  | noInit
  /-- `uvmfirst: cannot load init ELF` -/
  | loadInit
  /-- `uvmfirst: out of memory` -/
  | noStack
  /-- `uvmfirst: mappage` -/
  | mapStack
  /-- `init_userproc: procalloc fail` -/
  | noProc
  /-- `memset(kpt, ...)` with `kpt == NULL` -/
  | nullTable
  | diverge
  deriving DecidableEq, Repr

/-- `page_idx`, for an address in RAM -/
def pageIdx (pa : Nat) : Nat := (pgRoundDown pa - MEM_START) / PAGE_SIZE

/-- Byte memory and `mem_bitmap`, where `true` is a free page.  No page before
`start_page` is ever free. -/
structure Mem (L : Layout) where
  bytes : Bytes
  bitmap : Nat → Bool
  range : ∀ i, bitmap i = true → pageIdx L.startPage ≤ i ∧ i < NUM_PAGES

variable {L : Layout}

/-- Programs on the memory. -/
abbrev MemM (L : Layout) := StateT (Mem L) (Except Panic)

/-- Change the bytes only. -/
def Mem.mapBytes (s : Mem L) (f : Bytes → Bytes) : Mem L := { s with bytes := f s.bytes }

/-- How often a loop of the source can go round before one of its `uint32_t`
variables has had every value. -/
abbrev rounds : Nat := 2 ^ 32

/-- The word at an address. -/
def load (a : Nat) : MemM L Nat := do
  let s ← get
  pure (s.bytes.word a)

/-- Store a word at an address. -/
def store (a w : Nat) : MemM L Unit := modify (·.mapBytes (·.storeWord a w))

/-! ## `mem.c` -/

def memset (ptr : Nat) (value : UInt8) (num : Nat) : MemM L Unit :=
  modify (·.mapBytes (·.fill ptr value num))

/-- The loop of `memmove` that copies upwards. -/
def copyUp (m : Bytes) (d s : Nat) : Nat → Bytes
  | 0 => m
  | n + 1 => copyUp (Function.update m d (m s)) (d + 1) (s + 1) n

/-- The loop of `memmove` that copies downwards. -/
def copyDown (m : Bytes) (d s : Nat) : Nat → Bytes
  | 0 => m
  | n + 1 => copyDown (Function.update m (d + n) (m (s + n))) d s n

/-- `memmove` inside memory -/
def move (m : Bytes) (d s n : Nat) : Bytes :=
  if n = 0 then m
  else if s < d ∧ s + n > d then copyDown m d s n
  else copyUp m d s n

def memmove (d s n : Nat) : MemM L Unit := modify (·.mapBytes (move · d s n))

/-- `memmove` from a local variable or the image of a program into memory. -/
def memmoveFrom (d : Nat) (src : List UInt8) : MemM L Unit :=
  modify (·.mapBytes (·.write d src))

theorem range_kfree {s : Mem L} {pa : Nat} (hpa : ¬(pa < L.startPage ∨ MEM_END ≤ pa)) :
    ∀ i, Function.update s.bitmap (pageIdx pa) true i = true →
      pageIdx L.startPage ≤ i ∧ i < NUM_PAGES := by
  intro i hi
  by_cases hip : i = pageIdx pa
  · subst hip
    simp only [pageIdx, pgRoundDown, PAGE_SIZE, MEM_START, MEM_END, NUM_PAGES] at hpa ⊢
    omega
  · rw [Function.update_of_ne hip] at hi
    exact s.range i hi

theorem range_kalloc {s : Mem L} {j : Nat} : ∀ i, Function.update s.bitmap j false i = true →
    pageIdx L.startPage ≤ i ∧ i < NUM_PAGES := by
  intro i hi
  by_cases hij : i = j
  · subst hij
    simp at hi
  · rw [Function.update_of_ne hij] at hi
    exact s.range i hi

def kfree (pa : Nat) : MemM L Unit :=
  if pa % PAGE_SIZE ≠ 0 then throw .kfreeAlign
  else if hpa : pa < L.startPage ∨ MEM_END ≤ pa then throw .kfreeRange
  else do
    memset pa 0 PAGE_SIZE
    let s ← get
    if s.bitmap (pageIdx pa) then throw .kfreeDouble
    else set { s with
      bitmap := Function.update s.bitmap (pageIdx pa) true
      range := range_kfree hpa }

/-- The loop of `kalloc`: the first free page from index `i` on, of `n` pages. -/
def firstFree (bitmap : Nat → Bool) (i : Nat) : Nat → Option Nat
  | 0 => none
  | n + 1 => if bitmap i then some i else firstFree bitmap (i + 1) n

/-- `kalloc` returns an address, or 0. -/
def kalloc : MemM L Nat := do
  let s ← get
  match firstFree s.bitmap 0 NUM_PAGES with
  | some i => do
      set { s with bitmap := Function.update s.bitmap i false, range := range_kalloc }
      pure (MEM_START + i * PAGE_SIZE)
  | none => pure 0

/-- `kfree_range` -/
def kfreeRange (startPa endPa : Nat) : MemM L Unit :=
  loop .diverge (fun curr => do
    if curr < pgRoundDown endPa then do
      kfree curr
      pure (.inl (curr + PAGE_SIZE))
    else pure (.inr ())) rounds (pgRoundUp startPa)

/-- The memory with an empty bitmap, as `.bss` leaves it. -/
def Mem.blank (L : Layout) (bytes : Bytes) : Mem L := ⟨bytes, fun _ => false, by simp⟩

/-- `init_bitmap`: the entries below `start_page` are 0 already in the blank bitmap. -/
def initBitmap : MemM L Unit := do
  modify fun s => { s with
    bitmap := fun i => if i < pageIdx L.startPage then false else s.bitmap i
    range := fun i hi => s.range i (by split at hi <;> simp_all) }
  kfreeRange L.startPage MEM_END

end Wl00.Vm
