import Wl00.Vm.Memory

/-!
# Page tables

The model of `kernel/vm.c`, with `init_userpt` and `uvmcopy` of `proc.c`: two-level
Sv32 tables that live in memory, the mapping and unmapping of pages, and the copies
between the kernel and user memory.  The messages of `error` are left out.
-/

namespace Wl00.Vm

open Prog

variable {L : Layout}

/-! ## Entries and addresses -/

abbrev PTE_V : Nat := 1
abbrev PTE_R : Nat := 2
abbrev PTE_W : Nat := 4
abbrev PTE_X : Nat := 8
abbrev PTE_U : Nat := 16

/-- `PTE2PA` -/
def pte2pa (pte : Nat) : Nat := ((pte >>> 10) <<< 12) % 2 ^ 32

/-- `PA2PTE` -/
def pa2pte (pa : Nat) : Nat := (pa >>> 12) <<< 10

/-- `PTE_FLAGS` -/
def pteFlags (pte : Nat) : Nat := pte &&& 0x3FF

abbrev UART_0 : Nat := 0x10000000
abbrev USER_BASE : Nat := 0x1000
abbrev TRAMPOLINE : Nat := 0xFFFFF000
abbrev TRAPFRAME : Nat := TRAMPOLINE - PAGE_SIZE
abbrev USER_STACK_TOP : Nat := TRAPFRAME - PAGE_SIZE

/-- The page of the user stack. -/
abbrev stackVa : Nat := USER_STACK_TOP - PAGE_SIZE

def vpn1 (va : Nat) : Nat := (va >>> 22) &&& 0x3ff

def vpn0 (va : Nat) : Nat := (va >>> 12) &&& 0x3ff

/-! ## Mapping -/

/-- `ptcreate` -/
def ptcreate : MemM L Nat := do
  let pt ← kalloc
  if pt = 0 then pure 0
  else do
    memset pt 0 PAGE_SIZE
    pure pt

/-- `find_pte`: the address of the entry for `va`, or 0. -/
def findPte (pt va : Nat) (alloc : Bool) : MemM L Nat := do
  let w ← load (pt + 4 * vpn1 va)
  if w &&& PTE_V ≠ 0 then pure (pte2pa w + 4 * vpn0 va)
  else if alloc = false then pure 0
  else do
    let t ← kalloc
    if t = 0 then pure 0
    else do
      memset t 0 PAGE_SIZE
      store (pt + 4 * vpn1 va) (pa2pte t ||| PTE_V)
      pure (t + 4 * vpn0 va)

/-- `mappage`: the address of the entry, or 0 if there is no memory for a table. -/
def mappage (pt va pa flags : Nat) : MemM L Nat :=
  if va % PAGE_SIZE ≠ 0 then throw .mappageVa
  else if pa % PAGE_SIZE ≠ 0 then throw .mappagePa
  else do
    let pte ← findPte pt va true
    if pte = 0 then pure 0
    else do
      let w ← load pte
      if w &&& PTE_V ≠ 0 then throw .remap
      else do
        store pte (pa2pte pa ||| flags ||| PTE_V)
        pure pte

/-- The loop of `mappages`, which ends where `curr_va` has come to `last`. -/
def mappagesLoop (pt last flags : Nat) : Nat × Nat → MemM L Int :=
  loop .diverge (fun (curr, pa) =>
    if curr ≠ last then do
      let pte ← mappage pt curr pa flags
      if pte = 0 then pure (.inr (-1))
      else pure (.inl ((curr + PAGE_SIZE) % 2 ^ 32, (pa + PAGE_SIZE) % 2 ^ 32))
    else pure (.inr 0)) rounds

def mappages (pt va pa size flags : Nat) : MemM L Int :=
  if va % PAGE_SIZE ≠ 0 then pure (-1)
  else if pa % PAGE_SIZE ≠ 0 then pure (-1)
  else if size % PAGE_SIZE ≠ 0 then pure (-1)
  else if size = 0 then pure (-1)
  else mappagesLoop pt ((va + size) % 2 ^ 32) flags (va, pa)

/-- `kptable_make`: what `mappages` returns is not looked at. -/
def kptableMake : MemM L Nat := do
  let kpt ← kalloc
  if kpt = 0 then throw .nullTable
  else do
    memset kpt 0 PAGE_SIZE
    let _ ← mappages kpt UART_0 UART_0 PAGE_SIZE (PTE_R ||| PTE_W)
    let etext := pgRoundUp L.etext
    let _ ← mappages kpt KERNBASE KERNBASE (etext - KERNBASE) (PTE_R ||| PTE_X)
    let _ ← mappages kpt etext etext (MEM_END - etext) (PTE_R ||| PTE_W)
    pure kpt

/-! ## Unmapping -/

/-- One page of `uvmunmap`. -/
def unmapPage (pt curr : Nat) (free : Bool) : MemM L Unit := do
  let pte ← findPte pt curr false
  if pte = 0 then pure ()
  else do
    let w ← load pte
    if w &&& PTE_V = 0 then pure ()
    else do
      if free = true then kfree (pte2pa w) else pure ()
      store pte 0

/-- The loop of `uvmunmap`. -/
def unmapLoop (pt last : Nat) (free : Bool) : Nat → MemM L Unit :=
  loop .diverge (fun curr =>
    if curr < last then do
      unmapPage pt curr free
      pure (.inl ((curr + PAGE_SIZE) % 2 ^ 32))
    else pure (.inr ())) rounds

def uvmunmap (pt va size : Nat) (free : Bool) : MemM L Unit :=
  if va % PAGE_SIZE ≠ 0 ∨ size % PAGE_SIZE ≠ 0 then throw .uvmunmapAlign
  else unmapLoop pt ((va + size) % 2 ^ 32) free va

def freewalk (pt : Nat) : MemM L Unit := do
  loop .diverge (fun i =>
    if i < 1024 then do
      let w ← load (pt + 4 * i)
      if w &&& PTE_V ≠ 0 then kfree (pte2pa w) else pure ()
      pure (.inl (i + 1))
    else pure (.inr ())) rounds 0
  kfree pt

def uvmfree (pt size : Nat) : MemM L Unit :=
  if size % PAGE_SIZE ≠ 0 then throw .uvmfreeAlign
  else do
    if size > USER_BASE then uvmunmap pt USER_BASE (size - USER_BASE) true else pure ()
    uvmunmap pt stackVa PAGE_SIZE true
    freewalk pt

/-- The loop of `uvmalloc`, from the page at `curr`. -/
def uvmallocLoop (pt start newsz xperm : Nat) : Nat → MemM L Nat :=
  loop .diverge (fun curr =>
    if curr < newsz then do
      let mem ← kalloc
      if mem = 0 then do
        uvmunmap pt start (curr - start) true
        pure (.inr 0)
      else do
        memset mem 0 PAGE_SIZE
        let r ← mappages pt curr mem PAGE_SIZE (PTE_R ||| PTE_U ||| xperm)
        if r ≠ 0 then do
          kfree mem
          uvmunmap pt start (curr - start) true
          pure (.inr 0)
        else pure (.inl ((curr + PAGE_SIZE) % 2 ^ 32))
    else pure (.inr newsz)) rounds

/-- `uvmalloc`: `newsz`, or 0 if there is no memory. -/
def uvmalloc (pt oldsz newsz xperm : Nat) : MemM L Nat :=
  if oldsz > newsz then pure oldsz
  else uvmallocLoop pt (pgRoundUp oldsz) newsz xperm (pgRoundUp oldsz)

/-! ## Copies between the kernel and user memory -/

/-- `find_user_pa`: the physical address of `va`, or 0. -/
def findUserPa (pt va need : Nat) : MemM L Nat := do
  let pte ← findPte pt va false
  if pte = 0 then pure 0
  else do
    let w ← load pte
    if w &&& (PTE_V ||| PTE_U ||| need) ≠ (PTE_V ||| PTE_U ||| need) then pure 0
    else pure (pte2pa w + (va &&& 0xFFF))

/-- `find_pa` -/
def findPa (pt va : Nat) : MemM L Nat := findUserPa pt va 0

/-- How many of `len` bytes lie on the page of `pa`. -/
def onPage (pa len : Nat) : Nat :=
  if PAGE_SIZE - pa % PAGE_SIZE > len then len else PAGE_SIZE - pa % PAGE_SIZE

/-- `copyin`: the result, and the bytes that have been copied. -/
def copyin (pt srcVa len : Nat) : MemM L (Int × List UInt8) :=
  loop .diverge (fun (va, len, acc) =>
    if len > 0 then do
      let pa ← findUserPa pt va PTE_R
      if pa = 0 then pure (.inr (-1, acc))
      else do
        let s ← get
        let n := onPage pa len
        pure (.inl ((va + n) % 2 ^ 32, len - n, acc ++ s.bytes.read pa n))
    else pure (.inr (0, acc))) rounds (srcVa, len, [])

/-- `copyout` of the bytes `src` -/
def copyout (pt dstVa : Nat) (src : List UInt8) : MemM L Int :=
  loop .diverge (fun (va, src) =>
    if src.length > 0 then do
      let pa ← findUserPa pt va PTE_W
      if pa = 0 then pure (.inr (-1))
      else do
        let n := onPage pa src.length
        memmoveFrom pa (src.take n)
        pure (.inl ((va + n) % 2 ^ 32, src.drop n))
    else pure (.inr 0)) rounds (dstVa, src)

/-- The inner loop of `copyinstr`: the bytes up to a NUL among the `n` bytes at `p`,
and whether there is one. -/
def scanStr (m : Bytes) (p : Nat) : Nat → List UInt8 × Bool
  | 0 => ([], false)
  | n + 1 =>
      if m p = 0 then ([0], true)
      else
        let r := scanStr m (p + 1) n
        (m p :: r.1, r.2)

/-- `copyinstr`: the result, and the bytes that have been copied. -/
def copyinstr (pt srcVa max : Nat) : MemM L (Int × List UInt8) :=
  loop .diverge (fun (va, max, acc) =>
    if max > 0 then do
      let pa ← findUserPa pt va PTE_R
      if pa = 0 then pure (.inr (-1, acc))
      else do
        let s ← get
        let n := onPage pa max
        let r := scanStr s.bytes pa n
        if r.2 = true then pure (.inr (0, acc ++ r.1))
        else pure (.inl ((va + n) % 2 ^ 32, max - n, acc ++ r.1))
    else pure (.inr (-1, acc))) rounds (srcVa, max, [])

/-! ## The two functions of `proc.c` that build tables -/

/-- `r < 0 || m() < 0`: `m` is called only where `r` is no failure. -/
def orFails (r : Int) (m : MemM L Int) : MemM L Int := if r < 0 then pure r else m

/-- `init_userpt`: a table with the kernel's mappings only, or 0. -/
def initUserpt : MemM L Nat := do
  let pt ← ptcreate
  if pt = 0 then pure 0
  else do
    let dataStart := L.trampoline + PAGE_SIZE
    let r ← mappages pt KERNBASE KERNBASE (L.trampoline - KERNBASE) (PTE_R ||| PTE_X ||| PTE_V)
    let r ← orFails r <|
      mappages pt L.trampoline L.trampoline PAGE_SIZE (PTE_R ||| PTE_X ||| PTE_V)
    let r ← orFails r <|
      mappages pt dataStart dataStart (MEM_END - dataStart) (PTE_R ||| PTE_W ||| PTE_V)
    let r ← orFails r <| mappages pt UART_0 UART_0 PAGE_SIZE (PTE_R ||| PTE_W ||| PTE_V)
    if r < 0 then do
      freewalk pt
      pure 0
    else pure pt

/-- `*pte`, or 0 where `pte` is NULL: in both cases an entry without `PTE_V`. -/
def loadEntry (pte : Nat) : MemM L Nat := if pte = 0 then pure 0 else load pte

/-- One page of `uvmcopy`: copy the page that `w` maps to a new one, and map that at
`va`. -/
def copyPage (newPt va w : Nat) : MemM L Int := do
  let mem ← kalloc
  if mem = 0 then pure (-1)
  else do
    memmove mem (pte2pa w) PAGE_SIZE
    let pte ← mappage newPt va mem (pteFlags w)
    if pte = 0 then do
      kfree mem
      pure (-1)
    else pure 0

/-- The loop of `uvmcopy` over the image. -/
def uvmcopyLoop (oldPt newPt sz : Nat) : Nat → MemM L Int :=
  loop .diverge (fun va =>
    if va < sz then do
      let pte ← findPte oldPt va false
      let w ← loadEntry pte
      if w &&& PTE_V = 0 then pure (.inl ((va + PAGE_SIZE) % 2 ^ 32))
      else do
        let r ← copyPage newPt va w
        if r < 0 then pure (.inr (-1)) else pure (.inl ((va + PAGE_SIZE) % 2 ^ 32))
    else pure (.inr 0)) rounds

def uvmcopy (oldPt newPt sz : Nat) : MemM L Int := do
  let r ← uvmcopyLoop oldPt newPt sz USER_BASE
  if r < 0 then pure (-1)
  else do
    let pte ← findPte oldPt stackVa false
    let w ← loadEntry pte
    if w &&& PTE_V = 0 then pure (-1)
    else copyPage newPt stackVa w

end Wl00.Vm
