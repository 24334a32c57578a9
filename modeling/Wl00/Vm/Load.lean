import Wl00.Vm.Table

/-!
# Loading a program

The model of `load_elf` and `load_segment` of `kernel/exec.c`.  The images of the
programs are embedded in the kernel by the build; here they are parameters.  An
image is a function from indices to bytes together with the length the kernel
believes in: `load_elf` computes the index of a program header in 32 bits and may
read past that length.
-/

namespace Wl00.Vm

open Prog

variable {L : Layout}

/-- The bytes of an embedded program and their number. -/
structure Image where
  bytes : Bytes
  len : Nat
  len_lt : len < 2 ^ 32

/-- A `uint16_t` at an index. -/
def half (m : Bytes) (a : Nat) : Nat := (m a).toNat + 256 * (m (a + 1)).toNat

theorem half_lt (m : Bytes) (a : Nat) : half m a < 65536 := by
  have h1 := (m a).toNat_lt
  have h2 := (m (a + 1)).toNat_lt
  unfold half
  omega

/-- The fields of `struct elf_hdr` that `load_elf` looks at. -/
structure ElfHdr where
  magic : Nat
  elfClass : UInt8
  type : Nat
  machine : Nat
  entry : Nat
  phoff : Nat
  phentsize : Nat
  phnum : Nat

def readElfHdr (m : Bytes) : ElfHdr where
  magic := m.word 0
  elfClass := m 4
  type := half m 16
  machine := half m 18
  entry := m.word 24
  phoff := m.word 28
  phentsize := half m 42
  phnum := half m 44

/-- The fields of `struct prg_hdr` that `load_elf` looks at. -/
structure PrgHdr where
  type : Nat
  offset : Nat
  va : Nat
  filesz : Nat
  memsz : Nat
  flags : Nat

def readPrgHdr (m : Bytes) (off : Nat) : PrgHdr where
  type := m.word off
  offset := m.word (off + 4)
  va := m.word (off + 8)
  filesz := m.word (off + 16)
  memsz := m.word (off + 20)
  flags := m.word (off + 24)

abbrev ELF_MAGIC : Nat := 0x464C457F
abbrev ELFCLASS32 : UInt8 := 1
abbrev ET_EXEC : Nat := 2
abbrev EM_RISCV : Nat := 243
abbrev PT_LOAD : Nat := 1
abbrev PF_X : Nat := 1
abbrev PF_W : Nat := 2
abbrev sizeofElfHdr : Nat := 52
abbrev sizeofPrgHdr : Nat := 32

/-- `load_segment` -/
def loadSegment (pt va : Nat) (img : Image) (offset sz : Nat) : MemM L Int :=
  loop .diverge (fun (va, off, sz) =>
    if sz > 0 then do
      let pa ← findPa pt va
      if pa = 0 then pure (.inr (-1))
      else do
        let n := onPage pa sz
        memmoveFrom pa (img.bytes.read off n)
        pure (.inl ((va + n) % 2 ^ 32, off + n, sz - n))
    else pure (.inr 0)) rounds (va, offset, sz)

/-- What `load_elf` returns, and what it has stored in `*entry` and `*sz`.  A failing
call does not set `*entry`. -/
structure Loaded where
  ret : Int
  entry : Nat
  sz : Nat

/-- The checks on a segment that ends at `va + memsz` when `size` bytes of the address
space are taken already. -/
def PrgHdr.Ok (ph : PrgHdr) (len size : Nat) : Prop :=
  ¬ph.memsz < ph.filesz ∧
  ¬((ph.offset + ph.filesz) % 2 ^ 32 < ph.offset ∨ (ph.offset + ph.filesz) % 2 ^ 32 > len) ∧
  ¬ph.va % PAGE_SIZE ≠ 0 ∧
  ¬ph.va < size ∧
  ¬((ph.va + ph.memsz) % 2 ^ 32 < ph.va ∨ (ph.va + ph.memsz) % 2 ^ 32 > UART_0)

instance (ph : PrgHdr) (len size : Nat) : Decidable (ph.Ok len size) :=
  inferInstanceAs (Decidable (_ ∧ _))

/-- The permissions a segment asks for beyond `PTE_R | PTE_U`. -/
def PrgHdr.perm (ph : PrgHdr) : Nat :=
  (if ph.flags &&& PF_X ≠ 0 then PTE_X else 0) ||| (if ph.flags &&& PF_W ≠ 0 then PTE_W else 0)

/-- The body of the loop of `load_elf` for a segment that is to be loaded: the new
`size`, or `none` if the segment is refused or cannot be loaded, with `*sz`. -/
def loadPrg (pt : Nat) (img : Image) (ph : PrgHdr) (size sz : Nat) :
    MemM L (Option Nat × Nat) :=
  if ¬ph.Ok img.len size then pure (none, sz)
  else do
    let newsz ← uvmalloc pt size ((ph.va + ph.memsz) % 2 ^ 32) ph.perm
    if newsz = 0 then pure (none, sz)
    else do
      let r ← loadSegment pt ph.va img ph.offset ph.filesz
      if r < 0 then pure (none, pgRoundUp newsz) else pure (some newsz, pgRoundUp newsz)

/-- One round of the loop of `load_elf`: the program header `i`, with `size` and `*sz`. -/
def loadRound (pt : Nat) (img : Image) (elf : ElfHdr) :
    Nat × Nat × Nat → MemM L ((Nat × Nat × Nat) ⊕ Loaded) := fun (i, size, sz) =>
  if i < elf.phnum then do
    let off := (elf.phoff + i * sizeofPrgHdr) % 2 ^ 32
    if off < elf.phoff ∨ (off + sizeofPrgHdr) % 2 ^ 32 > img.len then pure (.inr ⟨-1, 0, sz⟩)
    else do
      let ph := readPrgHdr img.bytes off
      if ph.type ≠ PT_LOAD ∨ ph.memsz = 0 then pure (.inl (i + 1, size, sz))
      else do
        match ← loadPrg pt img ph size sz with
        | (none, sz) => pure (.inr ⟨-1, 0, sz⟩)
        | (some size, sz) => pure (.inl (i + 1, size, sz))
  else pure (.inr ⟨0, elf.entry, pgRoundUp size⟩)

/-- The loop of `load_elf` -/
def loadLoop (pt : Nat) (img : Image) (elf : ElfHdr) : Nat × Nat × Nat → MemM L Loaded :=
  loop .diverge (loadRound pt img elf) rounds

/-- The checks on the header of an image. -/
def ElfHdr.Ok (elf : ElfHdr) : Prop :=
  elf.magic = ELF_MAGIC ∧ elf.elfClass = ELFCLASS32 ∧ elf.type = ET_EXEC ∧
    elf.machine = EM_RISCV ∧ elf.phentsize = sizeofPrgHdr

instance (elf : ElfHdr) : Decidable elf.Ok := inferInstanceAs (Decidable (_ ∧ _))

/-- `load_elf` -/
def loadElf (pt : Nat) (img : Image) : MemM L Loaded :=
  if img.len < sizeofElfHdr then pure ⟨-1, 0, USER_BASE⟩
  else if ¬(readElfHdr img.bytes).Ok then pure ⟨-1, 0, USER_BASE⟩
  else loadLoop pt img (readElfHdr img.bytes) (0, USER_BASE, USER_BASE)

/-! ## The table of programs -/

/-- The characters of a C string, without the NUL. -/
def cstr (s : String) : List UInt8 := s.toList.map fun c => .ofNat c.toNat

/-- The images of `initcode.h`. -/
structure Programs where
  init : Image
  hello : Image
  echo : Image

/-- `programs` -/
def Programs.table (progs : Programs) : List (List UInt8 × Image) :=
  [(cstr "init", progs.init), (cstr "hello", progs.hello), (cstr "echo", progs.echo)]

/-- `find_program`, for a name without its NUL -/
def findProgram (progs : Programs) (name : List UInt8) : Option Image :=
  (progs.table.find? fun e => name = e.1).map (·.2)

end Wl00.Vm
