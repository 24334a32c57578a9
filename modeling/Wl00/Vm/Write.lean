import Wl00.Vm.Proc

/-!
# `write` and the console

The model of `kernel/kprint.c` and of `sys_write` of `kernel/syscall.c`.  What a function
prints is the list of characters that it passes to `uart_putc`, in that order.  `print_lock`
keeps the output of one `printf` together and is left out.

A pointer to characters is the list of the bytes from there to the end of the array; a C
string ends with the first NUL in it, or with the literal.
-/

namespace Wl00.Vm

open Prog
open Sched (Slot)

variable {L : Layout}

/-- A `uint32_t` read as an `int` -/
def int32 (w : Nat) : Int := if w < 2 ^ 31 then w else w - 2 ^ 32

/-! ## `kprint.c` -/

def char (c : Char) : UInt8 := .ofNat c.toNat

/-- `digits[d]` -/
def digit (d : Nat) : UInt8 := (cstr "0123456789abcdef").getD d 0

/-- `print_string` -/
def printString : List UInt8 → List UInt8
  | [] => []
  | c :: str => if c ≠ 0 then c :: printString str else []

/-- `print_addr` -/
def printAddr (addr : Nat) : List UInt8 :=
  cstr "0x" ++ [28, 24, 20, 16, 12, 8, 4, 0].map fun i => digit (addr >>> i &&& 0xF)

/-- The digits of a number, the last one first, as they are put into the array `nums`, which
has room for `i` of them. -/
def nums (base : Nat) : Nat → Nat → List UInt8
  | 0, _ => []
  | i + 1, num =>
      digit (num % base) :: if num / base ≠ 0 then nums base i (num / base) else []

/-- `print_uint` -/
def printUint (num base : Nat) : List UInt8 := (nums base 32 num).reverse

/-- `printint`; a wrong base is reported by `error`. -/
def printint (num : Int) (base : Nat) : List UInt8 :=
  if ¬(base = 2 ∨ base = 8 ∨ base = 10 ∨ base = 16) then cstr "error: printint: invalid base\n"
  else if num < 0 then (nums base 34 num.natAbs ++ [char '-']).reverse
  else (nums base 34 num.natAbs).reverse

/-- An argument of `printf`: a word, or a pointer to characters. -/
inductive Arg where
  | word (w : Nat)
  | str (s : List UInt8)

/-- `va_arg` of a word.  No caller passes anything else where a word is asked for. -/
def vaWord : List Arg → Nat
  | .word w :: _ => w
  | _ => 0

/-- `va_arg` of a pointer to characters. -/
def vaStr : List Arg → List UInt8
  | .str s :: _ => s
  | _ => []

/-- `printf` -/
def printf : List UInt8 → List Arg → List UInt8
  | [], _ => []
  | [c], _ => if c = char '%' then cstr "printf: format specifier followed by null\n" else [c]
  | c :: f :: fmt, args =>
      if c = char '%' then
        if f = char 'd' then printint (int32 (vaWord args)) 10 ++ printf fmt args.tail
        else if f = char 'u' then printUint (vaWord args) 10 ++ printf fmt args.tail
        else if f = char 'x' then printUint (vaWord args) 16 ++ printf fmt args.tail
        else if f = char 'p' then printAddr (vaWord args) ++ printf fmt args.tail
        else if f = char 's' then printString (vaStr args) ++ printf fmt args.tail
        else if f = char 'c' then .ofNat (vaWord args) :: printf fmt args.tail
        else cstr "unknown specifier"
      else c :: printf (f :: fmt) args

/-! ## `sys_write` -/

/-- The loop of `sys_write`, over `wrote`, the array `kbuf` and what has been printed: the
value it returns, and everything that has been printed. -/
def writeLoop (pt pBuf n : Nat) (kbuf : Bytes) : MemM L (Int × List UInt8) :=
  loop .diverge (fun (wrote, kbuf, out) =>
    if wrote < n then do
      let chunk := if n - wrote > 127 then 127 else n - wrote
      let (r, dst) ← copyin pt ((pBuf + wrote) % 2 ^ 32) chunk
      let kbuf : Bytes := kbuf.write 0 dst
      if r = -1 then
        pure (.inr (-1, out ++ printf (cstr "sys_write: fault at %p\n")
          [.word ((pBuf + wrote) % 2 ^ 32)]))
      else
        let kbuf : Bytes := Function.update kbuf chunk 0
        pure (.inl (wrote + chunk, kbuf, out ++ printf (cstr "%s") [.str (kbuf.read 0 128)]))
    else pure (.inr (n, out))) rounds (0, kbuf, [])

/-- `sys_write` of the process in slot `p`; `kbuf` is what the array on the kernel stack holds
to begin with. -/
def sysWrite (p : Slot) (kbuf : Bytes) : KernelM L (Int × List UInt8) := do
  let pp ← getProc p
  let fd ← onMem (load (pp.tf + regOff 10))
  let pBuf ← onMem (load (pp.tf + regOff 11))
  let n ← onMem (load (pp.tf + regOff 12))
  if int32 fd ≠ 1 then pure (-1, [])
  else if int32 n < 0 ∨ int32 n > 1024 then pure (-1, [])
  else onMem (writeLoop pp.pt pBuf (int32 n).toNat kbuf)

end Wl00.Vm
