import Wl00.Vm.Proc

/-!
# `exec`

The model of `kexec` of `kernel/exec.c` and `sys_exec` of `kernel/syscall.c`.  The
arguments a process passes are copied to a page of the kernel; `argv` is the list of
their addresses there, without the NULL at its end.
-/

namespace Wl00.Vm

open Prog
open Sched (Slot)

variable {L : Layout}

abbrev MAXPATH : Nat := 32
abbrev MAXARG : Nat := 16

def strlen (a : Nat) : MemM L Nat :=
  loop .diverge (fun n => do
    let s ← get
    if s.bytes (a + n) ≠ 0 then pure (.inl (n + 1)) else pure (.inr n)) rounds 0

/-- `sp -= n; sp &= ~0xF` -/
def pushDown (sp n : Nat) : Nat := (sp + 2 ^ 32 - n) % 2 ^ 32 / 16 * 16

/-- The loop of `kexec` that pushes the strings `argv[argc]`, `argv[argc + 1]`, ...: the
stack pointer it ends with and the entries of `ustack`, or `none` where it gives up. -/
def pushStrings (pt : Nat) : List Nat → Nat → Nat → MemM L (Option (Nat × List Nat))
  | [], _, sp => pure (some (sp, []))
  | a :: argv, argc, sp =>
      if argc ≥ MAXARG then pure none
      else do
        let len ← strlen a
        let n := len + 1
        let sp := pushDown sp n
        if sp < stackVa then pure none
        else do
          let s ← get
          let r ← copyout pt sp (s.bytes.read a n)
          if r < 0 then pure none
          else do
            match ← pushStrings pt argv (argc + 1) sp with
            | none => pure none
            | some (last, ustack) => pure (some (last, sp :: ustack))

/-- `kexec` maps a stack and pushes the arguments: the stack pointer, or `none`. -/
def buildStack (pt : Nat) (argv : List Nat) : MemM L (Option Nat) := do
  let stack ← kalloc
  if stack = 0 then pure none
  else do
    memset stack 0 PAGE_SIZE
    let pte ← mappage pt stackVa stack (PTE_R ||| PTE_W ||| PTE_U)
    if pte = 0 then do
      kfree stack
      pure none
    else do
      match ← pushStrings pt argv 0 USER_STACK_TOP with
      | none => pure none
      | some (sp, ustack) => do
          let sp := pushDown sp ((argv.length + 1) * 4)
          if sp < stackVa then pure none
          else do
            let r ← copyout pt sp ((ustack ++ [0]).flatMap Bytes.ofWord)
            if r < 0 then pure none else pure (some sp)

/-- `p->name` after `kexec` has stored the program's name in it. -/
def execName (name : Fin 16 → UInt8) (path : List UInt8) : Fin 16 → UInt8 := fun i =>
  if i.val < path.length ∧ i.val < 15 then path.getD i 0
  else if i.val = min path.length 15 then 0
  else name i

/-- `kexec` from `Commit` on -/
def commit (p : Slot) (path : List UInt8) (pt sz entry sp argc : Nat) : KernelM L Int := do
  let pp ← getProc p
  modifyProc p fun pp => { pp with pt := pt, sz := sz }
  onMem (store (pp.tf + epcOff) entry)
  onMem (store (pp.tf + regOff 2) sp)
  onMem (store (pp.tf + regOff 11) sp)
  modifyProc p fun pp => { pp with name := execName pp.name path }
  onMem (uvmfree pp.pt pp.sz)
  pure argc

/-- `kexec` of the process in slot `p` -/
def kexec (progs : Programs) (p : Slot) (path : List UInt8) (argv : List Nat) : KernelM L Int :=
  match findProgram progs path with
  | none => pure (-1)
  | some img => do
      let pt ← onMem initUserpt
      if pt = 0 then pure (-1)
      else do
        let r ← onMem (loadElf pt img)
        if r.ret = -1 then do
          onMem (uvmfree pt r.sz)
          pure (-1)
        else do
          match ← onMem (buildStack pt argv) with
          | none => do
              onMem (uvmfree pt r.sz)
              pure (-1)
          | some sp => commit p path pt r.sz r.entry sp argv.length

/-- The loop of `sys_exec` that gathers the arguments into the page `buf`, over the index,
the bytes used so far and the addresses; `none` where it gives up. -/
def gatherArgs (pt uargv buf : Nat) : MemM L (Option (List Nat)) :=
  loop .diverge (fun (i, used, argv) => do
    let (r, w) ← copyin pt ((uargv + 4 * i) % 2 ^ 32) 4
    if r < 0 then pure (.inr none)
    else
      let uarg := Bytes.word (fun j => w.getD j 0) 0
      if uarg = 0 then pure (.inr (some argv))
      else if i = MAXARG then pure (.inr none)
      else do
        let (r, str) ← copyinstr pt uarg (PAGE_SIZE - used)
        memmoveFrom (buf + used) str
        if r < 0 then pure (.inr none)
        else do
          let len ← strlen (buf + used)
          pure (.inl (i + 1, used + len + 1, argv ++ [buf + used]))) rounds (0, 0, [])

/-- The arguments, of which there are none if `uargv` is 0. -/
def gather (pt uargv buf : Nat) : MemM L (Option (List Nat)) :=
  if uargv = 0 then pure (some []) else gatherArgs pt uargv buf

/-- `sys_exec` of the process in slot `p` -/
def sysExec (progs : Programs) (p : Slot) : KernelM L Int := do
  let pp ← getProc p
  let upath ← onMem (load (pp.tf + regOff 10))
  let (r, path) ← onMem (copyinstr pp.pt upath MAXPATH)
  if r < 0 then pure (-1)
  else do
    let uargv ← onMem (load (pp.tf + regOff 11))
    let buf ← onMem kalloc
    if buf = 0 then pure (-1)
    else do
      let argv ← onMem (gather pp.pt uargv buf)
      match argv with
      | none => do
          onMem (kfree buf)
          pure (-1)
      | some argv => do
          let ret ← kexec progs p path.dropLast argv
          onMem (kfree buf)
          pure ret

end Wl00.Vm
