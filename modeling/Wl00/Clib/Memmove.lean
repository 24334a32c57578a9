import Wl00.Lib.Move
import Wl00.Space.Copy

/-!
# `memmove`, twice

The kernel and the user library each have a `memmove`, here with the 32-bit pointers of the
machine.  The kernel copies downwards only where the source runs into the destination, the
user library whenever the source is not above.

* `memmove_moves` — both move, and so do the same.
* `memmove_move` — `Wl00.Vm.move`, which the kernel's model uses on addresses that do not
  wrap, is the kernel's `memmove`.
-/

namespace Wl00.Clib

open Copying

/-- What the program sees of memory. -/
abbrev Ram := BitVec 32 → UInt8

/-- `memmove` in `mem.c`: memory afterwards, and the result. -/
def Kernel.memmove (m : Ram) (dst src n : BitVec 32) : Ram × BitVec 32 :=
  if n = 0 then (m, dst)
  else if src < dst ∧ dst < src + n then (copyDown m (dst + n) (src + n) n.toNat, dst)
  else (copyUp m dst src n.toNat, dst)

/-- `memmove` in `ulib.c` -/
def User.memmove (m : Ram) (dst src len : BitVec 32) : Ram × BitVec 32 :=
  if dst < src then (copyUp m dst src len.toNat, dst)
  else (copyDown m (dst + len) (src + len) len.toNat, dst)

section

variable {m : Ram} {dst src n : BitVec 32}

theorem moved_down (hd : dst.toNat + n.toNat ≤ 2 ^ 32) (hs : src.toNat + n.toNat ≤ 2 ^ 32)
    (h : src.toNat ≤ dst.toNat) :
    Moved m (copyDown m (dst + n) (src + n) n.toNat) dst src 0 n.toNat := by
  have hn : BitVec.ofNat 32 n.toNat = n := BitVec.ofNat_toNat 32 n |>.trans (BitVec.setWidth_eq n)
  have hm := moved_copyDown m hd (unread_down hd hs h)
  rwa [hn] at hm

theorem Kernel.memmove_moved (hd : dst.toNat + n.toNat ≤ 2 ^ 32) (hs : src.toNat + n.toNat ≤ 2 ^ 32) :
    Moved m (memmove m dst src n).1 dst src 0 n.toNat := by
  unfold memmove
  by_cases h0 : n = 0
  · rw [if_pos h0, h0]
    exact Moved.refl ..
  · rw [if_neg h0]
    by_cases hov : src < dst ∧ dst < src + n
    · rw [if_pos hov]
      exact moved_down hd hs (Nat.le_of_lt hov.1)
    · rw [if_neg hov]
      refine moved_copyUp m hd (unread_up hd hs ?_)
      by_contra hno
      refine hov ⟨?_, ?_⟩
      · rw [BitVec.lt_def]
        omega
      · -- below the destination `src + n` does not wrap, as `dst + n` does not
        rw [BitVec.lt_def, BitVec.toNat_add]
        omega

theorem User.memmove_moved (hd : dst.toNat + n.toNat ≤ 2 ^ 32) (hs : src.toNat + n.toNat ≤ 2 ^ 32) :
    Moved m (memmove m dst src n).1 dst src 0 n.toNat := by
  unfold memmove
  by_cases hlt : dst < src
  · rw [if_pos hlt]
    exact moved_copyUp m hd (unread_up hd hs (.inl (Nat.le_of_lt hlt)))
  · rw [if_neg hlt]
    exact moved_down hd hs (BitVec.not_lt.1 hlt)

end

/-- `m'` is `m` with `n` bytes moved from `src` to `dst`. -/
def Moves (m m' : Ram) (dst src n : BitVec 32) : Prop :=
  (∀ i < n.toNat, m' (dst + BitVec.ofNat 32 i) = m (src + BitVec.ofNat 32 i)) ∧
    ∀ a, ¬(dst.toNat ≤ a.toNat ∧ a.toNat < dst.toNat + n.toNat) → m' a = m a

theorem moves_of_moved {m m' : Ram} {dst src n : BitVec 32} (hd : dst.toNat + n.toNat ≤ 2 ^ 32)
    (hm : Moved m m' dst src 0 n.toNat) : Moves m m' dst src n := by
  refine ⟨fun i hi => hm.copied i (Nat.zero_le i) hi, fun a ha => hm.frame a fun i _ hi he => ha ?_⟩
  rw [he, toNat_offset hd hi]
  omega

/-- **Both versions of `memmove` move**, whatever the overlap, and leave the same memory. -/
theorem memmove_moves (m : Ram) (dst src n : BitVec 32) (hd : dst.toNat + n.toNat ≤ 2 ^ 32)
    (hs : src.toNat + n.toNat ≤ 2 ^ 32) :
    Moves m (Kernel.memmove m dst src n).1 dst src n ∧
      Moves m (User.memmove m dst src n).1 dst src n ∧
      Kernel.memmove m dst src n = User.memmove m dst src n := by
  have hk := Kernel.memmove_moved (m := m) hd hs
  have hu := User.memmove_moved (m := m) hd hs
  refine ⟨moves_of_moved hd hk, moves_of_moved hd hu, Prod.ext (hk.unique hu) ?_⟩
  unfold Kernel.memmove User.memmove
  split_ifs <;> rfl

/-- The last bytes of the address space: `dst + n` wraps to 0. -/
theorem memmove_moves_top :
    (0xFFFFFFFC#32).toNat + (4#32).toNat ≤ 2 ^ 32 ∧ (0xFFFFFFFA#32).toNat + (4#32).toNat ≤ 2 ^ 32 ∧
      Moves (fun a => .ofNat a.toNat) (Kernel.memmove (fun a => .ofNat a.toNat) 0xFFFFFFFC#32
        0xFFFFFFFA#32 4#32).1 0xFFFFFFFC#32 0xFFFFFFFA#32 4#32 :=
  ⟨by decide, by decide, (memmove_moves _ _ _ _ (by decide) (by decide)).1⟩

/-! ## The model of the kernel's memory -/

/-- **The kernel's model agrees**: on ranges that end inside the address space, `move` is the
kernel's `memmove`. -/
theorem memmove_move (m : Bytes) (dst src n : BitVec 32) (hd : dst.toNat + n.toNat ≤ 2 ^ 32)
    (hs : src.toNat + n.toNat ≤ 2 ^ 32) :
    (Kernel.memmove (fun a => m a.toNat) dst src n).1 =
      fun a => Vm.move m dst.toNat src.toNat n.toNat a.toNat := by
  refine (Kernel.memmove_moved hd hs).unique ⟨fun i _ hi => ?_, fun a ha => ?_⟩
  · rw [Vm.move_apply, toNat_offset hd hi, toNat_offset hs hi, if_pos (by omega),
      Nat.add_sub_cancel_left]
  · rw [Vm.move_apply, if_neg]
    rintro ⟨h1, h2⟩
    refine ha (a.toNat - dst.toNat) (Nat.zero_le _) (by omega) (BitVec.eq_of_toNat_eq ?_)
    rw [toNat_offset hd (by omega)]
    omega

end Wl00.Clib
