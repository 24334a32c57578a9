import Wl00.Boot.Mask
import Wl00.Space.Agree
import Wl00.Space.Boot

/-!
# The kernel that hart 0 leaves

`Wl00.Vm` begins with memory and `proctable` as hart 0 leaves them.

* `Fixes` — after `init_kptable`, nothing that hart 0 calls writes `kptable`.
-/

namespace Wl00.Vm

open Prog
open Sched (Slot NPROC succPid Row Table IsFirst)

variable {L : Layout} {k : Kernel L} {progs : Programs}

/-! ## `kptable` -/

/-- The call does not write `kptable`. -/
def Fixes {α : Type} (m : KernelM L α) : Prop := ∀ k, Ends m (fun _ k' => k'.kptable = k.kptable) k

namespace Fixes

variable {α β : Type} {m : KernelM L α} {f : α → KernelM L β} {i : Slot}

theorem pure (a : α) : Fixes (Pure.pure a : KernelM L α) := fun _ => (ends_pure a).2 rfl

theorem throw (e : Panic) : Fixes (MonadExcept.throw e : KernelM L α) := fun _ => ends_throw _ _

theorem bind (hm : Fixes m) (hf : ∀ a, Fixes (f a)) : Fixes (m >>= f) := by
  refine fun k => ends_bind.2 ((hm k).mono fun a k₁ h => ?_)
  exact (hf a k₁).mono fun _ k' h' => h'.trans h

theorem onMem (x : MemM L α) : Fixes (Vm.onMem x) := fun _ => ends_onMem fun _ _ => rfl

theorem modifyProc (g : Proc → Proc) : Fixes (Vm.modifyProc (L := L) i g) :=
  fun _ => ends_modifyProc.2 rfl

theorem getProc : Fixes (Vm.getProc (L := L) i) := fun _ => ends_getProc.2 rfl

theorem get : Fixes (MonadState.get : KernelM L (Kernel L)) := fun _ => ends_get.2 rfl

theorem allocpid : Fixes (Vm.allocpid (L := L)) := by
  intro k
  rw [Vm.allocpid, ends_bind, ends_get, ends_bind, ends_set, ends_pure]

theorem releaseproc : Fixes (Vm.releaseproc (L := L) i) :=
  getProc.bind fun _ => (onMem _).bind fun _ => (onMem _).bind fun _ => (onMem _).bind fun _ =>
    modifyProc _

theorem procalloc : Fixes (Vm.procalloc (L := L)) := by
  have hfail : ∀ i, Fixes (procallocFail (L := L) i) := fun i => releaseproc.bind fun _ => pure _
  refine get.bind fun k => ?_
  split
  · exact pure _
  · refine (modifyProc _).bind fun _ => allocpid.bind fun _ => (modifyProc _).bind fun _ =>
      (onMem _).bind fun _ => ?_
    split
    · exact hfail _
    · refine (modifyProc _).bind fun _ => (onMem _).bind fun _ => (modifyProc _).bind fun _ => ?_
      split
      · exact hfail _
      · refine (onMem _).bind fun _ => (onMem _).bind fun _ => (modifyProc _).bind fun _ => ?_
        split
        · exact hfail _
        · exact (modifyProc _).bind fun _ => pure _

theorem uvmfirst (sp : Nat) : Fixes (Vm.uvmfirst (L := L) progs i sp) := by
  unfold Vm.uvmfirst
  split
  · exact throw _
  · refine getProc.bind fun _ => (onMem _).bind fun _ => ?_
    split
    · exact throw _
    · refine (onMem _).bind fun _ => ?_
      split
      · exact throw _
      · refine (onMem _).bind fun _ => ?_
        split
        · exact throw _
        · exact get.bind fun _ => (onMem _).bind fun _ => (onMem _).bind fun _ =>
            (onMem _).bind fun _ => (onMem _).bind fun _ => (onMem _).bind fun _ =>
            (onMem _).bind fun _ => modifyProc _

theorem initUserproc : Fixes (Vm.initUserproc (L := L) progs) := by
  refine procalloc.bind fun r => ?_
  split
  · exact throw _
  · exact uvmfirst _

end Fixes

end Wl00.Vm
