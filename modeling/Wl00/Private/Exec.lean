import Wl00.Private.Calls

/-!
# Programs as processes see them

What `sys_exec` makes of its caller is a function of the caller alone: of its registers and its
memory, and of the programs in the kernel.  Boot leaves one process, which is `init` before its
first instruction.

* `Installed.userMemory` — a program and its stack are the memory of a process.
* `Started.userProcess`, `AsksExec.exec` — what the process has become is what it asks for.
* `step_sysExec` — the call is a step of the machine.
* `First.user`, `boot_view` — the process that hart 0 leaves.
-/

namespace Wl00.Vm

open Prog Private
open Sched (Slot)

variable {L : Layout} {k k' : Kernel L} {p : Slot} {kpt : Space} {A : Slot → Assets}
  {progs : Programs} {img : Image} {strs : List (List UInt8)}

/-! ## The new process -/

theorem imageFlags_lt (hs : List PrgHdr) (v : Nat) : imageFlags hs v < 32 := by
  unfold imageFlags
  cases hs.find? fun ph => v * 4096 < ph.fin with
  | none => decide
  | some ph =>
      simp only [Option.map_some, Option.getD_some]
      rcases ph.perm_cases with hp | hp | hp | hp <;> rw [hp] <;> decide

/-- **A program and its stack** are the memory that the process sees. -/
theorem Installed.userMemory {s : Mem L} {sp : Space} {D : Set Nat} {stack : Bytes}
    (h : Installed L s.bytes sp D img stack) :
    userMemory s.bytes (sp.root * 4096) = Memory.ofImage img stack := by
  funext a
  unfold Memory.ofImage
  split_ifs with hst hD
  · rw [PAGE_SIZE] at hst
    have hfl := h.stack_flags
    have hmod : sp.pte stackPage % 32 = 23 := by omega
    rw [h.holds.userMemory_of_mem h.shape (hst ▸ h.mem), h.stack a hst, hst, hmod]
    rfl
  · have hmem : a / 4096 ∈ imageDom (segments img) := hD
    have hfl := h.image_flags _ hmem
    have hlt := imageFlags_lt (segments img) (a / 4096)
    have hmod : sp.pte (a / 4096) % 32 = imageFlags (segments img) (a / 4096) := by omega
    rw [h.holds.userMemory_of_mem h.shape (h.dom ▸ .inl hmem), h.image a hmem, hmod]
  · refine h.holds.userMemory_of_not_mem h.shape ?_
    rw [h.dom]
    exact fun hc => hc.elim hD hst

/-- The registers after `kexec` has stored its words in the trapframe. -/
theorem userRegs_execWords (m : Bytes) (t entry x : Nat) :
    userRegs (execWords m t entry x) (t * 4096) =
      Function.update (Function.update (userRegs m (t * 4096)) 2 (x % 2 ^ 32)) 11 (x % 2 ^ 32) := by
  funext i
  have hi : (execWords m t entry x).word (t * 4096 + regOff i) = _ := word_execWords_reg i
  by_cases h11 : i = 11
  · subst h11
    rw [Function.update_self, userRegs, if_pos (by decide), hi, if_pos (.inr rfl)]
  rw [Function.update_of_ne h11]
  by_cases h2 : i = 2
  · subst h2
    rw [Function.update_self, userRegs, if_pos (by decide), hi, if_pos (.inl rfl)]
  have hne : ¬(i = 2 ∨ i = 11) := fun hc => hc.elim h2 h11
  rw [Function.update_of_ne h2, userRegs, userRegs, hi, if_neg hne]

theorem arrayAddr_lt (strs : List (List UInt8)) : arrayAddr strs < 2 ^ 32 :=
  lt_of_le_of_lt (Nat.sub_le _ _) (by decide)

/-- **The process has become the program.** -/
theorem Started.userProcess {t ks sz : Nat} {o : Option (Space × Set Nat)} {sp : Space}
    (h : Started k k' p t ks o img strs sp sz) (htf : (k.procs p).tf = t * 4096) :
    userProcess k'.mem.bytes (k'.procs p) =
      (userProcess k.mem.bytes (k.procs p)).become img strs := by
  have hlt : (readElfHdr img.bytes).entry < 2 ^ 32 := Bytes.word_lt _ _
  rw [Vm.userProcess, show (k'.procs p).tf = t * 4096 from h.execed.mem.tf_eq,
    show (k'.procs p).pt = sp.root * 4096 from h.execed.mem.pt_eq, h.installed.userMemory,
    h.words.userRegs, userRegs_execWords, h.words.word (by decide), word_execWords_epc,
    Nat.mod_eq_of_lt hlt, Nat.mod_eq_of_lt (arrayAddr_lt strs), Vm.userProcess, htf]
  rfl

/-! ## What the process asks for -/

theorem Asks.argv (h : Asks k.mem.bytes (k.procs p).pt (arg1 k p) strs) :
    (userProcess k.mem.bytes (k.procs p)).argv = some strs := by
  have h11 : (userProcess k.mem.bytes (k.procs p)).regs 11 = arg1 k p := rfl
  unfold Process.argv
  rw [h11]
  rcases h with ⟨h0, rfl⟩ | ⟨h0, n, len, hargs, hne, rfl⟩
  · exact if_pos h0
  · exact (if_neg h0).trans (args_of_argsAt hargs hne)

theorem AsksExec.exec {path : List UInt8} (h : AsksExec k p path strs) (hfit : Fits strs)
    (hfind : findProgram progs path = some img) :
    (userProcess k.mem.bytes (k.procs p)).exec progs =
      some ((userProcess k.mem.bytes (k.procs p)).become img strs) := by
  obtain ⟨n, hn, hstr, rfl⟩ := h.path
  have hpath : (userProcess k.mem.bytes (k.procs p)).mem.string MAXPATH
      ((userProcess k.mem.bytes (k.procs p)).regs 10) =
        some (bytesAt k.mem.bytes (k.procs p).pt (arg0 k p) n) := string_of_strAt hstr hn
  rw [Process.exec, hpath, h.args.argv]
  simp only [Option.bind_eq_bind, Option.bind_some, hfind, if_pos hfit]

/-- **`sys_exec` replaces the process by the one that it asks for**, or changes nothing. -/
theorem step_sysExec {r : Int} (h : World k kpt A) (hr : (k.procs p).state = .running)
    (hrun : sysExec progs p k = .ok (r, k')) : Step progs k.view (.exec p) k'.view := by
  have hl : (k.procs p).Live := .inr (.inl hr)
  obtain ⟨t, ks, sp, hA, -, -, -, -⟩ := h.space hl
  have hm := (h.slot p).mem
  have hh := h.held p
  rw [hA] at hm hh
  rcases (sysExec_spec hm hh).of_run hrun with
    ⟨-, hx⟩ | ⟨-, path, strs, img, sp', sz, hasks, hfit, hfind, hs⟩
  · have hp : k'.procs = k.procs := by rw [hx.eq]
    have hview : k'.view = k.view := Kernel.view_eq (rows_congr hp) (by rw [hx.eq])
      (funext fun j => h.user_frame hx.frame (by rw [hp]))
    rw [hview]
    exact .execFail p
  · have hx := hs.execed
    obtain ⟨name, hp⟩ := hx.procs
    have hexec := hasks.exec hfit hfind
    rw [← hs.userProcess hm.tf_eq] at hexec
    have hlive : (k'.procs p).Live := by
      rw [hp, Function.update_self]
      exact hl
    have hstep : Step progs k.view (.exec p) _ := .exec p _ _ (Kernel.user_of_live hl) hexec
    have hview : k'.view = k.view.setProcess p (some (userProcess k'.mem.bytes (k'.procs p))) := by
      refine Kernel.view_eq ?_ hx.currPid (funext fun j => ?_)
      · rw [rows_update hp]
        exact Function.update_eq_self p k.rows
      · by_cases hj : j = p
        · subst hj
          exact (Kernel.user_of_live hlive).trans (State.setProcess_self _).symm
        · refine Eq.trans ?_ (State.setProcess_ne hj _).symm
          refine h.user_other (by rw [hA]; exact hx.frame) hj ?_
          rw [hp, Function.update_of_ne hj]
    rw [hview]
    exact hstep

/-! ## The first process -/

/-- In a trapframe of zeros, `sp` is the only register that is set. -/
theorem userRegs_firstWords (t entry x ksp ksatp ktrap utrap : Nat) :
    userRegs (firstWords (fun _ => 0) t entry x ksp ksatp ktrap utrap) (t * 4096) =
      fun i => if i = 2 then x % 2 ^ 32 else 0 := by
  have hzero : ∀ a, Bytes.word (fun _ => 0) a = 0 := fun _ => rfl
  funext i
  unfold userRegs
  by_cases hi : 1 ≤ i ∧ i ≤ 31
  · rw [if_pos hi, word_firstWords _ _ _ _ _ _ (by simp only [epcOff, regOff]; omega)]
    by_cases h2 : i = 2
    · subst h2
      rw [if_pos rfl, Bytes.word_storeWord_mod]
    · rw [if_neg h2, Bytes.word_storeWord_of_ne (by simp only [regOff]; omega),
        Bytes.word_storeWord_of_ne (by simp only [regOff, epcOff]; omega), hzero]
  · rw [if_neg hi, if_neg (by omega)]

/-- **`uvmfirst` makes the process that is to run `init`.** -/
theorem First.user {i : Slot} (h : First progs k k' i) :
    ∃ stack, k'.user i = some (.start progs.init stack) := by
  obtain ⟨sp, D, stack, hpt, hinst⟩ := h.program
  obtain ⟨t, ksp, htf, hw⟩ := h.words
  have hlt : (readElfHdr progs.init.bytes).entry < 2 ^ 32 := Bytes.word_lt _ _
  refine ⟨stack, ?_⟩
  rw [Kernel.user_of_live (.inl h.state), userProcess, htf, hpt, hinst.userMemory, hw.userRegs,
    userRegs_firstWords, hw.word (by decide), epc_firstWords, Nat.mod_eq_of_lt hlt]
  rfl

/-- **Boot leaves the machine at its start**: the other slots are free. -/
theorem boot_view {bytes : Bytes} (h : boot progs (.start L bytes) = .ok ((), k)) :
    (machine progs).init k.view := by
  have hrows := (boot_rows progs bytes).of_run h
  obtain ⟨-, j, hfirst⟩ := (boot_spec progs bytes).of_ok h
  obtain ⟨stack, hj⟩ := hfirst.user
  have hlive : ∀ i : Slot, i.val ≠ 0 → k.user i = none := by
    intro i hi
    refine Kernel.user_of_not_live fun hl => ?_
    have hrow : (k.procs i).row = .reset := (congrFun hrows.1 i).trans (if_neg hi)
    exact hl.ne_unused (congrArg Sched.Row.state hrow)
  have hzero : j.val = 0 := by
    by_contra hne
    rw [hlive j hne] at hj
    cases hj
  refine ⟨hrows.1, hrows.2, stack, fun i => ?_⟩
  split_ifs with hi
  · obtain rfl : i = j := Fin.ext (hi.trans hzero.symm)
    exact hj
  · exact hlive i hi

end Wl00.Vm
