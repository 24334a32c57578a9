import Wl00.Private.Machine

/-!
# The processes that the kernel keeps

`Kernel.view` reads the machine of `Wl00.Private.Machine` off a state of the kernel: the registers
of a process out of its trapframe, and its memory through its page table.

* `SlotMem.userProcess_same` — a process whose pages have not changed has not changed.
* `Holds.userMemory_of_mem` — the memory of a user space.
* `userMemory_written` — what `copyout` has done to it.
* `string_of_strAt`, `args_of_argsAt` — what `copyinstr` and `sys_exec` read of it.
-/

namespace Wl00.Vm

open Prog Private
open Sched (Slot Table)

variable {L : Layout} {k k' : Kernel L} {s s' : Mem L} {sp : Space} {D : Set Nat} {p q : Slot}
  {kpt : Space} {A : Slot → Assets} {m m' : Bytes} {pt va need n : Nat}

/-! ## The view -/

/-- The memory that the table at `pt` gives its user. -/
def userMemory (m : Bytes) (pt : Nat) : Memory := fun a =>
  if a < 2 ^ 32 ∧ User m pt a then some ⟨entryAt m pt a % 32, byteAt m pt a⟩ else none

/-- The registers in the trapframe at `tf`. -/
def userRegs (m : Bytes) (tf i : Nat) : Nat :=
  if 1 ≤ i ∧ i ≤ 31 then m.word (tf + regOff i) else 0

/-- The process in the slot `p`. -/
def userProcess (m : Bytes) (p : Proc) : Process where
  regs := userRegs m p.tf
  pc := m.word (p.tf + epcOff)
  mem := userMemory m p.pt

instance : DecidablePred Proc.Live := fun p =>
  inferInstanceAs (Decidable (p.state = .ready ∨ p.state = .running ∨ p.state = .waiting))

/-- The process in slot `q`, if there is one. -/
def Kernel.user (k : Kernel L) (q : Slot) : Option Process :=
  if (k.procs q).Live then some (userProcess k.mem.bytes (k.procs q)) else none

/-- The machine that the kernel keeps. -/
def Kernel.view (k : Kernel L) : Private.State := ⟨k.rows, k.currPid, k.user⟩

theorem Kernel.user_of_live (hl : (k.procs q).Live) :
    k.user q = some (userProcess k.mem.bytes (k.procs q)) := if_pos hl

theorem Kernel.user_of_not_live (hl : ¬(k.procs q).Live) : k.user q = none := if_neg hl

/-- What a process is depends on where it is only. -/
theorem Kernel.user_fields (hm : k'.mem = k.mem) (hl : (k'.procs q).Live ↔ (k.procs q).Live)
    (htf : (k'.procs q).tf = (k.procs q).tf) (hpt : (k'.procs q).pt = (k.procs q).pt) :
    k'.user q = k.user q := by
  unfold Kernel.user userProcess
  simp only [hm, hl, htf, hpt]

/-- A slot that is changed somewhere else. -/
theorem Kernel.user_setProc {f : Proc → Proc} (hl : ∀ x, (f x).Live ↔ x.Live)
    (hf : ∀ x, (f x).tf = x.tf ∧ (f x).pt = x.pt) : (k.setProc p f).user q = k.user q := by
  by_cases hq : q = p
  · subst hq
    refine user_fields rfl ?_ ?_ ?_
    · rw [setProc_self, hl]
    · rw [setProc_self, (hf _).1]
    · rw [setProc_self, (hf _).2]
  · exact user_fields rfl (by rw [setProc_ne hq]) (by rw [setProc_ne hq]) (by rw [setProc_ne hq])

/-! ## Memory -/

theorem SameUser.userMemory_eq (h : SameUser m m' pt) : userMemory m' pt = userMemory m pt := by
  funext a
  unfold userMemory
  by_cases ha : a < 2 ^ 32
  · by_cases hu : User m pt a
    · have hu' : User m' pt a := (h.access ha).2 hu
      rw [if_pos ⟨ha, hu'⟩, if_pos ⟨ha, hu⟩, h.entry a ha, h.byte a ha hu]
    · have hu' : ¬User m' pt a := fun hu' => hu ((h.access ha).1 hu')
      rw [if_neg fun hc => hu' hc.2, if_neg fun hc => hu hc.2]
  · rw [if_neg fun hc => ha hc.1, if_neg fun hc => ha hc.1]

/-- Two tables with the same space. -/
theorem Holds.sameUser {m m' : Mem L} (h : Holds L m.bytes sp) (h' : Holds L m'.bytes sp)
    (hs : Shape L sp D) (hb : ∀ v ∈ D, SamePage m.bytes m'.bytes (sp.page v)) :
    SameUser m.bytes m'.bytes (sp.root * 4096) where
  entry va hva := by rw [h.entryAt_eq hva, h'.entryAt_eq hva]
  byte va hva hu := by
    have hD := hs.mem_of_access h hva hu
    rw [h.byteAt_eq hs.owns hva hD, h'.byteAt_eq hs.owns hva hD]
    exact hb _ hD _ (Nat.mod_lt _ (by decide))

/-- A user page of a user space. -/
theorem Holds.userMemory_of_mem (h : Holds L s.bytes sp) (hs : Shape L sp D) {a : Nat}
    (hD : a / 4096 ∈ D) : userMemory s.bytes (sp.root * 4096) a =
      some ⟨sp.pte (a / 4096) % 32, sp.byte s.bytes a⟩ := by
  have ha : a < 2 ^ 32 := by
    have := hs.lt hD
    omega
  have hu : User s.bytes (sp.root * 4096) a := by
    have hbits := hs.flags _ hD
    have hv := hs.owns.valid _ hD
    have hw : sp.pte (a / 4096) % 32 = 19 ∨ sp.pte (a / 4096) % 32 = 23 ∨
        sp.pte (a / 4096) % 32 = 27 ∨ sp.pte (a / 4096) % 32 = 31 := by omega
    rw [User, Access, h.entryAt_eq ha, and_lt_32 (by decide)]
    rcases hw with hw | hw | hw | hw <;> rw [hw] <;> decide
  rw [userMemory, if_pos ⟨ha, hu⟩, h.entryAt_eq ha, h.byteAt_eq hs.owns ha hD]

/-- Nothing else is mapped for the user. -/
theorem Holds.userMemory_of_not_mem (h : Holds L s.bytes sp) (hs : Shape L sp D) {a : Nat}
    (hD : a / 4096 ∉ D) : userMemory s.bytes (sp.root * 4096) a = none :=
  if_neg fun hc => hD (hs.mem_of_access h hc.1 hc.2)

/-- A trapframe in a page that has not changed. -/
theorem SamePage.userRegs {t : Nat} (h : SamePage m m' t) :
    userRegs m' (t * 4096) = Vm.userRegs m (t * 4096) := by
  funext i
  unfold Vm.userRegs
  split_ifs with hi
  · exact h.word (by simp only [regOff]; omega)
  · rfl

/-- **A process whose pages have not changed has not changed.** -/
theorem SlotMem.userProcess_same {x : Proc} {t ks : Nat}
    (h : SlotMem L s.bytes x ⟨some t, some ks, some (sp, D)⟩)
    (hs : ∀ y ∈ Assets.pages ⟨some t, some ks, some (sp, D)⟩, SamePage s.bytes s'.bytes y) :
    userProcess s'.bytes x = userProcess s.bytes x := by
  have ht : SamePage s.bytes s'.bytes t := hs t (.inl (.inl rfl))
  have hok := h.space sp D rfl
  have hok' := hok.congr fun y hy => hs y (.inl (.inr (.inl hy)))
  have hmem : userMemory s'.bytes (sp.root * 4096) = userMemory s.bytes (sp.root * 4096) := by
    refine (hok.holds.sameUser hok'.holds hok.shape fun v hv => ?_).userMemory_eq
    exact hs _ (.inl (.inr (.inr ⟨v, hv, rfl⟩)))
  rw [userProcess, userProcess, show x.tf = t * 4096 from h.tf_eq,
    show x.pt = sp.root * 4096 from h.pt_eq, hmem, ht.userRegs, ht.word (by decide)]

theorem userProcess_fields {x y : Proc} (htf : y.tf = x.tf) (hpt : y.pt = x.pt) :
    userProcess m y = userProcess m x := by
  rw [userProcess, userProcess, htf, hpt]

theorem World.user_same (h : World k kpt A) (hl : (k'.procs q).Live ↔ (k.procs q).Live)
    (htf : (k'.procs q).tf = (k.procs q).tf) (hpt : (k'.procs q).pt = (k.procs q).pt)
    (hs : ∀ x ∈ (A q).pages, SamePage k.mem.bytes k'.mem.bytes x) : k'.user q = k.user q := by
  by_cases hq : (k.procs q).Live
  · obtain ⟨t, ks, sp, hA, -, -, -, -⟩ := h.space hq
    have hm := (h.slot q).mem
    rw [hA] at hs hm
    rw [Kernel.user_of_live hq, Kernel.user_of_live (hl.2 hq), userProcess_fields htf hpt,
      hm.userProcess_same hs]
  · rw [Kernel.user_of_not_live hq, Kernel.user_of_not_live fun hc => hq (hl.1 hc)]

/-- Work on the pages of slot `p`, as another process sees it. -/
theorem World.user_other (h : World k kpt A) {B : Set Nat} (hf : Frame k.mem k'.mem (A p).pages B)
    (hq : q ≠ p) (hp : k'.procs q = k.procs q) : k'.user q = k.user q :=
  h.user_same (by rw [hp]) (by rw [hp]) (by rw [hp]) (h.same_slot hf hq)

/-- Nobody's pages have changed. -/
theorem World.user_frame (h : World k kpt A) (hf : Frame k.mem k'.mem ∅ ∅)
    (hp : k'.procs q = k.procs q) : k'.user q = k.user q :=
  h.user_same (by rw [hp]) (by rw [hp]) (by rw [hp]) fun x hx => hf.same x (h.held q x hx) id

/-! ## Access -/

theorem access_iff (hn : need < 32) :
    Access m pt need va ↔ User m pt va ∧ Grants need (entryAt m pt va % 32) := by
  unfold Grants
  rw [← and_lt_32 hn]
  constructor
  · intro h
    refine ⟨h.user, ?_⟩
    rw [Access, Nat.or_comm] at h
    exact and_of_and_or h
  · rintro ⟨hu, hg⟩
    rw [User, Access, Nat.or_zero] at hu
    rw [Access, Nat.and_or_distrib_left, hu, hg]

theorem get_userMemory (hn : need < 32) (hva : va < 2 ^ 32) :
    Guarded.get (Grants need) (userMemory m pt) va =
      if Access m pt need va then some (byteAt m pt va) else none := by
  unfold Guarded.get userMemory
  by_cases hu : User m pt va
  · rw [if_pos ⟨hva, hu⟩, Option.bind_some]
    by_cases hg : Grants need (entryAt m pt va % 32)
    · rw [if_pos hg, if_pos ((access_iff hn).2 ⟨hu, hg⟩)]
    · rw [if_neg hg, if_neg fun hc => hg ((access_iff hn).1 hc).2]
  · rw [if_neg fun hc => hu hc.2, if_neg fun hc => hu hc.user]
    rfl

theorem isSome_get_userMemory (hn : need < 32) (hva : va < 2 ^ 32) :
    (Guarded.get (Grants need) (userMemory m pt) va).isSome = true ↔ Access m pt need va := by
  rw [get_userMemory hn hva]
  split_ifs with h
  · simp [h]
  · simp [h]

theorem mod_lt_32 (a : Nat) : a % 2 ^ 32 < 2 ^ 32 := Nat.mod_lt _ (by decide)

theorem writable_iff : (userMemory m pt).Writable va n ↔
    ∀ i < n, Access m pt PTE_W ((va + i) % 2 ^ 32) :=
  forall₂_congr fun _ _ => isSome_get_userMemory (by decide) (mod_lt_32 _)

/-! ## Storing -/

theorem Reach.guarded {len j : Nat} (h : Reach m pt PTE_W va len j) :
    Guarded.Reach (Grants PTE_W) (2 ^ 32) (userMemory m pt) va len j where
  le := h.le
  access i hi := (isSome_get_userMemory (by decide) (mod_lt_32 _)).2 (h.access i hi)
  stop hj := by
    rw [Bool.eq_false_iff]
    exact fun hc => h.stop hj ((isSome_get_userMemory (by decide) (mod_lt_32 _)).1 hc)

/-- **What `copyout` has written** is what is stored in the user's memory. -/
theorem userMemory_written {src : List UInt8} {j : Nat} (h : Holds L s.bytes sp)
    (hs : Shape L sp D) (h' : Holds L s'.bytes sp)
    (hr : Reach s.bytes (sp.root * 4096) PTE_W va src.length j)
    (hw : Written s s' (sp.root * 4096) va src j) (hlen : src.length < 2 ^ 32) :
    userMemory s'.bytes (sp.root * 4096) = (userMemory s.bytes (sp.root * 4096)).store va src := by
  have hsc := h.scattered hs
  have hphys : ∀ x, x / 4096 ∈ D →
      physical s.bytes (sp.root * 4096) x = sp.page (x / 4096) * 4096 + x % 4096 := by
    intro x hx
    have hlt := hs.lt hx
    rw [physical, h.entryAt_eq (by omega), hs.owns.pte2pa hx]
  funext x
  by_cases hx : ∃ i < j, x = (va + i) % 2 ^ 32
  · obtain ⟨i, hi, rfl⟩ := hx
    have hD := hs.mem_of_access h (mod_lt_32 _) (hr.access i hi)
    have hbyte := hw.at_va i hi
    rw [hphys _ hD] at hbyte
    rw [Memory.store, Guarded.store_at hr.guarded hlen.le hi, h.userMemory_of_mem hs hD,
      h'.userMemory_of_mem hs hD, Option.map_some, Space.byte, hbyte]
  · have hne : ∀ i < j, x ≠ (va + i) % 2 ^ 32 := fun i hi he => hx ⟨i, hi, he⟩
    rw [Memory.store, Guarded.store_other hr.guarded hne]
    by_cases hD : x / 4096 ∈ D
    · have hlt := hs.lt hD
      have hux : User s.bytes (sp.root * 4096) x := by
        have hm := h.userMemory_of_mem hs hD
        unfold userMemory at hm
        by_contra hc
        rw [if_neg fun hc' => hc hc'.2] at hm
        cases hm
      have hsame : s'.bytes (physical s.bytes (sp.root * 4096) x) =
          s.bytes (physical s.bytes (sp.root * 4096) x) := by
        refine hw.other _ fun i hi he => hne i hi ?_
        exact hsc.physical_inj (by omega) (mod_lt_32 _) hux (hr.access i hi).user he
      rw [hphys x hD] at hsame
      rw [h.userMemory_of_mem hs hD, h'.userMemory_of_mem hs hD, Space.byte, Space.byte, hsame]
    · rw [h.userMemory_of_not_mem hs hD, h'.userMemory_of_not_mem hs hD]

/-! ## Reading -/

theorem string_of_strAt {len max : Nat} (h : StrAt m pt va len) (hlen : len < max) :
    (userMemory m pt).string max va = some (bytesAt m pt va len) := by
  refine Guarded.string_eq (f := fun x => byteAt m pt (x % 2 ^ 32)) hlen (fun i hi => ?_) h.nul h.char
  rw [get_userMemory (by decide) (mod_lt_32 _), if_pos (h.access i hi)]

theorem word_of_readable {uargv i : Nat}
    (h : ∀ d < 4, Access m pt PTE_R ((uargv + 4 * i + d) % 2 ^ 32)) :
    (userMemory m pt).word (uargv + 4 * i) = some (argAt m pt uargv i) := by
  have hread : Guarded.read (Grants PTE_R) (2 ^ 32) (userMemory m pt) 4 (uargv + 4 * i) =
      some (Bytes.read (fun x => byteAt m pt (x % 2 ^ 32)) (uargv + 4 * i) 4) := by
    apply Guarded.read_eq
    intro d hd
    rw [get_userMemory (by decide) (mod_lt_32 _), if_pos (h d hd)]
  have hbytes : Bytes.read (fun x => byteAt m pt (x % 2 ^ 32)) (uargv + 4 * i) 4 =
      bytesAt m pt ((uargv + 4 * i) % 2 ^ 32) 4 := by
    refine List.map_congr_left fun d _ => ?_
    rw [Nat.mod_add_mod]
  rw [Memory.word, hread, hbytes, Option.map_some, argAt]

/-- The strings that `uargv` leads to. -/
def argStrings (m : Bytes) (pt uargv : Nat) (len : Nat → Nat) (i n : Nat) : List (List UInt8) :=
  (List.range' i n).map fun j => bytesAt m pt (argAt m pt uargv j) (len j)

theorem args_from {uargv cnt : Nat} {len : Nat → Nat} (h : ArgsAt m pt uargv cnt len)
    (hne : ∀ i < cnt, argAt m pt uargv i ≠ 0) {d i : Nat} (hi : i + d = cnt) {n : Nat} (hn : d ≤ n) :
    (userMemory m pt).args n (PAGE_SIZE - offset len i) (uargv + 4 * i) =
      some (argStrings m pt uargv len i d) := by
  induction d generalizing i n with
  | zero =>
      obtain rfl : i = cnt := by omega
      have hw := word_of_readable (h.readable i le_rfl)
      cases n <;> rw [Memory.args, hw, h.zero] <;> rfl
  | succ d ih =>
      obtain ⟨n, rfl⟩ : ∃ j, n = j + 1 := ⟨n - 1, by omega⟩
      have hlt : i < cnt := by omega
      have hw := word_of_readable (h.readable i hlt.le)
      have hoff : offset len (i + 1) ≤ PAGE_SIZE := (offset_mono len hlt).trans h.fits
      rw [offset] at hoff
      have hs : (userMemory m pt).string (PAGE_SIZE - offset len i) (argAt m pt uargv i) =
          some (bytesAt m pt (argAt m pt uargv i) (len i)) :=
        string_of_strAt (h.str i hlt) (by omega)
      have htail := ih (i := i + 1) (n := n) (by omega) (by omega)
      rw [offset, show uargv + 4 * (i + 1) = uargv + 4 * i + 4 by omega, Nat.sub_add_eq] at htail
      rw [Memory.args, hw]
      simp only [Option.bind_eq_bind, Option.bind_some, if_neg (hne i hlt), hs, length_bytesAt, htail]
      rfl

/-- **What `sys_exec` gathers** are the arguments that the process passes. -/
theorem args_of_argsAt {uargv cnt : Nat} {len : Nat → Nat} (h : ArgsAt m pt uargv cnt len)
    (hne : ∀ i < cnt, argAt m pt uargv i ≠ 0) :
    (userMemory m pt).args MAXARG PAGE_SIZE uargv =
      some ((List.range cnt).map fun i => bytesAt m pt (argAt m pt uargv i) (len i)) := by
  rw [List.range_eq_range']
  exact args_from h hne (i := 0) (by omega) h.le

end Wl00.Vm
