import Mathlib
import Wl00.Space.Calls

/-!
# The argument stack that `exec` builds

`kexec` leaves the image of the arguments on the stack of the new program (`stackImage`).  Here
it is taken apart into what the program finds there.

* `ArgStack` — the array, the strings and the zeros around them.
* `ArgStack.of_image` — the image is such a stack.
* `kexec_stack` — when `kexec` succeeds, and what the new program finds.
-/

namespace Wl00.Vm

open Prog
open Sched (Slot)

variable {L : Layout} {s s' : Mem L} {sp : Space} {D : Set Nat}

/-! ## The strings -/

/-- Nothing is pushed above. -/
theorem pushAll_of_ge {m : Bytes} {u x : Nat} {strs : List (List UInt8)}
    (hfit : u + stackUse strs ≤ PAGE_SIZE) (hx : USER_STACK_TOP - u ≤ x) :
    pushAll m u strs x = m x := by
  induction strs generalizing m u with
  | nil => rfl
  | cons l strs ih =>
      rw [stackUse_cons] at hfit
      have := le_round16 (l.length + 1)
      simp only [USER_STACK_TOP, TRAPFRAME, TRAMPOLINE, PAGE_SIZE] at hfit hx
      rw [pushAll, ih (by simp only [PAGE_SIZE]; omega)
        (by simp only [USER_STACK_TOP, TRAPFRAME, TRAMPOLINE, PAGE_SIZE]; omega)]
      refine Bytes.write_of_ge ?_
      rw [List.length_append, List.length_singleton]
      simp only [USER_STACK_TOP, TRAPFRAME, TRAMPOLINE, PAGE_SIZE]
      omega

/-- String `i` is where it was pushed. -/
theorem pushAll_at {m : Bytes} {u i j : Nat} {strs : List (List UInt8)}
    (hfit : u + stackUse strs ≤ PAGE_SIZE) (hi : i < strs.length) (hj : j ≤ strs[i].length) :
    pushAll m u strs (USER_STACK_TOP - (u + stackUse (strs.take (i + 1))) + j) =
      (strs[i] ++ [0]).getD j 0 := by
  induction strs generalizing m u i with
  | nil => cases hi
  | cons l strs ih =>
      rw [stackUse_cons, ← Nat.add_assoc] at hfit
      cases i with
      | zero =>
          have hlen : (l ++ [0]).length = l.length + 1 := by simp
          rw [List.getElem_cons_zero] at hj ⊢
          rw [List.take_succ_cons, List.take_zero, stackUse_cons, stackUse_nil, Nat.add_zero,
            pushAll, pushAll_of_ge hfit (Nat.le_add_right _ _), Bytes.write_apply, hlen,
            if_pos (by omega), Nat.add_sub_cancel_left]
      | succ i =>
          rw [List.getElem_cons_succ] at hj ⊢
          rw [List.take_succ_cons, stackUse_cons, ← Nat.add_assoc, pushAll]
          exact ih hfit (Nat.lt_of_succ_lt_succ hi) hj

/-- Nothing else is pushed. -/
theorem pushAll_of_ne {m : Bytes} {u x : Nat} {strs : List (List UInt8)}
    (hx : ∀ i, ∀ hi : i < strs.length, x < USER_STACK_TOP - (u + stackUse (strs.take (i + 1))) ∨
      USER_STACK_TOP - (u + stackUse (strs.take (i + 1))) + (strs[i].length + 1) ≤ x) :
    pushAll m u strs x = m x := by
  induction strs generalizing m u with
  | nil => rfl
  | cons l strs ih =>
      rw [pushAll, ih fun i hi => ?_]
      · have h0 := hx 0 (Nat.succ_pos _)
        rw [List.take_succ_cons, List.take_zero, stackUse_cons, stackUse_nil, Nat.add_zero,
          List.getElem_cons_zero] at h0
        rw [Bytes.write_apply, if_neg]
        rw [List.length_append, List.length_singleton]
        omega
      · have hi' := hx (i + 1) (Nat.succ_lt_succ hi)
        rwa [List.take_succ_cons, stackUse_cons, ← Nat.add_assoc, List.getElem_cons_succ] at hi'

/-! ## The image -/

section Image

variable {strs : List (List UInt8)} {x : Nat}

theorem stackImage_array {i j : Nat} (hi : i ≤ strs.length) (hj : j < 4) :
    stackImage strs (arrayAddr strs + (4 * i + j)) =
      (Bytes.ofWord ((arrayWords strs).getD i 0)).getD j 0 := by
  rw [stackImage, Bytes.write_apply, Bytes.length_flatMap_ofWord, length_arrayWords,
    if_pos (by omega), Nat.add_sub_cancel_left, Bytes.getD_flatMap_ofWord _ hj]
  rw [length_arrayWords]
  omega

theorem stackImage_above (hx : arrayAddr strs + (strs.length + 1) * 4 ≤ x) :
    stackImage strs x = pushAll (fun _ => 0) 0 strs x := by
  rw [stackImage, Bytes.write_of_ge]
  rw [Bytes.length_flatMap_ofWord, length_arrayWords]
  omega

theorem stackImage_str (h : Fits strs) {i j : Nat} (hi : i < strs.length)
    (hj : j ≤ strs[i].length) :
    stackImage strs (strAddr strs i + j) = (strs[i] ++ [0]).getD j 0 := by
  obtain ⟨-, harr, hstr, -⟩ := h.layout
  have hs := hstr i hi
  have hfit := h.2
  rw [stackImage_above (by omega)]
  have := pushAll_at (m := fun _ => 0) (u := 0) (by omega) hi hj
  rwa [Nat.zero_add] at this

theorem stackImage_rest {x : Nat} (ha : x < arrayAddr strs ∨ arrayAddr strs + (strs.length + 1) * 4 ≤ x)
    (hs : ∀ i, ∀ hi : i < strs.length,
      x < strAddr strs i ∨ strAddr strs i + (strs[i].length + 1) ≤ x) : stackImage strs x = 0 := by
  rw [stackImage, Bytes.write_apply, Bytes.length_flatMap_ofWord, length_arrayWords,
    if_neg (by omega)]
  refine pushAll_of_ne fun i hi => ?_
  rw [Nat.zero_add]
  exact hs i hi

end Image

/-! ## What the program finds -/

/-- **The argument stack**, as it is seen through the table at `pt` with the stack pointer
`x`: an array of the addresses of the strings with a 0 at its end, the strings, and zeros. -/
structure ArgStack (m : Bytes) (pt x : Nat) (strs : List (List UInt8)) : Prop where
  aligned : x % 16 = 0
  range : USER_STACK_TOP - PAGE_SIZE ≤ x ∧ x < USER_STACK_TOP
  access : ∀ va, USER_STACK_TOP - PAGE_SIZE ≤ va → va < USER_STACK_TOP →
    Access m pt PTE_R va ∧ Access m pt PTE_W va
  array : ∀ i < strs.length, argAt m pt x i = strAddr strs i
  null : argAt m pt x strs.length = 0
  str : ∀ i, ∀ hi : i < strs.length,
    bytesAt m pt (strAddr strs i) (strs[i].length + 1) = strs[i] ++ [0]
  below : ∀ i < strs.length, x + (strs.length + 1) * 4 ≤ strAddr strs i
  apart : ∀ i j, i < j → ∀ hj : j < strs.length,
    strAddr strs j + (strs[j].length + 1) ≤ strAddr strs i
  within : ∀ i, ∀ hi : i < strs.length, strAddr strs i + (strs[i].length + 1) ≤ USER_STACK_TOP
  rest : ∀ va, USER_STACK_TOP - PAGE_SIZE ≤ va → va < USER_STACK_TOP →
    (va < x ∨ x + (strs.length + 1) * 4 ≤ va) →
    (∀ i, ∀ hi : i < strs.length, va < strAddr strs i ∨ strAddr strs i + (strs[i].length + 1) ≤ va) →
    byteAt m pt va = 0

theorem stackPage_iff {va : Nat} : va / 4096 = stackPage ↔
    USER_STACK_TOP - PAGE_SIZE ≤ va ∧ va < USER_STACK_TOP := by
  simp only [stackPage, USER_STACK_TOP, TRAPFRAME, TRAMPOLINE, PAGE_SIZE]
  omega

theorem ArgStack.of_image {strs : List (List UInt8)} (h : HasStack L s sp D) (hfit : Fits strs)
    (himg : ∀ va, va / 4096 = stackPage → sp.byte s.bytes va = stackImage strs va) :
    ArgStack s.bytes (sp.root * 4096) (arrayAddr strs) strs := by
  obtain ⟨hlow, harr, hstr, hend⟩ := hfit.layout
  have hbyte : ∀ va, USER_STACK_TOP - PAGE_SIZE ≤ va → va < USER_STACK_TOP →
      byteAt s.bytes (sp.root * 4096) va = stackImage strs va := by
    intro va h1 h2
    have hp := stackPage_iff.2 ⟨h1, h2⟩
    rw [h.byteAt_eq hp, himg va hp]
  have hmod : ∀ va, va < USER_STACK_TOP → va % 2 ^ 32 = va := by
    intro va hva
    simp only [USER_STACK_TOP, TRAPFRAME, TRAMPOLINE, PAGE_SIZE] at hva
    omega
  have hword : ∀ i ≤ strs.length, (arrayWords strs).getD i 0 < 2 ^ 32 →
      argAt s.bytes (sp.root * 4096) (arrayAddr strs) i = (arrayWords strs).getD i 0 := by
    intro i hi hlt
    refine Bytes.word_of_bytes hlt fun j hj => ?_
    rw [← stackImage_array hi hj, ← hbyte _ (by omega) (by omega), Nat.zero_add, bytesAt]
    simp only [List.getD, List.getElem?_map, List.getElem?_range hj, Option.map_some,
      Option.getD_some]
    rw [Nat.mod_add_mod, Nat.add_assoc, hmod _ (by omega)]
  refine ⟨?_, ⟨hlow, by omega⟩, fun va h1 h2 => h.access (stackPage_iff.2 ⟨h1, h2⟩), fun i hi => ?_,
    ?_, fun i hi => ?_, fun i hi => ?_, fun i j hij hj => ?_, fun i hi => ?_, fun va h1 h2 ha hs => ?_⟩
  · have h1 := stackUse_mod strs
    have h2 := round16_mod ((strs.length + 1) * 4)
    have h3 := hfit.2
    simp only [arrayAddr, USER_STACK_TOP, TRAPFRAME, TRAMPOLINE, PAGE_SIZE] at h3 ⊢
    omega
  · have hget : (arrayWords strs).getD i 0 = strAddr strs i := by
      simp [arrayWords, List.getD, List.getElem?_append_left, hi]
    rw [hword i hi.le, hget]
    rw [hget]
    exact lt_of_le_of_lt (Nat.sub_le _ _) (by decide)
  · have hget : (arrayWords strs).getD strs.length 0 = 0 := by
      simp [arrayWords, List.getD]
    rw [hword _ le_rfl, hget]
    rw [hget]
    decide
  · have hin := hend i hi
    have hs := hstr i hi
    apply List.ext_getElem
    · simp
    · intro j h1 h2
      rw [length_bytesAt] at h1
      simp only [bytesAt, List.getElem_map, List.getElem_range]
      rw [hmod _ (by omega), hbyte _ (by omega) (by omega), stackImage_str hfit hi (by omega),
        List.getD, List.getElem?_eq_getElem h2, Option.getD_some]
  · have := hstr i hi
    omega
  · have hin := hend j hj
    have hle := stackUse_take_le strs (show i + 1 ≤ j from hij)
    rw [strAddr] at hin ⊢
    rw [strAddr]
    omega
  · have := hend i hi
    omega
  · rw [hbyte va h1 h2]
    exact stackImage_rest ha hs

/-! ## The arguments of the new program -/

variable {k : Kernel L} {p : Slot} {progs : Programs}

theorem length_lt_of_sum {strs : List (List UInt8)}
    (h : (strs.map fun l => l.length + 1).sum ≤ PAGE_SIZE) : ∀ l ∈ strs, l.length < 4096 := by
  intro l hl
  have : l.length + 1 ≤ (strs.map fun l => l.length + 1).sum :=
    List.le_sum_of_mem (List.mem_map_of_mem hl)
  simp only [PAGE_SIZE] at h
  omega

/-- **`kexec` builds a correct argument stack.**  `argv` are strings in memory that is in use,
with at most `PAGE_SIZE` bytes together, and the program has been loaded beside the old one.
`kexec` succeeds iff there are at most `MAXARG` strings and their layout fits in the page of
the stack.  It then returns their number, and the new program finds them: `sp` and `a1` are
the address of an array of their addresses. -/
theorem kexec_stack {t ks pt : Nat} {D : Set Nat} {path : List UInt8} {argv : List Nat}
    {strs : List (List UInt8)} {r : Loaded}
    (hm : SlotMem L k.mem.bytes (k.procs p) ⟨some t, some ks, some (sp, D)⟩)
    (hh : Held k.mem (Assets.pages ⟨some t, some ks, some (sp, D)⟩))
    (hprep : prepare progs path k.mem = .ok (some (pt, r), s))
    (hargs : List.Forall₂ (KernelStr k.mem) argv strs)
    (htotal : (strs.map fun l => l.length + 1).sum ≤ PAGE_SIZE) :
    ∃ ret k', kexec progs p path argv k = .ok (ret, k') ∧ (ret ≠ -1 ↔ Fits strs) ∧
      (ret ≠ -1 → ret = argv.length ∧ (k'.procs p).pt = pt ∧
        ∃ x, k'.mem.bytes.word ((k'.procs p).tf + regOff 2) = x ∧
          k'.mem.bytes.word ((k'.procs p).tf + regOff 11) = x ∧
          ArgStack k'.mem.bytes pt x strs) := by
  obtain ⟨sp', img, rfl, -, hpr⟩ := (prepare_spec progs path k.mem).of_run hprep
  have hwp : wp (kexec progs p path argv) (fun ret k' =>
      (ret = -1 ∧ ¬Fits strs ∧ Untouched k k') ∨
      (ret = argv.length ∧ Fits strs ∧ Started k k' p t ks (some (sp, D)) img strs sp' r.sz)) k := by
    rw [kexec_eq, wp_bind, wp_onMem]
    exact wp_iff.2 ⟨_, _, hprep, kexecArgs_spec hm hh hpr hargs (length_lt_of_sum htotal)⟩
  obtain ⟨ret, k', hrun, ⟨rfl, hno, -⟩ | ⟨rfl, hfit, hs⟩⟩ := wp_iff.1 hwp
  · exact ⟨_, k', hrun, ⟨fun h => absurd rfl h, fun h => absurd h hno⟩, fun h => absurd rfl h⟩
  · have hx := hs.execed
    have hst := hs.installed.hasStack fun q hq => hx.frame.held' q (.inl (.inr hq))
    have hword : ∀ i, i = 2 ∨ i = 11 →
        k'.mem.bytes.word ((k'.procs p).tf + regOff i) = arrayAddr strs := by
      intro i hi
      have hlt : arrayAddr strs < 2 ^ 32 := lt_of_le_of_lt (Nat.sub_le _ _) (by decide)
      rw [show (k'.procs p).tf = t * 4096 from hx.mem.tf_eq,
        hs.words.word (by simp only [regOff]; omega), word_execWords_reg, if_pos hi,
        Nat.mod_eq_of_lt hlt]
    exact ⟨_, k', hrun, ⟨fun _ => hfit, fun _ => by omega⟩, fun _ => ⟨rfl, hx.mem.pt_eq, _,
      hword 2 (.inl rfl), hword 11 (.inr rfl), .of_image hst hfit hs.installed.stack⟩⟩

/-- The first process of the small machine becomes its own program again, with the argument
`hi`. -/
theorem kexec_stack_tiny : ∃ (k k' : Kernel tinyLayout) (p : Slot) (pt x : Nat),
    kexec tinyPrograms p (cstr "init") [MEM_START] k = .ok (1, k') ∧
      ArgStack k'.mem.bytes pt x [[0x68, 0x69]] := by
  obtain ⟨k₀, p, hr, hrun, hsz, halone⟩ := tiny_runs
  obtain ⟨kpt, A, hw⟩ := world_reachable hr
  have hl : (k₀.procs p).Live := .inr (.inl hrun)
  obtain ⟨t, ks, sp, hA, -, -, -, -⟩ := hw.space hl
  have hm := (hw.slot p).mem
  have hh := hw.held p
  rw [hA] at hm hh
  -- the string is in the first page of the kernel, which is never free
  let k : Kernel tinyLayout := { k₀ with mem := k₀.mem.mapBytes (·.write MEM_START [0x68, 0x69, 0]) }
  have hm' : SlotMem tinyLayout k.mem.bytes (k.procs p)
      ⟨some t, some ks, some (sp, userDom (k₀.procs p).sz)⟩ := by
    refine hm.congr fun q hq o ho => ?_
    have hlt := ((hm.space sp _ rfl).holds.in_range q hq).lt
    exact Bytes.write_of_ge (by simp only [MEM_START, List.length_cons, List.length_nil]; omega)
  have hroomy : Roomy tinyImage k.mem.free 1025 := by
    have hfew : ∀ n ≤ 10000, ¬Few k.mem.free n := fun n hn hf =>
      not_few_tiny (by rw [hsz]; omega) (hw.few_of_alone hl halone hf)
    refine ⟨fun j hj => ?_, ?_⟩
    · have hnum : (readElfHdr tinyImage.bytes).phnum = 1 := by decide
      obtain rfl : j = 0 := by omega
      rw [show (phdr tinyImage 0).fin = 0x1008 by decide]
      exact hfew _ (by decide)
    · rw [imageEnd_tiny]
      exact hfew _ (by decide)
  obtain ⟨o, s, hprep, ho⟩ := wp_iff.1 (prepare_spec tinyPrograms (cstr "init") k.mem)
  cases o with
  | none => exact absurd ⟨tinyImage_accepts, hroomy⟩ (ho.2 _ (findProgram_init _))
  | some o =>
      obtain ⟨pt, r⟩ := o
      have hstr : KernelStr k.mem MEM_START [0x68, 0x69] := by
        refine ⟨by decide, ?_, fun i hi hf => ?_⟩
        · exact Bytes.read_write [0x68, 0x69, 0]
        · have hlt := hf.inRange.lt
          simp only [List.length_cons, List.length_nil, MEM_START, PAGE_SIZE] at hi hlt
          omega
      have hargs : List.Forall₂ (KernelStr k.mem) [MEM_START] [[0x68, 0x69]] := .cons hstr .nil
      obtain ⟨ret, k', hrun', hiff, hret⟩ := kexec_stack hm' hh hprep hargs (by decide)
      obtain ⟨rfl, -, x, -, -, hst⟩ := hret (hiff.2 (by decide))
      exact ⟨k, k', p, pt, x, hrun', hst⟩

end Wl00.Vm
