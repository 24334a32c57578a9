import Mathlib.Algebra.GroupWithZero.Nat
import Wl00.Space.Copy
import Wl00.Space.Gather

/-!
# How `kexec` pushes the arguments

`kexec` maps one page of stack and pushes the strings of `argv` from its top down, each at an
address that is a multiple of 16, and below them the array of their addresses.  `strAddr` says
where each string goes, and `Fits` that all of them have room in the page.

* `pushAll` — the strings in a memory of their own, in which the layout is studied.
* `mapStack_spec`, `mapStack_bytes` — a new page becomes the stack.
* `pushStrings_bytes`, `pushArgs_bytes` — what the stack holds, byte by byte.
-/

namespace Wl00.Vm

open Prog

variable {L : Layout} {s s' : Mem L} {sp : Space} {D : Set Nat}

/-! ## The layout -/

/-- The multiple of 16 that `n` bytes take. -/
def round16 (n : Nat) : Nat := (n + 15) / 16 * 16

theorem le_round16 (n : Nat) : n ≤ round16 n := by
  unfold round16
  omega

theorem round16_mod (n : Nat) : round16 n % 16 = 0 := Nat.mul_mod_left _ _

/-- What the strings take, each with its NUL. -/
def stackUse (strs : List (List UInt8)) : Nat := (strs.map fun l => round16 (l.length + 1)).sum

@[simp] theorem stackUse_nil : stackUse [] = 0 := rfl

@[simp] theorem stackUse_cons (l : List UInt8) (strs : List (List UInt8)) :
    stackUse (l :: strs) = round16 (l.length + 1) + stackUse strs := rfl

theorem stackUse_mod (strs : List (List UInt8)) : stackUse strs % 16 = 0 := by
  induction strs with
  | nil => rfl
  | cons l strs ih =>
      have := round16_mod (l.length + 1)
      rw [stackUse_cons]
      omega

theorem stackUse_take_succ {strs : List (List UInt8)} {i : Nat} (hi : i < strs.length) :
    stackUse (strs.take (i + 1)) = stackUse (strs.take i) + round16 (strs[i].length + 1) := by
  rw [List.take_succ_eq_append_getElem hi, stackUse, List.map_append, List.sum_append]
  rfl

theorem stackUse_take_le (strs : List (List UInt8)) {i j : Nat} (hij : i ≤ j) :
    stackUse (strs.take i) ≤ stackUse (strs.take j) := by
  induction hij with
  | refl => exact le_rfl
  | @step j _ ih =>
      by_cases hj : j < strs.length
      · rw [stackUse_take_succ hj]
        omega
      · have hall : strs.take (j + 1) = strs.take j := by
          rw [List.take_of_length_le (by omega), List.take_of_length_le (by omega)]
        rwa [Nat.succ_eq_add_one, hall]

theorem stackUse_take_le_all (strs : List (List UInt8)) (i : Nat) :
    stackUse (strs.take i) ≤ stackUse strs := by
  have := stackUse_take_le strs (Nat.le_max_left i strs.length)
  rwa [List.take_of_length_le (Nat.le_max_right i strs.length)] at this

/-- Where string `i` goes. -/
def strAddr (strs : List (List UInt8)) (i : Nat) : Nat :=
  USER_STACK_TOP - stackUse (strs.take (i + 1))

/-- Where the array goes, which has a word for each string and a 0. -/
def arrayAddr (strs : List (List UInt8)) : Nat :=
  USER_STACK_TOP - (stackUse strs + round16 ((strs.length + 1) * 4))

/-- There are at most `MAXARG` strings, and with the array they fit in the page. -/
def Fits (strs : List (List UInt8)) : Prop :=
  strs.length ≤ MAXARG ∧ stackUse strs + round16 ((strs.length + 1) * 4) ≤ PAGE_SIZE

instance (strs : List (List UInt8)) : Decidable (Fits strs) := inferInstanceAs (Decidable (_ ∧ _))

theorem pushDown_eq {u n : Nat} (hu : u % 16 = 0) (hle : u + n ≤ 0x10000) :
    pushDown (USER_STACK_TOP - u) n = USER_STACK_TOP - (u + round16 n) := by
  simp only [pushDown, round16, USER_STACK_TOP, TRAPFRAME, TRAMPOLINE, PAGE_SIZE]
  omega

/-- The strings `strs` are pushed below the first `u` bytes of the stack. -/
def pushAll (m : Bytes) (u : Nat) : List (List UInt8) → Bytes
  | [] => m
  | l :: strs => pushAll (m.write (USER_STACK_TOP - (u + round16 (l.length + 1))) (l ++ [0]))
      (u + round16 (l.length + 1)) strs

theorem pushAll_congr {m m' : Bytes} {x : Nat} (h : m x = m' x) (u : Nat)
    (strs : List (List UInt8)) : pushAll m u strs x = pushAll m' u strs x := by
  induction strs generalizing m m' u with
  | nil => exact h
  | cons l strs ih =>
      refine ih ?_ _
      rw [Bytes.write_apply, Bytes.write_apply, h]

/-! ## The image of the stack -/

/-- The words of the array. -/
def arrayWords (strs : List (List UInt8)) : List Nat :=
  (List.range strs.length).map (strAddr strs) ++ [0]

/-- What an empty stack holds after the arguments have been pushed. -/
def stackImage (strs : List (List UInt8)) : Bytes :=
  (pushAll (fun _ => 0) 0 strs).write (arrayAddr strs) ((arrayWords strs).flatMap Bytes.ofWord)

theorem length_arrayWords (strs : List (List UInt8)) : (arrayWords strs).length = strs.length + 1 := by
  rw [arrayWords, List.length_append, List.length_map, List.length_range, List.length_singleton]

/-- The array lies below the strings, and each string below those before it. -/
theorem Fits.layout {strs : List (List UInt8)} (h : Fits strs) : USER_STACK_TOP - PAGE_SIZE ≤ arrayAddr strs ∧
    arrayAddr strs + (strs.length + 1) * 4 ≤ USER_STACK_TOP - stackUse strs ∧
    (∀ i < strs.length, USER_STACK_TOP - stackUse strs ≤ strAddr strs i) ∧
    ∀ i, ∀ hi : i < strs.length,
      strAddr strs i + (strs[i].length + 1) ≤ USER_STACK_TOP - stackUse (strs.take i) := by
  obtain ⟨-, hfit⟩ := h
  have hr := le_round16 ((strs.length + 1) * 4)
  refine ⟨?_, ?_, fun i _ => ?_, fun i hi => ?_⟩
  · unfold arrayAddr
    omega
  · unfold arrayAddr
    simp only [USER_STACK_TOP, TRAPFRAME, TRAMPOLINE, PAGE_SIZE] at hfit ⊢
    omega
  · have := stackUse_take_le_all strs (i + 1)
    unfold strAddr
    omega
  · have hsucc := stackUse_take_succ hi
    have hle := stackUse_take_le_all strs (i + 1)
    have hri := le_round16 (strs[i].length + 1)
    unfold strAddr
    simp only [USER_STACK_TOP, TRAPFRAME, TRAMPOLINE, PAGE_SIZE] at hfit ⊢
    omega

/-! ## The page of the stack -/

/-- The space has a stack that the user can read and write. -/
structure HasStack (L : Layout) (s : Mem L) (sp : Space) (D : Set Nat) : Prop where
  holds : Holds L s.bytes sp
  shape : Shape L sp D
  held : Held s (sp.tables ∪ sp.frames D)
  mem : stackPage ∈ D
  flags : sp.pte stackPage % 32 = 23

theorem HasStack.access (h : HasStack L s sp D) {va : Nat} (hva : va / 4096 = stackPage) :
    Access s.bytes (sp.root * 4096) PTE_R va ∧ Access s.bytes (sp.root * 4096) PTE_W va := by
  have hlt : va < 2 ^ 32 := by
    simp only [stackPage] at hva
    omega
  constructor <;>
  · rw [Access, h.holds.entryAt_eq hlt, hva, and_lt_32 (by decide), h.flags]
    decide

theorem HasStack.byteAt_eq (h : HasStack L s sp D) {va : Nat} (hva : va / 4096 = stackPage) :
    byteAt s.bytes (sp.root * 4096) va = sp.byte s.bytes va :=
  h.holds.byteAt_eq h.shape.owns (by simp only [stackPage] at hva; omega) (hva ▸ h.mem)

theorem HasStack.physical_eq (h : HasStack L s sp D) {va : Nat} (hva : va / 4096 = stackPage) :
    physical s.bytes (sp.root * 4096) va = sp.page stackPage * 4096 + va % 4096 := by
  have hlt : va < 2 ^ 32 := by
    simp only [stackPage] at hva
    omega
  rw [physical, h.holds.entryAt_eq hlt, hva, h.shape.owns.pte2pa h.mem]

theorem HasStack.refl (h : HasStack L s sp D) :
    Frame s s {sp.page stackPage} {sp.page stackPage} :=
  .refl (by rintro _ rfl; exact h.held _ (.inr ⟨_, h.mem, rfl⟩))

/-- Work on the page of the stack. -/
theorem HasStack.touch (h : HasStack L s sp D)
    (hf : Frame s s' {sp.page stackPage} {sp.page stackPage}) : HasStack L s' sp D := by
  have hsub : ({sp.page stackPage} : Set Nat) ⊆ sp.frames D :=
    Set.singleton_subset_iff.2 ⟨_, h.mem, rfl⟩
  have hf' := hf.widen_self (fun q hq => h.held q (.inr hq)) hsub
  obtain ⟨hh, hd⟩ := h.holds.frame_user h.shape.owns h.held hf'
  exact ⟨hh, h.shape, hd, h.mem, h.flags⟩

/-- `copyout` to the stack, as the user sees it. -/
theorem copyout_stack {x : Nat} {src : List UInt8} (h : HasStack L s sp D) (hx : stackVa ≤ x)
    (hend : x + src.length ≤ USER_STACK_TOP) :
    wp (copyout (sp.root * 4096) x src) (fun r s' => r = 0 ∧
      Frame s s' {sp.page stackPage} {sp.page stackPage} ∧
      ∀ va, va / 4096 = stackPage →
        sp.byte s'.bytes va = Bytes.write (sp.byte s.bytes) x src va) s := by
  simp only [stackVa, USER_STACK_TOP, TRAPFRAME, TRAMPOLINE, PAGE_SIZE] at hx hend
  have hin : ∀ i < src.length, (x + i) % 2 ^ 32 = x + i ∧ (x + i) / 4096 = stackPage := by
    intro i hi
    simp only [stackPage]
    omega
  refine (copyout_bytes (h.holds.scattered h.shape) (by omega) (by omega)).mono fun r s' hr => ?_
  obtain ⟨k, hk, rfl, hw⟩ := hr
  have hkl : k = src.length := hk.eq_iff.2 fun i hi => by
    obtain ⟨he, hp⟩ := hin i hi
    rw [he]
    exact (h.access hp).2
  subst hkl
  have hphys : ∀ i < src.length, physical s.bytes (sp.root * 4096) ((x + i) % 2 ^ 32) =
      sp.page stackPage * 4096 + (x + i) % 4096 := by
    intro i hi
    obtain ⟨he, hp⟩ := hin i hi
    rw [he, h.physical_eq hp]
  have hmap : s' = s.mapBytes fun _ => s'.bytes := by
    have hb := hw.bitmap
    cases s'
    cases hb
    rfl
  refine ⟨if_pos rfl, ?_, fun va hva => ?_⟩
  · rw [hmap]
    refine frame_mapBytes (h.held _ (.inr ⟨_, h.mem, rfl⟩)) fun y hy => hw.other y fun i hi => ?_
    rw [hphys i hi]
    omega
  · rw [Space.byte, hva, Bytes.write_apply]
    by_cases hin' : x ≤ va ∧ va < x + src.length
    · have hat := hw.at_va (va - x) (by omega)
      rw [hphys _ (by omega), Nat.add_sub_cancel' hin'.1] at hat
      rw [if_pos hin', hat]
    · rw [if_neg hin', Space.byte, hva]
      refine hw.other _ fun i hi => ?_
      rw [hphys i hi]
      have := (hin i hi).2
      omega

/-! ## Mapping the stack -/

/-- The user space `sp`, which maps the pages `D`, has become `sp'`, which maps `D'`. -/
structure Becomes (s s' : Mem L) (sp sp' : Space) (D D' : Set Nat) : Prop where
  grows : sp.Grows sp'
  holds : Holds L s'.bytes sp'
  shape : Shape L sp' D'
  frame : Frame s s' (sp.tables ∪ sp.frames D) (sp'.tables ∪ sp'.frames D')

/-- A page that was free becomes the stack, with the bytes that it has. -/
theorem mapStack_spec {s₂ : Mem L} {q f : Nat} (h : Holds L s.bytes sp) (hs : Shape L sp D)
    (hh : Held s (sp.tables ∪ sp.frames D)) (hst : stackPage ∉ D) (hq : s.free q)
    (hf₂ : Frame s s₂ ∅ {q}) (hf : f < 1024) (hRU : (f ||| 1) / 2 % 2 = 1 ∧ (f ||| 1) / 16 % 2 = 1) :
    wp (mappage (sp.root * 4096) stackVa (q * 4096) f) (fun pte s₃ =>
      (pte = 0 ∧ s₃ = s₂ ∧ ∀ p, ¬s₂.free p) ∨
      (pte ≠ 0 ∧ ∃ sp', Becomes s s₃ sp sp' D (D ∪ {stackPage}) ∧
        sp'.pte stackPage % 1024 = f ||| 1 ∧
        (∀ o < 4096, s₃.bytes (sp'.page stackPage * 4096 + o) = s₂.bytes (q * 4096 + o)) ∧
        ∀ v ∈ D, sp'.pte v = sp.pte v ∧ SamePage s.bytes s₃.bytes (sp.page v))) s₂ := by
  have hql := hq.inRange.lt
  have hT : Held s sp.tables := fun p hp => hh p (.inl hp)
  have hz : sp.pte stackPage % 2 = 0 := by rw [hs.kernel _ hst, kernelPte_low (.inr rfl)]
  refine wp.mono (mappage_spec (v := stackPage) (h.frame hf₂ hT fun _ _ => id)
    (hf₂.held hT fun _ _ => id) (by decide) (by omega) hf hz) fun r s₃ hm => ?_
  rcases hm with hfull | ⟨hne, sp₂, hg, hpte, h₃, hf₃⟩
  · exact .inl hfull
  · have hfill : Filled s s₃ sp sp₂ stackPage (0 + 1) (fun _ => f)
        fun _ o => s₂.bytes (q * 4096 + o) :=
      (Filled.refl h hT stackPage _ _).succ (k := 0) hf hq hf₂ (fun _ _ => rfl) hg hpte h₃ hf₃
    obtain ⟨hsh, hfr, hold⟩ := hs.filled hh hfill
      (fun v hv => .inr (by rwa [Nat.zero_add, Ico_stack] at hv)) (fun v hv hm => by
        rw [Nat.zero_add, Ico_stack, Set.mem_singleton_iff] at hm
        exact hst (hm ▸ hv)) (fun _ _ => hRU)
    have hmem : stackPage ∈ Set.Ico stackPage (stackPage + (0 + 1)) := by
      rw [Nat.zero_add, Ico_stack]
      rfl
    rw [Nat.zero_add, Ico_stack] at hsh hfr
    exact .inr ⟨hne, sp₂, ⟨hg, h₃, hsh, hfr⟩, hfill.flags _ hmem, hfill.bytes _ hmem, hold⟩

/-- `kexec` maps an empty stack; `false` where there is no memory. -/
def mapStack (pt : Nat) : MemM L Bool := do
  let stack ← kalloc
  if stack = 0 then pure false
  else do
    memset stack 0 PAGE_SIZE
    let pte ← mappage pt stackVa stack (PTE_R ||| PTE_W ||| PTE_U)
    if pte = 0 then do
      kfree stack
      pure false
    else pure true

/-- **`kexec` maps an empty stack**, where there is memory. -/
theorem mapStack_bytes (h : Holds L s.bytes sp) (hs : Shape L sp D)
    (hh : Held s (sp.tables ∪ sp.frames D)) (hst : stackPage ∉ D) :
    wp (mapStack (sp.root * 4096)) (fun ok s' =>
      (ok = false ∧ Few s.free 1 ∧ Frame s s' ∅ ∅) ∨
      (ok = true ∧ ∃ sp', Becomes s s' sp sp' D (D ∪ {stackPage}) ∧ sp'.pte stackPage % 1024 = 23 ∧
        (∀ va, va / 4096 = stackPage → sp'.byte s'.bytes va = 0) ∧
        ∀ v ∈ D, sp'.pte v = sp.pte v ∧ SamePage s.bytes s'.bytes (sp.page v))) s := by
  unfold mapStack
  rw [wp_bind]
  refine (kalloc_spec s).mono fun stack s₁ hk => ?_
  rcases hk with ⟨rfl, rfl, hfull⟩ | ⟨q, rfl, hq, -, hf₁⟩
  · rw [if_pos rfl, wp_pure]
    exact .inl ⟨rfl, (Few.none hfull).mono (Nat.zero_le _), .refl fun _ => False.elim⟩
  have hql := hq.inRange.lt
  rw [if_neg (by omega), wp_bind, wp_memset, wp_bind]
  have hf₂ := hf₁.trans (frame_fill (hf₁.held' q rfl))
  refine wp.mono (mapStack_spec h hs hh hst hq hf₂ (by decide) (by decide)) fun r s₃ hm => ?_
  rcases hm with ⟨rfl, rfl, hfull⟩ | ⟨hne, sp₂, hbec, hfl, hbytes, hold⟩
  · rw [if_pos rfl, wp_bind]
    refine (kfree_spec hq.inRange (hf₂.held' q rfl)).mono fun _ s₄ hk => ?_
    have hfew := (Few.none hfull).of_footprint hf₂ (G := {q}) (by simp)
    rw [wp_pure]
    exact .inl ⟨rfl, hfew, hf₂.trans hk.1⟩
  · rw [if_neg hne, wp_pure]
    refine .inr ⟨rfl, sp₂, hbec, hfl, fun va hva => ?_, hold⟩
    rw [Space.byte, hva, hbytes _ (Nat.mod_lt _ (by decide)), Mem.bytes_mapBytes,
      Bytes.fill_apply, if_pos (by simp only [PAGE_SIZE]; omega)]

/-! ## Pushing the strings -/

/-- **The strings are pushed**, iff there are not too many and they fit; the stack then has
them at their places. -/
theorem pushStrings_bytes {argv : List Nat} {strs : List (List UInt8)} {argc u : Nat}
    (h : HasStack L s sp D) (hargs : Argv s {sp.page stackPage} argv strs)
    (hlen : ∀ l ∈ strs, l.length < 4096) (hu : u % 16 = 0) (hle : u ≤ PAGE_SIZE)
    (hargc : argc ≤ MAXARG) :
    wp (pushStrings (sp.root * 4096) argv argc (USER_STACK_TOP - u)) (fun r s' =>
      Frame s s' {sp.page stackPage} {sp.page stackPage} ∧
      ((r = none ∧ ¬(argc + strs.length ≤ MAXARG ∧ u + stackUse strs ≤ PAGE_SIZE)) ∨
      (argc + strs.length ≤ MAXARG ∧ u + stackUse strs ≤ PAGE_SIZE ∧
        r = some (USER_STACK_TOP - (u + stackUse strs), (List.range strs.length).map fun i =>
          USER_STACK_TOP - (u + stackUse (strs.take (i + 1)))) ∧
        ∀ va, va / 4096 = stackPage →
          sp.byte s'.bytes va = pushAll (sp.byte s.bytes) u strs va))) s := by
  induction strs generalizing s argv argc u with
  | nil =>
      cases hargs
      rw [pushStrings, wp_pure]
      exact ⟨h.refl, .inr ⟨hargc, hle, rfl, fun _ _ => rfl⟩⟩
  | cons l strs ih =>
      obtain ⟨a, argv, ⟨hstr, -⟩, hrest, rfl⟩ := List.forall₂_cons_right_iff.1 hargs
      have hl := hlen l List.mem_cons_self
      rw [pushStrings]
      by_cases hmax : argc ≥ MAXARG
      · rw [if_pos hmax, wp_pure]
        refine ⟨h.refl, .inl ⟨rfl, fun hc => ?_⟩⟩
        have := hc.1
        rw [List.length_cons] at this
        omega
      rw [if_neg hmax, wp_bind]
      refine (hstr.strlen hl).mono fun n s₁ hn => ?_
      obtain ⟨rfl, rfl⟩ := hn
      simp only [PAGE_SIZE] at hle
      have hpd := pushDown_eq (n := l.length + 1) hu (by omega)
      have hrd := le_round16 (l.length + 1)
      have hrm := round16_mod (l.length + 1)
      dsimp only
      rw [hpd]
      obtain ⟨r, hr⟩ : ∃ r, round16 (l.length + 1) = r := ⟨_, rfl⟩
      rw [hr] at hrd hrm ⊢
      by_cases hfit : USER_STACK_TOP - (u + r) < stackVa
      · rw [if_pos hfit, wp_pure]
        refine ⟨h.refl, .inl ⟨rfl, fun hc => ?_⟩⟩
        have h2 := hc.2
        rw [stackUse_cons, hr] at h2
        simp only [stackVa, USER_STACK_TOP, TRAPFRAME, TRAMPOLINE, PAGE_SIZE] at hfit h2
        omega
      rw [if_neg hfit, wp_bind, wp_get, wp_bind, hstr.bytes]
      have hend : USER_STACK_TOP - (u + r) + (l ++ [0]).length ≤ USER_STACK_TOP := by
        rw [List.length_append, List.length_singleton]
        simp only [stackVa, USER_STACK_TOP, TRAPFRAME, TRAMPOLINE, PAGE_SIZE] at hfit ⊢
        omega
      refine (copyout_stack h (Nat.not_lt.1 hfit) hend).mono fun ret s₂ hc => ?_
      obtain ⟨rfl, hf₂, hbytes⟩ := hc
      rw [if_neg (by decide), wp_bind]
      have hle' : u + r ≤ PAGE_SIZE := by
        simp only [stackVa, USER_STACK_TOP, TRAPFRAME, TRAMPOLINE, PAGE_SIZE] at hfit ⊢
        omega
      refine (ih (h.touch hf₂) (Argv.frame hrest hf₂) (fun l' hl' => hlen l' (List.mem_cons_of_mem _ hl'))
        (by omega) hle' (by omega)).mono fun r' s₃ hr' => ?_
      obtain ⟨hf₃, hr'⟩ := hr'
      rw [stackUse_cons, hr, List.length_cons, ← Nat.add_assoc u r, Nat.add_comm strs.length,
        ← Nat.add_assoc argc]
      rcases hr' with ⟨rfl, hno⟩ | ⟨h1, h2, rfl, hview⟩
      · rw [wp_pure]
        exact ⟨hf₂.trans hf₃, .inl ⟨rfl, hno⟩⟩
      · rw [wp_pure]
        refine ⟨hf₂.trans hf₃, .inr ⟨h1, h2, ?_, fun va hva => ?_⟩⟩
        · rw [Nat.add_comm 1, List.range_succ_eq_map, List.map_cons, List.map_map]
          simp only [List.take_succ_cons, List.take_zero, stackUse_cons, stackUse_nil, hr,
            Function.comp_def, Nat.succ_eq_add_one, Nat.add_zero, Nat.add_assoc]
        · rw [hview va hva, pushAll, hr]
          exact pushAll_congr (hbytes va hva) _ _

/-- `kexec` pushes the arguments: the stack pointer, or `none`. -/
def pushArgs (pt : Nat) (argv : List Nat) : MemM L (Option Nat) := do
  match ← pushStrings pt argv 0 USER_STACK_TOP with
  | none => pure none
  | some (sp, ustack) => do
      let sp := pushDown sp ((argv.length + 1) * 4)
      if sp < stackVa then pure none
      else do
        let r ← copyout pt sp ((ustack ++ [0]).flatMap Bytes.ofWord)
        if r < 0 then pure none else pure (some sp)

theorem buildStack_eq (pt : Nat) (argv : List Nat) : (buildStack pt argv : MemM L _) =
    mapStack pt >>= fun ok => if ok = true then pushArgs pt argv else pure none := by
  unfold buildStack mapStack
  rw [bind_assoc]
  congr 1
  funext stack
  split_ifs
  · rfl
  · rw [bind_assoc]
    congr 1
    funext _
    rw [bind_assoc]
    congr 1
    funext pte
    split_ifs
    · rw [bind_assoc]
      rfl
    · rfl

/-- **`pushArgs` succeeds iff the arguments fit**, and then an empty stack has become their
image. -/
theorem pushArgs_bytes {argv : List Nat} {strs : List (List UInt8)} (h : HasStack L s sp D)
    (hargs : Argv s {sp.page stackPage} argv strs) (hlen : ∀ l ∈ strs, l.length < 4096)
    (hz : ∀ va, va / 4096 = stackPage → sp.byte s.bytes va = 0) :
    wp (pushArgs (sp.root * 4096) argv) (fun r s' =>
      Frame s s' {sp.page stackPage} {sp.page stackPage} ∧
      ((r = none ∧ ¬Fits strs) ∨ (r = some (arrayAddr strs) ∧ Fits strs ∧
        ∀ va, va / 4096 = stackPage → sp.byte s'.bytes va = stackImage strs va))) s := by
  have hcount : argv.length = strs.length := List.Forall₂.length_eq hargs
  unfold pushArgs
  rw [wp_bind]
  refine wp.mono (pushStrings_bytes (u := 0) h hargs hlen rfl (Nat.zero_le _) (Nat.zero_le _))
    fun o s₁ ho => ?_
  obtain ⟨hf₁, ho⟩ := ho
  simp only [Nat.zero_add] at ho
  rcases ho with ⟨rfl, hno⟩ | ⟨hmax, hfit, rfl, hview⟩
  · rw [wp_pure]
    exact ⟨hf₁, .inl ⟨rfl, fun hc => hno ⟨hc.1, le_trans (Nat.le_add_right _ _) hc.2⟩⟩⟩
  dsimp only
  have hpd : pushDown (USER_STACK_TOP - stackUse strs) ((argv.length + 1) * 4) = arrayAddr strs := by
    rw [hcount, arrayAddr]
    exact pushDown_eq (stackUse_mod strs) (by simp only [PAGE_SIZE, MAXARG] at hfit hmax; omega)
  rw [hpd]
  by_cases hroom : arrayAddr strs < stackVa
  · rw [if_pos hroom, wp_pure]
    refine ⟨hf₁, .inl ⟨rfl, fun hc => ?_⟩⟩
    have := hc.layout.1
    simp only [stackVa] at hroom
    omega
  rw [if_neg hroom, wp_bind]
  have hall : Fits strs := by
    refine ⟨hmax, ?_⟩
    simp only [arrayAddr, stackVa, USER_STACK_TOP, TRAPFRAME, TRAMPOLINE, PAGE_SIZE] at hroom ⊢
    omega
  have hwords : (List.range strs.length).map (fun i => USER_STACK_TOP - stackUse (strs.take (i + 1))) ++
      [0] = arrayWords strs := rfl
  rw [hwords]
  have hend : arrayAddr strs + ((arrayWords strs).flatMap Bytes.ofWord).length ≤ USER_STACK_TOP := by
    have := hall.layout.2.1
    rw [Bytes.length_flatMap_ofWord, length_arrayWords]
    omega
  refine (copyout_stack (h.touch hf₁) (Nat.not_lt.1 hroom) hend).mono fun r s₂ hc => ?_
  obtain ⟨rfl, hf₂, hbytes⟩ := hc
  rw [if_neg (by decide), wp_pure]
  refine ⟨hf₁.trans hf₂, .inr ⟨rfl, hall, fun va hva => ?_⟩⟩
  rw [hbytes va hva, stackImage, Bytes.write_apply, Bytes.write_apply, hview va hva]
  exact if_congr Iff.rfl rfl (pushAll_congr (hz va hva) 0 strs)

end Wl00.Vm
