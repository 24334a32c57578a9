import Mathlib.Data.List.Forall2
import Wl00.Space.Bytewise
import Wl00.Space.Slots

/-!
# How `sys_exec` gathers its arguments

`sys_exec` copies the path and the strings of the caller before it calls `kexec`.
`execArgsLog` is the part of it up to that call, with a record of every element of `path`,
`argv` and `buf` that it writes; `sysExec_eq` says that nothing is left out.

The caller's table is arbitrary, but its pages are in use (`Caller`): what the kernel then
writes to the page that it takes from `kalloc` is none of the caller's.

* `gatherArgsLog_spec` — the loop over `uargv`.
* `Passed.strings` — what has been gathered are strings in the kernel's memory.
* `sysExec_gathers` — when `kexec` is called, and with what.
-/

namespace Wl00.Vm

open Prog
open Sched (Slot)

variable {L : Layout} {s s' : Mem L} {pt va b : Nat}

/-! ## The caller -/

/-- The pages of the table at `pt`, and the user pages in it, are in use. -/
structure Caller (s : Mem L) (pt : Nat) : Prop where
  pool : InPool L s.bytes pt
  aligned : pt % PAGE_SIZE = 0
  root : ¬s.free (pt / PAGE_SIZE)
  table : ∀ i < 1024, rootEntry s.bytes pt i % 2 = 1 →
    ¬s.free (pte2pa (rootEntry s.bytes pt i) / PAGE_SIZE)
  held : ∀ va < 2 ^ 32, User s.bytes pt va → ¬s.free (pte2pa (entryAt s.bytes pt va) / PAGE_SIZE)

/-- The user sees the same memory. -/
structure SameUser (m m' : Bytes) (pt : Nat) : Prop where
  entry : ∀ va < 2 ^ 32, entryAt m' pt va = entryAt m pt va
  byte : ∀ va < 2 ^ 32, User m pt va → byteAt m' pt va = byteAt m pt va

/-- Nothing but page `b` has changed. -/
def OnlyPage (m m' : Bytes) (b : Nat) : Prop := ∀ x, x / 4096 ≠ b → m' x = m x

theorem OnlyPage.write {m m' : Bytes} (h : OnlyPage m m' b) {o : Nat} {l : List UInt8}
    (hl : o + l.length ≤ 4096) : OnlyPage m (m'.write (b * 4096 + o) l) b := by
  intro x hx
  rw [Bytes.write_apply, if_neg (by omega)]
  exact h x hx

/-- What is written to a page that was free is not seen by the user. -/
theorem Caller.sameUser {m' : Bytes} (h : Caller s pt) (hb : s.free b)
    (hm : OnlyPage s.bytes m' b) : SameUser s.bytes m' pt := by
  have hword : ∀ p j, ¬s.free p → j < 1024 → m'.word (p * 4096 + 4 * j) =
      s.bytes.word (p * 4096 + 4 * j) := by
    intro p j hp hj
    refine Bytes.word_congr fun i hi => hm _ ?_
    rintro rfl
    refine hp ?_
    rwa [show (p * 4096 + 4 * j + i) / 4096 = p by omega] at hb
  have hroot : ∀ i < 1024, rootEntry m' pt i = rootEntry s.bytes pt i := by
    intro i hi
    have := hword (pt / 4096) i h.root hi
    rwa [Nat.div_mul_cancel (Nat.dvd_of_mod_eq_zero h.aligned)] at this
  have hentry : ∀ va < 2 ^ 32, entryAt m' pt va = entryAt s.bytes pt va := by
    intro va hva
    have hi : va / 4096 / 1024 < 1024 := by omega
    rw [entryAt, entryAt, pteAddr_eq hva, pteAddr_eq hva, hroot _ hi]
    by_cases hv : rootEntry s.bytes pt (va / 4096 / 1024) % 2 = 1
    · have hpa := pte2pa_eq (rootEntry s.bytes pt (va / 4096 / 1024))
      have := hword (pte2pa (rootEntry s.bytes pt (va / 4096 / 1024)) / 4096) (va / 4096 % 1024)
        (h.table _ hi hv) (by omega)
      rw [Nat.div_mul_cancel (by omega)] at this
      rw [if_pos hv, this]
    · rw [if_neg hv, if_pos rfl, if_pos rfl]
  refine ⟨hentry, fun va hva hu => ?_⟩
  rw [byteAt, byteAt, physical, physical, hentry va hva]
  refine hm _ ?_
  rintro rfl
  have hpa := pte2pa_eq (entryAt s.bytes pt va)
  refine h.held va hva hu ?_
  rwa [show (pte2pa (entryAt s.bytes pt va) + va % 4096) / 4096 =
    pte2pa (entryAt s.bytes pt va) / 4096 by omega] at hb

theorem Holds.caller {sp : Space} {D : Set Nat} (h : Holds L s.bytes sp) (hs : Shape L sp D)
    (hh : Held s (sp.tables ∪ sp.frames D)) : Caller s (sp.root * 4096) where
  pool := (h.scattered hs).pool
  aligned := Nat.mul_mod_left _ _
  root := by
    rw [Nat.mul_div_cancel _ (by decide)]
    exact hh _ (.inl sp.root_mem)
  table i hi hv := by
    obtain ⟨t, ht, he⟩ := h.rootEntry_valid hi hv
    rw [he, Nat.mul_div_cancel _ (by decide)]
    exact hh _ (.inl (Space.tbl_mem ht))
  held va hva hu := by
    have hD := hs.mem_of_access h hva hu
    rw [h.entryAt_eq hva, hs.owns.pte2pa hD, Nat.mul_div_cancel _ (by decide)]
    exact hh _ (.inr ⟨_, hD, rfl⟩)

/-- So it is for a slot with a user space. -/
theorem SlotMem.caller {k : Kernel L} {p : Slot} {t ks : Option Nat} {sp : Space} {D : Set Nat}
    (h : SlotMem L k.mem.bytes (k.procs p) ⟨t, ks, some (sp, D)⟩)
    (hh : Held k.mem (Assets.pages ⟨t, ks, some (sp, D)⟩)) : Caller k.mem (k.procs p).pt := by
  have hok := h.space sp D rfl
  rw [show (k.procs p).pt = sp.root * 4096 from h.pt_eq]
  exact hok.holds.caller hok.shape fun q hq => hh q (.inl (.inr hq))

namespace SameUser

variable {m m' : Bytes} {need k : Nat}

theorem access (h : SameUser m m' pt) (hva : va < 2 ^ 32) :
    Access m' pt need va ↔ Access m pt need va := by
  rw [Access, Access, h.entry va hva]

theorem inPool (h : SameUser m m' pt) (hp : InPool L m pt) : InPool L m' pt := by
  intro va hva hu
  rw [h.entry va hva]
  exact hp va hva ((h.access hva).1 hu)

theorem bytesAt (h : SameUser m m' pt) (hu : ∀ i < k, Access m pt need ((va + i) % 2 ^ 32)) :
    bytesAt m' pt va k = Vm.bytesAt m pt va k := by
  refine List.map_congr_left fun i hi => ?_
  rw [List.mem_range] at hi
  exact h.byte _ (Nat.mod_lt _ (by decide)) (hu i hi).user

theorem strAt (h : SameUser m m' pt) : StrAt m' pt va k ↔ StrAt m pt va k := by
  have hlt : ∀ i, (va + i) % 2 ^ 32 < 2 ^ 32 := fun i => Nat.mod_lt _ (by decide)
  have hbyte : (∀ i ≤ k, Access m pt PTE_R ((va + i) % 2 ^ 32)) → ∀ i ≤ k,
      byteAt m' pt ((va + i) % 2 ^ 32) = byteAt m pt ((va + i) % 2 ^ 32) :=
    fun hu i hi => h.byte _ (hlt i) (hu i hi).user
  have hacc : (∀ i ≤ k, Access m' pt PTE_R ((va + i) % 2 ^ 32)) ↔
      ∀ i ≤ k, Access m pt PTE_R ((va + i) % 2 ^ 32) :=
    forall₂_congr fun i _ => h.access (hlt i)
  constructor
  · rintro ⟨ha, hn, hc⟩
    have hb := hbyte (hacc.1 ha)
    exact ⟨hacc.1 ha, hb k le_rfl ▸ hn, fun i hi => hb i hi.le ▸ hc i hi⟩
  · rintro ⟨ha, hn, hc⟩
    have hb := hbyte ha
    exact ⟨hacc.2 ha, (hb k le_rfl).trans hn, fun i hi => by
      rw [hb i hi.le]
      exact hc i hi⟩

end SameUser

/-! ## The code with its record -/

/-- What `sys_exec` writes to: an element of `path`, of `argv` or of the page `buf`. -/
inductive Cell where
  | path (i : Nat)
  | argv (i : Nat)
  | buf (i : Nat)

/-- The element exists. -/
def Cell.Ok : Cell → Prop
  | .path i => i < MAXPATH
  | .argv i => i < MAXARG + 1
  | .buf i => i < PAGE_SIZE

/-- `gatherArgs` with a record of what it writes to. -/
def gatherArgsLog (pt uargv buf : Nat) : MemM L (Option (List Nat) × List Cell) :=
  loop .diverge (fun ((i, used, argv), log) => do
    let (r, w) ← copyin pt ((uargv + 4 * i) % 2 ^ 32) 4
    if r < 0 then pure (.inr (none, log))
    else
      let uarg := Bytes.word (fun j => w.getD j 0) 0
      if uarg = 0 then pure (.inr (some argv, log ++ [.argv i]))
      else if i = MAXARG then pure (.inr (none, log))
      else do
        let (r, str) ← copyinstr pt uarg (PAGE_SIZE - used)
        memmoveFrom (buf + used) str
        let log := log ++ .argv i :: (List.range str.length).map fun j => .buf (used + j)
        if r < 0 then pure (.inr (none, log))
        else do
          let len ← strlen (buf + used)
          pure (.inl ((i + 1, used + len + 1, argv ++ [buf + used]), log)))
    rounds ((0, 0, []), [])

/-- `gather` with a record of what it writes to. -/
def gatherLog (pt uargv buf : Nat) : MemM L (Option (List Nat) × List Cell) :=
  if uargv = 0 then pure (some [], [.argv 0]) else gatherArgsLog pt uargv buf

/-- `sys_exec` up to its call of `kexec`: the path, `argv` and `buf`, or `none` where it
returns -1 without a call. -/
def execArgsLog (p : Slot) : KernelM L (Option (List UInt8 × List Nat × Nat) × List Cell) := do
  let pp ← getProc p
  let upath ← onMem (load (pp.tf + regOff 10))
  let (r, path) ← onMem (copyinstr pp.pt upath MAXPATH)
  let log := (List.range path.length).map .path
  if r < 0 then pure (none, log)
  else do
    let uargv ← onMem (load (pp.tf + regOff 11))
    let buf ← onMem kalloc
    if buf = 0 then pure (none, log)
    else do
      let (argv, log') ← onMem (gatherLog pp.pt uargv buf)
      match argv with
      | none => do
          onMem (kfree buf)
          pure (none, log ++ log')
      | some argv => pure (some (path.dropLast, argv, buf), log ++ log')

/-- `sys_exec` from its call of `kexec` on. -/
def execCall (progs : Programs) (p : Slot) : Option (List UInt8 × List Nat × Nat) → KernelM L Int
  | none => pure (-1)
  | some (path, argv, buf) => do
      let ret ← kexec progs p path argv
      onMem (kfree buf)
      pure ret

theorem gatherArgsLog_erase (pt uargv buf : Nat) :
    Prod.fst <$> gatherArgsLog pt uargv buf = (gatherArgs pt uargv buf : MemM L _) := by
  unfold gatherArgsLog gatherArgs
  refine map_loop Prod.fst Prod.fst ?_ rounds ((0, 0, []), [])
  rintro ⟨⟨i, used, argv⟩, log⟩
  dsimp only
  rw [map_bind]
  congr 1
  funext ⟨r, w⟩
  dsimp only
  split_ifs
  · rfl
  · rfl
  · rfl
  · rw [map_bind]
    congr 1
    funext ⟨r, str⟩
    rw [map_bind]
    congr 1
    funext _
    split_ifs
    · rfl
    · rw [map_bind]
      rfl

theorem gatherLog_erase (pt uargv buf : Nat) :
    Prod.fst <$> gatherLog pt uargv buf = (gather pt uargv buf : MemM L _) := by
  unfold gatherLog gather
  split_ifs
  · rfl
  · exact gatherArgsLog_erase pt uargv buf

/-- The two parts make up `sys_exec`. -/
theorem sysExec_eq (progs : Programs) (p : Slot) :
    (sysExec progs p : KernelM L Int) = execArgsLog p >>= fun r => execCall progs p r.1 := by
  unfold sysExec execArgsLog
  simp only [bind_assoc]
  congr 1
  funext pp
  congr 1
  funext upath
  congr 1
  funext x
  obtain ⟨r, path⟩ := x
  dsimp only
  split_ifs with hr
  · rfl
  simp only [bind_assoc]
  congr 1
  funext uargv
  congr 1
  funext buf
  split_ifs with hb
  · rfl
  have he : (onMem (gather pp.pt uargv buf) : KernelM L _) =
      Prod.fst <$> onMem (gatherLog pp.pt uargv buf) := by
    rw [← gatherLog_erase]
    exact (map_zoom Prod.fst _).symm
  rw [he, bind_map_left, bind_assoc]
  congr 1
  funext x
  obtain ⟨argv, log⟩ := x
  cases argv with
  | none =>
      dsimp only
      rw [bind_assoc]
      rfl
  | some argv => rfl

/-! ## The arguments -/

/-- Word `i` of the user array at `uargv`. -/
def argAt (m : Bytes) (pt uargv i : Nat) : Nat :=
  Bytes.word (fun j => (bytesAt m pt ((uargv + 4 * i) % 2 ^ 32) 4).getD j 0) 0

/-- How many bytes the first `i` strings take, each with its NUL. -/
def offset (len : Nat → Nat) : Nat → Nat
  | 0 => 0
  | i + 1 => offset len i + (len i + 1)

theorem offset_congr {f g : Nat → Nat} {i : Nat} (h : ∀ j < i, f j = g j) :
    offset f i = offset g i := by
  induction i with
  | zero => rfl
  | succ i ih => rw [offset, offset, ih fun j hj => h j (by omega), h i (by omega)]

theorem offset_mono (f : Nat → Nat) {i j : Nat} (h : i ≤ j) : offset f i ≤ offset f j := by
  induction h with
  | refl => exact le_rfl
  | step _ ih =>
      rw [offset]
      omega

/-- `uargv` is an array of readable words with a 0 at index `k`, and every word before it is
the address of a readable string, of `len i` characters; with their NULs the strings fit in
a page. -/
structure ArgsAt (m : Bytes) (pt uargv k : Nat) (len : Nat → Nat) : Prop where
  le : k ≤ MAXARG
  readable : ∀ i ≤ k, ∀ j < 4, Access m pt PTE_R ((uargv + 4 * i + j) % 2 ^ 32)
  zero : argAt m pt uargv k = 0
  str : ∀ i < k, StrAt m pt (argAt m pt uargv i) (len i)
  fits : offset len k ≤ PAGE_SIZE

/-- The strings up to the first 0 have been copied to `buf`, one after another, and `argv`
has their addresses there. -/
structure Gathered (m m' : Bytes) (pt uargv buf k : Nat) (len : Nat → Nat) (argv : List Nat) :
    Prop where
  args : ArgsAt m pt uargv k len
  first : ∀ i < k, argAt m pt uargv i ≠ 0
  argv_eq : argv = (List.range k).map fun i => buf + offset len i
  copy : ∀ i < k, m'.read (buf + offset len i) (len i + 1) =
    bytesAt m pt (argAt m pt uargv i) (len i + 1)

open Classical in
/-- The length of the string at `va`, if there is one. -/
noncomputable def strLen (m : Bytes) (pt va : Nat) : Nat :=
  if h : ∃ k, StrAt m pt va k then h.choose else 0

theorem StrAt.strLen_eq {m : Bytes} {k : Nat} (h : StrAt m pt va k) : strLen m pt va = k := by
  have hex : ∃ k, StrAt m pt va k := ⟨k, h⟩
  rw [strLen, dif_pos hex]
  exact hex.choose_spec.unique h

/-- The lengths of the strings of `uargv`. -/
noncomputable def argLen (m : Bytes) (pt uargv i : Nat) : Nat := strLen m pt (argAt m pt uargv i)

/-- The first `i` strings have been copied to `buf`. -/
structure Prefix (m m' : Bytes) (pt uargv buf i : Nat) : Prop where
  readable : ∀ j < i, ∀ d < 4, Access m pt PTE_R ((uargv + 4 * j + d) % 2 ^ 32)
  nonzero : ∀ j < i, argAt m pt uargv j ≠ 0
  str : ∀ j < i, StrAt m pt (argAt m pt uargv j) (argLen m pt uargv j)
  copy : ∀ j < i, m'.read (buf + offset (argLen m pt uargv) j) (argLen m pt uargv j + 1) =
    bytesAt m pt (argAt m pt uargv j) (argLen m pt uargv j + 1)

/-- A list of arguments does not end before the prefix, and begins with it. -/
theorem Prefix.of_argsAt {m m' : Bytes} {uargv buf i k : Nat} {len : Nat → Nat}
    (h : Prefix m m' pt uargv buf i) (ha : ArgsAt m pt uargv k len) :
    i ≤ k ∧ offset len i = offset (argLen m pt uargv) i := by
  have hik : i ≤ k := by
    by_contra hlt
    exact h.nonzero k (by omega) ha.zero
  exact ⟨hik, offset_congr fun j hj => (ha.str j (by omega)).unique (h.str j hj)⟩

/-- It has room for its next string. -/
theorem Prefix.room {m m' : Bytes} {uargv buf i k : Nat} {len : Nat → Nat}
    (h : Prefix m m' pt uargv buf i) (hz : argAt m pt uargv i ≠ 0) (ha : ArgsAt m pt uargv k len) :
    i < k ∧ offset (argLen m pt uargv) i + len i < PAGE_SIZE := by
  obtain ⟨hik, ho⟩ := h.of_argsAt ha
  have hne : i ≠ k := fun he => hz (he ▸ ha.zero)
  have hmono := offset_mono len (show i + 1 ≤ k by omega)
  have hfits := ha.fits
  rw [offset, ho] at hmono
  omega

/-- The 0 has been reached. -/
theorem Prefix.gathered {m m' : Bytes} {uargv buf i : Nat} (h : Prefix m m' pt uargv buf i)
    (hi : i ≤ MAXARG) (hr : ∀ d < 4, Access m pt PTE_R ((uargv + 4 * i + d) % 2 ^ 32))
    (hz : argAt m pt uargv i = 0) (hoff : offset (argLen m pt uargv) i ≤ PAGE_SIZE) :
    Gathered m m' pt uargv buf i (argLen m pt uargv)
      ((List.range i).map fun j => buf + offset (argLen m pt uargv) j) := by
  refine ⟨⟨hi, fun j hj d hd => ?_, hz, h.str, hoff⟩, h.nonzero, rfl, h.copy⟩
  rcases Nat.lt_or_eq_of_le hj with hj | rfl
  · exact h.readable j hj d hd
  · exact hr d hd

/-- One more string. -/
theorem Prefix.succ {m m' : Bytes} {uargv buf i n : Nat} (h : Prefix m m' pt uargv buf i)
    (hr : ∀ d < 4, Access m pt PTE_R ((uargv + 4 * i + d) % 2 ^ 32))
    (hz : argAt m pt uargv i ≠ 0) (hs : StrAt m pt (argAt m pt uargv i) n) :
    Prefix m (m'.write (buf + offset (argLen m pt uargv) i)
      (bytesAt m pt (argAt m pt uargv i) (n + 1))) pt uargv buf (i + 1) := by
  have hn : argLen m pt uargv i = n := hs.strLen_eq
  refine ⟨fun j hj => ?_, fun j hj => ?_, fun j hj => ?_, fun j hj => ?_⟩ <;>
    rcases Nat.lt_succ_iff_lt_or_eq.1 hj with hj | rfl
  · exact h.readable j hj
  · exact hr
  · exact h.nonzero j hj
  · exact hz
  · exact h.str j hj
  · rw [hn]
    exact hs
  · rw [← h.copy j hj]
    -- the strings before lie before the place of the new one
    have hoff : offset (argLen m pt uargv) j + (argLen m pt uargv j + 1) ≤
        offset (argLen m pt uargv) i := offset_mono _ (i := j + 1) hj
    exact Bytes.read_congr fun d hd => Bytes.write_of_lt (by omega)
  · have hread := Bytes.read_write (m := m') (a := buf + offset (argLen m pt uargv) j)
      (bytesAt m pt (argAt m pt uargv j) (n + 1))
    rw [hn]
    rwa [length_bytesAt] at hread

/-! ## The loop over `uargv` -/

/-- What the loop reads of word `i`. -/
theorem copyin_arg {s₁ : Mem L} {uargv i : Nat} (hc : InPool L s.bytes pt)
    (hu : SameUser s.bytes s₁.bytes pt) :
    wp (copyin pt ((uargv + 4 * i) % 2 ^ 32) 4) (fun r s' => s' = s₁ ∧
      ((r.1 = -1 ∧ ¬∀ d < 4, Access s.bytes pt PTE_R ((uargv + 4 * i + d) % 2 ^ 32)) ∨
      (r.1 = 0 ∧ (∀ d < 4, Access s.bytes pt PTE_R ((uargv + 4 * i + d) % 2 ^ 32)) ∧
        r.2 = bytesAt s.bytes pt ((uargv + 4 * i) % 2 ^ 32) 4))) s₁ := by
  have hmod : ∀ d, ((uargv + 4 * i) % 2 ^ 32 + d) % 2 ^ 32 = (uargv + 4 * i + d) % 2 ^ 32 :=
    fun d => Nat.mod_add_mod _ _ _
  refine (copyin_bytes (hu.inPool hc) (Nat.mod_lt _ (by decide)) (by decide)).mono fun r s' hr => ?_
  obtain ⟨hs, k, hk, hr⟩ := hr
  refine ⟨hs, ?_⟩
  have hacc : ∀ d, Access s₁.bytes pt PTE_R (((uargv + 4 * i) % 2 ^ 32 + d) % 2 ^ 32) ↔
      Access s.bytes pt PTE_R ((uargv + 4 * i + d) % 2 ^ 32) := by
    intro d
    rw [hmod]
    exact hu.access (Nat.mod_lt _ (by decide))
  subst hr
  by_cases hk4 : k = 4
  · have hall : ∀ d < 4, Access s.bytes pt PTE_R ((uargv + 4 * i + d) % 2 ^ 32) :=
      fun d hd => (hacc d).1 (hk.access d (by omega))
    refine .inr ⟨if_pos hk4, hall, ?_⟩
    subst hk4
    exact hu.bytesAt fun d hd => (hmod d).symm ▸ hall d hd
  · exact .inl ⟨if_neg hk4, fun hall => hk4 (hk.eq_iff.2 fun d hd => (hacc d).2 (hall d hd))⟩

/-- What the loop reads of string `i`. -/
theorem copyinstr_arg {s₁ : Mem L} {max : Nat} (hc : InPool L s.bytes pt)
    (hu : SameUser s.bytes s₁.bytes pt) (hva : va < 2 ^ 32) (hmax : max < 2 ^ 32) :
    wp (copyinstr pt va max) (fun r s' => s' = s₁ ∧ r.2.length ≤ max ∧
      ((r.1 = -1 ∧ ∀ k < max, ¬StrAt s.bytes pt va k) ∨
      (r.1 = 0 ∧ ∃ k < max, StrAt s.bytes pt va k ∧ r.2 = bytesAt s.bytes pt va (k + 1)))) s₁ := by
  refine (copyinstr_str (hu.inPool hc) hva hmax).mono fun r s' hr => ?_
  obtain ⟨hs, hr⟩ := hr
  refine ⟨hs, ?_⟩
  rcases hr with ⟨k, hk, hstr, rfl⟩ | ⟨j, hno, rfl⟩
  · have hstr' := hu.strAt.1 hstr
    refine ⟨by rw [length_bytesAt]; omega, .inr ⟨rfl, k, hk, hstr', ?_⟩⟩
    exact hu.bytesAt fun i hi => hstr'.access i (by omega)
  · refine ⟨by rw [length_bytesAt]; exact hno.le, .inl ⟨rfl, fun k hk hstr => ?_⟩⟩
    exact hno.not_strAt hk (hu.strAt.2 hstr)

theorem strlen_eq {a n : Nat} (hz : s.bytes (a + n) = 0) (hne : ∀ i < n, s.bytes (a + i) ≠ 0)
    (hn : n < 4096) : wp (strlen a) (fun m s' => s' = s ∧ m = n) s := by
  unfold strlen
  refine wp_loop (fun m s₁ => m ≤ n ∧ s₁ = s) (n - ·) ?_ ⟨Nat.zero_le n, rfl⟩
    (by simp only [rounds]; omega)
  rintro m s₁ ⟨hm, rfl⟩
  rw [wp_bind, wp_get]
  by_cases hmn : m = n
  · subst hmn
    rw [if_neg (not_not.2 hz), wp_pure]
    exact ⟨rfl, rfl⟩
  · rw [if_pos (hne m (by omega)), wp_pure]
    exact ⟨⟨by omega, rfl⟩, by omega⟩

/-- A copy of a string is a string. -/
theorem StrAt.of_read {m m' : Bytes} {a n : Nat} (h : StrAt m pt va n)
    (hc : m'.read a (n + 1) = bytesAt m pt va (n + 1)) :
    m' (a + n) = 0 ∧ ∀ i < n, m' (a + i) ≠ 0 := by
  have hat : ∀ i < n + 1, m' (a + i) = byteAt m pt ((va + i) % 2 ^ 32) := by
    intro i hi
    have hget := congrArg (fun l => l.getD i 0) hc
    simpa [Bytes.read, bytesAt, List.getD, hi] using hget
  refine ⟨(hat n (by omega)).trans h.nul, fun i hi => ?_⟩
  rw [hat i (by omega)]
  exact h.char i hi

/-- **The loop of `sys_exec`** gathers exactly the strings of the caller's list, and fails
only if it is not a list that fits; it writes to nothing but `argv` and `buf`. -/
theorem gatherArgsLog_spec {s₁ : Mem L} {uargv : Nat} (hc : Caller s pt) (hb : s.free b)
    (hs : s₁.bytes = s.bytes) :
    wp (gatherArgsLog pt uargv (b * 4096)) (fun r s' => s'.bitmap = s₁.bitmap ∧
      OnlyPage s.bytes s'.bytes b ∧ (∀ c ∈ r.2, c.Ok) ∧
      ((r.1 = none ∧ ∀ k len, ¬ArgsAt s.bytes pt uargv k len) ∨
      ∃ k len argv, r.1 = some argv ∧
        Gathered s.bytes s'.bytes pt uargv (b * 4096) k len argv)) s₁ := by
  obtain ⟨f, hf⟩ : ∃ f, f = argLen s.bytes pt uargv := ⟨_, rfl⟩
  unfold gatherArgsLog
  -- after `i` strings
  let I : (Nat × Nat × List Nat) × List Cell → Mem L → Prop := fun x s₂ => ∃ i, i ≤ MAXARG ∧
    x.1 = (i, offset f i, (List.range i).map fun j => b * 4096 + offset f j) ∧
    offset f i ≤ 4096 ∧ s₂.bitmap = s₁.bitmap ∧ OnlyPage s.bytes s₂.bytes b ∧
    (∀ c ∈ x.2, c.Ok) ∧ Prefix s.bytes s₂.bytes pt uargv (b * 4096) i
  refine wp_loop I (fun x => MAXARG - x.1.1) ?_ ⟨0, by decide, rfl, Nat.zero_le _, rfl,
    fun x _ => congrFun hs x, List.forall_mem_nil _, ?_⟩ (by decide)
  · rintro ⟨_, log⟩ s₂ ⟨i, hi, rfl, hoff, hbit, honly, hlog, hpre⟩
    have hu := hc.sameUser hb honly
    dsimp only
    rw [wp_bind]
    refine (copyin_arg hc.pool hu).mono fun rw s₃ hrw => ?_
    obtain ⟨r, w⟩ := rw
    obtain ⟨rfl, hrw⟩ := hrw
    dsimp only at hrw ⊢
    rcases hrw with ⟨rfl, hno⟩ | ⟨rfl, hr, rfl⟩
    · rw [if_pos (by decide), wp_pure]
      refine ⟨hbit, honly, hlog, .inl ⟨rfl, fun k len ha => hno fun d hd => ?_⟩⟩
      exact ha.readable i (hpre.of_argsAt ha).1 d hd
    rw [if_neg (by decide)]
    change wp (if argAt s.bytes pt uargv i = 0 then _ else _) _ _
    by_cases hz : argAt s.bytes pt uargv i = 0
    · rw [if_pos hz, wp_pure]
      refine ⟨hbit, honly, ?_, .inr ⟨i, f, _, rfl, ?_⟩⟩
      · intro c hc
        rcases List.mem_append.1 hc with hc | hc
        · exact hlog c hc
        · rw [List.mem_singleton.1 hc]
          exact Nat.lt_succ_of_le hi
      · subst hf
        exact hpre.gathered hi hr hz hoff
    rw [if_neg hz]
    by_cases him : i = MAXARG
    · rw [if_pos him, wp_pure]
      refine ⟨hbit, honly, hlog, .inl ⟨rfl, fun k len ha => hz ?_⟩⟩
      have hik := (hpre.of_argsAt ha).1
      have hkm := ha.le
      rw [show i = k by omega]
      exact ha.zero
    rw [if_neg him, wp_bind]
    refine (copyinstr_arg hc.pool hu (Bytes.word_lt _ _) (by simp only [PAGE_SIZE]; omega)).mono
      fun rs s₄ hrs => ?_
    obtain ⟨r', str⟩ := rs
    obtain ⟨rfl, hlen, hrs⟩ := hrs
    dsimp only at hlen hrs ⊢
    rw [wp_bind, wp_memmoveFrom]
    have honly' : OnlyPage s.bytes
        (s₄.mapBytes (·.write (b * 4096 + offset f i) str)).bytes b :=
      honly.write (by simp only [PAGE_SIZE] at hlen; omega)
    have hlog' : ∀ c ∈ log ++ Cell.argv i ::
        (List.range str.length).map (fun j => Cell.buf (offset f i + j)), c.Ok := by
      intro c hc
      simp only [List.mem_append, List.mem_cons, List.mem_map, List.mem_range] at hc
      rcases hc with hc | rfl | ⟨j, hj, rfl⟩
      · exact hlog c hc
      · exact Nat.lt_succ_of_le hi
      · simp only [Cell.Ok, PAGE_SIZE] at hlen ⊢
        omega
    rcases hrs with ⟨rfl, hno⟩ | ⟨rfl, n, hn, hstr, rfl⟩
    · rw [if_pos (by decide), wp_pure]
      refine ⟨hbit, honly', hlog', .inl ⟨rfl, fun k len ha => ?_⟩⟩
      obtain ⟨hik, hroom⟩ := hpre.room hz ha
      rw [← hf] at hroom
      exact hno (len i) (by omega) (ha.str i hik)
    · rw [if_neg (by decide), wp_bind]
      have hn' : f i = n := by rw [hf]; exact hstr.strLen_eq
      subst hf
      have hpre' := hpre.succ hr hz hstr
      have hcopy := hpre'.copy i (by omega)
      rw [hn'] at hcopy
      obtain ⟨hnul, hchar⟩ := hstr.of_read hcopy
      simp only [PAGE_SIZE] at hn
      refine (strlen_eq hnul hchar (by omega)).mono fun len s₅ hl => ?_
      obtain ⟨rfl, rfl⟩ := hl
      rw [wp_pure]
      refine ⟨⟨i + 1, by omega, ?_, ?_, hbit, honly', hlog', hpre'⟩, by dsimp only; omega⟩
      · rw [offset, hn', List.range_succ, List.map_append, List.map_singleton]
        rfl
      · rw [offset, hn']
        omega
  · exact ⟨fun j hj => by omega, fun j hj => by omega, fun j hj => by omega, fun j hj => by omega⟩

/-! ## The whole -/

/-- What has been gathered for `kexec`, where `uargv` may be 0. -/
def Passed (m m' : Bytes) (pt uargv buf : Nat) (argv : List Nat) : Prop :=
  (uargv = 0 ∧ argv = []) ∨
    (uargv ≠ 0 ∧ ∃ k len, Gathered m m' pt uargv buf k len argv)

/-- There is something to gather. -/
def Passable (m : Bytes) (pt uargv : Nat) : Prop :=
  uargv = 0 ∨ ∃ k len, ArgsAt m pt uargv k len

theorem Passed.passable {m m' : Bytes} {uargv buf : Nat} {argv : List Nat}
    (h : Passed m m' pt uargv buf argv) : Passable m pt uargv := by
  rcases h with ⟨h, -⟩ | ⟨-, k, len, h⟩
  · exact .inl h
  · exact .inr ⟨k, len, h.args⟩

theorem gatherLog_spec {s₁ : Mem L} {uargv : Nat} (hc : Caller s pt) (hb : s.free b)
    (hs : s₁.bytes = s.bytes) :
    wp (gatherLog pt uargv (b * 4096)) (fun r s' => s'.bitmap = s₁.bitmap ∧
      OnlyPage s.bytes s'.bytes b ∧ (∀ c ∈ r.2, c.Ok) ∧
      ((r.1 = none ∧ ¬Passable s.bytes pt uargv) ∨
      ∃ argv, r.1 = some argv ∧ Passed s.bytes s'.bytes pt uargv (b * 4096) argv)) s₁ := by
  unfold gatherLog
  by_cases hz : uargv = 0
  · rw [if_pos hz, wp_pure]
    refine ⟨rfl, fun x _ => congrFun hs x, fun c hc => ?_, .inr ⟨[], rfl, .inl ⟨hz, rfl⟩⟩⟩
    rw [List.mem_singleton.1 hc]
    exact Nat.succ_pos _
  · rw [if_neg hz]
    refine (gatherArgsLog_spec hc hb hs).mono fun r s' hr => ?_
    obtain ⟨hbit, honly, hlog, hr⟩ := hr
    refine ⟨hbit, honly, hlog, ?_⟩
    rcases hr with ⟨hr, hno⟩ | ⟨k, len, argv, hr, hg⟩
    · refine .inl ⟨hr, fun hp => ?_⟩
      obtain ⟨k, len, ha⟩ := hp.resolve_left hz
      exact hno k len ha
    · exact .inr ⟨argv, hr, .inr ⟨hz, k, len, hg⟩⟩

/-! ## Strings in the kernel's memory -/

/-- The string `l` with its NUL is at address `a`, in pages that are in use. -/
structure KernelStr (s : Mem L) (a : Nat) (l : List UInt8) : Prop where
  char : 0 ∉ l
  bytes : s.bytes.read a (l.length + 1) = l ++ [0]
  held : ∀ i ≤ l.length, ¬s.free ((a + i) / PAGE_SIZE)

theorem KernelStr.get {a : Nat} {l : List UInt8} (h : KernelStr s a l) {i : Nat}
    (hi : i ≤ l.length) : s.bytes (a + i) = (l ++ [0]).getD i 0 := by
  rw [← h.bytes, Bytes.getD_read (by omega)]

/-- What others hold stays as it is. -/
theorem KernelStr.frame {a : Nat} {l : List UInt8} {B B' : Set Nat} (h : KernelStr s a l)
    (hf : Frame s s' B B') (hd : ∀ i ≤ l.length, (a + i) / PAGE_SIZE ∉ B) :
    KernelStr s' a l ∧ ∀ i ≤ l.length, (a + i) / PAGE_SIZE ∉ B' := by
  have hone : ∀ i ≤ l.length, Held s {(a + i) / PAGE_SIZE} ∧
      ∀ q ∈ ({(a + i) / PAGE_SIZE} : Set Nat), q ∉ B := by
    intro i hi
    constructor
    · rintro _ rfl
      exact h.held i hi
    · rintro _ rfl
      exact hd i hi
  refine ⟨⟨h.char, ?_, fun i hi => ?_⟩, fun i hi => ?_⟩
  · rw [← h.bytes]
    refine Bytes.read_congr fun i hi => ?_
    have := hf.same _ (h.held i (by omega)) (hd i (by omega)) ((a + i) % PAGE_SIZE)
      (Nat.mod_lt _ (by decide))
    rwa [Nat.div_add_mod' (a + i) 4096] at this
  · exact hf.held (hone i hi).1 (hone i hi).2 _ rfl
  · exact hf.not_mem (hone i hi).1 (hone i hi).2 _ rfl

theorem KernelStr.strlen {a : Nat} {l : List UInt8} (h : KernelStr s a l) (hl : l.length < 4096) :
    wp (strlen a) (fun n s' => s' = s ∧ n = l.length) s := by
  refine strlen_eq ?_ (fun i hi => ?_) hl
  · rw [h.get le_rfl]
    simp
  · rw [h.get hi.le, List.getD, List.getElem?_append_left hi, List.getElem?_eq_getElem hi,
      Option.getD_some]
    intro h0
    exact h.char (h0 ▸ List.getElem_mem hi)

/-- `argv` has the addresses of the strings `strs`, which are apart from the pages `B`. -/
def Argv (s : Mem L) (B : Set Nat) (argv : List Nat) (strs : List (List UInt8)) : Prop :=
  List.Forall₂ (fun a l => KernelStr s a l ∧ ∀ i ≤ l.length, (a + i) / PAGE_SIZE ∉ B) argv strs

theorem Argv.frame {B B' : Set Nat} {argv : List Nat} {strs : List (List UInt8)}
    (h : Argv s B argv strs) (hf : Frame s s' B B') : Argv s' B' argv strs :=
  h.imp fun _ _ hs => hs.1.frame hf hs.2

/-- The strings that a caller asks for with `uargv`. -/
def Asks (m : Bytes) (pt uargv : Nat) (strs : List (List UInt8)) : Prop :=
  (uargv = 0 ∧ strs = []) ∨ (uargv ≠ 0 ∧ ∃ n len, ArgsAt m pt uargv n len ∧
    (∀ i < n, argAt m pt uargv i ≠ 0) ∧
    strs = (List.range n).map fun i => bytesAt m pt (argAt m pt uargv i) (len i))

/-- String `i` in the page `b`. -/
theorem Gathered.kernelStr {m : Bytes} {uargv n i : Nat} {len : Nat → Nat} {argv : List Nat}
    (h : Gathered m s.bytes pt uargv (b * 4096) n len argv) (hb : ¬s.free b) (hi : i < n) :
    KernelStr s (b * 4096 + offset len i) (bytesAt m pt (argAt m pt uargv i) (len i)) ∧
      len i < 4096 := by
  have hfits := h.args.fits
  have hstr := h.args.str i hi
  have hoff : offset len i + (len i + 1) ≤ offset len n := offset_mono len (show i + 1 ≤ n from hi)
  simp only [PAGE_SIZE] at hfits
  refine ⟨⟨fun h0 => ?_, ?_, fun j hj hf => hb ?_⟩, by omega⟩
  · obtain ⟨j, hj, he⟩ := List.mem_map.1 h0
    exact hstr.char j (List.mem_range.1 hj) he
  · rw [length_bytesAt, h.copy i hi, bytesAt, List.range_succ, List.map_append, List.map_singleton,
      hstr.nul]
    rfl
  · rw [length_bytesAt] at hj
    simp only [PAGE_SIZE] at hf
    rwa [show (b * 4096 + offset len i + j) / 4096 = b by omega] at hf

/-- What is passed to `kexec` are the strings that the caller asks for. -/
theorem Passed.strings {m : Bytes} {uargv : Nat} {argv : List Nat}
    (h : Passed m s.bytes pt uargv (b * 4096) argv) (hb : ¬s.free b) :
    ∃ strs, Asks m pt uargv strs ∧ List.Forall₂ (KernelStr s) argv strs ∧
      ∀ l ∈ strs, l.length < 4096 := by
  rcases h with ⟨h0, rfl⟩ | ⟨h0, n, len, hg⟩
  · exact ⟨[], .inl ⟨h0, rfl⟩, .nil, List.forall_mem_nil _⟩
  · refine ⟨_, .inr ⟨h0, n, len, hg.args, hg.first, rfl⟩, ?_, fun l hl => ?_⟩
    · rw [hg.argv_eq, List.forall₂_map_left_iff, List.forall₂_map_right_iff, List.forall₂_same]
      exact fun i hi => (hg.kernelStr hb (List.mem_range.1 hi)).1
    · obtain ⟨i, hi, rfl⟩ := List.mem_map.1 hl
      rw [length_bytesAt]
      exact (hg.kernelStr hb (List.mem_range.1 hi)).2

/-! ## `sys_exec` up to its call of `kexec` -/

variable {k k' : Kernel L} {p : Slot}

/-- Only page `b` has changed, which was free. -/
structure Buffered (k k' : Kernel L) (b : Nat) : Prop where
  eq : k' = { k with mem := k'.mem }
  free : k.mem.free b
  only : OnlyPage k.mem.bytes k'.mem.bytes b

theorem Buffered.samePage (h : Buffered k k' b) {q : Nat} (hq : ¬k.mem.free q) :
    SamePage k.mem.bytes k'.mem.bytes q := by
  intro o ho
  refine h.only _ fun hc => hq ?_
  rw [show q = b by omega]
  exact h.free

/-- The page is in use now. -/
theorem Buffered.frame (h : Buffered k k' b) (hf : ∀ q, k'.mem.free q ↔ k.mem.free q ∧ q ≠ b) :
    Frame k.mem k'.mem ∅ {b} where
  free_iff q := by
    rw [hf q]
    simp
  held _ := False.elim
  fresh q hq := .inr ((Set.mem_singleton_iff.1 hq).symm ▸ h.free)
  same _ hq _ := h.samePage hq

/-- The page has been given back. -/
theorem Buffered.frame_same (h : Buffered k k' b) (hf : ∀ q, k'.mem.free q ↔ k.mem.free q) :
    Frame k.mem k'.mem ∅ ∅ where
  free_iff q := by
    rw [hf q]
    simp
  held _ := False.elim
  fresh _ := False.elim
  same _ hq _ := h.samePage hq

/-- `a0`, `a1` and `a2` of the process in slot `p`. -/
def arg0 (k : Kernel L) (p : Slot) : Nat := k.mem.bytes.word ((k.procs p).tf + regOff 10)

@[inherit_doc arg0]
def arg1 (k : Kernel L) (p : Slot) : Nat := k.mem.bytes.word ((k.procs p).tf + regOff 11)

@[inherit_doc arg0]
def arg2 (k : Kernel L) (p : Slot) : Nat := k.mem.bytes.word ((k.procs p).tf + regOff 12)

/-- What it takes for `sys_exec` to call `kexec`. -/
structure Callable (k : Kernel L) (p : Slot) : Prop where
  path : ∃ n < MAXPATH, StrAt k.mem.bytes (k.procs p).pt (arg0 k p) n
  page : ∃ q, k.mem.free q
  args : Passable k.mem.bytes (k.procs p).pt (arg1 k p)

/-- What `sys_exec` has done when it calls `kexec` with the path, `argv` and `buf` of `r`, or
returns -1 without a call, where `r` is `none`. -/
structure ExecArgs (k k' : Kernel L) (p : Slot) (r : Option (List UInt8 × List Nat × Nat))
    (log : List Cell) : Prop where
  inBounds : ∀ c ∈ log, c.Ok
  call_iff : r.isSome ↔ Callable k p
  of_none : r = none → k' = k ∨ ∃ b, Buffered k k' b ∧ ∀ q, k'.mem.free q ↔ k.mem.free q
  of_some : ∀ path argv buf, r = some (path, argv, buf) →
    (∃ n < MAXPATH, StrAt k.mem.bytes (k.procs p).pt (arg0 k p) n ∧
      path = bytesAt k.mem.bytes (k.procs p).pt (arg0 k p) n) ∧
    Passed k.mem.bytes k'.mem.bytes (k.procs p).pt (arg1 k p) buf argv ∧
    ∃ b, buf = b * PAGE_SIZE ∧ Buffered k k' b ∧ ∀ q, k'.mem.free q ↔ k.mem.free q ∧ q ≠ b

theorem ExecArgs.none {log : List Cell} (hlog : ∀ c ∈ log, c.Ok) (hno : ¬Callable k p)
    (hk : k' = k ∨ ∃ b, Buffered k k' b ∧ ∀ q, k'.mem.free q ↔ k.mem.free q) :
    ExecArgs k k' p none log where
  inBounds := hlog
  call_iff := ⟨fun he => (Bool.false_ne_true he).elim, fun hc => (hno hc).elim⟩
  of_none := fun _ => hk
  of_some := fun _ _ _ he => nomatch he

theorem execArgsLog_spec (h : Caller k.mem (k.procs p).pt) :
    wp (execArgsLog p) (fun r k' => ExecArgs k k' p r.1 r.2) k := by
  have hself : SameUser k.mem.bytes k.mem.bytes (k.procs p).pt := ⟨fun _ _ => rfl, fun _ _ _ => rfl⟩
  unfold execArgsLog
  simp only [wp_bind, wp_getProc, wp_onMem, wp_load]
  change wp (copyinstr (k.procs p).pt (arg0 k p) MAXPATH) _ _
  refine (copyinstr_arg h.pool hself (Bytes.word_lt _ _) (by decide)).mono fun rp s₁ hc => ?_
  obtain ⟨r, path⟩ := rp
  obtain ⟨rfl, hlen, hc⟩ := hc
  dsimp only at hlen hc ⊢
  have hlog : ∀ c ∈ (List.range path.length).map Cell.path, c.Ok := by
    intro c hc
    obtain ⟨i, hi, rfl⟩ := List.mem_map.1 hc
    rw [List.mem_range] at hi
    exact lt_of_lt_of_le hi hlen
  rcases hc with ⟨rfl, hno⟩ | ⟨rfl, n, hn, hstr, hpath⟩
  · rw [if_pos (by decide), wp_pure]
    refine .none hlog (fun hcall => ?_) (.inl rfl)
    obtain ⟨n, hn, hstr⟩ := hcall.path
    exact hno n hn hstr
  rw [if_neg (by decide)]
  simp only [wp_bind, wp_onMem, wp_load]
  refine (kalloc_spec k.mem).mono fun buf s₁ hk => ?_
  rcases hk with ⟨rfl, rfl, hfull⟩ | ⟨b, rfl, hb, hbytes, hf₁⟩
  · rw [if_pos rfl, wp_pure]
    refine .none hlog (fun hcall => ?_) (.inl rfl)
    obtain ⟨q, hq⟩ := hcall.page
    exact hfull q hq
  have hbl := hb.inRange.lt
  rw [if_neg (by omega), wp_bind, wp_onMem]
  change wp (gatherLog (k.procs p).pt (arg1 k p) (b * 4096)) _ _
  refine (gatherLog_spec h hb hbytes).mono fun rg s₂ hg => ?_
  obtain ⟨r, log⟩ := rg
  obtain ⟨hbit, honly, hlog₂, hg⟩ := hg
  have hfree : ∀ q, s₂.free q ↔ k.mem.free q ∧ q ≠ b := by
    intro q
    have := hf₁.free_iff q
    rw [Mem.free, ← hbit] at this
    rw [Mem.free, this]
    simp
  have hlog' : ∀ c ∈ (List.range path.length).map Cell.path ++ log, c.Ok := by
    intro c hc
    rcases List.mem_append.1 hc with hc | hc
    · exact hlog c hc
    · exact hlog₂ c hc
  dsimp only at hg ⊢
  rcases hg with ⟨rfl, hno⟩ | ⟨argv, rfl, hpass⟩
  · simp only [wp_bind, wp_onMem]
    refine (kfree_spec hb.inRange fun hf => ((hfree b).1 hf).2 rfl).mono fun _ s₃ hk => ?_
    obtain ⟨hf₃, -, hsame⟩ := hk
    rw [wp_pure]
    refine .none hlog' (fun hcall => hno hcall.args)
      (.inr ⟨b, ⟨rfl, hb, fun x hx => ?_⟩, fun q => ?_⟩)
    · have := hsame (x / 4096) hx (x % 4096) (Nat.mod_lt _ (by decide))
      rw [Nat.div_add_mod' x 4096] at this
      exact this.trans (honly x hx)
    · rw [hf₃.free_iff q, hfree q]
      by_cases hqb : q = b
      · simp [hqb, hb]
      · simp [hqb]
  · rw [wp_pure]
    refine ⟨hlog', ⟨fun _ => ⟨⟨n, hn, hstr⟩, ⟨b, hb⟩, hpass.passable⟩, fun _ => rfl⟩,
      (fun he => absurd he (by simp)), fun path' argv' buf he => ?_⟩
    cases he
    refine ⟨⟨n, hn, hstr, ?_⟩, hpass, b, rfl, ⟨rfl, hb, honly⟩, hfree⟩
    rw [hpath, bytesAt, List.range_succ, List.map_append, List.map_singleton,
      List.dropLast_concat]
    rfl

/-- The first page of a process that has loaded the small program, with its trapframe inside of
it: the program and, from byte 100 on, the words in `a0`, `a1` and `a2`. -/
def tinyPage (a b c i : Nat) : UInt8 :=
  if 100 ≤ i ∧ i < 112 then ([a, b, c].flatMap Bytes.ofWord).getD (i - 100) 0
  else ([0x13, 0x05, 0x10] : List UInt8).getD i 0

theorem imageByte_tiny {i : Nat} (hi : i < 4096) :
    imageByte tinyImage.bytes [phdr tinyImage 0] (USER_BASE + i) =
      ([0x13, 0x05, 0x10] : List UInt8).getD i 0 := by
  by_cases h4 : i < 4
  · exact (by decide : ∀ i < 4, imageByte tinyImage.bytes [phdr tinyImage 0] (USER_BASE + i) =
      ([0x13, 0x05, 0x10] : List UInt8).getD i 0) i h4
  · have hva : (phdr tinyImage 0).va = USER_BASE := rfl
    have hsz : (phdr tinyImage 0).filesz = 4 := rfl
    rw [imageByte, List.find?_cons_of_neg (by rw [hva, hsz]; simp; omega), List.find?_nil,
      List.getD_eq_getElem?_getD, List.getElem?_eq_none (by simp; omega)]
    rfl

/-- A process that has loaded the small program, with three words in `a0`, `a1` and `a2`: a
trapframe inside the page of the program will do. -/
theorem tiny_process (a b c : Nat) (ha : a < 2 ^ 32) (hb : b < 2 ^ 32) (hc : c < 2 ^ 32) :
    ∃ k : Kernel tinyLayout, Caller k.mem (k.procs 0).pt ∧ (∃ q, k.mem.free q) ∧
      (arg0 k 0 = a ∧ arg1 k 0 = b ∧ arg2 k 0 = c) ∧
      ∀ i < 4096, Access k.mem.bytes (k.procs 0).pt PTE_R ((USER_BASE + i) % 2 ^ 32) ∧
        byteAt k.mem.bytes (k.procs 0).pt ((USER_BASE + i) % 2 ^ 32) = tinyPage a b c i := by
  obtain ⟨sp, s, D, h, hs, hh, hfew, hD, hpte, hbyte⟩ := tiny_loaded
  let l : List UInt8 := [a, b, c].flatMap Bytes.ofWord
  let s' : Mem tinyLayout := s.mapBytes (·.write (sp.page 1 * 4096 + 100) l)
  let k : Kernel tinyLayout :=
    ⟨s', fun _ => { Proc.zero with pt := sp.root * 4096, tf := sp.page 1 * 4096 + 40 }, 1, 0⟩
  have hl : l.length = 12 := Bytes.length_flatMap_ofWord [a, b, c]
  have hpage : sp.page 1 ∈ sp.frames D := ⟨1, hD, rfl⟩
  have hf : Frame s s' {sp.page 1} {sp.page 1} :=
    frame_mapBytes (hh _ (.inr hpage)) fun x hx => by
      rw [Bytes.write_apply, hl, if_neg (by omega)]
  obtain ⟨h', hh'⟩ := h.frame_user hs.owns hh
    (hf.widen_self (fun q hq => hh q (.inr hq)) (Set.singleton_subset_iff.2 hpage))
  have hword : ∀ i < 3, ∀ w < 2 ^ 32, [a, b, c].getD i 0 = w →
      k.mem.bytes.word ((k.procs 0).tf + regOff (10 + i)) = w := by
    intro i hi w hw he
    have htf : (k.procs 0).tf + regOff (10 + i) = sp.page 1 * 4096 + 100 + 4 * i := by
      rw [show (k.procs 0).tf = sp.page 1 * 4096 + 40 from rfl, regOff]
      omega
    rw [htf]
    refine Bytes.word_of_bytes hw fun j hj => ?_
    rw [← he, ← Bytes.getD_flatMap_ofWord hi hj]
    change s'.bytes _ = _
    rw [Mem.bytes_mapBytes, Bytes.write_apply, hl, if_pos (by omega), Nat.add_assoc,
      Nat.add_sub_cancel_left]
  refine ⟨k, h'.caller hs hh', ?_, ⟨hword 0 (by decide) a ha rfl, hword 1 (by decide) b hb rfl,
    hword 2 (by decide) c hc rfl⟩, fun i hi => ?_⟩
  · by_contra hno
    exact hfew ((Few.none fun q hq => hno ⟨q, hq⟩).mono (Nat.zero_le _))
  · have hlt : (USER_BASE + i) % 2 ^ 32 = USER_BASE + i := Nat.mod_eq_of_lt (by
      simp only [USER_BASE]; omega)
    have hdiv : (USER_BASE + i) / 4096 = 1 := by simp only [USER_BASE]; omega
    have hmod : (USER_BASE + i) % 4096 = i := by simp only [USER_BASE]; omega
    rw [hlt]
    change Access s'.bytes (sp.root * 4096) PTE_R _ ∧ byteAt s'.bytes (sp.root * 4096) _ = _
    constructor
    · rw [Access, h'.entryAt_eq (by simp only [USER_BASE]; omega), hdiv, and_lt_32 (by decide), hpte]
      decide
    · have himg := hbyte _ hdiv
      rw [Space.byte, hdiv, hmod] at himg
      rw [h'.byteAt_eq hs.owns (by simp only [USER_BASE]; omega) (hdiv ▸ hD), Space.byte, hdiv, hmod,
        Mem.bytes_mapBytes, Bytes.write_apply, hl, himg, imageByte_tiny hi, tinyPage]
      by_cases h100 : 100 ≤ i ∧ i < 112
      · rw [if_pos h100, if_pos (by omega)]
        congr 1
        omega
      · rw [if_neg h100, if_neg (by omega)]

/-- **`sys_exec` gathers its arguments faithfully and in bounds.**  It consists of
`execArgsLog`, which only writes to elements of `path`, `argv` and `buf`, and a call of
`kexec`.  The call is made iff the path is a string of fewer than `MAXPATH` characters, there
is a page for `buf`, and `a1` is 0 or a list of strings that fits in it (`Callable`); `kexec`
is passed that path, and in `argv` exactly these strings (`Passed`). -/
theorem sysExec_gathers (h : Caller k.mem (k.procs p).pt) :
    (∀ progs, (sysExec progs p : KernelM L Int) =
      execArgsLog p >>= fun r => execCall progs p r.1) ∧
    ∃ r log k', execArgsLog p k = .ok ((r, log), k') ∧ ExecArgs k k' p r log := by
  refine ⟨fun progs => sysExec_eq progs p, ?_⟩
  obtain ⟨⟨r, log⟩, k', hrun, hpost⟩ := wp_iff.1 (execArgsLog_spec h)
  exact ⟨r, log, k', hrun, hpost⟩

/-- `a0` is the address of the instruction of the small program, which reads as a string of
three characters; `a1` is the address of `a2` in the trapframe, which holds that address, too,
and is followed by zeros.  So there is one argument, which `sys_exec` copies to `buf`. -/
theorem sysExec_gathers_tiny : ∃ (k k' : Kernel tinyLayout) (p : Slot) (buf : Nat) (log : List Cell),
    execArgsLog p k = .ok ((some ([0x13, 0x05, 0x10], [buf], buf), log), k') ∧
      k'.mem.bytes.read buf 4 = [0x13, 0x05, 0x10, 0] := by
  obtain ⟨k, hcaller, hfree, ⟨harg0, harg1, -⟩, hat⟩ :=
    tiny_process USER_BASE (USER_BASE + 108) USER_BASE (by decide) (by decide) (by decide)
  have hbytes : ∀ i n, i + n ≤ 4096 → bytesAt k.mem.bytes (k.procs 0).pt (USER_BASE + i) n =
      (List.range n).map fun j => tinyPage USER_BASE (USER_BASE + 108) USER_BASE (i + j) := by
    intro i n hn
    refine List.map_congr_left fun j hj => ?_
    rw [Nat.add_assoc]
    exact (hat (i + j) (by have := List.mem_range.1 hj; omega)).2
  have hstr : StrAt k.mem.bytes (k.procs 0).pt USER_BASE 3 := by
    refine ⟨fun i hi => (hat i (by omega)).1, (hat 3 (by decide)).2, fun i hi => ?_⟩
    rw [(hat i (by omega)).2]
    exact (by decide : ∀ i < 3, tinyPage USER_BASE (USER_BASE + 108) USER_BASE i ≠ 0) i hi
  -- the array is that address and 0
  have harray : ∀ i < 2, argAt k.mem.bytes (k.procs 0).pt (USER_BASE + 108) i =
      [USER_BASE, 0].getD i 0 := by
    intro i hi
    have hlt : (USER_BASE + 108 + 4 * i) % 2 ^ 32 = USER_BASE + (108 + 4 * i) := by
      simp only [USER_BASE]
      omega
    rw [argAt, hlt, hbytes _ 4 (by omega)]
    exact (by decide : ∀ i < 2, Bytes.word (fun j => (((List.range 4).map fun j =>
      tinyPage USER_BASE (USER_BASE + 108) USER_BASE (108 + 4 * i + j))).getD j 0) 0 =
        [USER_BASE, 0].getD i 0) i hi
  have h0 := harray 0 (by decide)
  have h1 := harray 1 (by decide)
  have hargs : ArgsAt k.mem.bytes (k.procs 0).pt (arg1 k 0) 1 fun _ => 3 := by
    rw [harg1]
    refine ⟨by decide, fun i hi j hj => ?_, h1, fun i hi => ?_, by decide⟩
    · rw [show USER_BASE + 108 + 4 * i + j = USER_BASE + (108 + 4 * i + j) by omega]
      exact (hat _ (by omega)).1
    · obtain rfl : i = 0 := by omega
      rw [h0]
      exact hstr
  obtain ⟨-, r, log, k', hrun, hr⟩ := sysExec_gathers hcaller
  obtain ⟨⟨path, argv, buf⟩, rfl⟩ := Option.isSome_iff_exists.1
    (hr.call_iff.2 ⟨⟨3, by decide, harg0 ▸ hstr⟩, hfree, .inr ⟨1, _, hargs⟩⟩)
  obtain ⟨⟨n, -, hstr', hpath⟩, hpass, -⟩ := hr.of_some path argv buf rfl
  rw [harg0] at hstr' hpath
  obtain rfl := hstr'.unique hstr
  obtain ⟨hne, m, len, hg⟩ := hpass.resolve_left fun h => by
    rw [harg1] at h
    exact absurd h.1 (by decide)
  -- there is one argument, and its length is 3
  rw [harg1] at hg
  obtain rfl : m = 1 := by
    rcases Nat.lt_trichotomy m 1 with h | h | h
    · obtain rfl : m = 0 := by omega
      exact absurd (h0.symm.trans hg.args.zero) (by decide)
    · exact h
    · exact absurd h1 (hg.first 1 h)
  have hlen : len 0 = 3 := by
    have hs := hg.args.str 0 (by decide)
    rw [h0] at hs
    exact hs.unique hstr
  have hcopy := hg.copy 0 (by decide)
  rw [hlen, h0] at hcopy
  replace hcopy := hcopy.trans (hbytes 0 4 (by decide))
  obtain rfl : path = [0x13, 0x05, 0x10] := hpath.trans (hbytes 0 3 (by decide))
  obtain rfl : argv = [buf] := hg.argv_eq
  exact ⟨k, k', 0, buf, log, hrun, hcopy⟩

end Wl00.Vm
