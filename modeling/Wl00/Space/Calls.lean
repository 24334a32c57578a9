import Wl00.Space.Gather
import Wl00.Space.Ownership

/-!
# What `exec` and `fork` leave behind

* `exec_failed` — after an `exec` that returns -1 everything is as it was.
* `fork_copies` — the child of a `fork` is a copy of its parent, and from then on neither
  can change what the other reads.
* `fork_all_or_nothing` — a `fork` that makes no child leaves no trace.
-/

namespace Wl00.Vm

open Prog
open Sched (Slot ProcState NPROC succPid)

variable {L : Layout} {k k' : Kernel L} {s s' : Mem L} {p np : Slot} {kpt : Space}
  {A : Slot → Assets} {progs : Programs}

/-! ## What a process can tell -/

/-- The process in slot `p` cannot tell `k'` from `k`: its slot, its trapframe, the entries
of its table and the bytes of its pages are the same. -/
structure SeesSame (k k' : Kernel L) (p : Slot) : Prop where
  slot : k'.procs p = k.procs p
  trapframe : ∀ o < sizeofTrapframe,
    k'.mem.bytes ((k.procs p).tf + o) = k.mem.bytes ((k.procs p).tf + o)
  entry : ∀ v < 2 ^ 20,
    leafEntry k'.mem.bytes (k.procs p).pt v = leafEntry k.mem.bytes (k.procs p).pt v
  bytes : ∀ v < 2 ^ 20, leafEntry k.mem.bytes (k.procs p).pt v &&& PTE_U ≠ 0 → ∀ o < 4096,
    k'.mem.bytes (pte2pa (leafEntry k.mem.bytes (k.procs p).pt v) + o) =
      k.mem.bytes (pte2pa (leafEntry k.mem.bytes (k.procs p).pt v) + o)

/-- It cannot if none of its pages has changed. -/
theorem World.seesSame (h : World k kpt A) (hl : (k.procs p).Live) (hp : k'.procs p = k.procs p)
    (hs : ∀ q ∈ (A p).pages, SamePage k.mem.bytes k'.mem.bytes q) : SeesSame k k' p := by
  obtain ⟨t, ks, sp, hA, -, htf, hpt, hok⟩ := h.space hl
  rw [hA] at hs
  have hok' := hok.congr fun q hq => hs q (.inl (.inr (.inl hq)))
  refine ⟨hp, fun o ho => ?_, fun v hv => ?_, fun v hv hu o ho => ?_⟩
  · rw [htf]
    simp only [sizeofTrapframe] at ho
    exact hs t (.inl (.inl rfl)) o (by omega)
  · rw [hpt, hok'.holds.leafEntry hv, hok.holds.leafEntry hv]
  · rw [hpt, hok.holds.leafEntry hv, user_bit] at hu
    have hD := hok.shape.mem_of_user hu
    rw [hpt, hok.holds.leafEntry hv, hok.shape.owns.pte2pa hD]
    exact hs _ (.inl (.inr (.inr ⟨v, hD, rfl⟩))) o ho

/-- The bytes of every page in use are the same. -/
theorem Frame.bytes_eq {B B' : Set Nat} (h : Frame s s' B B') {a : Nat} (ha : ¬s.free (a / 4096))
    (hB : a / 4096 ∉ B) : s'.bytes a = s.bytes a := by
  have := h.same _ ha hB (a % 4096) (by omega)
  rwa [show a / 4096 * 4096 + a % 4096 = a by omega] at this

theorem Frame.free_eq (h : Frame s s' ∅ ∅) (u : Nat) : s'.free u ↔ s.free u := by
  rw [h.free_iff]
  simp

/-- Every page behind `D` can be read. -/
theorem Holds.access_read {m : Bytes} {sp : Space} {D : Set Nat} {va : Nat} (h : Holds L m sp)
    (hs : Shape L sp D) (hva : va < 2 ^ 32) (hD : va / 4096 ∈ D) :
    Access m (sp.root * 4096) PTE_R va := by
  have hbits : ∀ w < 32, w % 2 = 1 → w / 2 % 2 = 1 → w / 16 % 2 = 1 →
      w &&& (PTE_V ||| PTE_U ||| PTE_R) = PTE_V ||| PTE_U ||| PTE_R := by decide
  have hv := hs.owns.valid _ hD
  have hf := hs.flags _ hD
  rw [Access, h.entryAt_eq hva, and_lt_32 (by decide)]
  exact hbits _ (Nat.mod_lt _ (by decide)) (by omega) (by omega) (by omega)

/-! ## `exec` -/

/-- **A failed `exec` leaves the caller untouched.**  When `sys_exec` returns -1, the slots,
the free pages and the bytes of all pages in use are as before the call, and so are the
caller's trapframe, its translations and its memory in particular. -/
theorem exec_failed (hr : (system L progs).Reachable k) (hp : (k.procs p).state = .running)
    (hx : sysExec progs p k = .ok (-1, k')) :
    k'.procs = k.procs ∧ SeesSame k k' p ∧ (∀ u, k'.mem.free u ↔ k.mem.free u) ∧
      (∀ a, ¬k.mem.free (a / 4096) → k'.mem.bytes a = k.mem.bytes a) ∧
      k'.kptable = k.kptable ∧ k'.currPid = k.currPid := by
  obtain ⟨kpt, A, h⟩ := world_reachable hr
  have hl : (k.procs p).Live := .inr (.inl hp)
  obtain ⟨t, ks, sp, hA, -, -, -, -⟩ := h.space hl
  have hm := (h.slot p).mem
  have hh := h.held p
  rw [hA] at hm hh
  rcases (sysExec_spec hm hh).of_run hx with ⟨-, hu⟩ | ⟨hpos, -⟩
  · have hprocs : k'.procs = k.procs := by rw [hu.eq]
    refine ⟨hprocs, h.seesSame hl (by rw [hprocs]) fun q hq => ?_, hu.frame.free_eq,
      fun a ha => hu.frame.bytes_eq ha id, by rw [hu.eq], by rw [hu.eq]⟩
    exact hu.frame.same q (h.held p q hq) id
  · exact absurd hpos (by decide)

/-- Where one process is alone, what is not free is the kernel's table and what the process
holds. -/
theorem World.few_of_alone {n : Nat} (h : World k kpt A) (hl : (k.procs p).Live)
    (halone : ∀ j, j ≠ p → (k.procs j).state = .unused) (hf : Few k.mem.free n) :
    Few (InRange L) (n + (2053 + (k.procs p).sz / 4096)) := by
  obtain ⟨t, ks, sp, hA, -, -, -, -⟩ := h.space hl
  have hm := (h.slot p).mem
  rw [hA] at hm
  obtain ⟨K, hK, hkmem⟩ := h.kholds.tables_card
  obtain ⟨G, hG, hmem⟩ := hm.pages_card (E := insert stackPage (Finset.Ico 1 ((k.procs p).sz / 4096)))
    (by simp [userDom, imagePages, Set.union_comm])
  obtain ⟨F, hF, hfree⟩ := hf
  refine ⟨F ∪ (K ∪ G), ?_, fun q hq => ?_⟩
  · have h1 := Finset.card_union_le F (K ∪ G)
    have h2 := Finset.card_union_le K G
    have h3 := Finset.card_insert_le stackPage (Finset.Ico 1 ((k.procs p).sz / 4096))
    rw [Nat.card_Ico] at h3
    omega
  · simp only [Finset.mem_union]
    by_cases hfr : k.mem.free q
    · exact .inl (hfree q hfr)
    obtain ⟨i, hi⟩ := h.pages.cover q hq hfr
    cases i with
    | none => exact .inr (.inl (hkmem q hi))
    | some j =>
        by_cases hj : j = p
        · subst hj
          rw [owner, hA] at hi
          exact .inr (.inr (hmem q hi))
        · rw [owner, ((h.slot j).unused (halone j hj)).2, Assets.pages_empty] at hi
          exact hi.elim

/-- The characters of `echo` -/
def echoName : List UInt8 := [0x65, 0x63, 0x68, 0x6F]

/-- The small program with the name of another in the place of its code. -/
def namingImage : Image where
  bytes i := (tinyBytes.take 84 ++ echoName).getD i 0
  len := 92
  len_lt := by decide

/-- Two headers that are the same, so that one of the segments cannot be loaded. -/
def overlapImage : Image where
  bytes i := (tinyBytes.take 44 ++ [2] ++ (tinyBytes.take 84).drop 45 ++
    (tinyBytes.take 84).drop 52).getD i 0
  len := 116
  len_lt := by decide

/-- `init` has the name of `echo` at `USER_BASE`, and `echo` cannot be loaded. -/
def overlapPrograms : Programs := ⟨namingImage, tinyImage, overlapImage⟩

theorem imageEnd_naming : imageEnd (segments namingImage) = 0x1008 := by
  rw [show segments namingImage = [phdr namingImage 0] from rfl]
  decide

theorem namingImage_accepts : Accepts namingImage where
  len := by decide
  elf := by decide
  off := by decide
  ok := by decide

theorem roomy_naming : Roomy namingImage (InRange tinyLayout) 2052 :=
  roomy_of_one (by decide) (by decide) imageEnd_naming

theorem loadElf_overlap {sp : Space} (h : Holds L s.bytes sp) (hk : sp.pte = kernelPte L)
    (hh : Held s sp.tables) :
    wp (loadElf (sp.root * 4096) overlapImage) (fun r _ => r.ret = -1) s := by
  refine (loadElf_spec overlapImage h hk hh).mono fun r s' hr => ?_
  obtain ⟨sp', hs, hb, -, ⟨hret, -⟩ | ⟨-, rfl, -⟩⟩ := hr
  · exact hret
  · have hasc := hb.ascends.asc
    rw [show segments overlapImage = [phdr overlapImage 0, phdr overlapImage 1] from rfl] at hasc
    exact absurd (List.rel_of_pairwise_cons hasc List.mem_cons_self) (by decide)

theorem kexec_overlap (argv : List Nat) :
    wpe (kexec overlapPrograms p (cstr "echo") argv) (fun r _ => r = -1) (fun _ => True) k := by
  have hfind : findProgram overlapPrograms (cstr "echo") = some overlapImage := by
    simp [findProgram, Programs.table, overlapPrograms, cstr]
  rw [kexec, hfind]
  dsimp only
  rw [wpe_bind, wpe_onMem]
  refine (initUserpt_spec k.mem).toWpe.mono (fun pt s₁ hi => ?_) fun _ => id
  rcases hi with ⟨rfl, -, -⟩ | ⟨sp, rfl, hne, hk, hh, hf⟩
  · rw [if_pos rfl, wpe_pure]
  · rw [if_neg hne, wpe_bind, wpe_onMem]
    refine (loadElf_overlap hh hk hf.held').toWpe.mono (fun r s₂ hr => ?_) fun _ => id
    rw [if_pos hr, wpe_bind]
    exact (wpe_total _ _).mono (fun _ _ _ => (wpe_pure _).2 rfl) fun _ => id

/-- After a trap of the first process with these registers, `echo` is its path. -/
theorem naming_traps : ∃ (k : Kernel tinyLayout) (p : Slot),
    (system tinyLayout overlapPrograms).Reachable k ∧ (k.procs p).state = .running ∧
      ¬Few k.mem.free 1026 ∧ Caller k.mem (k.procs p).pt ∧
      arg0 k p = USER_BASE ∧ arg1 k p = 0 ∧
      ∀ i < 5, Access k.mem.bytes (k.procs p).pt PTE_R ((USER_BASE + i) % 2 ^ 32) ∧
        byteAt k.mem.bytes (k.procs p).pt ((USER_BASE + i) % 2 ^ 32) =
          echoName.getD i 0 := by
  obtain ⟨k₀, p, hr₀, hp₀, hsz, hbytes, halone⟩ :=
    init_runs (L := tinyLayout) overlapPrograms namingImage_accepts roomy_naming
  rw [show overlapPrograms.init = namingImage from rfl, imageEnd_naming] at hsz
  obtain ⟨kpt, A, h₀⟩ := world_reachable hr₀
  have hl₀ : (k₀.procs p).Live := .inr (.inl hp₀)
  obtain ⟨_, k, hrun, h, hprocs, hregs, hsame⟩ :=
    wp_iff.1 (h₀.trap hl₀ 0 fun i => if i = 10 then USER_BASE else 0)
  have hl : (k.procs p).Live := by rwa [hprocs]
  obtain ⟨t, ks, sp, hA, -, htf, hpt, hok₀⟩ := h₀.space hl₀
  have hm := (h₀.slot p).mem
  have hh := h.held p
  have hh₀ := h₀.held p
  rw [hA] at hm hh hh₀
  -- the trap has changed a page that is not the process's
  have hpages : ∀ y ∈ sp.tables ∪ sp.frames (userDom (k₀.procs p).sz),
      SamePage k₀.mem.bytes k.mem.bytes y := by
    intro y hy
    refine hsame y (hh₀ y (.inl (.inr hy))) fun he => hm.apart.tf_space y hy ?_
    rw [htf] at he
    exact Set.mem_singleton_iff.2 (Nat.eq_of_mul_eq_mul_right (by decide) he)
  have hok := hok₀.congr fun y hy => hpages y (.inl hy)
  have hone : 1 ∈ userDom (k₀.procs p).sz := by
    rw [hsz]
    exact .inl ⟨by decide, by decide⟩
  refine ⟨k, p, hr₀.next (a := .trap p 0 _) ⟨hp₀, hrun⟩, by rw [hprocs, hp₀], ?_, ?_, ?_, ?_,
    fun i hi => ?_⟩
  · intro hfew
    refine not_few_tiny ?_ (h.few_of_alone hl (fun j hj => by rw [hprocs, halone j hj]) hfew)
    rw [hprocs, hsz]
    decide
  · rw [hprocs, hpt]
    exact hok.holds.caller hok.shape fun y hy => hh y (.inl (.inr hy))
  · rw [arg0, hprocs]
    exact hregs 10 (by decide) (by decide) (by decide)
  · rw [arg1, hprocs]
    exact hregs 11 (by decide) (by decide) (by decide)
  · have hlt : (USER_BASE + i) % 2 ^ 32 = USER_BASE + i := by
      simp only [USER_BASE]
      omega
    have hva : USER_BASE + i < 2 ^ 32 := by
      simp only [USER_BASE]
      omega
    have hdiv : (USER_BASE + i) / 4096 = 1 := by
      simp only [USER_BASE]
      omega
    rw [← hdiv] at hone
    rw [hprocs, hpt, hlt]
    refine ⟨hok.holds.access_read hok.shape hva hone, ?_⟩
    have himg := hbytes (USER_BASE + i) (by
      rw [hdiv, show overlapPrograms.init = namingImage from rfl, imageDom, imageEnd_naming]
      decide)
    rw [hpt, hok₀.holds.byteAt_eq hok₀.shape.owns hva hone, Space.byte] at himg
    rw [hok.holds.byteAt_eq hok.shape.owns hva hone, Space.byte,
      hpages _ (.inr ⟨_, hone, rfl⟩) _ (Nat.mod_lt _ (by decide)), himg]
    exact (by decide : ∀ i < 5, imageByte namingImage.bytes (segments namingImage)
      (USER_BASE + i) = echoName.getD i 0) i hi

/-- `sys_exec` takes a page for `buf` and `kexec` those of a table before `load_elf` refuses
the image. -/
theorem exec_failed_tiny : ∃ (k k₁ k' : Kernel tinyLayout) (p : Slot) (b pt : Nat)
    (log : List Cell) (s₁ : Mem tinyLayout),
    (system tinyLayout overlapPrograms).Reachable k ∧ (k.procs p).state = .running ∧
      execArgsLog p k = .ok ((some (cstr "echo", [], b * PAGE_SIZE), log), k₁) ∧
      k.mem.free b ∧ ¬k₁.mem.free b ∧ initUserpt k₁.mem = .ok (pt, s₁) ∧ pt ≠ 0 ∧
      sysExec overlapPrograms p k = .ok (-1, k') ∧ ∀ u, k'.mem.free u ↔ k.mem.free u := by
  obtain ⟨k, p, hr, hp, hmany, hcaller, harg0, harg1, hat⟩ := naming_traps
  have hstr : StrAt k.mem.bytes (k.procs p).pt USER_BASE 4 := by
    refine ⟨fun i hi => (hat i (by omega)).1, (hat 4 (by decide)).2, fun i hi => ?_⟩
    rw [(hat i (by omega)).2]
    exact (by decide : ∀ i < 4, echoName.getD i 0 ≠ 0) i hi
  have hfree : ∃ q, k.mem.free q := by
    by_contra hno
    exact hmany ((Few.none fun q hq => hno ⟨q, hq⟩).mono (by decide))
  obtain ⟨⟨r, log⟩, k₁, hrun, hargs⟩ := wp_iff.1 (execArgsLog_spec hcaller)
  obtain ⟨⟨path, argv, buf⟩, rfl⟩ := Option.isSome_iff_exists.1
    (hargs.call_iff.2 ⟨⟨4, by decide, harg0 ▸ hstr⟩, hfree, .inl harg1⟩)
  obtain ⟨⟨n, -, hstr', hpath⟩, hpass, b, rfl, hbuf, hfree₁⟩ := hargs.of_some path argv buf rfl
  rw [harg0] at hstr' hpath
  obtain rfl := hstr'.unique hstr
  obtain rfl : path = cstr "echo" := by
    refine hpath.trans ((List.map_congr_left fun i hi => (hat i ?_).2).trans (by decide))
    have := List.mem_range.1 hi
    omega
  obtain ⟨-, rfl⟩ := hpass.resolve_right fun hc => hc.1 harg1
  -- there is memory for a table
  obtain ⟨pt, s₁, hpt, hne⟩ : ∃ pt s₁, initUserpt k₁.mem = .ok (pt, s₁) ∧ pt ≠ 0 := by
    obtain ⟨pt, s₁, hpt, ⟨-, -, F, hF, hmem⟩ | ⟨-, -, hne, -⟩⟩ := wp_iff.1 (initUserpt_spec k₁.mem)
    · refine absurd ⟨insert b F, ?_, fun q hq => ?_⟩ hmany
      · exact (Finset.card_insert_le b F).trans (by omega)
      · rw [Finset.mem_insert]
        by_cases hqb : q = b
        · exact .inl hqb
        · exact .inr (hmem q ((hfree₁ q).2 ⟨hq, hqb⟩))
    · exact ⟨pt, s₁, hpt, hne⟩
  -- but not for the two segments
  have hfail : wpe (sysExec overlapPrograms p) (fun r _ => r = -1) (fun _ => True) k := by
    have hcall : wp (execArgsLog p) (fun r k' =>
        r = (some (cstr "echo", [], b * PAGE_SIZE), log) ∧ k' = k₁) k :=
      wp_iff.2 ⟨_, k₁, hrun, rfl, rfl⟩
    rw [sysExec_eq, wpe_bind]
    refine hcall.toWpe.mono ?_ fun _ => id
    rintro _ _ ⟨rfl, rfl⟩
    rw [execCall, wpe_bind]
    refine (kexec_overlap []).mono (fun r k₂ hr' => ?_) fun _ => id
    rw [wpe_bind]
    exact (wpe_total _ _).mono (fun _ _ _ => (wpe_pure _).2 hr') fun _ => id
  obtain ⟨kpt, A, h⟩ := world_reachable hr
  have hspec : wp (sysExec overlapPrograms p) _ k := h.sysExec (.inr (.inl hp))
  obtain ⟨r, k', hx, -⟩ := wp_iff.1 hspec
  obtain rfl : r = -1 := hfail.of_ok hx
  exact ⟨k, k₁, k', p, b, pt, log, s₁, hr, hp, hrun, hbuf.free, fun hb => ((hfree₁ b).1 hb).2 rfl,
    hpt, hne, hx, (exec_failed hr hp hx).2.2.1⟩

/-! ## `fork` -/

/-- Calls of `copyout` through one table. -/
def copyoutAll (pt : Nat) : List (UInt32 × List UInt8) → MemM L Unit
  | [] => pure ()
  | w :: ws => do
      let _ ← copyout pt w.1.toNat w.2
      copyoutAll pt ws

theorem copyoutAll_spec {sp : Space} {D : Set Nat} {ws : List (UInt32 × List UInt8)}
    (h : Holds L s.bytes sp) (hs : Shape L sp D) (hh : Held s (sp.tables ∪ sp.frames D))
    (hw : ∀ w ∈ ws, w.2.length < 2 ^ 32) :
    wp (copyoutAll (sp.root * 4096) ws) (fun _ s' => Frame s s' (sp.frames D) (sp.frames D)) s := by
  induction ws generalizing s with
  | nil =>
      rw [copyoutAll, wp_pure]
      exact .refl fun q hq => hh q (.inr hq)
  | cons w ws ih =>
      rw [copyoutAll, wp_bind]
      refine (copyout_spec h hs hh w.1.toNat_lt (hw w (by simp))).mono fun _ s₁ hc => ?_
      obtain ⟨h₁, hh₁⟩ := h.frame_user hs.owns hh hc.2
      exact (ih h₁ hh₁ fun x hx => hw x (by simp [hx])).mono fun _ s₂ hf => hc.2.trans hf

/-- Whatever is written through the table of the process in slot `p`, the process in slot
`q` cannot tell. -/
def CannotReach (k : Kernel L) (p q : Slot) : Prop :=
  ∀ ws : List (UInt32 × List UInt8), (∀ w ∈ ws, w.2.length < 2 ^ 32) →
    ∃ s, copyoutAll (k.procs p).pt ws k.mem = .ok ((), s) ∧ SeesSame k { k with mem := s } q

theorem World.cannotReach (h : World k kpt A) (hp : (k.procs p).Live) {q : Slot}
    (hq : (k.procs q).Live) (hne : q ≠ p) : CannotReach k p q := by
  intro ws hw
  obtain ⟨t, ks, sp, hA, -, -, hpt, hok⟩ := h.space hp
  have hsub : sp.tables ∪ sp.frames (userDom (k.procs p).sz) ⊆ (A p).pages := by
    rw [hA]
    exact fun x hx => .inl (.inr hx)
  obtain ⟨_, s, hrun, hf⟩ := wp_iff.1 (copyoutAll_spec hok.holds hok.shape
    (fun x hx => h.held p x (hsub hx)) hw)
  refine ⟨s, by rw [hpt]; exact hrun, h.seesSame hq rfl fun x hx => ?_⟩
  exact hf.same x (h.held q x hx) fun hm => h.apart hne x hx (hsub (.inr hm))

/-- The virtual pages of a user process of size `sz`. -/
def UserVpn (sz v : Nat) : Prop :=
  (USER_BASE ≤ v * 4096 ∧ v * 4096 < sz) ∨ v * 4096 = USER_STACK_TOP - PAGE_SIZE

/-- The words of the trapframe that `fork` copies. -/
theorem TrapframeCopy.word {m m' : Bytes} {tp t o : Nat} (h : TrapframeCopy m m' tp t)
    (ho : 4 ≤ o) (hlt : o + 4 ≤ sizeofTrapframe) (hne : o + 4 ≤ regOff 10 ∨ regOff 10 + 4 ≤ o) :
    m'.word (t * 4096 + o) = m.word (tp * 4096 + o) := by
  apply Bytes.word_congr
  intro i hi
  rw [Nat.add_assoc, Nat.add_assoc]
  exact h.same (o + i) ⟨by omega, by omega, by omega⟩

/-- **`fork` duplicates the user's state and then isolates it.**  For a `fork` that has made
a child in slot `np`: the child maps the user pages of its parent and no others, with the
same flags, to other pages with the same bytes; the parent cannot tell the difference;
the child's trapframe has the parent's registers and `epc`, but 0 in `a0`; and from then
on neither can reach the other through its table. -/
theorem fork_copies {r : Int} (hr : (system L progs).Reachable k)
    (hp : (k.procs p).state = .running) (hf : fork p k = .ok (r, k'))
    (hu : (k.procs np).state = .unused) (hn : (k'.procs np).state = .ready) :
    (∀ v < 2 ^ 20, leafEntry k'.mem.bytes (k'.procs np).pt v &&& PTE_U ≠ 0 ↔
      UserVpn (k.procs p).sz v) ∧
    (∀ v, UserVpn (k.procs p).sz v →
      pteFlags (leafEntry k'.mem.bytes (k'.procs np).pt v) =
        pteFlags (leafEntry k.mem.bytes (k.procs p).pt v) ∧
      ∀ o < 4096, k'.mem.bytes (pte2pa (leafEntry k'.mem.bytes (k'.procs np).pt v) + o) =
        k.mem.bytes (pte2pa (leafEntry k.mem.bytes (k.procs p).pt v) + o)) ∧
    (∀ v w, UserVpn (k.procs p).sz v → UserVpn (k.procs p).sz w →
      pte2pa (leafEntry k'.mem.bytes (k'.procs np).pt v) ≠
        pte2pa (leafEntry k'.mem.bytes (k.procs p).pt w)) ∧
    SeesSame k k' p ∧
    (∀ u, ¬k.mem.free u → ¬k'.mem.free u) ∧
    (∀ a, ¬k.mem.free (a / 4096) → k'.mem.bytes a = k.mem.bytes a) ∧
    (∀ i, 1 ≤ i → i ≤ 31 → i ≠ 10 → k'.mem.bytes.word ((k'.procs np).tf + regOff i) =
      k.mem.bytes.word ((k.procs p).tf + regOff i)) ∧
    k'.mem.bytes.word ((k'.procs np).tf + epcOff) = k.mem.bytes.word ((k.procs p).tf + epcOff) ∧
    k'.mem.bytes.word ((k'.procs np).tf + regOff 10) = 0 ∧
    CannotReach k' np p ∧ CannotReach k' p np := by
  obtain ⟨kpt, A, h⟩ := world_reachable hr
  have hl : (k.procs p).Live := .inr (.inl hp)
  have hspec : wp (fork p) _ k := fork_spec h hl
  rcases hspec.of_run hf with ⟨-, hno, -⟩ | ⟨-, tp, kp, sp, c, t, ks, sp', hA, hfk⟩
  · rw [hno.procs, hu] at hn
    cases hn
  obtain rfl : c = np := by
    by_contra hne
    rw [hfk.procs, Function.update_of_ne (Ne.symm hne), hu] at hn
    cases hn
  have h' := h.forked hl hfk
  have hne : p ≠ c := by
    rintro rfl
    rw [hp] at hu
    cases hu
  obtain ⟨tp', ks', sp₁, hA₁, -, htp, hpt, hok⟩ := h.space hl
  rw [hA] at hA₁
  obtain ⟨rfl, rfl, rfl⟩ : tp = tp' ∧ kp = ks' ∧ sp = sp₁ := by
    simp only [Assets.mk.injEq, Option.some.injEq, Prod.mk.injEq, and_true] at hA₁
    exact ⟨hA₁.1, hA₁.2.1, hA₁.2.2⟩
  have hpp : k'.procs p = k.procs p := by rw [hfk.procs, Function.update_of_ne hne]
  have hcp := congrFun hfk.procs c
  rw [Function.update_self] at hcp
  have hpt' : (k'.procs c).pt = sp'.root * 4096 := by rw [hcp]; rfl
  have hok' := hfk.mem.space sp' _ rfl
  have hsees : SeesSame k k' p :=
    h.seesSame hl hpp fun q hq => hfk.frame.same q (h.held p q hq) id
  have hvpn : ∀ v, v ∈ userDom (k.procs p).sz ↔ UserVpn (k.procs p).sz v :=
    fun v => mem_userDom hok.aligned
  have htf' : (k'.procs c).tf = t * 4096 := by rw [hcp]; rfl
  have hlc : (k'.procs c).Live := .inl hn
  refine ⟨fun v hv => ?_, fun v hv => ?_, fun v w hv hw => ?_, hsees, fun u hfree => ?_,
    fun a ha => hfk.frame.bytes_eq ha id, fun i h1 h31 h10 => ?_, ?_, ?_, ?_, ?_⟩
  · rw [hpt', hok'.holds.leafEntry hv, user_bit, ← hvpn]
    exact ⟨hok'.shape.mem_of_user, fun hD => (hok'.shape.flags v hD).2⟩
  · have hD := (hvpn v).2 hv
    have hlt := hok.shape.lt hD
    have hcopy := hfk.copies v hD
    rw [hpt, hpt', hok.holds.leafEntry hlt, hok'.holds.leafEntry hlt, pteFlags_eq, pteFlags_eq,
      hok.shape.owns.pte2pa hD, hok'.shape.owns.pte2pa hD]
    exact hcopy
  · have hD := (hvpn v).2 hv
    have hE := (hvpn w).2 hw
    have hwl := hok.shape.lt hE
    have hentry := hsees.entry w hwl
    rw [hpt] at hentry
    rw [hpt, hentry, hpt', hok.holds.leafEntry hwl, hok'.holds.leafEntry (hok.shape.lt hD),
      hok.shape.owns.pte2pa hE, hok'.shape.owns.pte2pa hD]
    intro heq
    -- the parent's page is in use before the call and the child's page is not
    have hmem : sp'.page v ∈ Assets.pages ⟨some t, some ks, some (sp', userDom (k.procs p).sz)⟩ :=
      .inl (.inr (.inr ⟨v, hD, rfl⟩))
    refine h.held p (sp.page w) ?_ ?_
    · rw [hA]
      exact .inl (.inr (.inr ⟨w, hE, rfl⟩))
    · rw [show sp.page w = sp'.page v by omega]
      exact (hfk.frame.fresh _ hmem).resolve_left id
  · rw [hfk.frame.free_iff]
    exact fun hx => hfree (hx.1.resolve_right id)
  · rw [htf', htp]
    refine hfk.trapframe.word ?_ ?_ ?_ <;> simp only [regOff, sizeofTrapframe] <;> omega
  · rw [htf', htp]
    exact hfk.trapframe.word (by decide) (by decide) (by decide)
  · rw [htf']
    exact hfk.trapframe.a0
  · exact h'.cannotReach hlc (by rw [hpp]; exact hl) hne
  · exact h'.cannotReach (by rw [hpp]; exact hl) hlc hne.symm

/-- On the small machine a process that is alone can fork. -/
theorem fork_alone {k : Kernel tinyLayout} (hr : (system tinyLayout progs).Reachable k)
    (hp : (k.procs p).state = .running) (hsz : (k.procs p).sz = 0x2000)
    (halone : ∀ j, j ≠ p → (k.procs j).state = .unused) :
    ∃ np k', fork p k = .ok (k.currPid, k') ∧ np ≠ p ∧ (k'.procs np).state = .ready ∧
      k'.procs p = k.procs p := by
  obtain ⟨kpt, A, h⟩ := world_reachable hr
  have hl : (k.procs p).Live := .inr (.inl hp)
  have hspec : wp (fork p) _ k := fork_spec h hl
  obtain ⟨r, k', hf, ⟨-, -, hfull | hfew⟩ | ⟨hpid, tp, kp, sp, np, t, ks, sp', -, hfk⟩⟩ :=
    wp_iff.1 hspec
  · obtain ⟨j, hj⟩ : ∃ j, j ≠ p := exists_ne p
    exact absurd (halone j hj) (hfull j)
  · refine absurd (h.few_of_alone hl halone hfew) (not_few_tiny ?_)
    rw [hsz]
    decide
  · have hne : np ≠ p := by
      rintro rfl
      exact absurd (hp.symm.trans hfk.unused) (by decide)
    refine ⟨np, k', hpid ▸ hf, hne, ?_, ?_⟩
    · rw [hfk.procs, Function.update_self]
      rfl
    · rw [hfk.procs, Function.update_of_ne hne.symm]

/-- The first process of the small machine forks. -/
theorem fork_copies_tiny : ∃ (k k' : Kernel tinyLayout) (p np : Slot) (r : Int),
    (system tinyLayout tinyPrograms).Reachable k ∧ (k.procs p).state = .running ∧
      fork p k = .ok (r, k') ∧ (k.procs np).state = .unused ∧ (k'.procs np).state = .ready ∧
      CannotReach k' np p ∧ CannotReach k' p np := by
  obtain ⟨k, p, hr, hp, hsz, halone⟩ := tiny_runs
  obtain ⟨np, k', hf, hne, hn, -⟩ := fork_alone hr hp hsz halone
  obtain ⟨-, -, -, -, -, -, -, -, -, hcp, hpc⟩ := fork_copies hr hp hf (halone np hne) hn
  exact ⟨k, k', p, np, _, hr, hp, hf, halone np hne, hn, hcp, hpc⟩

/-- What a slot that is not used has. -/
def Proc.Blank (p : Proc) : Prop :=
  p.pid = 0 ∧ p.pt = 0 ∧ p.tf = 0 ∧ p.parent = none ∧ p.kstack = 0 ∧ p.sz = 0

theorem Proc.blank_of_reset {q : Proc} (h : q.reset = q) : q.Blank := by
  rw [← h]
  exact ⟨rfl, rfl, rfl, rfl, rfl, rfl⟩

/-- **A failed `fork` leaves no trace.**  `fork` always returns: with the pid of a child, in
a slot that was not used before, or with -1.  In the second case the process table is as
before, with every unused slot blank; the parent cannot tell the difference; and the same
pages are free.  Only `curr_pid` may have advanced. -/
theorem fork_all_or_nothing (hr : (system L progs).Reachable k)
    (hp : (k.procs p).state = .running) :
    ∃ r k', fork p k = .ok (r, k') ∧
      ((r = k.currPid ∧ ∃ np, (k.procs np).state = .unused ∧ (k'.procs np).state = .ready) ∨
        (r = -1 ∧ k'.procs = k.procs ∧
          (∀ j, (k'.procs j).state = .unused → (k'.procs j).Blank) ∧ SeesSame k k' p ∧
          (∀ u, k'.mem.free u ↔ k.mem.free u) ∧
          (∀ a, ¬k.mem.free (a / 4096) → k'.mem.bytes a = k.mem.bytes a) ∧
          k'.kptable = k.kptable ∧ (k'.currPid = k.currPid ∨ k'.currPid = succPid k.currPid))) := by
  obtain ⟨kpt, A, h⟩ := world_reachable hr
  have hl : (k.procs p).Live := .inr (.inl hp)
  have hspec : wp (fork p) _ k := fork_spec h hl
  obtain ⟨r, k', hf, ⟨hr', hno, -⟩ | ⟨hr', tp, kp, sp, np, t, ks, sp', -, hfk⟩⟩ := wp_iff.1 hspec
  · refine ⟨r, k', hf, .inr ⟨hr', hno.procs, fun j hj => ?_, ?_, hno.frame.free_eq,
      fun a ha => hno.frame.bytes_eq ha id, hno.kptable, hno.currPid⟩⟩
    · rw [hno.procs] at hj ⊢
      exact Proc.blank_of_reset (h.reset j hj)
    · exact h.seesSame hl (by rw [hno.procs]) fun q hq => hno.frame.same q (h.held p q hq) id
  · refine ⟨r, k', hf, .inl ⟨hr', np, hfk.unused, ?_⟩⟩
    rw [hfk.procs, Function.update_self]
    rfl

/-- If a process allocates slots again and again, it gets none in the end. -/
theorem procalloc_exhausts {n : Nat} (hr : (system L progs).Reachable k)
    (hp : (k.procs p).state = .running)
    (hn : (Finset.univ.filter fun j => (k.procs j).state = .unused).card = n) :
    ∃ k₁ k₂, (system L progs).Reachable k₁ ∧ (k₁.procs p).state = .running ∧
      procalloc k₁ = .ok (none, k₂) ∧ k₂.procs = k₁.procs := by
  induction n using Nat.strong_induction_on generalizing k with
  | _ n ih =>
      obtain ⟨kpt, A, h⟩ := world_reachable hr
      have hspec : wp procalloc _ k := procalloc_spec h.reset
      obtain ⟨r, k', hrun, ⟨rfl, hk, -⟩ | ⟨i, hi, -, -, ⟨rfl, hprocs, -⟩ | ⟨rfl, t, ks, sp, -, -, -, -, hprocs⟩⟩⟩ :=
        wp_iff.1 hspec
      · exact ⟨k, k', hr, hp, hrun, by rw [hk]⟩
      · exact ⟨k, k', hr, hp, hrun, hprocs⟩
      · -- slot `i` is used now
        have hne : p ≠ i := by
          rintro rfl
          rw [hp] at hi
          cases hi
        have hr' : (system L progs).Reachable k' :=
          hr.next (a := .procalloc) ⟨trivial, by simp only [Op.run, bind, StateT.bind, hrun]; rfl⟩
        refine ih _ ?_ hr' (by rw [hprocs, Function.update_of_ne hne, hp]) rfl
        rw [← hn]
        have hnew : (k'.procs i).state = .new := by
          rw [hprocs, Function.update_self]
          rfl
        refine Finset.card_lt_card ⟨fun j hj => ?_, fun hsub => ?_⟩
        · simp only [Finset.mem_filter, Finset.mem_univ, true_and] at hj ⊢
          by_cases hji : j = i
          · rw [hji, hi]
          · rwa [hprocs, Function.update_of_ne hji] at hj
        · have := hsub (Finset.mem_filter.2 ⟨Finset.mem_univ i, hi⟩)
          rw [Finset.mem_filter, hnew] at this
          exact absurd this.2 (by decide)

/-- On the small machine a `fork` fails when the first process has used up the table. -/
theorem fork_all_or_nothing_tiny : ∃ (k k' : Kernel tinyLayout) (p : Slot),
    (system tinyLayout tinyPrograms).Reachable k ∧ (k.procs p).state = .running ∧
      fork p k = .ok (-1, k') ∧ k'.procs = k.procs ∧ ∀ u, k'.mem.free u ↔ k.mem.free u := by
  obtain ⟨k₀, p, hr₀, hp₀, -, -⟩ := tiny_runs
  obtain ⟨k, k₂, hr, hp, hrun, hprocs⟩ := procalloc_exhausts hr₀ hp₀ rfl
  have hf : wp (fork p) (fun r k' => r = -1 ∧ k' = k₂) k := by
    have hnone : wp procalloc (fun r k' => r = none ∧ k' = k₂) k :=
      wp_iff.2 ⟨none, k₂, hrun, rfl, rfl⟩
    unfold fork
    rw [wp_bind]
    refine hnone.mono ?_
    rintro r k' ⟨rfl, rfl⟩
    rw [wp_pure]
    exact ⟨rfl, rfl⟩
  obtain ⟨r, k', hok, h⟩ := fork_all_or_nothing hr hp
  obtain ⟨rfl, rfl⟩ := hf.of_run hok
  rcases h with ⟨-, np, hu, hn⟩ | ⟨-, hsame, -, -, hfree, -, -, -⟩
  · rw [hprocs, hu] at hn
    cases hn
  · exact ⟨k, k', p, hr, hp, hok, hsame, hfree⟩

end Wl00.Vm
