import Wl00.Space.Push
import Wl00.Space.World

/-!
# `exec`

`kexec` builds a new space beside the old one, and only gives the old one back when nothing
can fail any more.  It is cut in two: `prepare` loads the program into a new space with an
empty stack, and `kexecArgs` pushes the arguments and lets the process have it (`kexec_eq`).

* `Installed` — a space with a program in it, and what is on its stack.
* `prepare_spec` — when the program is loaded, and that nothing is left of it otherwise.
* `commit_spec` — the process has the new space.
* `kexec_spec`, `sysExec_spec` — the process has become the program that it asks for, or
  nothing has changed.
-/

namespace Wl00.Vm

open Prog
open Sched (Slot ProcState)

variable {L : Layout} {k k' : Kernel L} {s s' : Mem L} {p : Slot} {kpt : Space}
  {A : Slot → Assets} {progs : Programs} {img : Image}

/-! ## Programs in memory -/

/-- What `load_elf` has built is a user space, of the size it returns. -/
theorem Built.spaceOk {img : Image} {sp sp' : Space} {hs : List PrgHdr}
    (h : Built img s s' sp sp' hs) :
    SpaceOk L s'.bytes sp' (imageDom hs) (pgRoundUp (imageEnd hs)) ∧
      USER_BASE ≤ pgRoundUp (imageEnd hs) ∧
      userDom (pgRoundUp (imageEnd hs)) = imageDom hs ∪ {stackPage} ∧ stackPage ∉ imageDom hs := by
  have hround := pgRoundUp_eq h.ascends.end_le
  have hbase := h.ascends.base_le
  have hend := h.ascends.end_le
  simp only [USER_BASE, UART_0] at hbase hend
  have hdom : userDom (pgRoundUp (imageEnd hs)) = imageDom hs ∪ {stackPage} := by
    rw [userDom, imageDom_eq h.ascends]
  refine ⟨⟨h.holds, h.shape, ?_, by omega, ?_⟩, ?_, hdom, ?_⟩
  · rw [hdom]
    exact Set.subset_union_left
  · simp only [UART_0]
    omega
  · simp only [USER_BASE]
    omega
  · rintro ⟨-, hlt⟩
    simp only [stackPage] at hlt
    omega

/-- The space `sp` has the program `img` in it, and `stack` on its stack. -/
structure Installed (L : Layout) (m : Bytes) (sp : Space) (D : Set Nat) (img : Image)
    (stack : Bytes) : Prop where
  holds : Holds L m sp
  shape : Shape L sp D
  dom : D = imageDom (segments img) ∪ {stackPage}
  apart : stackPage ∉ imageDom (segments img)
  image_flags : ∀ v ∈ imageDom (segments img), sp.pte v % 1024 = imageFlags (segments img) v
  image : ∀ x, x / 4096 ∈ imageDom (segments img) →
    sp.byte m x = imageByte img.bytes (segments img) x
  stack_flags : sp.pte stackPage % 1024 = 23
  stack : ∀ x, x / 4096 = stackPage → sp.byte m x = stack x

namespace Installed

variable {m m' : Bytes} {sp : Space} {D : Set Nat} {stack stack' : Bytes}

theorem mem (h : Installed L m sp D img stack) : stackPage ∈ D := by
  rw [h.dom]
  exact .inr rfl

theorem hasStack (h : Installed L s.bytes sp D img stack)
    (hh : Held s (sp.tables ∪ sp.frames D)) : HasStack L s sp D :=
  ⟨h.holds, h.shape, hh, h.mem, by have := h.stack_flags; omega⟩

theorem byteAt (h : Installed L m sp D img stack) {x : Nat}
    (hx : x / 4096 ∈ imageDom (segments img)) :
    byteAt m (sp.root * 4096) x = imageByte img.bytes (segments img) x := by
  have hD : x / 4096 ∈ D := h.dom ▸ .inl hx
  have hlt := h.shape.lt hD
  rw [h.holds.byteAt_eq h.shape.owns (by omega) hD, h.image x hx]

/-- It is still there when its pages are the same. -/
theorem congr (h : Installed L m sp D img stack)
    (hm : ∀ q ∈ sp.tables ∪ sp.frames D, SamePage m m' q) : Installed L m' sp D img stack where
  holds := h.holds.congr fun q hq => hm q (.inl hq)
  shape := h.shape
  dom := h.dom
  apart := h.apart
  image_flags := h.image_flags
  image x hx := by
    have hD : x / 4096 ∈ D := h.dom ▸ .inl hx
    rw [← h.image x hx, Space.byte, Space.byte]
    exact hm _ (.inr ⟨_, hD, rfl⟩) _ (Nat.mod_lt _ (by decide))
  stack_flags := h.stack_flags
  stack x hx := by
    rw [← h.stack x hx, Space.byte, Space.byte, hx]
    exact hm _ (.inr ⟨_, h.mem, rfl⟩) _ (Nat.mod_lt _ (by decide))

/-- Something has been pushed on the stack. -/
theorem push (h : Installed L s.bytes sp D img stack) (hh : Held s (sp.tables ∪ sp.frames D))
    (hf : Frame s s' {sp.page stackPage} {sp.page stackPage})
    (hs : ∀ x, x / 4096 = stackPage → sp.byte s'.bytes x = stack' x) :
    Installed L s'.bytes sp D img stack' where
  holds := ((h.hasStack hh).touch hf).holds
  shape := h.shape
  dom := h.dom
  apart := h.apart
  image_flags := h.image_flags
  image x hx := by
    have hD : x / 4096 ∈ D := h.dom ▸ .inl hx
    have hne : sp.page (x / 4096) ≠ sp.page stackPage := fun hc =>
      h.apart (h.shape.owns.inj _ hD _ h.mem hc ▸ hx)
    rw [← h.image x hx, Space.byte, Space.byte]
    exact hf.same _ (hh _ (.inr ⟨_, hD, rfl⟩)) hne _ (Nat.mod_lt _ (by decide))
  stack_flags := h.stack_flags
  stack := hs

end Installed

/-- What `load_elf` has built, and a page of stack. -/
theorem Built.installed {s₁ s₂ : Mem L} {sp sp₁ sp₂ : Space} {stack : Bytes}
    (h : Built img s s₁ sp sp₁ (segments img))
    (hbec : Becomes s₁ s₂ sp₁ sp₂ (imageDom (segments img)) (imageDom (segments img) ∪ {stackPage}))
    (hold : ∀ v ∈ imageDom (segments img),
      sp₂.pte v = sp₁.pte v ∧ SamePage s₁.bytes s₂.bytes (sp₁.page v))
    (hfl : sp₂.pte stackPage % 1024 = 23)
    (hst : ∀ x, x / 4096 = stackPage → sp₂.byte s₂.bytes x = stack x) :
    Installed L s₂.bytes sp₂ (imageDom (segments img) ∪ {stackPage}) img stack where
  holds := hbec.holds
  shape := hbec.shape
  dom := rfl
  apart := h.spaceOk.2.2.2
  image_flags v hv := by
    rw [(hold v hv).1]
    exact h.flags v hv
  image x hx := by
    rw [← h.bytes x hx, Space.byte, Space.byte, Space.page, (hold _ hx).1, ← Space.page]
    exact (hold _ hx).2 _ (Nat.mod_lt _ (by decide))
  stack_flags := hfl
  stack := hst

/-! ## `kexec` up to the arguments -/

/-- There is memory for the program `img`, and for `n` pages besides. -/
structure Roomy (img : Image) (free : Nat → Prop) (n : Nat) : Prop where
  segment : ∀ j < (readElfHdr img.bytes).phnum, ¬Few free (n + 3076 + ((phdr img j).fin + 4095) / 4096)
  stack : ¬Few free (n + 1030 + (imageEnd (segments img) + 4095) / 4096)

/-- Of the room for `n` pages, a program has taken those in `G`. -/
theorem Roomy.of_frame {img : Image} {B B' : Set Nat} {G : Finset Nat} {n n' : Nat}
    (h : Roomy img s.free n) (hf : Frame s s' B B') (hG : ∀ q ∈ B', q ∈ G) (hn : n' + G.card ≤ n) :
    Roomy img s'.free n' :=
  ⟨fun j hj hfew => h.segment j hj ((hfew.of_footprint hf hG).mono (by omega)),
    fun hfew => h.stack ((hfew.of_footprint hf hG).mono (by omega))⟩

/-- `kexec` up to the arguments: the new table and what `load_elf` says, or `none` where there
is no such program, it cannot be loaded, or there is no memory. -/
def prepare (progs : Programs) (path : List UInt8) : MemM L (Option (Nat × Loaded)) :=
  match findProgram progs path with
  | none => pure none
  | some img => do
      let pt ← initUserpt
      if pt = 0 then pure none
      else do
        let r ← loadElf pt img
        if r.ret = -1 then do
          uvmfree pt r.sz
          pure none
        else do
          let ok ← mapStack pt
          if ok = true then pure (some (pt, r))
          else do
            uvmfree pt r.sz
            pure none

/-- `prepare` has made the space `sp`, which has the program `img` in it and an empty stack. -/
structure Prepared (s s' : Mem L) (sp : Space) (img : Image) (r : Loaded) : Prop where
  frame : Frame s s' ∅ (sp.tables ∪ sp.frames (userDom r.sz))
  ok : SpaceOk L s'.bytes sp (userDom r.sz) r.sz
  base_le : USER_BASE ≤ r.sz
  entry : r.entry = (readElfHdr img.bytes).entry
  installed : Installed L s'.bytes sp (userDom r.sz) img fun _ => 0

/-- `kexec` gives the new space back. -/
theorem uvmfree_undoes {sp : Space} {D : Set Nat} {sz : Nat} {α : Type} {a : α}
    {Q : α → Mem L → Prop} (hf : Frame s s' ∅ (sp.tables ∪ sp.frames D))
    (hok : SpaceOk L s'.bytes sp D sz) (hQ : ∀ s₁, Frame s s₁ ∅ ∅ → Q a s₁) :
    wp (do
      uvmfree (sp.root * 4096) sz
      pure a) Q s' := by
  rw [wp_bind]
  refine (uvmfree_spec hok.holds hok.within hf.held' hok.aligned hok.le).mono fun _ s₁ hu => ?_
  rw [wp_pure]
  exact hQ s₁ (hf.trans hu)

/-- **`prepare` succeeds for a program that loads, when there is memory**, and leaves nothing
behind where it fails. -/
theorem prepare_spec (progs : Programs) (path : List UInt8) (s : Mem L) :
    wp (prepare progs path) (fun o s' => match o with
      | some (pt, r) => ∃ sp img, pt = sp.root * 4096 ∧ findProgram progs path = some img ∧
          Prepared s s' sp img r
      | none => Frame s s' ∅ ∅ ∧
          ∀ img, findProgram progs path = some img → ¬(Accepts img ∧ Roomy img s.free 1025)) s := by
  unfold prepare
  cases hfind : findProgram progs path with
  | none =>
      rw [wp_pure]
      exact ⟨.refl fun _ => False.elim, fun img he => by cases he⟩
  | some img =>
      dsimp only
      rw [wp_bind]
      have hnone : ¬(Accepts img ∧ Roomy img s.free 1025) → ∀ img', some img = some img' →
          ¬(Accepts img' ∧ Roomy img' s.free 1025) := by
        intro hno img' he
        cases he
        exact hno
      refine (initUserpt_spec s).mono fun pt s₁ hi => ?_
      rcases hi with ⟨rfl, hf, hfew⟩ | ⟨sp₀, rfl, hne, hk, h₀, hf₀⟩
      · rw [if_pos rfl, wp_pure]
        exact ⟨hf, hnone fun hr => hr.2.stack (hfew.mono (by omega))⟩
      rw [if_neg hne, wp_bind]
      obtain ⟨G, hG, hmem⟩ := h₀.tables_card
      refine (loadElf_spec img h₀ hk hf₀.held').mono fun r s₂ hl => ?_
      obtain ⟨sp₂, hs, hbuilt, hsz, hret⟩ := hl
      obtain ⟨hok, hlo, hdom, hst⟩ := hbuilt.spaceOk
      have hf₂ := hf₀.trans hbuilt.frame
      rw [← hsz] at hok hlo hdom
      rw [← hbuilt.grows.root]
      rcases hret with ⟨hret, hwhy⟩ | ⟨hret, rfl, hentry⟩
      · rw [if_pos hret]
        refine uvmfree_undoes hf₂ hok fun s₃ hf₃ => ⟨hf₃, hnone fun hr => ?_⟩
        rcases hwhy with hno | ⟨j, hj, hfew⟩
        · exact hno hr.1
        · exact hr.2.segment j hj ((hfew.of_footprint hf₀ hmem).mono (by omega))
      rw [if_neg (by omega), wp_bind]
      refine (mapStack_bytes hbuilt.holds hbuilt.shape hbuilt.held hst).mono fun ok s₃ hm => ?_
      rcases hm with ⟨rfl, hfew, hf₃⟩ | ⟨rfl, sp₃, hbec, hfl, hzero, hold⟩
      · rw [if_neg (by decide)]
        have hheld := hbuilt.held
        refine uvmfree_undoes (hf₂.trans (hf₃.widen_self hheld (Set.empty_subset _)))
          (hok.congr fun q hq => hf₃.same q (hheld q (.inl hq)) id)
          fun s₄ hf₄ => ⟨hf₄, hnone fun hr => ?_⟩
        exact hr.2.stack (((hbuilt.few hfew).of_footprint hf₀ hmem).mono (by omega))
      · rw [if_pos rfl, wp_pure]
        have hinst := hbuilt.installed hbec hold hfl hzero
        rw [← hdom] at hbec hinst
        exact ⟨sp₃, img, by rw [hbec.grows.root], rfl, hf₂.trans hbec.frame,
          ⟨hbec.holds, hbec.shape, subset_rfl, hok.aligned, hok.le⟩, hlo, hentry, hinst⟩

/-! ## `kexec` from the arguments on -/

/-- `kexec` from the arguments on. -/
def kexecArgs (p : Slot) (path : List UInt8) (argv : List Nat) :
    Option (Nat × Loaded) → KernelM L Int
  | none => pure (-1)
  | some (pt, r) => do
      match ← onMem (pushArgs pt argv) with
      | none => do
          onMem (uvmfree pt r.sz)
          pure (-1)
      | some sp => commit p path pt r.sz r.entry sp argv.length

theorem onMem_bind {α β : Type} (m : MemM L α) (f : α → MemM L β) :
    (onMem (m >>= f) : KernelM L β) = onMem m >>= fun a => onMem (f a) := by
  unfold onMem
  rw [zoom_bind]
  · intros
    rfl
  · intros
    rfl

theorem onMem_pure {α : Type} (a : α) : (onMem (pure a) : KernelM L α) = pure a := rfl

theorem kexec_eq (progs : Programs) (p : Slot) (path : List UInt8) (argv : List Nat) :
    (kexec progs p path argv : KernelM L Int) =
      onMem (prepare progs path) >>= kexecArgs p path argv := by
  unfold kexec prepare
  cases findProgram progs path with
  | none => rfl
  | some img =>
      dsimp only
      rw [onMem_bind, bind_assoc]
      congr 1
      funext pt
      split_ifs
      · rw [onMem_pure, pure_bind]
        rfl
      rw [onMem_bind, bind_assoc]
      congr 1
      funext r
      split_ifs
      · rw [onMem_bind, bind_assoc]
        rfl
      rw [buildStack_eq, onMem_bind, onMem_bind, bind_assoc, bind_assoc]
      congr 1
      funext ok
      split_ifs
      · rw [onMem_pure, pure_bind]
        rfl
      · rw [onMem_pure, pure_bind, onMem_bind, bind_assoc]
        rfl

/-- The process in slot `p`, which held `A₀`, has the space `sp` of another program. -/
structure Execed (k k' : Kernel L) (p : Slot) (A₀ : Assets) (sp : Space) (sz : Nat) : Prop where
  currPid : k'.currPid = k.currPid
  kptable : k'.kptable = k.kptable
  procs : ∃ name, k'.procs =
    Function.update k.procs p { k.procs p with pt := sp.root * 4096, sz := sz, name := name }
  base_le : USER_BASE ≤ sz
  mem : SlotMem L k'.mem.bytes (k'.procs p) { A₀ with space := some (sp, userDom sz) }
  frame : Frame k.mem k'.mem A₀.pages (Assets.pages { A₀ with space := some (sp, userDom sz) })
  enter : ∀ t, A₀.tf = some t → ∀ o < 16, k'.mem.bytes (t * 4096 + o) = k.mem.bytes (t * 4096 + o)

/-- Nothing has changed but what free pages hold. -/
structure Untouched (k k' : Kernel L) : Prop where
  eq : k' = { k with mem := k'.mem }
  frame : Frame k.mem k'.mem ∅ ∅

/-- What `kexec` stores in the trapframe in page `t`. -/
def execWords (m : Bytes) (t entry x : Nat) : Bytes :=
  ((m.storeWord (t * 4096 + epcOff) entry).storeWord (t * 4096 + regOff 2) x).storeWord
    (t * 4096 + regOff 11) x

section ExecWords

variable {m m' : Bytes} {t entry x : Nat}

theorem SamePage.storeWord (h : SamePage m m' t) (a w : Nat) :
    SamePage (m.storeWord a w) (m'.storeWord a w) t := by
  intro o ho
  rw [Bytes.storeWord, Bytes.storeWord, Bytes.write_apply, Bytes.write_apply, h o ho]

theorem SamePage.execWords (h : SamePage m m' t) :
    SamePage (execWords m t entry x) (execWords m' t entry x) t :=
  ((h.storeWord _ _).storeWord _ _).storeWord _ _

/-- It lies behind what `usertrap` loads. -/
theorem execWords_of_lt {o : Nat} (ho : o < 16) :
    execWords m t entry x (t * 4096 + o) = m (t * 4096 + o) := by
  rw [execWords, Bytes.storeWord_of_ne (by simp only [regOff]; omega),
    Bytes.storeWord_of_ne (by simp only [regOff]; omega),
    Bytes.storeWord_of_ne (by simp only [epcOff]; omega)]

theorem word_execWords_epc :
    (execWords m t entry x).word (t * 4096 + epcOff) = entry % 2 ^ 32 := by
  rw [execWords, Bytes.word_storeWord_of_ne (by simp only [regOff, epcOff]; omega),
    Bytes.word_storeWord_of_ne (by simp only [regOff, epcOff]; omega), Bytes.word_storeWord_mod]

/-- `sp` and `a1` are set, and the other registers are as they were. -/
theorem word_execWords_reg (i : Nat) : (execWords m t entry x).word (t * 4096 + regOff i) =
    if i = 2 ∨ i = 11 then x % 2 ^ 32 else m.word (t * 4096 + regOff i) := by
  unfold execWords
  split_ifs with hi
  · rcases hi with rfl | rfl
    · rw [Bytes.word_storeWord_of_ne (by simp only [regOff]; omega), Bytes.word_storeWord_mod]
    · rw [Bytes.word_storeWord_mod]
  · rw [Bytes.word_storeWord_of_ne (by simp only [regOff]; omega),
      Bytes.word_storeWord_of_ne (by simp only [regOff]; omega),
      Bytes.word_storeWord_of_ne (by simp only [regOff, epcOff]; omega)]

end ExecWords

/-- `kexec` from `Commit` on: the process has the space that has been built, with the bytes
that its pages have, and three words of its trapframe are set. -/
theorem commit_spec {t ks sz entry x argc : Nat} {sp sp' : Space} {D : Set Nat} {path : List UInt8}
    (hm : SlotMem L k.mem.bytes (k.procs p) ⟨some t, some ks, some (sp, D)⟩)
    (hh : Held k.mem (Assets.pages ⟨some t, some ks, some (sp, D)⟩))
    (hf : Frame k.mem s ∅ (sp'.tables ∪ sp'.frames (userDom sz)))
    (hok : SpaceOk L s.bytes sp' (userDom sz) sz) (hlo : USER_BASE ≤ sz) :
    wp (commit p path (sp'.root * 4096) sz entry x argc) (fun r k' => r = argc ∧
      Execed k k' p ⟨some t, some ks, some (sp, D)⟩ sp' sz ∧
      (∀ q ∈ sp'.tables ∪ sp'.frames (userDom sz), SamePage s.bytes k'.mem.bytes q) ∧
      SamePage (execWords k.mem.bytes t entry x) k'.mem.bytes t) { k with mem := s } := by
  have htm : t ∈ Assets.pages ⟨some t, some ks, some (sp, D)⟩ := .inl (.inl rfl)
  have hO : spaceSet (some (sp, D)) ⊆ Assets.pages ⟨some t, some ks, some (sp, D)⟩ :=
    fun q hq => .inl (.inr hq)
  have hold := hm.space sp D rfl
  -- the new space is apart from everything the process had
  have hnew := hf.not_mem hh fun _ _ => id
  have hheld := hf.held hh fun _ _ => id
  have hst := frame_stores [(epcOff, entry), (regOff 2, x), (regOff 11, x)]
    (by simp [epcOff, regOff]) (hheld t htm)
  simp only [List.foldl_cons, List.foldl_nil] at hst
  have hwords : SamePage (execWords k.mem.bytes t entry x)
      (((s.mapBytes (·.storeWord (t * 4096 + epcOff) entry)).mapBytes
        (·.storeWord (t * 4096 + regOff 2) x)).mapBytes
        (·.storeWord (t * 4096 + regOff 11) x)).bytes t := (hf.same t (hh t htm) id).execWords
  unfold commit
  simp only [wp_bind, wp_getProc, wp_modifyProc, wp_onMem, wp_store]
  rw [show (k.procs p).tf = t * 4096 from hm.tf_eq, show (k.procs p).pt = sp.root * 4096 from hm.pt_eq]
  simp only [Kernel.setProc, Function.update_self, Function.update_idem]
  generalize ((s.mapBytes _).mapBytes _).mapBytes _ = s₁ at hst hwords ⊢
  -- the old space goes back
  have hN : ∀ q ∈ sp'.tables ∪ sp'.frames (userDom sz), q ∉ ({t} : Set Nat) := by
    rintro _ hq rfl
    exact hnew _ htm hq
  have hO₁ : SpaceOk L s₁.bytes sp D (k.procs p).sz := hold.congr fun q hq =>
    (hf.same q (hh q (hO (.inl hq))) id).trans
      (hst.same q (hheld q (hO (.inl hq))) (hm.apart.tf_space q (.inl hq)))
  have hheld₁ : Held s₁ (spaceSet (some (sp, D))) :=
    hst.held (fun q hq => hheld q (hO hq)) hm.apart.tf_space
  refine (uvmfree_spec hO₁.holds hO₁.within hheld₁ hO₁.aligned hO₁.le).mono fun _ s₂ hu => ?_
  rw [wp_pure]
  have f₁ := hf.seq hst fun q hq => ⟨hh q (.inl (.inl hq)), id⟩
  have f₂ := f₁.seq hu fun q hq => ⟨hh q (hO hq), fun hm' => hm.apart.tf_space q hq (hm'.resolve_left id)⟩
  have f₃ := f₂.frame (B := {ks}) fun q hq => ⟨hh q (.inr hq), fun hm' =>
    hm.apart.kstack q hq (hm'.imp (fun h => h.resolve_left id) id)⟩
  have hnew' : ∀ q ∈ sp'.tables ∪ sp'.frames (userDom sz), SamePage s.bytes s₂.bytes q := by
    intro q hq
    refine (hst.same q (hf.held' q hq) (hN q hq)).trans (hu.same q ?_ fun hqO => ?_)
    · exact hst.held hf.held' hN q hq
    · exact hnew q (hO hqO) hq
  have ht₂ : SamePage (execWords k.mem.bytes t entry x) s₂.bytes t :=
    hwords.trans (hu.same t (hst.held' t rfl) fun hqO => hm.apart.tf_space t hqO rfl)
  refine ⟨rfl, ⟨rfl, rfl, ⟨_, rfl⟩, hlo, ?_, ?_, ?_⟩, hnew', ht₂⟩
  · dsimp only
    rw [Function.update_self]
    refine ⟨hm.tf_eq, hm.kstack_eq, rfl, hm.tf_range, hm.kstack_range, ?_, ?_, ?_⟩
    · rintro _ _ he
      cases he
      exact hok.congr fun q hq => hnew' q (.inl hq)
    · exact hN
    · rintro q hq (hm' | hm')
      · exact hm.apart.kstack q hq (.inl hm')
      · exact hnew q (.inr hq) hm'
  · rw [Set.empty_union, Set.union_empty, Set.union_comm _ {t}] at f₃
    exact f₃
  · rintro _ he o ho
    cases he
    exact (ht₂ o (by omega)).trans (execWords_of_lt ho)

/-- **The process in slot `p` has become the program `img`**, with the arguments `strs`. -/
structure Started (k k' : Kernel L) (p : Slot) (t ks : Nat) (o : Option (Space × Set Nat))
    (img : Image) (strs : List (List UInt8)) (sp : Space) (sz : Nat) : Prop where
  execed : Execed k k' p ⟨some t, some ks, o⟩ sp sz
  installed : Installed L k'.mem.bytes sp (userDom sz) img (stackImage strs)
  words : SamePage (execWords k.mem.bytes t (readElfHdr img.bytes).entry (arrayAddr strs))
    k'.mem.bytes t

/-- **`kexec` pushes the arguments and lets the process have the new space**, iff they fit. -/
theorem kexecArgs_spec {t ks : Nat} {sp sp' : Space} {D : Set Nat} {path : List UInt8}
    {argv : List Nat} {strs : List (List UInt8)} {r : Loaded}
    (hm : SlotMem L k.mem.bytes (k.procs p) ⟨some t, some ks, some (sp, D)⟩)
    (hh : Held k.mem (Assets.pages ⟨some t, some ks, some (sp, D)⟩))
    (hpr : Prepared k.mem s sp' img r) (hargs : List.Forall₂ (KernelStr k.mem) argv strs)
    (hlen : ∀ l ∈ strs, l.length < 4096) :
    wp (kexecArgs p path argv (some (sp'.root * 4096, r))) (fun ret k' =>
      (ret = -1 ∧ ¬Fits strs ∧ Untouched k k') ∨
      (ret = argv.length ∧ Fits strs ∧ Started k k' p t ks (some (sp, D)) img strs sp' r.sz))
      { k with mem := s } := by
  have hheld := hpr.frame.held'
  have hpage : sp'.page stackPage ∈ sp'.tables ∪ sp'.frames (userDom r.sz) :=
    .inr ⟨_, hpr.installed.mem, rfl⟩
  have hstrs : Argv s {sp'.page stackPage} argv strs := hargs.imp fun a l hs => by
    obtain ⟨hs', hd⟩ := hs.frame hpr.frame fun _ _ => id
    exact ⟨hs', fun i hi he => hd i hi (Set.mem_singleton_iff.1 he ▸ hpage)⟩
  rw [kexecArgs, wp_bind, wp_onMem]
  refine (pushArgs_bytes (hpr.installed.hasStack hheld) hstrs hlen hpr.installed.stack).mono
    fun o s₁ ho => ?_
  obtain ⟨hf₁, ho⟩ := ho
  have hst₁ := (hpr.installed.hasStack hheld).touch hf₁
  have hok₁ : SpaceOk L s₁.bytes sp' (userDom r.sz) r.sz :=
    ⟨hst₁.holds, hst₁.shape, hpr.ok.sub, hpr.ok.aligned, hpr.ok.le⟩
  have hf := hpr.frame.trans (hf₁.widen_self hheld (Set.singleton_subset_iff.2 hpage))
  rcases ho with ⟨rfl, hno⟩ | ⟨rfl, hfit, himg⟩
  · rw [wp_bind, wp_onMem]
    refine (uvmfree_spec hok₁.holds hok₁.within hf.held' hok₁.aligned hok₁.le).mono fun _ s₂ hu => ?_
    rw [wp_pure]
    exact .inl ⟨rfl, hno, rfl, hf.trans hu⟩
  · refine (commit_spec hm hh hf hok₁ hpr.base_le).mono fun ret k' hc => ?_
    obtain ⟨rfl, hx, hsame, hwords⟩ := hc
    rw [hpr.entry] at hwords
    exact .inr ⟨rfl, hfit, hx, (hpr.installed.push hheld hf₁ himg).congr hsame, hwords⟩

/-- **`kexec` makes the process the program that it asks for, or changes nothing.**  The
arguments are strings in pages that are in use. -/
theorem kexec_spec {t ks : Nat} {sp : Space} {D : Set Nat} {path : List UInt8} {argv : List Nat}
    {strs : List (List UInt8)}
    (hm : SlotMem L k.mem.bytes (k.procs p) ⟨some t, some ks, some (sp, D)⟩)
    (hh : Held k.mem (Assets.pages ⟨some t, some ks, some (sp, D)⟩))
    (hargs : List.Forall₂ (KernelStr k.mem) argv strs) (hlen : ∀ l ∈ strs, l.length < 4096) :
    wp (kexec progs p path argv) (fun r k' => (r = -1 ∧ Untouched k k') ∨
      (r = argv.length ∧ Fits strs ∧ ∃ img sp' sz, findProgram progs path = some img ∧
        Started k k' p t ks (some (sp, D)) img strs sp' sz)) k := by
  rw [kexec_eq, wp_bind, wp_onMem]
  refine (prepare_spec progs path k.mem).mono fun o s ho => ?_
  cases o with
  | none =>
      rw [kexecArgs, wp_pure]
      exact .inl ⟨rfl, rfl, ho.1⟩
  | some o =>
      obtain ⟨pt, r⟩ := o
      obtain ⟨sp', img, rfl, hfind, hpr⟩ := ho
      refine (kexecArgs_spec hm hh hpr hargs hlen).mono fun ret k' hk => ?_
      rcases hk with ⟨rfl, -, hu⟩ | ⟨rfl, hfit, hs⟩
      · exact .inl ⟨rfl, hu⟩
      · exact .inr ⟨rfl, hfit, img, sp', r.sz, hfind, hs⟩

/-! ## `sys_exec` -/

/-- What a call of `exec` asks for: the path is the string that `a0` points to, and the
arguments are those that `a1` points to. -/
structure AsksExec (k : Kernel L) (p : Slot) (path : List UInt8) (strs : List (List UInt8)) :
    Prop where
  path : ∃ n < MAXPATH, StrAt k.mem.bytes (k.procs p).pt (arg0 k p) n ∧
    path = bytesAt k.mem.bytes (k.procs p).pt (arg0 k p) n
  args : Asks k.mem.bytes (k.procs p).pt (arg1 k p) strs

/-- The page `b` is taken before and given back afterwards. -/
theorem Started.around {k₂ : Kernel L} {s₁ : Mem L} {t ks b sz : Nat} {o : Option (Space × Set Nat)}
    {strs : List (List UInt8)} {sp : Space}
    (h : Started { k with mem := s₁ } k₂ p t ks o img strs sp sz)
    (hh : Held k.mem (Assets.pages ⟨some t, some ks, o⟩)) (hf₁ : Frame k.mem s₁ ∅ {b})
    (hf₂ : Frame k₂.mem s {b} ∅) : Started k { k₂ with mem := s } p t ks o img strs sp sz := by
  have hx := h.execed
  have hd : ∀ q ∈ ({b} : Set Nat), q ∉ Assets.pages ⟨some t, some ks, o⟩ :=
    fun q hq hc => hh q hc ((hf₁.fresh q hq).resolve_left id)
  have hd' : ∀ q ∈ Assets.pages ⟨some t, some ks, some (sp, userDom sz)⟩, q ∉ ({b} : Set Nat) :=
    fun q hq hqb => hx.frame.not_mem hf₁.held' hd q hqb hq
  have hsame : ∀ q ∈ Assets.pages ⟨some t, some ks, some (sp, userDom sz)⟩,
      SamePage k₂.mem.bytes s.bytes q := fun q hq => hf₂.same q (hx.frame.held' q hq) (hd' q hq)
  have ht : SamePage k.mem.bytes s₁.bytes t := hf₁.same t (hh t (.inl (.inl rfl))) id
  have ht' := hsame t (.inl (.inl rfl))
  have f₁ := hf₁.seq hx.frame fun q hq => ⟨hh q hq, id⟩
  have f₂ := f₁.trans (hf₂.frame fun q hq => ⟨hx.frame.held' q hq, hd' q hq⟩)
  rw [Set.empty_union, Set.empty_union] at f₂
  refine ⟨⟨hx.currPid, hx.kptable, hx.procs, hx.base_le, ?_, f₂, ?_⟩, ?_, ?_⟩
  · exact hx.mem.congr fun q hq => hsame q (.inl (.inr (.inl hq)))
  · rintro _ he o ho
    cases he
    exact (ht' o (by omega)).trans ((hx.enter t rfl o ho).trans (ht o (by omega)))
  · exact h.installed.congr fun q hq => hsame q (.inl (.inr hq))
  · exact ht.execWords.trans (h.words.trans ht')

/-- **`sys_exec` makes the process the program that it asks for, or changes nothing.** -/
theorem sysExec_spec {t ks : Nat} {sp : Space} {D : Set Nat}
    (hm : SlotMem L k.mem.bytes (k.procs p) ⟨some t, some ks, some (sp, D)⟩)
    (hh : Held k.mem (Assets.pages ⟨some t, some ks, some (sp, D)⟩)) :
    wp (sysExec progs p) (fun r k' => (r = -1 ∧ Untouched k k') ∨
      (0 ≤ r ∧ ∃ path strs img sp' sz, AsksExec k p path strs ∧ Fits strs ∧
        findProgram progs path = some img ∧
        Started k k' p t ks (some (sp, D)) img strs sp' sz)) k := by
  rw [sysExec_eq, wp_bind]
  refine (execArgsLog_spec (hm.caller hh)).mono fun o k₁ ho => ?_
  obtain ⟨o, log⟩ := o
  dsimp only at ho ⊢
  cases o with
  | none =>
      rw [execCall, wp_pure]
      rcases ho.of_none rfl with rfl | ⟨b, hbuf, hfree⟩
      · exact .inl ⟨rfl, rfl, .refl fun _ => False.elim⟩
      · exact .inl ⟨rfl, hbuf.eq, hbuf.frame_same hfree⟩
  | some o =>
      obtain ⟨path, argv, buf⟩ := o
      obtain ⟨hpath, hpass, b, rfl, hbuf, hfree⟩ := ho.of_some path argv buf rfl
      have hf₁ := hbuf.frame hfree
      obtain ⟨strs, hasks, hargs, hlen⟩ := hpass.strings (hf₁.held' b rfl)
      obtain ⟨s₁, rfl⟩ : ∃ s₁, k₁ = { k with mem := s₁ } := ⟨_, hbuf.eq⟩
      have hm₁ : SlotMem L s₁.bytes (k.procs p) ⟨some t, some ks, some (sp, D)⟩ :=
        hm.congr fun q hq => hbuf.samePage (hh q (.inl (.inr (.inl hq))))
      rw [execCall, wp_bind]
      refine (kexec_spec hm₁ (hf₁.held hh fun _ _ => id) hargs hlen).mono fun r k₂ hx => ?_
      rw [wp_bind, wp_onMem]
      rcases hx with ⟨rfl, hx⟩ | ⟨rfl, hfit, img, sp', sz, hfind, hx⟩
      · have hf₂ := hf₁.trans (hx.frame.widen_self hf₁.held' (Set.empty_subset _))
        refine (kfree_spec hbuf.free.inRange (hf₂.held' b rfl)).mono fun _ s₃ hk => ?_
        rw [wp_pure]
        exact .inl ⟨rfl, by rw [hx.eq], hf₂.trans hk.1⟩
      · have hd : ∀ q ∈ ({b} : Set Nat), q ∉ Assets.pages ⟨some t, some ks, some (sp, D)⟩ := by
          rintro _ rfl hc
          exact hh _ hc hbuf.free
        have hb₂ := hx.execed.frame.held hf₁.held' hd b rfl
        refine (kfree_spec hbuf.free.inRange hb₂).mono fun _ s₃ hk => ?_
        rw [wp_pure]
        exact .inr ⟨Int.natCast_nonneg _, path, strs, img, sp', sz, ⟨hpath, hasks⟩, hfit, hfind,
          hx.around hh hf₁ hk.1⟩

/-- **The world after `sys_exec`.**  The process runs on; where the call has failed, it has
its trapframe as before. -/
theorem World.sysExec (h : World k kpt A) (hl : (k.procs p).Live) :
    wp (Vm.sysExec progs p) (fun r k' => (∃ A', World k' kpt A') ∧
      (k'.procs p).state = (k.procs p).state ∧ (k'.procs p).tf = (k.procs p).tf ∧
        (r < 0 → Spares k k' p) ∧ (Vectors k p → Vectors k' p) ∧ ∀ q, q ≠ p → Spares k k' q) k := by
  obtain ⟨t, ks, sp, hA, -, htf, -, -⟩ := h.space hl
  have hm := (h.slot p).mem
  have hh := h.held p
  rw [hA] at hm hh
  refine (sysExec_spec hm hh).mono fun r k' hx => ?_
  rcases hx with ⟨-, hx⟩ | ⟨hr, _, _, _, sp', sz, -, -, -, ⟨hx, -, -⟩⟩
  · have hp : k'.procs = k.procs := by rw [hx.eq]
    have hkp : k'.kptable = k.kptable := by rw [hx.eq]
    have hs : ∀ q, Spares k k' q := fun q => h.spares hkp (by rw [hp]) fun x hx' =>
      hx.frame.same x (h.held q x (.inl (.inl (by rw [hx']; rfl)))) id
    exact ⟨⟨A, h.frame hx.frame hkp hp p⟩, by rw [hp], by rw [hp], fun _ => hs p,
      (hs p).vectors (by rw [hp]; exact hl), fun q _ => hs q⟩
  · obtain ⟨name, hp⟩ := hx.procs
    have hq := congrFun hp p
    rw [Function.update_self] at hq
    have hsz : (k'.procs p).sz = sz := by rw [hq]
    have hm' := hx.mem
    rw [← hsz] at hm'
    have hf : Frame k.mem k'.mem (A p).pages
        (Assets.pages ⟨some t, some ks, some (sp', userDom sz)⟩) := by
      rw [hA]
      exact hx.frame
    refine ⟨⟨_, h.update hf hx.kptable ?_ fun j hj hs => ?_⟩, by rw [hq], by rw [hq],
      fun hneg => absurd hneg (by omega), fun hv => hv.congr hx.kptable fun o _ ho => ?_,
      fun j hj => ?_⟩
    · rw [← hsz]
      refine .of_live hm' ?_ (by rw [hsz]; exact hx.base_le)
      unfold Proc.Live at hl ⊢
      rw [hq]
      exact hl
    · rwa [hp, Function.update_of_ne hj]
    · rw [show (k'.procs p).tf = (k.procs p).tf by rw [hq], htf]
      exact hx.enter t rfl o ho
    · exact h.spares_other hf hj hx.kptable (by rw [hp, Function.update_of_ne hj])

end Wl00.Vm
