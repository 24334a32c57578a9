import Wl00.Lib.Rv32

/-!
# The assembly files

`kerneltrap.S`, `swtch.S`, `usertrap.S` and `usertrapret.S`, each as its instructions up to
the jump it ends in or the call it makes.

* `run_kerneltrapEntry`, `run_kerneltrapExit` — the frame that `kerneltrap` keeps on the
  stack around the call of `s_trap_handle`.
* `run_swtch` — one context is saved, the other one loaded.
* `run_usertrap`, `run_usertrapret` — the registers of user mode go to the trapframe and come
  back.
-/

namespace Wl00.Trap

open Rv32

/-! ## `kerneltrap.S` -/

/-- What `kerneltrap` saves in its frame. -/
def frameSaves : Slots :=
  [(.ra, 0), (.gp, 8), (.tp, 12),
   (.t0, 16), (.t1, 20), (.t2, 24), (.t3, 28), (.t4, 32), (.t5, 36), (.t6, 40),
   (.a0, 44), (.a1, 48), (.a2, 52), (.a3, 56), (.a4, 60), (.a5, 64), (.a6, 68), (.a7, 72),
   (.s0, 76), (.s1, 80), (.s2, 84), (.s3, 88), (.s4, 92), (.s5, 96), (.s6, 100), (.s7, 104),
   (.s8, 108), (.s9, 112), (.s10, 116), (.s11, 120)]

/-- What it restores from there: all but `tp`. -/
def frameRestores : Slots :=
  [(.ra, 0), (.gp, 8),
   (.t0, 16), (.t1, 20), (.t2, 24), (.t3, 28), (.t4, 32), (.t5, 36), (.t6, 40),
   (.a0, 44), (.a1, 48), (.a2, 52), (.a3, 56), (.a4, 60), (.a5, 64), (.a6, 68), (.a7, 72),
   (.s0, 76), (.s1, 80), (.s2, 84), (.s3, 88), (.s4, 92), (.s5, 96), (.s6, 100), (.s7, 104),
   (.s8, 108), (.s9, 112), (.s10, 116), (.s11, 120)]

/-- `kerneltrap` up to `call s_trap_handle` -/
def kerneltrapEntry : List Instr :=
  .addi .sp .sp (-128) :: stores .sp frameSaves ++ [.csrr .a0 .scause, .csrr .a1 .sepc]

/-- `kerneltrap` after the call, up to `sret` -/
def kerneltrapExit : List Instr := loads .sp frameRestores ++ [.addi .sp .sp 128]

theorem frameSaves_fit : frameSaves.Fit 128 := by decide

theorem frameRestores_subset : ∀ s ∈ frameRestores, s ∈ frameSaves := by decide

theorem mem_frameRestores (r : Reg) : r ∈ frameRestores.map Prod.fst ↔ r ≠ .sp ∧ r ≠ .tp := by
  cases r <;> decide

/-- `addi sp, sp, -128` -/
theorem toNat_sub_frame {w : Word} (hw : 128 ≤ w.toNat) :
    (w + BitVec.ofInt 32 (-128)).toNat = w.toNat - 128 := by
  have hlt := w.isLt
  rw [BitVec.toNat_add, BitVec.toNat_ofInt]
  simp only [Nat.reducePow]
  omega

/-- **The frame is made** in the 128 bytes below `sp`. -/
theorem run_kerneltrapEntry {c : Core} (m : Bytes) (hsp : 128 ≤ (c.x .sp).toNat) :
    run c m kerneltrapEntry =
      (((c.set .sp (c.x .sp + BitVec.ofInt 32 (-128))).set .a0 (c.csr .scause)).set .a1 (c.csr .sepc),
        save m ((c.x .sp).toNat - 128) c.x frameSaves) := by
  have hlt := (c.x .sp).isLt
  have hbase := toNat_sub_frame hsp
  rw [kerneltrapEntry, List.cons_append, run, run_append]
  simp only [Instr.exec]
  generalize c.x .sp + BitVec.ofInt 32 (-128) = w at hbase ⊢
  have hne : ∀ s ∈ frameSaves, s.1 ≠ .sp := by decide
  have hkeep : ∀ s ∈ frameSaves, (c.set .sp w).x s.1 = c.x s.1 :=
    fun s hs => c.set_of_ne w (hne s hs)
  have hb : ((c.set .sp w).x .sp).toNat = (c.x .sp).toNat - 128 := by rw [Core.set_self, hbase]
  rw [run_stores frameSaves_fit (by rw [hb]; omega), hb, save_congr hkeep]
  simp only [run, Instr.exec, Core.set]

/-- **The frame is left**: every register but `sp` and `tp` comes from it. -/
theorem run_kerneltrapExit {c : Core} {m : Bytes} {x : Reg → Word}
    (hb : (c.x .sp).toNat + 128 ≤ 2 ^ 32) (hs : Saved m (c.x .sp).toNat x frameSaves) :
    run c m kerneltrapExit =
      ({ c with x := fun r =>
          if r = .sp then c.x .sp + BitVec.ofInt 32 128 else if r = .tp then c.x .tp else x r }, m) := by
  have hl : ∀ s ∈ frameRestores, s.2 + 4 ≤ 128 := by decide
  have hsp : .sp ∉ frameRestores.map Prod.fst := by decide
  rw [kerneltrapExit, run_append,
    run_loads hl hsp hb fun s hs' => hs s (frameRestores_subset s hs')]
  simp only [run, Instr.exec, Core.set, hsp, if_false]
  congr 2
  funext r
  rw [Function.update_apply]
  by_cases h1 : r = .sp
  · rw [if_pos h1, if_pos h1]
  · rw [if_neg h1, if_neg h1]
    by_cases h2 : r = .tp
    · rw [if_pos h2, if_neg fun hm => ((mem_frameRestores r).1 hm).2 h2, h2]
    · rw [if_neg h2, if_pos ((mem_frameRestores r).2 ⟨h1, h2⟩)]

/-- Whatever there is in the frame, memory and `tp` stay as they are. -/
theorem run_kerneltrapExit_frame (c : Core) (m : Bytes) :
    (run c m kerneltrapExit).2 = m ∧ (run c m kerneltrapExit).1.x .tp = c.x .tp := by
  obtain ⟨h1, -, h2⟩ := run_loads_frame c m .sp frameRestores
  rw [kerneltrapExit, run_append]
  simp only [run, Instr.exec]
  exact ⟨h1, (Core.set_of_ne _ _ (by decide)).trans (h2 .tp (by decide))⟩

/-! ## `swtch.S` -/

/-- The layout of `struct context` -/
def contextSlots : Slots :=
  [(.ra, 0), (.sp, 4), (.s0, 8), (.s1, 12), (.s2, 16), (.s3, 20), (.s4, 24), (.s5, 28), (.s6, 32),
   (.s7, 36), (.s8, 40), (.s9, 44), (.s10, 48), (.s11, 52)]

/-- `swtch(old, new)` up to `ret` -/
def swtch : List Instr := stores .a0 contextSlots ++ loads .a1 contextSlots

theorem contextSlots_fit : contextSlots.Fit 56 := by decide

/-- **One context is saved and the other one loaded.** -/
theorem run_swtch {c : Core} {m : Bytes} {x : Reg → Word} (h0 : (c.x .a0).toNat + 56 ≤ 2 ^ 32)
    (h1 : (c.x .a1).toNat + 56 ≤ 2 ^ 32)
    (hs : Saved (save m (c.x .a0).toNat c.x contextSlots) (c.x .a1).toNat x contextSlots) :
    run c m swtch =
      ({ c with x := fun r => if r ∈ contextSlots.map Prod.fst then x r else c.x r },
        save m (c.x .a0).toNat c.x contextSlots) := by
  rw [swtch, run_append, run_stores contextSlots_fit h0]
  exact run_loads contextSlots_fit.1 (by decide) h1 hs

/-! ## `usertrap.S` and `usertrapret.S` -/

/-- The registers in the trapframe but for `a0`, in the order of both files. -/
def trapframeSlots : Slots :=
  [(.ra, 24), (.sp, 28), (.gp, 32), (.tp, 36), (.t0, 40), (.t1, 44), (.t2, 48), (.s0, 52), (.s1, 56),
   (.a1, 64), (.a2, 68), (.a3, 72), (.a4, 76), (.a5, 80), (.a6, 84), (.a7, 88),
   (.s2, 92), (.s3, 96), (.s4, 100), (.s5, 104), (.s6, 108), (.s7, 112), (.s8, 116), (.s9, 120),
   (.s10, 124), (.s11, 128), (.t3, 132), (.t4, 136), (.t5, 140), (.t6, 144)]

/-- `usertrap` up to the jump to `u_trap_handle`, whose address is in `t2` -/
def usertrap : List Instr :=
  .csrrw .a0 .sscratch .a0 :: stores .a0 trapframeSlots ++
    [.csrr .t0 .sscratch, .sw .t0 60 .a0,
     .csrr .t1 .sepc, .sw .t1 16 .a0,
     .lw .tp 148 .a0, .lw .sp 0 .a0, .lw .t0 4 .a0, .lw .t1 8 .a0, .lw .t2 12 .a0,
     .sfenceVma, .csrw .satp .t1, .sfenceVma,
     .csrw .stvec .t0,
     .csrr .a0 .scause, .csrr .a1 .sepc]

/-- `usertrapret(tf)` up to `sret` -/
def usertrapret : List Instr :=
  loads .a0 trapframeSlots ++ [.csrw .sscratch .a0, .lw .a0 60 .a0]

/-- All registers in the trapframe -/
def regSlots : Slots := trapframeSlots ++ [(.a0, 60)]

theorem regSlots_fit : regSlots.Fit 148 := by decide

/-- The memory when `usertrap` has saved the registers and the pc. -/
def userSave (m : Bytes) (tf : Nat) (x : Reg → Word) (pc : Word) : Bytes :=
  (save m tf x regSlots).storeWord (tf + 16) pc.toNat

theorem saved_userSave (m : Bytes) (tf : Nat) (x : Reg → Word) (pc : Word) :
    Saved (userSave m tf x pc) tf x regSlots := by
  have hl : ∀ s ∈ regSlots, 16 + 4 ≤ s.2 := by decide
  intro s hs
  have h1 := hl s hs
  rw [userSave, Bytes.word_storeWord_of_ne (by omega)]
  exact saved_save regSlots_fit s hs

theorem userSave_of_not_mem {m : Bytes} {tf a : Nat} {x : Reg → Word} {pc : Word}
    (ha : a < tf ∨ tf + 148 ≤ a) : userSave m tf x pc a = m a := by
  rw [userSave, Bytes.storeWord_of_ne (by omega), save_of_not_mem regSlots_fit.1 ha]

/-- What lies before the pc and the registers stays as it is. -/
theorem userSave_of_lt {m : Bytes} {tf o : Nat} {x : Reg → Word} {pc : Word} (ho : o < 16) :
    userSave m tf x pc (tf + o) = m (tf + o) := by
  have hl : ∀ s ∈ regSlots, 16 ≤ s.2 := by decide
  rw [userSave, Bytes.storeWord_of_ne (by omega)]
  refine save_of_apart fun s hs => ?_
  have := hl s hs
  omega

/-- **`usertrap` saves all registers**, although it needs some of them to do so, and takes
`tp`, the stack, the table, the trap vector and the address of `u_trap_handle` from the
trapframe. -/
theorem run_usertrap {c : Core} (m : Bytes) {tf : Nat} (htf : (c.csr .sscratch).toNat = tf)
    (hb : tf + 152 ≤ 2 ^ 32) :
    (run c m usertrap).2 = userSave m tf c.x (c.csr .sepc) ∧
      (run c m usertrap).1.x .tp = BitVec.ofNat 32 (m.word (tf + 148)) ∧
      (run c m usertrap).1.x .a0 = c.csr .scause ∧ (run c m usertrap).1.x .a1 = c.csr .sepc ∧
      (run c m usertrap).1.csr .sstatus = c.csr .sstatus ∧
      (run c m usertrap).1.x .sp = BitVec.ofNat 32 (m.word tf) ∧
      (run c m usertrap).1.csr .stvec = BitVec.ofNat 32 (m.word (tf + 4)) ∧
      (run c m usertrap).1.csr .satp = BitVec.ofNat 32 (m.word (tf + 8)) ∧
      (run c m usertrap).1.x .t2 = BitVec.ofNat 32 (m.word (tf + 12)) := by
  -- `a0` and `sscratch` change places
  obtain ⟨c₁, hc₁⟩ : ∃ c₁ : Core, c₁ = (c.setCsr .sscratch (c.x .a0)).set .a0 (c.csr .sscratch) :=
    ⟨_, rfl⟩
  have hswap : Instr.exec c m (.csrrw .a0 .sscratch .a0) = (c₁, m) := by
    rw [hc₁]
    rfl
  have ha0 : (c₁.x .a0).toNat = tf := by rw [hc₁, Core.set_self, htf]
  have hcsr : c₁.csr .sscratch = c.x .a0 ∧ c₁.csr .sepc = c.csr .sepc ∧
      c₁.csr .scause = c.csr .scause ∧ c₁.csr .sstatus = c.csr .sstatus := by
    rw [hc₁]
    exact ⟨rfl, rfl, rfl, rfl⟩
  have hkeep : ∀ s ∈ trapframeSlots, c₁.x s.1 = c.x s.1 := by
    have hne : ∀ s ∈ trapframeSlots, s.1 ≠ .a0 := by decide
    intro s hs
    rw [hc₁]
    exact Core.set_of_ne _ _ (hne s hs)
  have hfit : trapframeSlots.Fit 152 := by decide
  have hst : run c₁ m (stores .a0 trapframeSlots) = (c₁, save m tf c.x trapframeSlots) := by
    rw [run_stores hfit (by rw [ha0]; exact hb), ha0, save_congr hkeep]
  have haddr : ∀ (c' : Core) (o : Nat), c'.x .a0 = c₁.x .a0 → o + 4 ≤ 152 →
      c'.addr .a0 o = tf + o := by
    intro c' o hx ho
    rw [addr_eq (by rw [hx, ha0]; exact hb) ho, hx, ha0]
  -- `t0` and `t1` are free once they have been saved
  have hmem : ((save m tf c.x trapframeSlots).storeWord (tf + 60) (c.x .a0).toNat).storeWord
      (tf + 16) (c.csr .sepc).toNat = userSave m tf c.x (c.csr .sepc) := by
    rw [userSave, regSlots, save_concat]
  have h148 : (userSave m tf c.x (c.csr .sepc)).word (tf + 148) = m.word (tf + 148) :=
    Bytes.word_congr fun i _ => userSave_of_not_mem (by omega)
  have hlow : ∀ o, o + 4 ≤ 16 →
      (userSave m tf c.x (c.csr .sepc)).word (tf + o) = m.word (tf + o) := fun o ho =>
    Bytes.word_congr fun i hi => by
      rw [Nat.add_assoc]
      exact userSave_of_lt (by omega)
  have h0 := hlow 0 (by decide)
  rw [Nat.add_zero] at h0
  rw [usertrap, List.cons_append, run, run_append, hswap, hst]
  simp only [run, Instr.exec, Core.set, Core.setCsr, haddr, Function.update_apply, reduceCtorEq,
    if_false, if_true, hcsr, Nat.reduceAdd, Nat.reduceLeDiff, hmem, h148, hlow, Nat.add_zero, h0,
    and_self]

/-- **`usertrapret` loads all registers** from where `usertrap` has saved them, and leaves
`sscratch` behind for the next trap. -/
theorem run_usertrapret {c : Core} {m : Bytes} {tf : Nat} {x : Reg → Word}
    (htf : (c.x .a0).toNat = tf) (hb : tf + 152 ≤ 2 ^ 32) (hs : Saved m tf x regSlots) :
    run c m usertrapret = (⟨x, Function.update c.csr .sscratch (c.x .a0)⟩, m) := by
  have hl : ∀ s ∈ trapframeSlots, s.2 + 4 ≤ 152 := by decide
  have ha0 : .a0 ∉ trapframeSlots.map Prod.fst := by decide
  have hall : ∀ r : Reg, r ≠ .a0 → r ∈ trapframeSlots.map Prod.fst := by
    intro r
    cases r <;> decide
  have h60 : m.word (tf + 60) = (x .a0).toNat := hs (.a0, 60) (by decide)
  rw [usertrapret, run_append, run_loads (x := x) hl ha0 (by rw [htf]; exact hb) fun s hs' => by
    rw [htf]
    exact hs s (List.mem_append_left _ hs')]
  simp only [run, Instr.exec, Core.setCsr, Core.set, Core.addr, ha0, if_false]
  have haddr : (c.x .a0 + BitVec.ofNat 32 60).toNat = tf + 60 := by
    rw [← htf]
    exact addr_eq (by rw [htf]; exact hb) (by decide)
  rw [haddr, h60, BitVec.ofNat_toNat, BitVec.setWidth_eq]
  congr 2
  funext r
  rw [Function.update_apply]
  by_cases hr : r = .a0
  · rw [if_pos hr, hr]
  · rw [if_neg hr, if_pos (hall r hr)]

/-- Whatever there is in the trapframe, memory stays as it is. -/
theorem run_usertrapret_frame (c : Core) (m : Bytes) :
    (run c m usertrapret).2 = m ∧
      (run c m usertrapret).1.csr = Function.update c.csr .sscratch (c.x .a0) := by
  obtain ⟨h1, h2, h3⟩ := run_loads_frame c m .a0 trapframeSlots
  rw [usertrapret, run_append]
  simp only [run, Instr.exec, Core.set, Core.setCsr]
  exact ⟨h1, by rw [h2, h3 .a0 (by decide)]⟩

end Wl00.Trap
