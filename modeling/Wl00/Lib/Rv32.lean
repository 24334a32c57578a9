import Mathlib.Data.List.Nodup
import Wl00.Lib.Bytes

/-!
# Straight-line RV32 code

The registers of a hart, and the instructions that code without jumps is made of when it
saves registers in memory and loads them again.  Such code mostly comes in blocks: stores
of some registers at offsets from a base register, and loads of registers from there.  A
block is given by its table of registers and offsets.

* `run_stores`, `saved_save` — after a block of stores, the memory at the base holds the
  registers of the table; `save_of_not_mem` says that nothing else has changed.
* `run_loads` — where they are held, a block of loads brings them back.
-/

namespace Rv32

abbrev Word := BitVec 32

/-- The registers `x1` to `x31`, by their names in the calling convention. -/
inductive Reg where
  | ra | sp | gp | tp | t0 | t1 | t2 | s0 | s1 | a0 | a1 | a2 | a3 | a4 | a5 | a6 | a7
  | s2 | s3 | s4 | s5 | s6 | s7 | s8 | s9 | s10 | s11 | t3 | t4 | t5 | t6
  deriving DecidableEq, Repr

/-- The control and status registers. -/
inductive Csr where
  | sstatus | sepc | scause | stvec | sscratch | satp
  deriving DecidableEq, Repr

/-- The registers of a hart. -/
structure Core where
  x : Reg → Word
  csr : Csr → Word

namespace Core

def set (c : Core) (r : Reg) (v : Word) : Core := { c with x := Function.update c.x r v }

def setCsr (c : Core) (r : Csr) (v : Word) : Core := { c with csr := Function.update c.csr r v }

@[simp] theorem set_self (c : Core) (r : Reg) (v : Word) : (c.set r v).x r = v :=
  Function.update_self ..

theorem set_of_ne (c : Core) {r r' : Reg} (v : Word) (hr : r' ≠ r) : (c.set r v).x r' = c.x r' :=
  Function.update_of_ne hr _ _

/-- The address `off(r)`. -/
def addr (c : Core) (r : Reg) (off : Nat) : Nat := (c.x r + BitVec.ofNat 32 off).toNat

end Core

inductive Instr where
  /-- `sw rs, off(rb)` -/
  | sw (rs : Reg) (off : Nat) (rb : Reg)
  /-- `lw rd, off(rb)` -/
  | lw (rd : Reg) (off : Nat) (rb : Reg)
  /-- `addi rd, rs, imm` -/
  | addi (rd rs : Reg) (imm : Int)
  /-- `csrr rd, r` -/
  | csrr (rd : Reg) (r : Csr)
  /-- `csrw r, rs` -/
  | csrw (r : Csr) (rs : Reg)
  /-- `csrrw rd, r, rs` -/
  | csrrw (rd : Reg) (r : Csr) (rs : Reg)
  /-- `sfence.vma zero, zero` -/
  | sfenceVma
  deriving DecidableEq, Repr

/-- One instruction. -/
def Instr.exec (c : Core) (m : Bytes) : Instr → Core × Bytes
  | .sw rs off rb => (c, m.storeWord (c.addr rb off) (c.x rs).toNat)
  | .lw rd off rb => (c.set rd (BitVec.ofNat 32 (m.word (c.addr rb off))), m)
  | .addi rd rs imm => (c.set rd (c.x rs + BitVec.ofInt 32 imm), m)
  | .csrr rd r => (c.set rd (c.csr r), m)
  | .csrw r rs => (c.setCsr r (c.x rs), m)
  | .csrrw rd r rs => ((c.setCsr r (c.x rs)).set rd (c.csr r), m)
  | .sfenceVma => (c, m)

/-- One instruction after another. -/
def run (c : Core) (m : Bytes) : List Instr → Core × Bytes
  | [] => (c, m)
  | i :: l => run (i.exec c m).1 (i.exec c m).2 l

theorem run_append (c : Core) (m : Bytes) (l l' : List Instr) :
    run c m (l ++ l') = run (run c m l).1 (run c m l).2 l' := by
  induction l generalizing c m with
  | nil => rfl
  | cons i l ih => exact ih _ _

/-! ## Blocks -/

/-- A table of registers and the offsets they are kept at. -/
abbrev Slots := List (Reg × Nat)

/-- `sw r, off(rb)` for every entry of the table -/
def stores (rb : Reg) (l : Slots) : List Instr := l.map fun s => .sw s.1 s.2 rb

/-- `lw r, off(rb)` for every entry of the table -/
def loads (rb : Reg) (l : Slots) : List Instr := l.map fun s => .lw s.1 s.2 rb

/-- The entries of the table lie within `size` bytes and do not overlap. -/
def Slots.Fit (l : Slots) (size : Nat) : Prop :=
  (∀ s ∈ l, s.2 + 4 ≤ size) ∧ l.Pairwise fun s s' => s.2 + 4 ≤ s'.2 ∨ s'.2 + 4 ≤ s.2

instance (l : Slots) (size : Nat) : Decidable (l.Fit size) :=
  inferInstanceAs (Decidable (_ ∧ _))

/-- The memory in which the registers `x` have been stored at `b`. -/
def save (m : Bytes) (b : Nat) (x : Reg → Word) : Slots → Bytes
  | [] => m
  | s :: l => save (m.storeWord (b + s.2) (x s.1).toNat) b x l

/-- The memory at `b` holds the registers `x` of the table. -/
def Saved (m : Bytes) (b : Nat) (x : Reg → Word) (l : Slots) : Prop :=
  ∀ s ∈ l, m.word (b + s.2) = (x s.1).toNat

theorem addr_eq {c : Core} {r : Reg} {off size : Nat} (hb : (c.x r).toNat + size ≤ 2 ^ 32)
    (hoff : off + 4 ≤ size) : c.addr r off = (c.x r).toNat + off := by
  have hlt := (c.x r).isLt
  rw [Core.addr, BitVec.toNat_add, BitVec.toNat_ofNat]
  omega

theorem run_stores {c : Core} {m : Bytes} {rb : Reg} {l : Slots} {size : Nat} (hl : l.Fit size)
    (hb : (c.x rb).toNat + size ≤ 2 ^ 32) :
    run c m (stores rb l) = (c, save m (c.x rb).toNat c.x l) := by
  induction l generalizing m with
  | nil => rfl
  | cons s l ih =>
      obtain ⟨hsize, hapart⟩ := hl
      have hs := addr_eq hb (hsize s (List.mem_cons_self ..))
      have hl : Slots.Fit l size :=
        ⟨fun s' hs' => hsize s' (List.mem_cons_of_mem _ hs'), (List.pairwise_cons.1 hapart).2⟩
      have hexec : Instr.exec c m (.sw s.1 s.2 rb) =
          (c, m.storeWord ((c.x rb).toNat + s.2) (c.x s.1).toNat) := by
        simp only [Instr.exec, hs]
      rw [stores, List.map_cons, run, hexec]
      exact ih hl

theorem save_congr {m : Bytes} {b : Nat} {x x' : Reg → Word} {l : Slots}
    (hx : ∀ s ∈ l, x s.1 = x' s.1) : save m b x l = save m b x' l := by
  induction l generalizing m with
  | nil => rfl
  | cons s l ih =>
      rw [save, save, hx s (List.mem_cons_self ..), ih fun s' hs' => hx s' (List.mem_cons_of_mem _ hs')]

theorem save_of_apart {m : Bytes} {b : Nat} {x : Reg → Word} {l : Slots} {a : Nat}
    (hl : ∀ s ∈ l, a < b + s.2 ∨ b + s.2 + 4 ≤ a) : save m b x l a = m a := by
  induction l generalizing m with
  | nil => rfl
  | cons s l ih =>
      rw [save, ih fun s' hs' => hl s' (List.mem_cons_of_mem _ hs')]
      exact Bytes.storeWord_of_ne (hl s (List.mem_cons_self ..))

theorem save_of_not_mem {m : Bytes} {b : Nat} {x : Reg → Word} {l : Slots} {size a : Nat}
    (hl : ∀ s ∈ l, s.2 + 4 ≤ size) (ha : a < b ∨ b + size ≤ a) : save m b x l a = m a := by
  refine save_of_apart fun s hs => ?_
  have := hl s hs
  omega

theorem word_save_of_apart {m : Bytes} {b o : Nat} {x : Reg → Word} {l : Slots}
    (hl : ∀ s ∈ l, o + 4 ≤ s.2 ∨ s.2 + 4 ≤ o) : (save m b x l).word (b + o) = m.word (b + o) := by
  induction l generalizing m with
  | nil => rfl
  | cons s l ih =>
      have hs := hl s (List.mem_cons_self ..)
      rw [save, ih fun s' hs' => hl s' (List.mem_cons_of_mem _ hs')]
      exact Bytes.word_storeWord_of_ne (by omega)

theorem saved_save {m : Bytes} {b : Nat} {x : Reg → Word} {l : Slots} {size : Nat}
    (hl : l.Fit size) : Saved (save m b x l) b x l := by
  induction l generalizing m with
  | nil => exact fun s hs => nomatch hs
  | cons s l ih =>
      obtain ⟨hsize, hapart⟩ := hl
      obtain ⟨hs, hapart⟩ := List.pairwise_cons.1 hapart
      intro s' hs'
      rcases List.mem_cons.1 hs' with rfl | hs'
      · rw [save, word_save_of_apart hs]
        exact Bytes.word_storeWord (x s'.1).isLt
      · exact ih ⟨fun t ht => hsize t (List.mem_cons_of_mem _ ht), hapart⟩ s' hs'

theorem Saved.congr {m m' : Bytes} {b : Nat} {x : Reg → Word} {l : Slots} {size : Nat}
    (hs : Saved m b x l) (hl : ∀ s ∈ l, s.2 + 4 ≤ size)
    (hm : ∀ a, b ≤ a → a < b + size → m' a = m a) : Saved m' b x l := by
  intro s hs'
  have hsz := hl s hs'
  rw [← hs s hs']
  exact Bytes.word_congr fun i hi => hm _ (by omega) (by omega)

theorem save_concat (m : Bytes) (b : Nat) (x : Reg → Word) (l : Slots) (s : Reg × Nat) :
    save m b x (l ++ [s]) = (save m b x l).storeWord (b + s.2) (x s.1).toNat := by
  induction l generalizing m with
  | nil => rfl
  | cons s' l ih => exact ih _

/-- A block of loads whose base register is not among those it loads. -/
theorem run_loads {c : Core} {m : Bytes} {rb : Reg} {l : Slots} {size : Nat} {x : Reg → Word}
    (hl : ∀ s ∈ l, s.2 + 4 ≤ size) (hrb : rb ∉ l.map Prod.fst)
    (hb : (c.x rb).toNat + size ≤ 2 ^ 32) (hs : Saved m (c.x rb).toNat x l) :
    run c m (loads rb l) =
      ({ c with x := fun r => if r ∈ l.map Prod.fst then x r else c.x r }, m) := by
  induction l generalizing c with
  | nil => rfl
  | cons s l ih =>
      rw [List.map_cons, List.mem_cons, not_or] at hrb
      have hs0 := hs s (List.mem_cons_self ..)
      have haddr := addr_eq hb (hl s (List.mem_cons_self ..))
      have hexec : Instr.exec c m (.lw s.1 s.2 rb) = (c.set s.1 (x s.1), m) := by
        simp only [Instr.exec, haddr, hs0]
        rw [BitVec.ofNat_toNat, BitVec.setWidth_eq]
      have hbase : (c.set s.1 (x s.1)).x rb = c.x rb := c.set_of_ne _ hrb.1
      have hrest := ih (c := c.set s.1 (x s.1)) (fun s' hs' => hl s' (List.mem_cons_of_mem _ hs')) hrb.2
        (by rwa [hbase]) (by rw [hbase]; exact fun s' hs' => hs s' (List.mem_cons_of_mem _ hs'))
      have hrun : run c m (loads rb (s :: l)) = run (c.set s.1 (x s.1)) m (loads rb l) := by
        rw [loads, List.map_cons, run, hexec]
        rfl
      rw [hrun, hrest]
      congr 2
      funext r
      simp only [Core.set, List.map_cons, List.mem_cons, Function.update_apply]
      by_cases h1 : r ∈ l.map Prod.fst
      · rw [if_pos h1, if_pos (.inr h1)]
      · by_cases h2 : r = s.1
        · rw [if_neg h1, if_pos h2, if_pos (.inl h2), h2]
        · rw [if_neg h1, if_neg h2, if_neg (by tauto)]

/-- What else there is stays as it is. -/
theorem run_loads_frame (c : Core) (m : Bytes) (rb : Reg) (l : Slots) :
    (run c m (loads rb l)).2 = m ∧ (run c m (loads rb l)).1.csr = c.csr ∧
      ∀ r, r ∉ l.map Prod.fst → (run c m (loads rb l)).1.x r = c.x r := by
  induction l generalizing c with
  | nil => exact ⟨rfl, rfl, fun _ _ => rfl⟩
  | cons s l ih =>
      obtain ⟨h1, h2, h3⟩ := ih (Instr.exec c m (.lw s.1 s.2 rb)).1
      refine ⟨h1, h2, fun r hr => ?_⟩
      rw [List.map_cons, List.mem_cons, not_or] at hr
      exact (h3 r hr.2).trans (c.set_of_ne _ hr.1)

attribute [irreducible] run

end Rv32
