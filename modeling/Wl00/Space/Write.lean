import Wl00.Space.Gather
import Wl00.Vm.Write

/-!
# What `write` prints

`sys_write` copies the buffer of the user in chunks of at most 127 bytes, puts a NUL behind
each chunk and prints it as a string.  A NUL in the buffer ends the string early, and the rest
of its chunk is lost; apart from that every byte is printed once and in order.

* `writeLoop_spec` — what has been printed after any number of chunks.
* `sysWrite_prints` — the output is the buffer iff there is no NUL in it.
* `sysWrite_drops_nul` — a buffer that is reported as written, of which nothing is printed.
-/

namespace Wl00.Vm

open Prog
open Sched (Slot)

variable {L : Layout} {s : Mem L} {pt va : Nat}

theorem length_printString (l : List UInt8) : (printString l).length ≤ l.length := by
  induction l with
  | nil => exact le_rfl
  | cons c l ih =>
      rw [printString]
      split_ifs
      · exact Nat.succ_le_succ ih
      · exact Nat.zero_le _

/-- `print_string` stops at the first NUL. -/
theorem printString_append_zero (l r : List UInt8) :
    printString (l ++ 0 :: r) = printString l := by
  induction l with
  | nil => rfl
  | cons c l ih => rw [List.cons_append, printString, printString, ih]

theorem printString_of_not_mem {l : List UInt8} (h : 0 ∉ l) : printString l = l := by
  induction l with
  | nil => rfl
  | cons c l ih =>
      rw [List.mem_cons, not_or] at h
      rw [printString, if_pos (Ne.symm h.1), ih h.2]

theorem length_printString_lt {l : List UInt8} (h : 0 ∈ l) :
    (printString l).length < l.length := by
  induction l with
  | nil => cases h
  | cons c l ih =>
      rw [printString]
      split_ifs with hc
      · have hl : 0 ∈ l := (List.mem_cons.1 h).resolve_left (Ne.symm hc)
        exact Nat.succ_lt_succ (ih hl)
      · exact Nat.succ_pos _

/-- `printf("%s", str)` -/
theorem printf_str (str : List UInt8) : printf (cstr "%s") [.str str] = printString str := by
  have h : cstr "%s" = [char '%', char 's'] := rfl
  rw [h, printf, if_pos rfl, if_neg (by decide), if_neg (by decide), if_neg (by decide),
    if_neg (by decide), if_pos rfl, printf, List.append_nil]
  rfl

/-- A chunk with a NUL behind it is printed up to its first NUL. -/
theorem print_chunk (kbuf : Bytes) {dst : List UInt8} (h : dst.length < 128) :
    printString (Bytes.read (Function.update (kbuf.write 0 dst) dst.length 0) 0 128) =
      printString dst := by
  obtain ⟨r, hr⟩ : ∃ r, 128 = dst.length + (r + 1) := ⟨127 - dst.length, by omega⟩
  have hdst : Bytes.read (Function.update (kbuf.write 0 dst) dst.length 0) 0 dst.length = dst := by
    rw [Bytes.read_congr fun i hi => Function.update_of_ne (by omega) _ _, Bytes.read_write]
  rw [hr, Bytes.read_add, hdst, Bytes.read_succ, Nat.zero_add, Function.update_self,
    printString_append_zero]

theorem bytesAt_append (m : Bytes) (j c : Nat) :
    bytesAt m pt va (j + c) = bytesAt m pt va j ++ bytesAt m pt ((va + j) % 2 ^ 32) c := by
  rw [bytesAt, List.range_add, List.map_append, List.map_map, bytesAt, bytesAt]
  congr 1
  refine List.map_congr_left fun i _ => ?_
  rw [Function.comp, Nat.mod_add_mod, Nat.add_assoc]

/-- `out` has been printed for the bytes `l`: it is `l`, or shorter if there is a NUL in `l`. -/
def Printed (l out : List UInt8) : Prop :=
  (0 ∉ l ∧ out = l) ∨ (0 ∈ l ∧ out.length < l.length)

theorem Printed.eq_iff {l out : List UInt8} (h : Printed l out) : out = l ↔ 0 ∉ l := by
  rcases h with ⟨h0, he⟩ | ⟨h0, hlt⟩
  · exact ⟨fun _ => h0, fun _ => he⟩
  · refine ⟨fun he => ?_, fun hn => absurd h0 hn⟩
    rw [he] at hlt
    exact absurd hlt (lt_irrefl _)

theorem Printed.append {l out : List UInt8} (h : Printed l out) (l' : List UInt8) :
    Printed (l ++ l') (out ++ printString l') := by
  have hle := length_printString l'
  rcases h with ⟨h0, rfl⟩ | ⟨h0, hlt⟩
  · by_cases h' : 0 ∈ l'
    · have hlt := length_printString_lt h'
      refine .inr ⟨List.mem_append_right _ h', ?_⟩
      rw [List.length_append, List.length_append]
      omega
    · refine .inl ⟨fun hm => (List.mem_append.1 hm).elim h0 h', ?_⟩
      rw [printString_of_not_mem h']
  · refine .inr ⟨List.mem_append_left _ h0, ?_⟩
    rw [List.length_append, List.length_append]
    omega

/-- **The loop of `sys_write`** prints the chunks one after another; it returns -1 at the first
byte that cannot be read. -/
theorem writeLoop_spec {pBuf n : Nat} {kbuf : Bytes} (h : InPool L s.bytes pt) (hn : n < 2 ^ 32) :
    wp (writeLoop pt pBuf n kbuf) (fun r s' => s' = s ∧
      ((r.1 = -1 ∧ ∃ i < n, ¬Access s.bytes pt PTE_R ((pBuf + i) % 2 ^ 32)) ∨
      (r.1 = n ∧ Printed (bytesAt s.bytes pt pBuf n) r.2))) s := by
  unfold writeLoop
  let I : Nat × Bytes × List UInt8 → Mem L → Prop := fun x s₁ => s₁ = s ∧ x.1 ≤ n ∧
    Printed (bytesAt s.bytes pt pBuf x.1) x.2.2
  refine wp_loop I (fun x => n - x.1) ?_ ⟨rfl, Nat.zero_le _, .inl ⟨List.not_mem_nil, rfl⟩⟩
    (by dsimp only; omega)
  rintro ⟨wrote, kbuf, out⟩ s ⟨rfl, hle, hout⟩
  dsimp only at hle hout ⊢
  by_cases hw : wrote < n
  swap
  · obtain rfl : wrote = n := by omega
    rw [if_neg hw, wp_pure]
    exact ⟨rfl, .inr ⟨rfl, hout⟩⟩
  rw [if_pos hw]
  obtain ⟨c, hc, hc0, hcn, hc127⟩ : ∃ c, (if n - wrote > 127 then 127 else n - wrote) = c ∧
      0 < c ∧ wrote + c ≤ n ∧ c ≤ 127 := by
    split_ifs
    · exact ⟨127, rfl, by omega, by omega, by omega⟩
    · exact ⟨n - wrote, rfl, by omega, by omega, by omega⟩
  simp only [hc]
  rw [wp_bind]
  refine (copyin_bytes h (Nat.mod_lt _ (by decide)) (by omega)).mono fun r s' hr => ?_
  obtain ⟨rfl, k, hk, rfl⟩ := hr
  dsimp only
  by_cases hkc : k = c
  · subst hkc
    rw [if_neg (by rw [if_pos rfl]; decide), wp_pure, printf_str]
    refine ⟨⟨rfl, hcn, ?_⟩, by dsimp only; omega⟩
    have hlen := length_bytesAt s'.bytes pt ((pBuf + wrote) % 2 ^ 32) k
    have hchunk := print_chunk kbuf (show (bytesAt s'.bytes pt
      ((pBuf + wrote) % 2 ^ 32) k).length < 128 by rw [hlen]; omega)
    rw [hlen] at hchunk
    dsimp only
    rw [hchunk, bytesAt_append]
    exact hout.append _
  · rw [if_pos (if_neg hkc), wp_pure]
    have hlt : k < c := lt_of_le_of_ne hk.le hkc
    refine ⟨rfl, .inl ⟨rfl, wrote + k, by omega, fun ha => hk.stop hlt ?_⟩⟩
    rwa [Nat.mod_add_mod, Nat.add_assoc]

variable {k : Kernel L} {p : Slot}

/-- The bytes that a process asks to have written. -/
def writeBytes (k : Kernel L) (p : Slot) : List UInt8 :=
  bytesAt k.mem.bytes (k.procs p).pt (arg1 k p) (int32 (arg2 k p)).toNat

theorem sysWrite_spec (kbuf : Bytes) (h : InPool L k.mem.bytes (k.procs p).pt) :
    wp (sysWrite p kbuf) (fun r k' => k' = k ∧
      ((r = (-1, []) ∧
        ¬(int32 (arg0 k p) = 1 ∧ 0 ≤ int32 (arg2 k p) ∧ int32 (arg2 k p) ≤ 1024)) ∨
      (0 ≤ int32 (arg2 k p) ∧
        ((r.1 = -1 ∧ ∃ i < (int32 (arg2 k p)).toNat,
          ¬Access k.mem.bytes (k.procs p).pt PTE_R ((arg1 k p + i) % 2 ^ 32)) ∨
        (r.1 = int32 (arg2 k p) ∧ Printed (writeBytes k p) r.2))))) k := by
  unfold sysWrite
  simp only [wp_bind, wp_getProc, wp_onMem, wp_load]
  change wp (if int32 (arg0 k p) ≠ 1 then _ else if int32 (arg2 k p) < 0 ∨ int32 (arg2 k p) > 1024
    then _ else onMem (writeLoop _ (arg1 k p) (int32 (arg2 k p)).toNat kbuf)) _ _
  split_ifs with hfd hn
  · rw [wp_pure]
    exact ⟨rfl, .inl ⟨rfl, fun hc => hfd hc.1⟩⟩
  · rw [wp_pure]
    exact ⟨rfl, .inl ⟨rfl, fun hc => by omega⟩⟩
  · rw [wp_onMem]
    refine (writeLoop_spec h (by omega)).mono fun r s' hr => ?_
    obtain ⟨rfl, hr⟩ := hr
    refine ⟨rfl, .inr ⟨by omega, hr.imp_right fun hr => ⟨?_, hr.2⟩⟩⟩
    rw [hr.1]
    omega

/-- It returns `n` if the buffer can be read. -/
theorem sysWrite_returns {kbuf : Bytes} {r : Int} {out : List UInt8}
    (h : InPool L k.mem.bytes (k.procs p).pt) (hfd : int32 (arg0 k p) = 1)
    (hpos : 0 ≤ int32 (arg2 k p)) (hle : int32 (arg2 k p) ≤ 1024)
    (hacc : ∀ i < (int32 (arg2 k p)).toNat,
      Access k.mem.bytes (k.procs p).pt PTE_R ((arg1 k p + i) % 2 ^ 32))
    (hrun : sysWrite p kbuf k = .ok ((r, out), k)) : r = int32 (arg2 k p) := by
  rcases ((sysWrite_spec kbuf h).of_run hrun).2 with ⟨-, hno⟩ | ⟨-, ⟨-, i, hi, hno⟩ | ⟨hr, -⟩⟩
  · exact absurd ⟨hfd, hpos, hle⟩ hno
  · exact absurd (hacc i hi) hno
  · exact hr

/-- **`write` prints what it reports, unless there is a NUL in it.**  If `sys_write` with fd 1
returns `n`, then the characters that it has printed are the `n` bytes at `buf` iff none of
them is a NUL. -/
theorem sysWrite_prints (kbuf : Bytes) (h : InPool L k.mem.bytes (k.procs p).pt) :
    ∃ r out, sysWrite p kbuf k = .ok ((r, out), k) ∧
      (int32 (arg0 k p) = 1 → r = int32 (arg2 k p) →
        (out = writeBytes k p ↔ 0 ∉ writeBytes k p)) := by
  obtain ⟨⟨r, out⟩, k', hrun, hk, hr⟩ := wp_iff.1 (sysWrite_spec kbuf h)
  subst k'
  refine ⟨r, out, hrun, fun hfd hret => ?_⟩
  rcases hr with ⟨he, hno⟩ | ⟨hpos, ⟨hneg, -⟩ | ⟨-, hout⟩⟩
  · -- only a count of -1 is returned like this, and no byte is asked for
    obtain ⟨rfl, rfl⟩ := Prod.mk.inj he
    have hnil : writeBytes k p = [] := by
      rw [writeBytes, ← hret]
      rfl
    rw [hnil]
    simp
  · exact absurd (hneg.symm.trans hret) (by omega)
  · exact hout.eq_iff

/-- The first three bytes of the small program are printed. -/
theorem sysWrite_prints_tiny : ∃ (k : Kernel tinyLayout) (p : Slot) (kbuf : Bytes),
    sysWrite p kbuf k = .ok ((3, [0x13, 0x05, 0x10]), k) := by
  obtain ⟨k, hcaller, -, ⟨h0, h1, h2⟩, hat⟩ :=
    tiny_process 1 USER_BASE 3 (by decide) (by decide) (by decide)
  have hbytes : writeBytes k 0 = [0x13, 0x05, 0x10] := by
    rw [writeBytes, h1, h2, bytesAt, List.map_congr_left fun i hi => (hat i (by
      have := List.mem_range.1 hi
      rw [show (int32 3).toNat = 3 from rfl] at this
      omega)).2]
    rfl
  obtain ⟨r, out, hrun, hout⟩ := sysWrite_prints (fun _ => 0) hcaller.pool
  have hret : r = int32 (arg2 k 0) :=
    sysWrite_returns hcaller.pool (by rw [h0]; rfl) (by rw [h2]; decide) (by rw [h2]; decide)
      (fun i hi => by
        rw [h1]
        rw [h2, show (int32 3).toNat = 3 from rfl] at hi
        exact (hat i (by omega)).1) hrun
  have hout' := (hout (by rw [h0]; rfl) hret).2 (by rw [hbytes]; decide)
  rw [hbytes] at hout'
  rw [h2, show int32 3 = 3 from rfl] at hret
  exact ⟨k, 0, fun _ => 0, hout' ▸ hret ▸ hrun⟩

/-- The NUL behind them is reported as written, but nothing is printed. -/
theorem sysWrite_drops_nul : ∃ (k : Kernel tinyLayout) (p : Slot) (kbuf : Bytes),
    int32 (arg0 k p) = 1 ∧ int32 (arg2 k p) = 1 ∧ writeBytes k p = [0] ∧
      sysWrite p kbuf k = .ok ((1, []), k) := by
  obtain ⟨k, hcaller, -, ⟨h0, h1, h2⟩, hat⟩ :=
    tiny_process 1 (USER_BASE + 3) 1 (by decide) (by decide) (by decide)
  have hbytes : writeBytes k 0 = [0] := by
    rw [writeBytes, h1, h2]
    exact congrArg (fun b => [b]) (hat 3 (by decide)).2
  obtain ⟨⟨r, out⟩, k', hrun, hk, hr⟩ := wp_iff.1 (sysWrite_spec (fun _ => 0) hcaller.pool)
  subst k'
  have hret : r = int32 (arg2 k 0) :=
    sysWrite_returns hcaller.pool (by rw [h0]; rfl) (by rw [h2]; decide) (by rw [h2]; decide)
      (fun i hi => by
        rw [h2, show (int32 1).toNat = 1 from rfl] at hi
        obtain rfl : i = 0 := by omega
        rw [h1]
        exact (hat 3 (by decide)).1) hrun
  rw [h2, show int32 1 = 1 from rfl] at hret
  have hout : out = [] := by
    rcases hr with ⟨he, -⟩ | ⟨-, ⟨hneg, -⟩ | ⟨-, hout⟩⟩
    · exact (Prod.mk.inj he).2
    · exact absurd (hneg.symm.trans hret) (by decide)
    · rw [hbytes] at hout
      rcases hout with ⟨hno, -⟩ | ⟨-, hlt⟩
      · exact absurd List.mem_cons_self hno
      · exact List.eq_nil_of_length_eq_zero (Nat.lt_one_iff.1 hlt)
  exact ⟨k, 0, fun _ => 0, by rw [h0]; rfl, by rw [h2]; rfl, hbytes, hout ▸ hret ▸ hrun⟩

end Wl00.Vm
