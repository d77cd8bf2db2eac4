import Junction.Fs.Memfs.InodeLock
import Mathlib.Data.List.GetD

/-!
# The bytes of concurrent writes (`memfs.h`)

Writers of a `MemInode` copy under the shared lock, so several of them run `std::copy_n` at once
and their bytes interleave: two writes of the same range can leave a mix of both, which no order of
the writes leaves (the example after `Write_bytes`). What holds in every interleaving is byte-wise,
and rests on `Resize` only growing `buf_`, which the second comparison under the upgraded lock
ensures.

* `ByteInv.run`: after every interleaving, each byte is the one the file started with, or one that
  a write has copied to its place; and a byte that a write has copied, where no other write
  reaches, is that write's.
* `Write_bytes`: the invariant from the start of the calls. In particular a finished write that no
  other write overlaps lands whole, and a byte that no write covers keeps its contents, or the
  zero of `Resize` past the end of the file.
-/

namespace Junction.Memfs

/-- How many bytes of its buffer of `n` bytes a write at `p` has copied into `buf_`. -/
def RwPc.copied : RwPc → Nat → Nat
  | .copy i, _ => i
  | .unlock, n | .done, n => n
  | _, _ => 0

/-! ## Bytes of the contents -/

section Bytes

variable {b : List (BitVec 8)} {p q : Nat} {x : BitVec 8}

theorem resize_of_le {n : Nat} (h : b.length ≤ n) :
    resize b n = b ++ List.replicate (n - b.length) 0 := by
  rw [resize, List.take_of_length_le h]

/-- Growing the file changes no byte: the new ones read as zero, as past the end. -/
theorem getD_resize {n : Nat} (h : b.length ≤ n) : (resize b n).getD p 0 = b.getD p 0 := by
  rw [resize_of_le h]
  by_cases hp : p < b.length
  · exact List.getD_append _ _ _ _ hp
  · rw [List.getD_append_right _ _ _ _ (by omega), List.getD_eq_default b 0 (by omega)]
    simp

theorem getD_set_self (hq : q < b.length) : (b.set q x).getD q 0 = x := by
  simp [List.getElem?_set_self hq]

theorem getD_set_ne (hpq : q ≠ p) : (b.set q x).getD p 0 = b.getD p 0 := by
  simp [List.getElem?_set_ne hpq]

end Bytes

/-! ## Steps that copy no byte -/

section Quiet

variable {ops : Nat → InodeOp} {s : InodeState} {t : Nat}

/-- A step of `t` moves no other thread. -/
theorem inodeStep_pc_ne {u : Nat} (hut : u ≠ t) : (inodeStep ops s t).pc u = s.pc u := by
  unfold inodeStep
  split <;> (try split) <;> (try split) <;> simp [InodeState.setPc, Function.update_noteq hut]

/-- Only the comparison under the exclusive lock and the copy change `buf_`. -/
theorem inodeStep_buf_ (hr : s.pc t ≠ .recheck) (hc : ∀ i, s.pc t ≠ .copy i) :
    (inodeStep ops s t).buf_ = s.buf_ := by
  unfold inodeStep
  split <;> (try split) <;> simp_all [InodeState.setPc]

/-- A step that copies no byte leaves the count of bytes each write has copied. -/
theorem LockInv.copied_step (hl : LockInv ops s)
    (hnc : ∀ i buf off, s.pc t = .copy i → ops t = .write buf off → buf.length ≤ i)
    {u : Nat} {buf : List (BitVec 8)} {off : BitVec 64} (hop : ops u = .write buf off) :
    ((inodeStep ops s t).pc u).copied buf.length = (s.pc u).copied buf.length := by
  by_cases hut : u = t
  · subst hut
    cases hpc : s.pc u with
    | copy i =>
      have := hl.copy_le u buf off i hop hpc
      have := hnc i buf off hpc hop
      rw [inodeStep_copy_end hop hpc (by omega)]
      simp [RwPc.copied]
      omega
    | _ =>
      simp only [inodeStep, hpc, hop] <;> (try split_ifs) <;> simp [RwPc.copied, InodeOp.entry, hpc]
  · rw [inodeStep_pc_ne hut]

variable (hops : ∀ u buf off, ops u = .write buf off → off.toNat + buf.length < 2 ^ 63)
include hops

/-- A step that copies no byte changes no byte: `Resize` only grows the file. -/
theorem LockInv.getD_step (hl : LockInv ops s)
    (hnc : ∀ i buf off, s.pc t = .copy i → ops t = .write buf off → buf.length ≤ i) (p : Nat) :
    (inodeStep ops s t).buf_.getD p 0 = s.buf_.getD p 0 := by
  by_cases hr : s.pc t = .recheck
  · cases hop : ops t with
    | read => simp only [inodeStep, hr, hop]
    | write buf off =>
      have hoff := hl.write_off hop
      have := hops t buf off hop
      have := hl.small
      rw [inodeStep_recheck hop hr, toNat_size_sub (by omega) hoff]
      split_ifs with hc
      · -- the file grows to the end of the write
        have hn : (BitVec.ofNat 64 buf.length + off).toNat = off.toNat + buf.length := by
          rw [BitVec.toNat_add, BitVec.toNat_ofNat, Nat.mod_eq_of_lt (by omega),
            Nat.mod_eq_of_lt (by omega)]
          omega
        rw [hn]
        exact getD_resize (by omega)
      · rfl
  by_cases hc : ∃ i, s.pc t = .copy i
  · obtain ⟨i, hpc⟩ := hc
    cases hop : ops t with
    | read => simp only [inodeStep, hpc, hop]
    | write buf off => rw [inodeStep_copy_end hop hpc (hnc i buf off hpc hop)]; rfl
  · rw [inodeStep_buf_ hr (not_exists.1 hc)]

end Quiet

/-! ## The invariant -/

/-- What holds of the bytes between any two steps, from the contents `init`: each byte is the one
`init` holds there (zero past its end), or the byte a write has copied there; and a byte a write
has copied, at a place no other write covers, is that write's. -/
structure ByteInv (ops : Nat → InodeOp) (init : List (BitVec 8)) (s : InodeState) : Prop where
  origin : ∀ p, s.buf_.getD p 0 = init.getD p 0 ∨ ∃ u buf off, ops u = .write buf off ∧
    off.toNat ≤ p ∧ p < off.toNat + (s.pc u).copied buf.length ∧
    s.buf_.getD p 0 = buf.getD (p - off.toNat) 0
  last : ∀ u buf off, ops u = .write buf off → ∀ k < (s.pc u).copied buf.length,
    (∀ v buf' off', v ≠ u → ops v = .write buf' off' →
      off.toNat + k < off'.toNat ∨ off'.toNat + buf'.length ≤ off.toNat + k) →
    s.buf_.getD (off.toNat + k) 0 = buf.getD k 0

theorem ByteInv.start (ops : Nat → InodeOp) (init : List (BitVec 8)) :
    ByteInv ops init (.start init) where
  origin _ := .inl rfl
  last _ _ _ _ _ hk := absurd hk (Nat.not_lt_zero _)

section Step

variable {ops : Nat → InodeOp} {init : List (BitVec 8)} {s : InodeState} {t : Nat}

/-- A step that changes no byte and no count of copied bytes. -/
theorem ByteInv.frame (h : ByteInv ops init s) {s' : InodeState}
    (hbuf : ∀ p, s'.buf_.getD p 0 = s.buf_.getD p 0)
    (hcop : ∀ u buf off, ops u = .write buf off →
      (s'.pc u).copied buf.length = (s.pc u).copied buf.length) : ByteInv ops init s' where
  origin p := by
    rw [hbuf]
    rcases h.origin p with h1 | ⟨u, buf, off, hop, hlo, hhi, hb⟩
    · exact .inl h1
    · exact .inr ⟨u, buf, off, hop, hlo, by rw [hcop u buf off hop]; exact hhi, hb⟩
  last u buf off hop k hk hiso := by
    rw [hbuf]
    exact h.last u buf off hop k (by rwa [← hcop u buf off hop]) hiso

/-- The copy of byte `i` of thread `t`'s write: the byte lands at `off + i`, and `t` has copied
one byte more. -/
theorem ByteInv.copyByte (h : ByteInv ops init s) {i : Nat} {buf : List (BitVec 8)}
    {off : BitVec 64} (hpc : s.pc t = .copy i) (hop : ops t = .write buf off)
    (hi : i < buf.length) (hq : off.toNat + i < s.buf_.length) :
    ByteInv ops init { s.setPc t (.copy (i + 1)) with
      buf_ := s.buf_.set (off.toNat + i) (buf.getD i 0) } := by
  have hcop : ∀ u, u ≠ t → (Function.update s.pc t (.copy (i + 1)) u) = s.pc u :=
    fun u hut => Function.update_noteq hut _ _
  constructor
  · -- every byte still has an origin
    intro p
    by_cases hp : p = off.toNat + i
    · -- the byte just copied
      subst hp
      refine .inr ⟨t, buf, off, hop, by omega, by simp [RwPc.copied], ?_⟩
      dsimp only
      rw [getD_set_self hq, Nat.add_sub_cancel_left]
    · dsimp only
      rw [getD_set_ne (Ne.symm hp)]
      rcases h.origin p with h1 | ⟨u, buf', off', hop', hlo, hhi, hb⟩
      · exact .inl h1
      refine .inr ⟨u, buf', off', hop', hlo, ?_, hb⟩
      by_cases hut : u = t
      · subst hut
        obtain ⟨rfl, rfl⟩ := InodeOp.write.inj (hop.symm.trans hop')
        rw [hpc] at hhi
        simp only [InodeState.setPc_pc, Function.update_same, RwPc.copied] at hhi ⊢
        omega
      · simpa only [InodeState.setPc_pc, hcop u hut] using hhi
  · -- a copied byte that no other write covers is its writer's
    intro u buf' off' hop' k hk hiso
    dsimp only at hk ⊢
    by_cases hut : u = t
    · subst hut
      obtain ⟨rfl, rfl⟩ := InodeOp.write.inj (hop.symm.trans hop')
      simp only [InodeState.setPc_pc, Function.update_same, RwPc.copied] at hk
      by_cases hki : k = i
      · subst hki
        exact getD_set_self hq
      · rw [getD_set_ne (by omega)]
        exact h.last u buf off hop k (by rw [hpc]; simp only [RwPc.copied]; omega) hiso
    · -- another write's byte lies where `t` does not write
      rw [InodeState.setPc_pc, hcop u hut] at hk
      have hne : off.toNat + i ≠ off'.toNat + k := by
        rcases hiso t buf off (Ne.symm hut) hop with h1 | h1 <;> omega
      rw [getD_set_ne hne]
      exact h.last u buf' off' hop' k hk hiso

variable (hops : ∀ u buf off, ops u = .write buf off → off.toNat + buf.length < 2 ^ 63)
include hops

/-- **One step keeps the invariant.** -/
theorem ByteInv.step (hl : LockInv ops s) (h : ByteInv ops init s) (t : Nat) :
    ByteInv ops init (inodeStep ops s t) := by
  by_cases hc : ∃ i buf off, s.pc t = .copy i ∧ ops t = .write buf off ∧ i < buf.length
  · obtain ⟨i, buf, off, hpc, hop, hi⟩ := hc
    have hfit := hl.fits t buf off hop (by rw [hpc]; rfl)
    have hoff : off.toInt = off.toNat := toInt_of_lt (by have := hl.small; omega)
    rw [inodeStep_copy_byte hop hpc hi (by rw [hoff]; omega),
      show (off.toInt + i).toNat = off.toNat + i by omega]
    exact h.copyByte hpc hop hi (by omega)
  · have hnc : ∀ i buf off, s.pc t = .copy i → ops t = .write buf off → buf.length ≤ i :=
      fun i buf off hpc hop => Nat.not_lt.1 fun hi => hc ⟨i, buf, off, hpc, hop, hi⟩
    exact h.frame (hl.getD_step hops hnc) fun _ _ _ hop => hl.copied_step hnc hop

/-- **Every interleaving keeps the invariant.** -/
theorem ByteInv.run (hl : LockInv ops s) (h : ByteInv ops init s) (sched : List Nat) :
    ByteInv ops init (inodeRun ops s sched) := by
  induction sched generalizing s with
  | nil => exact h
  | cons t sched ih => exact ih (hl.step hops t).1 (h.step hops hl t)

end Step

/-- **The bytes of concurrent writes**: when every offset lies in the file and no write reaches
`2 ^ 63`, after any interleaving every byte of `buf_` is the byte the file started with (zero past
its end) or one that some write has copied to that place; and every byte a write has copied, at a
place no other write covers, holds what that write copied. -/
theorem Write_bytes (buf_ : List (BitVec 8)) (ops : Nat → InodeOp)
    (hsize : buf_.length < 2 ^ 63) (hoff : ∀ u, (ops u).off.toNat ≤ buf_.length)
    (hops : ∀ u buf off, ops u = .write buf off → off.toNat + buf.length < 2 ^ 63)
    (sched : List Nat) :
    let s := inodeRun ops (.start buf_) sched
    (∀ p, s.buf_.getD p 0 = buf_.getD p 0 ∨ ∃ u buf off, ops u = .write buf off ∧
      off.toNat ≤ p ∧ p < off.toNat + (s.pc u).copied buf.length ∧
      s.buf_.getD p 0 = buf.getD (p - off.toNat) 0) ∧
    ∀ u buf off, ops u = .write buf off → ∀ k < (s.pc u).copied buf.length,
      (∀ v buf' off', v ≠ u → ops v = .write buf' off' →
        off.toNat + k < off'.toNat ∨ off'.toNat + buf'.length ≤ off.toNat + k) →
      s.buf_.getD (off.toNat + k) 0 = buf.getD k 0 :=
  let h := (ByteInv.start ops buf_).run hops (LockInv.start hsize hoff) sched
  ⟨h.origin, h.last⟩

/-- Two writes of two bytes at offset 0 copy in turn, byte by byte: the file ends as `[8, 7]`,
which neither order of the two writes leaves. -/
example : (inodeRun (fun u => if u = 0 then .write [7, 7] 0 else .write [8, 8] 0) (.start [0, 0])
    [0, 1, 0, 1, 0, 1, 1, 0, 0, 0, 1, 1]).buf_ = [8, 7] := by
  decide

theorem Write_bytes_two_writes :
    let ops : Nat → InodeOp := fun u => if u = 0 then .write [7, 7] 0 else .write [8, 8] 0
    let s := inodeRun ops (.start [0, 0]) [0, 1, 0, 1, 0, 1, 1, 0, 0, 0, 1, 1]
    ([0, 0] : List (BitVec 8)).length < 2 ^ 63 ∧ (∀ u, (ops u).off.toNat ≤ 2) ∧
      (∀ u buf off, ops u = .write buf off → off.toNat + buf.length < 2 ^ 63) ∧
      (∀ p, s.buf_.getD p 0 = [0, 0].getD p 0 ∨ ∃ u buf off, ops u = .write buf off ∧
        off.toNat ≤ p ∧ p < off.toNat + (s.pc u).copied buf.length ∧
        s.buf_.getD p 0 = buf.getD (p - off.toNat) 0) ∧
      ∀ u buf off, ops u = .write buf off → ∀ k < (s.pc u).copied buf.length,
        (∀ v buf' off', v ≠ u → ops v = .write buf' off' →
          off.toNat + k < off'.toNat ∨ off'.toNat + buf'.length ≤ off.toNat + k) →
        s.buf_.getD (off.toNat + k) 0 = buf.getD k 0 := by
  intro ops
  have hoff : ∀ u, (ops u).off.toNat ≤ 2 := fun u => by
    by_cases hu : u = 0 <;> simp [ops, hu, InodeOp.off]
  have hops : ∀ u buf off, ops u = .write buf off → off.toNat + buf.length < 2 ^ 63 :=
    fun u buf off h => by
      by_cases hu : u = 0 <;> simp only [ops, hu, if_true, if_false, InodeOp.write.injEq] at h <;>
        obtain ⟨rfl, rfl⟩ := h <;> decide
  exact ⟨by decide, hoff, hops,
    Write_bytes [0, 0] ops (by decide) hoff hops [0, 1, 0, 1, 0, 1, 1, 0, 0, 0, 1, 1]⟩

end Junction.Memfs
