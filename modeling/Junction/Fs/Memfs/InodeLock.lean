import Junction.Fs.Contents
import Mathlib.Data.Finset.Basic

/-!
# Reads and writes of a `MemInode` under its lock (`memfs.h`)

`MemInode::Read` and `MemInode::Write` hold `lock_`, a `SharedMutex`, in shared mode while they
copy. A write that does not fit calls `lock_.UpgradeLock()`, compares again, grows `buf_` with
`Resize`, and calls `lock_.DowngradeLock()` before it copies. The lock is not among the sources.
The second comparison is there because other threads run between the two: `UpgradeLock` is taken
to give up the shared lock and then wait for the exclusive one (an upgrade that is atomic is one of
these interleavings), and `DowngradeLock` to turn the exclusive lock into a shared one at once. The
lock is the set of threads holding it shared and the thread holding it exclusively.

Threads are numbers; thread `t` makes the call `ops t`, one step at a time, in any interleaving.
The `std::copy_n` of `Write` is one step per byte, so that the copies of writers holding the shared
lock at once interleave. The copy of `Read` is one step: the model keeps whether it stays inside
`buf_`, not the bytes it gets. A copy that would touch a byte outside `buf_` takes the thread to
`fault`.

* `LockInv.run`: the invariant holds after every interleaving.
* `InodeLock_safe`: when every offset lies in the file and no write reaches `2 ^ 63`, no copy
  leaves `buf_`, `Resize` never runs while another thread holds the lock, the file never shrinks,
  and every finished write lies inside it.
-/

namespace Junction.Memfs

/-! ## Copies inside the file -/

/-- `Resize(n)` leaves `n` bytes. -/
@[simp] theorem length_resize (buf_ : List (BitVec 8)) (n : Nat) : (resize buf_ n).length = n := by
  simp only [resize, List.length_append, List.length_take, List.length_replicate]
  omega

/-- A copy that lies inside `dst` succeeds and keeps its length. -/
theorem copyInto?_inside {dst src : List (BitVec 8)} {off : BitVec 64}
    (hoff : off.toNat < 2 ^ 63) (h : off.toNat + src.length ≤ dst.length) :
    ∃ c, copyInto? dst src off.toInt = some c ∧ c.length = dst.length := by
  rw [copyInto?, toInt_of_lt hoff, Int.toNat_ofNat]
  split_ifs with hs hin
  · exact ⟨dst, rfl, rfl⟩
  · refine ⟨_, rfl, ?_⟩
    simp only [List.length_append, List.length_take, List.length_drop]
    omega
  · exact absurd ⟨by omega, by omega⟩ hin

/-- A read from an offset inside the file stays inside it. -/
theorem Read_isSome {buf_ buf : List (BitVec 8)} {off : BitVec 64} (hsmall : buf_.length < 2 ^ 63)
    (hoff : off.toNat ≤ buf_.length) : (MemInode.Read buf_ buf off).isSome = true := by
  rw [MemInode.Read, readAt_spec _ _ _ hsmall hoff]
  rfl

/-! ## Threads under the lock -/

/-- The call a thread makes on the inode: `Read(buf, off)` or `Write(buf, off)`. -/
inductive InodeOp
  | read (buf : List (BitVec 8)) (off : BitVec 64)
  | write (buf : List (BitVec 8)) (off : BitVec 64)

/-- The offset `*off` a call starts from. -/
def InodeOp.off : InodeOp → BitVec 64
  | .read _ off | .write _ off => off

/-- Where a thread is in its call. -/
inductive RwPc
  /-- Waiting for `lock_` in shared mode. -/
  | lock
  /-- `Read`: about to copy out of `buf_`. -/
  | read
  /-- `Write`: about to compare `buf_.size() - *off` with `buf.size()`. -/
  | check
  /-- `Write`, in `UpgradeLock`: about to give up the shared lock. -/
  | release
  /-- `Write`, in `UpgradeLock`: waiting for the exclusive lock. -/
  | acquire
  /-- `Write`, holding the lock exclusively: about to compare again and `Resize`. -/
  | recheck
  /-- `Write`: about to call `DowngradeLock`. -/
  | downgrade
  /-- `Write`: `i` bytes of `buf` copied into `buf_`, about to copy the next one. -/
  | copy (i : Nat)
  /-- About to give up the shared lock on return. -/
  | unlock
  /-- Returned. -/
  | done
  /-- Copied outside `buf_`. -/
  | fault
  deriving DecidableEq

/-- The points at which a thread holds `lock_` in shared mode. -/
def RwPc.shared : RwPc → Bool
  | .read | .check | .release | .copy _ | .unlock => true
  | _ => false

/-- The points at which a thread holds `lock_` exclusively. -/
def RwPc.exclusive : RwPc → Bool
  | .recheck | .downgrade => true
  | _ => false

/-- The points of `Write` after `buf_` was made to hold `[*off, *off + buf.size())`. -/
def RwPc.fits : RwPc → Bool
  | .downgrade | .copy _ | .unlock | .done => true
  | _ => false

/-- The inode's contents, its lock, and each thread's point. -/
structure InodeState where
  buf_ : List (BitVec 8)
  /-- The threads holding `lock_` in shared mode. -/
  shared : Finset Nat
  /-- The thread holding `lock_` exclusively. -/
  writer : Option Nat
  pc : Nat → RwPc

/-- No thread has started and nobody holds the lock. -/
def InodeState.start (buf_ : List (BitVec 8)) : InodeState := ⟨buf_, ∅, none, fun _ => .lock⟩

/-- Thread `t` moved to `p`. -/
def InodeState.setPc (s : InodeState) (t : Nat) (p : RwPc) : InodeState :=
  { s with pc := Function.update s.pc t p }

/-- The point a call reaches once it holds the shared lock. -/
def InodeOp.entry : InodeOp → RwPc
  | .read .. => .read
  | .write .. => .check

/-- Thread `t` takes one step of its call `ops t`. A thread that waits for the lock, has returned
or has faulted leaves the state as it is. -/
def inodeStep (ops : Nat → InodeOp) (s : InodeState) (t : Nat) : InodeState :=
  match s.pc t, ops t with
  | .lock, op =>
    if s.writer = none then { s.setPc t op.entry with shared := insert t s.shared } else s
  | .read, .read buf off =>
    s.setPc t (if (MemInode.Read s.buf_ buf off).isSome then .unlock else .fault)
  | .check, .write buf off =>
    s.setPc t (if (BitVec.ofNat 64 s.buf_.length - off).toNat < buf.length then .release
      else .copy 0)
  | .release, _ => { s.setPc t .acquire with shared := s.shared.erase t }
  | .acquire, _ =>
    if s.shared = ∅ ∧ s.writer = none then { s.setPc t .recheck with writer := some t } else s
  | .recheck, .write buf off =>
    { s.setPc t .downgrade with
      buf_ := if (BitVec.ofNat 64 s.buf_.length - off).toNat < buf.length then
        resize s.buf_ (BitVec.ofNat 64 buf.length + off).toNat else s.buf_ }
  | .downgrade, _ => { s.setPc t (.copy 0) with writer := none, shared := insert t s.shared }
  | .copy i, .write buf off =>
    if i < buf.length then
      if 0 ≤ off.toInt + i ∧ off.toInt + i < s.buf_.length then
        { s.setPc t (.copy (i + 1)) with buf_ := s.buf_.set (off.toInt + i).toNat (buf.getD i 0) }
      else s.setPc t .fault
    else s.setPc t .unlock
  | .unlock, _ => { s.setPc t .done with shared := s.shared.erase t }
  | _, _ => s

/-- The threads step in the order `sched`. -/
def inodeRun (ops : Nat → InodeOp) (s : InodeState) (sched : List Nat) : InodeState :=
  sched.foldl (inodeStep ops) s

/-- Two writes from offset 0, the shorter one comparing first and growing the file last: the
second comparison keeps it from cutting the longer write's last byte. -/
example : (inodeRun (fun u => if u = 0 then .write [7, 7] 0 else .write [8, 8, 8] 0)
    (.start []) ([0, 0, 0] ++ List.replicate 11 1 ++ List.replicate 7 0)).buf_ = [7, 7, 8] := by
  decide

@[simp] theorem InodeState.setPc_pc (s : InodeState) (t : Nat) (p : RwPc) :
    (s.setPc t p).pc = Function.update s.pc t p := rfl

@[simp] theorem InodeState.setPc_buf_ (s : InodeState) (t : Nat) (p : RwPc) :
    (s.setPc t p).buf_ = s.buf_ := rfl

@[simp] theorem InodeState.setPc_shared (s : InodeState) (t : Nat) (p : RwPc) :
    (s.setPc t p).shared = s.shared := rfl

@[simp] theorem InodeState.setPc_writer (s : InodeState) (t : Nat) (p : RwPc) :
    (s.setPc t p).writer = s.writer := rfl

@[simp] theorem InodeOp.shared_entry (op : InodeOp) : op.entry.shared = true := by cases op <;> rfl

@[simp] theorem InodeOp.exclusive_entry (op : InodeOp) : op.entry.exclusive = false := by
  cases op <;> rfl

@[simp] theorem InodeOp.fits_entry (op : InodeOp) : op.entry.fits = false := by cases op <;> rfl

@[simp] theorem InodeOp.entry_ne_fault (op : InodeOp) : op.entry ≠ .fault := by cases op <;> nofun

@[simp] theorem InodeOp.entry_ne_copy (op : InodeOp) (i : Nat) : op.entry ≠ .copy i := by
  cases op <;> nofun

/-! ## What each step does -/

section Steps

variable {ops : Nat → InodeOp} {s : InodeState} {t : Nat} {buf : List (BitVec 8)}
  {off : BitVec 64}

theorem inodeStep_lock (hpc : s.pc t = .lock) (hw : s.writer = none) :
    inodeStep ops s t = { s.setPc t (ops t).entry with shared := insert t s.shared } := by
  simp only [inodeStep, hpc, hw, if_true]

theorem inodeStep_check (hop : ops t = .write buf off) (hpc : s.pc t = .check) :
    inodeStep ops s t = s.setPc t
      (if (BitVec.ofNat 64 s.buf_.length - off).toNat < buf.length then .release else .copy 0) := by
  simp only [inodeStep, hpc, hop]

theorem inodeStep_release (hpc : s.pc t = .release) :
    inodeStep ops s t = { s.setPc t .acquire with shared := s.shared.erase t } := by
  simp only [inodeStep, hpc]

theorem inodeStep_acquire (hpc : s.pc t = .acquire) (hs : s.shared = ∅) (hw : s.writer = none) :
    inodeStep ops s t = { s.setPc t .recheck with writer := some t } := by
  simp only [inodeStep, hpc, hs, hw, and_self, if_true]

theorem inodeStep_recheck (hop : ops t = .write buf off) (hpc : s.pc t = .recheck) :
    inodeStep ops s t = { s.setPc t .downgrade with
      buf_ := if (BitVec.ofNat 64 s.buf_.length - off).toNat < buf.length then
        resize s.buf_ (BitVec.ofNat 64 buf.length + off).toNat else s.buf_ } := by
  simp only [inodeStep, hpc, hop]

theorem inodeStep_downgrade (hpc : s.pc t = .downgrade) :
    inodeStep ops s t =
      { s.setPc t (.copy 0) with writer := none, shared := insert t s.shared } := by
  simp only [inodeStep, hpc]

theorem inodeStep_copy_byte {i : Nat} (hop : ops t = .write buf off) (hpc : s.pc t = .copy i)
    (hi : i < buf.length) (hin : 0 ≤ off.toInt + i ∧ off.toInt + i < s.buf_.length) :
    inodeStep ops s t = { s.setPc t (.copy (i + 1)) with
      buf_ := s.buf_.set (off.toInt + i).toNat (buf.getD i 0) } := by
  simp only [inodeStep, hpc, hop, hi, hin, and_self, if_true]

theorem inodeStep_copy_end {i : Nat} (hop : ops t = .write buf off) (hpc : s.pc t = .copy i)
    (hi : buf.length ≤ i) : inodeStep ops s t = s.setPc t .unlock := by
  simp only [inodeStep, hpc, hop, if_neg (Nat.not_lt.2 hi)]

theorem inodeStep_unlock (hpc : s.pc t = .unlock) :
    inodeStep ops s t = { s.setPc t .done with shared := s.shared.erase t } := by
  simp only [inodeStep, hpc]

theorem inodeStep_done (hpc : s.pc t = .done) : inodeStep ops s t = s := by
  cases hop : ops t <;> simp only [inodeStep, hpc, hop]

theorem inodeStep_fault (hpc : s.pc t = .fault) : inodeStep ops s t = s := by
  cases hop : ops t <;> simp only [inodeStep, hpc, hop]

end Steps

/-! ## The invariant -/

/-- What holds between any two steps: the lock's state is the threads' points, an exclusive
holder is alone, the file holds every offset and every write that got past its comparison, and a
writer has copied no more bytes than its buffer holds. -/
structure LockInv (ops : Nat → InodeOp) (s : InodeState) : Prop where
  shared_iff : ∀ u, u ∈ s.shared ↔ (s.pc u).shared = true
  writer_iff : ∀ u, (s.pc u).exclusive = true ↔ s.writer = some u
  alone : s.writer ≠ none → s.shared = ∅
  small : s.buf_.length < 2 ^ 63
  off_le : ∀ u, (ops u).off.toNat ≤ s.buf_.length
  fits : ∀ u buf off, ops u = .write buf off → (s.pc u).fits = true →
    off.toNat + buf.length ≤ s.buf_.length
  copy_le : ∀ u buf off i, ops u = .write buf off → s.pc u = .copy i → i ≤ buf.length
  no_fault : ∀ u, s.pc u ≠ .fault

theorem LockInv.start {ops : Nat → InodeOp} {buf_ : List (BitVec 8)} (hsize : buf_.length < 2 ^ 63)
    (hoff : ∀ u, (ops u).off.toNat ≤ buf_.length) : LockInv ops (.start buf_) where
  shared_iff _ := by simp [InodeState.start, RwPc.shared]
  writer_iff _ := by simp [InodeState.start, RwPc.exclusive]
  alone h := (h rfl).elim
  small := hsize
  off_le := hoff
  fits _ _ _ _ h := by simp [InodeState.start, RwPc.fits] at h
  copy_le _ _ _ _ _ h := nomatch h
  no_fault _ := nofun

section Step

variable {ops : Nat → InodeOp} {s : InodeState} {t : Nat}

/-- A step of thread `t` to `p` keeps the invariant, and does not shrink the file, when it keeps
the lock's state in line with `p`, leaves an exclusive holder alone, `p` is reached only by a
write that fits, and a copy it reaches has not gone past the buffer. -/
theorem LockInv.update (h : LockInv ops s) {p : RwPc} {s' : InodeState}
    (hpc : s'.pc = Function.update s.pc t p)
    (hshared : ∀ u ≠ t, u ∈ s'.shared ↔ u ∈ s.shared) (hsharedt : t ∈ s'.shared ↔ p.shared = true)
    (hwriter : ∀ u ≠ t, s'.writer = some u ↔ s.writer = some u)
    (hwritert : s'.writer = some t ↔ p.exclusive = true)
    (halone : s'.writer ≠ none → s'.shared = ∅) (hgrow : s.buf_.length ≤ s'.buf_.length)
    (hsmall : s'.buf_.length < 2 ^ 63) (hp : p ≠ .fault)
    (hfits : ∀ buf off, ops t = .write buf off → p.fits = true →
      off.toNat + buf.length ≤ s'.buf_.length)
    (hcopy : ∀ buf off i, ops t = .write buf off → p = .copy i → i ≤ buf.length) :
    LockInv ops s' ∧ s.buf_.length ≤ s'.buf_.length := by
  refine ⟨⟨fun u => ?_, fun u => ?_, halone, hsmall, fun u => (h.off_le u).trans hgrow,
    fun u buf off hop hf => ?_, fun u buf off i hop hi => ?_, fun u => ?_⟩, hgrow⟩
  · -- the shared holders
    by_cases hu : u = t
    · rw [hu, hsharedt, hpc, Function.update_same]
    · rw [hshared u hu, h.shared_iff, hpc, Function.update_noteq hu]
  · -- the exclusive holder
    by_cases hu : u = t
    · rw [hu, hwritert, hpc, Function.update_same]
    · rw [hwriter u hu, ← h.writer_iff, hpc, Function.update_noteq hu]
  · -- the writes that fit
    by_cases hu : u = t
    · rw [hu, hpc, Function.update_same] at hf
      exact hfits buf off (hu ▸ hop) hf
    · rw [hpc, Function.update_noteq hu] at hf
      exact (h.fits u buf off hop hf).trans hgrow
  · -- the copies
    by_cases hu : u = t
    · rw [hu, hpc, Function.update_same] at hi
      exact hcopy buf off i (hu ▸ hop) hi
    · rw [hpc, Function.update_noteq hu] at hi
      exact h.copy_le u buf off i hop hi
  · -- no fault
    by_cases hu : u = t
    · rw [hu, hpc, Function.update_same]
      exact hp
    · rw [hpc, Function.update_noteq hu]
      exact h.no_fault u

/-- A step of thread `t` that leaves the lock as it is, to a point that holds it as `t` did. -/
theorem LockInv.move (h : LockInv ops s) {p : RwPc} {s' : InodeState}
    (hpc : s'.pc = Function.update s.pc t p) (hsh : s'.shared = s.shared)
    (hw : s'.writer = s.writer) (hshp : p.shared = (s.pc t).shared)
    (hexp : p.exclusive = (s.pc t).exclusive) (hgrow : s.buf_.length ≤ s'.buf_.length)
    (hsmall : s'.buf_.length < 2 ^ 63) (hp : p ≠ .fault)
    (hfits : ∀ buf off, ops t = .write buf off → p.fits = true →
      off.toNat + buf.length ≤ s'.buf_.length)
    (hcopy : ∀ buf off i, ops t = .write buf off → p = .copy i → i ≤ buf.length) :
    LockInv ops s' ∧ s.buf_.length ≤ s'.buf_.length :=
  h.update hpc (fun _ _ => by rw [hsh]) (by rw [hsh, h.shared_iff, hshp])
    (fun _ _ => by rw [hw]) (by rw [hw, ← h.writer_iff, hexp]) (by rw [hsh, hw]; exact h.alone)
    hgrow hsmall hp hfits hcopy

/-- The offset of a write, as the invariant bounds it. -/
theorem LockInv.write_off (h : LockInv ops s) {buf : List (BitVec 8)} {off : BitVec 64}
    (hop : ops t = .write buf off) : off.toNat ≤ s.buf_.length := by
  simpa [hop, InodeOp.off] using h.off_le t

section Hyp

variable (hops : ∀ u buf off, ops u = .write buf off → off.toNat + buf.length < 2 ^ 63)
include hops

/-- **One step keeps the invariant and does not shrink the file.** -/
theorem LockInv.step (h : LockInv ops s) (t : Nat) :
    LockInv ops (inodeStep ops s t) ∧ s.buf_.length ≤ (inodeStep ops s t).buf_.length := by
  cases hpc : s.pc t with
  | lock =>
    simp only [inodeStep, hpc]
    split_ifs with hw
    · refine h.update (p := (ops t).entry) rfl (fun u hu => by simp [hu]) (by simp)
        (fun _ _ => Iff.rfl) (by simp [hw]) (fun hn => (hn hw).elim) le_rfl h.small (by simp)
        (by simp) fun _ _ i _ he => absurd he (InodeOp.entry_ne_copy _ i)
    · exact ⟨h, le_rfl⟩
  | read =>
    cases hop : ops t with
    | read buf off =>
      have hr : (MemInode.Read s.buf_ buf off).isSome = true :=
        Read_isSome h.small (by simpa [hop, InodeOp.off] using h.off_le t)
      simp only [inodeStep, hpc, hop, hr, if_true]
      exact h.move (p := .unlock) rfl rfl rfl (by rw [hpc]; rfl) (by rw [hpc]; rfl) le_rfl h.small
        nofun (by simp [RwPc.fits, hop]) fun _ _ _ _ => nofun
    | write => simpa only [inodeStep, hpc, hop] using And.intro h le_rfl
  | check =>
    cases hop : ops t with
    | read => simpa only [inodeStep, hpc, hop] using And.intro h le_rfl
    | write buf off =>
      have hsub := toNat_size_sub (by have := h.small; omega) (h.write_off hop)
      simp only [inodeStep, hpc, hop]
      split_ifs with hc
      · exact h.move (p := .release) rfl rfl rfl (by rw [hpc]; rfl) (by rw [hpc]; rfl) le_rfl
          h.small nofun (by simp [RwPc.fits]) fun _ _ _ _ => nofun
      · refine h.move (p := .copy 0) rfl rfl rfl (by rw [hpc]; rfl) (by rw [hpc]; rfl) le_rfl
          h.small nofun (fun buf' off' hop' _ => ?_) fun _ _ _ _ he => by cases he; omega
        obtain ⟨rfl, rfl⟩ := InodeOp.write.inj (hop.symm.trans hop')
        have := h.write_off hop
        simp only [InodeState.setPc_buf_]
        omega
  | release =>
    rw [inodeStep_release hpc]
    exact h.update (p := .acquire) rfl (fun u hu => by simp [hu]) (by simp [RwPc.shared])
      (fun _ _ => Iff.rfl) (by dsimp only [InodeState.setPc_writer]; rw [← h.writer_iff, hpc]; rfl)
      (fun hn => by simp [h.alone hn]) le_rfl h.small nofun (by simp [RwPc.fits])
      fun _ _ _ _ => nofun
  | acquire =>
    simp only [inodeStep, hpc]
    split_ifs with hfree
    · exact h.update (p := .recheck) rfl (fun _ _ => Iff.rfl) (by simp [hfree.1, RwPc.shared])
        (fun u hu => by simp [hfree.2, Ne.symm hu]) (by simp [RwPc.exclusive])
        (fun _ => hfree.1) le_rfl h.small nofun (by simp [RwPc.fits]) fun _ _ _ _ => nofun
    · exact ⟨h, le_rfl⟩
  | recheck =>
    cases hop : ops t with
    | read => simpa only [inodeStep, hpc, hop] using And.intro h le_rfl
    | write buf off =>
      have hoff := h.write_off hop
      have hsub := toNat_size_sub (by have := h.small; omega) hoff
      have hsum : (BitVec.ofNat 64 buf.length + off).toNat = buf.length + off.toNat := by
        have := hops t buf off hop
        rw [BitVec.toNat_add, BitVec.toNat_ofNat, Nat.mod_eq_of_lt (by omega),
          Nat.mod_eq_of_lt (by omega)]
      have := hops t buf off hop
      have := h.small
      simp only [inodeStep, hpc, hop]
      split_ifs with hc
      · refine h.move (p := .downgrade) rfl rfl rfl (by rw [hpc]; rfl) (by rw [hpc]; rfl)
          (by simp only [length_resize, hsum]; omega) (by simp only [length_resize, hsum]; omega)
          nofun (fun buf' off' hop' _ => ?_) fun _ _ _ _ => nofun
        obtain ⟨rfl, rfl⟩ := InodeOp.write.inj (hop.symm.trans hop')
        simp only [length_resize, hsum]
        omega
      · refine h.move (p := .downgrade) rfl rfl rfl (by rw [hpc]; rfl) (by rw [hpc]; rfl) le_rfl
          h.small nofun (fun buf' off' hop' _ => ?_) fun _ _ _ _ => nofun
        obtain ⟨rfl, rfl⟩ := InodeOp.write.inj (hop.symm.trans hop')
        dsimp only
        omega
  | downgrade =>
    have hw := (h.writer_iff t).1 (by rw [hpc]; rfl)
    rw [inodeStep_downgrade hpc]
    exact h.update (p := .copy 0) rfl (fun u hu => by simp [hu]) (by simp [RwPc.shared])
      (fun u hu => by simp [hw, Ne.symm hu]) (by simp [RwPc.exclusive]) (fun hn => (hn rfl).elim)
      le_rfl h.small nofun (fun buf off hop _ => h.fits t buf off hop (by rw [hpc]; rfl))
      fun _ _ _ _ he => by cases he; omega
  | copy i =>
    cases hop : ops t with
    | read => simpa only [inodeStep, hpc, hop] using And.intro h le_rfl
    | write buf off =>
      have hfit := h.fits t buf off hop (by rw [hpc]; rfl)
      by_cases hi : i < buf.length
      · -- the next byte lies inside `buf_`
        have hoff : off.toInt = off.toNat := toInt_of_lt (by have := h.small; omega)
        rw [inodeStep_copy_byte hop hpc hi (by rw [hoff]; omega)]
        refine h.move (p := .copy (i + 1)) rfl rfl rfl (by rw [hpc]; rfl) (by rw [hpc]; rfl)
          (by simp) (by simpa using h.small) nofun (fun buf' off' hop' _ => ?_)
          fun buf' off' j hop' he => ?_ <;>
        obtain ⟨rfl, rfl⟩ := InodeOp.write.inj (hop.symm.trans hop')
        · simpa using hfit
        · cases he; omega
      · rw [inodeStep_copy_end hop hpc (by omega)]
        exact h.move (p := .unlock) rfl rfl rfl (by rw [hpc]; rfl) (by rw [hpc]; rfl) le_rfl
          h.small nofun (fun buf off hop _ => h.fits t buf off hop (by rw [hpc]; rfl))
          fun _ _ _ _ => nofun
  | unlock =>
    rw [inodeStep_unlock hpc]
    exact h.update (p := .done) rfl (fun u hu => by simp [hu]) (by simp [RwPc.shared])
      (fun _ _ => Iff.rfl) (by dsimp only [InodeState.setPc_writer]; rw [← h.writer_iff, hpc]; rfl)
      (fun hn => by simp [h.alone hn]) le_rfl h.small nofun
      (fun buf off hop _ => h.fits t buf off hop (by rw [hpc]; rfl)) fun _ _ _ _ => nofun
  | done => rw [inodeStep_done hpc]; exact ⟨h, le_rfl⟩
  | fault => exact absurd hpc (h.no_fault t)

/-- **Every interleaving keeps the invariant and does not shrink the file.** -/
theorem LockInv.run (h : LockInv ops s) (sched : List Nat) :
    LockInv ops (inodeRun ops s sched) ∧ s.buf_.length ≤ (inodeRun ops s sched).buf_.length := by
  induction sched generalizing s with
  | nil => exact ⟨h, le_rfl⟩
  | cons t sched ih =>
    obtain ⟨h₁, g₁⟩ := h.step hops t
    obtain ⟨h₂, g₂⟩ := ih h₁
    exact ⟨h₂, g₁.trans g₂⟩

end Hyp

end Step

/-- What the invariant says of the lock and the copies: no thread has faulted, a thread about to
`Resize` holds the lock alone, and a finished write lies inside the file. -/
theorem LockInv.safe {ops : Nat → InodeOp} {s : InodeState} (h : LockInv ops s) :
    (∀ u, s.pc u ≠ .fault) ∧ (∀ t u, s.pc t = .recheck → (s.pc u).shared = false) ∧
      (∀ t u, (s.pc t).exclusive = true → (s.pc u).exclusive = true → t = u) ∧
      (∀ u buf off, ops u = .write buf off → s.pc u = .done →
        off.toNat + buf.length ≤ s.buf_.length) := by
  refine ⟨h.no_fault, fun t u ht => ?_, fun t u ht hu => ?_,
    fun u buf off hop hd => h.fits u buf off hop (by rw [hd]; rfl)⟩
  · have hw := (h.writer_iff t).1 (by rw [ht]; rfl)
    have hu := h.shared_iff u
    rw [h.alone (by simp [hw])] at hu
    simpa using hu.symm
  · exact Option.some.inj (((h.writer_iff t).1 ht).symm.trans ((h.writer_iff u).1 hu))

/-- **Reads and writes of a `MemInode` are safe in every interleaving**: when every offset lies in
the file and no write reaches `2 ^ 63`, no copy of `Read` or `Write` touches a byte outside `buf_`,
a thread about to `Resize` holds the lock alone, at most one thread holds it exclusively, `buf_`
never shrinks in the steps that follow, and every finished write lies inside `buf_`. -/
theorem InodeLock_safe (buf_ : List (BitVec 8)) (ops : Nat → InodeOp)
    (hsize : buf_.length < 2 ^ 63) (hoff : ∀ u, (ops u).off.toNat ≤ buf_.length)
    (hops : ∀ u buf off, ops u = .write buf off → off.toNat + buf.length < 2 ^ 63)
    (sched more : List Nat) :
    let s := inodeRun ops (.start buf_) sched
    (∀ u, s.pc u ≠ .fault) ∧ (∀ t u, s.pc t = .recheck → (s.pc u).shared = false) ∧
      (∀ t u, (s.pc t).exclusive = true → (s.pc u).exclusive = true → t = u) ∧
      s.buf_.length ≤ (inodeRun ops s more).buf_.length ∧
      (∀ u buf off, ops u = .write buf off → s.pc u = .done →
        off.toNat + buf.length ≤ s.buf_.length) := by
  intro s
  have h := ((LockInv.start hsize hoff).run hops sched).1
  obtain ⟨hf, hr, hx, hd⟩ := h.safe
  exact ⟨hf, hr, hx, (h.run hops more).2, hd⟩

theorem InodeLock_safe_two_writes :
    let ops : Nat → InodeOp := fun u => if u = 0 then .write [7, 7] 0 else .write [8, 8, 8] 0
    let s := inodeRun ops (.start []) [0, 0, 0, 1, 1, 1, 1]
    ([] : List (BitVec 8)).length < 2 ^ 63 ∧ (∀ u, (ops u).off.toNat ≤ 0) ∧
      (∀ u buf off, ops u = .write buf off → off.toNat + buf.length < 2 ^ 63) ∧
      (∀ u, s.pc u ≠ .fault) ∧ (∀ t u, s.pc t = .recheck → (s.pc u).shared = false) ∧
      (∀ t u, (s.pc t).exclusive = true → (s.pc u).exclusive = true → t = u) ∧
      s.buf_.length ≤ (inodeRun ops s [1, 1, 1, 1, 0]).buf_.length ∧
      (∀ u buf off, ops u = .write buf off → s.pc u = .done →
        off.toNat + buf.length ≤ s.buf_.length) := by
  intro ops
  have hoff : ∀ u, (ops u).off.toNat ≤ 0 := fun u => by
    by_cases hu : u = 0 <;> simp [ops, hu, InodeOp.off]
  have hops : ∀ u buf off, ops u = .write buf off → off.toNat + buf.length < 2 ^ 63 :=
    fun u buf off h => by
      by_cases hu : u = 0 <;> simp only [ops, hu, if_true, if_false, InodeOp.write.injEq] at h <;>
        obtain ⟨rfl, rfl⟩ := h <;> decide
  exact ⟨by decide, hoff, hops,
    InodeLock_safe [] ops (by decide) hoff hops [0, 0, 0, 1, 1, 1, 1] [1, 1, 1, 1, 0]⟩

end Junction.Memfs
