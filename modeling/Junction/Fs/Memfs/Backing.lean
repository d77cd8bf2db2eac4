import Junction.Base.Arch
import Junction.Base.Errno
import Mathlib.Data.List.Nodup
import Mathlib.Logic.Function.Basic

/-!
# The memfd behind memfs files (`memfs.cc`)

Every memfs file made by `MemInode::Create` owns a slot of one memfd, `memfs_extent_fd`: slot `s`
is the byte range `[s * kMaxSizeBytes, (s + 1) * kMaxSizeBytes)` of the memfd, its extent, and the
bitmap `allocated_file_slots` records the slots taken. `~MemInode` drops the pages of the extent
(`MADV_REMOVE`) and clears the slot; `SetSize` drops the whole pages past the new size.

The model is a state machine over the bitmap, the bytes of the memfd and the live inodes.
`Create` is cut where the code releases `file_alloc_lock`: `CreateLocked` takes a slot and
`CreateMap` maps it (or fails), so that every interleaving of threads is a run of `step`. The host
calls that can fail (`ksys_mmap`, `KernelMAdvise`) take their outcome from the operation.

* `SlotInv.run`: in every reachable state no slot is owned twice and every owned slot is set in
  the bitmap; `run_slots_separate` draws the consequence for the live inodes.
* `run_zero_past_page`: when every `MADV_REMOVE` succeeds, free slots read as zero, and so does
  every live inode's extent from `PageAlign(size_)` on.
* `SetSize_keeps_partial_page`: the bytes between `size_` and `PageAlign(size_)` are not dropped,
  so a file shrunk and grown again shows its old bytes.
* `Create_error_keeps_slot`, `Create_error_leaks_slot`: when `ksys_mmap` fails, `Create` returns
  the error with the slot still set, and no later run frees it.
* `MMap_within_iff`: `MMap` maps the memfd at the extent plus `off`, and the range stays in the
  file's slot only when `off + length ≤ kMaxSizeBytes`, which nothing checks.
-/

namespace Junction.Memfs

/-- `kMaxSizeBytes`: the largest memfs file, and the size of a slot of the memfd. -/
def kMaxSizeBytes : Nat := 2 ^ 33

/-- What the backing store sees of a `MemInode`: `extent_offset_` (`none` stands for `-1`, an inode
restored without a slot) and `size_`. -/
structure MemInode where
  extent_offset : Option Nat
  size : Nat
  deriving DecidableEq

/-- The state shared by all memfs files. -/
structure Backing where
  /-- `allocated_file_slots`. -/
  slots : Nat → Bool
  /-- The bytes of the memfd `memfs_extent_fd`. -/
  fd : Nat → BitVec 8
  /-- The live inodes. -/
  inodes : List MemInode
  /-- The slots taken by `Create` calls that have not mapped them yet. -/
  pending : List Nat

/-- No slot taken, the memfd all zero, no file. -/
def Backing.init : Backing := ⟨fun _ => false, fun _ => 0, [], []⟩

/-- `allocated_file_slots.find_next_clear(0)`: the lowest clear slot below `kMaxFiles`. The
`bitmap` class is not among the sources. -/
def findNextClear (kMaxFiles : Nat) (slots : Nat → Bool) : Option Nat :=
  (List.range kMaxFiles).find? fun s => !slots s

/-- `KernelMAdvise(a, len, MADV_REMOVE)` on the memfd: the range reads as zero afterwards. -/
def removeRange (fd : Nat → BitVec 8) (a len : Nat) : Nat → BitVec 8 :=
  fun x => if a ≤ x ∧ x < a + len then 0 else fd x

/-! ## The operations -/

/-- The part of `MemInode::Create` under `file_alloc_lock`: take the lowest clear slot, or fail
with `ENOSPC`. -/
def CreateLocked (kMaxFiles : Nat) (st : Backing) : Except Int Unit × Backing :=
  match findNextClear kMaxFiles st.slots with
  | none => (.error ENOSPC, st)
  | some off =>
    (.ok (), { st with slots := Function.update st.slots off true, pending := off :: st.pending })

/-- The rest of `MemInode::Create`, for the call that took slot `off`: `ksys_mmap` of the slot
returns `ret`; on success the new inode is empty (its constructor is not among the sources), on
failure `Create` returns `-ret` and the slot stays set. -/
def CreateMap (off : Nat) (ret : Int) (st : Backing) : Except Int Unit × Backing :=
  if off ∈ st.pending then
    if ret < 0 then (.error (-ret), { st with pending := st.pending.erase off })
    else
      (.ok (), { st with
        pending := st.pending.erase off
        inodes := st.inodes ++ [⟨some off, 0⟩] })
  else (.ok (), st)

/-- `MemInode::Create` run by one thread with no other step in between: `CreateLocked`, then
`CreateMap` of the slot it took, `ksys_mmap` returning `ret`. -/
def Create (kMaxFiles : Nat) (ret : Int) (st : Backing) : Except Int Unit × Backing :=
  match findNextClear kMaxFiles st.slots with
  | none => CreateLocked kMaxFiles st
  | some off => CreateMap off ret (CreateLocked kMaxFiles st).2

/-- `~MemInode` of the `i`-th live inode: drop the pages of its extent (`ok` is whether
`KernelMAdvise` succeeds; a failure is only logged) and clear its slot. -/
def Destroy (i : Nat) (ok : Bool) (st : Backing) : Backing :=
  match st.inodes[i]? with
  | none => st
  | some ino =>
    match ino.extent_offset with
    | none => { st with inodes := st.inodes.eraseIdx i }
    | some off =>
      { st with
        fd := if ok then removeRange st.fd (off * kMaxSizeBytes) kMaxSizeBytes else st.fd
        slots := Function.update st.slots off false
        inodes := st.inodes.eraseIdx i }

/-- The memfd after `SetSize(newlen)` on `ino` ("Zero dropped blocks"): the whole pages from
`PageAlign(newlen)` to `PageAlign(size_)` are dropped when they shrink and `KernelMAdvise` succeeds
(`ok`). `SetSize` has refused a larger `newlen` than `kMaxSizeBytes`, so nothing wraps and the
page rounding is `alignUp`. -/
def dropBlocks (ino : MemInode) (newlen : Nat) (ok : Bool) (fd : Nat → BitVec 8) :
    Nat → BitVec 8 :=
  let newlen_p := alignUp newlen kPageSize
  let oldlen_p := alignUp ino.size kPageSize
  match ino.extent_offset with
  | some off =>
    if newlen_p < oldlen_p ∧ ok = true then
      removeRange fd (off * kMaxSizeBytes + newlen_p) (oldlen_p - newlen_p)
    else fd
  | none => fd

/-- `MemInode::SetSize(newlen)` on the `i`-th live inode: refuse more than `kMaxSizeBytes`, drop
the pages past the new size, and set `size_`. -/
def SetSize (i newlen : Nat) (ok : Bool) (st : Backing) : Except Int Unit × Backing :=
  match st.inodes[i]? with
  | none => (.ok (), st)
  | some ino =>
    if newlen > kMaxSizeBytes then (.error EINVAL, st)
    else
      (.ok (), { st with
        fd := dropBlocks ino newlen ok st.fd
        inodes := st.inodes.set i { ino with size := newlen } })

/-- A store of `b` at index `k` of the `i`-th live inode's buffer, which file writes make only
below `size_`. -/
def storeByte (i k : Nat) (b : BitVec 8) (st : Backing) : Backing :=
  match st.inodes[i]? with
  | some ⟨some off, size⟩ =>
    if k < size then { st with fd := Function.update st.fd (off * kMaxSizeBytes + k) b } else st
  | _ => st

/-- The range of the memfd that a `ksys_mmap` call maps: `length` bytes from the file offset
`offset`, an `off_t` that the kernel reads as unsigned. -/
structure ExtentMap where
  offset : BitVec 64
  length : BitVec 64
  deriving DecidableEq

/-- `MemInode::MMap(addr, length, prot, flags, off)`: `EINVAL` for an inode restored without a
slot; else `ksys_mmap` of the memfd at `extent_offset_ * kMaxSizeBytes + off`, whose result for
that range is `ksys_mmap`, a negative result being an error. Returns the range of the call it
issues, if any, and its own result. -/
def MMap (ino : MemInode) (length off : BitVec 64) (ksys_mmap : ExtentMap → Int) :
    Option ExtentMap × Except Int Int :=
  match ino.extent_offset with
  | none => (none, .error EINVAL)
  | some s =>
    let call : ExtentMap := ⟨BitVec.ofNat 64 (s * kMaxSizeBytes) + off, length⟩
    (some call, if ksys_mmap call < 0 then .error (-ksys_mmap call) else .ok (ksys_mmap call))

/-- One step of one thread. -/
inductive Op
  /-- `MemInode::Create` up to the release of `file_alloc_lock`. -/
  | createLocked
  /-- The rest of the `Create` that took slot `off`, `ksys_mmap` returning `ret`. -/
  | createMap (off : Nat) (ret : Int)
  /-- `~MemInode` of the `i`-th live inode. -/
  | destroy (i : Nat) (ok : Bool)
  /-- `SetSize(newlen)` on the `i`-th live inode. -/
  | setSize (i newlen : Nat) (ok : Bool)
  /-- A store into the `i`-th live inode's buffer. -/
  | storeByte (i k : Nat) (b : BitVec 8)
  deriving DecidableEq

/-- The state after one operation. -/
def step (kMaxFiles : Nat) (st : Backing) : Op → Backing
  | .createLocked => (CreateLocked kMaxFiles st).2
  | .createMap off ret => (CreateMap off ret st).2
  | .destroy i ok => Destroy i ok st
  | .setSize i newlen ok => (SetSize i newlen ok st).2
  | .storeByte i k b => storeByte i k b st

/-- The state after a run of operations. -/
def run (kMaxFiles : Nat) (st : Backing) (ops : List Op) : Backing :=
  ops.foldl (step kMaxFiles) st

/-- Every `MADV_REMOVE` of the operation succeeds. -/
def Op.adviseOk : Op → Bool
  | .destroy _ ok => ok
  | .setSize _ _ ok => ok
  | _ => true

/-! ## What each operation can do -/

section Cases

theorem CreateLocked_cases (kMaxFiles : Nat) (st : Backing) :
    (CreateLocked kMaxFiles st).2 = st ∨ ∃ off, st.slots off = false ∧
      (CreateLocked kMaxFiles st).2 =
        { st with slots := Function.update st.slots off true, pending := off :: st.pending } := by
  unfold CreateLocked
  split
  · exact .inl rfl
  · rename_i off hfind
    exact .inr ⟨off, by simpa using List.find?_some hfind, rfl⟩

theorem CreateMap_cases (off : Nat) (ret : Int) (st : Backing) :
    (CreateMap off ret st).2 = st ∨ off ∈ st.pending ∧
      ((CreateMap off ret st).2 = { st with pending := st.pending.erase off } ∨
       (CreateMap off ret st).2 = { st with pending := st.pending.erase off,
                                            inodes := st.inodes ++ [⟨some off, 0⟩] }) := by
  unfold CreateMap
  split
  · rename_i hoff
    split
    · exact .inr ⟨hoff, .inl rfl⟩
    · exact .inr ⟨hoff, .inr rfl⟩
  · exact .inl rfl

theorem Destroy_cases (i : Nat) (ok : Bool) (st : Backing) :
    Destroy i ok st = st ∨ ∃ ino, st.inodes[i]? = some ino ∧
      ((ino.extent_offset = none ∧ Destroy i ok st = { st with inodes := st.inodes.eraseIdx i }) ∨
       ∃ off, ino.extent_offset = some off ∧ Destroy i ok st =
        { st with
          fd := if ok then removeRange st.fd (off * kMaxSizeBytes) kMaxSizeBytes else st.fd
          slots := Function.update st.slots off false
          inodes := st.inodes.eraseIdx i }) := by
  unfold Destroy
  split
  · exact .inl rfl
  · rename_i ino hi
    split
    · rename_i he
      exact .inr ⟨ino, hi, .inl ⟨he, rfl⟩⟩
    · rename_i off he
      exact .inr ⟨ino, hi, .inr ⟨off, he, rfl⟩⟩

theorem SetSize_cases (i newlen : Nat) (ok : Bool) (st : Backing) :
    (SetSize i newlen ok st).2 = st ∨ ∃ ino, st.inodes[i]? = some ino ∧ newlen ≤ kMaxSizeBytes ∧
      (SetSize i newlen ok st).2 = { st with
        fd := dropBlocks ino newlen ok st.fd
        inodes := st.inodes.set i { ino with size := newlen } } := by
  unfold SetSize
  split
  · exact .inl rfl
  · rename_i ino hi
    split
    · exact .inl rfl
    · exact .inr ⟨ino, hi, by omega, rfl⟩

theorem storeByte_cases (i k : Nat) (b : BitVec 8) (st : Backing) :
    storeByte i k b st = st ∨ ∃ off size, st.inodes[i]? = some ⟨some off, size⟩ ∧ k < size ∧
      storeByte i k b st = { st with fd := Function.update st.fd (off * kMaxSizeBytes + k) b } := by
  unfold storeByte
  split
  · rename_i off size hi
    split
    · exact .inr ⟨off, size, hi, ‹_›, rfl⟩
    · exact .inl rfl
  · exact .inl rfl

end Cases

/-! ## List lemmas -/

section Lists

variable {α β : Type}

theorem perm_cons_eraseIdx : ∀ {l : List α} {i : Nat} {a : α}, l[i]? = some a →
    l.Perm (a :: l.eraseIdx i)
  | b :: l, 0, a, h => by
    simp only [List.getElem?_cons_zero, Option.some.injEq] at h
    subst h
    rfl
  | b :: l, i + 1, a, h => by
    simp only [List.getElem?_cons_succ] at h
    exact ((perm_cons_eraseIdx h).cons b).trans (List.Perm.swap a b _)

theorem filterMap_set_of_eq (f : α → Option β) : ∀ {l : List α} {i : Nat} {a b : α},
    l[i]? = some a → f b = f a → (l.set i b).filterMap f = l.filterMap f
  | c :: l, 0, a, b, h, hf => by
    simp only [List.getElem?_cons_zero, Option.some.injEq] at h
    subst h
    simp only [List.set_cons_zero, List.filterMap_cons, hf]
  | c :: l, i + 1, a, b, h, hf => by
    simp only [List.getElem?_cons_succ] at h
    simp only [List.set_cons_succ, List.filterMap_cons, filterMap_set_of_eq f h hf]

/-- In a list whose `filterMap` has no duplicate, one value comes from one element. -/
theorem eq_of_nodup_filterMap (f : α → Option β) {x y : α} {v : β} :
    ∀ {l : List α}, (l.filterMap f).Nodup → x ∈ l → y ∈ l → f x = some v → f y = some v → x = y
  | c :: l, hnd, hx, hy, hfx, hfy => by
    have key : ∀ z ∈ l, f z = some v → f c ≠ some v := fun z hz hfz hfc => by
      simp only [List.filterMap_cons, hfc, List.nodup_cons] at hnd
      exact hnd.1 (List.mem_filterMap.2 ⟨z, hz, hfz⟩)
    have hnd' : (l.filterMap f).Nodup := by
      cases hc : f c <;> simp only [List.filterMap_cons, hc, List.nodup_cons] at hnd
      exacts [hnd, hnd.2]
    rcases List.mem_cons.1 hx with rfl | hx' <;> rcases List.mem_cons.1 hy with rfl | hy'
    · rfl
    · exact absurd hfx (key y hy' hfy)
    · exact absurd hfy (key x hx' hfx)
    · exact eq_of_nodup_filterMap f hnd' hx' hy' hfx hfy

end Lists

/-! ## The slot invariant -/

namespace Backing

/-- The slots owned by a live inode or by a `Create` in progress. -/
def owned (st : Backing) : List Nat := st.inodes.filterMap MemInode.extent_offset ++ st.pending

end Backing

/-- **The slot invariant**: no slot is owned twice, and every owned slot is set in the bitmap. -/
structure SlotInv (st : Backing) : Prop where
  nodup : st.owned.Nodup
  allocated : ∀ s ∈ st.owned, st.slots s = true

namespace SlotInv

variable {st : Backing}

theorem init : SlotInv Backing.init := ⟨List.nodup_nil, fun _ h => nomatch h⟩

theorem of_perm {st' : Backing} (h : SlotInv st) (hp : st'.owned.Perm st.owned)
    (hs : st'.slots = st.slots) : SlotInv st' :=
  ⟨hp.nodup_iff.2 h.nodup, fun s hm => hs ▸ h.allocated s (hp.subset hm)⟩

theorem of_sublist {st' : Backing} (h : SlotInv st) (hp : st'.owned.Sublist st.owned)
    (hs : st'.slots = st.slots) : SlotInv st' :=
  ⟨h.nodup.sublist hp, fun s hm => hs ▸ h.allocated s (hp.subset hm)⟩

theorem createLocked (kMaxFiles : Nat) (h : SlotInv st) :
    SlotInv (CreateLocked kMaxFiles st).2 := by
  rcases CreateLocked_cases kMaxFiles st with he | ⟨off, hoff, he⟩ <;> rw [he]
  · exact h
  have hp : (st.inodes.filterMap MemInode.extent_offset ++ off :: st.pending).Perm
      (off :: st.owned) := List.perm_middle
  have hnot : off ∉ st.owned := fun hm => by simp [h.allocated off hm] at hoff
  refine ⟨hp.nodup_iff.2 (List.nodup_cons.2 ⟨hnot, h.nodup⟩), fun s hm => ?_⟩
  rcases List.mem_cons.1 (hp.subset hm) with rfl | hm
  · exact Function.update_same _ _ _
  · have hne : s ≠ off := fun he => hnot (he ▸ hm)
    exact (Function.update_noteq hne _ _).trans (h.allocated s hm)

theorem createMap (off : Nat) (ret : Int) (h : SlotInv st) : SlotInv (CreateMap off ret st).2 := by
  rcases CreateMap_cases off ret st with he | ⟨hoff, he | he⟩ <;> rw [he]
  · exact h
  · exact h.of_sublist ((List.Sublist.refl _).append (List.erase_sublist off _)) rfl
  · refine h.of_perm ?_ rfl
    simp only [Backing.owned, List.filterMap_append, List.filterMap_cons, List.filterMap_nil,
      List.append_assoc, List.singleton_append]
    exact ((List.perm_cons_erase hoff).append_left _).symm

theorem destroy (i : Nat) (ok : Bool) (h : SlotInv st) : SlotInv (Destroy i ok st) := by
  have hperm {ino : MemInode} (hi : st.inodes[i]? = some ino) :=
    ((perm_cons_eraseIdx hi).filterMap MemInode.extent_offset).append_right st.pending
  rcases Destroy_cases i ok st with he | ⟨ino, hi, ⟨hnone, he⟩ | ⟨off, hoff, he⟩⟩ <;> rw [he]
  · exact h
  · refine h.of_perm ?_ rfl
    have := hperm hi
    simp only [List.filterMap_cons, hnone] at this
    exact this.symm
  · have hp := hperm hi
    simp only [List.filterMap_cons, hoff, List.cons_append] at hp
    have hnd := List.nodup_cons.1 (hp.nodup_iff.1 h.nodup)
    refine ⟨hnd.2, fun s hm => ?_⟩
    have hne : s ≠ off := fun he => hnd.1 (he ▸ hm)
    exact (Function.update_noteq hne _ _).trans
      (h.allocated s (hp.symm.subset (List.mem_cons_of_mem _ hm)))

theorem setSize (i newlen : Nat) (ok : Bool) (h : SlotInv st) :
    SlotInv (SetSize i newlen ok st).2 := by
  rcases SetSize_cases i newlen ok st with he | ⟨ino, hi, -, he⟩ <;> rw [he]
  · exact h
  · exact h.of_perm (.of_eq (congrArg (· ++ st.pending)
      (filterMap_set_of_eq MemInode.extent_offset hi (b := { ino with size := newlen }) rfl))) rfl

theorem storeByte (i k : Nat) (b : BitVec 8) (h : SlotInv st) : SlotInv (storeByte i k b st) := by
  rcases storeByte_cases i k b st with he | ⟨off, size, hi, hk, he⟩ <;> rw [he]
  exacts [h, h.of_perm (.refl _) rfl]

theorem step (kMaxFiles : Nat) (op : Op) (h : SlotInv st) : SlotInv (Junction.Memfs.step kMaxFiles st op) := by
  cases op with
  | createLocked => exact h.createLocked kMaxFiles
  | createMap off ret => exact h.createMap off ret
  | destroy i ok => exact h.destroy i ok
  | setSize i newlen ok => exact h.setSize i newlen ok
  | storeByte i k b => exact h.storeByte i k b

/-- **The slot invariant holds along every run.** -/
theorem run (kMaxFiles : Nat) (ops : List Op) (h : SlotInv st) :
    SlotInv (Junction.Memfs.run kMaxFiles st ops) := by
  induction ops generalizing st with
  | nil => exact h
  | cons op ops ih => exact ih (h.step kMaxFiles op)

end SlotInv

/-- Two inodes own different slots, hence disjoint extents of the memfd. -/
def MemInode.Separate (a b : MemInode) : Prop :=
  ∀ s ∈ a.extent_offset, ∀ t ∈ b.extent_offset, s ≠ t ∧
    (s * kMaxSizeBytes + kMaxSizeBytes ≤ t * kMaxSizeBytes ∨
      t * kMaxSizeBytes + kMaxSizeBytes ≤ s * kMaxSizeBytes)

/-- **No two live memfs files share a slot of the memfd**, in any interleaving of `Create`,
destruction, `SetSize` and stores, and the slot of every live file is set in the bitmap. -/
theorem run_slots_separate (kMaxFiles : Nat) (ops : List Op) :
    (run kMaxFiles Backing.init ops).inodes.Pairwise MemInode.Separate ∧
    ∀ ino ∈ (run kMaxFiles Backing.init ops).inodes, ∀ s ∈ ino.extent_offset,
      (run kMaxFiles Backing.init ops).slots s = true := by
  have h := SlotInv.init.run kMaxFiles ops
  refine ⟨?_, fun ino hino s hs =>
    h.allocated s (List.mem_append_left _ (List.mem_filterMap.2 ⟨ino, hino, hs⟩))⟩
  refine (List.pairwise_filterMap.1 (List.Nodup.of_append_left h.nodup)).imp
    fun hab s hs t ht => ⟨hab s hs t ht, ?_⟩
  have := hab s hs t ht
  unfold kMaxSizeBytes
  omega

/-! ## The zero invariant -/

/-- The extent of slot `s` reads as zero from index `lo` on. -/
def ZeroFrom (fd : Nat → BitVec 8) (s lo : Nat) : Prop :=
  ∀ k, lo ≤ k → k < kMaxSizeBytes → fd (s * kMaxSizeBytes + k) = 0

theorem ZeroFrom.removeRange {fd : Nat → BitVec 8} {s lo : Nat} (h : ZeroFrom fd s lo) (a len : Nat) :
    ZeroFrom (Junction.Memfs.removeRange fd a len) s lo := fun k hlo hk => by
  unfold Junction.Memfs.removeRange
  split <;> simp only [h k hlo hk]

theorem ZeroFrom.dropBlocks {fd : Nat → BitVec 8} {s lo : Nat} (h : ZeroFrom fd s lo)
    (ino : MemInode) (newlen : Nat) (ok : Bool) :
    ZeroFrom (Junction.Memfs.dropBlocks ino newlen ok fd) s lo := by
  unfold Junction.Memfs.dropBlocks
  dsimp only
  split
  · split
    · exact h.removeRange _ _
    · exact h
  · exact h

/-- **`SetSize` leaves the extent zero from the new `PageAlign(size_)` on** when `MADV_REMOVE`
succeeds. -/
theorem ZeroFrom.dropBlocks_tail {fd : Nat → BitVec 8} {ino : MemInode} {off : Nat}
    (hoff : ino.extent_offset = some off) (h : ZeroFrom fd off (alignUp ino.size kPageSize))
    (newlen : Nat) :
    ZeroFrom (Junction.Memfs.dropBlocks ino newlen true fd) off (alignUp newlen kPageSize) := by
  intro k hlo hk
  simp only [Junction.Memfs.dropBlocks, hoff, and_true]
  split
  · by_cases hold : alignUp ino.size kPageSize ≤ k
    · exact h.removeRange _ _ k hold hk
    · simp only [Junction.Memfs.removeRange]
      rw [if_pos (by omega)]
  · exact h k (by omega) hk

/-- Indexes into the extents of two slots meet only at the same slot and the same index. -/
theorem extent_index_ne {s t k k' : Nat} (h : s ≠ t ∨ k ≠ k') (hk : k < kMaxSizeBytes)
    (hk' : k' < kMaxSizeBytes) : s * kMaxSizeBytes + k ≠ t * kMaxSizeBytes + k' := by
  unfold kMaxSizeBytes at *
  omega

/-- **The zero invariant**: no live file is larger than `kMaxSizeBytes`; the extent of a slot that
is free, or taken by a `Create` in progress, reads as zero; so does a live inode's extent from
`PageAlign(size_)` on. -/
structure ZeroInv (st : Backing) : Prop where
  size_le : ∀ ino ∈ st.inodes, ino.size ≤ kMaxSizeBytes
  free_zero : ∀ s, st.slots s = false ∨ s ∈ st.pending → ZeroFrom st.fd s 0
  tail_zero : ∀ ino ∈ st.inodes, ∀ s ∈ ino.extent_offset,
    ZeroFrom st.fd s (alignUp ino.size kPageSize)

namespace ZeroInv

variable {st : Backing}

theorem init : ZeroInv Backing.init :=
  ⟨(fun _ h => nomatch h), (fun _ _ _ _ _ => rfl), (fun _ h => nomatch h)⟩

theorem createLocked (kMaxFiles : Nat) (h : ZeroInv st) : ZeroInv (CreateLocked kMaxFiles st).2 := by
  rcases CreateLocked_cases kMaxFiles st with he | ⟨off, hoff, he⟩ <;> rw [he]
  · exact h
  refine ⟨h.size_le, fun s hs => ?_, h.tail_zero⟩
  dsimp only at hs ⊢
  by_cases hso : s = off
  · subst hso
    exact h.free_zero s (.inl hoff)
  · rw [Function.update_noteq hso, List.mem_cons, or_iff_right hso] at hs
    exact h.free_zero s hs

theorem createMap (off : Nat) (ret : Int) (h : ZeroInv st) : ZeroInv (CreateMap off ret st).2 := by
  rcases CreateMap_cases off ret st with he | ⟨hoff, he | he⟩ <;> rw [he]
  · exact h
  · exact ⟨h.size_le, fun s hs => h.free_zero s (hs.imp_right List.mem_of_mem_erase),
      h.tail_zero⟩
  · refine ⟨fun ino hino => ?_, fun s hs => h.free_zero s (hs.imp_right List.mem_of_mem_erase),
      fun ino hino s hs => ?_⟩ <;> rcases List.mem_append.1 hino with hino | hino
    · exact h.size_le ino hino
    · simp only [List.mem_singleton] at hino; subst hino; exact Nat.zero_le _
    · exact h.tail_zero ino hino s hs
    · simp only [List.mem_singleton] at hino
      subst hino
      cases hs
      exact fun k _ hk => h.free_zero off (.inr hoff) k (Nat.zero_le _) hk

theorem destroy (i : Nat) (h : ZeroInv st) : ZeroInv (Destroy i true st) := by
  have hsub : ∀ ino ∈ st.inodes.eraseIdx i, ino ∈ st.inodes :=
    fun _ hx => (List.eraseIdx_sublist _ _).subset hx
  rcases Destroy_cases i true st with he | ⟨ino, hi, ⟨-, he⟩ | ⟨off, -, he⟩⟩ <;>
    rw [he] <;> try rw [if_pos rfl]
  · exact h
  · exact ⟨fun ino hino => h.size_le ino (hsub ino hino), h.free_zero,
      fun ino hino => h.tail_zero ino (hsub ino hino)⟩
  · refine ⟨fun ino hino => h.size_le ino (hsub ino hino), fun s hs => ?_,
      fun ino hino s hs => (h.tail_zero ino (hsub ino hino) s hs).removeRange _ _⟩
    dsimp only at hs ⊢
    by_cases hso : s = off
    · intro k _ hk
      subst hso
      simp only [removeRange]
      rw [if_pos (by omega)]
    · rw [Function.update_noteq hso] at hs
      exact (h.free_zero s hs).removeRange _ _

theorem setSize (i newlen : Nat) (h : ZeroInv st) : ZeroInv (SetSize i newlen true st).2 := by
  rcases SetSize_cases i newlen true st with he | ⟨ino, hi, hn, he⟩ <;> rw [he]
  · exact h
  have hino := List.getElem?_mem hi
  refine ⟨?_, fun s hs => (h.free_zero s hs).dropBlocks _ _ _, ?_⟩ <;> dsimp only <;>
    intro x hx <;> rcases List.mem_or_eq_of_mem_set hx with hx | rfl
  · exact h.size_le x hx
  · exact hn
  · exact fun s hs => (h.tail_zero x hx s hs).dropBlocks _ _ _
  · exact fun s hs => @ZeroFrom.dropBlocks_tail _ ino s hs (h.tail_zero ino hino s hs) newlen

theorem storeByte (i k : Nat) (b : BitVec 8) (hs : SlotInv st) (h : ZeroInv st) :
    ZeroInv (storeByte i k b st) := by
  rcases storeByte_cases i k b st with he | ⟨off, size, hi, hk, he⟩ <;> rw [he]
  · exact h
  have hino := List.getElem?_mem hi
  have hsize : size ≤ kMaxSizeBytes := h.size_le _ hino
  have hown : off ∈ st.inodes.filterMap MemInode.extent_offset :=
    List.mem_filterMap.2 ⟨_, hino, rfl⟩
  refine ⟨h.size_le, ?_, ?_⟩ <;> dsimp only
  · intro s hfree k' hk' hk'K
    have hne : s ≠ off := by
      rintro rfl
      rcases hfree with hfree | hfree
      · simp [hs.allocated s (List.mem_append_left _ hown)] at hfree
      · exact List.disjoint_of_nodup_append hs.nodup hown hfree
    rw [Function.update_noteq (@extent_index_ne s off k' k (.inl hne) hk'K (by omega))]
    exact h.free_zero s hfree k' hk' hk'K
  · intro x hx s hsx k' hk' hk'K
    have hne : s ≠ off ∨ k' ≠ k := by
      by_cases hso : s = off
      · subst hso
        have := eq_of_nodup_filterMap MemInode.extent_offset (List.Nodup.of_append_left hs.nodup)
          hx hino hsx rfl
        subst this
        have := le_alignUp_page size
        dsimp only at hk'
        omega
      · exact .inl hso
    rw [Function.update_noteq (@extent_index_ne s off k' k hne hk'K (by omega))]
    exact h.tail_zero x hx s hsx k' hk' hk'K

end ZeroInv

/-- **When every `MADV_REMOVE` succeeds, free slots read as zero and every live file reads as zero
from `PageAlign(size_)` to the end of its extent**, in every interleaving of `Create`,
destruction, `SetSize` and stores below `size_`. -/
theorem run_zero_past_page (kMaxFiles : Nat) (ops : List Op)
    (hok : ∀ op ∈ ops, op.adviseOk = true) : ZeroInv (run kMaxFiles Backing.init ops) := by
  suffices ∀ st, SlotInv st → ZeroInv st → ZeroInv (run kMaxFiles st ops) from
    this _ SlotInv.init ZeroInv.init
  induction ops with
  | nil => exact fun _ _ h => h
  | cons op ops ih =>
    intro st hs h
    refine ih (fun op' hop' => hok op' (List.mem_cons_of_mem _ hop')) _ (hs.step kMaxFiles op) ?_
    have hop := hok op (List.mem_cons_self _ _)
    cases op with
    | createLocked => exact h.createLocked kMaxFiles
    | createMap off ret => exact h.createMap off ret
    | destroy i ok => cases hop; exact h.destroy i
    | setSize i newlen ok => cases hop; exact h.setSize i newlen
    | storeByte i k b => exact h.storeByte i k b hs

theorem run_zero_past_page_one_file : ZeroInv (run 1 Backing.init
    [.createLocked, .createMap 0 0, .setSize 0 4096 true, .storeByte 0 1 1, .setSize 0 1 true]) :=
  run_zero_past_page 1 _ (by decide)

/-- **`SetSize` keeps the bytes between the new size and the end of its page**: a file of one page
whose second byte is written and which is then shrunk to one byte still holds that byte past its
end, every `MADV_REMOVE` succeeding, and growing it back to a page shows the old byte. -/
theorem SetSize_keeps_partial_page :
    (run 1 Backing.init [.createLocked, .createMap 0 0, .setSize 0 4096 true, .storeByte 0 1 1,
      .setSize 0 1 true]).inodes = [⟨some 0, 1⟩] ∧
    (run 1 Backing.init [.createLocked, .createMap 0 0, .setSize 0 4096 true, .storeByte 0 1 1,
      .setSize 0 1 true]).fd (0 * kMaxSizeBytes + 1) = 1 ∧
    (run 1 Backing.init [.createLocked, .createMap 0 0, .setSize 0 4096 true, .storeByte 0 1 1,
      .setSize 0 1 true, .setSize 0 4096 true]).inodes = [⟨some 0, 4096⟩] ∧
    (run 1 Backing.init [.createLocked, .createMap 0 0, .setSize 0 4096 true, .storeByte 0 1 1,
      .setSize 0 1 true, .setSize 0 4096 true]).fd (0 * kMaxSizeBytes + 1) = 1 := by
  decide

/-! ## Failed creations -/

/-- `Create` fails with `ENOSPC` and leaves the state as it was when no slot below `kMaxFiles` is
clear. -/
theorem Create_enospc {kMaxFiles : Nat} {st : Backing} (h : findNextClear kMaxFiles st.slots = none)
    (ret : Int) : Create kMaxFiles ret st = (.error ENOSPC, st) := by
  simp only [Create, CreateLocked, h]

/-- `Create` whose `ksys_mmap` fails: the error, and the slot it took left set. -/
theorem Create_of_error {kMaxFiles off : Nat} {st : Backing} {ret : Int} (hret : ret < 0)
    (hoff : findNextClear kMaxFiles st.slots = some off) :
    Create kMaxFiles ret st = (.error (-ret), { st with slots := Function.update st.slots off true }) := by
  simp [Create, CreateLocked, CreateMap, hoff, hret]

/-- **A failed `ksys_mmap` leaves the slot `Create` took set**: from every state with a clear slot,
`Create` returns the error of `ksys_mmap`, and the slot, clear before the call, is set after it. -/
theorem Create_error_keeps_slot (kMaxFiles : Nat) (st : Backing) (ret : Int) (hret : ret < 0)
    (off : Nat) (hoff : findNextClear kMaxFiles st.slots = some off) :
    (Create kMaxFiles ret st).1 = .error (-ret) ∧ st.slots off = false ∧
      (Create kMaxFiles ret st).2.slots off = true := by
  rw [Create_of_error hret hoff]
  exact ⟨rfl, by simpa using List.find?_some hoff, Function.update_same _ _ _⟩

theorem Create_error_keeps_slot_at_init : (-12 : Int) < 0 ∧
    findNextClear 1 Backing.init.slots = some 0 ∧
    (Create 1 (-12) Backing.init).1 = .error (-(-12)) ∧ Backing.init.slots 0 = false ∧
    (Create 1 (-12) Backing.init).2.slots 0 = true :=
  ⟨by decide, by decide, Create_error_keeps_slot 1 Backing.init (-12) (by decide) 0 (by decide)⟩

/-- A slot set in the bitmap that no live inode and no `Create` in progress owns. -/
def Leaked (st : Backing) (s : Nat) : Prop := st.slots s = true ∧ s ∉ st.owned

namespace Leaked

variable {st st' : Backing} {s : Nat}

theorem of_subset (hl : Leaked st s) (hsub : st'.owned ⊆ st.owned)
    (hs : st'.slots s = st.slots s) : Leaked st' s :=
  ⟨hs.trans hl.1, fun hm => hl.2 (hsub hm)⟩

/-- No operation frees or hands out a leaked slot. -/
theorem step (hl : Leaked st s) (kMaxFiles : Nat) (op : Op) :
    Leaked (Junction.Memfs.step kMaxFiles st op) s := by
  cases op with
  | createLocked =>
    rcases CreateLocked_cases kMaxFiles st with he | ⟨off, hoff, he⟩ <;>
      simp only [Junction.Memfs.step, he]
    · exact hl
    have hne : s ≠ off := by rintro rfl; simp [Leaked, hoff] at hl
    refine ⟨(Function.update_noteq hne _ _).trans hl.1, fun hm => hl.2 ?_⟩
    simp only [Backing.owned, List.mem_append, List.mem_cons] at hm ⊢
    rcases hm with hm | rfl | hm
    exacts [.inl hm, absurd rfl hne, .inr hm]
  | createMap off ret =>
    rcases CreateMap_cases off ret st with he | ⟨hoff, he | he⟩ <;>
      simp only [Junction.Memfs.step, he]
    · exact hl
    · refine hl.of_subset (fun x hx => ?_) rfl
      simp only [Backing.owned, List.mem_append] at hx ⊢
      exact hx.imp_right List.mem_of_mem_erase
    · refine hl.of_subset (fun x hx => ?_) rfl
      simp only [Backing.owned, List.filterMap_append, List.filterMap_cons, List.filterMap_nil,
        List.mem_append, List.mem_singleton] at hx ⊢
      rcases hx with (hx | rfl) | hx
      exacts [.inl hx, .inr hoff, .inr (List.mem_of_mem_erase hx)]
  | destroy i ok =>
    rcases Destroy_cases i ok st with he | ⟨ino, hi, ⟨hnone, he⟩ | ⟨off, hoff, he⟩⟩ <;>
      simp only [Junction.Memfs.step, he]
    · exact hl
    all_goals
      have hsub : (st.inodes.eraseIdx i).filterMap MemInode.extent_offset ++ st.pending ⊆
          st.owned := fun x hx => by
        simp only [Backing.owned, List.mem_append] at hx ⊢
        exact hx.imp_left fun hm => ((List.eraseIdx_sublist _ _).filterMap _).subset hm
    · exact hl.of_subset hsub rfl
    · have hown : off ∈ st.owned :=
        List.mem_append_left _ (List.mem_filterMap.2 ⟨ino, List.getElem?_mem hi, hoff⟩)
      have hne : s ≠ off := fun he => hl.2 (he ▸ hown)
      exact hl.of_subset hsub (Function.update_noteq hne _ _)
  | setSize i newlen ok =>
    rcases SetSize_cases i newlen ok st with he | ⟨ino, hi, -, he⟩ <;>
      simp only [Junction.Memfs.step, he]
    · exact hl
    · refine hl.of_subset (fun x hx => ?_) rfl
      rwa [Backing.owned, filterMap_set_of_eq MemInode.extent_offset hi
        (b := { ino with size := newlen }) rfl] at hx
  | storeByte i k b =>
    rcases storeByte_cases i k b st with he | ⟨off, size, hi, hk, he⟩ <;>
      simp only [Junction.Memfs.step, he]
    exacts [hl, hl]

/-- **A leaked slot stays set along every run**, so no later `Create` can take it. -/
theorem run (hl : Leaked st s) (kMaxFiles : Nat) (ops : List Op) :
    Leaked (Junction.Memfs.run kMaxFiles st ops) s := by
  induction ops generalizing st with
  | nil => exact hl
  | cons op ops ih => exact ih (hl.step kMaxFiles op)

end Leaked

/-- **After a failed `Create` the slot it took is never freed**: in every reachable state, a
`Create` whose `ksys_mmap` fails leaves its slot set, owned by no inode, along every later run. -/
theorem Create_error_leaks_slot (kMaxFiles : Nat) (ops : List Op) (ret : Int) (hret : ret < 0)
    (off : Nat) (hoff : findNextClear kMaxFiles (run kMaxFiles Backing.init ops).slots = some off)
    (ops' : List Op) :
    Leaked (run kMaxFiles (Create kMaxFiles ret (run kMaxFiles Backing.init ops)).2 ops') off := by
  have hinv := SlotInv.init.run kMaxFiles ops
  have hclear : (run kMaxFiles Backing.init ops).slots off = false := by
    simpa using List.find?_some hoff
  rw [Create_of_error hret hoff]
  refine Leaked.run ⟨Function.update_same _ _ _, fun hm => ?_⟩ kMaxFiles ops'
  simp [hinv.allocated off hm] at hclear

theorem Create_error_leaks_slot_at_init : (-12 : Int) < 0 ∧
    findNextClear 1 (run 1 Backing.init []).slots = some 0 ∧
    Leaked (run 1 (Create 1 (-12) (run 1 Backing.init [])).2 [.createLocked]) 0 :=
  ⟨by decide, by decide, Create_error_leaks_slot 1 [] (-12) (by decide) 0 (by decide) _⟩

/-! ## Mapping a file -/

/-- The range lies in the extent of slot `s`, `[s * kMaxSizeBytes, (s + 1) * kMaxSizeBytes)`. -/
def ExtentMap.Within (m : ExtentMap) (s : Nat) : Prop :=
  s * kMaxSizeBytes ≤ m.offset.toNat ∧ m.offset.toNat + m.length.toNat ≤ (s + 1) * kMaxSizeBytes

instance (m : ExtentMap) (s : Nat) : Decidable (m.Within s) := inferInstanceAs (Decidable (_ ∧ _))

/-- **`MMap` stays in the inode's extent exactly when the caller's `off` and `length` do**: the
range `MMap` maps for an inode owning slot `s` lies in the extent of `s` if and only if
`off + length ≤ kMaxSizeBytes`, `off` read unsigned. `MMap` checks neither. -/
theorem MMap_within_iff (ino : MemInode) (s : Nat) (hs : ino.extent_offset = some s)
    (hslot : (s + 1) * kMaxSizeBytes < 2 ^ 64) (length off : BitVec 64)
    (ksys_mmap : ExtentMap → Int) :
    ∃ m, (MMap ino length off ksys_mmap).1 = some m ∧
      (m.Within s ↔ off.toNat + length.toNat ≤ kMaxSizeBytes) := by
  refine ⟨⟨BitVec.ofNat 64 (s * kMaxSizeBytes) + off, length⟩, by simp only [MMap, hs], ?_⟩
  simp only [ExtentMap.Within, BitVec.toNat_add, BitVec.toNat_ofNat]
  unfold kMaxSizeBytes at *
  omega

theorem MMap_within_iff_next_slot :
    (⟨some 0, 0⟩ : MemInode).extent_offset = some 0 ∧ (0 + 1) * kMaxSizeBytes < 2 ^ 64 ∧
    ∃ m, (MMap ⟨some 0, 0⟩ 4096 (BitVec.ofNat 64 kMaxSizeBytes) fun _ => 0).1 = some m ∧
      (m.Within 0 ↔ (BitVec.ofNat 64 kMaxSizeBytes).toNat + (4096 : BitVec 64).toNat ≤
        kMaxSizeBytes) :=
  ⟨rfl, by decide, MMap_within_iff ⟨some 0, 0⟩ 0 rfl (by decide) 4096 _ _⟩

end Junction.Memfs
