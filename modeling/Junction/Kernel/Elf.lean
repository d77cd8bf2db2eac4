import Junction.Base.Memory

/-!
# Loading ELF binaries (`elf.cc`)

`LoadELF` returns an `elf_data`: where the image and its interpreter were placed, the entry
point, and where the program-header table was mapped. `Exec` reads it to set up the auxiliary
vector of the new process.

`LoadOneSegment` places one `PT_LOAD` segment: it maps the whole pages of the file part from
`PageAlignDown(offset)`, maps anonymous memory up to `PageAlign(vaddr + map_off + memsz)`, copies
the file bytes of the last partial page with `ReadFull`, and sets the protection. The host calls
act on a `VM`: the byte at each address, the protection of its page, and whether touching it
raises `SIGBUS`. The mapping calls are taken to succeed; `ReadFull` fails when the file ends first.

* `LoadOneSegment_mem`, `LoadOneSegment_prot`, `LoadOneSegment_bus`: the byte at
  `vaddr + map_off + k` is the file's byte `PageAlignDown(offset) + (vaddr + map_off) % 4096 + k`
  for `k < filesz`, zero up to `memsz`; every page of the segment ends with the protection of
  `flags`; and a page of the file part faults with `SIGBUS` when it lies wholly past the end of
  the file.
* `LoadOneSegment_loads_file`: when `vaddr + map_off` and `offset` agree modulo the page size and
  the file part lies inside the file, that is the file's byte `offset + k`, and no page of the
  segment faults.
* `LoadOneSegment_shifts_bytes`: `ReadPHDRs` accepts headers that only agree modulo `align`, and
  for them the bytes land shifted.
* `LoadOneSegment_frame`, `LoadSegments_within`: nothing outside a segment's pages changes, so
  when no `vaddr + memsz` wraps a relocatable image stays in its reservation.
* `LoadSegments_maps_below_reservation`: a header whose `vaddr + memsz` wraps makes
  `CountTotalLength` too small, and its segment is mapped below the reservation.
-/

namespace Junction

/-- `elf_data::interp_data`: where the interpreter was loaded. -/
structure InterpData where
  map_base : BitVec 64
  map_len : BitVec 64
  entry_addr : BitVec 64
  deriving DecidableEq

/-- `elf_data`, as `LoadELF` builds it. -/
structure ElfData where
  map_base : BitVec 64
  map_len : BitVec 64
  entry_addr : BitVec 64
  phdr_addr : BitVec 64
  phdr_num : BitVec 64
  phdr_entsz : BitVec 64
  interp : Option InterpData
  deriving DecidableEq

/-! ## Program headers -/

/-- `elf_phdr`, one program header. -/
structure elf_phdr where
  type : BitVec 32
  flags : BitVec 32
  offset : BitVec 64
  vaddr : BitVec 64
  paddr : BitVec 64
  filesz : BitVec 64
  memsz : BitVec 64
  align : BitVec 64
  deriving DecidableEq

/-- `kPTypeLoad`: a segment to load. -/
def kPTypeLoad : BitVec 32 := 1

/-- `kFlagExec`. -/
def kFlagExec : BitVec 32 := 1

/-- `kFlagWrite`. -/
def kFlagWrite : BitVec 32 := 2

/-- `kFlagRead`. -/
def kFlagRead : BitVec 32 := 4

/-- `PROT_READ`. -/
def PROT_READ : BitVec 32 := 1

/-- `PROT_WRITE`. -/
def PROT_WRITE : BitVec 32 := 2

/-- `PROT_EXEC`. -/
def PROT_EXEC : BitVec 32 := 4

/-- `std::has_single_bit(x)`: `x` is a power of two. -/
def hasSingleBit (x : BitVec 64) : Bool := x != 0 && (x &&& (x - 1)) == 0

/-- The check `ReadPHDRs` makes of every header: `align` is a power of two, `filesz <= memsz`, and
`vaddr` and `offset` agree modulo `align`. -/
def PhdrIsValid (phdr : elf_phdr) : Bool :=
  !(!hasSingleBit phdr.align || phdr.filesz > phdr.memsz ||
    (phdr.vaddr &&& (phdr.align - 1)) != (phdr.offset &&& (phdr.align - 1)))

/-- `CountTotalLength(phdrs)`: the largest `vaddr + memsz` of a `PT_LOAD` header. -/
def CountTotalLength (phdrs : List elf_phdr) : BitVec 64 :=
  phdrs.foldl (fun len phdr =>
    if phdr.type ≠ kPTypeLoad then len
    else if len < phdr.vaddr + phdr.memsz then phdr.vaddr + phdr.memsz else len) 0

theorem PhdrIsValid.filesz_le {phdr : elf_phdr} (h : PhdrIsValid phdr = true) :
    phdr.filesz.toNat ≤ phdr.memsz.toNat := by
  simp only [PhdrIsValid, Bool.not_eq_true', Bool.or_eq_false_iff, decide_eq_false_iff_not,
    BitVec.lt_def, not_lt] at h
  exact h.1.2

/-- The protection `LoadOneSegment` derives from `flags`. -/
def segmentProt (flags : BitVec 32) : BitVec 32 :=
  let prot : BitVec 32 := 0
  let prot := if flags &&& kFlagExec ≠ 0 then prot ||| PROT_EXEC else prot
  let prot := if flags &&& kFlagWrite ≠ 0 then prot ||| PROT_WRITE else prot
  if flags &&& kFlagRead ≠ 0 then prot ||| PROT_READ else prot

/-! ## The host address space -/

/-- The address space as the loader changes it: the byte at each address, the protection of the
page holding it, and whether touching it raises `SIGBUS` (a page of a file mapping that lies wholly
past the end of the file). -/
structure VM where
  mem : Mem
  prot : BitVec 64 → BitVec 32
  bus : BitVec 64 → Bool

/-- `f` with the `len` addresses from `a` given the values `g 0, g 1, ...`. -/
def overRange {α : Type} (f : BitVec 64 → α) (a len : BitVec 64) (g : Nat → α) : BitVec 64 → α :=
  fun x => if (x - a).toNat < len.toNat then g (x - a).toNat else f x

namespace VM

/-- `f.MMapFixed(addr, len, prot, MAP_DENYWRITE, off)`: the file from the page-aligned `off` on,
mapped at `addr`. The rest of the page holding the end of the file reads as zero; touching a page
that lies wholly past the end of the file raises `SIGBUS`. -/
def mmapFile (vm : VM) (file : List (BitVec 8)) (addr len : BitVec 64) (prot : BitVec 32)
    (off : BitVec 64) : VM :=
  { mem := overRange vm.mem addr len fun i => file.getD (off.toNat + i) 0
    prot := overRange vm.prot addr len fun _ => prot
    bus := overRange vm.bus addr len fun i =>
      decide (alignUp file.length kPageSize ≤ off.toNat + i) }

/-- `KernelMMapFixed(addr, len, prot, 0)`: fresh anonymous memory, all zero. -/
def mmapAnon (vm : VM) (addr len : BitVec 64) (prot : BitVec 32) : VM :=
  { mem := overRange vm.mem addr len fun _ => 0
    prot := overRange vm.prot addr len fun _ => prot
    bus := overRange vm.bus addr len fun _ => false }

/-- `f.Seek(pos)` then `ReadFull(&f, [addr, addr + len))`: the file's bytes from `pos`, or an
error when the file ends first. The loader reads only into memory it has just mapped
anonymously, so the copy itself never faults. -/
def readFull (vm : VM) (file : List (BitVec 8)) (pos addr len : BitVec 64) : Option VM :=
  if pos.toNat + len.toNat ≤ file.length then
    some { vm with mem := overRange vm.mem addr len fun i => file.getD (pos.toNat + i) 0 }
  else none

/-- `KernelMProtect(addr, len, prot)`. -/
def mprotect (vm : VM) (addr len : BitVec 64) (prot : BitVec 32) : VM :=
  { vm with prot := overRange vm.prot addr len fun _ => prot }

end VM

/-! ## Loading a segment -/

/-- `LoadOneSegment(f, map_off, phdr)` on the file's bytes `file`; `none` is an error. -/
def LoadOneSegment (file : List (BitVec 8)) (map_off : BitVec 64) (phdr : elf_phdr) (vm : VM) :
    Option VM :=
  let prot := segmentProt phdr.flags
  let start := PageAlignDown (phdr.vaddr + map_off)
  let file_end := PageAlignDown (phdr.vaddr + map_off + phdr.filesz)
  let file_extra := phdr.vaddr + map_off + phdr.filesz
  let mem_end := PageAlign (phdr.vaddr + map_off + phdr.memsz)
  let vm :=
    if start < file_end then
      vm.mmapFile file start (file_end - start) prot (PageAlignDown phdr.offset)
    else vm
  if file_end < mem_end then
    let temp_prot := if file_end < file_extra then prot ||| PROT_WRITE else prot
    let vm := vm.mmapAnon file_end (mem_end - file_end) temp_prot
    if file_end < file_extra then
      (vm.readFull file (PageAlignDown phdr.offset + file_end - start) file_end
        (file_extra - file_end)).map fun vm =>
        if temp_prot ≠ prot then vm.mprotect file_end (mem_end - file_end) prot else vm
    else some vm
  else some vm

/-- The loop of `LoadSegments` over the headers: `LoadOneSegment` for each `PT_LOAD` header,
stopping at the first error. -/
def loadEach (file : List (BitVec 8)) (map_off : BitVec 64) : List elf_phdr → VM → Option VM
  | [], vm => some vm
  | phdr :: phdrs, vm =>
    if phdr.type ≠ kPTypeLoad then loadEach file map_off phdrs vm
    else (LoadOneSegment file map_off phdr vm).bind (loadEach file map_off phdrs)

/-- `LoadSegments(f, phdrs, reloc)`: for a relocatable image, reserve `CountTotalLength(phdrs)`
bytes with `KernelMMap(map_len, PROT_NONE, 0)`, whose result is `kernelMMap` (the reservation is
anonymous and inaccessible), and load at that base; else load at 0. Returns `map_off` and
`map_len`. -/
def LoadSegments (file : List (BitVec 8)) (phdrs : List elf_phdr) (reloc : Bool)
    (kernelMMap : Option (BitVec 64)) (vm : VM) : Option ((BitVec 64 × BitVec 64) × VM) :=
  let map_len := CountTotalLength phdrs
  let reserved : Option (BitVec 64 × VM) :=
    if reloc then kernelMMap.map fun ret => (ret, vm.mmapAnon ret (PageAlign map_len) 0)
    else some (0, vm)
  reserved.bind fun (map_off, vm) =>
    (loadEach file map_off phdrs vm).map fun vm => ((map_off, map_len), vm)

/-! ## What a segment load leaves behind -/

section Ranges

variable {α : Type} {f : BitVec 64 → α} {a e x : BitVec 64} {g : Nat → α}

/-- `overRange` over `[a, e)` in numbers: every range `LoadOneSegment` maps is of this form. -/
theorem overRange_sub (hae : a ≤ e) :
    overRange f a (e - a) g x =
      if a.toNat ≤ x.toNat ∧ x.toNat < e.toNat then g (x.toNat - a.toNat) else f x := by
  have hsub := BitVec.toNat_sub x a
  have hlen := BitVec.toNat_sub_of_le hae
  rw [BitVec.le_def] at hae
  by_cases hax : a.toNat ≤ x.toNat
  · have hd : (x - a).toNat = x.toNat - a.toNat := by omega
    by_cases hx : x.toNat < e.toNat
    · rw [overRange, if_pos (by omega), if_pos ⟨hax, hx⟩, hd]
    · rw [overRange, if_neg (by omega), if_neg (by omega)]
  · have hd : (e - a).toNat ≤ (x - a).toNat := by omega
    rw [overRange, if_neg (by omega), if_neg (by omega)]

/-- Outside a range that does not wrap, `overRange` leaves `f`. -/
theorem overRange_out {len : BitVec 64} (hfit : a.toNat + len.toNat ≤ 2 ^ 64)
    (hx : x.toNat < a.toNat ∨ a.toNat + len.toNat ≤ x.toNat) : overRange f a len g x = f x := by
  have hsub := BitVec.toNat_sub x a
  rw [overRange, if_neg (by omega)]

end Ranges

/-- Outside a range that does not wrap, `mmapFile` changes no byte and no protection. -/
theorem VM.mmapFile_out {vm : VM} {file : List (BitVec 8)} {a len x off : BitVec 64}
    {prot : BitVec 32} (hfit : a.toNat + len.toNat ≤ 2 ^ 64)
    (hx : x.toNat < a.toNat ∨ a.toNat + len.toNat ≤ x.toNat) :
    (vm.mmapFile file a len prot off).mem x = vm.mem x ∧
      (vm.mmapFile file a len prot off).prot x = vm.prot x := by
  simp only [VM.mmapFile]
  exact ⟨overRange_out hfit hx, overRange_out hfit hx⟩

theorem VM.readFull_eq {vm vm' : VM} {file : List (BitVec 8)} {pos addr len : BitVec 64}
    (h : vm.readFull file pos addr len = some vm') :
    pos.toNat + len.toNat ≤ file.length ∧
    vm' = { vm with mem := overRange vm.mem addr len fun i => file.getD (pos.toNat + i) 0 } := by
  unfold VM.readFull at h
  split at h
  · exact ⟨‹_›, (Option.some.inj h).symm⟩
  · cases h

/-- The three ways `LoadOneSegment` succeeds, after mapping the whole pages of the file part:
there is no anonymous part; or an anonymous part and no partial page to copy; or an anonymous part
made writable, the partial page read into it, and the protection put back. -/
theorem LoadOneSegment_cases {file : List (BitVec 8)} {map_off : BitVec 64} {phdr : elf_phdr}
    {vm vm' : VM} (h : LoadOneSegment file map_off phdr vm = some vm') :
    let prot := segmentProt phdr.flags
    let start := PageAlignDown (phdr.vaddr + map_off)
    let file_end := PageAlignDown (phdr.vaddr + map_off + phdr.filesz)
    let file_extra := phdr.vaddr + map_off + phdr.filesz
    let mem_end := PageAlign (phdr.vaddr + map_off + phdr.memsz)
    let vm₁ := if start < file_end then
      vm.mmapFile file start (file_end - start) prot (PageAlignDown phdr.offset) else vm
    (¬ file_end < mem_end ∧ vm' = vm₁) ∨
    (file_end < mem_end ∧ ¬ file_end < file_extra ∧
      vm' = vm₁.mmapAnon file_end (mem_end - file_end) prot) ∨
    (file_end < mem_end ∧ file_end < file_extra ∧ ∃ vm₃,
      (vm₁.mmapAnon file_end (mem_end - file_end) (prot ||| PROT_WRITE)).readFull file
        (PageAlignDown phdr.offset + file_end - start) file_end (file_extra - file_end) = some vm₃ ∧
      vm'.mem = vm₃.mem ∧ vm'.bus = vm₃.bus ∧
      vm'.prot = if prot ||| PROT_WRITE ≠ prot then
        overRange vm₃.prot file_end (mem_end - file_end) fun _ => prot else vm₃.prot) := by
  intro prot start file_end file_extra mem_end vm₁
  unfold LoadOneSegment at h
  dsimp only at h
  by_cases hm : file_end < mem_end
  · rw [if_pos hm] at h
    by_cases hx : file_end < file_extra
    · rw [if_pos hx, if_pos hx] at h
      obtain ⟨vm₃, h₃, rfl⟩ := Option.map_eq_some'.1 h
      refine .inr (.inr ⟨hm, hx, vm₃, h₃, ?_, ?_, ?_⟩) <;> split <;> rfl
    · rw [if_neg hx, if_neg hx] at h
      exact .inr (.inl ⟨hm, hx, (Option.some.inj h).symm⟩)
  · rw [if_neg hm] at h
    exact .inl ⟨hm, (Option.some.inj h).symm⟩

section Layout

variable {file : List (BitVec 8)} {map_off : BitVec 64} {phdr : elf_phdr} {vm vm' : VM}

/-- The addresses `LoadOneSegment` computes, when `vaddr + map_off + memsz` rounded up to a page
does not wrap: `start ≤ file_end ≤ file_extra ≤ mem_end`, with `start` and `mem_end` the page
boundaries around the segment and `file_extra` the end of its file part. -/
theorem LoadOneSegment_layout (hfm : phdr.filesz.toNat ≤ phdr.memsz.toNat)
    (hwrap : (phdr.vaddr + map_off).toNat + phdr.memsz.toNat + 4095 < 2 ^ 64) :
    PageAlignDown (phdr.vaddr + map_off) ≤ PageAlignDown (phdr.vaddr + map_off + phdr.filesz) ∧
    PageAlignDown (phdr.vaddr + map_off + phdr.filesz) ≤ phdr.vaddr + map_off + phdr.filesz ∧
    phdr.vaddr + map_off + phdr.filesz ≤ PageAlign (phdr.vaddr + map_off + phdr.memsz) ∧
    (PageAlignDown (phdr.vaddr + map_off)).toNat =
      (phdr.vaddr + map_off).toNat / kPageSize * kPageSize ∧
    (phdr.vaddr + map_off + phdr.filesz).toNat = (phdr.vaddr + map_off).toNat + phdr.filesz.toNat ∧
    (PageAlign (phdr.vaddr + map_off + phdr.memsz)).toNat =
      alignUp ((phdr.vaddr + map_off).toNat + phdr.memsz.toNat) kPageSize := by
  have hF : (phdr.vaddr + map_off + phdr.filesz).toNat =
      (phdr.vaddr + map_off).toNat + phdr.filesz.toNat := by
    rw [BitVec.toNat_add, Nat.mod_eq_of_lt (by omega)]
  have hM : (PageAlign (phdr.vaddr + map_off + phdr.memsz)).toNat =
      alignUp ((phdr.vaddr + map_off).toNat + phdr.memsz.toNat) kPageSize := by
    rw [toNat_PageAlign (by rw [BitVec.toNat_add]; omega), BitVec.toNat_add,
      Nat.mod_eq_of_lt (by omega)]
  have hup := le_alignUp_page ((phdr.vaddr + map_off).toNat + phdr.memsz.toNat)
  refine ⟨?_, ?_, ?_, toNat_PageAlignDown _, hF, hM⟩ <;>
    simp only [BitVec.le_def, toNat_PageAlignDown, hF, hM] <;> unfold kPageSize at hup ⊢ <;> omega

/-- **What `LoadOneSegment` leaves in memory.** With `b = vaddr + map_off`: from `PageAlignDown(b)`
up to `b + filesz` the file from `PageAlignDown(offset)`, then zeros up to `PageAlign(b + memsz)`,
and every other byte unchanged. -/
theorem LoadOneSegment_mem (hfm : phdr.filesz.toNat ≤ phdr.memsz.toNat)
    (hwrap : (phdr.vaddr + map_off).toNat + phdr.memsz.toNat + 4095 < 2 ^ 64)
    (hoff : phdr.offset.toNat + phdr.filesz.toNat + 4095 < 2 ^ 64)
    (h : LoadOneSegment file map_off phdr vm = some vm') (x : BitVec 64) :
    vm'.mem x =
      if (phdr.vaddr + map_off).toNat / kPageSize * kPageSize ≤ x.toNat ∧
          x.toNat < (phdr.vaddr + map_off).toNat + phdr.filesz.toNat then
        file.getD (phdr.offset.toNat / kPageSize * kPageSize +
          (x.toNat - (phdr.vaddr + map_off).toNat / kPageSize * kPageSize)) 0
      else if (phdr.vaddr + map_off).toNat / kPageSize * kPageSize ≤ x.toNat ∧
          x.toNat < alignUp ((phdr.vaddr + map_off).toNat + phdr.memsz.toNat) kPageSize then 0
      else vm.mem x := by
  obtain ⟨hSE, hEX, hXM, hS, hX, hM⟩ := LoadOneSegment_layout hfm hwrap
  have hO := toNat_PageAlignDown phdr.offset
  have hc := LoadOneSegment_cases h
  dsimp only at hc
  rw [← hS, ← hX, ← hM, ← hO]
  -- the file position of the partial page stays below `2 ^ 64`
  have hfit : (PageAlignDown phdr.offset).toNat + ((phdr.vaddr + map_off + phdr.filesz).toNat -
      (PageAlignDown (phdr.vaddr + map_off)).toNat) < 2 ^ 64 := by
    rw [hO, hS, hX]; unfold kPageSize; omega
  clear hS hX hM hO h hwrap hoff
  generalize PageAlignDown (phdr.vaddr + map_off + phdr.filesz) = file_end at *
  generalize phdr.vaddr + map_off + phdr.filesz = file_extra at *
  generalize PageAlign (phdr.vaddr + map_off + phdr.memsz) = mem_end at *
  generalize PageAlignDown (phdr.vaddr + map_off) = start at *
  generalize PageAlignDown phdr.offset = off at *
  have hEM := BitVec.le_trans hEX hXM
  have hle := And.intro (BitVec.le_def.1 hSE) (And.intro (BitVec.le_def.1 hEX) (BitVec.le_def.1 hXM))
  -- the whole pages of the file part
  have hvm₁ : (if start < file_end then
      vm.mmapFile file start (file_end - start) (segmentProt phdr.flags) off else vm).mem x =
      if start.toNat ≤ x.toNat ∧ x.toNat < file_end.toNat then
        file.getD (off.toNat + (x.toNat - start.toNat)) 0 else vm.mem x := by
    split
    · exact overRange_sub (f := vm.mem) (g := fun i => file.getD (off.toNat + i) 0) hSE
    · rw [if_neg]; rw [BitVec.lt_def] at *; omega
  rcases hc with ⟨hm, rfl⟩ | ⟨hm, hx, rfl⟩ | ⟨-, -, vm₃, h₃, hmem, -, -⟩
  · rw [BitVec.lt_def] at hm
    rw [hvm₁]
    split_ifs <;> first | rfl | omega
  · rw [BitVec.lt_def] at hx
    simp only [VM.mmapAnon, overRange_sub hEM, hvm₁]
    split_ifs <;> first | rfl | omega
  · obtain ⟨-, rfl⟩ := VM.readFull_eq h₃
    have hpos : (off + file_end - start).toNat = off.toNat + (file_end.toNat - start.toNat) := by
      rw [add_sub_assoc, BitVec.toNat_add, BitVec.toNat_sub_of_le hSE, Nat.mod_eq_of_lt (by omega)]
    simp only [hmem, VM.mmapAnon, overRange_sub hEX, overRange_sub hEM, hvm₁, hpos]
    split_ifs <;> first | omega | exact congrArg (fun i => file.getD i 0) (by omega) | rfl

/-- **The protection `LoadOneSegment` leaves**: every page from `PageAlignDown(b)` up to
`PageAlign(b + memsz)` has the protection of `flags`, including the pages made writable for the
copy, and every other page is unchanged. -/
theorem LoadOneSegment_prot (hfm : phdr.filesz.toNat ≤ phdr.memsz.toNat)
    (hwrap : (phdr.vaddr + map_off).toNat + phdr.memsz.toNat + 4095 < 2 ^ 64)
    (h : LoadOneSegment file map_off phdr vm = some vm') (x : BitVec 64) :
    vm'.prot x =
      if (phdr.vaddr + map_off).toNat / kPageSize * kPageSize ≤ x.toNat ∧
          x.toNat < alignUp ((phdr.vaddr + map_off).toNat + phdr.memsz.toNat) kPageSize then
        segmentProt phdr.flags
      else vm.prot x := by
  obtain ⟨hSE, hEX, hXM, hS, -, hM⟩ := LoadOneSegment_layout hfm hwrap
  have hc := LoadOneSegment_cases h
  dsimp only at hc
  rw [← hS, ← hM]
  clear hS hM h hwrap
  generalize PageAlignDown (phdr.vaddr + map_off + phdr.filesz) = file_end at *
  generalize PageAlign (phdr.vaddr + map_off + phdr.memsz) = mem_end at *
  generalize PageAlignDown (phdr.vaddr + map_off) = start at *
  generalize segmentProt phdr.flags = prot at *
  have hEM := BitVec.le_trans hEX hXM
  have hle := And.intro (BitVec.le_def.1 hSE) (BitVec.le_def.1 hEM)
  have hvm₁ : (if start < file_end then
      vm.mmapFile file start (file_end - start) prot (PageAlignDown phdr.offset) else vm).prot x =
      if start.toNat ≤ x.toNat ∧ x.toNat < file_end.toNat then prot else vm.prot x := by
    split
    · exact overRange_sub (f := vm.prot) (g := fun _ => prot) hSE
    · rw [if_neg]; rw [BitVec.lt_def] at *; omega
  rcases hc with ⟨hm, rfl⟩ | ⟨-, -, rfl⟩ | ⟨-, -, vm₃, h₃, -, -, hprot⟩
  · rw [BitVec.lt_def] at hm
    rw [hvm₁]
    split_ifs <;> first | rfl | omega
  · simp only [VM.mmapAnon, overRange_sub hEM, hvm₁]
    split_ifs <;> first | rfl | omega
  · obtain ⟨-, rfl⟩ := VM.readFull_eq h₃
    rw [hprot]
    split
    · simp only [VM.mmapAnon, overRange_sub hEM, hvm₁]
      split_ifs <;> first | rfl | omega
    · rename_i hw
      rw [not_not] at hw
      simp only [VM.mmapAnon, overRange_sub hEM, hvm₁, hw]
      split_ifs <;> first | rfl | omega

/-- **`LoadOneSegment` changes nothing outside its pages**: every byte and every protection
outside `[PageAlignDown(b), PageAlign(b + memsz))` is left as it was. -/
theorem LoadOneSegment_frame (hfm : phdr.filesz.toNat ≤ phdr.memsz.toNat)
    (hwrap : (phdr.vaddr + map_off).toNat + phdr.memsz.toNat + 4095 < 2 ^ 64)
    (h : LoadOneSegment file map_off phdr vm = some vm') (x : BitVec 64)
    (hx : x.toNat < (phdr.vaddr + map_off).toNat / kPageSize * kPageSize ∨
      alignUp ((phdr.vaddr + map_off).toNat + phdr.memsz.toNat) kPageSize ≤ x.toNat) :
    vm'.mem x = vm.mem x ∧ vm'.prot x = vm.prot x := by
  have hprot := LoadOneSegment_prot hfm hwrap h x
  rw [if_neg (by omega)] at hprot
  refine ⟨?_, hprot⟩
  obtain ⟨hSE, hEX, hXM, hS, -, hM⟩ := LoadOneSegment_layout hfm hwrap
  have hc := LoadOneSegment_cases h
  dsimp only at hc
  rw [← hS, ← hM] at hx
  clear hS hM h hprot hwrap
  generalize PageAlignDown (phdr.vaddr + map_off + phdr.filesz) = file_end at *
  generalize phdr.vaddr + map_off + phdr.filesz = file_extra at *
  generalize PageAlign (phdr.vaddr + map_off + phdr.memsz) = mem_end at *
  generalize PageAlignDown (phdr.vaddr + map_off) = start at *
  have hEM := BitVec.le_trans hEX hXM
  have hle := And.intro (BitVec.le_def.1 hSE) (And.intro (BitVec.le_def.1 hEX) (BitVec.le_def.1 hXM))
  have hvm₁ : (if start < file_end then vm.mmapFile file start (file_end - start)
      (segmentProt phdr.flags) (PageAlignDown phdr.offset) else vm).mem x = vm.mem x := by
    split
    · simp only [VM.mmapFile, overRange_sub hSE]
      split_ifs <;> first | rfl | omega
    · rfl
  rcases hc with ⟨-, rfl⟩ | ⟨-, -, rfl⟩ | ⟨-, -, vm₃, h₃, hmem, -, -⟩
  · exact hvm₁
  · simp only [VM.mmapAnon, overRange_sub hEM, hvm₁]
    split_ifs <;> first | rfl | omega
  · obtain ⟨-, rfl⟩ := VM.readFull_eq h₃
    simp only [hmem, VM.mmapAnon, overRange_sub hEX, overRange_sub hEM, hvm₁]
    split_ifs <;> first | rfl | omega

/-- **Where touching the segment raises `SIGBUS`**: the whole pages of its file part fault where
they lie wholly past the end of the file, the anonymous pages after them never do, and every other
address is as it was. -/
theorem LoadOneSegment_bus (hfm : phdr.filesz.toNat ≤ phdr.memsz.toNat)
    (hwrap : (phdr.vaddr + map_off).toNat + phdr.memsz.toNat + 4095 < 2 ^ 64)
    (h : LoadOneSegment file map_off phdr vm = some vm') (x : BitVec 64) :
    vm'.bus x =
      if (phdr.vaddr + map_off).toNat / kPageSize * kPageSize ≤ x.toNat ∧ x.toNat <
          ((phdr.vaddr + map_off).toNat + phdr.filesz.toNat) / kPageSize * kPageSize then
        decide (alignUp file.length kPageSize ≤ phdr.offset.toNat / kPageSize * kPageSize +
          (x.toNat - (phdr.vaddr + map_off).toNat / kPageSize * kPageSize))
      else if (phdr.vaddr + map_off).toNat / kPageSize * kPageSize ≤ x.toNat ∧
          x.toNat < alignUp ((phdr.vaddr + map_off).toNat + phdr.memsz.toNat) kPageSize then false
      else vm.bus x := by
  obtain ⟨hSE, hEX, hXM, hS, hX, hM⟩ := LoadOneSegment_layout hfm hwrap
  have hE := toNat_PageAlignDown (phdr.vaddr + map_off + phdr.filesz)
  have hc := LoadOneSegment_cases h
  dsimp only at hc
  rw [← hS, ← hX, ← hE, ← hM, ← toNat_PageAlignDown phdr.offset]
  clear hS hX hE hM h hwrap
  generalize PageAlignDown (phdr.vaddr + map_off + phdr.filesz) = file_end at *
  generalize phdr.vaddr + map_off + phdr.filesz = file_extra at *
  generalize PageAlign (phdr.vaddr + map_off + phdr.memsz) = mem_end at *
  generalize PageAlignDown (phdr.vaddr + map_off) = start at *
  generalize PageAlignDown phdr.offset = off at *
  have hEM := BitVec.le_trans hEX hXM
  have hle := And.intro (BitVec.le_def.1 hSE) (BitVec.le_def.1 hEM)
  have hvm₁ : (if start < file_end then
      vm.mmapFile file start (file_end - start) (segmentProt phdr.flags) off else vm).bus x =
      if start.toNat ≤ x.toNat ∧ x.toNat < file_end.toNat then
        decide (alignUp file.length kPageSize ≤ off.toNat + (x.toNat - start.toNat))
      else vm.bus x := by
    split
    · exact overRange_sub (f := vm.bus)
        (g := fun i => decide (alignUp file.length kPageSize ≤ off.toNat + i)) hSE
    · rw [if_neg]; rw [BitVec.lt_def] at *; omega
  rcases hc with ⟨hm, rfl⟩ | ⟨-, -, rfl⟩ | ⟨-, -, vm₃, h₃, -, hbus, -⟩
  · rw [BitVec.lt_def] at hm
    rw [hvm₁]
    split_ifs <;> first | rfl | omega
  · simp only [VM.mmapAnon, overRange_sub hEM, hvm₁]
    split_ifs <;> first | rfl | omega
  · obtain ⟨-, rfl⟩ := VM.readFull_eq h₃
    simp only [hbus, VM.mmapAnon, overRange_sub hEM, hvm₁]
    split_ifs <;> first | rfl | omega

example : (LoadOneSegment [7] 4096 ⟨kPTypeLoad, kFlagRead, 0, 0, 0, 8192, 8192, 4096⟩
    ⟨fun _ => 0, fun _ => 0, fun _ => false⟩).map (fun vm => (vm.bus 4097, vm.bus 8192)) =
      some (false, true) := by
  decide

/-- **When `vaddr` and `offset` agree modulo the page size, the segment holds the file**: for a
header `ReadPHDRs` accepts, whose file part lies inside the file, and a page-aligned `map_off`, a
successful `LoadOneSegment` leaves the file's byte `offset + k` at `vaddr + map_off + k` for
`k < filesz`, zero for `filesz ≤ k < memsz`, and on every page the segment overlaps the
protection of `flags` and no `SIGBUS`. -/
theorem LoadOneSegment_loads_file (hvalid : PhdrIsValid phdr = true)
    (hmap : map_off.toNat % kPageSize = 0)
    (hpage : phdr.vaddr.toNat % kPageSize = phdr.offset.toNat % kPageSize)
    (hwrap : (phdr.vaddr + map_off).toNat + phdr.memsz.toNat + 4095 < 2 ^ 64)
    (hoff : phdr.offset.toNat + phdr.filesz.toNat + 4095 < 2 ^ 64)
    (hlen : phdr.offset.toNat + phdr.filesz.toNat ≤ file.length)
    (h : LoadOneSegment file map_off phdr vm = some vm') :
    (∀ k < phdr.memsz.toNat, vm'.mem (phdr.vaddr + map_off + BitVec.ofNat 64 k) =
      if k < phdr.filesz.toNat then file.getD (phdr.offset.toNat + k) 0 else 0) ∧
    ∀ x : BitVec 64, (phdr.vaddr + map_off).toNat / kPageSize * kPageSize ≤ x.toNat →
      x.toNat < alignUp ((phdr.vaddr + map_off).toNat + phdr.memsz.toNat) kPageSize →
      vm'.prot x = segmentProt phdr.flags ∧ vm'.bus x = false := by
  have hfm := PhdrIsValid.filesz_le hvalid
  have hb : (phdr.vaddr + map_off).toNat % kPageSize = phdr.offset.toNat % kPageSize := by
    rw [BitVec.toNat_add]; unfold kPageSize at *; omega
  refine ⟨fun k hk => ?_, fun x hlo hhi => ⟨?_, ?_⟩⟩
  · have hx : (phdr.vaddr + map_off + BitVec.ofNat 64 k).toNat =
        (phdr.vaddr + map_off).toNat + k := by
      rw [BitVec.toNat_add, BitVec.toNat_ofNat, Nat.mod_eq_of_lt (by omega),
        Nat.mod_eq_of_lt (by omega)]
    have hup := le_alignUp_page ((phdr.vaddr + map_off).toNat + phdr.memsz.toNat)
    rw [LoadOneSegment_mem hfm hwrap hoff h, hx]
    unfold kPageSize at *
    split_ifs <;> first | omega | exact congrArg (fun i => file.getD i 0) (by omega) | rfl
  · rw [LoadOneSegment_prot hfm hwrap h, if_pos ⟨hlo, hhi⟩]
  · -- a file page of the segment lies before `offset + filesz`, hence inside the file
    have hup := le_alignUp_page file.length
    rw [LoadOneSegment_bus hfm hwrap h]
    unfold kPageSize at *
    split_ifs <;> first | rfl | omega | (simp only [decide_eq_false_iff_not]; omega)

end Layout

theorem LoadOneSegment_loads_file_at_4096 :
    let phdr : elf_phdr := ⟨kPTypeLoad, kFlagRead, 0, 0, 0, 1, 2, 4096⟩
    let vm : VM := ⟨fun _ => 0, fun _ => 0, fun _ => false⟩
    let vm' := (LoadOneSegment [7] 4096 phdr vm).getD vm
    (∀ k < phdr.memsz.toNat, vm'.mem (phdr.vaddr + 4096 + BitVec.ofNat 64 k) =
      if k < phdr.filesz.toNat then [7].getD (phdr.offset.toNat + k) 0 else 0) ∧
    ∀ x : BitVec 64, (phdr.vaddr + 4096).toNat / kPageSize * kPageSize ≤ x.toNat →
      x.toNat < alignUp ((phdr.vaddr + 4096).toNat + phdr.memsz.toNat) kPageSize →
      vm'.prot x = segmentProt phdr.flags ∧ vm'.bus x = false :=
  LoadOneSegment_loads_file (by decide) (by decide) (by decide) (by decide) (by decide) (by decide)
    rfl

/-- **`ReadPHDRs` accepts a segment that `LoadOneSegment` loads shifted**: with `align = 1` the
congruence check always passes, and a segment at `vaddr = 0` with `offset = 1`, loaded at
`map_off = 4096`, gets the file's byte 0 at its first address instead of byte 1 (`2`), because the
partial page is read from `PageAlignDown(offset) + file_end - start`. -/
theorem LoadOneSegment_shifts_bytes :
    PhdrIsValid ⟨kPTypeLoad, kFlagRead, 1, 0, 0, 1, 1, 1⟩ = true ∧
    (LoadOneSegment [1, 2] 4096 ⟨kPTypeLoad, kFlagRead, 1, 0, 0, 1, 1, 1⟩
      ⟨fun _ => 0, fun _ => 0, fun _ => false⟩).map
        (fun vm => vm.mem (0 + 4096 + BitVec.ofNat 64 0)) = some 1 ∧
    ([1, 2] : List (BitVec 8)).getD ((1 : BitVec 64).toNat + 0) 0 = 2 := by
  decide

/-! ## The reservation of a relocatable image -/

/-- The fold of `CountTotalLength` from any start: it ends above its start and above
`vaddr + memsz` of every `PT_LOAD` header, compared as the `size_t` values the code computes. -/
theorem foldl_total_length_ge (l : List elf_phdr) (init : BitVec 64) :
    init.toNat ≤ (l.foldl (fun len phdr => if phdr.type ≠ kPTypeLoad then len
      else if len < phdr.vaddr + phdr.memsz then phdr.vaddr + phdr.memsz else len) init).toNat ∧
    ∀ phdr ∈ l, phdr.type = kPTypeLoad → (phdr.vaddr + phdr.memsz).toNat ≤
      (l.foldl (fun len phdr => if phdr.type ≠ kPTypeLoad then len
        else if len < phdr.vaddr + phdr.memsz then phdr.vaddr + phdr.memsz else len) init).toNat := by
  induction l generalizing init with
  | nil => exact ⟨le_rfl, fun _ h => nomatch h⟩
  | cons p ps ih =>
    simp only [List.foldl_cons, List.mem_cons, forall_eq_or_imp]
    generalize hs : (if p.type ≠ kPTypeLoad then init
      else if init < p.vaddr + p.memsz then p.vaddr + p.memsz else init) = s
    obtain ⟨hinit, hrest⟩ := ih s
    -- one step of the fold keeps the length and covers `p`
    have hstep : init.toNat ≤ s.toNat ∧
        (p.type = kPTypeLoad → (p.vaddr + p.memsz).toNat ≤ s.toNat) := by
      clear hinit hrest ih
      subst hs
      split_ifs <;> simp_all [BitVec.lt_def]; omega
    exact ⟨hstep.1.trans hinit, fun hp => (hstep.2 hp).trans hinit, hrest⟩

/-- `CountTotalLength` is at least `vaddr + memsz` of every `PT_LOAD` header, as `size_t`. -/
theorem CountTotalLength_ge (phdrs : List elf_phdr) :
    ∀ phdr ∈ phdrs, phdr.type = kPTypeLoad →
      (phdr.vaddr + phdr.memsz).toNat ≤ (CountTotalLength phdrs).toNat :=
  (foldl_total_length_ge phdrs 0).2

/-- The loop of `LoadSegments` changes nothing outside `[lo, hi)` when the pages of every
`PT_LOAD` segment lie in it. -/
theorem loadEach_frame (file : List (BitVec 8)) (map_off : BitVec 64) (lo hi : Nat) :
    ∀ (phdrs : List elf_phdr) (vm vm' : VM), (∀ phdr ∈ phdrs, phdr.type = kPTypeLoad →
      phdr.filesz.toNat ≤ phdr.memsz.toNat ∧
      (phdr.vaddr + map_off).toNat + phdr.memsz.toNat + 4095 < 2 ^ 64 ∧
      lo ≤ (phdr.vaddr + map_off).toNat / kPageSize * kPageSize ∧
      alignUp ((phdr.vaddr + map_off).toNat + phdr.memsz.toNat) kPageSize ≤ hi) →
    loadEach file map_off phdrs vm = some vm' → ∀ x : BitVec 64, x.toNat < lo ∨ hi ≤ x.toNat →
      vm'.mem x = vm.mem x ∧ vm'.prot x = vm.prot x
  | [], _, _, _, h, _, _ => by cases h; exact ⟨rfl, rfl⟩
  | phdr :: phdrs, vm, vm', hseg, h, x, hx => by
    have hrest := loadEach_frame file map_off lo hi phdrs
    simp only [loadEach] at h
    split at h
    · exact hrest vm vm' (fun q hq => hseg q (List.mem_cons_of_mem _ hq)) h x hx
    · rename_i hload
      obtain ⟨vm₁, h₁, h⟩ := Option.bind_eq_some.1 h
      obtain ⟨hfm, hwrap, hlo, hhi⟩ := hseg phdr (List.mem_cons_self _ _) (not_not.1 hload)
      obtain ⟨hm, hp⟩ := LoadOneSegment_frame hfm hwrap h₁ x (by omega)
      obtain ⟨hm', hp'⟩ := hrest vm₁ vm' (fun q hq => hseg q (List.mem_cons_of_mem _ hq)) h x hx
      exact ⟨hm'.trans hm, hp'.trans hp⟩

/-- The pages of every `PT_LOAD` segment placed at `map_off` lie in
`[map_off, map_off + PageAlign(CountTotalLength(phdrs)))` when no `vaddr + memsz` wraps and that
range fits below `2 ^ 64` with a page to spare. -/
theorem segments_within (phdrs : List elf_phdr) (map_off : BitVec 64)
    (hvalid : ∀ phdr ∈ phdrs, PhdrIsValid phdr = true)
    (hload : ∀ phdr ∈ phdrs, phdr.type = kPTypeLoad →
      phdr.vaddr.toNat + phdr.memsz.toNat < 2 ^ 64)
    (hpage : map_off.toNat % kPageSize = 0)
    (hres : map_off.toNat + (CountTotalLength phdrs).toNat + 4095 < 2 ^ 64) :
    ∀ phdr ∈ phdrs, phdr.type = kPTypeLoad →
      phdr.filesz.toNat ≤ phdr.memsz.toNat ∧
      (phdr.vaddr + map_off).toNat + phdr.memsz.toNat + 4095 < 2 ^ 64 ∧
      map_off.toNat ≤ (phdr.vaddr + map_off).toNat / kPageSize * kPageSize ∧
      alignUp ((phdr.vaddr + map_off).toNat + phdr.memsz.toNat) kPageSize ≤
        map_off.toNat + alignUp (CountTotalLength phdrs).toNat kPageSize := by
  intro phdr hp hl
  have hle := CountTotalLength_ge phdrs phdr hp hl
  have hvm : (phdr.vaddr + phdr.memsz).toNat = phdr.vaddr.toNat + phdr.memsz.toNat := by
    rw [BitVec.toNat_add, Nat.mod_eq_of_lt (hload phdr hp hl)]
  have hb : (phdr.vaddr + map_off).toNat = phdr.vaddr.toNat + map_off.toNat := by
    rw [BitVec.toNat_add, Nat.mod_eq_of_lt (by omega)]
  refine ⟨PhdrIsValid.filesz_le (hvalid phdr hp), by omega, ?_, ?_⟩ <;> rw [hb] <;>
    unfold alignUp kPageSize at * <;> omega

/-- `LoadSegments` reports `CountTotalLength(phdrs)` as `map_len`. -/
theorem LoadSegments_map_len {file : List (BitVec 8)} {phdrs : List elf_phdr} {reloc : Bool}
    {kernelMMap : Option (BitVec 64)} {vm vm' : VM} {map_off map_len : BitVec 64}
    (h : LoadSegments file phdrs reloc kernelMMap vm = some ((map_off, map_len), vm')) :
    map_len = CountTotalLength phdrs := by
  simp only [LoadSegments] at h
  obtain ⟨_, -, h⟩ := Option.bind_eq_some.1 h
  obtain ⟨_, -, hv⟩ := Option.map_eq_some'.1 h
  exact (Prod.mk.inj (Prod.mk.inj hv).1).2.symm

/-- `LoadSegments`, with a reservation or without (`map_off = 0`), changes nothing outside
`[map_off, map_off + PageAlign(map_len))` when no `vaddr + memsz` wraps and that range fits below
`2 ^ 64` with a page to spare. -/
theorem LoadSegments_frame {file : List (BitVec 8)} {phdrs : List elf_phdr} {reloc : Bool}
    {kernelMMap : Option (BitVec 64)} {vm vm' : VM} {map_off map_len : BitVec 64}
    (hvalid : ∀ phdr ∈ phdrs, PhdrIsValid phdr = true)
    (hload : ∀ phdr ∈ phdrs, phdr.type = kPTypeLoad →
      phdr.vaddr.toNat + phdr.memsz.toNat < 2 ^ 64)
    (hpage : map_off.toNat % kPageSize = 0)
    (hres : map_off.toNat + (CountTotalLength phdrs).toNat + 4095 < 2 ^ 64)
    (h : LoadSegments file phdrs reloc kernelMMap vm = some ((map_off, map_len), vm'))
    (x : BitVec 64)
    (hx : x.toNat < map_off.toNat ∨ map_off.toNat + alignUp map_len.toNat kPageSize ≤ x.toNat) :
    vm'.mem x = vm.mem x ∧ vm'.prot x = vm.prot x := by
  simp only [LoadSegments] at h
  obtain ⟨⟨ret, vm₀⟩, h₀, h⟩ := Option.bind_eq_some.1 h
  obtain ⟨vm₁, h₁, hv⟩ := Option.map_eq_some'.1 h
  simp only [Prod.mk.injEq] at hv
  obtain ⟨⟨rfl, rfl⟩, rfl⟩ := hv
  have hseg := segments_within phdrs ret hvalid hload hpage hres
  obtain ⟨hm, hp⟩ := loadEach_frame file ret ret.toNat _ phdrs _ _ hseg h₁ x hx
  cases reloc
  · obtain ⟨rfl, rfl⟩ := Prod.mk.inj (Option.some.inj h₀)
    exact ⟨hm, hp⟩
  · obtain ⟨ret', -, hr⟩ := Option.map_eq_some'.1 h₀
    obtain ⟨rfl, rfl⟩ := Prod.mk.inj hr
    have hPA : (PageAlign (CountTotalLength phdrs)).toNat =
        alignUp (CountTotalLength phdrs).toNat kPageSize := toNat_PageAlign (by omega)
    have hup : alignUp (CountTotalLength phdrs).toNat kPageSize <
        (CountTotalLength phdrs).toNat + 4096 := alignUp_page_lt _
    have hout {α : Type} (f : BitVec 64 → α) (g : Nat → α) :
        overRange f ret' (PageAlign (CountTotalLength phdrs)) g x = f x :=
      overRange_out (by omega) (by rw [hPA]; omega)
    exact ⟨hm.trans (hout vm.mem fun _ => 0), hp.trans (hout vm.prot fun _ => 0)⟩

/-- **When no sum wraps, a relocatable image stays in its reservation**: for a table `ReadPHDRs`
accepts whose `vaddr + memsz` do not wrap, and a page-aligned reservation at `map_off` that lies in
the address space with a page to spare, `LoadSegments` changes no byte and no protection outside
`[map_off, map_off + PageAlign(CountTotalLength(phdrs)))`. -/
theorem LoadSegments_within (file : List (BitVec 8)) (phdrs : List elf_phdr)
    (kernelMMap : Option (BitVec 64)) (vm vm' : VM) (map_off map_len : BitVec 64)
    (hvalid : ∀ phdr ∈ phdrs, PhdrIsValid phdr = true)
    (hload : ∀ phdr ∈ phdrs, phdr.type = kPTypeLoad →
      phdr.vaddr.toNat + phdr.memsz.toNat < 2 ^ 64)
    (hpage : map_off.toNat % kPageSize = 0)
    (hres : map_off.toNat + (CountTotalLength phdrs).toNat + 4095 < 2 ^ 64)
    (h : LoadSegments file phdrs true kernelMMap vm = some ((map_off, map_len), vm'))
    (x : BitVec 64)
    (hx : x.toNat < map_off.toNat ∨ map_off.toNat + alignUp map_len.toNat kPageSize ≤ x.toNat) :
    vm'.mem x = vm.mem x ∧ vm'.prot x = vm.prot x :=
  LoadSegments_frame hvalid hload hpage hres h x hx

theorem LoadSegments_within_one_page :
    let phdr : elf_phdr := ⟨kPTypeLoad, kFlagRead, 0, 4096, 0, 1, 4096, 4096⟩
    ∃ vm', (∀ q ∈ [phdr], PhdrIsValid q = true) ∧
      (∀ q ∈ [phdr], q.type = kPTypeLoad → q.vaddr.toNat + q.memsz.toNat < 2 ^ 64) ∧
      (65536 : BitVec 64).toNat % kPageSize = 0 ∧
      (65536 : BitVec 64).toNat + (CountTotalLength [phdr]).toNat + 4095 < 2 ^ 64 ∧
      LoadSegments [7] [phdr] true (some 65536) ⟨fun _ => 0, fun _ => 0, fun _ => false⟩ =
        some ((65536, 8192), vm') ∧
      ∀ x : BitVec 64, x.toNat < (65536 : BitVec 64).toNat ∨
        (65536 : BitVec 64).toNat + alignUp (8192 : BitVec 64).toNat kPageSize ≤ x.toNat →
        vm'.mem x = 0 ∧ vm'.prot x = 0 := by
  intro phdr
  have hv : ∀ q ∈ [phdr], PhdrIsValid q = true := by decide
  have hl : ∀ q ∈ [phdr], q.type = kPTypeLoad → q.vaddr.toNat + q.memsz.toNat < 2 ^ 64 := by
    decide
  have hfst : (LoadSegments [7] [phdr] true (some 65536)
      ⟨fun _ => 0, fun _ => 0, fun _ => false⟩).map Prod.fst = some (65536, 8192) := by decide
  obtain ⟨r, hr, hr1⟩ := Option.map_eq_some'.1 hfst
  have h : LoadSegments [7] [phdr] true (some 65536) ⟨fun _ => 0, fun _ => 0, fun _ => false⟩ =
      some ((65536, 8192), r.2) := by rw [hr, ← hr1]
  exact ⟨r.2, hv, hl, by decide, by decide, h, fun x hx =>
    LoadSegments_within [7] [phdr] _ _ _ 65536 8192 hv hl (by decide) (by decide) h x hx⟩

/-- **A segment whose `vaddr + memsz` wraps is mapped below its reservation**: `ReadPHDRs`
accepts a `PT_LOAD` header at `vaddr = 2^64 - 4096` with `memsz = 8192`; `CountTotalLength`
computes `vaddr + memsz` in `size_t` as 4096, so the reservation at 65536 is one page, while
`LoadOneSegment` maps `[61440, 69632)` with `MAP_FIXED`, starting a page below it. -/
theorem LoadSegments_maps_below_reservation :
    PhdrIsValid ⟨kPTypeLoad, kFlagRead, 0, -4096, 0, 0, 8192, 4096⟩ = true ∧
    CountTotalLength [⟨kPTypeLoad, kFlagRead, 0, -4096, 0, 0, 8192, 4096⟩] = 4096 ∧
    (LoadSegments [] [⟨kPTypeLoad, kFlagRead, 0, -4096, 0, 0, 8192, 4096⟩] true (some 65536)
      ⟨fun _ => 0, fun _ => 0, fun _ => false⟩).map (fun r => (r.1, r.2.prot 61440)) =
      some ((65536, 4096), PROT_READ) := by
  decide

end Junction
