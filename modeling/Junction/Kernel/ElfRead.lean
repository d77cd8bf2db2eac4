import Junction.Base.Errno
import Junction.Kernel.Elf

/-!
# Reading an ELF file (`elf.cc`)

`LoadELF(path)` opens the file, reads and checks its header (`ReadHeader`) and its table of
program headers (`ReadPHDRs`), maps the table, loads the interpreter named by a `PT_INTERP`
header (`ReadInterp`, `LoadInterp`), and loads the segments. Each reader fills a buffer with
`ReadFull` and then decodes it; the structures are read in place, so a header is the
little-endian fields of its bytes.

Each of the three readers writes `if (!ret) MakeError(ret);`: the error is built and dropped, and
the reader goes on with whatever the buffer holds. The buffer of `ReadHeader` is uninitialised,
that of `ReadPHDRs` zero-filled (a value-initialised `std::vector`) and that of `ReadInterp`
filled with `'\0'`.

* `ReadHeader_of_long`, `ReadPHDRs_of_long`: when the file holds every byte a reader asks for,
  the reader returns what those bytes decode to (`fileHeader`, `fileTable`) or `EINVAL`.
* `LoadELF_reports_header`: for such a file a successful `LoadELF` reports the file's header.
* `ReadHeader_of_short`: a file of 58 to 63 bytes whose bytes form a valid header is read as
  that header, whatever the uninitialised bytes held, although `ReadFull` fails on it.
* `LoadELF_ignores_short_header`: `LoadELF` loads a 63-byte executable whose header `ReadFull`
  could not read in full.
-/

namespace Junction

/-! ## Reading a buffer -/

/-- Modelled from the spec: `ReadFull(&f, buf)` of `junction/base/io.h`, absent from the source,
after `f.Seek(pos)`. It reads until `buf` is full and fails when the file ends first; the bytes
read are at the front of `buf` and the rest of `buf` is as it was. Returns the status and the
buffer. -/
def readFull (file : List (BitVec 8)) (pos : Nat) (buf : List (BitVec 8)) :
    Bool × List (BitVec 8) :=
  (decide (pos + buf.length ≤ file.length),
    (file.drop pos).take buf.length ++ buf.drop (file.length - pos))

/-- `ReadFull` fails exactly when the file ends before the buffer is full. -/
theorem readFull_fst (file : List (BitVec 8)) (pos : Nat) (buf : List (BitVec 8)) :
    (readFull file pos buf).1 = false ↔ file.length < pos + buf.length := by
  simp [readFull]

/-- A read from the start of a file that ends before the buffer does: the whole file, then the
rest of the buffer. -/
theorem readFull_zero_of_short {file buf : List (BitVec 8)} (h : file.length ≤ buf.length) :
    (readFull file 0 buf).2 = file ++ buf.drop file.length := by
  simp [readFull, List.take_of_length_le h]

/-- A read that the file covers succeeds with the file's bytes. -/
theorem readFull_of_le {file buf : List (BitVec 8)} {pos : Nat}
    (h : pos + buf.length ≤ file.length) :
    readFull file pos buf = (true, (file.drop pos).take buf.length) := by
  simp [readFull, h, List.drop_eq_nil_of_le (by omega : buf.length ≤ file.length - pos)]

/-- The little-endian field of `n` bytes at offset `off` of `b`. -/
def leField (b : List (BitVec 8)) (off n : Nat) : Nat := leValue ((b.drop off).take n)

/-- A field that lies in the first `m` bytes does not see the rest. -/
theorem leField_take (b : List (BitVec 8)) {m off n : Nat} (h : off + n ≤ m) :
    leField (b.take m) off n = leField b off n := by
  rw [leField, leField, List.drop_take, List.take_take, Nat.min_eq_left (by omega)]

/-- A field that lies in `b` does not see what follows `b`. -/
theorem leField_append {b : List (BitVec 8)} (r : List (BitVec 8)) {off n : Nat}
    (h : off + n ≤ b.length) : leField (b ++ r) off n = leField b off n := by
  rw [leField, leField, List.drop_append_of_le_length (by omega),
    List.take_append_of_le_length (by simp; omega)]

/-! ## The ELF header -/

/-- `sizeof(elf_header)`. -/
def sizeof_elf_header : Nat := 64

/-- `sizeof(elf_phdr)`. -/
def sizeof_elf_phdr : Nat := 56

/-- `elf_header`, with the fields `LoadELF` reads; `shoff`, `flags`, `shsize`, `shnum` and
`shstrndx` are read into the buffer but never used. -/
structure elf_header where
  magic : List (BitVec 8)
  type : BitVec 16
  machine : BitVec 16
  version : BitVec 32
  entry : BitVec 64
  phoff : BitVec 64
  ehsize : BitVec 16
  phsize : BitVec 16
  phnum : BitVec 16
  deriving DecidableEq

/-- The header that the 64 bytes `b` hold, at the offsets of the x86-64 layout. -/
def elf_header.ofBytes (b : List (BitVec 8)) : elf_header where
  magic := b.take 16
  type := BitVec.ofNat 16 (leField b 16 2)
  machine := BitVec.ofNat 16 (leField b 18 2)
  version := BitVec.ofNat 32 (leField b 20 4)
  entry := BitVec.ofNat 64 (leField b 24 8)
  phoff := BitVec.ofNat 64 (leField b 32 8)
  ehsize := BitVec.ofNat 16 (leField b 52 2)
  phsize := BitVec.ofNat 16 (leField b 54 2)
  phnum := BitVec.ofNat 16 (leField b 56 2)

/-- The header is decoded from the first 58 bytes only. -/
theorem elf_header.ofBytes_append {b : List (BitVec 8)} (r : List (BitVec 8))
    (h : 58 ≤ b.length) : elf_header.ofBytes (b ++ r) = elf_header.ofBytes b := by
  simp only [elf_header.ofBytes, elf_header.mk.injEq, List.take_append_of_le_length
    (by omega : 16 ≤ b.length), true_and]
  refine ⟨?_, ?_, ?_, ?_, ?_, ?_, ?_, ?_⟩ <;> rw [leField_append r] <;> omega

/-- `kMagicClass64`. -/
def kMagicClass64 : BitVec 8 := 2

/-- `kMagicData2LSB`. -/
def kMagicData2LSB : BitVec 8 := 1

/-- `kMagicVersion`. -/
def kMagicVersion : BitVec 8 := 1

/-- `kMachineAMD64`. -/
def kMachineAMD64 : BitVec 16 := 62

/-- `kETypeExec`. -/
def kETypeExec : BitVec 16 := 2

/-- `kETypeDynamic`. -/
def kETypeDynamic : BitVec 16 := 3

/-- `kPTypeInterp`: the segment holds the interpreter's path. -/
def kPTypeInterp : BitVec 32 := 3

/-- `HeaderIsValid(hdr)`: the magic of a little-endian 64-bit ELF file of the current version,
for x86-64, with headers of the sizes this file's structures have. -/
def HeaderIsValid (hdr : elf_header) : Bool :=
  hdr.magic.getD 0 0 == 0x7f && hdr.magic.getD 1 0 == 0x45 && hdr.magic.getD 2 0 == 0x4c &&
    hdr.magic.getD 3 0 == 0x46 &&
  hdr.magic.getD 4 0 == kMagicClass64 &&
  hdr.magic.getD 5 0 == kMagicData2LSB &&
  hdr.magic.getD 6 0 == kMagicVersion &&
  hdr.version == kMagicVersion.zeroExtend 32 &&
  hdr.machine == kMachineAMD64 &&
  hdr.phsize.toNat == sizeof_elf_phdr &&
  hdr.ehsize.toNat == sizeof_elf_header

/-- `ReadHeader(f)` on a file just opened; `stale` is what the uninitialised `hdr` held. The status
of `ReadFull` is dropped. -/
def ReadHeader (file : List (BitVec 8)) (stale : Nat → BitVec 8) : Except Int elf_header :=
  let hdr := elf_header.ofBytes (readFull file 0 ((List.range sizeof_elf_header).map stale)).2
  if !HeaderIsValid hdr then .error EINVAL else .ok hdr

/-- The first 63 bytes of an x86-64 executable with entry `0x401000` and an empty header table at
offset 64: the last byte of `shstrndx` is missing. -/
def shortExec : List (BitVec 8) :=
  [0x7f, 0x45, 0x4c, 0x46, 2, 1, 1, 0, 0, 0, 0, 0, 0, 0, 0, 0,
    2, 0, 62, 0, 1, 0, 0, 0, 0x00, 0x10, 0x40, 0, 0, 0, 0, 0,
    64, 0, 0, 0, 0, 0, 0, 0, 0, 0, 0, 0, 0, 0, 0, 0,
    0, 0, 0, 0, 64, 0, 56, 0, 0, 0, 0, 0, 0, 0, 0]

/-- **A short file is read as a header**: when the file ends after byte 58 but before byte 64, and
its bytes form a valid header, `ReadFull` fails and `ReadHeader` still returns that header, for
every content of the uninitialised buffer. -/
theorem ReadHeader_of_short (file : List (BitVec 8)) (stale : Nat → BitVec 8)
    (hlong : 58 ≤ file.length) (hshort : file.length < sizeof_elf_header)
    (hvalid : HeaderIsValid (elf_header.ofBytes file) = true) :
    (readFull file 0 ((List.range sizeof_elf_header).map stale)).1 = false ∧
      ReadHeader file stale = .ok (elf_header.ofBytes file) := by
  have hlen : ((List.range sizeof_elf_header).map stale).length = sizeof_elf_header := by simp
  refine ⟨(readFull_fst _ _ _).2 (by omega), ?_⟩
  rw [ReadHeader, readFull_zero_of_short (by omega), elf_header.ofBytes_append _ hlong, hvalid]
  rfl

theorem ReadHeader_of_short_exec :
    58 ≤ shortExec.length ∧ shortExec.length < sizeof_elf_header ∧
    HeaderIsValid (elf_header.ofBytes shortExec) = true ∧
    (readFull shortExec 0 ((List.range sizeof_elf_header).map fun _ => 0)).1 = false ∧
    ReadHeader shortExec (fun _ => 0) = .ok (elf_header.ofBytes shortExec) :=
  ⟨by decide, by decide, by decide,
    ReadHeader_of_short shortExec _ (by decide) (by decide) (by decide)⟩

/-- The header a file holds: its first `sizeof(elf_header)` bytes, decoded. -/
def fileHeader (file : List (BitVec 8)) : elf_header :=
  elf_header.ofBytes (file.take sizeof_elf_header)

/-- **A file that holds the whole header is read right**: `ReadHeader` returns the header of the
file's first 64 bytes, or `EINVAL` when `HeaderIsValid` rejects it, whatever `hdr` held before. -/
theorem ReadHeader_of_long (file : List (BitVec 8)) (stale : Nat → BitVec 8)
    (hlong : sizeof_elf_header ≤ file.length) :
    ReadHeader file stale =
      if HeaderIsValid (fileHeader file) then .ok (fileHeader file) else .error EINVAL := by
  have hlen : ((List.range sizeof_elf_header).map stale).length = sizeof_elf_header := by simp
  rw [ReadHeader, readFull_of_le (by omega), hlen, List.drop_zero]
  dsimp only
  unfold fileHeader
  cases HeaderIsValid (elf_header.ofBytes (file.take sizeof_elf_header)) <;> rfl

/-- What `HeaderIsValid` fixes of the header beyond its magic. -/
theorem HeaderIsValid.sizes {hdr : elf_header} (h : HeaderIsValid hdr = true) :
    hdr.phsize.toNat = sizeof_elf_phdr ∧ hdr.ehsize.toNat = sizeof_elf_header := by
  simp only [HeaderIsValid, Bool.and_eq_true, beq_iff_eq] at h
  exact ⟨h.1.2, h.2⟩

/-- `ReadHeader` returns only headers that `HeaderIsValid` accepts. -/
theorem ReadHeader_valid {file : List (BitVec 8)} {stale : Nat → BitVec 8} {hdr : elf_header}
    (h : ReadHeader file stale = .ok hdr) : HeaderIsValid hdr = true := by
  dsimp only [ReadHeader] at h
  split at h
  · cases h
  · rename_i hv
    cases h
    simpa using hv

/-! ## The program headers and the interpreter's path -/

/-- The program header that the 56 bytes `b` hold. -/
def elf_phdr.ofBytes (b : List (BitVec 8)) : elf_phdr where
  type := BitVec.ofNat 32 (leField b 0 4)
  flags := BitVec.ofNat 32 (leField b 4 4)
  offset := BitVec.ofNat 64 (leField b 8 8)
  vaddr := BitVec.ofNat 64 (leField b 16 8)
  paddr := BitVec.ofNat 64 (leField b 24 8)
  filesz := BitVec.ofNat 64 (leField b 32 8)
  memsz := BitVec.ofNat 64 (leField b 40 8)
  align := BitVec.ofNat 64 (leField b 48 8)

/-- A header is decoded from its first 56 bytes only. -/
theorem elf_phdr.ofBytes_take (b : List (BitVec 8)) {m : Nat} (h : sizeof_elf_phdr ≤ m) :
    elf_phdr.ofBytes (b.take m) = elf_phdr.ofBytes b := by
  unfold sizeof_elf_phdr at h
  simp only [elf_phdr.ofBytes, elf_phdr.mk.injEq]
  refine ⟨?_, ?_, ?_, ?_, ?_, ?_, ?_, ?_⟩ <;> rw [leField_take] <;> omega

/-- `ReadPHDRs(f, hdr)`: the `phnum` headers at `phoff`, read into a zero-filled vector, each
checked by `PhdrIsValid`. The status of `ReadFull` is dropped. -/
def ReadPHDRs (file : List (BitVec 8)) (hdr : elf_header) : Except Int (List elf_phdr) :=
  let buf := (readFull file hdr.phoff.toNat
    (List.replicate (sizeof_elf_phdr * hdr.phnum.toNat) 0)).2
  let phdrs := (List.range hdr.phnum.toNat).map fun i =>
    elf_phdr.ofBytes (buf.drop (sizeof_elf_phdr * i))
  if phdrs.all PhdrIsValid then .ok phdrs else .error EINVAL

/-- The table of `phnum` program headers a file holds at `phoff`. -/
def fileTable (file : List (BitVec 8)) (phoff phnum : Nat) : List elf_phdr :=
  (List.range phnum).map fun i => elf_phdr.ofBytes (file.drop (phoff + sizeof_elf_phdr * i))

/-- **A file that holds the whole table is read right**: `ReadPHDRs` returns the file's table at
`phoff`, or `EINVAL` when `PhdrIsValid` rejects one of its headers. -/
theorem ReadPHDRs_of_long (file : List (BitVec 8)) (hdr : elf_header)
    (hlong : hdr.phoff.toNat + sizeof_elf_phdr * hdr.phnum.toNat ≤ file.length) :
    ReadPHDRs file hdr =
      if (fileTable file hdr.phoff.toNat hdr.phnum.toNat).all PhdrIsValid then
        .ok (fileTable file hdr.phoff.toNat hdr.phnum.toNat)
      else .error EINVAL := by
  have htab : ((List.range hdr.phnum.toNat).map fun i => elf_phdr.ofBytes
      (((file.drop hdr.phoff.toNat).take (sizeof_elf_phdr * hdr.phnum.toNat)).drop
        (sizeof_elf_phdr * i))) = fileTable file hdr.phoff.toNat hdr.phnum.toNat := by
    refine List.map_congr_left fun i hi => ?_
    rw [List.mem_range] at hi
    rw [List.drop_take, List.drop_drop, elf_phdr.ofBytes_take]
    unfold sizeof_elf_phdr
    rw [← Nat.mul_sub]
    exact Nat.le_mul_of_pos_right 56 (by omega)
  rw [ReadPHDRs, readFull_of_le (by simpa using hlong), List.length_replicate]
  simp only [htab]

/-- `ReadPHDRs` returns only tables that `PhdrIsValid` accepts throughout. -/
theorem ReadPHDRs_valid {file : List (BitVec 8)} {hdr : elf_header} {phdrs : List elf_phdr}
    (h : ReadPHDRs file hdr = .ok phdrs) : ∀ phdr ∈ phdrs, PhdrIsValid phdr = true := by
  dsimp only [ReadPHDRs] at h
  split at h
  · rename_i hv
    cases h
    exact List.all_eq_true.1 hv
  · cases h

/-- `ReadPHDRs` returns `phnum` headers. -/
theorem ReadPHDRs_length {file : List (BitVec 8)} {hdr : elf_header} {phdrs : List elf_phdr}
    (h : ReadPHDRs file hdr = .ok phdrs) : phdrs.length = hdr.phnum.toNat := by
  dsimp only [ReadPHDRs] at h
  split at h
  · cases h
    simp
  · cases h

/-- `ReadInterp(f, phdr)`: the `filesz` bytes at `offset`, read into a string of `'\0'`. The
status of `ReadFull` is dropped. -/
def ReadInterp (file : List (BitVec 8)) (phdr : elf_phdr) : Except Int (List (BitVec 8)) :=
  .ok (readFull file phdr.offset.toNat (List.replicate phdr.filesz.toNat 0)).2

/-! ## Loading -/

/-- What the host answers to the calls of `LoadELF`. -/
structure ElfHost where
  /-- `KernelFile::Open(path, 0, S_IRUSR | S_IXUSR)`: the file's bytes, or an error. -/
  openFile : List (BitVec 8) → Except Int (List (BitVec 8))
  /-- What the uninitialised `elf_header` of `ReadHeader` holds. -/
  stale : Nat → BitVec 8
  /-- `file->MMap(map_sz, PROT_READ, 0, 0)` of the header table: its address, or an error. -/
  phdrMMap : Except Int (BitVec 64)
  /-- `KernelMMap` of the interpreter's reservation in `LoadSegments`. -/
  interpMMap : Option (BitVec 64)
  /-- `KernelMMap` of the image's reservation in `LoadSegments`, for a dynamic image. -/
  mainMMap : Option (BitVec 64)
  /-- The error of a failed call in `LoadSegments`. -/
  loadErr : Int

/-- `LoadInterp(path)`: a dynamic image, placed in a reservation of its own. -/
def LoadInterp (host : ElfHost) (path : List (BitVec 8)) (vm : VM) :
    Except Int (InterpData × VM) := do
  let file ← host.openFile path
  let hdr ← ReadHeader file host.stale
  if hdr.type ≠ kETypeDynamic then throw EINVAL
  let phdrs ← ReadPHDRs file hdr
  match LoadSegments file phdrs true host.interpMMap vm with
  | none => throw host.loadErr
  | some ((map_base, map_len), vm) => pure (⟨map_base, map_len, hdr.entry⟩, vm)

/-- The interpreter loop of `LoadELF`: `ReadInterp` and `LoadInterp` for the first `PT_INTERP`
header, if there is one. -/
def loadInterpreter (host : ElfHost) (file : List (BitVec 8)) (phdrs : List elf_phdr) (vm : VM) :
    Except Int (Option InterpData × VM) :=
  match phdrs.find? (fun phdr => phdr.type == kPTypeInterp) with
  | none => pure (none, vm)
  | some phdr => do
    let path ← ReadInterp file phdr
    let (data, vm) ← LoadInterp host path vm
    pure (some data, vm)

/-- `LoadELF(path)`: the image, its header table mapped read-only, and the interpreter of its
first `PT_INTERP` header. `file->MMap(map_sz, PROT_READ, 0, 0)` maps whole pages: the host maps
and protects `PageAlign(map_sz)` bytes. -/
def LoadELF (host : ElfHost) (path : List (BitVec 8)) (vm : VM) : Except Int (ElfData × VM) := do
  let file ← host.openFile path
  let hdr ← ReadHeader file host.stale
  if hdr.type ≠ kETypeExec ∧ hdr.type ≠ kETypeDynamic then throw EINVAL
  let phdrs ← ReadPHDRs file hdr
  let map_sz := hdr.phoff + BitVec.ofNat 64 (sizeof_elf_phdr * phdrs.length)
  let phdr_mem ← host.phdrMMap
  let (interp, vm) ← loadInterpreter host file phdrs
    (vm.mmapFile file phdr_mem (PageAlign map_sz) PROT_READ 0)
  match LoadSegments file phdrs (hdr.type == kETypeDynamic) host.mainMMap vm with
  | none => throw host.loadErr
  | some ((map_base, map_len), vm) =>
    pure (⟨map_base, map_len, hdr.entry, hdr.phoff + phdr_mem, hdr.phnum.zeroExtend 64,
      hdr.phsize.zeroExtend 64, interp⟩, vm)

/-- A computation in `Except` that succeeds ran its first step with success. -/
theorem except_bind_ok {ε α β : Type} {x : Except ε α} {f : α → Except ε β} {b : β}
    (h : x >>= f = .ok b) : ∃ a, x = .ok a ∧ f a = .ok b := by
  cases x with
  | error e => cases h
  | ok a => exact ⟨a, rfl, h⟩

/-- What a successful `LoadELF` went through: the file opened, its header read and of a supported
type, its table read and mapped, and the `elf_data` fields taken from the header. -/
theorem LoadELF_ok_inv {host : ElfHost} {path : List (BitVec 8)} {vm vm' : VM} {d : ElfData}
    (h : LoadELF host path vm = .ok (d, vm')) :
    ∃ file hdr phdrs phdr_mem, host.openFile path = .ok file ∧
      ReadHeader file host.stale = .ok hdr ∧
      (hdr.type = kETypeExec ∨ hdr.type = kETypeDynamic) ∧ ReadPHDRs file hdr = .ok phdrs ∧
      host.phdrMMap = .ok phdr_mem ∧ d.entry_addr = hdr.entry ∧
      d.phdr_addr = hdr.phoff + phdr_mem ∧ d.phdr_num = hdr.phnum.zeroExtend 64 ∧
      d.phdr_entsz = hdr.phsize.zeroExtend 64 := by
  obtain ⟨file, hf, h⟩ := except_bind_ok h
  obtain ⟨hdr, hh, h⟩ := except_bind_ok h
  dsimp only at h
  split at h
  · cases h
  rename_i htype
  obtain ⟨-, -, h⟩ := except_bind_ok h
  obtain ⟨phdrs, hp, h⟩ := except_bind_ok h
  obtain ⟨phdr_mem, ha, h⟩ := except_bind_ok h
  obtain ⟨⟨interp, vm₁⟩, -, h⟩ := except_bind_ok h
  refine ⟨file, hdr, phdrs, phdr_mem, hf, hh, by tauto, hp, ha, ?_⟩
  dsimp only at h
  split at h
  · cases h
  · cases h
    exact ⟨rfl, rfl, rfl, rfl⟩

/-- A pair in `Except` whose first component is known. -/
theorem except_ok_of_map_fst {ε α β : Type} {x : Except ε (α × β)} {a : α}
    (h : x.toOption.map Prod.fst = some a) : ∃ b, x = .ok (a, b) := by
  cases x with
  | error e => cases h
  | ok p =>
    cases h
    exact ⟨p.2, rfl⟩

/-- **A successful `LoadELF` of a file that holds its whole header reports that header**: the
header the file's first 64 bytes decode to passes `HeaderIsValid` and is of a supported type, and
`elf_data` has its entry point, its `phnum`, the entry size 56, and `phoff` past the address where
the table was mapped. -/
theorem LoadELF_reports_header (host : ElfHost) (path : List (BitVec 8)) (vm vm' : VM)
    (d : ElfData) (file : List (BitVec 8)) (hopen : host.openFile path = .ok file)
    (hlong : sizeof_elf_header ≤ file.length) (h : LoadELF host path vm = .ok (d, vm')) :
    HeaderIsValid (fileHeader file) = true ∧
      ((fileHeader file).type = kETypeExec ∨ (fileHeader file).type = kETypeDynamic) ∧
      d.entry_addr = (fileHeader file).entry ∧
      d.phdr_num = (fileHeader file).phnum.zeroExtend 64 ∧ d.phdr_entsz = 56 ∧
      ∃ phdr_mem, host.phdrMMap = .ok phdr_mem ∧
        d.phdr_addr = (fileHeader file).phoff + phdr_mem := by
  obtain ⟨file', hdr, -, phdr_mem, hf, hh, htype, -, ha, he, hpa, hn, hs⟩ := LoadELF_ok_inv h
  obtain rfl : file = file' := Except.ok.inj (hopen.symm.trans hf)
  rw [ReadHeader_of_long file _ hlong] at hh
  split at hh
  · obtain rfl := Except.ok.inj hh
    rename_i hv
    refine ⟨hv, htype, he, hn, ?_, phdr_mem, ha, hpa⟩
    rw [hs]
    apply BitVec.eq_of_toNat_eq
    simp [(HeaderIsValid.sizes hv).1, sizeof_elf_phdr]
  · cases hh

theorem LoadELF_reports_header_exec :
    ∃ vm', (⟨fun _ => .ok (shortExec ++ [0]), fun _ => 0, .ok 65536, none, none, 12⟩ :
        ElfHost).openFile [] = .ok (shortExec ++ [0]) ∧
      sizeof_elf_header ≤ (shortExec ++ [0]).length ∧
      LoadELF ⟨fun _ => .ok (shortExec ++ [0]), fun _ => 0, .ok 65536, none, none, 12⟩ []
        ⟨fun _ => 0, fun _ => 0, fun _ => false⟩ =
        .ok (⟨0, 0, 0x401000, 65600, 0, 56, none⟩, vm') ∧
      HeaderIsValid (fileHeader (shortExec ++ [0])) = true ∧
      ((fileHeader (shortExec ++ [0])).type = kETypeExec ∨
        (fileHeader (shortExec ++ [0])).type = kETypeDynamic) ∧
      (⟨0, 0, 0x401000, 65600, 0, 56, none⟩ : ElfData).entry_addr =
        (fileHeader (shortExec ++ [0])).entry ∧
      (⟨0, 0, 0x401000, 65600, 0, 56, none⟩ : ElfData).phdr_num =
        (fileHeader (shortExec ++ [0])).phnum.zeroExtend 64 ∧
      (⟨0, 0, 0x401000, 65600, 0, 56, none⟩ : ElfData).phdr_entsz = 56 ∧
      ∃ phdr_mem, (⟨fun _ => .ok (shortExec ++ [0]), fun _ => 0, .ok 65536, none, none, 12⟩ :
          ElfHost).phdrMMap = .ok phdr_mem ∧
        (⟨0, 0, 0x401000, 65600, 0, 56, none⟩ : ElfData).phdr_addr =
          (fileHeader (shortExec ++ [0])).phoff + phdr_mem := by
  obtain ⟨vm', h⟩ := except_ok_of_map_fst (by decide :
    (LoadELF ⟨fun _ => .ok (shortExec ++ [0]), fun _ => 0, .ok 65536, none, none, 12⟩ []
      ⟨fun _ => 0, fun _ => 0, fun _ => false⟩).toOption.map Prod.fst =
        some ⟨0, 0, 0x401000, 65600, 0, 56, none⟩)
  exact ⟨vm', rfl, by decide, h, LoadELF_reports_header _ [] _ vm' _ _ rfl (by decide) h⟩

/-- **`LoadELF` loads a file whose header it could not read**: the 63-byte `shortExec` makes the
`ReadFull` of `ReadHeader` fail, and `LoadELF` returns an image with entry `0x401000` and its
header table at `phoff + 65536`. -/
theorem LoadELF_ignores_short_header :
    (readFull shortExec 0 ((List.range sizeof_elf_header).map fun _ => 0)).1 = false ∧
    ((LoadELF ⟨fun _ => .ok shortExec, fun _ => 0, .ok 65536, none, none, 12⟩ []
      ⟨fun _ => 0, fun _ => 0, fun _ => false⟩).toOption.map Prod.fst) =
      some ⟨0, 0, 0x401000, 65600, 0, 56, none⟩ := by
  decide

/-! ## What loading leaves behind -/

/-- What a successful `LoadInterp` went through: the interpreter's file opened, its header and
table read, and its segments loaded in a reservation of their own. -/
theorem LoadInterp_ok_inv {host : ElfHost} {path : List (BitVec 8)} {vm vm' : VM}
    {i : InterpData} (h : LoadInterp host path vm = .ok (i, vm')) :
    ∃ file hdr phdrs, host.openFile path = .ok file ∧ ReadHeader file host.stale = .ok hdr ∧
      ReadPHDRs file hdr = .ok phdrs ∧
      LoadSegments file phdrs true host.interpMMap vm = some ((i.map_base, i.map_len), vm') := by
  obtain ⟨file, hf, h⟩ := except_bind_ok h
  obtain ⟨hdr, hh, h⟩ := except_bind_ok h
  dsimp only at h
  split at h
  · cases h
  obtain ⟨-, -, h⟩ := except_bind_ok h
  obtain ⟨phdrs, hp, h⟩ := except_bind_ok h
  refine ⟨file, hdr, phdrs, hf, hh, hp, ?_⟩
  split at h
  · cases h
  · cases h
    assumption

/-- The interpreter loop leaves the address space as it was, or ran `LoadInterp` on it. -/
theorem loadInterpreter_ok_inv {host : ElfHost} {file : List (BitVec 8)} {phdrs : List elf_phdr}
    {vm vm' : VM} {interp : Option InterpData}
    (h : loadInterpreter host file phdrs vm = .ok (interp, vm')) :
    (interp = none ∧ vm' = vm) ∨
      ∃ i path, interp = some i ∧ LoadInterp host path vm = .ok (i, vm') := by
  unfold loadInterpreter at h
  split at h
  · cases h
    exact .inl ⟨rfl, rfl⟩
  · obtain ⟨path, -, h⟩ := except_bind_ok h
    obtain ⟨⟨i, vm₁⟩, hi, h⟩ := except_bind_ok h
    cases h
    exact .inr ⟨i, path, rfl, hi⟩

/-- What a successful `LoadELF` did to the address space: it mapped the whole pages that hold the
file's first `phoff + 56 * phnum` bytes at the address `phdrMMap` returned, ran the interpreter
loop on the result, and loaded the image's segments where `elf_data` says. -/
theorem LoadELF_ok_loads {host : ElfHost} {path : List (BitVec 8)} {vm vm' : VM} {d : ElfData}
    (h : LoadELF host path vm = .ok (d, vm')) :
    ∃ file hdr phdrs phdr_mem vm₁, host.openFile path = .ok file ∧
      ReadHeader file host.stale = .ok hdr ∧ ReadPHDRs file hdr = .ok phdrs ∧
      host.phdrMMap = .ok phdr_mem ∧ d.phdr_addr = hdr.phoff + phdr_mem ∧
      d.phdr_num = hdr.phnum.zeroExtend 64 ∧
      loadInterpreter host file phdrs (vm.mmapFile file phdr_mem
        (PageAlign (hdr.phoff + BitVec.ofNat 64 (sizeof_elf_phdr * phdrs.length))) PROT_READ 0) =
        .ok (d.interp, vm₁) ∧
      LoadSegments file phdrs (hdr.type == kETypeDynamic) host.mainMMap vm₁ =
        some ((d.map_base, d.map_len), vm') := by
  obtain ⟨file, hf, h⟩ := except_bind_ok h
  obtain ⟨hdr, hh, h⟩ := except_bind_ok h
  dsimp only at h
  split at h
  · cases h
  obtain ⟨-, -, h⟩ := except_bind_ok h
  obtain ⟨phdrs, hp, h⟩ := except_bind_ok h
  obtain ⟨phdr_mem, ha, h⟩ := except_bind_ok h
  obtain ⟨⟨interp, vm₁⟩, hi, h⟩ := except_bind_ok h
  refine ⟨file, hdr, phdrs, phdr_mem, vm₁, hf, hh, hp, ha, ?_⟩
  dsimp only at h
  split at h
  · cases h
  · cases h
    exact ⟨rfl, rfl, hi, by assumption⟩

/-- **`LoadELF` writes only where `elf_data` says**: when no `vaddr + memsz` of a file the host
opens wraps, the image's and the interpreter's reservations are page-aligned and lie in the address
space with a page to spare, and the mapping of the header table does not wrap, a successful
`LoadELF` changes no byte and no protection outside the image
`[map_base, map_base + PageAlign(map_len))`, the interpreter's region, and the header table's
mapping: the whole pages from `phdr_mem` that hold the file's first `phoff + 56 * phdr_num` bytes,
`phoff` being `phdr_addr - phdr_mem`. -/
theorem LoadELF_within (host : ElfHost) (path : List (BitVec 8)) (vm vm' : VM) (d : ElfData)
    (hload : ∀ p file hdr phdrs, host.openFile p = .ok file →
      ReadHeader file host.stale = .ok hdr → ReadPHDRs file hdr = .ok phdrs →
      ∀ phdr ∈ phdrs, phdr.type = kPTypeLoad → phdr.vaddr.toNat + phdr.memsz.toNat < 2 ^ 64)
    (hmain : d.map_base.toNat % kPageSize = 0 ∧
      d.map_base.toNat + d.map_len.toNat + 4095 < 2 ^ 64)
    (hinterp : ∀ i, d.interp = some i → i.map_base.toNat % kPageSize = 0 ∧
      i.map_base.toNat + i.map_len.toNat + 4095 < 2 ^ 64)
    (htable : ∀ a, host.phdrMMap = .ok a → a.toNat ≤ d.phdr_addr.toNat ∧
      a.toNat + alignUp (d.phdr_addr.toNat - a.toNat + 56 * d.phdr_num.toNat) kPageSize ≤ 2 ^ 64)
    (h : LoadELF host path vm = .ok (d, vm')) (x : BitVec 64)
    (hxmain : x.toNat < d.map_base.toNat ∨
      d.map_base.toNat + alignUp d.map_len.toNat kPageSize ≤ x.toNat)
    (hxinterp : ∀ i, d.interp = some i → x.toNat < i.map_base.toNat ∨
      i.map_base.toNat + alignUp i.map_len.toNat kPageSize ≤ x.toNat)
    (hxtable : ∀ a, host.phdrMMap = .ok a → x.toNat < a.toNat ∨
      a.toNat + alignUp (d.phdr_addr.toNat - a.toNat + 56 * d.phdr_num.toNat) kPageSize ≤ x.toNat) :
    vm'.mem x = vm.mem x ∧ vm'.prot x = vm.prot x := by
  obtain ⟨file, hdr, phdrs, a, vm₁, hf, hh, hp, ha, hpa, hpn, hi, hs⟩ := LoadELF_ok_loads h
  generalize hvm₀ : vm.mmapFile file a
    (PageAlign (hdr.phoff + BitVec.ofNat 64 (sizeof_elf_phdr * phdrs.length))) PROT_READ 0 = vm₀
    at hi
  -- the image's segments
  obtain ⟨hm₂, hp₂⟩ := LoadSegments_frame (ReadPHDRs_valid hp) (hload path file hdr phdrs hf hh hp)
    hmain.1 (LoadSegments_map_len hs ▸ hmain.2) hs x hxmain
  -- the interpreter's segments
  have hint : vm₁.mem x = vm₀.mem x ∧ vm₁.prot x = vm₀.prot x := by
    rcases loadInterpreter_ok_inv hi with ⟨-, rfl⟩ | ⟨i, p, hdi, hli⟩
    · exact ⟨rfl, rfl⟩
    · obtain ⟨file', hdr', phdrs', hf', hh', hp', hs'⟩ := LoadInterp_ok_inv hli
      have hres := hinterp i hdi
      exact LoadSegments_frame (ReadPHDRs_valid hp') (hload p file' hdr' phdrs' hf' hh' hp')
        hres.1 (LoadSegments_map_len hs' ▸ hres.2) hs' x (hxinterp i hdi)
  -- the header table
  obtain ⟨hfa, hfe⟩ := htable a ha
  have hpd : d.phdr_addr.toNat = hdr.phoff.toNat + a.toNat := by
    rw [hpa, BitVec.toNat_add] at hfa ⊢
    omega
  have hnum : d.phdr_num.toNat = phdrs.length := by
    have := hdr.phnum.isLt
    rw [hpn, ReadPHDRs_length hp]
    simp only [BitVec.toNat_setWidth, BitVec.truncate_eq_setWidth]
    omega
  have hsz : (hdr.phoff + BitVec.ofNat 64 (sizeof_elf_phdr * phdrs.length)).toNat ≤
      hdr.phoff.toNat + 56 * phdrs.length := by
    rw [BitVec.toNat_add, BitVec.toNat_ofNat]
    have := Nat.mod_le (hdr.phoff.toNat + (sizeof_elf_phdr * phdrs.length) % 2 ^ 64) (2 ^ 64)
    have := Nat.mod_le (sizeof_elf_phdr * phdrs.length) (2 ^ 64)
    unfold sizeof_elf_phdr at *
    omega
  -- the pages of the table's mapping
  have hpage := (toNat_PageAlign_le _).trans (alignUp_page_mono hsz)
  rw [show hdr.phoff.toNat + 56 * phdrs.length =
    d.phdr_addr.toNat - a.toNat + 56 * d.phdr_num.toNat by omega] at hpage
  have hxa := hxtable a ha
  subst hvm₀
  exact ⟨hm₂.trans (hint.1.trans (VM.mmapFile_out (by omega) (by omega)).1),
    hp₂.trans (hint.2.trans (VM.mmapFile_out (by omega) (by omega)).2)⟩

theorem LoadELF_within_exec :
    ∃ vm', LoadELF ⟨fun _ => .ok (shortExec ++ [0]), fun _ => 0, .ok 65536, none, none, 12⟩ []
        ⟨fun _ => 0, fun _ => 0, fun _ => false⟩ =
        .ok (⟨0, 0, 0x401000, 65600, 0, 56, none⟩, vm') ∧
      vm'.mem 0 = 0 ∧ vm'.prot 0 = 0 := by
  obtain ⟨vm', h⟩ := except_ok_of_map_fst (by decide :
    (LoadELF ⟨fun _ => .ok (shortExec ++ [0]), fun _ => 0, .ok 65536, none, none, 12⟩ []
      ⟨fun _ => 0, fun _ => 0, fun _ => false⟩).toOption.map Prod.fst =
        some ⟨0, 0, 0x401000, 65600, 0, 56, none⟩)
  refine ⟨vm', h, LoadELF_within _ [] _ vm' _ ?_ (by decide) (fun _ hi => by cases hi) ?_ h 0
    (by decide) (fun _ hi => by cases hi) ?_⟩
  · -- the file's table is empty
    intro p file hdr phdrs hf hh hp phdr hmem
    cases hf
    have hn : ((ReadHeader (shortExec ++ [0]) fun _ => 0).toOption.map elf_header.phnum) =
      some 0 := by decide
    rw [hh] at hn
    have hlen := ReadPHDRs_length hp
    rw [Option.some.inj hn] at hlen
    rw [List.eq_nil_of_length_eq_zero hlen] at hmem
    cases hmem
  · intro a ha
    cases ha
    decide
  · intro a ha
    cases ha
    decide

end Junction
