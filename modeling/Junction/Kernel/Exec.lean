import Junction.Kernel.Elf
import Mathlib.Tactic.Ring

/-!
# The initial stack of a new process (`exec.cc`)

`SetupStack` reserves a frame below the stack top `sp` and fills it, from the bottom up, with
`argc`, the `argv` pointers and a NULL, the `envp` pointers and a NULL, and the auxiliary vector
of `SetupAuxVec`; above them lie 16 random bytes and then the strings of `argv` and `envp`. The
size of the frame is computed first (`VectorBytes`, the random bytes, the auxiliary vector, the
pointer words, rounded up to 32), in `size_t`.

The model keeps the code's arithmetic in `BitVec 64` and returns the stores the code makes in
program order (`StackSetup`). The loops over `argv` and `envp` are one function, `copyStrings`,
used twice as the code repeats one loop body.

* `copyStrings_within`, `copyStrings_pairwise`: the stores of one loop stay in the pointer array
  and in the string block it is given, and do not overlap.
* `SetupStack_sp_toNat`, `SetupStack_layout`: when the frame fits below `sp`, the frame is
  `frameBytes argv envp` bytes and every store lies in it, without overlap.
* `Exec_ok_inv`: what a successful `Exec` has done, for the stack theorems of `StackDecode`.
-/

namespace Junction

/-- The number of entries `SetupAuxVec` writes. -/
def kNumAuxVectors : Nat := 18

/-! ## Auxiliary vector types (`<elf.h>`) -/

/-- `AT_NULL` ends the auxiliary vector. -/
def AT_NULL : BitVec 64 := 0
def AT_PHDR : BitVec 64 := 3
def AT_PHENT : BitVec 64 := 4
def AT_PHNUM : BitVec 64 := 5
def AT_PAGESZ : BitVec 64 := 6
def AT_BASE : BitVec 64 := 7
def AT_FLAGS : BitVec 64 := 8
def AT_ENTRY : BitVec 64 := 9
def AT_UID : BitVec 64 := 11
def AT_EUID : BitVec 64 := 12
def AT_GID : BitVec 64 := 13
def AT_EGID : BitVec 64 := 14
def AT_HWCAP : BitVec 64 := 16
def AT_CLKTCK : BitVec 64 := 17
def AT_SECURE : BitVec 64 := 23
def AT_RANDOM : BitVec 64 := 25
def AT_EXECFN : BitVec 64 := 31
def AT_SYSINFO_EHDR : BitVec 64 := 33

/-! ## The code -/

/-- `VectorBytes`: the bytes the strings of `vec` take with their NULs, summed in `size_t`. -/
def VectorBytes (vec : List (List (BitVec 8))) : BitVec 64 :=
  vec.foldl (fun len v => len + (BitVec.ofNat 64 v.length + 1)) 0

/-- `SetupAuxVec`: the entries of the auxiliary vector, in order, as (type, value). `hwcap` is the
`edx` word `cpuid` returns; the vDSO is disabled, so `AT_SYSINFO_EHDR` is 0. -/
def SetupAuxVec (hwcap : BitVec 32) (filename : BitVec 64) (edata : ElfData)
    (random_ptr : BitVec 64) : List (BitVec 64 × BitVec 64) :=
  [(AT_HWCAP, hwcap.zeroExtend 64), (AT_PAGESZ, BitVec.ofNat 64 kPageSize), (AT_CLKTCK, 1000000),
    (AT_PHDR, edata.phdr_addr), (AT_PHENT, edata.phdr_entsz), (AT_PHNUM, edata.phdr_num),
    (AT_FLAGS, 0), (AT_ENTRY, edata.entry_addr),
    (AT_BASE, match edata.interp with | some i => i.map_base | none => edata.map_base),
    (AT_UID, 1), (AT_EUID, 1), (AT_GID, 1), (AT_EGID, 1), (AT_SECURE, 0),
    (AT_RANDOM, random_ptr), (AT_EXECFN, filename), (AT_SYSINFO_EHDR, 0), (AT_NULL, 0)]

/-- The stores `SetupAuxVec` makes through `vec`: each `Elf64_auxv_t`, type then value, 16 bytes
after the previous one. -/
def auxStores (vec : BitVec 64) : List (BitVec 64 × BitVec 64) → List Store
  | [] => []
  | e :: es => ⟨vec, u64Bytes e.1 ++ u64Bytes e.2⟩ :: auxStores (vec + 16) es

/-- The loop of `SetupStack` over `argv` (and over `envp`): for each string, its address stored at
`arg_ptr`, its bytes and a NUL copied to `info_block_ptr`, both pointers advanced. Returns the
stores and the final `arg_ptr` and `info_block_ptr`. -/
def copyStrings : List (List (BitVec 8)) → BitVec 64 → BitVec 64 →
    List Store × BitVec 64 × BitVec 64
  | [], arg_ptr, info_block_ptr => ([], arg_ptr, info_block_ptr)
  | arg :: args, arg_ptr, info_block_ptr =>
    let rest := copyStrings args (arg_ptr + 8) (info_block_ptr + (BitVec.ofNat 64 arg.length + 1))
    (⟨arg_ptr, u64Bytes info_block_ptr⟩ :: ⟨info_block_ptr, arg⟩ ::
      ⟨info_block_ptr + BitVec.ofNat 64 arg.length, [0]⟩ :: rest.1, rest.2)

/-- What `SetupStack` leaves: the new stack pointer and the stores it made, in program order. -/
structure StackSetup where
  sp : BitVec 64
  stores : List Store

/-- The stores of `SetupStack` once the frame is reserved at `sp`, the strings going to
`info_block_ptr`: the random bytes, `argc`, the two loops each closed by a NULL, and the auxiliary
vector. `rnd` stands for the bytes `ReadRandom` writes (all 16, or fewer when it fails) and `hwcap`
for what `cpuid` returns. -/
def fillStack (sp info_block_ptr : BitVec 64) (argv envp : List (List (BitVec 8)))
    (edata : ElfData) (hwcap : BitVec 32) (rnd : List (BitVec 8)) : List Store :=
  let filename := info_block_ptr
  let random_ptr := info_block_ptr - 16
  let argvLoop := copyStrings argv (sp + 8) info_block_ptr
  let envpLoop := copyStrings envp (argvLoop.2.1 + 8) argvLoop.2.2
  ⟨random_ptr, rnd.take 16⟩ :: ⟨sp, u64Bytes (BitVec.ofNat 64 argv.length)⟩ ::
    (argvLoop.1 ++ ⟨argvLoop.2.1, u64Bytes 0⟩ :: (envpLoop.1 ++ ⟨envpLoop.2.1, u64Bytes 0⟩ ::
      auxStores (envpLoop.2.1 + 8) (SetupAuxVec hwcap filename edata random_ptr)))

/-- `SetupStack(&sp, argv, envp, edata)`: the size of the frame, computed in `size_t`, then the
stores of `fillStack`. -/
def SetupStack (sp : BitVec 64) (argv envp : List (List (BitVec 8))) (edata : ElfData)
    (hwcap : BitVec 32) (rnd : List (BitVec 8)) : StackSetup :=
  let len := VectorBytes argv + VectorBytes envp
  let info_block_ptr := sp - len
  let len := len + 16
  let len := len + 16 * BitVec.ofNat 64 kNumAuxVectors
  let len := len + (BitVec.ofNat 64 argv.length + BitVec.ofNat 64 envp.length + 3) * 8
  let len := AlignUp len 32
  { sp := sp - len
    stores := fillStack (sp - len) info_block_ptr argv envp edata hwcap rnd }

/-- What `Exec` returns: the stack pointer and the entry point of the first thread. -/
structure ExecInfo where
  sp : BitVec 64
  entry : BitVec 64
  deriving DecidableEq

/-- `Exec(p, mm, pathname, argv, envp)`. `loadELF` is what `LoadELF(mm, pathname)` returns and
`mmapGuard`, `mmapStack` what the two `mm.MMap` calls return (the address mapped, or an errno);
the guard and the stack are `RUNTIME_GUARD_SIZE` and `RUNTIME_STACK_SIZE` bytes. Returns the
`ExecInfo` with the stores `SetupStack` made. -/
def Exec (RUNTIME_GUARD_SIZE RUNTIME_STACK_SIZE : Nat) (loadELF : Except Int ElfData)
    (mmapGuard mmapStack : Except Int (BitVec 64)) (argv envp : List (List (BitVec 8)))
    (hwcap : BitVec 32) (rnd : List (BitVec 8)) : Except Int (ExecInfo × List Store) := do
  let edata ← loadELF
  let entry := match edata.interp with
    | some interp => interp.entry_addr
    | none => edata.entry_addr
  let guard ← mmapGuard
  let rsp := guard + BitVec.ofNat 64 RUNTIME_GUARD_SIZE
  let _ ← mmapStack
  let sp := rsp + BitVec.ofNat 64 RUNTIME_STACK_SIZE
  let S := SetupStack sp argv envp edata hwcap rnd
  return (⟨S.sp, entry⟩, S.stores)

/-- When `Exec` succeeds, the ELF image and the guard mapping were obtained, and the stack was set
up below the top of the stack mapping. -/
theorem Exec_ok_inv {G T : Nat} {loadELF : Except Int ElfData}
    {mmapGuard mmapStack : Except Int (BitVec 64)} {argv envp : List (List (BitVec 8))}
    {hwcap : BitVec 32} {rnd : List (BitVec 8)} {info : ExecInfo} {stores : List Store}
    (h : Exec G T loadELF mmapGuard mmapStack argv envp hwcap rnd = .ok (info, stores)) :
    ∃ edata guard, loadELF = .ok edata ∧ mmapGuard = .ok guard ∧
      info.sp = (SetupStack (guard + BitVec.ofNat 64 G + BitVec.ofNat 64 T) argv envp edata
        hwcap rnd).sp ∧
      stores = (SetupStack (guard + BitVec.ofNat 64 G + BitVec.ofNat 64 T) argv envp edata
        hwcap rnd).stores := by
  rcases loadELF with _ | edata <;> rcases mmapGuard with _ | guard <;>
    rcases mmapStack with _ | _ <;> simp only [Exec, bind, Except.bind, pure, Except.pure,
      reduceCtorEq, Except.ok.injEq, Prod.mk.injEq] at h
  exact ⟨edata, guard, rfl, rfl, h.1 ▸ rfl, h.2.symm⟩

/-! ## Sizes in unbounded arithmetic -/

/-- The bytes the strings of `vec` take with their NULs. -/
def vectorBytes (vec : List (List (BitVec 8))) : Nat := (vec.map fun v => v.length + 1).sum

/-- The bytes of the pointer area: `argc`, the two pointer arrays with their NULLs and the
auxiliary vector. -/
def ptrAreaBytes (argv envp : List (List (BitVec 8))) : Nat :=
  8 * (argv.length + envp.length + 3) + 16 * kNumAuxVectors

/-- The size of the frame `SetupStack` reserves. -/
def frameBytes (argv envp : List (List (BitVec 8))) : Nat :=
  alignUp (vectorBytes argv + vectorBytes envp + 16 + ptrAreaBytes argv envp) 32

@[simp] theorem vectorBytes_nil : vectorBytes [] = 0 := rfl

@[simp] theorem vectorBytes_cons (v : List (BitVec 8)) (vs : List (List (BitVec 8))) :
    vectorBytes (v :: vs) = v.length + 1 + vectorBytes vs := by
  simp [vectorBytes]

theorem length_le_vectorBytes (vec : List (List (BitVec 8))) : vec.length ≤ vectorBytes vec := by
  induction vec <;> simp [*]; omega

theorem length_lt_vectorBytes {vec : List (List (BitVec 8))} {s : List (BitVec 8)}
    (hs : s ∈ vec) : s.length < vectorBytes vec := by
  induction vec with
  | nil => cases hs
  | cons v vs ih =>
    rcases List.mem_cons.1 hs with rfl | hs
    · simp; omega
    · have := ih hs; simp; omega

theorem frameBytes_ge (argv envp : List (List (BitVec 8))) :
    vectorBytes argv + vectorBytes envp + 16 + ptrAreaBytes argv envp ≤ frameBytes argv envp := by
  unfold frameBytes alignUp; omega

theorem foldl_VectorBytes (vec : List (List (BitVec 8))) (acc : BitVec 64) :
    vec.foldl (fun len v => len + (BitVec.ofNat 64 v.length + 1)) acc =
      acc + BitVec.ofNat 64 (vectorBytes vec) := by
  induction vec generalizing acc with
  | nil => simp
  | cons v vs ih =>
    rw [List.foldl_cons, ih, vectorBytes_cons, BitVec.ofNat_add, BitVec.ofNat_add]
    simp only [BitVec.add_assoc]
    rfl

theorem VectorBytes_eq (vec : List (List (BitVec 8))) :
    VectorBytes vec = BitVec.ofNat 64 (vectorBytes vec) :=
  (foldl_VectorBytes vec 0).trans (BitVec.zero_add _)

/-! ## The loop over `argv` and `envp` -/

/-- The addresses of the copies `copyStrings` makes: `info_block_ptr` advanced past each string. -/
def stringPtrs : List (List (BitVec 8)) → BitVec 64 → List (BitVec 64)
  | [], _ => []
  | arg :: args, q => q :: stringPtrs args (q + (BitVec.ofNat 64 arg.length + 1))

@[simp] theorem length_stringPtrs (args : List (List (BitVec 8))) (q : BitVec 64) :
    (stringPtrs args q).length = args.length := by
  induction args generalizing q <;> simp [stringPtrs, *]

theorem copyStrings_ptrs (args : List (List (BitVec 8))) (p q : BitVec 64) :
    (copyStrings args p q).2 =
      (p + BitVec.ofNat 64 (8 * args.length), q + BitVec.ofNat 64 (vectorBytes args)) := by
  induction args generalizing p q with
  | nil => simp [copyStrings]
  | cons a as ih =>
    rw [copyStrings, ih, List.length_cons, Nat.mul_succ, vectorBytes_cons,
      BitVec.ofNat_add (8 * as.length), BitVec.ofNat_add (a.length + 1), BitVec.ofNat_add a.length 1,
      BitVec.add_assoc p, BitVec.add_comm 8, BitVec.add_assoc q]
    rfl

/-- Adding a length that stays below the top of the address space does not wrap. -/
theorem toNat_add_ofNat {p : BitVec 64} {n : Nat} (h : p.toNat + n < 2 ^ 64) :
    (p + BitVec.ofNat 64 n).toNat = p.toNat + n := by
  rw [BitVec.toNat_add, BitVec.toNat_ofNat]; omega

theorem toNat_add_succ {p : BitVec 64} {n : Nat} (h : p.toNat + n + 1 < 2 ^ 64) :
    (p + (BitVec.ofNat 64 n + 1)).toNat = p.toNat + n + 1 := by
  rw [show BitVec.ofNat 64 n + 1 = BitVec.ofNat 64 (n + 1) from (BitVec.ofNat_add n 1).symm]
  exact toNat_add_ofNat h

/-- **The stores of one loop stay in its pointer array and its string block.** -/
theorem copyStrings_within (args : List (List (BitVec 8))) (p q : BitVec 64)
    (hp : p.toNat + 8 * args.length < 2 ^ 64) (hq : q.toNat + vectorBytes args < 2 ^ 64) :
    InZones (copyStrings args p q).1 p.toNat (p.toNat + 8 * args.length) q.toNat
      (q.toNat + vectorBytes args) := by
  induction args generalizing p q with
  | nil => exact InZones.nil
  | cons a as ih =>
    simp only [List.length_cons, vectorBytes_cons] at hp hq
    have hp8 : (p + 8).toNat = p.toNat + 8 := by bv_omega
    have hq1 := toNat_add_succ (p := q) (n := a.length) (by omega)
    have hqa := toNat_add_ofNat (p := q) (n := a.length) (by omega)
    have hrest := ih (p + 8) (q + (BitVec.ofNat 64 a.length + 1)) (by omega) (by omega)
    intro s hs
    simp only [copyStrings, List.mem_cons] at hs
    rcases hs with rfl | rfl | rfl | hs
    · exact .inl ((Store.within_mk rfl (length_u64Bytes _)).mono le_rfl
        (by simp only [List.length_cons]; omega))
    · exact .inr ((Store.within_mk rfl rfl).mono le_rfl (by rw [vectorBytes_cons]; omega))
    · exact .inr ⟨by simp only [hqa]; omega,
        by simp only [hqa, List.length_singleton, vectorBytes_cons]; omega⟩
    · rcases hrest s hs with h | h
      · exact .inl (h.mono (by omega) (by simp only [hp8, List.length_cons]; omega))
      · exact .inr (h.mono (by omega) (by simp only [hq1, vectorBytes_cons]; omega))

/-- **The stores of one loop do not overlap.** -/
theorem copyStrings_pairwise (args : List (List (BitVec 8))) (p q : BitVec 64)
    (hp : p.toNat + 8 * args.length < 2 ^ 64) (hq : q.toNat + vectorBytes args < 2 ^ 64)
    (hpq : p.toNat + 8 * args.length ≤ q.toNat ∨ q.toNat + vectorBytes args ≤ p.toNat) :
    (copyStrings args p q).1.Pairwise Store.Disjoint := by
  induction args generalizing p q with
  | nil => simp [copyStrings]
  | cons a as ih =>
    simp only [List.length_cons, vectorBytes_cons] at hp hq hpq
    have hp8 : (p + 8).toNat = p.toNat + 8 := by bv_omega
    have hq1 := toNat_add_succ (p := q) (n := a.length) (by omega)
    have hqa := toNat_add_ofNat (p := q) (n := a.length) (by omega)
    have hrest := copyStrings_within as (p + 8) (q + (BitVec.ofNat 64 a.length + 1))
      (by omega) (by omega)
    simp only [copyStrings, List.pairwise_cons, List.mem_cons, forall_eq_or_imp]
    refine ⟨⟨?_, ?_, fun s hs => ?_⟩, ⟨?_, fun s hs => ?_⟩, fun s hs => ?_,
      ih _ _ (by omega) (by omega) (by omega)⟩
    all_goals first | have := hrest s hs | skip
    all_goals
      simp only [Store.Disjoint, Store.Within, length_u64Bytes, List.length_singleton, hp8, hq1,
        hqa] at *
      omega

/-! ## The auxiliary vector -/

@[simp] theorem length_auxStores (v : BitVec 64) (es : List (BitVec 64 × BitVec 64)) :
    (auxStores v es).length = es.length := by
  induction es generalizing v <;> simp [auxStores, *]

theorem auxStores_within (es : List (BitVec 64 × BitVec 64)) (v : BitVec 64)
    (hv : v.toNat + 16 * es.length < 2 ^ 64) :
    ∀ s ∈ auxStores v es, s.Within v.toNat (v.toNat + 16 * es.length) := by
  induction es generalizing v with
  | nil => simp [auxStores]
  | cons e es ih =>
    simp only [List.length_cons] at hv
    have hv16 : (v + 16).toNat = v.toNat + 16 := by bv_omega
    intro s hs
    simp only [auxStores, List.mem_cons] at hs
    rcases hs with rfl | hs
    · exact (Store.within_mk (m := 16) rfl (by simp)).mono le_rfl
        (by simp only [List.length_cons]; omega)
    · exact (ih (v + 16) (by omega) s hs).mono (by omega)
        (by simp only [hv16, List.length_cons]; omega)

theorem auxStores_pairwise (es : List (BitVec 64 × BitVec 64)) (v : BitVec 64)
    (hv : v.toNat + 16 * es.length < 2 ^ 64) : (auxStores v es).Pairwise Store.Disjoint := by
  induction es generalizing v with
  | nil => simp [auxStores]
  | cons e es ih =>
    simp only [List.length_cons] at hv
    have hv16 : (v + 16).toNat = v.toNat + 16 := by bv_omega
    simp only [auxStores, List.pairwise_cons]
    refine ⟨fun s hs => ?_, ih _ (by omega)⟩
    have := auxStores_within es (v + 16) (by omega) s hs
    simp only [Store.Disjoint, Store.Within, hv16, List.length_append, length_u64Bytes] at *
    omega

@[simp] theorem length_SetupAuxVec (hwcap : BitVec 32) (filename : BitVec 64) (edata : ElfData)
    (random_ptr : BitVec 64) : (SetupAuxVec hwcap filename edata random_ptr).length =
      kNumAuxVectors := rfl

/-! ## The layout of a frame -/

/-- A frame at `base` with its strings from `info`: the pointer area and the random bytes fit
below the strings, and the strings below the top of the address space. -/
structure FrameFits (base info : BitVec 64) (argv envp : List (List (BitVec 8))) : Prop where
  ptrs_le : base.toNat + ptrAreaBytes argv envp + 16 ≤ info.toNat
  top_lt : info.toNat + vectorBytes argv + vectorBytes envp < 2 ^ 64

namespace FrameFits

variable {base info : BitVec 64} {argv envp : List (List (BitVec 8))}
  (h : FrameFits base info argv envp)
include h

theorem toNat_argvPtrs : (base + 8).toNat = base.toNat + 8 := by
  have := h.ptrs_le; unfold ptrAreaBytes at this; bv_omega

theorem toNat_argvEnd :
    (base + 8 + BitVec.ofNat 64 (8 * argv.length)).toNat = base.toNat + 8 + 8 * argv.length := by
  have := h.ptrs_le; unfold ptrAreaBytes at this
  rw [toNat_add_ofNat (by rw [h.toNat_argvPtrs]; omega), h.toNat_argvPtrs]

theorem toNat_envpPtrs :
    (base + 8 + BitVec.ofNat 64 (8 * argv.length) + 8).toNat = base.toNat + 16 + 8 * argv.length := by
  have := h.ptrs_le; unfold ptrAreaBytes at this
  have := h.toNat_argvEnd; bv_omega

theorem toNat_envpEnd :
    (base + 8 + BitVec.ofNat 64 (8 * argv.length) + 8 + BitVec.ofNat 64 (8 * envp.length)).toNat =
      base.toNat + 16 + 8 * argv.length + 8 * envp.length := by
  have := h.ptrs_le; unfold ptrAreaBytes at this
  rw [toNat_add_ofNat (by rw [h.toNat_envpPtrs]; omega), h.toNat_envpPtrs]

theorem toNat_auxv :
    (base + 8 + BitVec.ofNat 64 (8 * argv.length) + 8 + BitVec.ofNat 64 (8 * envp.length) +
      8).toNat = base.toNat + 24 + 8 * argv.length + 8 * envp.length := by
  have := h.ptrs_le; unfold ptrAreaBytes at this
  have := h.toNat_envpEnd; bv_omega

theorem toNat_envpStrings :
    (info + BitVec.ofNat 64 (vectorBytes argv)).toNat = info.toNat + vectorBytes argv :=
  toNat_add_ofNat (by have := h.top_lt; omega)

theorem toNat_random : (info - 16).toNat = info.toNat - 16 := by
  have := h.ptrs_le; bv_omega

theorem argv_zones : InZones (copyStrings argv (base + 8) info).1 (base.toNat + 8)
    (base.toNat + 8 + 8 * argv.length) info.toNat (info.toNat + vectorBytes argv) := by
  have := h.ptrs_le; have := h.top_lt; unfold ptrAreaBytes at *
  simpa only [h.toNat_argvPtrs] using
    copyStrings_within argv (base + 8) info (by rw [h.toNat_argvPtrs]; omega) (by omega)

theorem argv_pairwise : (copyStrings argv (base + 8) info).1.Pairwise Store.Disjoint := by
  have := h.ptrs_le; have := h.top_lt; unfold ptrAreaBytes at *
  exact copyStrings_pairwise argv (base + 8) info (by rw [h.toNat_argvPtrs]; omega) (by omega)
    (.inl (by rw [h.toNat_argvPtrs]; omega))

theorem envp_zones : InZones (copyStrings envp (base + 8 + BitVec.ofNat 64 (8 * argv.length) + 8)
    (info + BitVec.ofNat 64 (vectorBytes argv))).1 (base.toNat + 16 + 8 * argv.length)
    (base.toNat + 16 + 8 * argv.length + 8 * envp.length) (info.toNat + vectorBytes argv)
    (info.toNat + vectorBytes argv + vectorBytes envp) := by
  have := h.ptrs_le; have := h.top_lt; unfold ptrAreaBytes at *
  have hz := copyStrings_within envp (base + 8 + BitVec.ofNat 64 (8 * argv.length) + 8)
    (info + BitVec.ofNat 64 (vectorBytes argv)) (by rw [h.toNat_envpPtrs]; omega)
    (by rw [h.toNat_envpStrings]; omega)
  rwa [h.toNat_envpPtrs, h.toNat_envpStrings] at hz

theorem envp_pairwise : (copyStrings envp (base + 8 + BitVec.ofNat 64 (8 * argv.length) + 8)
    (info + BitVec.ofNat 64 (vectorBytes argv))).1.Pairwise Store.Disjoint := by
  have := h.ptrs_le; have := h.top_lt; unfold ptrAreaBytes at *
  exact copyStrings_pairwise envp (base + 8 + BitVec.ofNat 64 (8 * argv.length) + 8)
    (info + BitVec.ofNat 64 (vectorBytes argv)) (by rw [h.toNat_envpPtrs]; omega)
    (by rw [h.toNat_envpStrings]; omega)
    (.inl (by rw [h.toNat_envpPtrs, h.toNat_envpStrings]; omega))

theorem aux_zones (es : List (BitVec 64 × BitVec 64)) (hes : es.length = kNumAuxVectors) :
    InZones (auxStores (base + 8 + BitVec.ofNat 64 (8 * argv.length) + 8 +
      BitVec.ofNat 64 (8 * envp.length) + 8) es) (base.toNat + 24 + 8 * argv.length + 8 * envp.length)
      (base.toNat + ptrAreaBytes argv envp) (base.toNat + 24 + 8 * argv.length + 8 * envp.length)
      (base.toNat + ptrAreaBytes argv envp) := by
  have := h.ptrs_le; unfold ptrAreaBytes kNumAuxVectors at *
  have hz := auxStores_within es _ (by rw [h.toNat_auxv, hes]; omega)
  rw [h.toNat_auxv, hes] at hz
  exact fun s hs => .inl ((hz s hs).mono le_rfl (by omega))

theorem aux_pairwise (es : List (BitVec 64 × BitVec 64)) (hes : es.length = kNumAuxVectors) :
    (auxStores (base + 8 + BitVec.ofNat 64 (8 * argv.length) + 8 +
      BitVec.ofNat 64 (8 * envp.length) + 8) es).Pairwise Store.Disjoint := by
  have := h.ptrs_le; unfold ptrAreaBytes kNumAuxVectors at *
  exact auxStores_pairwise es _ (by rw [h.toNat_auxv, hes]; omega)

end FrameFits

section Fill

variable {base info : BitVec 64} {argv envp : List (List (BitVec 8))} {edata : ElfData}
  {hwcap : BitVec 32} {rnd : List (BitVec 8)}

theorem fillStack_eq : fillStack base info argv envp edata hwcap rnd =
    ⟨info - 16, rnd.take 16⟩ :: ⟨base, u64Bytes (BitVec.ofNat 64 argv.length)⟩ ::
      ((copyStrings argv (base + 8) info).1 ++
        ⟨base + 8 + BitVec.ofNat 64 (8 * argv.length), u64Bytes 0⟩ ::
        ((copyStrings envp (base + 8 + BitVec.ofNat 64 (8 * argv.length) + 8)
          (info + BitVec.ofNat 64 (vectorBytes argv))).1 ++
          ⟨base + 8 + BitVec.ofNat 64 (8 * argv.length) + 8 + BitVec.ofNat 64 (8 * envp.length),
            u64Bytes 0⟩ ::
          auxStores (base + 8 + BitVec.ofNat 64 (8 * argv.length) + 8 +
            BitVec.ofNat 64 (8 * envp.length) + 8) (SetupAuxVec hwcap info edata (info - 16)))) := by
  simp only [fillStack, copyStrings_ptrs]

theorem singleton_zones {s : Store} {a b : Nat} (h : s.Within a b) : InZones [s] a b a b :=
  InZones.cons (.inl h) InZones.nil

/-- **The stores of a frame do not overlap, and lie between its base and the end of the
strings.** -/
theorem fillStack_layout (h : FrameFits base info argv envp) :
    InZones (fillStack base info argv envp edata hwcap rnd) base.toNat
      (info.toNat + vectorBytes argv + vectorBytes envp) base.toNat
      (info.toNat + vectorBytes argv + vectorBytes envp) ∧
    (fillStack base info argv envp edata hwcap rnd).Pairwise Store.Disjoint := by
  have hp := h.ptrs_le
  have ht := h.top_lt
  unfold ptrAreaBytes kNumAuxVectors at hp
  have hn1 := h.toNat_argvEnd
  have hn2 := h.toNat_envpEnd
  have hr := h.toNat_random
  have zr := @Store.within_mk _ (rnd.take 16) _ _ hr rfl
  have zc := @Store.within_mk base (u64Bytes (BitVec.ofNat 64 argv.length)) _ _ rfl
    (length_u64Bytes _)
  have zn1 := @Store.within_mk _ (u64Bytes 0) _ _ hn1 (length_u64Bytes 0)
  have zn2 := @Store.within_mk _ (u64Bytes 0) _ _ hn2 (length_u64Bytes 0)
  have zA := h.argv_zones
  have zE := h.envp_zones
  have zX := h.aux_zones _ (length_SetupAuxVec hwcap info edata (info - 16))
  unfold ptrAreaBytes kNumAuxVectors at zX
  have lr : (rnd.take 16).length ≤ 16 := List.length_take_le _ _
  rw [fillStack_eq]
  -- the tail after `n2`, then after `envp`, `n1`, `argv`, `argc`, the random bytes
  have p5 := InZones.pairwise_append (singleton_zones zn2) zX (List.pairwise_singleton _ _)
    (h.aux_pairwise _ rfl) (by omega)
  have z5 := InZones.append_of_le (singleton_zones zn2) zX (w := base.toNat + 16 + 8 * argv.length
    + 8 * envp.length) (x := base.toNat + 8 * argv.length + 8 * envp.length + 312) (y := base.toNat
    + 16 + 8 * argv.length + 8 * envp.length) (z := base.toNat + 8 * argv.length + 8 * envp.length
    + 312) (by omega) (by omega) (by omega) (by omega)
  have p4 := InZones.pairwise_append zE z5 h.envp_pairwise p5 (by omega)
  have z4 := InZones.append_of_le zE z5 (w := base.toNat + 16 + 8 * argv.length)
    (x := base.toNat + 8 * argv.length + 8 * envp.length + 312)
    (y := info.toNat + vectorBytes argv) (z := info.toNat + vectorBytes argv + vectorBytes envp)
    (by omega) (by omega) (by omega) (by omega)
  have p3 := InZones.pairwise_append (singleton_zones zn1) z4 (List.pairwise_singleton _ _) p4
    (by omega)
  have z3 := InZones.append_of_le (singleton_zones zn1) z4 (w := base.toNat + 8 + 8 * argv.length)
    (x := base.toNat + 8 * argv.length + 8 * envp.length + 312)
    (y := info.toNat + vectorBytes argv) (z := info.toNat + vectorBytes argv + vectorBytes envp)
    (by omega) (by omega) (by omega) (by omega)
  have p2 := InZones.pairwise_append zA z3 h.argv_pairwise p3 (by omega)
  have z2 := InZones.append_of_le zA z3 (w := base.toNat + 8)
    (x := base.toNat + 8 * argv.length + 8 * envp.length + 312)
    (y := info.toNat) (z := info.toNat + vectorBytes argv + vectorBytes envp)
    (by omega) (by omega) (by omega) (by omega)
  have p1 := InZones.pairwise_append (singleton_zones zc) z2 (List.pairwise_singleton _ _) p2
    (by omega)
  have z1 := InZones.append_of_le (singleton_zones zc) z2 (w := base.toNat)
    (x := base.toNat + 8 * argv.length + 8 * envp.length + 312)
    (y := info.toNat) (z := info.toNat + vectorBytes argv + vectorBytes envp)
    (by omega) (by omega) (by omega) (by omega)
  refine ⟨InZones.append_of_le (singleton_zones zr) z1 (by omega) (by omega) (by omega) (by omega),
    InZones.pairwise_append (singleton_zones zr) z1 (List.pairwise_singleton _ _) p1 (by omega)⟩

end Fill

/-! ## `SetupStack` -/

section Setup

variable {sp : BitVec 64} {argv envp : List (List (BitVec 8))} {edata : ElfData}
  {hwcap : BitVec 32} {rnd : List (BitVec 8)}

/-- The size `SetupStack` computes in `size_t` is the unbounded one, taken modulo 2^64. -/
theorem SetupStack_sp : (SetupStack sp argv envp edata hwcap rnd).sp = sp - AlignUp
    (BitVec.ofNat 64 (vectorBytes argv + vectorBytes envp + 16 + ptrAreaBytes argv envp)) 32 := by
  simp only [SetupStack, VectorBytes_eq, ptrAreaBytes, kNumAuxVectors]
  rw [show (16 : BitVec 64) * BitVec.ofNat 64 18 = 288 from rfl]
  refine congrArg (fun t => sp - AlignUp t 32) ?_
  simp only [← BitVec.natCast_eq_ofNat]
  push_cast
  ring

theorem SetupStack_stores : (SetupStack sp argv envp edata hwcap rnd).stores =
    fillStack (SetupStack sp argv envp edata hwcap rnd).sp
      (sp - BitVec.ofNat 64 (vectorBytes argv + vectorBytes envp)) argv envp edata hwcap rnd := by
  simp only [SetupStack, VectorBytes_eq, BitVec.ofNat_add]

theorem SetupStack_sp_toNat (hfit : frameBytes argv envp ≤ sp.toNat) :
    (SetupStack sp argv envp edata hwcap rnd).sp.toNat = sp.toNat - frameBytes argv envp := by
  have hraw := frameBytes_ge argv envp
  have hsp := sp.isLt
  have hlen : (AlignUp (BitVec.ofNat 64 (vectorBytes argv + vectorBytes envp + 16 +
      ptrAreaBytes argv envp)) 32).toNat = frameBytes argv envp := by
    unfold frameBytes alignUp at *
    rw [toNat_AlignUp] <;> rw [BitVec.toNat_ofNat, Nat.mod_eq_of_lt (by omega)]
    · rfl
    · omega
  rw [SetupStack_sp, BitVec.toNat_sub_of_le (BitVec.le_def.2 (by omega)), hlen]

/-- The strings of `argv` and `envp` end at the stack top. -/
theorem toNat_info_block (hfit : frameBytes argv envp ≤ sp.toNat) :
    (sp - BitVec.ofNat 64 (vectorBytes argv + vectorBytes envp)).toNat =
      sp.toNat - (vectorBytes argv + vectorBytes envp) := by
  have hraw := frameBytes_ge argv envp
  have hv : (BitVec.ofNat 64 (vectorBytes argv + vectorBytes envp)).toNat =
      vectorBytes argv + vectorBytes envp := by
    rw [BitVec.toNat_ofNat, Nat.mod_eq_of_lt (by have := sp.isLt; omega)]
  rw [BitVec.toNat_sub_of_le (BitVec.le_def.2 (by omega)), hv]

theorem SetupStack_fits (hfit : frameBytes argv envp ≤ sp.toNat) :
    FrameFits (SetupStack sp argv envp edata hwcap rnd).sp
      (sp - BitVec.ofNat 64 (vectorBytes argv + vectorBytes envp)) argv envp := by
  have hraw := frameBytes_ge argv envp
  have hsp := sp.isLt
  constructor <;> rw [toNat_info_block hfit] <;> [rw [SetupStack_sp_toNat hfit]; skip] <;> omega

/-- **Every store of `SetupStack` lies in the frame `[sp', sp)`, and no two overlap**, when the
frame fits below `sp`. -/
theorem SetupStack_layout (hfit : frameBytes argv envp ≤ sp.toNat) :
    (∀ s ∈ (SetupStack sp argv envp edata hwcap rnd).stores,
      s.Within (SetupStack sp argv envp edata hwcap rnd).sp.toNat sp.toNat) ∧
    (SetupStack sp argv envp edata hwcap rnd).stores.Pairwise Store.Disjoint := by
  have h := @SetupStack_fits sp argv envp edata hwcap rnd hfit
  have htop : (sp - BitVec.ofNat 64 (vectorBytes argv + vectorBytes envp)).toNat +
      vectorBytes argv + vectorBytes envp = sp.toNat := by
    have := frameBytes_ge argv envp; rw [toNat_info_block hfit]; omega
  obtain ⟨hz, hp⟩ := @fillStack_layout _ _ argv envp edata hwcap rnd h
  rw [htop] at hz
  rw [SetupStack_stores]
  exact ⟨fun s hs => (hz s hs).elim id id, hp⟩

end Setup

end Junction
