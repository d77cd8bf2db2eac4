import Junction.Kernel.Exec

/-!
# Reading the initial stack back

A new process finds on its stack, from `sp` upward: `argc`, `argc` pointers to the arguments and a
NULL, pointers to the environment strings up to a NULL, and the auxiliary vector up to its
`AT_NULL` entry (the System V AMD64 ABI). `decodeStack` reads memory that way; it is the
specification `SetupStack` is checked against.

* `SetupStack_decode`: when the frame fits below `sp`, decoding the memory `SetupStack` leaves
  at the new `sp` gives back `argv`, `envp` and the entries of `SetupAuxVec` exactly.
* `Exec_stack_within`: when the frame fits in the stack mapping, the stack `Exec` sets up lies in
  it, and so do the pointers it holds, `AT_EXECFN` as soon as there is a string.
* `Exec_stack_escapes`: `Exec` checks no size: with no string `AT_EXECFN` points one byte past the
  mapping, and one long argument puts `argc` below it.
-/

namespace Junction

/-- The initial stack as the process reads it. -/
structure InitialStack where
  argc : BitVec 64
  argvPtrs : List (BitVec 64)
  envpPtrs : List (BitVec 64)
  auxv : List (BitVec 64 × BitVec 64)
  argv : List (List (BitVec 8))
  envp : List (List (BitVec 8))
  deriving DecidableEq

namespace Mem

/-- `n` words from `a` upward. -/
def readWords (m : Mem) (a : BitVec 64) : Nat → List (BitVec 64)
  | 0 => []
  | n + 1 => m.loadU64 a :: m.readWords (a + 8) n

/-- The words from `a` up to a NULL word, looking at no more than `fuel` words. -/
def readWordsToNull (m : Mem) (a : BitVec 64) : Nat → Option (List (BitVec 64))
  | 0 => none
  | fuel + 1 =>
    if m.loadU64 a = 0 then some [] else (m.readWordsToNull (a + 8) fuel).map (m.loadU64 a :: ·)

/-- The auxiliary vector from `a`: (type, value) pairs up to and including the one of type
`AT_NULL`, looking at no more than `fuel` entries. -/
def readAuxv (m : Mem) (a : BitVec 64) : Nat → Option (List (BitVec 64 × BitVec 64))
  | 0 => none
  | fuel + 1 =>
    if m.loadU64 a = AT_NULL then some [(m.loadU64 a, m.loadU64 (a + 8))]
    else (m.readAuxv (a + 16) fuel).map ((m.loadU64 a, m.loadU64 (a + 8)) :: ·)

end Mem

/-- The process's reading of its initial stack at `sp`; the search for each NULL and NUL is
bounded by the size of the address space. -/
def decodeStack (m : Mem) (sp : BitVec 64) : Option InitialStack :=
  let fuel := 2 ^ 64
  let argc := m.loadU64 sp
  let argvPtrs := m.readWords (sp + 8) argc.toNat
  let argvNull := sp + 8 + 8 * argc
  if m.loadU64 argvNull ≠ 0 then none
  else do
    let envpPtrs ← m.readWordsToNull (argvNull + 8) fuel
    let auxv ← m.readAuxv (argvNull + 8 + 8 * BitVec.ofNat 64 envpPtrs.length + 8) fuel
    let argv ← argvPtrs.mapM (m.readCStr · fuel)
    let envp ← envpPtrs.mapM (m.readCStr · fuel)
    pure ⟨argc, argvPtrs, envpPtrs, auxv, argv, envp⟩

/-! ## Reading back pairwise disjoint stores -/

section Stores

variable {m : Mem} {ss : List Store}
  (hp : ss.Pairwise Store.Disjoint) (hw : ∀ t ∈ ss, t.NoWrap)
include hp hw

theorem loadU64_of_mem {a w : BitVec 64} (hs : (⟨a, u64Bytes w⟩ : Store) ∈ ss) :
    (m.storeAll ss).loadU64 a = w :=
  Mem.loadU64_of_read (by simpa using Mem.read_storeAll_of_mem (m := m) hp hw hs)

theorem readWords_copyStrings (args : List (List (BitVec 8))) (p q : BitVec 64)
    (hsub : (copyStrings args p q).1 ⊆ ss) :
    (m.storeAll ss).readWords p args.length = stringPtrs args q := by
  induction args generalizing p q with
  | nil => rfl
  | cons a as ih =>
    simp only [copyStrings, List.cons_subset] at hsub
    rw [List.length_cons, Mem.readWords, stringPtrs, loadU64_of_mem hp hw hsub.1, ih _ _ hsub.2.2.2]

theorem readWordsToNull_copyStrings (args : List (List (BitVec 8))) (p q : BitVec 64) (fuel : Nat)
    (hsub : (copyStrings args p q).1 ⊆ ss)
    (hnull : (⟨p + BitVec.ofNat 64 (8 * args.length), u64Bytes 0⟩ : Store) ∈ ss)
    (hne : ∀ x ∈ stringPtrs args q, x ≠ 0) (hf : args.length < fuel) :
    (m.storeAll ss).readWordsToNull p fuel = some (stringPtrs args q) := by
  induction args generalizing p q fuel with
  | nil =>
    obtain ⟨fuel, rfl⟩ : ∃ f, fuel = f + 1 := ⟨fuel - 1, by simp at hf; omega⟩
    simp only [List.length_nil, Nat.mul_zero, BitVec.add_zero] at hnull
    simp [Mem.readWordsToNull, loadU64_of_mem hp hw hnull, stringPtrs]
  | cons a as ih =>
    obtain ⟨fuel, rfl⟩ : ∃ f, fuel = f + 1 := ⟨fuel - 1, by simp at hf; omega⟩
    simp only [copyStrings, List.cons_subset] at hsub
    simp only [stringPtrs, List.mem_cons, forall_eq_or_imp] at hne
    have hnull' : (⟨p + 8 + BitVec.ofNat 64 (8 * as.length), u64Bytes 0⟩ : Store) ∈ ss := by
      rwa [List.length_cons, Nat.mul_succ, BitVec.ofNat_add, BitVec.add_comm _ (BitVec.ofNat 64 8),
        ← BitVec.add_assoc] at hnull
    rw [Mem.readWordsToNull, loadU64_of_mem hp hw hsub.1, if_neg hne.1,
      ih _ _ _ hsub.2.2.2 hnull' hne.2 (by simp at hf; omega)]
    rfl

theorem readCStr_copyStrings (args : List (List (BitVec 8))) (p q : BitVec 64) (fuel : Nat)
    (hsub : (copyStrings args p q).1 ⊆ ss) (hnul : ∀ s ∈ args, 0 ∉ s)
    (hf : ∀ s ∈ args, s.length < fuel) :
    (stringPtrs args q).mapM ((m.storeAll ss).readCStr · fuel) = some args := by
  induction args generalizing p q with
  | nil => rfl
  | cons a as ih =>
    simp only [copyStrings, List.cons_subset] at hsub
    simp only [List.mem_cons, forall_eq_or_imp] at hnul hf
    have hread : (m.storeAll ss).read q (a.length + 1) = a ++ [0] := by
      have hnul := Mem.read_storeAll_of_mem (m := m) hp hw hsub.2.2.1
      dsimp only [List.length_singleton] at hnul
      rw [Mem.read_add, Mem.read_storeAll_of_mem hp hw hsub.2.1, hnul]
    rw [stringPtrs, List.mapM_cons, Mem.readCStr_of_read hread hnul.1 hf.1,
      ih _ _ hsub.2.2.2 hnul.2 hf.2]
    rfl

theorem readAuxv_auxStores (init : List (BitVec 64 × BitVec 64)) (x v : BitVec 64) (fuel : Nat)
    (hsub : auxStores v (init ++ [(AT_NULL, x)]) ⊆ ss) (hne : ∀ e ∈ init, e.1 ≠ AT_NULL)
    (hf : init.length < fuel) :
    (m.storeAll ss).readAuxv v fuel = some (init ++ [(AT_NULL, x)]) := by
  have hentry : ∀ {a t y : BitVec 64}, (⟨a, u64Bytes t ++ u64Bytes y⟩ : Store) ∈ ss →
      (m.storeAll ss).loadU64 a = t ∧ (m.storeAll ss).loadU64 (a + 8) = y := by
    intro a t y hs
    have hread := Mem.read_storeAll_of_mem (m := m) hp hw hs
    simp only [List.length_append, length_u64Bytes] at hread
    rw [Mem.read_add] at hread
    obtain ⟨h₁, h₂⟩ := List.append_inj hread (by simp)
    exact ⟨Mem.loadU64_of_read h₁, Mem.loadU64_of_read h₂⟩
  induction init generalizing v fuel with
  | nil =>
    obtain ⟨fuel, rfl⟩ : ∃ f, fuel = f + 1 := ⟨fuel - 1, by simp at hf; omega⟩
    simp only [List.nil_append, auxStores, List.cons_subset] at hsub
    obtain ⟨h₁, h₂⟩ := hentry hsub.1
    rw [Mem.readAuxv, h₁, if_pos rfl, h₂]
    rfl
  | cons e init ih =>
    obtain ⟨fuel, rfl⟩ : ∃ f, fuel = f + 1 := ⟨fuel - 1, by simp at hf; omega⟩
    simp only [List.cons_append, auxStores, List.cons_subset] at hsub
    simp only [List.mem_cons, forall_eq_or_imp] at hne
    obtain ⟨h₁, h₂⟩ := hentry hsub.1
    rw [Mem.readAuxv, h₁, h₂, if_neg hne.1, ih _ _ hsub.2 hne.2 (by simp at hf; omega)]
    rfl

end Stores

/-! ## The pointers to the strings -/

theorem stringPtrs_bounds (args : List (List (BitVec 8))) (q : BitVec 64)
    (hq : q.toNat + vectorBytes args < 2 ^ 64) :
    ∀ x ∈ (stringPtrs args q).zip args,
      q.toNat ≤ x.1.toNat ∧ x.1.toNat + x.2.length + 1 ≤ q.toNat + vectorBytes args := by
  induction args generalizing q with
  | nil => simp [stringPtrs]
  | cons a as ih =>
    rw [vectorBytes_cons] at hq
    have hq1 := toNat_add_succ (p := q) (n := a.length) (by omega)
    intro x hx
    simp only [stringPtrs, List.zip_cons_cons, List.mem_cons] at hx
    rcases hx with rfl | hx
    · simp only [vectorBytes_cons]; omega
    · have := ih _ (by omega) x hx
      rw [hq1, vectorBytes_cons] at *
      omega

theorem stringPtrs_mem_bounds (args : List (List (BitVec 8))) (q : BitVec 64)
    (hq : q.toNat + vectorBytes args < 2 ^ 64) :
    ∀ x ∈ stringPtrs args q, q.toNat ≤ x.toNat ∧ x.toNat < q.toNat + vectorBytes args := by
  intro x hx
  obtain ⟨s, hs⟩ : ∃ s, (x, s) ∈ (stringPtrs args q).zip args := by
    obtain ⟨i, hi, rfl⟩ := List.getElem_of_mem hx
    exact ⟨args.get ⟨i, by simpa using hi⟩, by
      rw [List.mem_iff_getElem]
      exact ⟨i, by simpa using hi, by simp⟩⟩
  have := stringPtrs_bounds args q hq (x, s) hs
  exact ⟨this.1, by dsimp only at this; omega⟩

theorem eight_mul_ofNat (n : Nat) : 8 * BitVec.ofNat 64 n = BitVec.ofNat 64 (8 * n) := by
  simp only [← BitVec.natCast_eq_ofNat]
  push_cast
  rfl

/-! ## The round trip -/

theorem SetupAuxVec_eq (hwcap : BitVec 32) (filename : BitVec 64) (edata : ElfData)
    (random_ptr : BitVec 64) : SetupAuxVec hwcap filename edata random_ptr =
      (SetupAuxVec hwcap filename edata random_ptr).dropLast ++ [(AT_NULL, 0)] := rfl

theorem SetupAuxVec_types (hwcap : BitVec 32) (filename : BitVec 64) (edata : ElfData)
    (random_ptr : BitVec 64) :
    ∀ e ∈ (SetupAuxVec hwcap filename edata random_ptr).dropLast, e.1 ≠ AT_NULL := by
  simp only [SetupAuxVec, List.dropLast, List.forall_mem_cons]
  decide

section Decode

variable {sp : BitVec 64} {argv envp : List (List (BitVec 8))} {edata : ElfData}
  {hwcap : BitVec 32} {rnd : List (BitVec 8)}

/-- **Decoding the stack `SetupStack` builds gives back its inputs**: `argc`, the pointers to the
copies of `argv` and `envp`, the strings themselves and the auxiliary vector, when the frame fits
below `sp` and no string holds a NUL. -/
theorem SetupStack_decode (m : Mem) (hfit : frameBytes argv envp ≤ sp.toNat)
    (hnul : ∀ s ∈ argv ++ envp, 0 ∉ s) :
    decodeStack (m.storeAll (SetupStack sp argv envp edata hwcap rnd).stores)
      (SetupStack sp argv envp edata hwcap rnd).sp =
    some ⟨BitVec.ofNat 64 argv.length,
      stringPtrs argv (sp - BitVec.ofNat 64 (vectorBytes argv + vectorBytes envp)),
      stringPtrs envp (sp - BitVec.ofNat 64 (vectorBytes argv + vectorBytes envp) +
        BitVec.ofNat 64 (vectorBytes argv)),
      SetupAuxVec hwcap (sp - BitVec.ofNat 64 (vectorBytes argv + vectorBytes envp)) edata
        (sp - BitVec.ofNat 64 (vectorBytes argv + vectorBytes envp) - 16), argv, envp⟩ := by
  obtain ⟨hwi, hp⟩ := @SetupStack_layout sp argv envp edata hwcap rnd hfit
  have hw : ∀ t ∈ (SetupStack sp argv envp edata hwcap rnd).stores, t.NoWrap :=
    fun t ht => (hwi t ht).noWrap (Nat.le_of_lt sp.isLt)
  have h := @SetupStack_fits sp argv envp edata hwcap rnd hfit
  have hraw := frameBytes_ge argv envp
  have hsp := sp.isLt
  have hfs := h.ptrs_le
  have hft := h.top_lt
  unfold ptrAreaBytes at hfs
  rw [SetupStack_stores, fillStack_eq] at hp hw ⊢
  generalize (SetupStack sp argv envp edata hwcap rnd).sp = base at *
  generalize sp - BitVec.ofNat 64 (vectorBytes argv + vectorBytes envp) = info at *
  have hla := length_le_vectorBytes argv
  have hle := length_le_vectorBytes envp
  have hargc := loadU64_of_mem (m := m) hp hw (a := base) (w := BitVec.ofNat 64 argv.length)
    (by simp)
  have hcnt : (BitVec.ofNat 64 argv.length).toNat = argv.length := by
    rw [BitVec.toNat_ofNat, Nat.mod_eq_of_lt (by omega)]
  have hnull1 := loadU64_of_mem (m := m) hp hw
    (a := base + 8 + BitVec.ofNat 64 (8 * argv.length)) (w := 0) (by simp)
  have hargv := readWords_copyStrings (m := m) hp hw argv (base + 8) info
    (fun x hx => by simp only [List.mem_cons, List.mem_append, hx, true_or, or_true])
  have hstrs : ∀ x ∈ stringPtrs envp (info + BitVec.ofNat 64 (vectorBytes argv)), x ≠ 0 := by
    intro x hx h0
    have := (stringPtrs_mem_bounds envp _ (by rw [h.toNat_envpStrings]; omega) x hx).1
    rw [h0, h.toNat_envpStrings] at this
    simp at this
    omega
  have henvp := readWordsToNull_copyStrings (m := m) hp hw envp
    (base + 8 + BitVec.ofNat 64 (8 * argv.length) + 8) (info + BitVec.ofNat 64 (vectorBytes argv))
    (2 ^ 64) (fun x hx => by simp only [List.mem_cons, List.mem_append, hx, true_or, or_true]) (by simp) hstrs (by omega)
  have haux := readAuxv_auxStores (m := m) hp hw
    (SetupAuxVec hwcap info edata (info - 16)).dropLast 0
    (base + 8 + BitVec.ofNat 64 (8 * argv.length) + 8 + BitVec.ofNat 64 (8 * envp.length) + 8)
    (2 ^ 64) (by rw [← SetupAuxVec_eq]; exact fun x hx => by simp only [List.mem_cons, List.mem_append, hx, true_or, or_true])
    (SetupAuxVec_types _ _ _ _) (by simp [kNumAuxVectors])
  rw [← SetupAuxVec_eq] at haux
  have hlen : ∀ s ∈ argv ++ envp, s.length < 2 ^ 64 := by
    intro s hs
    rcases List.mem_append.1 hs with hs | hs
    · have := length_lt_vectorBytes hs; omega
    · have := length_lt_vectorBytes hs; omega
  have hsa := readCStr_copyStrings (m := m) hp hw argv (base + 8) info (2 ^ 64)
    (fun x hx => by simp only [List.mem_cons, List.mem_append, hx, true_or, or_true]) (fun s hs => hnul s (List.mem_append_left _ hs))
    (fun s hs => hlen s (List.mem_append_left _ hs))
  have hse := readCStr_copyStrings (m := m) hp hw envp
    (base + 8 + BitVec.ofNat 64 (8 * argv.length) + 8) (info + BitVec.ofNat 64 (vectorBytes argv))
    (2 ^ 64) (fun x hx => by simp only [List.mem_cons, List.mem_append, hx, true_or, or_true]) (fun s hs => hnul s (List.mem_append_right _ hs))
    (fun s hs => hlen s (List.mem_append_right _ hs))
  simp only [decodeStack, hargc, hcnt, eight_mul_ofNat, hnull1, hargv, henvp, length_stringPtrs,
    haux, hsa, hse, ne_eq, not_true_eq_false, if_false, Option.bind_eq_bind, Option.some_bind]
  rfl

theorem lookup_AT_RANDOM (hwcap : BitVec 32) (filename : BitVec 64) (edata : ElfData)
    (random_ptr : BitVec 64) :
    (SetupAuxVec hwcap filename edata random_ptr).lookup AT_RANDOM = some random_ptr := rfl

theorem lookup_AT_EXECFN (hwcap : BitVec 32) (filename : BitVec 64) (edata : ElfData)
    (random_ptr : BitVec 64) :
    (SetupAuxVec hwcap filename edata random_ptr).lookup AT_EXECFN = some filename := rfl

/-- What the process finds in the frame `SetupStack` leaves below a stack top `sp`: the new `sp`
is below the old one, every store lies in between, and decoding the frame gives back `argc`,
`argv`, `envp` and an auxiliary vector of `kNumAuxVectors` entries ending with `AT_NULL`; each
pointer leads to its string inside the frame, and the 16 bytes at `AT_RANDOM` lie above the pointer
area and below every string. -/
def FrameOk (sp : BitVec 64) (argv envp : List (List (BitVec 8))) (S : StackSetup) (m : Mem) :
    Prop :=
  S.sp < sp ∧ (∀ s ∈ S.stores, s.Within S.sp.toNat sp.toNat) ∧
  ∃ D, decodeStack (m.storeAll S.stores) S.sp = some D ∧
    D.argc.toNat = argv.length ∧ D.argv = argv ∧ D.envp = envp ∧
    D.auxv.length = kNumAuxVectors ∧ D.auxv.getLast? = some (AT_NULL, 0) ∧
    (∀ x ∈ (D.argvPtrs ++ D.envpPtrs).zip (D.argv ++ D.envp),
      S.sp.toNat ≤ x.1.toNat ∧ x.1.toNat + x.2.length < sp.toNat) ∧
    ∃ r, D.auxv.lookup AT_RANDOM = some r ∧ S.sp.toNat + ptrAreaBytes argv envp ≤ r.toNat ∧
      (∀ p ∈ D.argvPtrs ++ D.envpPtrs, r.toNat + 16 ≤ p.toNat) ∧ r.toNat + 16 ≤ sp.toNat

/-- The initial stack a process expects: a well-formed frame whose `sp` is 32-byte aligned. -/
def InitialStackOk (sp : BitVec 64) (argv envp : List (List (BitVec 8))) (S : StackSetup)
    (m : Mem) : Prop :=
  S.sp.toNat % 32 = 0 ∧ FrameOk sp argv envp S m

theorem SetupStack_frame (sp : BitVec 64) (argv envp : List (List (BitVec 8)))
    (edata : ElfData) (hwcap : BitVec 32) (rnd : List (BitVec 8)) (m : Mem)
    (hnul : ∀ s ∈ argv ++ envp, 0 ∉ s) (hfit : frameBytes argv envp ≤ sp.toNat) :
    FrameOk sp argv envp (SetupStack sp argv envp edata hwcap rnd) m := by
  have h := @SetupStack_fits sp argv envp edata hwcap rnd hfit
  have hsp := @SetupStack_sp_toNat sp argv envp edata hwcap rnd hfit
  have hraw := frameBytes_ge argv envp
  have hfs := h.ptrs_le
  have hft := h.top_lt
  have hinfo := toNat_info_block hfit
  have hA := stringPtrs_bounds argv (sp - BitVec.ofNat 64 (vectorBytes argv + vectorBytes envp))
    (by omega)
  have hE := stringPtrs_bounds envp (sp - BitVec.ofNat 64 (vectorBytes argv + vectorBytes envp) +
    BitVec.ofNat 64 (vectorBytes argv)) (by rw [h.toNat_envpStrings]; omega)
  have hgA := stringPtrs_mem_bounds argv (sp - BitVec.ofNat 64 (vectorBytes argv + vectorBytes envp))
    (by omega)
  have hgE := stringPtrs_mem_bounds envp (sp - BitVec.ofNat 64 (vectorBytes argv + vectorBytes envp) +
    BitVec.ofNat 64 (vectorBytes argv)) (by rw [h.toNat_envpStrings]; omega)
  rw [h.toNat_envpStrings] at hE hgE
  unfold ptrAreaBytes kNumAuxVectors at hfs hraw
  refine ⟨?_, (SetupStack_layout hfit).1, _, SetupStack_decode m hfit hnul,
    ?_, rfl, rfl, rfl, rfl, ?_, _, lookup_AT_RANDOM _ _ _ _, ?_, ?_, ?_⟩
  · rw [BitVec.lt_def, hsp]; unfold frameBytes alignUp; omega
  · rw [BitVec.toNat_ofNat, Nat.mod_eq_of_lt (by have := length_le_vectorBytes argv; omega)]
  · intro x hx
    rw [List.zip_append (by simp)] at hx
    rcases List.mem_append.1 hx with hx | hx
    · have := hA x hx; omega
    · have := hE x hx; omega
  · rw [h.toNat_random, hsp]; unfold ptrAreaBytes kNumAuxVectors; omega
  · intro p hp
    rcases List.mem_append.1 hp with hp | hp
    · have := (hgA p hp).1; rw [h.toNat_random]; omega
    · have := (hgE p hp).1; rw [h.toNat_random]; omega
  · rw [h.toNat_random]; omega

/-- **`SetupStack` builds a well-formed initial stack** below every 32-byte aligned stack top
that leaves room for the frame, for all `argv` and `envp` without NUL bytes. -/
theorem SetupStack_initial_stack (sp : BitVec 64) (argv envp : List (List (BitVec 8)))
    (edata : ElfData) (hwcap : BitVec 32) (rnd : List (BitVec 8)) (m : Mem)
    (hnul : ∀ s ∈ argv ++ envp, 0 ∉ s) (halign : sp.toNat % 32 = 0)
    (hfit : frameBytes argv envp ≤ sp.toNat) :
    InitialStackOk sp argv envp (SetupStack sp argv envp edata hwcap rnd) m := by
  refine ⟨?_, SetupStack_frame sp argv envp edata hwcap rnd m hnul hfit⟩
  rw [SetupStack_sp_toNat hfit]
  unfold frameBytes alignUp
  omega

/-- Below a stack top of 32 the frame of an empty command line wraps around to the top of the
address space, so the new `sp` is not below the old one. -/
theorem SetupStack_frame_wraps :
    ¬ InitialStackOk 32 [] [] (SetupStack 32 [] [] ⟨0, 0, 0, 0, 0, 0, none⟩ 0 []) (fun _ => 0) :=
  fun h => absurd h.2.1 (by decide)

theorem SetupStack_initial_stack_at_4096 : (∀ s ∈ [[97#8]] ++ [], (0 : BitVec 8) ∉ s) ∧
    (4096#64).toNat % 32 = 0 ∧ frameBytes [[97#8]] [] ≤ (4096#64).toNat ∧
    InitialStackOk 4096 [[97]] [] (SetupStack 4096 [[97]] [] ⟨0, 0, 0, 0, 0, 0, none⟩ 0 [])
      (fun _ => 0) := by
  have h1 : ∀ s ∈ [[97#8]] ++ [], (0 : BitVec 8) ∉ s := by decide
  have h2 : (4096#64).toNat % 32 = 0 := by decide
  have h3 : frameBytes [[97#8]] [] ≤ (4096#64).toNat := by decide
  exact ⟨h1, h2, h3, SetupStack_initial_stack _ _ _ _ _ _ _ h1 h2 h3⟩

end Decode

/-! ## The stack of `Exec` -/

/-- `p` lies in `[lo, hi)`. -/
def InRange (lo hi : Nat) (p : BitVec 64) : Prop := lo ≤ p.toNat ∧ p.toNat < hi

theorem argc_mem_stores (sp : BitVec 64) (argv envp : List (List (BitVec 8))) (edata : ElfData)
    (hwcap : BitVec 32) (rnd : List (BitVec 8)) :
    (⟨(SetupStack sp argv envp edata hwcap rnd).sp, u64Bytes (BitVec.ofNat 64 argv.length)⟩ :
      Store) ∈ (SetupStack sp argv envp edata hwcap rnd).stores :=
  List.mem_cons_of_mem _ (List.mem_cons_self _ _)

/-- Where the stack `Exec` set up lies, for a stack mapping `[rsp, rsp + T)`: every store in it,
the pointers to the strings and `AT_RANDOM` in it, and `AT_EXECFN` in it as soon as there is a
string. -/
def StackInMapping (rsp T : Nat) (argv envp : List (List (BitVec 8))) (m : Mem) (info : ExecInfo)
    (stores : List Store) : Prop :=
  (∀ s ∈ stores, s.Within rsp (rsp + T)) ∧
  ∃ D, decodeStack (m.storeAll stores) info.sp = some D ∧
    (∀ p ∈ D.argvPtrs ++ D.envpPtrs ++ (D.auxv.lookup AT_RANDOM).toList, InRange rsp (rsp + T) p) ∧
    (argv ++ envp ≠ [] → ∀ p ∈ (D.auxv.lookup AT_EXECFN).toList, InRange rsp (rsp + T) p)

/-- **The stack `Exec` sets up lies in its stack mapping** when the frame of `argv` and `envp`
fits in `RUNTIME_STACK_SIZE` bytes and the mapping lies in the address space. -/
theorem Exec_stack_within (G T : Nat) (loadELF : Except Int ElfData)
    (mmapGuard mmapStack : Except Int (BitVec 64)) (argv envp : List (List (BitVec 8)))
    (hwcap : BitVec 32) (rnd : List (BitVec 8)) (m : Mem) (info : ExecInfo) (stores : List Store)
    (hmap : ∀ guard, mmapGuard = .ok guard → guard.toNat + G + T < 2 ^ 64)
    (hnul : ∀ s ∈ argv ++ envp, 0 ∉ s) (hfit : frameBytes argv envp ≤ T)
    (hexec : Exec G T loadELF mmapGuard mmapStack argv envp hwcap rnd = .ok (info, stores)) :
    ∃ guard, mmapGuard = .ok guard ∧
      StackInMapping (guard.toNat + G) T argv envp m info stores := by
  obtain ⟨edata, guard, -, hg, hsp, rfl⟩ := Exec_ok_inv hexec
  have hb := hmap guard hg
  have h0 : (guard + BitVec.ofNat 64 G + BitVec.ofNat 64 T).toNat = guard.toNat + G + T := by
    rw [toNat_add_ofNat (by rw [toNat_add_ofNat (by omega)]; omega), toNat_add_ofNat (by omega)]
  generalize guard + BitVec.ofNat 64 G + BitVec.ofNat 64 T = sp at h0 hsp ⊢
  have hfit0 : frameBytes argv envp ≤ sp.toNat := by omega
  have h := @SetupStack_fits _ argv envp edata hwcap rnd hfit0
  have hS := @SetupStack_sp_toNat _ argv envp edata hwcap rnd hfit0
  have hraw := frameBytes_ge argv envp
  have hfs := h.ptrs_le
  have hft := h.top_lt
  have hinfo := toNat_info_block hfit0
  have hA := stringPtrs_mem_bounds argv
    (sp - BitVec.ofNat 64 (vectorBytes argv + vectorBytes envp)) (by omega)
  have hE := stringPtrs_mem_bounds envp (sp - BitVec.ofNat 64 (vectorBytes argv + vectorBytes envp)
    + BitVec.ofNat 64 (vectorBytes argv)) (by rw [h.toNat_envpStrings]; omega)
  rw [h.toNat_envpStrings] at hE
  refine ⟨guard, hg, fun s hs => ((SetupStack_layout hfit0).1 s hs).mono (by omega) (by omega),
    _, hsp ▸ SetupStack_decode m hfit0 hnul, ?_, ?_⟩
  · intro p hp
    simp only [lookup_AT_RANDOM, Option.toList_some, List.mem_append, List.mem_singleton] at hp
    rcases hp with (hp | hp) | rfl
    · have := hA p hp; constructor <;> omega
    · have := hE p hp; constructor <;> omega
    · rw [InRange, h.toNat_random]; constructor <;> omega
  · intro hne p hp
    simp only [lookup_AT_EXECFN, Option.toList_some, List.mem_singleton] at hp
    subst hp
    have hl := List.length_pos.2 hne
    rw [List.length_append] at hl
    have := length_le_vectorBytes argv
    have := length_le_vectorBytes envp
    constructor <;> omega

theorem Exec_stack_within_at_4096 : ∃ guard, (.ok 4096 : Except Int (BitVec 64)) = .ok guard ∧
    StackInMapping (guard.toNat + 0) 1024 [[97]] [] (fun _ => 0)
      ⟨(SetupStack (4096 + BitVec.ofNat 64 0 + BitVec.ofNat 64 1024) [[97]] []
        ⟨0, 0, 0, 0, 0, 0, none⟩ 0 []).sp, 0⟩
      (SetupStack (4096 + BitVec.ofNat 64 0 + BitVec.ofNat 64 1024) [[97]] []
        ⟨0, 0, 0, 0, 0, 0, none⟩ 0 []).stores :=
  Exec_stack_within 0 1024 (.ok ⟨0, 0, 0, 0, 0, 0, none⟩) (.ok 4096) (.ok 4096) [[97]] [] 0 []
    (fun _ => 0) _ _ (fun _ h => by cases h; decide) (by decide) (by decide) rfl

/-- **`Exec` sets up stacks that leave their mapping**: it checks neither the size of `argv` and
`envp` nor that there is any. For every guard of `G` bytes and stack of `T` bytes whose mappings lie
in the address space, with room for a frame below the top of the stack, `Exec` succeeds on no
arguments and no environment with `AT_EXECFN` pointing at the top of the stack, one byte past the
stack mapping; and it succeeds on a single argument of `T` bytes with `argc` stored below `rsp`, in
the guard. -/
theorem Exec_stack_escapes (G T : Nat) (edata : ElfData) (guard stack : BitVec 64)
    (hwcap : BitVec 32) (rnd : List (BitVec 8)) (m : Mem)
    (hmap : guard.toNat + G + T < 2 ^ 64) (hroom : 368 ≤ guard.toNat + G) :
    (∃ info stores,
      Exec G T (.ok edata) (.ok guard) (.ok stack) [] [] hwcap rnd = .ok (info, stores) ∧
      ∃ D, decodeStack (m.storeAll stores) info.sp = some D ∧
        D.auxv.lookup AT_EXECFN = some (guard + BitVec.ofNat 64 G + BitVec.ofNat 64 T) ∧
        ¬ InRange (guard.toNat + G) (guard.toNat + G + T)
          (guard + BitVec.ofNat 64 G + BitVec.ofNat 64 T)) ∧
    ∃ info stores, Exec G T (.ok edata) (.ok guard) (.ok stack) [List.replicate T 1] [] hwcap rnd =
      .ok (info, stores) ∧ (⟨info.sp, u64Bytes 1⟩ : Store) ∈ stores ∧
      info.sp.toNat < guard.toNat + G := by
  have h0 : (guard + BitVec.ofNat 64 G + BitVec.ofNat 64 T).toNat = guard.toNat + G + T := by
    rw [toNat_add_ofNat (by rw [toNat_add_ofNat (by omega)]; omega), toNat_add_ofNat (by omega)]
  -- the frame of one argument of `T` bytes
  have hv : vectorBytes [List.replicate T (1 : BitVec 8)] = T + 1 := by simp [vectorBytes]
  have hpa : ptrAreaBytes [List.replicate T (1 : BitVec 8)] [] = 320 := rfl
  have hfit : frameBytes [List.replicate T (1 : BitVec 8)] [] ≤
      (guard + BitVec.ofNat 64 G + BitVec.ofNat 64 T).toNat := by
    unfold frameBytes alignUp
    rw [hv, vectorBytes_nil, hpa, h0]
    omega
  have hraw := frameBytes_ge [List.replicate T (1 : BitVec 8)] []
  rw [hv, vectorBytes_nil, hpa] at hraw
  constructor
  · -- no string: the strings end, and `filename` points, at the top of the stack
    have hfit0 : frameBytes [] [] ≤ (guard + BitVec.ofNat 64 G + BitVec.ofNat 64 T).toNat := by
      rw [h0, show frameBytes [] [] = 352 from rfl]; omega
    refine ⟨_, _, rfl, _, SetupStack_decode m hfit0 (by simp), ?_, ?_⟩
    · simp only [lookup_AT_EXECFN, vectorBytes_nil, Nat.add_zero, BitVec.ofNat_eq_ofNat,
        BitVec.sub_zero]
    · rw [InRange, h0]; omega
  · refine ⟨_, _, rfl, argc_mem_stores _ _ _ _ _ _, ?_⟩
    rw [SetupStack_sp_toNat hfit, h0]
    omega

theorem Exec_stack_escapes_at_4096 :
    (4096 : BitVec 64).toNat + 4096 + 4096 < 2 ^ 64 ∧ 368 ≤ (4096 : BitVec 64).toNat + 4096 ∧
    (∃ info stores, Exec 4096 4096 (.ok ⟨0, 0, 0, 0, 0, 0, none⟩) (.ok 4096) (.ok 8192) [] [] 0 [] =
      .ok (info, stores) ∧
      ∃ D, decodeStack (Mem.storeAll (fun _ => 0) stores) info.sp = some D ∧
        D.auxv.lookup AT_EXECFN = some (4096 + BitVec.ofNat 64 4096 + BitVec.ofNat 64 4096) ∧
        ¬ InRange ((4096 : BitVec 64).toNat + 4096) ((4096 : BitVec 64).toNat + 4096 + 4096)
          (4096 + BitVec.ofNat 64 4096 + BitVec.ofNat 64 4096)) ∧
    ∃ info stores, Exec 4096 4096 (.ok ⟨0, 0, 0, 0, 0, 0, none⟩) (.ok 4096) (.ok 8192)
      [List.replicate 4096 1] [] 0 [] = .ok (info, stores) ∧
      (⟨info.sp, u64Bytes 1⟩ : Store) ∈ stores ∧ info.sp.toNat < (4096 : BitVec 64).toNat + 4096 :=
  ⟨by decide, by decide, Exec_stack_escapes 4096 4096 ⟨0, 0, 0, 0, 0, 0, none⟩ 4096 8192 0 []
    (fun _ => 0) (by decide) (by decide)⟩

end Junction
