import Junction.Base.Arch
import Mathlib.Data.List.Chain
import Mathlib.Order.MinMax

/-!
# The global address-space allocator (`mm.h`)

Each `MemoryMap` lives in a region of the host address space that `AllocateMMRegion` hands out
from the process-wide cursor `mm_base_addr_`, or that `RegisterMMRegion` records when a snapshot
fixes its place. Both run under `mm_lock_`, so a history of calls is a sequence, and `mmRun`
replays one from any cursor, keeping the cursor after each call and the region it concerned.

* `mmStep_spec`: one call moves the cursor up, past the end of its region, and an allocation
  starts at the old cursor.
* `mmRun_regions_apart`: along every run in which no sum wraps, the cursor never decreases and
  every region handed out is apart from every region handed out or recorded before it.

A `VMArea` describes one mapping; `DataLength` is the part of a file mapping that the file backs,
`std::min(PageAlign(file->get_size() - offset), Length())` in `size_t`.

* `DataLength_before_last_page`: up to the end of the file's last page, `DataLength` is
  `min(PageAlign(size - offset), Length())`, the difference cut at zero.
* `DataLength_past_eof`: from a page past the end of the file on, the difference wraps and
  `DataLength` is the whole `Length()`.

`set_bin_path` lays the arguments out in `cmd_line_` one after the other, each with the byte
that follows its view in memory.

* `set_bin_path_splitOn`: split at each `'\0'`, the command line gives the arguments back if and
  only if every view is followed by a `'\0'`.

`PageAccessTracer` records the first time each page was hit.

* `recordHits_at`: after any sequence of hits, the trace maps each page hit to the least time it
  was hit at, and no other page; so the order of the hits and repeated hits do not matter.
-/

namespace Junction

/-- A call to the allocator. -/
inductive MMCall
  /-- `AllocateMMRegion(len)`. -/
  | allocate (len : BitVec 64)
  /-- `RegisterMMRegion(base, len)`. -/
  | register (base len : BitVec 64)
  deriving DecidableEq

/-- `MemoryMap::AllocateMMRegion(len)` on the cursor `mm_base_addr`: the base it returns, and the
cursor advanced by `PageAlign(len)`. -/
def AllocateMMRegion (mm_base_addr len : BitVec 64) : BitVec 64 × BitVec 64 :=
  (mm_base_addr, mm_base_addr + PageAlign len)

/-- `MemoryMap::RegisterMMRegion(base, len)`: the cursor becomes `std::max` of itself and the end
of the page-rounded region. -/
def RegisterMMRegion (mm_base_addr base len : BitVec 64) : BitVec 64 :=
  if mm_base_addr < base + PageAlign len then base + PageAlign len else mm_base_addr

/-- `CreateMemoryMap(len)`: a region from `AllocateMMRegion`, then `KernelMMap(base, len,
PROT_NONE, 0)`, whose result for the hint `base` is `kernelMMap base`; the new `MemoryMap` spans
`[*ret, *ret + len)`. The cursor has moved even when the mapping fails. -/
def CreateMemoryMap (mm_base_addr len : BitVec 64)
    (kernelMMap : BitVec 64 → Except Int (BitVec 64)) :
    Except Int (BitVec 64 × BitVec 64) × BitVec 64 :=
  let (base, cursor) := AllocateMMRegion mm_base_addr len
  ((kernelMMap base).map fun ret => (ret, ret + len), cursor)

/-- The region a call hands out (`allocated`) or records: `[base, base + len)`. -/
structure MMEvent where
  allocated : Bool
  base : BitVec 64
  len : BitVec 64
  deriving DecidableEq

/-- One call: the new cursor and the call's region. -/
def mmStep (cur : BitVec 64) : MMCall → BitVec 64 × MMEvent
  | .allocate len => ((AllocateMMRegion cur len).2, ⟨true, (AllocateMMRegion cur len).1, len⟩)
  | .register base len => (RegisterMMRegion cur base len, ⟨false, base, len⟩)

/-- The history of a run of calls from the cursor `cur`: after each call, the cursor and the
call's region. -/
def mmRun : BitVec 64 → List MMCall → List (BitVec 64 × MMEvent)
  | _, [] => []
  | cur, c :: cs => mmStep cur c :: mmRun (mmStep cur c).1 cs

theorem CreateMemoryMap_cursor (mm_base_addr len : BitVec 64)
    (kernelMMap : BitVec 64 → Except Int (BitVec 64)) :
    (CreateMemoryMap mm_base_addr len kernelMMap).2 = (mmStep mm_base_addr (.allocate len)).1 :=
  rfl

/-! ## Runs in which no sum wraps -/

/-- No sum the call computes wraps: `len` rounded up to a page, and the cursor (for an
allocation) or `base` (for a registration) plus the rounded length. -/
def MMCall.NoWrap (cur : BitVec 64) : MMCall → Prop
  | .allocate len => len.toNat + (kPageSize - 1) < 2 ^ 64 ∧
      cur.toNat + alignUp len.toNat kPageSize < 2 ^ 64
  | .register base len => len.toNat + (kPageSize - 1) < 2 ^ 64 ∧
      base.toNat + alignUp len.toNat kPageSize < 2 ^ 64

instance (cur : BitVec 64) : ∀ c : MMCall, Decidable (c.NoWrap cur)
  | .allocate _ => inferInstanceAs (Decidable (_ ∧ _))
  | .register _ _ => inferInstanceAs (Decidable (_ ∧ _))

/-- No call of the run wraps. -/
def NoWrapRun : BitVec 64 → List MMCall → Prop
  | _, [] => True
  | cur, c :: cs => c.NoWrap cur ∧ NoWrapRun (mmStep cur c).1 cs

instance decNoWrapRun : ∀ (cur : BitVec 64) (cs : List MMCall), Decidable (NoWrapRun cur cs)
  | _, [] => isTrue trivial
  | cur, c :: cs =>
    have := decNoWrapRun (mmStep cur c).1 cs
    inferInstanceAs (Decidable (_ ∧ _))

/-- `[base, base + len)` and `[base', base' + len')` do not overlap. -/
def MMEvent.Apart (e e' : MMEvent) : Prop :=
  e.base.toNat + e.len.toNat ≤ e'.base.toNat ∨ e'.base.toNat + e'.len.toNat ≤ e.base.toNat

/-- A region handed out later is apart from `e`. -/
def LaterAllocApart (e e' : MMEvent) : Prop := e'.allocated = true → e.Apart e'

/-- **One call**: the cursor moves up and past the end of the call's region, and an allocation
starts at the old cursor. -/
theorem mmStep_spec {cur : BitVec 64} {c : MMCall} (h : c.NoWrap cur) :
    cur.toNat ≤ (mmStep cur c).1.toNat ∧
    (mmStep cur c).2.base.toNat + (mmStep cur c).2.len.toNat ≤ (mmStep cur c).1.toNat ∧
    ((mmStep cur c).2.allocated = true → (mmStep cur c).2.base = cur) := by
  cases c with
  | allocate len =>
    have hlen := le_alignUp_page len.toNat
    have hnext : (cur + PageAlign len).toNat = cur.toNat + alignUp len.toNat kPageSize := by
      rw [BitVec.toNat_add, toNat_PageAlign h.1, Nat.mod_eq_of_lt h.2]
    simp only [mmStep, AllocateMMRegion, hnext]
    exact ⟨by omega, by omega, fun _ => trivial⟩
  | register base len =>
    have hlen := le_alignUp_page len.toNat
    have hend : (base + PageAlign len).toNat = base.toNat + alignUp len.toNat kPageSize := by
      rw [BitVec.toNat_add, toNat_PageAlign h.1, Nat.mod_eq_of_lt h.2]
    simp only [mmStep, RegisterMMRegion, Bool.false_eq_true, false_implies, and_true]
    split
    · rename_i hlt
      rw [BitVec.lt_def] at hlt
      omega
    · rename_i hlt
      rw [BitVec.lt_def] at hlt
      omega

/-- **Along every run in which no sum wraps, the cursor never decreases, and every region
`AllocateMMRegion` hands out is apart from every region handed out or registered before it.** -/
theorem mmRun_regions_apart (cur : BitVec 64) (calls : List MMCall) (h : NoWrapRun cur calls) :
    List.Chain (· ≤ ·) cur ((mmRun cur calls).map Prod.fst) ∧
    ((mmRun cur calls).map Prod.snd).Pairwise LaterAllocApart := by
  suffices ∀ cur calls, NoWrapRun cur calls →
      List.Chain (· ≤ ·) cur ((mmRun cur calls).map Prod.fst) ∧
      ((mmRun cur calls).map Prod.snd).Pairwise LaterAllocApart ∧
      ∀ e ∈ (mmRun cur calls).map Prod.snd, e.allocated = true → cur.toNat ≤ e.base.toNat from
    (this cur calls h).imp_right And.left
  intro cur calls h
  induction calls generalizing cur with
  | nil => exact ⟨.nil, .nil, fun _ h => nomatch h⟩
  | cons c cs ih =>
    obtain ⟨hup, hend, hbase⟩ := mmStep_spec h.1
    obtain ⟨hchain, hpw, hge⟩ := ih _ h.2
    simp only [mmRun, List.map_cons, List.chain_cons, List.pairwise_cons, List.mem_cons]
    refine ⟨⟨BitVec.le_def.2 hup, hchain⟩, ⟨fun e' he' ha => .inl ?_, hpw⟩, ?_⟩
    · have := hge e' he' ha
      omega
    · rintro e (rfl | he) ha
      · rw [hbase ha]
      · have := hge e he ha
        omega

theorem mmRun_regions_apart_at_4096 :
    NoWrapRun 4096 [.allocate 4096, .register 65536 100, .allocate 1] ∧
    List.Chain (· ≤ ·) 4096
      ((mmRun 4096 [.allocate 4096, .register 65536 100, .allocate 1]).map Prod.fst) ∧
    ((mmRun 4096 [.allocate 4096, .register 65536 100, .allocate 1]).map Prod.snd).Pairwise
      LaterAllocApart := by
  have h : NoWrapRun 4096 [.allocate 4096, .register 65536 100, .allocate 1] := by decide
  exact ⟨h, mmRun_regions_apart _ _ h⟩

/-! ## Memory areas -/

/-- `VMType`, the kind of a mapping. -/
inductive VMType
  | kNormal
  | kHeap
  | kStack
  | kFile
  deriving DecidableEq

/-- What `DataLength` reads of a `VMArea`: its bounds `start` and `end` (`end_`), its type, and for
a file mapping `offset` and the size of the file, `file->get_size()`, when it is called. `prot`,
`traced` and the file itself are left out. -/
structure VMArea where
  start : BitVec 64
  end_ : BitVec 64
  type : VMType
  file_size : BitVec 64
  offset : BitVec 64
  deriving DecidableEq

/-- `VMArea::Length()`: `end - start`. -/
def VMArea.Length (v : VMArea) : BitVec 64 := v.end_ - v.start

/-- `VMArea::DataLength()`: the length for a mapping that is not a file's, else
`std::min(PageAlign(file->get_size() - offset), Length())`, the `off_t` offset converted to
`size_t`. -/
def VMArea.DataLength (v : VMArea) : BitVec 64 :=
  if v.type ≠ .kFile then v.Length
  else if v.Length < PageAlign (v.file_size - v.offset) then v.Length
  else PageAlign (v.file_size - v.offset)

/-- `DataLength` of a file mapping, through the page-rounded difference. -/
theorem DataLength_file {v : VMArea} (hfile : v.type = .kFile) :
    v.DataLength.toNat = min (PageAlign (v.file_size - v.offset)).toNat v.Length.toNat := by
  simp only [VMArea.DataLength, hfile, ne_eq, not_true_eq_false, if_false, BitVec.lt_def]
  split <;> omega

/-- **Up to the end of the file's last page, `DataLength` is what the file backs**: for a file
mapping whose offset lies below the end of the last page of the file, `DataLength` is
`min(PageAlign(size - offset), Length())`, the difference cut at zero. -/
theorem DataLength_before_last_page (v : VMArea) (hfile : v.type = .kFile)
    (hnear : v.offset.toNat < v.file_size.toNat + kPageSize)
    (hsize : v.file_size.toNat + kPageSize ≤ 2 ^ 64) :
    v.DataLength.toNat =
      min (alignUp (v.file_size.toNat - v.offset.toNat) kPageSize) v.Length.toNat := by
  have hpa : (PageAlign (v.file_size - v.offset)).toNat =
      alignUp (v.file_size.toNat - v.offset.toNat) kPageSize := by
    have hsub := BitVec.toNat_sub v.file_size v.offset
    rw [PageAlign, AlignUp, BitVec.toNat_ofNat, hsub]
    unfold alignUp kPageSize at *
    omega
  rw [DataLength_file hfile, hpa]

theorem DataLength_before_last_page_at_4096 :
    let v : VMArea := ⟨0, 8192, .kFile, 4096, 4096⟩
    v.type = .kFile ∧ v.offset.toNat < v.file_size.toNat + kPageSize ∧
      v.file_size.toNat + kPageSize ≤ 2 ^ 64 ∧
      v.DataLength.toNat =
        min (alignUp (v.file_size.toNat - v.offset.toNat) kPageSize) v.Length.toNat :=
  ⟨rfl, by decide, by decide, DataLength_before_last_page _ rfl (by decide) (by decide)⟩

/-- **A file mapping a page or more past the end of its file counts in full**: with `offset` a
nonnegative `off_t` at least a page past the end of the file, `get_size() - offset` wraps in
`size_t`, its page rounding is at least `2 ^ 63`, and `DataLength` is the whole `Length()` of any
mapping shorter than that, where nothing of it is backed by the file. -/
theorem DataLength_past_eof (v : VMArea) (hfile : v.type = .kFile) (hoff : v.offset.toNat < 2 ^ 63)
    (hpast : v.file_size.toNat + kPageSize ≤ v.offset.toNat) (hlen : v.Length.toNat ≤ 2 ^ 63) :
    v.DataLength = v.Length := by
  have hsub := BitVec.toNat_sub v.file_size v.offset
  have hwrap : (v.file_size - v.offset).toNat = 2 ^ 64 - v.offset.toNat + v.file_size.toNat := by
    unfold kPageSize at hpast
    omega
  have hpa := le_alignUp_page (v.file_size - v.offset).toNat
  apply BitVec.eq_of_toNat_eq
  rw [DataLength_file hfile, toNat_PageAlign (by unfold kPageSize at hpast; omega)]
  omega

theorem DataLength_past_eof_at_4096 :
    let v : VMArea := ⟨0, 4096, .kFile, 0, 4096⟩
    v.type = .kFile ∧ v.offset.toNat < 2 ^ 63 ∧ v.file_size.toNat + kPageSize ≤ v.offset.toNat ∧
      v.Length.toNat ≤ 2 ^ 63 ∧ v.DataLength = v.Length :=
  ⟨rfl, by decide, by decide, by decide, DataLength_past_eof _ rfl (by decide) (by decide)
    (by decide)⟩

/-! ## The command line -/

/-- `MemoryMap::set_bin_path(binary_path, argv)` on `cmd_line_`: for each argument, the
`arg.size() + 1` bytes from `arg.data()` inserted at the end. An argument is the bytes of its
`std::string_view` with the byte that follows them in memory, which the code copies as the
`'\0'` ending a C string although a view need not be followed by one. The binary path is not
modelled. -/
def set_bin_path (cmd_line_ : List (BitVec 8)) (argv : List (List (BitVec 8) × BitVec 8)) :
    List (BitVec 8) :=
  argv.foldl (fun cmd_line_ arg => cmd_line_ ++ (arg.1 ++ [arg.2])) cmd_line_

theorem set_bin_path_eq (cmd_line_ : List (BitVec 8)) (argv : List (List (BitVec 8) × BitVec 8)) :
    set_bin_path cmd_line_ argv = cmd_line_ ++ (argv.map fun arg => arg.1 ++ [arg.2]).flatten := by
  induction argv generalizing cmd_line_ with
  | nil => simp [set_bin_path]
  | cons arg argv ih =>
    rw [set_bin_path, List.foldl_cons, ← set_bin_path, ih]
    simp

/-- Strings that hold no `'\0'`, each ended by one, split back at each `'\0'` into the strings
and the empty piece after the last. -/
theorem splitOn_terminated (args : List (List (BitVec 8))) (h : ∀ arg ∈ args, 0 ∉ arg) :
    (args.map (· ++ [0])).flatten.splitOn 0 = args ++ [[]] := by
  induction args with
  | nil => rfl
  | cons arg args ih =>
    have harg : ∀ x ∈ arg, ¬ (x == 0) = true := fun x hx hx0 =>
      h arg (List.mem_cons_self _ _) (beq_iff_eq.1 hx0 ▸ hx)
    rw [List.map_cons, List.flatten_cons, List.append_assoc, List.singleton_append, List.splitOn,
      List.splitOnP_first _ _ harg 0 (beq_self_eq_true 0), ← List.splitOn,
      ih fun a ha => h a (List.mem_cons_of_mem _ ha), List.cons_append]

/-- Two command lines built from the same views agree only if every view is followed by `'\0'`. -/
theorem terminators_eq_zero {argv : List (List (BitVec 8) × BitVec 8)}
    (h : (argv.map fun arg => arg.1 ++ [arg.2]).flatten =
      (argv.map fun arg => arg.1 ++ [0]).flatten) :
    ∀ arg ∈ argv, arg.2 = 0 := by
  induction argv with
  | nil => simp
  | cons arg argv ih =>
    simp only [List.map_cons, List.flatten_cons, List.append_assoc, List.append_cancel_left_eq,
      List.singleton_append, List.cons.injEq] at h
    simpa only [List.mem_cons, forall_eq_or_imp] using ⟨h.1, ih h.2⟩

/-- **The command line reads back as the arguments exactly when each view is followed by
`'\0'`**: when no argument holds a `'\0'`, splitting the `cmd_line_` that `set_bin_path` builds
from nothing at each `'\0'` gives the arguments and the empty piece after the last one, if and
only if the byte after every view is `'\0'`. -/
theorem set_bin_path_splitOn (argv : List (List (BitVec 8) × BitVec 8))
    (h : ∀ arg ∈ argv, 0 ∉ arg.1) :
    (set_bin_path [] argv).splitOn 0 = argv.map Prod.fst ++ [[]] ↔ ∀ arg ∈ argv, arg.2 = 0 := by
  have hnul : (argv.map fun arg => arg.1 ++ [0]).flatten.splitOn 0 = argv.map Prod.fst ++ [[]] := by
    rw [← splitOn_terminated _ (by simpa using h), List.map_map]
    rfl
  rw [set_bin_path_eq, List.nil_append]
  constructor
  · -- a command line is the join of its pieces, so equal pieces give equal command lines
    intro hs
    have hjoin : [0].intercalate ((argv.map fun arg => arg.1 ++ [arg.2]).flatten.splitOn 0) =
        (argv.map fun arg => arg.1 ++ [arg.2]).flatten := List.intercalate_splitOn _ _
    apply terminators_eq_zero
    rw [← hjoin, hs, ← hnul, List.intercalate_splitOn]
  · intro hz
    rw [← hnul, List.map_congr_left fun arg harg => by rw [hz arg harg]]

theorem set_bin_path_splitOn_two :
    let argv : List (List (BitVec 8) × BitVec 8) := [([0x6c, 0x73], 0), ([0x2d, 0x6c], 0)]
    (∀ arg ∈ argv, 0 ∉ arg.1) ∧
      ((set_bin_path [] argv).splitOn 0 = argv.map Prod.fst ++ [[]] ↔ ∀ arg ∈ argv, arg.2 = 0) :=
  ⟨by decide, set_bin_path_splitOn _ (by decide)⟩

/-- A view of `"ls"` followed by `'-'` runs into the next argument. -/
example : (set_bin_path [] [([0x6c, 0x73], 0x2d), ([0x2d, 0x6c], 0)]).splitOn 0 =
    [[0x6c, 0x73, 0x2d, 0x2d, 0x6c], []] := by
  decide

/-! ## The page-access tracer -/

/-- `PageAccessTracer`: `access_at_`, the time each page was first hit, as a map from pages.
`Time` (of `junction/base/time.h`, not among the sources) is any linear order. -/
@[ext]
structure PageAccessTracer (Time : Type) where
  access_at : BitVec 64 → Option Time

namespace PageAccessTracer

variable {Time : Type} [LinearOrder Time]

/-- `PageAccessTracer()`: no page hit. -/
def empty : PageAccessTracer Time := ⟨fun _ => none⟩

/-- `RecordHit(page, t)`: `try_emplace(page, t)` finds the entry of `page` or inserts `t`, then
the entry becomes `std::min` of itself and `t`. -/
def RecordHit (tr : PageAccessTracer Time) (page : BitVec 64) (t : Time) : PageAccessTracer Time :=
  ⟨Function.update tr.access_at page (some (min ((tr.access_at page).getD t) t))⟩

/-- `get_trace()`. -/
def get_trace (tr : PageAccessTracer Time) : BitVec 64 → Option Time := tr.access_at

theorem RecordHit_access_at (tr : PageAccessTracer Time) (page q : BitVec 64) (t : Time) :
    (tr.RecordHit page t).access_at q =
      if q = page then some (min ((tr.access_at page).getD t) t) else tr.access_at q :=
  Function.update_apply _ _ _ _

/-- Two hits recorded one after the other give the same trace in either order. -/
theorem RecordHit_right_comm (tr : PageAccessTracer Time) (a b : BitVec 64 × Time) :
    (tr.RecordHit a.1 a.2).RecordHit b.1 b.2 = (tr.RecordHit b.1 b.2).RecordHit a.1 a.2 := by
  obtain ⟨p, s⟩ := a
  obtain ⟨r, t⟩ := b
  by_cases hpr : p = r
  · subst hpr
    ext1
    funext q
    simp only [RecordHit_access_at]
    split
    · cases tr.access_at p with
      | none => simpa using min_comm s t
      | some v => simpa using min_right_comm v s t
    · rfl
  · ext1
    simp only [RecordHit, Function.update_noteq hpr, Function.update_noteq (Ne.symm hpr)]
    exact Function.update_comm hpr _ _ _

/-- A hit recorded twice in a row counts once. -/
theorem RecordHit_idem (tr : PageAccessTracer Time) (page : BitVec 64) (t : Time) :
    (tr.RecordHit page t).RecordHit page t = tr.RecordHit page t := by
  ext1
  funext q
  simp only [RecordHit_access_at]
  split
  · simp [min_assoc]
  · rfl

end PageAccessTracer

/-- The tracer after a sequence of hits, from a fresh one. -/
def recordHits {Time : Type} [LinearOrder Time] (hits : List (BitVec 64 × Time)) :
    PageAccessTracer Time :=
  hits.foldl (fun tr h => tr.RecordHit h.1 h.2) .empty

section Trace

variable {Time : Type} [LinearOrder Time]

/-- The times `page` was hit at, in order. -/
def hitTimes (hits : List (BitVec 64 × Time)) (page : BitVec 64) : List Time :=
  (hits.filter fun h => h.1 = page).map Prod.snd

/-- The entry of a page after more hits: the least of its entry before and its new times. -/
theorem foldl_RecordHit_at (hits : List (BitVec 64 × Time)) (tr : PageAccessTracer Time)
    (page : BitVec 64) :
    (hits.foldl (fun tr h => tr.RecordHit h.1 h.2) tr).access_at page =
      (tr.access_at page).elim (hitTimes hits page).min?
        fun a => some ((hitTimes hits page).foldl min a) := by
  induction hits generalizing tr with
  | nil => cases h : tr.access_at page <;> simp [hitTimes, h]
  | cons h hits ih =>
    rw [List.foldl_cons, ih, PageAccessTracer.RecordHit_access_at]
    by_cases hp : page = h.1
    · subst hp
      have ht : hitTimes (h :: hits) h.1 = h.2 :: hitTimes hits h.1 := by
        simp [hitTimes]
      rw [if_pos rfl, ht]
      cases tr.access_at h.1 <;> simp only [Option.elim, Option.getD_none, Option.getD_some,
        min_self, List.min?_cons', List.foldl_cons]
    · have ht : hitTimes (h :: hits) page = hitTimes hits page := by
        simp [hitTimes, Ne.symm hp]
      rw [if_neg hp, ht]

/-- **The trace of any sequence of hits is the first hit of each page**: every page hit maps to
the least time it was hit at, and no other page has an entry; so every permutation of the hits,
and every repetition of a hit already in them, gives the same trace. -/
theorem recordHits_at (hits : List (BitVec 64 × Time)) :
    (∀ page, (recordHits hits).get_trace page = (hitTimes hits page).min?) ∧
    (∀ page, ((recordHits hits).get_trace page).isSome ↔ ∃ t, (page, t) ∈ hits) ∧
    (∀ hits', hits'.Perm hits → recordHits hits' = recordHits hits) ∧
    (∀ h ∈ hits, ∀ hits', hits'.Perm (h :: hits) → recordHits hits' = recordHits hits) := by
  have hspec (hits : List (BitVec 64 × Time)) (page : BitVec 64) :
      (recordHits hits).get_trace page = (hitTimes hits page).min? :=
    foldl_RecordHit_at hits .empty page
  have hperm {l₁ l₂ : List (BitVec 64 × Time)} (hp : l₁.Perm l₂) (tr : PageAccessTracer Time) :
      l₁.foldl (fun tr h => tr.RecordHit h.1 h.2) tr = l₂.foldl (fun tr h => tr.RecordHit h.1 h.2) tr :=
    hp.foldl_eq' (fun a _ b _ tr => tr.RecordHit_right_comm a b) tr
  refine ⟨hspec hits, fun page => ?_, fun hits' hp => hperm hp _, fun h hh hits' hp => ?_⟩
  · rw [hspec, Option.isSome_iff_ne_none, Ne, List.min?_eq_none_iff]
    simp [hitTimes, List.eq_nil_iff_forall_not_mem]
  · obtain ⟨l₁, l₂, rfl⟩ := List.append_of_mem hh
    unfold recordHits
    rw [hperm hp, hperm (List.perm_middle.cons h), List.foldl_cons, List.foldl_cons,
      PageAccessTracer.RecordHit_idem]
    exact (hperm List.perm_middle _).symm

end Trace

end Junction
