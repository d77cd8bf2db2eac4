import Junction.Kernel.Elf
import Mathlib.Data.List.Basic

/-!
# Printing flag arguments (`strace.cc`)

In strace mode the arguments of each system call are logged, and a flag argument goes through
`PrintArr`: the names, in a `std::map` from flag to name, of the flags that `flags & flag` finds,
joined by `|`. A map built from an initializer list holds each key once, with the first name given
for it, in increasing signed order (`mapOf`). The values of the flags are those of the Linux x86-64
headers, which are not among the sources. The log is the list of characters written so far.

* `PrintArr_eq`: `PrintArr` writes the names of the entries whose flag meets `flags`, in the map's
  order, joined by `|`, and returns whether it wrote one.
* `PrintArr_parse`: for a map of single-bit flags with distinct names that are not empty and hold
  no `|`, splitting what `PrintArr` wrote at `|` and looking the names up gives back `flags`
  restricted to the map's flags. `open_flags` is not such a map: `O_SYNC` is `O_DSYNC` with one
  more bit, and `O_DSYNC` alone prints as `O_DSYNC|O_SYNC`.
-/

namespace Junction.Strace

/-! ## Maps from flags to names -/

/-- `std::map::insert` of an entry into a map kept in increasing signed order of its keys: a key
already there keeps its name. -/
def mapInsert (e : BitVec 32 × String) : List (BitVec 32 × String) → List (BitVec 32 × String)
  | [] => [e]
  | f :: m => if e.1 = f.1 then f :: m else if e.1.slt f.1 then e :: f :: m else f :: mapInsert e m

/-- A `std::map<int, std::string>` built from an initializer list, as its entries in order. -/
def mapOf (init : List (BitVec 32 × String)) : List (BitVec 32 × String) :=
  init.foldl (fun m e => mapInsert e m) []

def PROT_NONE : BitVec 32 := 0

def MAP_SHARED : BitVec 32 := 0x01
def MAP_PRIVATE : BitVec 32 := 0x02
def MAP_FIXED : BitVec 32 := 0x10
def MAP_ANONYMOUS : BitVec 32 := 0x20
def MAP_GROWSDOWN : BitVec 32 := 0x100
def MAP_LOCKED : BitVec 32 := 0x2000
def MAP_NORESERVE : BitVec 32 := 0x4000
def MAP_POPULATE : BitVec 32 := 0x8000
def MAP_NONBLOCK : BitVec 32 := 0x10000
def MAP_STACK : BitVec 32 := 0x20000
def MAP_HUGETLB : BitVec 32 := 0x40000
def MAP_FIXED_NOREPLACE : BitVec 32 := 0x100000

def O_WRONLY : BitVec 32 := 0x1
def O_RDWR : BitVec 32 := 0x2
def O_CREAT : BitVec 32 := 0x40
def O_EXCL : BitVec 32 := 0x80
def O_NOCTTY : BitVec 32 := 0x100
def O_TRUNC : BitVec 32 := 0x200
def O_APPEND : BitVec 32 := 0x400
def O_NONBLOCK : BitVec 32 := 0x800
def O_DSYNC : BitVec 32 := 0x1000
def O_ASYNC : BitVec 32 := 0x2000
def O_DIRECT : BitVec 32 := 0x4000
/-- Zero on x86-64, where every file is large. -/
def O_LARGEFILE : BitVec 32 := 0
def O_DIRECTORY : BitVec 32 := 0x10000
def O_NOFOLLOW : BitVec 32 := 0x20000
def O_NOATIME : BitVec 32 := 0x40000
def O_CLOEXEC : BitVec 32 := 0x80000
def O_SYNC : BitVec 32 := 0x101000
def O_PATH : BitVec 32 := 0x200000
def O_TMPFILE : BitVec 32 := 0x410000

/-- `protection_flags`. -/
def protection_flags : List (BitVec 32 × String) :=
  mapOf [(PROT_READ, "PROT_READ"), (PROT_WRITE, "PROT_WRITE"), (PROT_EXEC, "PROT_EXEC")]

/-- `mmap_flags`. -/
def mmap_flags : List (BitVec 32 × String) :=
  mapOf [(MAP_SHARED, "MAP_SHARED"), (MAP_PRIVATE, "MAP_PRIVATE"),
    (MAP_ANONYMOUS, "MAP_ANONYMOUS"), (MAP_FIXED, "MAP_FIXED"),
    (MAP_FIXED_NOREPLACE, "MAP_FIXED_NOREPLACE"), (MAP_GROWSDOWN, "MAP_GROWSDOWN"),
    (MAP_HUGETLB, "MAP_HUGETLB"), (MAP_LOCKED, "MAP_LOCKED"), (MAP_NONBLOCK, "MAP_NONBLOCK"),
    (MAP_NORESERVE, "MAP_NORESERVE"), (MAP_POPULATE, "MAP_POPULATE"), (MAP_STACK, "MAP_STACK")]

/-- `open_flags`. -/
def open_flags : List (BitVec 32 × String) :=
  mapOf [(O_APPEND, "O_APPEND"), (O_ASYNC, "O_ASYNC"), (O_CLOEXEC, "O_CLOEXEC"),
    (O_CREAT, "O_CREAT"), (O_DIRECT, "O_DIRECT"), (O_DIRECTORY, "O_DIRECTORY"),
    (O_DSYNC, "O_DSYNC"), (O_EXCL, "O_EXCL"), (O_LARGEFILE, "O_LARGEFILE"),
    (O_NOATIME, "O_NOATIME"), (O_NOCTTY, "O_NOCTTY"), (O_NOFOLLOW, "O_NOFOLLOW"),
    (O_NONBLOCK, "O_NONBLOCK"), (O_PATH, "O_PATH"), (O_SYNC, "O_SYNC"),
    (O_TMPFILE, "O_TMPFILE"), (O_TRUNC, "O_TRUNC"), (O_WRONLY, "O_WRONLY"), (O_RDWR, "O_RDWR")]

/-! ## Printing -/

/-- One turn of the loop of `PrintArr` on an entry: nothing when its flag does not meet `flags`;
else a `|` unless `done_one` is still false, then its name. -/
def printStep (flags : BitVec 32) (acc : Bool × List Char) (e : BitVec 32 × String) :
    Bool × List Char :=
  if flags &&& e.1 = 0 then acc
  else if !acc.1 then (true, acc.2 ++ e.2.toList)
  else (true, acc.2 ++ '|' :: e.2.toList)

/-- `PrintArr(map, flags, ss)` on the log `ss`: the loop over the map from `done_one = false`.
Returns `done_one` and the log. -/
def PrintArr (map : List (BitVec 32 × String)) (flags : BitVec 32) (ss : List Char) :
    Bool × List Char :=
  map.foldl (printStep flags) (false, ss)

/-- `PrintArg(prot, ProtFlag, ss)`. -/
def PrintArg_ProtFlag (prot : BitVec 32) (ss : List Char) : List Char :=
  if prot = PROT_NONE then ss ++ "PROT_NONE".toList else (PrintArr protection_flags prot ss).2

/-- `PrintArg(flags, MMapFlag, ss)`. -/
def PrintArg_MMapFlag (flags : BitVec 32) (ss : List Char) : List Char :=
  (PrintArr mmap_flags flags ss).2

/-- `PrintArg(flags, OpenFlag, ss)`: the flags, then `O_RDONLY` when neither `O_WRONLY` nor
`O_RDWR` is set. -/
def PrintArg_OpenFlag (flags : BitVec 32) (ss : List Char) : List Char :=
  let (done_one, ss) := PrintArr open_flags flags ss
  if flags &&& (O_WRONLY ||| O_RDWR) = 0 then
    (if done_one then ss ++ ['|'] else ss) ++ "O_RDONLY".toList
  else ss

example : PrintArg_MMapFlag (MAP_PRIVATE ||| MAP_ANONYMOUS ||| MAP_FIXED) [] =
    "MAP_PRIVATE|MAP_FIXED|MAP_ANONYMOUS".toList := by
  decide

/-- The names `PrintArr` writes: those of the entries whose flag meets `flags`, in order. -/
def printed (map : List (BitVec 32 × String)) (flags : BitVec 32) : List (List Char) :=
  (map.filter fun e => flags &&& e.1 ≠ 0).map fun e => e.2.toList

/-- Names joined by `|`. -/
def joinBar : List (List Char) → List Char
  | [] => []
  | n :: ns => n ++ (ns.map ('|' :: ·)).flatten

theorem printed_skip {map : List (BitVec 32 × String)} {flags : BitVec 32}
    {e : BitVec 32 × String} (he : flags &&& e.1 = 0) : printed (e :: map) flags = printed map flags := by
  simp only [printed, List.filter_cons, he, ne_eq, not_true_eq_false, decide_False, Bool.false_eq_true,
    if_false]

theorem printed_meet {map : List (BitVec 32 × String)} {flags : BitVec 32}
    {e : BitVec 32 × String} (he : flags &&& e.1 ≠ 0) :
    printed (e :: map) flags = e.2.toList :: printed map flags := by
  simp only [printed, List.filter_cons, he, ne_eq, not_false_eq_true, decide_True, if_true,
    List.map_cons]

/-- Once a name is written, `PrintArr` writes `|` and a name for each further entry that meets
`flags`. -/
theorem foldl_printStep_done (flags : BitVec 32) (map : List (BitVec 32 × String))
    (ss : List Char) :
    map.foldl (printStep flags) (true, ss) =
      (true, ss ++ ((printed map flags).map ('|' :: ·)).flatten) := by
  induction map generalizing ss with
  | nil => simp [printed]
  | cons e map ih =>
    by_cases he : flags &&& e.1 = 0
    · rw [List.foldl_cons, printStep, if_pos he, ih, printed_skip he]
    · rw [List.foldl_cons, printStep, if_neg he]
      simp only [Bool.not_true, Bool.false_eq_true, if_false]
      rw [ih, printed_meet he]
      simp

/-- **What `PrintArr` writes**: the names of the entries whose flag meets `flags`, in the map's
order, joined by `|`; it returns whether it wrote one. -/
theorem PrintArr_eq (map : List (BitVec 32 × String)) (flags : BitVec 32) (ss : List Char) :
    PrintArr map flags ss = (!(printed map flags).isEmpty, ss ++ joinBar (printed map flags)) := by
  induction map generalizing ss with
  | nil => simp [PrintArr, printed, joinBar]
  | cons e map ih =>
    by_cases he : flags &&& e.1 = 0
    · rw [PrintArr, List.foldl_cons, printStep, if_pos he, ← PrintArr, ih, printed_skip he]
    · rw [PrintArr, List.foldl_cons, printStep, if_neg he]
      simp only [Bool.not_false, if_true, List.nil_append]
      rw [foldl_printStep_done, printed_meet he]
      simp [joinBar]

/-! ## Reading the flags back -/

/-- Reading a printed flag argument back: split at `|`, and take for each piece the flag of the
entry of that name, or none. -/
def parseArr (map : List (BitVec 32 × String)) (out : List Char) : BitVec 32 :=
  (out.splitOn '|').foldl
    (fun f name => f ||| ((map.find? fun e => e.2.toList = name).map Prod.fst).getD 0) 0

/-- Names that hold no `|`, joined by `|` and split at `|`, are the names again. -/
theorem joinBar_splitOn {ns : List (List Char)} (h : ∀ n ∈ ns, '|' ∉ n) (hne : ns ≠ []) :
    (joinBar ns).splitOn '|' = ns := by
  induction ns with
  | nil => exact absurd rfl hne
  | cons n ns ih =>
    have hn : ∀ x ∈ n, ¬ (x == '|') = true := fun x hx hb =>
      h n (List.mem_cons_self _ _) (beq_iff_eq.1 hb ▸ hx)
    cases ns with
    | nil =>
      simp only [joinBar, List.map_nil, List.flatten_nil, List.append_nil]
      exact List.splitOnP_eq_single _ _ hn
    | cons m ns =>
      have hjoin : joinBar (n :: m :: ns) = n ++ '|' :: joinBar (m :: ns) := by simp [joinBar]
      rw [hjoin, List.splitOn, List.splitOnP_first _ _ hn '|' (beq_self_eq_true _), ← List.splitOn,
        ih (fun a ha => h a (List.mem_cons_of_mem _ ha)) (List.cons_ne_nil _ _)]

/-- In a map whose names are distinct, looking an entry's name up finds the entry. -/
theorem find?_name {map : List (BitVec 32 × String)} (hnodup : (map.map Prod.snd).Nodup)
    {e : BitVec 32 × String} (he : e ∈ map) :
    map.find? (fun e' => e'.2.toList = e.2.toList) = some e := by
  induction map with
  | nil => cases he
  | cons e' map ih =>
    obtain ⟨hout, hrest⟩ := List.nodup_cons.1 hnodup
    rcases List.mem_cons.1 he with rfl | he
    · simp
    · have hne : ¬ e'.2.toList = e.2.toList := fun h =>
        hout (String.ext h ▸ List.mem_map_of_mem Prod.snd he)
      rw [List.find?_cons_of_neg _ (by simpa using hne), ih hrest he]

theorem and_or_left {w : Nat} (x y z : BitVec w) : x &&& (y ||| z) = (x &&& y) ||| (x &&& z) :=
  BitVec.eq_of_getLsbD_eq fun _ => by simp [Bool.and_or_distrib_left]

/-- Over single-bit flags, the flags that meet `flags`, or-ed together, are `flags` restricted to
all the flags. -/
theorem foldl_or_filter (flags : BitVec 32) (map : List (BitVec 32 × String))
    (hsingle : ∀ e ∈ map, ∃ j < 32, e.1 = BitVec.twoPow 32 j) (acc : BitVec 32) :
    (map.filter fun e => flags &&& e.1 ≠ 0).foldl (fun f e => f ||| e.1) (flags &&& acc) =
      flags &&& map.foldl (fun f e => f ||| e.1) acc := by
  induction map generalizing acc with
  | nil => rfl
  | cons e map ih =>
    obtain ⟨j, -, hj⟩ := hsingle e (List.mem_cons_self _ _)
    have ih' := ih (fun e' he' => hsingle e' (List.mem_cons_of_mem _ he')) (acc ||| e.1)
    rw [and_or_left] at ih'
    rw [List.foldl_cons, ← ih']
    by_cases he : flags &&& e.1 = 0
    · have hz : flags &&& acc ||| 0 = flags &&& acc := BitVec.or_zero
      rw [List.filter_cons_of_neg (by rw [decide_eq_true_eq, not_not]; exact he), he, hz]
    · have hfull : flags &&& e.1 = e.1 := by
        cases hb : flags.getLsbD j
        · rw [hj, BitVec.and_twoPow, hb, if_neg Bool.false_ne_true] at he
          exact absurd rfl he
        · rw [hj, BitVec.and_twoPow, hb, if_pos rfl]
      rw [List.filter_cons_of_pos (p := fun e : BitVec 32 × String => flags &&& e.1 ≠ 0)
        (decide_eq_true he),
        List.foldl_cons, hfull]

/-- Looking up the names of entries of a map with distinct names gives their flags. -/
theorem foldl_lookup (map : List (BitVec 32 × String)) (hnodup : (map.map Prod.snd).Nodup) :
    ∀ (l : List (BitVec 32 × String)), (∀ e ∈ l, e ∈ map) → ∀ acc : BitVec 32,
      (l.map fun e => e.2.toList).foldl
        (fun f name => f ||| ((map.find? fun e => e.2.toList = name).map Prod.fst).getD 0) acc =
      l.foldl (fun f e => f ||| e.1) acc
  | [], _, _ => rfl
  | e :: l, hl, acc => by
    rw [List.map_cons, List.foldl_cons, List.foldl_cons, find?_name hnodup (hl e (List.mem_cons_self _ _))]
    exact foldl_lookup map hnodup l (fun e' he' => hl e' (List.mem_cons_of_mem _ he')) _

/-- **Flags printed by `PrintArr` read back**: for a map of single-bit flags whose names are
distinct, not empty and hold no `|`, splitting what `PrintArr` writes at `|` and looking each
piece up gives `flags` restricted to the map's flags. -/
theorem PrintArr_parse (map : List (BitVec 32 × String))
    (hsingle : ∀ e ∈ map, ∃ j < 32, e.1 = BitVec.twoPow 32 j) (hnodup : (map.map Prod.snd).Nodup)
    (hname : ∀ e ∈ map, e.2.toList ≠ [] ∧ '|' ∉ e.2.toList) (flags : BitVec 32) :
    parseArr map (PrintArr map flags []).2 = flags &&& map.foldl (fun f e => f ||| e.1) 0 := by
  have hor := foldl_or_filter flags map hsingle 0
  rw [show flags &&& (0 : BitVec 32) = 0 from BitVec.and_zero] at hor
  rw [PrintArr_eq, List.nil_append, ← hor]
  by_cases hp : printed map flags = []
  · have hf : (map.filter fun e => flags &&& e.1 ≠ 0) = [] := List.map_eq_nil_iff.1 hp
    have hnone : map.find? (fun e => e.2.toList = ([] : List Char)) = none :=
      List.find?_eq_none.2 fun e he => by simpa using (hname e he).1
    rw [hp, hf]
    simp only [parseArr, joinBar, List.map_nil, List.flatten_nil, List.splitOn_nil, List.foldl_cons,
      List.foldl_nil, hnone, Option.map_none', Option.getD_none]
    rfl
  · rw [parseArr, joinBar_splitOn _ hp, printed, foldl_lookup map hnodup _ (fun e he =>
      (List.mem_filter.1 he).1)]
    intro n hn
    obtain ⟨e, he, rfl⟩ := List.mem_map.1 hn
    exact (hname e (List.mem_filter.1 he).1).2

theorem PrintArr_parse_prot :
    (∀ e ∈ protection_flags, ∃ j < 32, e.1 = BitVec.twoPow 32 j) ∧
      (protection_flags.map Prod.snd).Nodup ∧
      (∀ e ∈ protection_flags, e.2.toList ≠ [] ∧ '|' ∉ e.2.toList) ∧
      parseArr protection_flags (PrintArr protection_flags (PROT_READ ||| PROT_EXEC) []).2 =
        (PROT_READ ||| PROT_EXEC) &&& protection_flags.foldl (fun f e => f ||| e.1) 0 :=
  ⟨by decide, by decide, by decide, PrintArr_parse _ (by decide) (by decide) (by decide) _⟩

/-- `O_SYNC` holds the bit of `O_DSYNC`, so `open_flags` falls outside `PrintArr_parse`. -/
example : PrintArg_OpenFlag O_DSYNC [] = "O_DSYNC|O_SYNC|O_RDONLY".toList := by
  decide

end Junction.Strace
