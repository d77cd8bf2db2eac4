import Junction.Base.Arch
import Mathlib.Data.List.Basic

/-!
# Byte memory and the stores a program makes

The host address space is a function from the 2^64 addresses to bytes (`Mem`). Code that fills
memory (`SetupStack`, the ELF loader) is modelled by the list of `Store`s it makes, in program
order: a `memcpy`, a word written through a pointer and a single byte are each one store, and
`Mem.storeAll` applies them.

Reading back is by `Mem.read` (bytes), `Mem.loadU64` (a little-endian word) and `Mem.readCStr` (a
NUL-terminated string). The main lemma is `read_storeAll_of_mem`: when the stores are pairwise
disjoint, the bytes of any one of them are what memory holds afterwards, whatever the order.
-/

namespace Junction

/-- The host address space: the byte held at each address. -/
def Mem : Type := BitVec 64 → BitVec 8

/-- One store the code makes: `bytes` written upward from `addr`. -/
structure Store where
  addr : BitVec 64
  bytes : List (BitVec 8)
  deriving DecidableEq

namespace Store

/-- The byte the store leaves at `x`, when it covers `x` (counted from `addr` modulo 2^64, as
the machine counts). -/
def byteAt? (s : Store) (x : BitVec 64) : Option (BitVec 8) := s.bytes[(x - s.addr).toNat]?

/-- The store covers `x`, read without wrapping. -/
def Covers (s : Store) (x : BitVec 64) : Prop :=
  s.addr.toNat ≤ x.toNat ∧ x.toNat < s.addr.toNat + s.bytes.length

/-- The store lies within `[lo, hi)`. -/
def Within (s : Store) (lo hi : Nat) : Prop :=
  lo ≤ s.addr.toNat ∧ s.addr.toNat + s.bytes.length ≤ hi

/-- The store does not run past the top of the address space. -/
def NoWrap (s : Store) : Prop := s.addr.toNat + s.bytes.length ≤ 2 ^ 64

/-- Two stores cover disjoint ranges of addresses. -/
def Disjoint (s t : Store) : Prop :=
  s.addr.toNat + s.bytes.length ≤ t.addr.toNat ∨ t.addr.toNat + t.bytes.length ≤ s.addr.toNat

theorem Within.noWrap {s : Store} {lo hi : Nat} (h : s.Within lo hi) (hhi : hi ≤ 2 ^ 64) :
    s.NoWrap :=
  Nat.le_trans h.2 hhi

theorem Within.mono {s : Store} {lo hi lo' hi' : Nat} (h : s.Within lo hi) (hlo : lo' ≤ lo)
    (hhi : hi ≤ hi') : s.Within lo' hi' :=
  ⟨Nat.le_trans hlo h.1, Nat.le_trans h.2 hhi⟩

theorem disjoint_of_within {s t : Store} {a b c d : Nat} (hs : s.Within a b) (ht : t.Within c d)
    (h : b ≤ c) : s.Disjoint t :=
  .inl (by unfold Within at *; omega)

theorem within_mk {a : BitVec 64} {bs : List (BitVec 8)} {n m : Nat} (h : a.toNat = n)
    (hl : bs.length = m) : (Store.mk a bs).Within n (n + m) := by
  unfold Within; simp only [h, hl]; omega

theorem Disjoint.symm {s t : Store} (h : s.Disjoint t) : t.Disjoint s := Or.symm h

theorem byteAt?_eq_none {s : Store} {x : BitVec 64} (hw : s.NoWrap) (h : ¬ s.Covers x) :
    s.byteAt? x = none := by
  unfold byteAt?
  apply List.getElem?_eq_none
  unfold NoWrap Covers at *
  rw [BitVec.toNat_sub]
  omega

theorem byteAt?_of_le {s : Store} {x : BitVec 64} (h : s.addr.toNat ≤ x.toNat) :
    s.byteAt? x = s.bytes[x.toNat - s.addr.toNat]? := by
  rw [byteAt?, BitVec.toNat_sub_of_le (BitVec.le_def.2 h)]

end Store

/-- Every store of `l` lies in `[a, b)` or in `[c, d)`: how the stores of one loop of the code,
which fills a pointer array and a string block, are located. -/
def InZones (l : List Store) (a b c d : Nat) : Prop := ∀ s ∈ l, s.Within a b ∨ s.Within c d

namespace InZones

variable {l l₁ l₂ : List Store} {a b c d w x y z e f g h : Nat}

theorem nil : InZones [] a b c d := fun _ h => nomatch h

theorem cons {s : Store} (hs : s.Within a b ∨ s.Within c d) (hl : InZones l a b c d) :
    InZones (s :: l) a b c d := by
  intro t ht
  rcases List.mem_cons.1 ht with rfl | ht
  exacts [hs, hl t ht]

theorem append (h₁ : InZones l₁ a b c d) (h₂ : InZones l₂ a b c d) :
    InZones (l₁ ++ l₂) a b c d := by
  intro t ht
  rcases List.mem_append.1 ht with ht | ht
  exacts [h₁ t ht, h₂ t ht]

theorem mono (hl : InZones l a b c d) (ha : w ≤ a) (hb : b ≤ x) (hc : y ≤ c) (hd : d ≤ z) :
    InZones l w x y z := fun t ht =>
  (hl t ht).imp (fun h => h.mono ha hb) (fun h => h.mono hc hd)

/-- Concatenating two lists of stores whose zones lie in the target zones. -/
theorem append_of_le (h₁ : InZones l₁ a b c d) (h₂ : InZones l₂ e f g h)
    (hab : w ≤ a ∧ b ≤ x ∨ y ≤ a ∧ b ≤ z) (hcd : w ≤ c ∧ d ≤ x ∨ y ≤ c ∧ d ≤ z)
    (hef : w ≤ e ∧ f ≤ x ∨ y ≤ e ∧ f ≤ z) (hgh : w ≤ g ∧ h ≤ x ∨ y ≤ g ∧ h ≤ z) :
    InZones (l₁ ++ l₂) w x y z := by
  intro t ht
  rcases List.mem_append.1 ht with ht | ht
  · have := h₁ t ht
    unfold Store.Within at *
    omega
  · have := h₂ t ht
    unfold Store.Within at *
    omega

/-- Two lists of stores in separated zones: their concatenation is pairwise disjoint when each
is. -/
theorem pairwise_append (h₁ : InZones l₁ a b c d) (h₂ : InZones l₂ e f g h)
    (p₁ : l₁.Pairwise Store.Disjoint) (p₂ : l₂.Pairwise Store.Disjoint)
    (hsep : (b ≤ e ∨ f ≤ a) ∧ (b ≤ g ∨ h ≤ a) ∧ (d ≤ e ∨ f ≤ c) ∧ (d ≤ g ∨ h ≤ c)) :
    (l₁ ++ l₂).Pairwise Store.Disjoint := by
  refine List.pairwise_append.2 ⟨p₁, p₂, fun s hs t ht => ?_⟩
  have := h₁ s hs
  have := h₂ t ht
  unfold Store.Within Store.Disjoint at *
  omega

end InZones

namespace Mem

/-- Memory after one store. -/
def store (m : Mem) (s : Store) : Mem := fun x => (s.byteAt? x).getD (m x)

/-- Memory after the stores `ss`, made in order. -/
def storeAll (m : Mem) (ss : List Store) : Mem := ss.foldl store m

/-- The `n` bytes from `a` upward. -/
def read (m : Mem) (a : BitVec 64) (n : Nat) : List (BitVec 8) :=
  (List.range n).map fun i => m (a + BitVec.ofNat 64 i)

@[simp] theorem storeAll_nil (m : Mem) : m.storeAll [] = m := rfl

@[simp] theorem storeAll_cons (m : Mem) (s : Store) (ss : List Store) :
    m.storeAll (s :: ss) = (m.store s).storeAll ss := rfl

@[simp] theorem length_read (m : Mem) (a : BitVec 64) (n : Nat) : (m.read a n).length = n := by
  simp [read]

theorem store_of_not_covers {m : Mem} {s : Store} {x : BitVec 64} (hw : s.NoWrap)
    (h : ¬ s.Covers x) : m.store s x = m x := by
  simp only [store, Store.byteAt?_eq_none hw h, Option.getD_none]

/-- Stores that do not cover `x` leave it alone. -/
theorem storeAll_of_not_covers {m : Mem} {ss : List Store} {x : BitVec 64}
    (h : ∀ s ∈ ss, s.NoWrap ∧ ¬ s.Covers x) : m.storeAll ss x = m x := by
  induction ss generalizing m with
  | nil => rfl
  | cons s ss ih =>
    rw [storeAll_cons, ih fun t ht => h t (List.mem_cons_of_mem _ ht)]
    exact store_of_not_covers (h s (List.mem_cons_self _ _)).1 (h s (List.mem_cons_self _ _)).2

theorem not_covers_of_disjoint {s t : Store} {x : BitVec 64} (hd : s.Disjoint t)
    (hx : s.Covers x) : ¬ t.Covers x := by
  unfold Store.Disjoint Store.Covers at *
  omega

/-- **A byte of one of pairwise disjoint stores is what memory holds after all of them.** -/
theorem storeAll_of_mem {m : Mem} {ss : List Store} {s : Store} {x : BitVec 64} {b : BitVec 8}
    (hp : ss.Pairwise Store.Disjoint) (hw : ∀ t ∈ ss, t.NoWrap) (hs : s ∈ ss)
    (hc : s.addr.toNat ≤ x.toNat) (hb : s.bytes[x.toNat - s.addr.toNat]? = some b) :
    m.storeAll ss x = b := by
  have hx : s.Covers x := ⟨hc, by have := (List.getElem?_eq_some_iff.1 hb).1; omega⟩
  induction ss generalizing m with
  | nil => cases hs
  | cons t ss ih =>
    rw [List.pairwise_cons] at hp
    rw [storeAll_cons]
    rcases List.mem_cons.1 hs with rfl | hs
    · rw [storeAll_of_not_covers fun u hu =>
        ⟨hw u (List.mem_cons_of_mem _ hu), not_covers_of_disjoint (hp.1 u hu) hx⟩]
      simp only [store, Store.byteAt?_of_le hc, hb, Option.getD_some]
    · exact ih hp.2 (fun u hu => hw u (List.mem_cons_of_mem _ hu)) hs

/-- **The bytes of one of pairwise disjoint stores read back after all of them.** -/
theorem read_storeAll_of_mem {m : Mem} {ss : List Store} {s : Store}
    (hp : ss.Pairwise Store.Disjoint) (hw : ∀ t ∈ ss, t.NoWrap) (hs : s ∈ ss) :
    (m.storeAll ss).read s.addr s.bytes.length = s.bytes := by
  have hws := hw s hs
  unfold Store.NoWrap at hws
  apply List.ext_getElem (by simp)
  intro i hi _
  have hi' : i < s.bytes.length := by simpa using hi
  have haddr : (s.addr + BitVec.ofNat 64 i).toNat = s.addr.toNat + i := by
    rw [BitVec.toNat_add, BitVec.toNat_ofNat]; omega
  simp only [read, List.getElem_map, List.getElem_range]
  exact storeAll_of_mem hp hw hs (by omega)
    (by rw [haddr, Nat.add_sub_cancel_left, List.getElem?_eq_getElem hi'])

theorem read_succ (m : Mem) (a : BitVec 64) (n : Nat) :
    m.read a (n + 1) = m a :: m.read (a + 1) n := by
  simp only [read, List.range_succ_eq_map, List.map_cons, List.map_map]
  refine congrArg₂ _ (by simp) (List.map_congr_left fun i _ => ?_)
  simp only [Function.comp, Nat.succ_eq_add_one]
  rw [BitVec.ofNat_add, BitVec.add_comm (BitVec.ofNat 64 i), BitVec.add_assoc]
  rfl

theorem read_add (m : Mem) (a : BitVec 64) (n k : Nat) :
    m.read a (n + k) = m.read a n ++ m.read (a + BitVec.ofNat 64 n) k := by
  induction n generalizing a with
  | zero => simp [read]
  | succ n ih =>
    rw [Nat.add_right_comm, read_succ, ih, read_succ, List.cons_append, BitVec.ofNat_add,
      BitVec.add_comm (BitVec.ofNat 64 n), BitVec.add_assoc]
    rfl

end Mem

/-! ## Words -/

/-- The `n` low bytes of `v`, least significant first. -/
def leBytes (v : Nat) : Nat → List (BitVec 8)
  | 0 => []
  | n + 1 => BitVec.ofNat 8 v :: leBytes (v / 256) n

/-- The number whose little-endian bytes are `bs`. -/
def leValue : List (BitVec 8) → Nat
  | [] => 0
  | b :: bs => b.toNat + 256 * leValue bs

@[simp] theorem length_leBytes (v n : Nat) : (leBytes v n).length = n := by
  induction n generalizing v <;> simp [leBytes, *]

theorem leValue_leBytes (v n : Nat) : leValue (leBytes v n) = v % 256 ^ n := by
  induction n generalizing v with
  | zero => simp [leBytes, leValue, Nat.mod_one]
  | succ n ih =>
    rw [leBytes, leValue, ih, pow_succ, mul_comm _ 256, Nat.mod_mul, BitVec.toNat_ofNat]

/-- The eight bytes a `uint64_t` occupies in memory. -/
def u64Bytes (w : BitVec 64) : List (BitVec 8) := leBytes w.toNat 8

@[simp] theorem length_u64Bytes (w : BitVec 64) : (u64Bytes w).length = 8 := length_leBytes _ _

/-- The `uint64_t` stored at `a`. -/
def Mem.loadU64 (m : Mem) (a : BitVec 64) : BitVec 64 := BitVec.ofNat 64 (leValue (m.read a 8))

theorem Mem.loadU64_of_read {m : Mem} {a w : BitVec 64} (h : m.read a 8 = u64Bytes w) :
    m.loadU64 a = w := by
  apply BitVec.eq_of_toNat_eq
  rw [loadU64, h, u64Bytes, leValue_leBytes, BitVec.toNat_ofNat,
    show (256 : Nat) ^ 8 = 2 ^ 64 from rfl, Nat.mod_mod, Nat.mod_eq_of_lt w.isLt]

/-! ## Strings -/

/-- The NUL-terminated string at `p`, looking at no more than `fuel` bytes. -/
def Mem.readCStr (m : Mem) (p : BitVec 64) : Nat → Option (List (BitVec 8))
  | 0 => none
  | fuel + 1 => if m p = 0 then some [] else (m.readCStr (p + 1) fuel).map (m p :: ·)

/-- A string without NUL bytes followed by a NUL reads back as itself. -/
theorem Mem.readCStr_of_read {m : Mem} {p : BitVec 64} {s : List (BitVec 8)} {fuel : Nat}
    (h : m.read p (s.length + 1) = s ++ [0]) (hs : 0 ∉ s) (hf : s.length < fuel) :
    m.readCStr p fuel = some s := by
  induction s generalizing p fuel with
  | nil =>
    obtain ⟨fuel, rfl⟩ : ∃ f, fuel = f + 1 := ⟨fuel - 1, by simp at hf; omega⟩
    simp only [List.length_nil, read_succ, List.nil_append, List.cons.injEq] at h
    simp [readCStr, h.1]
  | cons c s ih =>
    obtain ⟨fuel, rfl⟩ : ∃ f, fuel = f + 1 := ⟨fuel - 1, by simp at hf; omega⟩
    rw [List.length_cons, read_succ, List.cons_append, List.cons.injEq] at h
    have hc : c ≠ 0 := fun hc => hs (hc ▸ List.mem_cons_self _ _)
    rw [readCStr, h.1, if_neg hc,
      ih h.2 (fun h0 => hs (List.mem_cons_of_mem _ h0)) (by simp at hf; omega)]
    rfl

end Junction
