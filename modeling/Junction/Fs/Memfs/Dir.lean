import Junction.Base.Errno
import Mathlib.Data.List.Nodup
import Mathlib.Data.List.Perm.Basic
import Mathlib.Data.Int.Defs

/-!
# Directory entries and link counts (`memfs.h`)

A `MemIDir` maps names to inodes in `entries_` and calls `inc_nlink` on an inode when it adds an
entry for it and `dec_nlink` when it removes one. `InsertLocked` (and `Insert`, which takes the
lock first) refuses a name already present; `Mount` goes through `InsertLockedNoCheck`, which
assigns the entry whatever was there; `Unmount` removes an entry.

The model keeps the entries, with inodes as numbers, and for every inode the number of
`inc_nlink` calls minus `dec_nlink` calls the directory has made on it.

* `DirInv.run`: along every run in which each `Mount` names a new entry, the count of every inode
  equals the number of entries naming it.
* `Mount_over_entry`: mounting over a name already present breaks that equality.
-/

namespace Junction.Memfs

/-- A `MemIDir` as its link counting sees it. -/
structure MemIDir where
  /-- `entries_`: each name with the inode it names. -/
  entries : List (String × Nat)
  /-- The `inc_nlink` calls minus the `dec_nlink` calls made on each inode. -/
  links : Nat → Int

/-- An empty directory that has counted nothing. -/
def MemIDir.empty : MemIDir := ⟨[], fun _ => 0⟩

/-- `entries_.find(name)`. -/
def MemIDir.find (d : MemIDir) (name : String) : Option Nat := d.entries.lookup name

/-- The number of entries naming `ino`. -/
def countIn (entries : List (String × Nat)) (ino : Nat) : Nat := entries.countP fun e => e.2 = ino

/-- `ino->inc_nlink()` or `ino->dec_nlink()`: add `k` to the count of `ino`. -/
def addLink (links : Nat → Int) (ino : Nat) (k : Int) : Nat → Int :=
  fun i => if i = ino then links i + k else links i

/-- `entries_[name] = ino`: replace the entry for `name`, or add one. -/
def assign (entries : List (String × Nat)) (name : String) (ino : Nat) : List (String × Nat) :=
  if (entries.lookup name).isSome then
    entries.map fun e => if e.1 = name then (name, ino) else e
  else entries ++ [(name, ino)]

/-- `InsertLockedNoCheck(name, ino)`: `inc_nlink`, then assign the entry. -/
def InsertLockedNoCheck (d : MemIDir) (name : String) (ino : Nat) : MemIDir :=
  { links := addLink d.links ino 1, entries := assign d.entries name ino }

/-- `InsertLocked(name, ino)`: `EEXIST` when the name is present, else a new entry and
`inc_nlink`. -/
def InsertLocked (d : MemIDir) (name : String) (ino : Nat) : Except Int Unit × MemIDir :=
  match d.find name with
  | some _ => (.error EEXIST, d)
  | none => (.ok (), { entries := d.entries ++ [(name, ino)], links := addLink d.links ino 1 })

/-- `Insert(name, ino)`: `InsertLocked` under the directory's lock. -/
def Insert (d : MemIDir) (name : String) (ino : Nat) : Except Int Unit × MemIDir :=
  InsertLocked d name ino

/-- `Mount(name, ino)`: `InsertLockedNoCheck` (a directory inode is also given its new parent,
which the link counts do not see). -/
def Mount (d : MemIDir) (name : String) (ino : Nat) : Except Int Unit × MemIDir :=
  (.ok (), InsertLockedNoCheck d name ino)

/-- `Unmount(name)`: `ENOENT` when the name is absent, else `dec_nlink` on its inode and erase the
entry found. -/
def Unmount (d : MemIDir) (name : String) : Except Int Unit × MemIDir :=
  match d.find name with
  | none => (.error ENOENT, d)
  | some ino =>
    (.ok (), { entries := d.entries.erase (name, ino), links := addLink d.links ino (-1) })

/-- A call on the directory. -/
inductive DirOp
  | insert (name : String) (ino : Nat)
  | mount (name : String) (ino : Nat)
  | unmount (name : String)
  deriving DecidableEq

/-- The directory after one call. -/
def dirStep (d : MemIDir) : DirOp → MemIDir
  | .insert name ino => (Insert d name ino).2
  | .mount name ino => (Mount d name ino).2
  | .unmount name => (Unmount d name).2

/-- The directory after a run of calls. -/
def dirRun (d : MemIDir) (ops : List DirOp) : MemIDir := ops.foldl dirStep d

/-- The call is not a `Mount` over a name present in `d`. -/
def DirOp.FreshIn (d : MemIDir) : DirOp → Prop
  | .mount name _ => d.find name = none
  | _ => True

instance (d : MemIDir) : ∀ op : DirOp, Decidable (op.FreshIn d)
  | .mount _ _ => inferInstanceAs (Decidable (_ = none))
  | .insert _ _ => isTrue trivial
  | .unmount _ => isTrue trivial

/-- No `Mount` of the run goes over a name present when it runs. -/
def FreshMounts : MemIDir → List DirOp → Prop
  | _, [] => True
  | d, op :: ops => op.FreshIn d ∧ FreshMounts (dirStep d op) ops

instance decFreshMounts : ∀ (d : MemIDir) (ops : List DirOp), Decidable (FreshMounts d ops)
  | _, [] => isTrue trivial
  | d, op :: ops =>
    have := decFreshMounts (dirStep d op) ops
    inferInstanceAs (Decidable (_ ∧ _))

/-! ## The invariant -/

/-- **The link invariant**: names are unique, and the count of every inode is the number of
entries naming it. -/
structure DirInv (d : MemIDir) : Prop where
  nodup : (d.entries.map Prod.fst).Nodup
  links_eq : ∀ ino, d.links ino = countIn d.entries ino

theorem find_eq_none_iff {d : MemIDir} {name : String} :
    d.find name = none ↔ name ∉ d.entries.map Prod.fst := by
  simp only [MemIDir.find, List.lookup_eq_none_iff, List.mem_map, not_exists, not_and,
    bne_iff_ne, ne_eq]
  constructor <;> intro h p hp he <;> exact h p hp he.symm

/-- Erasing an entry present leaves the other entries, in some order. -/
theorem perm_cons_erase_entry : ∀ {l : List (String × Nat)} {a : String × Nat}, a ∈ l →
    l.Perm (a :: l.erase a)
  | b :: l, a, h => by
    by_cases hb : b = a
    · subst hb
      rw [List.erase_cons_head]
    · rw [List.erase_cons_tail (by simpa using hb)]
      have hl := perm_cons_erase_entry ((List.mem_cons.1 h).resolve_left (Ne.symm hb))
      exact (hl.cons b).trans (List.Perm.swap a b _)

theorem mem_of_find {d : MemIDir} {name : String} {ino : Nat} (hf : d.find name = some ino) :
    (name, ino) ∈ d.entries := by
  obtain ⟨l₁, l₂, he, -⟩ := List.lookup_eq_some_iff.1 hf
  simp [he]

theorem countIn_cons (e : String × Nat) (l : List (String × Nat)) (i : Nat) :
    countIn (e :: l) i = countIn l i + if e.2 = i then 1 else 0 := by
  simp [countIn, List.countP_cons]

theorem countIn_append_single (l : List (String × Nat)) (e : String × Nat) (i : Nat) :
    countIn (l ++ [e]) i = countIn l i + if e.2 = i then 1 else 0 := by
  simp [countIn, List.countP_append, List.countP_cons]

namespace DirInv

variable {d : MemIDir}

theorem empty : DirInv MemIDir.empty := ⟨List.nodup_nil, fun _ => rfl⟩

/-- Adding an entry under a new name keeps the invariant. -/
theorem add (h : DirInv d) {name : String} (hn : d.find name = none) (ino : Nat) :
    DirInv { entries := d.entries ++ [(name, ino)], links := addLink d.links ino 1 } := by
  refine ⟨?_, fun i => ?_⟩
  · simpa [List.nodup_append] using ⟨h.nodup, fun x hx => find_eq_none_iff.1 hn (List.mem_map_of_mem _ hx)⟩
  · simp only [countIn_append_single, addLink, h.links_eq]
    split_ifs <;> simp_all

theorem insert (h : DirInv d) (name : String) (ino : Nat) : DirInv (Insert d name ino).2 := by
  unfold Insert InsertLocked
  split
  · exact h
  · exact h.add ‹_› ino

theorem mount (h : DirInv d) {name : String} (hn : d.find name = none) (ino : Nat) :
    DirInv (Mount d name ino).2 := by
  have hnone : (d.entries.lookup name).isSome = false := by
    simpa [MemIDir.find] using hn
  simp only [Mount, InsertLockedNoCheck, assign, hnone, Bool.false_eq_true, if_false]
  exact h.add hn ino

theorem unmount (h : DirInv d) (name : String) : DirInv (Unmount d name).2 := by
  unfold Unmount
  split
  · exact h
  · rename_i ino hf
    have hp := perm_cons_erase_entry (mem_of_find hf)
    refine ⟨h.nodup.sublist ((List.erase_sublist _ _).map _), fun i => ?_⟩
    have hc : countIn d.entries i = countIn (d.entries.erase (name, ino)) i +
        if ino = i then 1 else 0 := (hp.countP_eq _).trans (countIn_cons _ _ i)
    simp only [addLink, h.links_eq, hc]
    by_cases hi : i = ino
    · simp only [hi, if_true]
      omega
    · simp only [hi, Ne.symm hi, if_false]
      omega

theorem step (h : DirInv d) (op : DirOp) (hop : op.FreshIn d) : DirInv (dirStep d op) := by
  cases op with
  | insert name ino => exact h.insert name ino
  | mount name ino => exact h.mount hop ino
  | unmount name => exact h.unmount name

/-- **The link invariant holds along every run whose `Mount`s name new entries.** -/
theorem run (h : DirInv d) (ops : List DirOp) (hf : FreshMounts d ops) : DirInv (dirRun d ops) := by
  induction ops generalizing d with
  | nil => exact h
  | cons op ops ih => exact ih (h.step op hf.1) hf.2

end DirInv

/-- **Every inode's count is the number of entries naming it**, along every run of `Insert`,
`Mount` and `Unmount` from an empty directory in which no `Mount` goes over a name present. -/
theorem dirRun_links_eq_entries (ops : List DirOp) (hf : FreshMounts MemIDir.empty ops)
    (ino : Nat) :
    (dirRun MemIDir.empty ops).links ino = countIn (dirRun MemIDir.empty ops).entries ino :=
  (DirInv.empty.run ops hf).links_eq ino

theorem dirRun_links_eq_entries_at_zero :
    FreshMounts MemIDir.empty [.insert "a" 0, .mount "b" 0, .unmount "a", .insert "a" 1] ∧
    (dirRun MemIDir.empty [.insert "a" 0, .mount "b" 0, .unmount "a", .insert "a" 1]).links 0 =
      countIn (dirRun MemIDir.empty
        [.insert "a" 0, .mount "b" 0, .unmount "a", .insert "a" 1]).entries 0 := by
  have hf : FreshMounts MemIDir.empty
      [.insert "a" 0, .mount "b" 0, .unmount "a", .insert "a" 1] := by decide
  exact ⟨hf, dirRun_links_eq_entries _ hf 0⟩

/-! ## Mounting over an entry -/

/-- Assigning a name present replaces its one entry. -/
theorem assign_perm {d : MemIDir} {name : String} {j : Nat} (h : DirInv d)
    (hf : d.find name = some j) (ino : Nat) :
    (assign d.entries name ino).Perm ((name, ino) :: d.entries.erase (name, j)) := by
  obtain ⟨l₁, l₂, he, hl₁⟩ := List.lookup_eq_some_iff.1 hf
  have hnd := h.nodup
  rw [he, List.map_append, List.map_cons, List.nodup_append, List.nodup_cons] at hnd
  have hl₂ : ∀ p ∈ l₂, p.1 ≠ name := fun p hp hpn => by
    have := List.mem_map_of_mem Prod.fst hp
    rw [hpn] at this
    exact hnd.2.1.1 this
  have hl₁' : ∀ p ∈ l₁, p.1 ≠ name := fun p hp hpn => by simpa [hpn] using hl₁ p hp
  have hsome : (d.entries.lookup name).isSome := by
    rw [show d.entries.lookup name = some j from hf]
    rfl
  have hj : (name, j) ∉ l₁ := fun hm => hl₁' _ hm rfl
  rw [assign, if_pos hsome, he, List.map_append, List.map_cons, if_pos rfl,
    List.erase_append_right _ hj, List.erase_cons_head,
    (List.map_congr_left fun p hp => if_neg (hl₁' p hp)).trans (List.map_id' _),
    (List.map_congr_left fun p hp => if_neg (hl₂ p hp)).trans (List.map_id' _)]
  exact List.perm_middle

/-- **`Mount` over a name already present counts one link too many** for the inode that name
named: once for the same inode mounted again (one entry, two links), once for an inode replaced
(no entry left, its link kept). -/
theorem Mount_over_entry {d : MemIDir} {name : String} {j : Nat} (h : DirInv d)
    (hf : d.find name = some j) (ino : Nat) :
    (Mount d name ino).2.links j = countIn (Mount d name ino).2.entries j + 1 := by
  have hnew : countIn (assign d.entries name ino) j =
      countIn (d.entries.erase (name, j)) j + if ino = j then 1 else 0 :=
    ((assign_perm h hf ino).countP_eq _).trans (countIn_cons _ _ j)
  have hold : countIn d.entries j = countIn (d.entries.erase (name, j)) j + 1 := by
    rw [countIn, (perm_cons_erase_entry (mem_of_find hf)).countP_eq, ← countIn, countIn_cons]
    simp
  simp only [Mount, InsertLockedNoCheck, addLink, hnew, h.links_eq, hold]
  by_cases hij : j = ino
  · simp only [hij, if_true]
  · simp only [hij, Ne.symm hij, if_false]
    push_cast
    omega

theorem Mount_over_entry_twice : DirInv (dirRun MemIDir.empty [.mount "a" 0]) ∧
    (dirRun MemIDir.empty [.mount "a" 0]).find "a" = some 0 ∧
    (Mount (dirRun MemIDir.empty [.mount "a" 0]) "a" 0).2.links 0 =
      countIn (Mount (dirRun MemIDir.empty [.mount "a" 0]) "a" 0).2.entries 0 + 1 := by
  have h := DirInv.empty.run [.mount "a" 0] (by decide)
  have hf : (dirRun MemIDir.empty [.mount "a" 0]).find "a" = some 0 := by decide
  exact ⟨h, hf, Mount_over_entry h hf 0⟩

end Junction.Memfs
