import Mathlib.Logic.Function.Basic

/-!
# Initialising a directory on its first access (`memfs.h`)

A `MemIDir` whose subclass fills it lazily runs `DoInitialize()` on the first access, guarded by
the double-checked pattern of `DoInitCheck` and `RunInitialize`:

* `DoInitCheck`: `if (!load_acquire(&initialized_)) RunInitialize();`
* `RunInitialize`: take `lock_`; `if (!initialized_) { DoInitialize(); MarkInitialized(); }`;
  release `lock_`, with `MarkInitialized` the `store_release` of `true` to `initialized_`.

The model interleaves any number of threads, each calling `DoInitCheck` again and again; a
schedule names the thread that takes the next atomic step. The acquire load pairs with the
release store, so a thread that reads `initialized_ = true` sees what `DoInitialize` wrote: the
interleavings are sequentially consistent, and what `DoInitialize` adds to the directory is the
flag `filled`. `ClearInitialized`, which no code among the sources calls, is left out, and so are
the other users of `lock_` (`Mount`, `Unmount`, `Insert`), which only make `lock_` wait longer.

* `InitInv.run`: the invariant holds after every schedule.
* `DoInitCheck_safe`: `DoInitialize` runs at most once, no two threads are ever inside the
  critical section together, no thread returns from `DoInitCheck` before `DoInitialize` has
  returned, and none is past `DoInitCheck` while `DoInitialize` runs.
-/

namespace Junction.Memfs

/-- Where a thread is in `DoInitCheck` and `RunInitialize`. -/
inductive InitPc
  /-- About to `load_acquire(&initialized_)` in `DoInitCheck`. -/
  | check
  /-- In `RunInitialize`, waiting for `lock_`. -/
  | acquire
  /-- Holding `lock_`, about to read `initialized_` again. -/
  | recheck
  /-- Holding `lock_`, about to call `DoInitialize()`. -/
  | init
  /-- Inside `DoInitialize()`. -/
  | filling
  /-- `DoInitialize()` has returned; about to `MarkInitialized()`. -/
  | mark
  /-- About to release `lock_`. -/
  | unlock
  /-- Returned from `DoInitCheck`: the caller uses the directory. -/
  | done
  deriving DecidableEq

/-- The steps of `RunInitialize` taken with `lock_` held. -/
def InitPc.critical : InitPc → Bool
  | .recheck | .init | .filling | .mark | .unlock => true
  | _ => false

/-- The state shared by the threads, and where each of them is. -/
structure DirInit where
  /-- `initialized_`. -/
  initialized : Bool
  /-- The thread holding `lock_`, if any. -/
  holder : Option Nat
  /-- How many times `DoInitialize()` has been entered. -/
  runs : Nat
  /-- `DoInitialize()` has returned: what it adds to the directory is in place. -/
  filled : Bool
  /-- Where each thread is. -/
  pc : Nat → InitPc

/-- A directory just built: not initialised, `lock_` free, every thread about to call
`DoInitCheck`. -/
def DirInit.start : DirInit := ⟨false, none, 0, false, fun _ => .check⟩

/-- Thread `t` moves to `p`. -/
def DirInit.setPc (s : DirInit) (t : Nat) (p : InitPc) : DirInit :=
  { s with pc := Function.update s.pc t p }

/-- One atomic step of thread `t`. A thread waiting for `lock_` while another thread holds it does
not move; a thread that has returned calls `DoInitCheck` again. -/
def initStep (s : DirInit) (t : Nat) : DirInit :=
  match s.pc t with
  | .check => s.setPc t (if s.initialized then .done else .acquire)
  | .acquire =>
    match s.holder with
    | none => { s.setPc t .recheck with holder := some t }
    | some _ => s
  | .recheck => s.setPc t (if s.initialized then .unlock else .init)
  | .init => { s.setPc t .filling with runs := s.runs + 1 }
  | .filling => { s.setPc t .mark with filled := true }
  | .mark => { s.setPc t .unlock with initialized := true }
  | .unlock => { s.setPc t .done with holder := none }
  | .done => s.setPc t .check

/-- The state after the threads of `sched` took one step each, in order. -/
def initRun (s : DirInit) (sched : List Nat) : DirInit := sched.foldl initStep s

example : (initRun DirInit.start [0, 1, 0, 0, 1, 0, 0, 0, 0, 1, 1, 1]).pc 1 = .done := by
  decide

@[simp] theorem DirInit.setPc_pc (s : DirInit) (t : Nat) (p : InitPc) (u : Nat) :
    (s.setPc t p).pc u = if u = t then p else s.pc u :=
  Function.update_apply _ _ _ _

@[simp] theorem DirInit.setPc_holder (s : DirInit) (t : Nat) (p : InitPc) :
    (s.setPc t p).holder = s.holder := rfl

@[simp] theorem DirInit.setPc_initialized (s : DirInit) (t : Nat) (p : InitPc) :
    (s.setPc t p).initialized = s.initialized := rfl

@[simp] theorem DirInit.setPc_runs (s : DirInit) (t : Nat) (p : InitPc) :
    (s.setPc t p).runs = s.runs := rfl

@[simp] theorem DirInit.setPc_filled (s : DirInit) (t : Nat) (p : InitPc) :
    (s.setPc t p).filled = s.filled := rfl

/-! ## The invariant -/

/-- The values `(initialized_, runs, filled)` can have while the holder of `lock_` is at `p`
(`none` when `lock_` is free). -/
def phases : Option InitPc → List (Bool × Nat × Bool)
  | none | some .recheck => [(false, 0, false), (true, 1, true)]
  | some .init => [(false, 0, false)]
  | some .filling => [(false, 1, false)]
  | some .mark => [(false, 1, true)]
  | some .unlock => [(true, 1, true)]
  | some _ => []

/-- The invariant of the protocol. -/
structure InitInv (s : DirInit) : Prop where
  /-- Exactly the threads inside the critical section hold `lock_`. -/
  held_iff : ∀ u, (s.pc u).critical = true ↔ s.holder = some u
  /-- The shared state is one that the holder's place allows. -/
  phase : (s.initialized, s.runs, s.filled) ∈ phases (s.holder.map s.pc)
  /-- A thread returns from `DoInitCheck` only once `initialized_` is set. -/
  done_initialized : ∀ u, s.pc u = .done → s.initialized = true

theorem InitInv.start : InitInv DirInit.start where
  held_iff _ := by simp [DirInit.start, InitPc.critical]
  phase := by decide
  done_initialized _ h := by cases h

/-- Two threads inside the critical section are the same thread. -/
theorem InitInv.exclusive {s : DirInit} (h : InitInv s) {t u : Nat}
    (ht : (s.pc t).critical = true) (hu : (s.pc u).critical = true) : t = u :=
  Option.some.inj (((h.held_iff t).1 ht).symm.trans ((h.held_iff u).1 hu))

/-! ## One step keeps the invariant -/

section Step

variable {s : DirInit} {t : Nat}

/-- A step of a thread outside the critical section that only moves it, to a place outside. -/
theorem InitInv.setPc_outside (h : InitInv s) (hnt : s.holder ≠ some t) {p : InitPc}
    (hp : p.critical = false) (hdone : p = .done → s.initialized = true) :
    InitInv (s.setPc t p) where
  held_iff u := by
    by_cases hut : u = t
    · subst hut
      simp [hp, hnt]
    · simpa [hut] using h.held_iff u
  phase := by
    have hmap : s.holder.map (s.setPc t p).pc = s.holder.map s.pc := by
      cases hh : s.holder with
      | none => rfl
      | some v =>
        have hvt : v ≠ t := fun he => hnt (he ▸ hh)
        simp [hvt]
    simpa [hmap] using h.phase
  done_initialized u hu := by
    by_cases hut : u = t
    · subst hut
      simp only [DirInit.setPc_pc, if_true] at hu
      exact hdone hu
    · simp only [DirInit.setPc_pc, if_neg hut] at hu
      exact h.done_initialized u hu

/-- A step of the holder of `lock_` that keeps it: it moves to `p` inside the critical section and
updates the shared state to one that `p` allows, never clearing `initialized_`. -/
theorem InitInv.inside (h : InitInv s) (ht : s.holder = some t) {p : InitPc}
    (hp : p.critical = true) {s' : DirInit} (hpc : s'.pc = Function.update s.pc t p)
    (hholder : s'.holder = some t) (hphase : (s'.initialized, s'.runs, s'.filled) ∈ phases (some p))
    (hmono : s.initialized = true → s'.initialized = true) : InitInv s' where
  held_iff u := by
    rw [hpc, hholder, Function.update_apply]
    by_cases hut : u = t
    · simp [hut, hp]
    · simpa [hut, ht] using h.held_iff u
  phase := by simpa [hholder, hpc] using hphase
  done_initialized u hu := by
    rw [hpc, Function.update_apply] at hu
    by_cases hut : u = t
    · rw [if_pos hut] at hu
      subst hu
      cases hp
    · rw [if_neg hut] at hu
      exact hmono (h.done_initialized u hu)

theorem InitInv.step (h : InitInv s) (t : Nat) : InitInv (initStep s t) := by
  have hcs := h.held_iff t
  have hph := h.phase
  cases hpc : s.pc t with
  | check =>
    have hnt : s.holder ≠ some t := fun he => by simpa [hpc, InitPc.critical] using hcs.2 he
    simp only [initStep, hpc]
    exact h.setPc_outside hnt (by split <;> rfl) (by split <;> simp_all)
  | acquire =>
    have hnt : s.holder ≠ some t := fun he => by simpa [hpc, InitPc.critical] using hcs.2 he
    simp only [initStep, hpc]
    cases hh : s.holder with
    | some v => exact h
    | none =>
      refine ⟨fun u => ?_, ?_, fun u hu => ?_⟩
      · by_cases hut : u = t
        · simp [hut, InitPc.critical]
        · have hu := h.held_iff u
          simp only [hh, reduceCtorEq, iff_false, Bool.not_eq_true] at hu
          simp [hut, hu, Ne.symm hut]
      · simpa [hh, phases] using hph
      · have hut : u ≠ t := by rintro rfl; simp at hu
        simp only [DirInit.setPc_pc, if_neg hut] at hu
        exact h.done_initialized u hu
  | recheck =>
    have ht : s.holder = some t := hcs.1 (by rw [hpc]; rfl)
    simp only [initStep, hpc]
    rw [ht, Option.map_some', hpc] at hph
    split
    · exact h.inside (p := .unlock) ht rfl rfl ht (by simp_all [phases]) id
    · exact h.inside (p := .init) ht rfl rfl ht (by simp_all [phases]) id
  | init =>
    have ht : s.holder = some t := hcs.1 (by rw [hpc]; rfl)
    rw [ht, Option.map_some', hpc] at hph
    simp only [initStep, hpc]
    exact h.inside (p := .filling) ht rfl rfl ht (by simp_all [phases]) id
  | filling =>
    have ht : s.holder = some t := hcs.1 (by rw [hpc]; rfl)
    rw [ht, Option.map_some', hpc] at hph
    simp only [initStep, hpc]
    exact h.inside (p := .mark) ht rfl rfl ht (by simp_all [phases]) id
  | mark =>
    have ht : s.holder = some t := hcs.1 (by rw [hpc]; rfl)
    rw [ht, Option.map_some', hpc] at hph
    simp only [initStep, hpc]
    exact h.inside (p := .unlock) ht rfl rfl ht (by simp_all [phases]) fun _ => rfl
  | unlock =>
    have ht : s.holder = some t := hcs.1 (by rw [hpc]; rfl)
    rw [ht, Option.map_some', hpc] at hph
    simp only [initStep, hpc]
    refine ⟨fun u => ?_, ?_, fun u hu => ?_⟩
    · by_cases hut : u = t
      · simp [hut, InitPc.critical]
      · have := h.held_iff u
        simp only [DirInit.setPc_pc, if_neg hut, ht, Option.some.injEq] at this ⊢
        simpa [Ne.symm hut] using this
    · simp_all [phases]
    · simp only [DirInit.setPc_pc] at hu
      split_ifs at hu
      · simp_all [phases]
      · exact h.done_initialized u hu
  | done =>
    have hnt : s.holder ≠ some t := fun he => by simpa [hpc, InitPc.critical] using hcs.2 he
    simp only [initStep, hpc]
    exact h.setPc_outside hnt rfl (fun h => by cases h)

end Step

/-- **The invariant holds after every schedule.** -/
theorem InitInv.run {s : DirInit} (h : InitInv s) (sched : List Nat) :
    InitInv (initRun s sched) := by
  induction sched generalizing s with
  | nil => exact h
  | cons t ts ih => exact ih (h.step t)

/-! ## What the invariant says -/

/-- Every place allows `DoInitialize` to have run at most once, and `initialized_` only after it
returned. -/
theorem phases_spec : ∀ o : Option InitPc, ∀ x ∈ phases o, x.2.1 ≤ 1 ∧ (x.1 = true → x.2.2 = true)
  | none, _, hx | some .recheck, _, hx | some .init, _, hx | some .filling, _, hx
  | some .mark, _, hx | some .unlock, _, hx => by
    simp only [phases, List.mem_cons, List.mem_singleton, List.not_mem_nil, or_false] at hx
    rcases hx with rfl | rfl <;> simp
  | some .check, _, hx | some .acquire, _, hx | some .done, _, hx => by simp [phases] at hx

theorem InitInv.safe {s : DirInit} (h : InitInv s) :
    s.runs ≤ 1 ∧
    (∀ t u, (s.pc t).critical = true → (s.pc u).critical = true → t = u) ∧
    (∀ t, s.pc t = .done → s.initialized = true ∧ s.filled = true) ∧
    (∀ t u, s.pc t = .filling → s.pc u ≠ .done) := by
  have hspec := phases_spec _ _ h.phase
  refine ⟨hspec.1, fun t u => h.exclusive, fun t ht => ?_, fun t u ht hu => ?_⟩
  · have hi := h.done_initialized t ht
    exact ⟨hi, hspec.2 hi⟩
  · have hph := h.phase
    rw [(h.held_iff t).1 (by rw [ht]; rfl), Option.map_some', ht] at hph
    simp only [phases, List.mem_singleton, Prod.mk.injEq] at hph
    have hdone := h.done_initialized u hu
    simp [hph.1] at hdone

/-- **`DoInitCheck` is safe in every interleaving**: whatever the number of threads and the order
of their steps, each thread calling `DoInitCheck` again and again on a directory just built,
`DoInitialize` runs at most once; no two threads are inside the critical section of
`RunInitialize` together; a thread that has returned from `DoInitCheck` finds `initialized_` set and
`DoInitialize` returned; and no thread has returned while `DoInitialize` runs. -/
theorem DoInitCheck_safe (sched : List Nat) :
    (initRun DirInit.start sched).runs ≤ 1 ∧
    (∀ t u, ((initRun DirInit.start sched).pc t).critical = true →
      ((initRun DirInit.start sched).pc u).critical = true → t = u) ∧
    (∀ t, (initRun DirInit.start sched).pc t = .done →
      (initRun DirInit.start sched).initialized = true ∧
        (initRun DirInit.start sched).filled = true) ∧
    (∀ t u, (initRun DirInit.start sched).pc t = .filling →
      (initRun DirInit.start sched).pc u ≠ .done) :=
  (InitInv.start.run sched).safe

end Junction.Memfs
