import Junction.Base.Errno
import Mathlib.Data.BitVec

/-!
# The system call tables and dispatch (`syscall.cc`)

A system call trapped by seccomp reaches `sys_dispatch` with its number as a `long`. The function
returns `-ENOSYS` when `syscall >= SYS_NR` and otherwise calls `sys_tbl[syscall]`. `SYS_NR` and
`sys_tbl` come from the generated header `systbl.h`, which is not among the sources: `SYS_NR` is
the number of entries of the table, an integer constant, so the comparison with the `long` is
signed.

`SyscallInit` puts the `uintr` entry points at 451 and 452 of both `sys_tbl` and `sys_tbl_strace`,
maps the trampoline's table `dst_tbl`, copies `sys_tbl_strace` over `sys_tbl` when `strace` is on,
points 453 and 454 at the entries 451 and 452 when stack switching is on, and copies `sys_tbl`
into `dst_tbl`. `SyscallForceStackSwitch` and `SyscallRestoreNoStackSwitch` then set the entries
453 and 454 of `dst_tbl`. The entries are of any type `α`: the handlers, which `systbl.h` declares.

* `sys_dispatch_negative`: a negative number passes the check, and `sys_tbl` is read at a negative
  index.
* `SyscallInit_tables`: after a successful `SyscallInit` and any sequence of the two switches,
  `dst_tbl` is `sys_tbl` outside 453 and 454, holds there the stack-switching pair or the plain
  pair, keeps the `uintr` entry points whether `strace` is on or not, and keeps the stack-switching
  pair for good when stack switching was on at `SyscallInit`.
-/

namespace Junction

/-- What `sys_dispatch` does: return a value, or call the entry of `sys_tbl` at `index` with the six
arguments and return what it returns. -/
inductive Dispatch
  | ret (value : BitVec 64)
  | call (index : Int) (args : Fin 6 → BitVec 64)

/-- `sys_dispatch(arg0, ..., arg5, syscall)` for a table of `SYS_NR` entries: `-ENOSYS` (as an
`unsigned long`) when `syscall >= SYS_NR` as signed numbers, else a call through
`sys_tbl[syscall]`. -/
def sys_dispatch (SYS_NR : Int) (args : Fin 6 → BitVec 64) (syscall : BitVec 64) : Dispatch :=
  if syscall.toInt ≥ SYS_NR then .ret (BitVec.ofInt 64 (-ENOSYS)) else .call syscall.toInt args

/-- **A negative system call number indexes `sys_tbl` below its start**: whatever the size of the
table, `sys_dispatch` calls through the entry at the negative index instead of returning
`-ENOSYS`. -/
theorem sys_dispatch_negative (SYS_NR : Int) (hnr : 0 ≤ SYS_NR) (args : Fin 6 → BitVec 64)
    (syscall : BitVec 64) (hneg : syscall.toInt < 0) :
    sys_dispatch SYS_NR args syscall = .call syscall.toInt args := by
  rw [sys_dispatch, if_neg (by omega)]

theorem sys_dispatch_negative_at_minus_one : (0 : Int) ≤ 455 ∧ (-1 : BitVec 64).toInt < 0 ∧
    sys_dispatch 455 (fun _ => 0) (-1) = .call (-1 : BitVec 64).toInt (fun _ => 0) :=
  ⟨by decide, by decide, sys_dispatch_negative 455 (by decide) (fun _ => 0) (-1) (by decide)⟩

/-! ## Faults inside the entry code -/

/-- A `SyscallTarget`: the entry `start`, the return point `postcall` and the `end` of one of the
entry and exit routines. -/
structure SyscallTarget where
  start : BitVec 64
  postcall : BitVec 64
  «end» : BitVec 64

/-- `FaultStatus`. -/
inductive FaultStatus
  | kNotInSyscall
  | kInSyscall
  | kCompletingSyscall
  deriving DecidableEq

/-- `CheckFaultIP(rip)` over the targets `syscallTargets`, in their order: the status of the first
target whose `[start, postcall)` or `[postcall, end)` holds `rip`. -/
def CheckFaultIP : List SyscallTarget → BitVec 64 → FaultStatus
  | [], _ => .kNotInSyscall
  | target :: targets, rip =>
    if rip ≥ target.start ∧ rip < target.postcall then .kInSyscall
    else if rip ≥ target.postcall ∧ rip < target.«end» then .kCompletingSyscall
    else CheckFaultIP targets rip

/-- `rip` lies in one of the two ranges of `target`. -/
def SyscallTarget.covers (target : SyscallTarget) (rip : BitVec 64) : Prop :=
  (rip ≥ target.start ∧ rip < target.postcall) ∨ (rip ≥ target.postcall ∧ rip < target.«end»)

/-- **When no two targets share an address, `CheckFaultIP` does not depend on their order**:
`rip` is in a system call exactly when it lies in `[start, postcall)` of some target, and
completing one exactly when it lies in `[postcall, end)` of some target and in no
`[start, postcall)`. -/
theorem CheckFaultIP_spec (targets : List SyscallTarget)
    (hdisj : targets.Pairwise fun a b => ∀ rip, a.covers rip → ¬ b.covers rip) (rip : BitVec 64) :
    CheckFaultIP targets rip =
      if ∃ t ∈ targets, rip ≥ t.start ∧ rip < t.postcall then .kInSyscall
      else if ∃ t ∈ targets, rip ≥ t.postcall ∧ rip < t.«end» then .kCompletingSyscall
      else .kNotInSyscall := by
  induction targets with
  | nil => simp [CheckFaultIP]
  | cons a targets ih =>
    obtain ⟨ha, hrest⟩ := List.pairwise_cons.1 hdisj
    rw [CheckFaultIP, ih hrest]
    by_cases h1 : rip ≥ a.start ∧ rip < a.postcall
    · rw [if_pos h1, if_pos ⟨a, List.mem_cons_self _ _, h1⟩]
    by_cases h2 : rip ≥ a.postcall ∧ rip < a.«end»
    · -- `rip` is completing a call of `a`, so it lies in no `[start, postcall)`
      rw [if_neg h1, if_pos h2, if_neg ?_, if_pos ⟨a, List.mem_cons_self _ _, h2⟩]
      rintro ⟨t, ht, hrip⟩
      rcases List.mem_cons.1 ht with rfl | ht
      · exact h1 hrip
      · exact ha t ht rip (.inr h2) (.inl hrip)
    · rw [if_neg h1, if_neg h2]
      simp only [List.mem_cons, exists_eq_or_imp, h1, h2, false_or]

theorem CheckFaultIP_spec_two :
    ([⟨0x1000, 0x1010, 0x1020⟩, ⟨0x2000, 0x2010, 0x2020⟩] : List SyscallTarget).Pairwise
      (fun a b => ∀ rip, a.covers rip → ¬ b.covers rip) ∧
    CheckFaultIP [⟨0x1000, 0x1010, 0x1020⟩, ⟨0x2000, 0x2010, 0x2020⟩] 0x2018 =
      if ∃ t ∈ ([⟨0x1000, 0x1010, 0x1020⟩, ⟨0x2000, 0x2010, 0x2020⟩] : List SyscallTarget),
          (0x2018 : BitVec 64) ≥ t.start ∧ (0x2018 : BitVec 64) < t.postcall then .kInSyscall
      else if ∃ t ∈ ([⟨0x1000, 0x1010, 0x1020⟩, ⟨0x2000, 0x2010, 0x2020⟩] : List SyscallTarget),
          (0x2018 : BitVec 64) ≥ t.postcall ∧ (0x2018 : BitVec 64) < t.«end» then
        .kCompletingSyscall
      else .kNotInSyscall := by
  have hdisj : ([⟨0x1000, 0x1010, 0x1020⟩, ⟨0x2000, 0x2010, 0x2020⟩] : List SyscallTarget).Pairwise
      (fun a b => ∀ rip, a.covers rip → ¬ b.covers rip) := by
    simp only [List.pairwise_cons, List.mem_cons, List.mem_singleton, forall_eq_or_imp,
      forall_eq, List.not_mem_nil, false_imp_iff, implies_true, List.Pairwise.nil, and_true]
    intro rip ha hb
    simp only [SyscallTarget.covers] at ha hb
    bv_omega
  exact ⟨hdisj, CheckFaultIP_spec _ hdisj _⟩

/-! ## The tables -/

/-- What `SyscallInit` reads of the configuration: `uintr_enabled`,
`GetCfg().strace_enabled()` and `GetCfg().stack_switch_enabled()`. -/
structure SyscallCfg where
  uintr_enabled : Bool
  strace_enabled : Bool
  stack_switch_enabled : Bool

/-- `sys_tbl`, `sys_tbl_strace` and the trampoline's table `dst_tbl`. -/
structure SysTables (α : Type) where
  sys_tbl : Nat → α
  sys_tbl_strace : Nat → α
  dst_tbl : Nat → α

variable {α : Type}

/-- `dst_tbl[453] = sys_tbl[a]; dst_tbl[454] = sys_tbl[b];`, the body of both switches. -/
def setStackEntries (T : SysTables α) (a b : Nat) : SysTables α :=
  let dst_tbl := Function.update T.dst_tbl 453 (T.sys_tbl a)
  { T with dst_tbl := Function.update dst_tbl 454 (T.sys_tbl b) }

/-- `SyscallForceStackSwitch()`. -/
def SyscallForceStackSwitch (T : SysTables α) : SysTables α := setStackEntries T 451 452

/-- `SyscallRestoreNoStackSwitch()`. -/
def SyscallRestoreNoStackSwitch (T : SysTables α) : SysTables α := setStackEntries T 453 454

/-- `SyscallInit()`, given the two `uintr` entry points and what `KernelMMapFixed` of `dst_tbl`
returns. On an error it returns the error with the tables as they are by then. -/
def SyscallInit (cfg : SyscallCfg) (enter_uintr enter_preserve_regs_uintr : α)
    (mmap : Except Int Unit) (T : SysTables α) : Except Int Unit × SysTables α :=
  let T := if cfg.uintr_enabled then
      { T with
        sys_tbl := Function.update (Function.update T.sys_tbl 451 enter_uintr) 452
          enter_preserve_regs_uintr
        sys_tbl_strace := Function.update (Function.update T.sys_tbl_strace 451 enter_uintr) 452
          enter_preserve_regs_uintr }
    else T
  match mmap with
  | .error e => (.error e, T)
  | .ok () =>
    let T := if cfg.strace_enabled then { T with sys_tbl := T.sys_tbl_strace } else T
    let T := if cfg.stack_switch_enabled then
        let sys_tbl := Function.update T.sys_tbl 453 (T.sys_tbl 451)
        { T with sys_tbl := Function.update sys_tbl 454 (sys_tbl 452) }
      else T
    (.ok (), { T with dst_tbl := T.sys_tbl })

/-- A call of one of the two switches. -/
inductive StackSwitch
  | force
  | restore

/-- The calls `calls`, in order. -/
def switchRun (T : SysTables α) (calls : List StackSwitch) : SysTables α :=
  calls.foldl (fun T c => match c with
    | .force => SyscallForceStackSwitch T
    | .restore => SyscallRestoreNoStackSwitch T) T

/-- What holds of the tables after `SyscallInit` and between the switches: `dst_tbl` is `sys_tbl`
outside 453 and 454, and holds there the pair of 451 and 452 or the pair of 453 and 454. -/
def TablesAgree (T : SysTables α) : Prop :=
  (∀ i, i ≠ 453 → i ≠ 454 → T.dst_tbl i = T.sys_tbl i) ∧
    ((T.dst_tbl 453 = T.sys_tbl 451 ∧ T.dst_tbl 454 = T.sys_tbl 452) ∨
      (T.dst_tbl 453 = T.sys_tbl 453 ∧ T.dst_tbl 454 = T.sys_tbl 454))

@[simp] theorem setStackEntries_sys_tbl (T : SysTables α) (a b : Nat) :
    (setStackEntries T a b).sys_tbl = T.sys_tbl := rfl

/-- A switch sets the entries 453 and 454 of `dst_tbl` and leaves the others. -/
theorem setStackEntries_dst_tbl (T : SysTables α) (a b i : Nat) :
    (setStackEntries T a b).dst_tbl i =
      if i = 454 then T.sys_tbl b else if i = 453 then T.sys_tbl a else T.dst_tbl i := by
  simp only [setStackEntries, Function.update_apply]

/-- Each switch keeps `TablesAgree`, and neither touches `sys_tbl`. -/
theorem switchRun_agree (T : SysTables α) (hT : TablesAgree T) (calls : List StackSwitch) :
    TablesAgree (switchRun T calls) ∧ (switchRun T calls).sys_tbl = T.sys_tbl := by
  induction calls generalizing T with
  | nil => exact ⟨hT, rfl⟩
  | cons c calls ih =>
    have hstep : TablesAgree (match c with
        | .force => SyscallForceStackSwitch T | .restore => SyscallRestoreNoStackSwitch T) := by
      refine ⟨fun i h3 h4 => ?_, ?_⟩
      · cases c <;> simp [SyscallForceStackSwitch, SyscallRestoreNoStackSwitch,
          setStackEntries_dst_tbl, h3, h4, hT.1 i h3 h4]
      · cases c <;> simp [SyscallForceStackSwitch, SyscallRestoreNoStackSwitch,
          setStackEntries_dst_tbl]
    obtain ⟨h, hs⟩ := ih _ hstep
    exact ⟨h, hs.trans (by cases c <;> rfl)⟩

/-- What a successful `SyscallInit` leaves in the tables. -/
theorem SyscallInit_ok (cfg : SyscallCfg) (eu ep : α) (T : SysTables α) :
    let T' := (SyscallInit cfg eu ep (.ok ()) T).2
    T'.dst_tbl = T'.sys_tbl ∧
      (cfg.uintr_enabled = true → T'.sys_tbl 451 = eu ∧ T'.sys_tbl 452 = ep) ∧
      (cfg.stack_switch_enabled = true →
        T'.sys_tbl 453 = T'.sys_tbl 451 ∧ T'.sys_tbl 454 = T'.sys_tbl 452) := by
  cases cfg with
  | mk uintr strace stack =>
    cases uintr <;> cases strace <;> cases stack <;>
      simp [SyscallInit, Function.update_apply]

/-- **The trampoline's table after `SyscallInit` and any switches**: after a successful
`SyscallInit` and any sequence of `SyscallForceStackSwitch` and `SyscallRestoreNoStackSwitch`,
`dst_tbl` is `sys_tbl` outside 453 and 454 and holds there `sys_tbl[451..452]` or
`sys_tbl[453..454]`; with `uintr` it holds the `uintr` entry points at 451 and 452, with `strace`
on or off; and with stack switching on at `SyscallInit` it holds `sys_tbl[451..452]` at 453 and 454
after every sequence, so `SyscallRestoreNoStackSwitch` does not restore the plain entries. -/
theorem SyscallInit_tables (cfg : SyscallCfg) (eu ep : α) (T : SysTables α)
    (calls : List StackSwitch) :
    let D := switchRun (SyscallInit cfg eu ep (.ok ()) T).2 calls
    TablesAgree D ∧ (cfg.uintr_enabled = true → D.dst_tbl 451 = eu ∧ D.dst_tbl 452 = ep) ∧
      (cfg.stack_switch_enabled = true →
        D.dst_tbl 453 = D.sys_tbl 451 ∧ D.dst_tbl 454 = D.sys_tbl 452) := by
  obtain ⟨hdst, huintr, hstack⟩ := SyscallInit_ok cfg eu ep T
  have hagree : TablesAgree (SyscallInit cfg eu ep (.ok ()) T).2 :=
    ⟨fun i _ _ => by rw [hdst], .inr ⟨by rw [hdst], by rw [hdst]⟩⟩
  obtain ⟨hD, hsys⟩ := switchRun_agree _ hagree calls
  refine ⟨hD, fun hu => ?_, fun hs => ?_⟩
  · rw [hD.1 451 (by decide) (by decide), hD.1 452 (by decide) (by decide), hsys]
    exact huintr hu
  · rcases hD.2 with h | ⟨h3, h4⟩
    · exact h
    · rw [h3, h4, hsys]
      exact hstack hs

end Junction
