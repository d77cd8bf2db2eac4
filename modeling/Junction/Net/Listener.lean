import Junction.Base.Errno
import Mathlib.Logic.Function.Basic

/-!
# Shutting a listening TCP socket down (`tcp_listener_socket.cc`)

A `TCPListenerSocket` holds the queue `listen_q_` of a listening socket and the atomic flag
`is_shut_`. `Listen` installs a new queue; `Accept` takes a connection from it; `Shutdown` checks
that there is a queue, then shuts it down only if its `compare_exchange_strong` turns `is_shut_`
from `false` to `true`, so that concurrent calls shut the queue down once. What `rt::TCPQueue`
does with a call is outside the sources: the model counts the calls of `listen_q_.Shutdown()`
on the queue `listen_q_` holds, and takes what `rt::TCPQueue::Listen` and `listen_q_.Accept()`
return as arguments. The poll source that `Listen` installs is left out.

Concurrent `Shutdown` calls are interleaved: each thread is one call, split at its three atomic
steps (the validity check, the exchange, the call of `listen_q_.Shutdown()`), and a schedule
names the thread that takes the next step.

* `ShutInv.run`: the invariant holds after every schedule.
* `Shutdown_concurrent`: whatever the interleaving, `listen_q_.Shutdown()` is called at most once;
  and once no call is in flight, the socket is as one call of `Shutdown` alone leaves it and every
  call that ran returned what that call returns.
* `Shutdown_after_shut`: once `is_shut_` is set, no sequence of `Listen`, `Accept` and `Shutdown`
  ever shuts a queue down again: a queue that a later `Listen` installs is never shut down.
-/

namespace Junction.Net

/-- The fields of a `TCPListenerSocket` that its methods read and write. -/
structure Listener where
  /-- `listen_q_.is_valid()`. -/
  valid : Bool
  /-- `is_shut_`. -/
  is_shut : Bool
  /-- How many times `listen_q_.Shutdown()` has been called on the queue `listen_q_` holds. -/
  shutdowns : Nat
  deriving DecidableEq

namespace Listener

/-- `Listen(backlog)`, given what `rt::TCPQueue::Listen(addr_, backlog)` returned: its error is
returned; else `listen_q_` holds the new queue, which has not been shut down. -/
def Listen (l : Listener) (ret : Except Int Unit) : Except Int Unit × Listener :=
  match ret with
  | .error e => (.error e, l)
  | .ok () => (.ok (), { l with valid := true, shutdowns := 0 })

/-- `Accept()`, given what `listen_q_.Accept()` returns. -/
def Accept (l : Listener) (ret : Except Int Unit) : Except Int Unit :=
  if !l.valid then .error EINVAL else ret

/-- `Shutdown(how)`, with no other call running. -/
def Shutdown (l : Listener) : Except Int Unit × Listener :=
  if !l.valid then (.error ENOTCONN, l)
  else if !l.is_shut then (.ok (), { l with is_shut := true, shutdowns := l.shutdowns + 1 })
  else (.ok (), l)

end Listener

/-! ## Concurrent `Shutdown` calls -/

/-- Where a thread is in `Shutdown`. -/
inductive ShutPc
  /-- About to test `listen_q_.is_valid()`. -/
  | check
  /-- About to `compare_exchange_strong(shutdown, true)` on `is_shut_`. -/
  | cas
  /-- Won the exchange; about to call `listen_q_.Shutdown()`. -/
  | shut
  /-- Returned `{}`. -/
  | done
  /-- Returned `ENOTCONN`. -/
  | err
  deriving DecidableEq

/-- What a thread at `p` has returned, if it has. -/
def ShutPc.ret : ShutPc → Option (Except Int Unit)
  | .done => some (.ok ())
  | .err => some (.error ENOTCONN)
  | _ => none

/-- The socket, and where each thread is. -/
structure ShutState where
  sock : Listener
  pc : Nat → ShutPc

/-- Every thread about to call `Shutdown` on `l`. -/
def ShutState.start (l : Listener) : ShutState := ⟨l, fun _ => .check⟩

/-- Thread `t` moves to `p`. -/
def ShutState.setPc (s : ShutState) (t : Nat) (p : ShutPc) : ShutState :=
  { s with pc := Function.update s.pc t p }

/-- One atomic step of thread `t`. -/
def shutStep (s : ShutState) (t : Nat) : ShutState :=
  match s.pc t with
  | .check => s.setPc t (if s.sock.valid then .cas else .err)
  | .cas =>
    if s.sock.is_shut then s.setPc t .done
    else { s.setPc t .shut with sock := { s.sock with is_shut := true } }
  | .shut => { s.setPc t .done with sock := { s.sock with shutdowns := s.sock.shutdowns + 1 } }
  | .done | .err => s

/-- The state after the threads of `sched` took one step each, in order. -/
def shutRun (s : ShutState) (sched : List Nat) : ShutState := sched.foldl shutStep s

example : (shutRun (.start ⟨true, false, 0⟩) [0, 1, 0, 1, 1, 0]).sock = ⟨true, true, 1⟩ := by
  decide

@[simp] theorem ShutState.setPc_pc (s : ShutState) (t : Nat) (p : ShutPc) (u : Nat) :
    (s.setPc t p).pc u = if u = t then p else s.pc u :=
  Function.update_apply _ _ _ _

@[simp] theorem ShutState.setPc_sock (s : ShutState) (t : Nat) (p : ShutPc) :
    (s.setPc t p).sock = s.sock := rfl

section Steps

variable {s : ShutState} {t : Nat}

theorem shutStep_check (h : s.pc t = .check) :
    shutStep s t = s.setPc t (if s.sock.valid then .cas else .err) := by
  simp only [shutStep, h]

theorem shutStep_cas_shut (h : s.pc t = .cas) (hs : s.sock.is_shut = true) :
    shutStep s t = s.setPc t .done := by
  simp only [shutStep, h, hs, if_true]

theorem shutStep_cas_win (h : s.pc t = .cas) (hs : s.sock.is_shut = false) :
    shutStep s t = { s.setPc t .shut with sock := { s.sock with is_shut := true } } := by
  simp only [shutStep, h, hs, Bool.false_eq_true, if_false]

theorem shutStep_shut (h : s.pc t = .shut) :
    shutStep s t = { s.setPc t .done with sock := { s.sock with shutdowns := s.sock.shutdowns + 1 } } := by
  simp only [shutStep, h]

theorem shutStep_returned (h : s.pc t = .done ∨ s.pc t = .err) : shutStep s t = s := by
  rcases h with h | h <;> simp only [shutStep, h]

/-- A step of `t` moves no other thread. -/
theorem shutStep_pc_ne {u : Nat} (hut : u ≠ t) : (shutStep s t).pc u = s.pc u := by
  cases hpc : s.pc t with
  | check => simp [shutStep_check hpc, hut]
  | cas => cases hs : s.sock.is_shut <;> simp [shutStep_cas_win, shutStep_cas_shut, hpc, hs, hut]
  | shut => simp [shutStep_shut hpc, hut]
  | done => rw [shutStep_returned (.inl hpc)]
  | err => rw [shutStep_returned (.inr hpc)]

/-- A thread that steps leaves the start of `Shutdown`, and never comes back to it. -/
theorem shutStep_pc_self_ne_check : (shutStep s t).pc t ≠ .check := by
  cases hpc : s.pc t with
  | check => rw [shutStep_check hpc]; split <;> simp
  | cas => cases hs : s.sock.is_shut <;> simp [shutStep_cas_win, shutStep_cas_shut, hpc, hs]
  | shut => simp [shutStep_shut hpc]
  | done => rw [shutStep_returned (.inl hpc), hpc]; simp
  | err => rw [shutStep_returned (.inr hpc), hpc]; simp

/-- Every thread of the schedule has left the start of `Shutdown`, and so has every thread that
had left it before. -/
theorem shutRun_ne_check (sched : List Nat) (s : ShutState) (u : Nat)
    (h : u ∈ sched ∨ s.pc u ≠ .check) : (shutRun s sched).pc u ≠ .check := by
  induction sched generalizing s with
  | nil => simpa using h
  | cons t sched ih =>
    apply ih
    by_cases hus : u ∈ sched
    · exact .inl hus
    · by_cases hut : u = t
      · exact .inr (hut ▸ shutStep_pc_self_ne_check)
      · rw [shutStep_pc_ne hut]
        simpa [hus, hut] using h

end Steps

/-! ## The invariant -/

namespace Listener

theorem Shutdown_of_invalid {l : Listener} (hv : l.valid = false) :
    l.Shutdown = (.error ENOTCONN, l) := by
  simp [Shutdown, hv]

theorem Shutdown_fst_of_valid {l : Listener} (hv : l.valid = true) : l.Shutdown.1 = .ok () := by
  unfold Shutdown
  split_ifs <;> simp_all

end Listener

/-- The invariant of concurrent `Shutdown` calls on `l`. The socket goes through three stages: as
it was; `is_shut_` set by the one thread that won the exchange, which has not yet called
`listen_q_.Shutdown()`; and shut down once. -/
structure ShutInv (l : Listener) (s : ShutState) : Prop where
  stage : (s.sock = l ∧ ∀ u, s.pc u ≠ .shut) ∨
    (l.valid ∧ l.is_shut = false ∧ s.sock = { l with is_shut := true } ∧
      ∃ w, s.pc w = .shut ∧ ∀ u, s.pc u = .shut → u = w) ∨
    (l.valid ∧ l.is_shut = false ∧
      s.sock = { l with is_shut := true, shutdowns := l.shutdowns + 1 } ∧ ∀ u, s.pc u ≠ .shut)
  /-- A thread past the check found a queue. -/
  passed : ∀ u, s.pc u = .cas → l.valid
  /-- A thread returns `{}` only once `is_shut_` is set. -/
  done : ∀ u, s.pc u = .done → l.valid ∧ s.sock.is_shut
  /-- A thread returns `ENOTCONN` only when there is no queue. -/
  err : ∀ u, s.pc u = .err → l.valid = false

theorem ShutInv.start (l : Listener) : ShutInv l (.start l) where
  stage := .inl ⟨rfl, fun _ => by simp [ShutState.start]⟩
  passed _ h := by cases h
  done _ h := by cases h
  err _ h := by cases h

section Step

variable {l : Listener} {s : ShutState} {t : Nat}

theorem ShutInv.valid (h : ShutInv l s) : s.sock.valid = l.valid := by
  rcases h.stage with ⟨h1, -⟩ | ⟨-, -, h1, -⟩ | ⟨-, -, h1, -⟩ <;> rw [h1]

/-- A step that only moves a thread, between places other than the call of
`listen_q_.Shutdown()`. -/
theorem ShutInv.move (h : ShutInv l s) (ht : s.pc t ≠ .shut) {p : ShutPc} (hp : p ≠ .shut)
    (hcas : p = .cas → l.valid) (hdone : p = .done → l.valid ∧ s.sock.is_shut)
    (herr : p = .err → l.valid = false) : ShutInv l (s.setPc t p) where
  stage := by
    have hshut : ∀ u, (s.setPc t p).pc u = .shut ↔ s.pc u = .shut := fun u => by
      by_cases hut : u = t <;> simp_all
    simp only [ShutState.setPc_sock, ne_eq, hshut]
    exact h.stage
  passed u hu := by
    simp only [ShutState.setPc_pc] at hu
    split_ifs at hu
    exacts [hcas hu, h.passed u hu]
  done u hu := by
    simp only [ShutState.setPc_pc] at hu
    split_ifs at hu
    exacts [hdone hu, h.done u hu]
  err u hu := by
    simp only [ShutState.setPc_pc] at hu
    split_ifs at hu
    exacts [herr hu, h.err u hu]

/-- The thread that wins the exchange. -/
theorem ShutInv.win (h : ShutInv l s) (hpc : s.pc t = .cas) (hs : s.sock.is_shut = false) :
    ShutInv l { s.setPc t .shut with sock := { s.sock with is_shut := true } } := by
  have hv := h.passed t hpc
  obtain ⟨hsock, hnone⟩ : s.sock = l ∧ ∀ u, s.pc u ≠ .shut := by
    rcases h.stage with h1 | ⟨-, -, h1, -⟩ | ⟨-, -, h1, -⟩
    · exact h1
    all_goals rw [h1] at hs; cases hs
  refine ⟨.inr (.inl ⟨hv, hsock ▸ hs, by rw [hsock], t, by simp, fun u hu => ?_⟩), fun u hu => ?_,
    fun u hu => ?_, fun u hu => ?_⟩
  all_goals
    simp only [ShutState.setPc_pc] at hu
    split_ifs at hu with hut
  · exact hut
  · exact absurd hu (hnone u)
  · exact h.passed u hu
  · exact ⟨(h.done u hu).1, rfl⟩
  · exact h.err u hu

/-- The winner calls `listen_q_.Shutdown()`. -/
theorem ShutInv.shut (h : ShutInv l s) (hpc : s.pc t = .shut) :
    ShutInv l { s.setPc t .done with sock := { s.sock with shutdowns := s.sock.shutdowns + 1 } } := by
  obtain ⟨hv, hl, hsock, w, -, huniq⟩ :
      l.valid ∧ l.is_shut = false ∧ s.sock = { l with is_shut := true } ∧
        ∃ w, s.pc w = .shut ∧ ∀ u, s.pc u = .shut → u = w := by
    rcases h.stage with ⟨-, h1⟩ | h1 | ⟨-, -, -, h1⟩
    · exact absurd hpc (h1 t)
    · exact h1
    · exact absurd hpc (h1 t)
  have hother : ∀ u, s.pc u = .shut → u = t := fun u hu => (huniq u hu).trans (huniq t hpc).symm
  refine ⟨.inr (.inr ⟨hv, hl, by rw [hsock], fun u hu => ?_⟩), fun u hu => ?_, fun u hu => ?_,
    fun u hu => ?_⟩
  all_goals
    simp only [ShutState.setPc_pc] at hu
    split_ifs at hu with hut
  · exact hut (hother u hu)
  · exact h.passed u hu
  · exact ⟨hv, by rw [hsock]⟩
  · exact ⟨hv, by rw [hsock]⟩
  · exact h.err u hu

theorem ShutInv.step (h : ShutInv l s) (t : Nat) : ShutInv l (shutStep s t) := by
  cases hpc : s.pc t with
  | check =>
    rw [shutStep_check hpc]
    split
    · exact h.move (by simp [hpc]) (by simp) (fun _ => h.valid ▸ ‹_›) (by simp) (by simp)
    · exact h.move (by simp [hpc]) (by simp) (by simp) (by simp) (fun _ => by simp_all [h.valid])
  | cas =>
    cases hs : s.sock.is_shut
    · rw [shutStep_cas_win hpc hs]
      exact h.win hpc hs
    · rw [shutStep_cas_shut hpc hs]
      exact h.move (by simp [hpc]) (by simp) (by simp) (fun _ => ⟨h.passed t hpc, hs⟩) (by simp)
  | shut => rw [shutStep_shut hpc]; exact h.shut hpc
  | done => rw [shutStep_returned (.inl hpc)]; exact h
  | err => rw [shutStep_returned (.inr hpc)]; exact h

theorem ShutInv.run (h : ShutInv l s) (sched : List Nat) : ShutInv l (shutRun s sched) := by
  induction sched generalizing s with
  | nil => exact h
  | cons t sched ih => exact ih (h.step t)

/-- A call that has returned returned what one call alone returns. -/
theorem ShutInv.ret_eq (h : ShutInv l s) (ht : s.pc t = .done ∨ s.pc t = .err) :
    (s.pc t).ret = some l.Shutdown.1 := by
  rcases ht with hd | he
  · rw [hd, Listener.Shutdown_fst_of_valid (h.done t hd).1]
    rfl
  · rw [he, Listener.Shutdown_of_invalid (h.err t he)]
    rfl

/-- With no thread about to call `listen_q_.Shutdown()` and one call returned, the socket is as
one call alone leaves it. -/
theorem ShutInv.sock_eq (h : ShutInv l s) (hq : ∀ u, s.pc u ≠ .shut)
    (ht : s.pc t = .done ∨ s.pc t = .err) : s.sock = l.Shutdown.2 := by
  rcases ht with hd | he
  · obtain ⟨hv, hs⟩ := h.done t hd
    rcases h.stage with ⟨h1, -⟩ | ⟨-, -, -, w, hw, -⟩ | ⟨-, hl, h1, -⟩
    · rw [h1] at hs ⊢
      simp [Listener.Shutdown, hv, hs]
    · exact absurd hw (hq w)
    · rw [h1]
      simp [Listener.Shutdown, hv, hl]
  · have hv := h.err t he
    rw [Listener.Shutdown_of_invalid hv]
    rcases h.stage with ⟨h1, -⟩ | ⟨h2, -⟩ | ⟨h2, -⟩
    · exact h1
    all_goals rw [hv] at h2; cases h2

end Step

/-- **Concurrent `Shutdown` calls**: whatever the interleaving, `listen_q_.Shutdown()` is called at
most once; and once no call is in flight, the socket is as one call of `Shutdown` alone leaves it,
and every call that ran returned what that call returns. -/
theorem Shutdown_concurrent (l : Listener) (sched : List Nat) :
    let s := shutRun (.start l) sched
    s.sock.shutdowns ≤ l.shutdowns + 1 ∧
      ((∀ u, s.pc u ≠ .cas ∧ s.pc u ≠ .shut) → sched ≠ [] →
        s.sock = l.Shutdown.2 ∧ ∀ t ∈ sched, (s.pc t).ret = some l.Shutdown.1) := by
  intro s
  have h : ShutInv l s := (ShutInv.start l).run sched
  refine ⟨?_, fun hq hne => ?_⟩
  · rcases h.stage with ⟨h1, -⟩ | ⟨-, -, h1, -⟩ | ⟨-, -, h1, -⟩ <;> rw [h1] <;> simp
  · -- every thread of the schedule has left `check`, and none is in flight
    have hret : ∀ t ∈ sched, s.pc t = .done ∨ s.pc t = .err := fun t ht => by
      have hc := shutRun_ne_check sched (.start l) t (.inl ht)
      cases hp : s.pc t
      · exact absurd hp hc
      · exact absurd hp (hq t).1
      · exact absurd hp (hq t).2
      · exact .inl rfl
      · exact .inr rfl
    obtain ⟨t, ht⟩ := List.exists_mem_of_ne_nil sched hne
    exact ⟨h.sock_eq (fun u => (hq u).2) (hret t ht), fun u hu => h.ret_eq (hret u hu)⟩

/-! ## `Listen` after `Shutdown` -/

/-- A call of a method of the socket, with what the runtime returns to it. -/
inductive ListenerOp
  | listen (ret : Except Int Unit)
  | accept (ret : Except Int Unit)
  | shutdown

/-- The socket after a call. `Accept` changes none of the fields the model keeps. -/
def ListenerOp.apply (l : Listener) : ListenerOp → Listener
  | .listen ret => (l.Listen ret).2
  | .accept _ => l
  | .shutdown => l.Shutdown.2

/-- The call installs a new queue. -/
def ListenerOp.installs : ListenerOp → Bool
  | .listen (.ok ()) => true
  | _ => false

/-- The socket after the calls of `ops`, one after the other. -/
def listenerRun (l : Listener) (ops : List ListenerOp) : Listener := ops.foldl ListenerOp.apply l

/-- One call on a socket with `is_shut_` set: the flag stays set, and no queue is shut down. -/
theorem ListenerOp.apply_of_shut {l : Listener} (hl : l.is_shut = true) (op : ListenerOp) :
    (op.apply l).is_shut = true ∧
      (op.apply l).shutdowns = if op.installs then 0 else l.shutdowns := by
  cases op with
  | listen ret => cases ret <;> simp [apply, Listener.Listen, installs, hl]
  | accept ret => simp [apply, installs, hl]
  | shutdown =>
    unfold apply Listener.Shutdown
    split_ifs <;> simp_all [installs]

/-- **Shut for good**: once `is_shut_` is set, no sequence of `Listen`, `Accept` and `Shutdown`
calls ever calls `listen_q_.Shutdown()` again. The queue held then keeps its count, and a queue
that a later `Listen` installs is never shut down. -/
theorem Shutdown_after_shut (l : Listener) (hl : l.is_shut = true) (ops : List ListenerOp) :
    (listenerRun l ops).is_shut = true ∧
      (listenerRun l ops).shutdowns = if ops.any ListenerOp.installs then 0 else l.shutdowns := by
  induction ops generalizing l with
  | nil => simp [listenerRun, hl]
  | cons op ops ih =>
    obtain ⟨hs, hn⟩ := ListenerOp.apply_of_shut hl op
    obtain ⟨ih1, ih2⟩ := ih (op.apply l) hs
    refine ⟨ih1, ?_⟩
    rw [listenerRun, List.foldl_cons, ← listenerRun, ih2, hn, List.any_cons]
    cases op.installs <;> simp

theorem Shutdown_after_shut_relisten :
    (⟨true, true, 1⟩ : Listener).is_shut = true ∧
      (listenerRun ⟨true, true, 1⟩ [.listen (.ok ()), .shutdown, .shutdown]).shutdowns = 0 := by
  refine ⟨rfl, ?_⟩
  rw [(Shutdown_after_shut _ rfl _).2]
  rfl

end Junction.Net
