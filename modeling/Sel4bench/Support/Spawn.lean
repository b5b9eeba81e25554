import Mathlib.Data.BitVec
import Mathlib.Data.List.Forall2
import Sel4bench.EarlyProcessing
import Sel4bench.Lib.Total

/-!
# Spawning a benchmark process

`benchmark_spawn_process` writes a copy of the TLS onto the stack of a process, moves the top of
the stack below it so that `sel4utils_spawn_process` writes its arguments there, and restores the
top afterwards. The same process is spawned again and again by the benchmarks. The top is restored
on every path but one: a failure of `sel4utils_spawn_process` returns while the top is moved. Hence
a sequence of calls leaves the top alone, and places every TLS at the same distance from it,
if and only if this failure does not occur (`Sel4bench.Spawn.restored_iff`).

The operations of the libraries and of the kernel are the data of a call: each of them succeeds or
fails with an error of its own.

## Main definitions

* `Sel4bench.Spawn.Platform`, `Sel4bench.Spawn.Call`, `Sel4bench.Spawn.System`.
* `Sel4bench.Spawn.benchmarkSpawnProcess`, `Sel4bench.Spawn.spawnAll`.
* `Sel4bench.Spawn.Call.SpawnFails` — the path that does not restore the top.

## Main results

* `Sel4bench.Spawn.ends_benchmarkSpawnProcess` — one call.
* `Sel4bench.Spawn.restored_iff` — a sequence of calls.
-/

namespace Sel4bench.Spawn

open Total

variable {w : ℕ}

/-- `sizeof(seL4_Word)`. -/
def wordSize (w : ℕ) : Word w := BitVec.ofNat w (w / 8)

/-- `PAGE_SIZE_4K`. -/
def pageSize4K (w : ℕ) : Word w := BitVec.ofNat w 4096

/-- `ALIGN_DOWN`. -/
def alignDown (n b : Word w) : Word w := n - n % b

/-- A platform with words of `w` bits. -/
structure Platform (w : ℕ) where
  /-- `CONFIG_ARCH_X86`. -/
  x86 : Bool
  /-- `STACK_CALL_ALIGNMENT`. -/
  stackCallAlignment : Word w
  alignment_pos : 0 < stackCallAlignment.toNat
  /-- What a call may use of the stack is less than the address space. -/
  stack_lt : 2 * (w / 8) + 4096 + stackCallAlignment.toNat ≤ 2 ^ w
  /-- The stack pointer after `sel4utils_stack_write` has written below it. -/
  stackWrite : Word w → Word w → Word w
  stackWrite_eq : ∀ stackPointer size, stackWrite stackPointer size = stackPointer - size

/-- The part of `sel4utils_process_t` that the function reads or writes. -/
structure Process (w : ℕ) where
  stackTop : Word w
  ipcBufferAddr : Word w
  tcb : Word w
deriving DecidableEq

/-- What `benchmark_spawn_process` puts into its local copy of the TLS. -/
structure Tls (w : ℕ) where
  /-- `__sel4_ipc_buffer`. -/
  ipcBuffer : Word w
  /-- The reference to itself. -/
  self : Option (Word w)
deriving DecidableEq

/-- A call: its argument, what the library says about the TLS, and the errors of the operations,
zero for success. -/
structure Call (w : ℕ) where
  resume : Bool
  /-- `sel4runtime_get_tls_size`. -/
  tlsSize : Word w
  /-- The offset of the thread pointer from the beginning of the TLS. -/
  tpOffset : Word w
  /-- `sel4utils_stack_write`. -/
  stackWriteError : ℤ
  /-- `sel4utils_spawn_process`. -/
  spawnError : ℤ
  /-- What `sel4utils_spawn_process` does to the process. -/
  spawn : Process w → Process w
  spawn_stackTop : ∀ process, (spawn process).stackTop = process.stackTop
  /-- `seL4_TCB_SetTLSBase`. -/
  setTlsBaseError : ℤ
  /-- `seL4_TCB_Resume`. -/
  resumeError : ℤ

/-- The process, and what the operations have done for it. -/
structure System (w : ℕ) where
  process : Process w
  /-- The address and the contents of the TLS that was written last. -/
  tls : Option (Word w × Tls w) := none
  /-- The TLS base of each thread. -/
  tlsBase : Word w → Option (Word w) := fun _ => none
  /-- The threads that have been resumed. -/
  resumed : List (Word w) := []

/-- Code that spawns processes. -/
abbrev SpawnM (w : ℕ) := StateT (System w) Option

variable (P : Platform w) (c : Call w)

/-- The store to `process->thread.stack_top`. -/
def setStackTop (stackTop : Word w) : SpawnM w Unit :=
  modify fun s => { s with process := { s.process with stackTop := stackTop } }

/-- `sel4utils_stack_write`: the error, and what is stored through the pointer to the stack
pointer. -/
def sel4utilsStackWrite (tls : Tls w) (stackPointer : Word w) : SpawnM w (ℤ × Word w) := do
  if c.stackWriteError = 0 then
    let stackPointer := P.stackWrite stackPointer c.tlsSize
    modify fun s => { s with tls := some (stackPointer, tls) }
    return (0, stackPointer)
  else return (c.stackWriteError, stackPointer)

/-- `sel4utils_spawn_process`. -/
def sel4utilsSpawnProcess : SpawnM w ℤ := do
  modify fun s => { s with process := c.spawn s.process }
  return c.spawnError

/-- `seL4_TCB_SetTLSBase`. -/
def tcbSetTlsBase (tcb tp : Word w) : SpawnM w ℤ := do
  if c.setTlsBaseError = 0 then
    modify fun s => { s with tlsBase := Function.update s.tlsBase tcb (some tp) }
  return c.setTlsBaseError

/-- `seL4_TCB_Resume`. -/
def tcbResume (tcb : Word w) : SpawnM w ℤ := do
  if c.resumeError = 0 then
    modify fun s => { s with resumed := s.resumed ++ [tcb] }
  return c.resumeError

/-- `benchmark_spawn_process`. -/
def benchmarkSpawnProcess : SpawnM w ℤ := do
  if c.tlsSize > pageSize4K w then return -1
  let process := (← get).process
  -- The local copy of the TLS, and where it goes in the process.
  let localTls : Tls w := { ipcBuffer := process.ipcBufferAddr, self := none }
  let initialStackPointer := process.stackTop - wordSize w
  let destTlsAddr := initialStackPointer - c.tlsSize
  let destTp := destTlsAddr + c.tpOffset
  let localTls := if P.x86 then { localTls with self := some destTp } else localTls
  let (error, initialStackPointer) ← sel4utilsStackWrite P c localTls initialStackPointer
  if error ≠ 0 then return -1
  cAssert (destTlsAddr = initialStackPointer)
  let initialStackTop := (← get).process.stackTop
  setStackTop (alignDown (initialStackPointer - wordSize w) P.stackCallAlignment)
  let error ← sel4utilsSpawnProcess c
  -- The process keeps the moved top.
  if error ≠ 0 then return error
  setStackTop initialStackTop
  let error ← tcbSetTlsBase c (← get).process.tcb destTp
  if error ≠ 0 then return error
  if c.resume then tcbResume c (← get).process.tcb else return error

/-- Where a call places the TLS. -/
def Call.tlsAddr (stackTop : Word w) : Word w := stackTop - wordSize w - c.tlsSize

/-- The TLS that a call writes. -/
def Call.tls (process : Process w) : Tls w where
  ipcBuffer := process.ipcBufferAddr
  self := if P.x86 then some (c.tlsAddr process.stackTop + c.tpOffset) else none

/-- A sequence of calls: what each of them returns, and the system it leaves. -/
def spawnAll : List (Call w) → System w → Option (List (ℤ × System w))
  | [], _ => some []
  | c :: calls, s => do
    let (error, s') ← benchmarkSpawnProcess P c s
    let returns ← spawnAll calls s'
    return (error, s') :: returns

/-- The call gets to `sel4utils_spawn_process`, which fails. -/
def Call.SpawnFails : Prop :=
  c.tlsSize ≤ pageSize4K w ∧ c.stackWriteError = 0 ∧ c.spawnError ≠ 0

instance : Decidable c.SpawnFails := inferInstanceAs (Decidable (_ ∧ _ ∧ _))

/-- After a call the top of the stack is `stackTop`, and a call that succeeds has placed the TLS
below it. -/
structure Restored (stackTop : Word w) (c : Call w) (r : ℤ × System w) : Prop where
  stackTop_eq : r.2.process.stackTop = stackTop
  tls_addr : r.1 = 0 → r.2.tls.map Prod.fst = some (c.tlsAddr stackTop)

/-! ### One call -/

section Operations

variable {P c} {s : System w} {Q : ℤ → System w → Prop}

theorem ends_sel4utilsStackWrite {tls : Tls w} {stackPointer : Word w}
    {Q : ℤ × Word w → System w → Prop} : Ends (sel4utilsStackWrite P c tls stackPointer) s Q ↔
      if c.stackWriteError = 0 then
        Q (0, stackPointer - c.tlsSize) { s with tls := some (stackPointer - c.tlsSize, tls) }
      else Q (c.stackWriteError, stackPointer) s := by
  rw [sel4utilsStackWrite, P.stackWrite_eq]
  split_ifs <;> simp

theorem ends_tcbSetTlsBase {tcb tp : Word w} : Ends (tcbSetTlsBase c tcb tp) s Q ↔
    if c.setTlsBaseError = 0 then
      Q 0 { s with tlsBase := Function.update s.tlsBase tcb (some tp) }
    else Q c.setTlsBaseError s := by
  rw [tcbSetTlsBase]
  split_ifs with h <;> simp [h]

theorem ends_tcbResume {tcb : Word w} : Ends (tcbResume c tcb) s Q ↔
    if c.resumeError = 0 then Q 0 { s with resumed := s.resumed ++ [tcb] }
    else Q c.resumeError s := by
  rw [tcbResume]
  split_ifs with h <;> simp [h]

end Operations

/-- **A call.** The top of the stack is moved if `sel4utils_spawn_process` fails, and is unchanged
otherwise. A call that succeeds has placed the TLS below the top, and the thread has the TLS base
to which the TLS refers. -/
theorem ends_benchmarkSpawnProcess (s : System w) :
    Ends (benchmarkSpawnProcess P c) s fun error s' =>
      s'.process.stackTop = (if c.SpawnFails then
        alignDown (c.tlsAddr s.process.stackTop - wordSize w) P.stackCallAlignment
        else s.process.stackTop) ∧
      (error = 0 → s'.tls = some (c.tlsAddr s.process.stackTop, c.tls P s.process) ∧
        s'.tlsBase s'.process.tcb = some (c.tlsAddr s.process.stackTop + c.tpOffset)) := by
  rw [benchmarkSpawnProcess]
  by_cases hsize : c.tlsSize > pageSize4K w
  · have hfails : ¬c.SpawnFails := fun h => BitVec.not_lt.mpr h.1 hsize
    rw [if_pos hsize, ends_pure, if_neg hfails]
    exact ⟨rfl, fun h => absurd h (by decide)⟩
  have hle : c.tlsSize ≤ pageSize4K w := BitVec.not_lt.mp hsize
  -- The local copy, with the reference to itself on the platforms that need it.
  have htls : (if P.x86 then
      { ipcBuffer := s.process.ipcBufferAddr,
        self := some (s.process.stackTop - wordSize w - c.tlsSize + c.tpOffset) }
      else { ipcBuffer := s.process.ipcBufferAddr, self := none }) = c.tls P s.process := by
    rw [Call.tls]
    split_ifs <;> rfl
  simp only [if_neg hsize, ends_bind, ends_get, ends_sel4utilsStackWrite, htls]
  by_cases hwrite : c.stackWriteError = 0
  case neg =>
    have hfails : ¬c.SpawnFails := fun h => hwrite h.2.1
    rw [if_neg hwrite, if_pos hwrite, ends_pure, if_neg hfails]
    exact ⟨rfl, fun h => absurd h (by decide)⟩
  simp only [if_pos hwrite, ne_eq, not_true, if_false, ends_bind, ends_cAssert,
    ends_pure, true_and, ends_get, setStackTop, ends_modify, sel4utilsSpawnProcess]
  by_cases hspawn : c.spawnError = 0
  case neg =>
    have hfails : c.SpawnFails := ⟨hle, hwrite, hspawn⟩
    rw [if_pos hspawn, ends_pure, if_pos hfails]
    exact ⟨c.spawn_stackTop _, fun h => absurd h hspawn⟩
  have hfails : ¬c.SpawnFails := fun h => h.2.2 hspawn
  simp only [hspawn, not_true, if_false, if_neg hfails, ends_bind, ends_modify, ends_get,
    ends_tcbSetTlsBase]
  by_cases hset : c.setTlsBaseError = 0
  case neg =>
    rw [if_neg hset, if_pos hset, ends_pure]
    exact ⟨rfl, fun h => absurd h hset⟩
  simp only [if_pos hset]
  by_cases hresume : c.resume
  · rw [if_pos hresume, ends_bind, ends_get, ends_tcbResume]
    split_ifs <;> exact ⟨rfl, fun _ => ⟨rfl, Function.update_self ..⟩⟩
  · rw [if_neg hresume, ends_pure]
    exact ⟨rfl, fun _ => ⟨rfl, Function.update_self ..⟩⟩

/-- The top for `sel4utils_spawn_process` is not the top before: the words below it and the padding
are less than the address space. -/
theorem alignDown_ne {c : Call w} (hle : c.tlsSize ≤ pageSize4K w) (stackTop : Word w) :
    alignDown (c.tlsAddr stackTop - wordSize w) P.stackCallAlignment ≠ stackTop := by
  set padding := (c.tlsAddr stackTop - wordSize w) % P.stackCallAlignment with hpadding
  intro h
  have hzero : wordSize w + c.tlsSize + wordSize w + padding = 0 := by
    rw [alignDown, ← hpadding, Call.tlsAddr, sub_sub, sub_sub, sub_sub, sub_eq_self] at h
    rwa [add_assoc, add_assoc]
  have hstack := P.stack_lt
  have hpos := P.alignment_pos
  have h4096 : 4096 < 2 ^ w := by omega
  have hw : 13 ≤ w := by
    by_contra hlt
    have hpow : 2 ^ w ≤ 2 ^ 12 := Nat.pow_le_pow_right (by omega) (by omega)
    omega
  have hword : (wordSize w).toNat = w / 8 := by
    rw [wordSize, BitVec.toNat_ofNat, Nat.mod_eq_of_lt (by omega)]
  have htls : c.tlsSize.toNat ≤ 4096 := by
    have hnat := BitVec.le_def.mp hle
    rwa [pageSize4K, BitVec.toNat_ofNat, Nat.mod_eq_of_lt h4096] at hnat
  have hlt : padding.toNat < P.stackCallAlignment.toNat := by
    rw [hpadding, BitVec.toNat_umod]
    exact Nat.mod_lt _ hpos
  have hsum := congrArg BitVec.toNat hzero
  simp only [BitVec.toNat_add, Nat.mod_add_mod, hword, BitVec.ofNat_eq_ofNat, BitVec.toNat_zero]
    at hsum
  rw [Nat.mod_eq_of_lt (by omega)] at hsum
  omega

/-! ### Sequences of calls -/

/-- A call restores the top if and only if it does not take the path that leaves it moved. -/
theorem restored_call_iff (s : System w) : ∃ r, benchmarkSpawnProcess P c s = some r ∧
    (Restored s.process.stackTop c r ↔ ¬c.SpawnFails) := by
  obtain ⟨error, s', hrun, htop, htls⟩ := ends_benchmarkSpawnProcess P c s
  refine ⟨(error, s'), hrun, fun h hfails => ?_, fun hfails => ⟨?_, fun herror => ?_⟩⟩
  · rw [if_pos hfails, h.stackTop_eq] at htop
    exact alignDown_ne P hfails.1 _ htop.symm
  · rw [htop, if_neg hfails]
  · rw [(htls herror).1, Option.map_some]

/-- **The top of the stack.** After every call of a sequence the top of the stack is the one before
the first call, and every successful call has placed its TLS below that, if and only if
`sel4utils_spawn_process` fails in none of them. -/
theorem restored_iff (P : Platform w) (calls : List (Call w)) (s : System w) :
    ∃ returns, spawnAll P calls s = some returns ∧
      (List.Forall₂ (Restored s.process.stackTop) calls returns ↔
        ∀ c ∈ calls, ¬c.SpawnFails) := by
  obtain ⟨returns, hrun, hiff⟩ : ∃ returns, spawnAll P calls s = some returns ∧
      ∀ stackTop, s.process.stackTop = stackTop →
        (List.Forall₂ (Restored stackTop) calls returns ↔ ∀ c ∈ calls, ¬c.SpawnFails) := by
    induction calls generalizing s with
    | nil => exact ⟨[], rfl, fun _ _ => by simp⟩
    | cons c calls ih =>
      obtain ⟨r, hcall, hr⟩ := restored_call_iff P c s
      obtain ⟨returns, hrun, hreturns⟩ := ih r.2
      refine ⟨r :: returns, ?_, ?_⟩
      · simp [spawnAll, hcall, hrun]
      · rintro _ rfl
        rw [List.forall₂_cons, List.forall_mem_cons, ← hr]
        exact and_congr_right fun h => hreturns _ h.stackTop_eq
  exact ⟨returns, hrun, hiff _ rfl⟩

/-- A 64-bit platform. -/
def wordPlatform : Platform 64 where
  x86 := true
  stackCallAlignment := 16
  alignment_pos := by decide
  stack_lt := by decide
  stackWrite stackPointer size := stackPointer - size
  stackWrite_eq _ _ := rfl

/-- A call in which `sel4utils_spawn_process` returns the given error. -/
def spawnCall (spawnError : ℤ) : Call 64 where
  resume := true
  tlsSize := 64
  tpOffset := 64
  stackWriteError := 0
  spawnError := spawnError
  spawn process := process
  spawn_stackTop _ := rfl
  setTlsBaseError := 0
  resumeError := 0

/-- A process whose stack ends at `0x10010000`. -/
def stackAt : System 64 where
  process := { stackTop := 0x10010000, ipcBufferAddr := 0x10020000, tcb := 5 }

/-- After a failure the top is 80 bytes lower, and so is the TLS of the next call. -/
theorem spawn_failure_moves :
    ∃ returns, spawnAll wordPlatform [spawnCall (-1), spawnCall 0] stackAt = some returns ∧
      (returns.map fun r => (r.1, r.2.process.stackTop, r.2.tls.map Prod.fst)) =
        [(-1, 0x1000ffb0, some 0x1000ffb8), (0, 0x1000ffb0, some 0x1000ff68)] ∧
      ¬List.Forall₂ (Restored stackAt.process.stackTop) [spawnCall (-1), spawnCall 0] returns := by
  refine ⟨_, rfl, by decide +kernel, fun h => ?_⟩
  cases h with
  | cons hfirst _ => exact absurd hfirst.stackTop_eq (by decide +kernel)

end Sel4bench.Spawn
