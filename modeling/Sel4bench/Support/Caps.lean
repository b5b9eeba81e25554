import Mathlib.Data.Int.ConditionallyCompleteOrder
import Sel4bench.Driver.Processing

/-!
# The capabilities of a benchmark process

`run_benchmark` copies capabilities into the cspace of a new process, one after the other into
consecutive slots, and passes the first free slot to the process. The allocator of the process
then enumerates the capabilities it has with `get_cap_count` and `get_nth_cap` of the support
library, which leave out the slots that the layout of the cspace keeps for capabilities that the
platform does not have.

## Main definitions

* `Sel4bench.CspaceLayout` — the slots of a new process.
* `Sel4bench.copyCapToProcess`, `Sel4bench.installCaps`.
* `Sel4bench.getCapCount`, `Sel4bench.getNthCap`, `Sel4bench.schedCtrl`.

## Main results

* `Sel4bench.slots_of_installCaps` — the cspace that the process finds.
* `Sel4bench.getNthCap_enumerates` — the enumeration is that of the occupied slots.
-/

namespace Sel4bench

/-- The options that decide which capabilities a process has. -/
structure CapConfig where
  /-- `CONFIG_X86_64`. -/
  x86_64 : Bool
  /-- `CONFIG_KERNEL_MCS`. -/
  kernelMcs : Bool
  /-- `CONFIG_MAX_NUM_NODES`. -/
  maxNumNodes : ℕ
  /-- `seL4_WordBits`. -/
  wordBits : ℕ
  wordBits_ge : 32 ≤ wordBits

/-- The layout of the cspace of a new process, as `sel4utils` lays it out. -/
structure CspaceLayout where
  /-- `SEL4UTILS_ASID_POOL_SLOT`. -/
  asidPoolSlot : ℕ
  /-- `SEL4UTILS_SCHED_CONTEXT_SLOT`. -/
  schedContextSlot : ℕ
  /-- `SEL4UTILS_FIRST_FREE`. -/
  firstFree : ℕ
  /-- `CONFIG_SEL4UTILS_CSPACE_SIZE_BITS`. -/
  cspaceSizeBits : ℕ
  asidPool_pos : 0 < asidPoolSlot
  asidPool_lt : asidPoolSlot < schedContextSlot
  /-- `SEL4UTILS_REPLY_SLOT` is the next one. -/
  reply_lt : schedContextSlot + 1 < firstFree
  /-- The slots of a cspace are values of type `int`. -/
  cspaceSizeBits_lt : cspaceSizeBits < 31

/-- The capabilities of a process: the initial ones, and those that `run_benchmark` copies. -/
inductive Cap
  | initial (slot : ℕ)
  | schedControl (node : ℕ)
  | serialEp
  | untyped
deriving DecidableEq

/-- The slots of the cspace of a process up to `cspace_next_free`. -/
structure Process where
  slots : List (Option Cap)

/-- The fields of `benchmark_args_t` for capabilities. -/
structure CapArgs where
  schedCtrl : ℕ
  serialEp : ℕ
  untypedCptr : ℕ
  firstFree : ℕ

variable (cfg : CapConfig) (L : CspaceLayout)

/-- The slot is kept for a capability that the platform does not have. -/
def IsHole (slot : ℕ) : Prop :=
  cfg.x86_64 = true ∧ slot = L.asidPoolSlot ∨
    cfg.kernelMcs = false ∧ (slot = L.schedContextSlot ∨ slot = L.schedContextSlot + 1)

instance (slot : ℕ) : Decidable (IsHole cfg L slot) := by
  unfold IsHole
  infer_instance

/-- A new process. The slot `0` is the null slot. -/
def newProcess : Process where
  slots := (List.range L.firstFree).map fun slot =>
    if slot = 0 ∨ IsHole cfg L slot then none else some (.initial slot)

/-- `sel4utils_copy_cap_to_process`, also `serial_server_parent_mint_endpoint_to_process`: the
capability takes the next free slot. -/
def copyCapToProcess (process : Process) (cap : Cap) : Option (ℕ × Process) :=
  if process.slots.length < 2 ^ L.cspaceSizeBits then
    some (process.slots.length, ⟨process.slots ++ [some cap]⟩)
  else none

/-- The loop of `run_benchmark` over the nodes from the second on. -/
def copySchedCtrls (process : Process) : Option Process :=
  (List.range' 1 (cfg.maxNumNodes - 1)).foldlM (fun process i => do
    let (_, process) ← copyCapToProcess L process (.schedControl i)
    return process) process

/-- The part of `run_benchmark` under `config_set(CONFIG_KERNEL_MCS)`. -/
def installSchedCtrls (args : CapArgs) (process : Process) : Option (CapArgs × Process) :=
  if cfg.kernelMcs then do
    let (slot, process) ← copyCapToProcess L process (.schedControl 0)
    let process ← copySchedCtrls cfg L process
    return ({ args with schedCtrl := slot }, process)
  else return (args, process)

/-- The part of `run_benchmark` that copies capabilities to the process. -/
def installCaps (args : CapArgs) (process : Process) : Option (CapArgs × Process) := do
  let (args, process) ← installSchedCtrls cfg L args process
  let (slot, process) ← copyCapToProcess L process .serialEp
  let args := { args with serialEp := slot }
  let (slot, process) ← copyCapToProcess L process .untyped
  let args := { args with untypedCptr := slot }
  return ({ args with firstFree := args.untypedCptr + 1 }, process)

/-- `get_cap_count`. -/
def getCapCount (args : CapArgs) : ℤ :=
  let last := cInt args.firstFree
  let last := last - 1
  let last := if cfg.x86_64 then last - 1 else last
  if !cfg.kernelMcs then last - 2 else last

/-- `seL4_CapNull`. -/
def capNull : ℕ := 0

/-- `get_nth_cap`. The index is converted from `int` to `seL4_CPtr`. -/
def getNthCap (args : CapArgs) (n : ℤ) : ℕ :=
  if n < getCapCount cfg args then
    let n := n + 1
    let n := if cfg.x86_64 ∧ n ≥ L.asidPoolSlot then n + 1 else n
    let n := if !cfg.kernelMcs ∧ n ≥ L.schedContextSlot then n + 2 else n
    (n % 2 ^ cfg.wordBits).toNat
  else capNull

/-- `sched_ctrl`. -/
def schedCtrl (args : CapArgs) (core : ℕ) : ℕ := args.schedCtrl + core

/-- The capability in a slot of the process. -/
def Process.capAt (process : Process) (slot : ℕ) : Option Cap := (process.slots[slot]?).join

/-! ### The cspace that the process finds -/

/-- The capabilities that `run_benchmark` copies, in order. -/
def copiedCaps : List Cap :=
  (if cfg.kernelMcs then
    .schedControl 0 :: (List.range' 1 (cfg.maxNumNodes - 1)).map .schedControl else []) ++
    [.serialEp, .untyped]

variable {cfg L}

theorem copyCapToProcess_eq_some {process process' : Process} {cap : Cap} {slot : ℕ} :
    copyCapToProcess L process cap = some (slot, process') ↔
      process.slots.length < 2 ^ L.cspaceSizeBits ∧ slot = process.slots.length ∧
        process' = ⟨process.slots ++ [some cap]⟩ := by
  rw [copyCapToProcess]
  split_ifs with h
  · simp [h, eq_comm]
  · simp [h]

theorem copySchedCtrls_eq_some {process process' : Process}
    (h : copySchedCtrls cfg L process = some process') :
    process'.slots =
      process.slots ++
        (List.range' 1 (cfg.maxNumNodes - 1)).map fun i => some (.schedControl i) := by
  have hfold : ∀ (l : List ℕ) (process : Process),
      l.foldlM (fun process i => do
        let (_, process) ← copyCapToProcess L process (.schedControl i)
        return process) process = some process' →
      process'.slots = process.slots ++ l.map fun i => some (.schedControl i) := by
    intro l
    induction l with
    | nil =>
      intro process h
      simp_all
    | cons i l ih =>
      intro process h
      rw [List.foldlM_cons] at h
      obtain ⟨next, hnext, h⟩ := Option.bind_eq_some_iff.mp h
      obtain ⟨⟨slot, copied⟩, hcopy, hpure⟩ := Option.bind_eq_some_iff.mp hnext
      obtain ⟨-, -, rfl⟩ := copyCapToProcess_eq_some.mp hcopy
      obtain rfl := Option.some_injective _ hpure
      rw [ih _ h]
      simp
  exact hfold _ process h

theorem slots_of_installSchedCtrls {args args' : CapArgs} {process process' : Process}
    (h : installSchedCtrls cfg L args process = some (args', process')) :
    process'.slots = process.slots ++ (if cfg.kernelMcs then
      .schedControl 0 :: (List.range' 1 (cfg.maxNumNodes - 1)).map .schedControl else []).map some ∧
      (cfg.kernelMcs = true → args'.schedCtrl = process.slots.length) := by
  rw [installSchedCtrls] at h
  split at h
  · next hmcs =>
    obtain ⟨⟨slot, copied⟩, hcopy, h⟩ := Option.bind_eq_some_iff.mp h
    obtain ⟨last, hloop, hpure⟩ := Option.bind_eq_some_iff.mp h
    obtain ⟨-, rfl, rfl⟩ := copyCapToProcess_eq_some.mp hcopy
    obtain ⟨rfl, rfl⟩ := Prod.mk.inj (Option.some_injective _ hpure)
    rw [copySchedCtrls_eq_some hloop]
    simp [hmcs, Function.comp_def]
  · next hmcs =>
    obtain ⟨rfl, rfl⟩ := Prod.mk.inj (Option.some_injective _ h)
    simp [hmcs]

/-- The capabilities that a process has after `run_benchmark` has copied them, and where it finds
them. -/
theorem slots_of_installCaps {args args' : CapArgs} {process process' : Process}
    (h : installCaps cfg L args process = some (args', process')) :
    process'.slots = process.slots ++ (copiedCaps cfg).map some ∧
      args'.firstFree = process'.slots.length ∧
      process'.slots.length ≤ 2 ^ L.cspaceSizeBits ∧
      (cfg.kernelMcs = true → args'.schedCtrl = process.slots.length) := by
  obtain ⟨⟨args₁, process₁⟩, hsched, h⟩ := Option.bind_eq_some_iff.mp h
  obtain ⟨⟨slot₁, process₂⟩, hserial, h⟩ := Option.bind_eq_some_iff.mp h
  obtain ⟨⟨slot₂, process₃⟩, huntyped, hpure⟩ := Option.bind_eq_some_iff.mp h
  obtain ⟨-, rfl, rfl⟩ := copyCapToProcess_eq_some.mp hserial
  obtain ⟨hlt, rfl, rfl⟩ := copyCapToProcess_eq_some.mp huntyped
  obtain ⟨rfl, rfl⟩ := Prod.mk.inj (Option.some_injective _ hpure)
  obtain ⟨hslots, hctrl⟩ := slots_of_installSchedCtrls hsched
  rw [List.length_append, List.length_singleton] at hlt
  refine ⟨?_, by simp, by simp; omega, hctrl⟩
  simp only [copiedCaps, hslots, List.map_append, List.append_assoc, List.map_cons,
    List.map_nil, List.cons_append, List.nil_append]

/-! ### The enumeration -/

section Enumeration

variable {args args' : CapArgs} {process' : Process}
  (h : installCaps cfg L args (newProcess cfg L) = some (args', process'))

include h

/-- The slots that are occupied: all that are not empty by the layout. -/
theorem capAt_ne_none_iff {slot : ℕ} (hslot : slot < args'.firstFree) :
    process'.capAt slot ≠ none ↔ 0 < slot ∧ ¬IsHole cfg L slot := by
  obtain ⟨hslots, hfree, -⟩ := slots_of_installCaps h
  have hlength : (newProcess cfg L).slots.length = L.firstFree := by simp [newProcess]
  rw [hfree, hslots, List.length_append, List.length_map, hlength] at hslot
  rw [Process.capAt, hslots]
  by_cases hinit : slot < L.firstFree
  · rw [List.getElem?_append_left (by omega)]
    by_cases hempty : slot = 0 ∨ IsHole cfg L slot
    · simp only [newProcess, List.getElem?_map, List.getElem?_range hinit, Option.map_some,
        if_pos hempty, Option.join_some, ne_eq, not_true_eq_false, false_iff]
      exact fun hocc => hempty.elim hocc.1.ne' hocc.2
    · simp only [newProcess, List.getElem?_map, List.getElem?_range hinit, Option.map_some,
        if_neg hempty, Option.join_some, ne_eq, reduceCtorEq, not_false_eq_true, true_iff]
      rw [not_or] at hempty
      exact ⟨Nat.pos_of_ne_zero hempty.1, hempty.2⟩
  · rw [List.getElem?_append_right (by omega), hlength, List.getElem?_map,
      List.getElem?_eq_getElem (by omega)]
    have hpos := L.asidPool_pos
    have hlt := L.asidPool_lt
    have hreply := L.reply_lt
    simp only [Option.map_some, Option.join_some, ne_eq, reduceCtorEq, not_false_eq_true,
      true_iff, IsHole]
    omega

theorem firstFree_lt : args'.firstFree < 2 ^ 31 ∧ L.firstFree < args'.firstFree := by
  obtain ⟨hslots, hfree, hle, -⟩ := slots_of_installCaps h
  have hpow : 2 ^ L.cspaceSizeBits ≤ 2 ^ 30 :=
    Nat.pow_le_pow_right (by decide) (Nat.le_of_lt_succ L.cspaceSizeBits_lt)
  have hlength : (newProcess cfg L).slots.length = L.firstFree := by simp [newProcess]
  refine ⟨by omega, ?_⟩
  rw [hfree, hslots, List.length_append, List.length_map, hlength]
  simp [copiedCaps]

/-- The slot that an index stands for, without machine arithmetic. -/
theorem getNthCap_of_lt {n : ℤ} (hn : 0 ≤ n) (hlt : n < getCapCount cfg args') :
    (getNthCap cfg L args' n : ℤ) =
      let n := n + 1
      let n := if cfg.x86_64 ∧ n ≥ L.asidPoolSlot then n + 1 else n
      if !cfg.kernelMcs ∧ n ≥ L.schedContextSlot then n + 2 else n := by
  obtain ⟨hfree, -⟩ := firstFree_lt h
  have hpow : (2 : ℤ) ^ 32 ≤ 2 ^ cfg.wordBits :=
    pow_le_pow_right₀ (by norm_num) cfg.wordBits_ge
  have hcount : getCapCount cfg args' < 2 ^ 31 := by
    simp only [getCapCount, cInt_natCast hfree]
    split_ifs <;> omega
  rw [getNthCap, if_pos hlt]
  dsimp only
  have hmod : ∀ m : ℤ, 0 ≤ m → m < 2 ^ 32 → ((m % 2 ^ cfg.wordBits).toNat : ℤ) = m := by
    intro m hm hm'
    rw [Int.emod_eq_of_lt hm (hm'.trans_le hpow), Int.toNat_of_nonneg hm]
  rw [hmod]
  · split_ifs <;> omega
  · split_ifs <;> omega

theorem getCapCount_eq : getCapCount cfg args' =
    args'.firstFree - 1 - (if cfg.x86_64 then 1 else 0) - (if cfg.kernelMcs then 0 else 2) := by
  simp only [getCapCount, cInt_natCast (firstFree_lt h).1]
  cases cfg.x86_64 <;> cases cfg.kernelMcs <;> simp

/-- A larger index stands for a larger slot. -/
theorem getNthCap_strictMonoOn :
    StrictMonoOn (getNthCap cfg L args') (Set.Ico 0 (getCapCount cfg args')) := by
  intro n hn m hm hnm
  have hlt : (getNthCap cfg L args' n : ℤ) < getNthCap cfg L args' m := by
    rw [getNthCap_of_lt h hn.1 hn.2, getNthCap_of_lt h hm.1 hm.2]
    grind
  exact_mod_cast hlt

/-- The slots that the indices stand for are the occupied ones. -/
theorem image_getNthCap : getNthCap cfg L args' '' Set.Ico 0 (getCapCount cfg args') =
    {slot | slot < args'.firstFree ∧ process'.capAt slot ≠ none} := by
  have hcount := getCapCount_eq h
  have hfree := (firstFree_lt h).2
  have hpos := L.asidPool_pos
  have hlt := L.asidPool_lt
  have hreply := L.reply_lt
  ext slot
  constructor
  · rintro ⟨n, ⟨hn, hn'⟩, rfl⟩
    have hslot := getNthCap_of_lt h hn hn'
    have hocc : getNthCap cfg L args' n < args'.firstFree ∧ 0 < getNthCap cfg L args' n ∧
        ¬IsHole cfg L (getNthCap cfg L args' n) := by
      rw [IsHole]
      grind
    exact ⟨hocc.1, (capAt_ne_none_iff h hocc.1).mpr hocc.2⟩
  · rintro ⟨hslot, hcap⟩
    obtain ⟨hslotPos, hhole⟩ := (capAt_ne_none_iff h hslot).mp hcap
    -- The index of the slot: the holes below it are taken out again.
    let m : ℤ := if cfg.kernelMcs = false ∧ L.schedContextSlot < slot then slot - 2 else slot
    let n : ℤ := (if cfg.x86_64 = true ∧ (L.asidPoolSlot : ℤ) < m then m - 1 else m) - 1
    have hmem : n ∈ Set.Ico 0 (getCapCount cfg args') := by
      rw [IsHole] at hhole
      rw [Set.mem_Ico]
      grind
    refine ⟨n, hmem, ?_⟩
    have hvalue : (getNthCap cfg L args' n : ℤ) = slot := by
      rw [IsHole] at hhole
      rw [getNthCap_of_lt h hmem.1 hmem.2]
      grind
    exact_mod_cast hvalue

/-- **The enumeration of the capabilities.** The indices below the count enumerate the occupied
slots below the first free one in increasing order, the other indices yield the null slot, and on
the MCS kernel the scheduling control capability of every node is found. -/
theorem getNthCap_enumerates :
    StrictMonoOn (getNthCap cfg L args') (Set.Ico 0 (getCapCount cfg args')) ∧
      getNthCap cfg L args' '' Set.Ico 0 (getCapCount cfg args') =
        {slot | slot < args'.firstFree ∧ process'.capAt slot ≠ none} ∧
      (∀ n, getCapCount cfg args' ≤ n → getNthCap cfg L args' n = capNull) ∧
      (cfg.kernelMcs = true → ∀ core < cfg.maxNumNodes,
        process'.capAt (schedCtrl args' core) = some (.schedControl core)) := by
  refine ⟨getNthCap_strictMonoOn h, image_getNthCap h, fun n hn => if_neg (not_lt.mpr hn), ?_⟩
  intro hmcs core hcore
  obtain ⟨hslots, -, -, hctrl⟩ := slots_of_installCaps h
  rw [Process.capAt, schedCtrl, hctrl hmcs, hslots, List.getElem?_append_right (by omega),
    Nat.add_sub_cancel_left, copiedCaps, if_pos hmcs]
  cases core with
  | zero => rfl
  | succ core =>
    have hcore' : core < cfg.maxNumNodes - 1 := by omega
    simp [List.getElem?_append, hcore', Nat.add_comm]

end Enumeration

/-- An MCS kernel on two nodes of an x86-64 machine. -/
theorem getNthCap_enumerates_two :
    let cfg : CapConfig := ⟨true, true, 2, 64, by decide⟩
    let L : CspaceLayout := ⟨6, 10, 12, 17, by decide, by decide, by decide, by decide⟩
    ∃ args process, installCaps cfg L ⟨0, 0, 0, 0⟩ (newProcess cfg L) = some (args, process) ∧
      getCapCount cfg args = 14 ∧
      getNthCap cfg L args '' Set.Ico 0 (getCapCount cfg args) =
        {slot | slot < args.firstFree ∧ process.capAt slot ≠ none} := by
  intro cfg L
  have h : installCaps cfg L ⟨0, 0, 0, 0⟩ (newProcess cfg L) =
      some (⟨12, 14, 15, 16⟩, ⟨(newProcess cfg L).slots ++ (copiedCaps cfg).map some⟩) :=
    rfl
  exact ⟨_, _, h, by decide, (getNthCap_enumerates h).2.1⟩

end Sel4bench
