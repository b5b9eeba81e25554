import Mathlib.Data.BitVec
import Mathlib.Data.List.Perm.Basic
import Mathlib.Logic.Function.Basic

/-!
# The frames of a benchmark process

`init_vspace` of the support library lists the pages that are already mapped in a benchmark
process, those of the results, the IPC buffer, the stack and the arguments, in an array on its
stack, and hands the array to `sel4utils_bootstrap_vspace`, which walks it until the first null
pointer. The array has one element for each page of the results, the IPC buffer and the stack.
There is no element for the page of the arguments and none for the null pointer, so that the list
never fits (`Sel4bench.not_framesListed`); the page of the arguments is stored right behind the
array (`Sel4bench.initVspace_stored`).

All sizes and addresses are words of `b` bits. `existing_frames` is the memory from the first
element on, with all stores that are made to it.

## Main definitions

* `Sel4bench.addFrames`, `Sel4bench.initVspace`.
* `Sel4bench.FramesListed` — the list is complete and inside the array.

## Main results

* `Sel4bench.addFrames_stored` — what `add_frames` stores.
* `Sel4bench.not_framesListed` — the list is never complete and inside the array.
-/

namespace Sel4bench

variable {b : ℕ}

/-- `existing_frames`: the memory from its first element on, and the stores made to it. -/
structure FrameArray (b : ℕ) where
  cell : BitVec b → BitVec b
  stored : List (BitVec b × BitVec b) := []

/-- `frames[i] = addr`. -/
def FrameArray.set (frames : FrameArray b) (i addr : BitVec b) : FrameArray b where
  cell := Function.update frames.cell i addr
  stored := frames.stored ++ [(i, addr)]

/-- `SIZE_BITS_TO_BYTES(seL4_PageBits)`. -/
def pageBytes : ℕ := 2 ^ 12

/-- The body of the loop of `add_frames`, with the variables `i` and `addr`. -/
def addFramesStep (s : FrameArray b × BitVec b × BitVec b) : FrameArray b × BitVec b × BitVec b :=
  (s.1.set s.2.1 s.2.2, s.2.1 + 1, s.2.2 + BitVec.ofNat b pageBytes)

/-- `add_frames`: the array and the index that is returned. The sum in the loop condition is taken
in `size_t`. -/
def addFrames (frames : FrameArray b) (start addr numFrames : BitVec b) :
    FrameArray b × BitVec b :=
  let s := addFramesStep^[(numFrames + start).toNat - start.toNat] (frames, start, addr)
  (s.1, s.2.1)

/-- The variable `int index` that holds a `size_t`, when it is passed on as a `size_t`. -/
def throughInt (n : BitVec b) : BitVec b := (n.setWidth 32).signExtend b

/-- The addresses and sizes that `init_vspace` uses. -/
structure VspaceArgs (b : ℕ) where
  stackPages : BitVec b
  stackVaddr : BitVec b
  resultsAddr : BitVec b
  resultsBytes : BitVec b
  argsVaddr : BitVec b
  /-- `seL4_GetIPCBuffer()`. -/
  ipcBuffer : BitVec b
  /-- `BYTES_TO_SIZE_BITS_PAGES(sizeof(seL4_IPCBuffer), seL4_PageBits)`. -/
  ipcBufferSize : BitVec b

section InitVspace

/- `BYTES_TO_SIZE_BITS_PAGES` of the utility library, for pages of `seL4_PageBits`. -/
variable (bytesToPages : BitVec b → BitVec b) (a : VspaceArgs b)

/-- The length with which `existing_frames` is declared. -/
def existingFramesLength : BitVec b :=
  a.stackPages + bytesToPages a.resultsBytes + a.ipcBufferSize

/-- `init_vspace` up to the call of `sel4utils_bootstrap_vspace`, with the contents that the array
has when it is declared. -/
def initVspace (existingFrames : BitVec b → BitVec b) : FrameArray b :=
  let resultsSize := bytesToPages a.resultsBytes
  let (frames, index) := addFrames { cell := existingFrames } 0 a.resultsAddr resultsSize
  let (frames, index) := addFrames frames (throughInt index) a.ipcBuffer a.ipcBufferSize
  let (frames, index) := addFrames frames (throughInt index) a.stackVaddr a.stackPages
  let (frames, _) := addFrames frames (throughInt index) a.argsVaddr 1
  frames

/-- The pages of a region. -/
def regionPages (addr size : BitVec b) : List (BitVec b) :=
  (List.range size.toNat).map fun k => addr + BitVec.ofNat b (k * pageBytes)

/-- All stores are inside the array, and its elements before the first null pointer are the pages
of the four regions, each exactly once. -/
structure FramesListed (existingFrames : BitVec b → BitVec b) : Prop where
  inside : ∀ s ∈ (initVspace bytesToPages a existingFrames).stored,
    s.1 < existingFramesLength bytesToPages a
  listed : ∃ k < (existingFramesLength bytesToPages a).toNat,
    (initVspace bytesToPages a existingFrames).cell (BitVec.ofNat b k) = 0 ∧
    ((List.range k).map fun i =>
      (initVspace bytesToPages a existingFrames).cell (BitVec.ofNat b i)).Perm
      (regionPages a.resultsAddr (bytesToPages a.resultsBytes) ++
        regionPages a.ipcBuffer a.ipcBufferSize ++ regionPages a.stackVaddr a.stackPages ++
        [a.argsVaddr])

/-! ### The stores -/

theorem addFramesStep_iterate (n : ℕ) (frames : FrameArray b) (start addr : BitVec b) :
    (addFramesStep^[n] (frames, start, addr)).1.stored = frames.stored ++
        (List.range n).map (fun k =>
          (start + BitVec.ofNat b k, addr + BitVec.ofNat b (k * pageBytes))) ∧
      (addFramesStep^[n] (frames, start, addr)).2 =
        (start + BitVec.ofNat b n, addr + BitVec.ofNat b (n * pageBytes)) := by
  induction n with
  | zero => simp
  | succ n ih =>
    obtain ⟨hstored, hvars⟩ := ih
    rw [Function.iterate_succ_apply']
    constructor
    · simp only [addFramesStep, FrameArray.set, hstored, hvars, List.range_succ, List.map_append,
        List.map_cons, List.map_nil, List.append_assoc]
    · simp only [addFramesStep, hvars, Nat.succ_mul, BitVec.ofNat_add, BitVec.add_assoc]
      rfl

/-- What `add_frames` stores and returns when its index does not wrap. -/
theorem addFrames_stored (frames : FrameArray b) {start numFrames : BitVec b} (addr : BitVec b)
    (h : numFrames.toNat + start.toNat < 2 ^ b) :
    (addFrames frames start addr numFrames).1.stored = frames.stored ++
        (List.range numFrames.toNat).map (fun k =>
          (start + BitVec.ofNat b k, addr + BitVec.ofNat b (k * pageBytes))) ∧
      (addFrames frames start addr numFrames).2 = start + numFrames := by
  have hn : (numFrames + start).toNat - start.toNat = numFrames.toNat := by
    rw [BitVec.toNat_add, Nat.mod_eq_of_lt h, Nat.add_sub_cancel]
  obtain ⟨hstored, hvars⟩ := addFramesStep_iterate numFrames.toNat frames start addr
  rw [addFrames, hn]
  refine ⟨hstored, ?_⟩
  rw [hvars, BitVec.ofNat_toNat, BitVec.setWidth_eq]

theorem throughInt_of_lt {n : BitVec b} (h : n.toNat < 2 ^ 31) :
    throughInt n = n := by
  have hlow : (n.setWidth 32).toNat = n.toNat := by
    rw [BitVec.toNat_setWidth]
    exact Nat.mod_eq_of_lt (h.trans (by decide))
  have hmsb : (n.setWidth 32).msb = false := by
    rw [BitVec.msb_eq_false_iff_two_mul_lt, hlow]
    omega
  rw [throughInt, BitVec.signExtend_eq_setWidth_of_msb_false hmsb]
  apply BitVec.eq_of_toNat_eq
  rw [BitVec.toNat_setWidth, hlow, Nat.mod_eq_of_lt n.isLt]

/-- The page of the arguments is stored right behind the array. -/
theorem initVspace_stored (hb : 32 ≤ b) (existingFrames : BitVec b → BitVec b)
    (h : (bytesToPages a.resultsBytes).toNat + a.ipcBufferSize.toNat + a.stackPages.toNat <
      2 ^ 31) :
    (existingFramesLength bytesToPages a, a.argsVaddr) ∈
      (initVspace bytesToPages a existingFrames).stored := by
  have hpow : 2 ^ 32 ≤ 2 ^ b := Nat.pow_le_pow_right (by decide) hb
  set results := bytesToPages a.resultsBytes with hresults
  have hipc : (results + a.ipcBufferSize).toNat = results.toNat + a.ipcBufferSize.toNat := by
    rw [BitVec.toNat_add]
    exact Nat.mod_eq_of_lt (by omega)
  have hstack : (results + a.ipcBufferSize + a.stackPages).toNat =
      results.toNat + a.ipcBufferSize.toNat + a.stackPages.toNat := by
    rw [BitVec.toNat_add, hipc]
    exact Nat.mod_eq_of_lt (by omega)
  have hone : (1 : BitVec b).toNat = 1 := Nat.mod_eq_of_lt (by omega : 1 < 2 ^ b)
  simp only [initVspace, ← hresults]
  rw [(addFrames_stored _ a.resultsAddr (by simp; omega)).2, BitVec.ofNat_eq_ofNat,
    BitVec.zero_add, throughInt_of_lt (by omega),
    (addFrames_stored _ a.ipcBuffer (by omega)).2, throughInt_of_lt (by omega),
    (addFrames_stored _ a.stackVaddr (by omega)).2, throughInt_of_lt (by omega),
    (addFrames_stored _ a.argsVaddr (by omega)).1, hone]
  have hlength : existingFramesLength bytesToPages a =
      results + a.ipcBufferSize + a.stackPages := by
    rw [existingFramesLength, ← hresults]
    ac_rfl
  refine List.mem_append_right _ ?_
  simp [hlength]

/-! ### The list does not fit -/

theorem length_regionPages (addr size : BitVec b) :
    (regionPages addr size).length = size.toNat := by
  simp [regionPages]

/-- The array is not longer than the regions without the page of the arguments. -/
theorem toNat_existingFramesLength_le : (existingFramesLength bytesToPages a).toNat ≤
    (bytesToPages a.resultsBytes).toNat + a.ipcBufferSize.toNat + a.stackPages.toNat := by
  have hsum : (a.stackPages + bytesToPages a.resultsBytes).toNat ≤
      a.stackPages.toNat + (bytesToPages a.resultsBytes).toNat := by
    rw [BitVec.toNat_add]
    exact Nat.mod_le _ _
  have hall : (existingFramesLength bytesToPages a).toNat ≤
      (a.stackPages + bytesToPages a.resultsBytes).toNat + a.ipcBufferSize.toNat := by
    rw [existingFramesLength, BitVec.toNat_add]
    exact Nat.mod_le _ _
  omega

/-- **The list of existing frames.** Whatever the sizes and the addresses are, the pages of the
four regions and a null pointer do not fit into `existing_frames`. -/
theorem not_framesListed (existingFrames : BitVec b → BitVec b) :
    ¬FramesListed bytesToPages a existingFrames := by
  rintro ⟨-, k, hk, -, hperm⟩
  have hlength := hperm.length_eq
  simp only [List.length_map, List.length_range, List.length_append, List.length_singleton,
    length_regionPages] at hlength
  have hle := toNat_existingFramesLength_le bytesToPages a
  omega

end InitVspace

/-- One page of results, one page for the IPC buffer and a stack of `16` pages: the array has `18`
elements, and the page of the arguments is stored at index `18`. -/
theorem initVspace_overruns :
    let bytesToPages : BitVec 64 → BitVec 64 := fun n => (n + 4095) / 4096
    let a : VspaceArgs 64 := ⟨16, 0x10000000, 0x20000000, 4096, 0x30000000, 0x40000000, 1⟩
    existingFramesLength bytesToPages a = 18 ∧
      (18, a.argsVaddr) ∈ (initVspace bytesToPages a fun _ => 0).stored ∧
      ¬FramesListed bytesToPages a fun _ => 0 := by
  intro bytesToPages a
  have hlength : existingFramesLength bytesToPages a = 18 := by decide
  have hstored := initVspace_stored bytesToPages a (by decide) (fun _ => 0) (by decide)
  rw [hlength] at hstored
  refine ⟨hlength, hstored, fun h => ?_⟩
  have hinside := h.inside _ hstored
  rw [hlength] at hinside
  exact absurd hinside (by decide)

end Sel4bench
