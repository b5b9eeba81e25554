import Mathlib.Data.Nat.ModEq
import Mathlib.Order.Interval.Set.Defs

/-!
# The device tree of a benchmark process

`run_benchmark` shares the blob of the device tree with the benchmark process. The number of pages
comes from the size of the blob, the sharing starts at the page of its first byte, and the offset
in that page is added to the address in the process afterwards. A blob whose offset and size
together exceed these pages loses its last bytes, and no other does
(`Sel4bench.Fdt.visible_iff`); the pages that are unmapped in the end are always those that were
shared.

An address space is a partial map from page numbers to frames. The function `vspace_share_mem` of
the library is a parameter (`Sel4bench.Fdt.SharesMem`).

## Main definitions

* `Sel4bench.Fdt.Vspace`, `Sel4bench.Fdt.translate`.
* `Sel4bench.Fdt.shareFdt`, `Sel4bench.Fdt.unmapFdt` — the two pieces of `run_benchmark`.

## Main results

* `Sel4bench.Fdt.visible_iff`.
-/

namespace Sel4bench.Fdt

variable {F : Type*}

/-- The frames of an address space, by page number. -/
abbrev Vspace (F : Type*) := ℕ → Option F

variable (pageBits : ℕ)

/-- `BIT(seL4_PageBits)`. -/
def pageSize : ℕ := 2 ^ pageBits

/-- The frame byte that is mapped at an address. -/
def translate (vspace : Vspace F) (addr : ℕ) : Option (F × ℕ) :=
  (vspace (addr / pageSize pageBits)).map fun frame => (frame, addr % pageSize pageBits)

/-- The pages of the region of `n` pages from `vaddr` on. -/
def pagesFrom (vaddr n : ℕ) : Set ℕ :=
  Set.Ico (vaddr / pageSize pageBits) (vaddr / pageSize pageBits + n)

instance (vaddr n q : ℕ) : Decidable (q ∈ pagesFrom pageBits vaddr n) := by
  unfold pagesFrom
  exact inferInstanceAs (Decidable (_ ∧ _))

/-- `vspace_unmap_pages`. -/
def vspaceUnmapPages (vspace : Vspace F) (vaddr n : ℕ) : Vspace F := fun q =>
  if q ∈ pagesFrom pageBits vaddr n then none else vspace q

/-- What `vspace_share_mem(from, to, start, num_pages, …)` does: it maps the frames of the pages
of `start` in consecutive pages of the other address space and returns the aligned address of the
first one. -/
structure SharesMem
    (vspaceShareMem : Vspace F → Vspace F → ℕ → ℕ → Option (ℕ × Vspace F)) : Prop where
  aligned : ∀ {parent child start n base child'},
    vspaceShareMem parent child start n = some (base, child') → pageSize pageBits ∣ base
  mapped : ∀ {parent child start n base child'},
    vspaceShareMem parent child start n = some (base, child') →
      ∀ i < n, child' (base / pageSize pageBits + i) = parent (start / pageSize pageBits + i)
  other : ∀ {parent child start n base child'},
    vspaceShareMem parent child start n = some (base, child') →
      ∀ q ∉ pagesFrom pageBits base n, child' q = child q

/-! ### The code of the driver -/

/-- `num_fdt_pages`: `DIV_ROUND_UP(fdt_size, BIT(seL4_PageBits))`. -/
def numFdtPages (fdtSize : ℕ) : ℕ := (fdtSize + pageSize pageBits - 1) / pageSize pageBits

/-- `ALIGN_DOWN(addr, BIT(seL4_PageBits))`. -/
def alignDown (addr : ℕ) : ℕ := addr / pageSize pageBits * pageSize pageBits

/-- Sharing the device tree in `run_benchmark`: the address `args->fdt` and the address space of
the process. -/
def shareFdt (vspaceShareMem : Vspace F → Vspace F → ℕ → ℕ → Option (ℕ × Vspace F))
    (parent child : Vspace F) (fdtBlob fdtSize : ℕ) : Option (ℕ × Vspace F) := do
  let (fdt, child') ← vspaceShareMem parent child fdtBlob (numFdtPages pageBits fdtSize)
  let fdt := if fdt % pageSize pageBits ≠ fdtBlob % pageSize pageBits then
    fdt + fdtBlob % pageSize pageBits else fdt
  return (fdt, child')

/-- Freeing the shared device tree in `run_benchmark`. -/
def unmapFdt (process : Vspace F) (fdt fdtSize : ℕ) : Vspace F :=
  vspaceUnmapPages pageBits process (alignDown pageBits fdt) (numFdtPages pageBits fdtSize)

/-! ### Addresses -/

theorem pageSize_pos : 0 < pageSize pageBits := Nat.two_pow_pos pageBits

section Address

variable {pageBits} {base offset : ℕ} (hbase : pageSize pageBits ∣ base)

include hbase

theorem add_div_pageSize : (base + offset) / pageSize pageBits =
    base / pageSize pageBits + offset / pageSize pageBits :=
  Nat.add_div_of_dvd_right hbase

theorem add_mod_pageSize : (base + offset) % pageSize pageBits = offset % pageSize pageBits := by
  rw [Nat.add_mod, Nat.mod_eq_zero_of_dvd hbase, Nat.zero_add, Nat.mod_mod]

theorem alignDown_add (h : offset < pageSize pageBits) :
    alignDown pageBits (base + offset) = base := by
  rw [alignDown, add_div_pageSize hbase, Nat.div_eq_of_lt h, Nat.add_zero,
    Nat.div_mul_cancel hbase]

end Address

/-- The pages cover the size of the blob. -/
theorem le_numFdtPages (fdtSize : ℕ) :
    fdtSize ≤ pageSize pageBits * numFdtPages pageBits fdtSize := by
  have hpos := pageSize_pos pageBits
  have hdiv := Nat.div_add_mod (fdtSize + pageSize pageBits - 1) (pageSize pageBits)
  have hmod := Nat.mod_lt (fdtSize + pageSize pageBits - 1) hpos
  rw [← numFdtPages] at hdiv
  omega

/-! ### The shared blob -/

section Share

variable {pageBits} {share : Vspace F → Vspace F → ℕ → ℕ → Option (ℕ × Vspace F)}
  {parent child child' : Vspace F} {fdtBlob fdtSize fdt : ℕ}

/-- A call that shares the blob maps its pages from an aligned address on, and adds the offset of
the blob in its first page. -/
theorem exists_base_of_shareFdt (hs : SharesMem pageBits share)
    (h : shareFdt pageBits share parent child fdtBlob fdtSize = some (fdt, child')) :
    ∃ base, share parent child fdtBlob (numFdtPages pageBits fdtSize) = some (base, child') ∧
      fdt = base + fdtBlob % pageSize pageBits := by
  obtain ⟨⟨base, vspace⟩, hshare, hsome⟩ := Option.bind_eq_some_iff.mp h
  obtain ⟨rfl, rfl⟩ := Prod.mk.inj (Option.some.inj hsome)
  refine ⟨base, hshare, ?_⟩
  have hmod : base % pageSize pageBits = 0 := Nat.mod_eq_zero_of_dvd (hs.aligned hshare)
  split_ifs with hne
  · rfl
  · rw [← not_not.mp hne, hmod, Nat.add_zero]

/-- The page of byte `k` of the blob, in the driver. -/
theorem blob_div_pageSize (pageBits fdtBlob k : ℕ) : (fdtBlob + k) / pageSize pageBits =
    fdtBlob / pageSize pageBits + (fdtBlob % pageSize pageBits + k) / pageSize pageBits := by
  have hsplit := Nat.div_add_mod fdtBlob (pageSize pageBits)
  conv_lhs => rw [← hsplit, Nat.add_assoc, Nat.mul_add_div (pageSize_pos pageBits)]

/-- A byte is visible if the frame of its page is mapped. -/
theorem translate_eq_iff {base : ℕ} (hbase : pageSize pageBits ∣ base) (k : ℕ) :
    translate pageBits child' (base + fdtBlob % pageSize pageBits + k) =
        translate pageBits parent (fdtBlob + k) ↔
      child' (base / pageSize pageBits +
          (fdtBlob % pageSize pageBits + k) / pageSize pageBits) =
        parent (fdtBlob / pageSize pageBits +
          (fdtBlob % pageSize pageBits + k) / pageSize pageBits) := by
  have hinj : Function.Injective fun frame : F => (frame, (fdtBlob + k) % pageSize pageBits) :=
    fun _ _ h => (Prod.mk.inj h).1
  rw [translate, translate, Nat.add_assoc, add_div_pageSize hbase, add_mod_pageSize hbase,
    Nat.mod_add_mod, blob_div_pageSize pageBits fdtBlob k]
  exact (Option.map_injective hinj).eq_iff

section Shared

variable {base : ℕ} (hs : SharesMem pageBits share)
  (hshare : share parent child fdtBlob (numFdtPages pageBits fdtSize) = some (base, child'))

include hs hshare

/-- The pages that are unmapped later are those that have been shared. -/
theorem unmapFdt_apply (q : ℕ) :
    unmapFdt pageBits child' (base + fdtBlob % pageSize pageBits) fdtSize q =
      if q ∈ pagesFrom pageBits base (numFdtPages pageBits fdtSize) then none else child q := by
  rw [unmapFdt, alignDown_add (hs.aligned hshare) (Nat.mod_lt fdtBlob (pageSize_pos pageBits)),
    vspaceUnmapPages]
  split_ifs with hq
  · rfl
  · exact hs.other hshare q hq

/-- A byte in the shared pages is visible. -/
theorem translate_eq_of_lt {k : ℕ} (hk : fdtBlob % pageSize pageBits + k <
      pageSize pageBits * numFdtPages pageBits fdtSize) :
    translate pageBits child' (base + fdtBlob % pageSize pageBits + k) =
      translate pageBits parent (fdtBlob + k) := by
  have hpage : (fdtBlob % pageSize pageBits + k) / pageSize pageBits <
      numFdtPages pageBits fdtSize := by
    rwa [Nat.div_lt_iff_lt_mul (pageSize_pos pageBits), Nat.mul_comm]
  exact (translate_eq_iff (hs.aligned hshare) k).mpr (hs.mapped hshare _ hpage)

/-- The first byte after the shared pages is not visible. -/
theorem translate_ne_of_eq {k : ℕ}
    (hfresh : ∀ q, child q ≠ parent ((fdtBlob + k) / pageSize pageBits))
    (hk : fdtBlob % pageSize pageBits + k =
      pageSize pageBits * numFdtPages pageBits fdtSize) :
    translate pageBits child' (base + fdtBlob % pageSize pageBits + k) ≠
      translate pageBits parent (fdtBlob + k) := by
  intro hvisible
  have heq := (translate_eq_iff (hs.aligned hshare) k).mp hvisible
  have hpage := blob_div_pageSize pageBits fdtBlob k
  rw [hk, Nat.mul_div_cancel_left _ (pageSize_pos pageBits)] at heq hpage
  rw [hs.other hshare _ fun hmem => lt_irrefl _ hmem.2, ← hpage] at heq
  exact hfresh _ heq

end Shared

/-- A blob that exceeds the shared pages has a byte right after them. -/
theorem exists_byte_after (hsize : 1 ≤ fdtSize) (hexceeds :
      pageSize pageBits * numFdtPages pageBits fdtSize < fdtBlob % pageSize pageBits + fdtSize) :
    ∃ k < fdtSize, fdtBlob % pageSize pageBits + k =
      pageSize pageBits * numFdtPages pageBits fdtSize := by
  have hcover := le_numFdtPages pageBits fdtSize
  have hoffset := Nat.mod_lt fdtBlob (pageSize_pos pageBits)
  have hone : 1 ≤ numFdtPages pageBits fdtSize := by
    by_contra hzero
    rw [Nat.lt_one_iff.mp (not_le.mp hzero), Nat.mul_zero] at hcover
    omega
  have hle := hoffset.le.trans (Nat.le_mul_of_pos_right _ hone)
  exact ⟨pageSize pageBits * numFdtPages pageBits fdtSize - fdtBlob % pageSize pageBits,
    by omega, Nat.add_sub_cancel' hle⟩

/-- **The bytes of the device tree.** The frames of the blob are mapped in the driver, and not yet
in the process. Every byte of the blob is visible in the process at its offset from `args->fdt`,
and the later unmapping removes the shared pages and no others, if and only if the offset of the
blob in its first page and its size together do not exceed the shared pages. -/
theorem visible_iff (hs : SharesMem pageBits share) (hsize : 1 ≤ fdtSize)
    (hparent : ∀ k < fdtSize, (parent ((fdtBlob + k) / pageSize pageBits)).isSome)
    (hfresh : ∀ k < fdtSize, ∀ q, child q ≠ parent ((fdtBlob + k) / pageSize pageBits))
    (h : shareFdt pageBits share parent child fdtBlob fdtSize = some (fdt, child')) :
    ((∀ k < fdtSize, ∃ byte, translate pageBits parent (fdtBlob + k) = some byte ∧
        translate pageBits child' (fdt + k) = some byte) ∧
      ∃ base, share parent child fdtBlob (numFdtPages pageBits fdtSize) = some (base, child') ∧
        ∀ q, unmapFdt pageBits child' fdt fdtSize q =
          if q ∈ pagesFrom pageBits base (numFdtPages pageBits fdtSize) then none else child q) ↔
    fdtBlob % pageSize pageBits + fdtSize ≤ pageSize pageBits * numFdtPages pageBits fdtSize := by
  obtain ⟨base, hshare, rfl⟩ := exists_base_of_shareFdt hs h
  rw [and_iff_left ⟨base, hshare, unmapFdt_apply hs hshare⟩]
  constructor
  · intro hvisible
    by_contra hexceeds
    obtain ⟨k, hlt, hk⟩ := exists_byte_after hsize (not_le.mp hexceeds)
    obtain ⟨byte, hbyte, hbyte'⟩ := hvisible k hlt
    exact translate_ne_of_eq hs hshare (hfresh k hlt) hk (hbyte'.trans hbyte.symm)
  · intro hle k hk
    obtain ⟨frame, hframe⟩ := Option.isSome_iff_exists.mp (hparent k hk)
    have hsome : translate pageBits parent (fdtBlob + k) =
        some (frame, (fdtBlob + k) % pageSize pageBits) := by
      rw [translate, hframe, Option.map_some]
    exact ⟨_, hsome, (translate_eq_of_lt hs hshare (by omega)).trans hsome⟩

end Share

/-! ### An address space -/

/-- Sharing memory at the page `page` of the process. -/
def shareAt (page : ℕ) (parent child : Vspace F) (start n : ℕ) : Option (ℕ × Vspace F) :=
  some (page * pageSize pageBits, fun q =>
    if page ≤ q ∧ q < page + n then parent (start / pageSize pageBits + (q - page)) else child q)

theorem sharesMem_shareAt (page : ℕ) : SharesMem (F := F) pageBits (shareAt pageBits page) where
  aligned h := by
    obtain ⟨rfl, -⟩ := Prod.mk.inj (Option.some.inj h)
    exact Nat.dvd_mul_left _ _
  mapped h i hi := by
    obtain ⟨rfl, rfl⟩ := Prod.mk.inj (Option.some.inj h)
    rw [Nat.mul_div_cancel _ (pageSize_pos pageBits)]
    refine (if_pos ⟨by omega, by omega⟩).trans ?_
    rw [Nat.add_sub_cancel_left]
  other h q hq := by
    obtain ⟨rfl, rfl⟩ := Prod.mk.inj (Option.some.inj h)
    rw [pagesFrom, Nat.mul_div_cancel _ (pageSize_pos pageBits)] at hq
    exact if_neg hq

/-- A blob of two bytes, one at the end of a page of 4096 bytes and one in the next. The process
does not see the second one. -/
theorem straddling_not_visible :
    let parent : Vspace ℕ := fun q => some q
    let child : Vspace ℕ := fun _ => none
    SharesMem (F := ℕ) 12 (shareAt 12 7) ∧
    ∃ fdt child', shareFdt 12 (shareAt 12 7) parent child 4095 2 = some (fdt, child') ∧
      translate 12 parent (4095 + 1) = some (1, 0) ∧ translate 12 child' (fdt + 1) = none :=
  ⟨sharesMem_shareAt 12 7, _, _, rfl, by decide, by decide⟩

/-- A blob of two bytes in one page. -/
theorem visible_iff_one_page :
    let parent : Vspace ℕ := fun q => some q
    ∃ fdt child', shareFdt 12 (shareAt 12 7) parent (fun _ => none) 100 2 = some (fdt, child') ∧
      ∀ k < 2, ∃ byte, translate 12 parent (100 + k) = some byte ∧
        translate 12 child' (fdt + k) = some byte := by
  refine ⟨_, _, rfl, ((visible_iff (sharesMem_shareAt 12 7) (by decide) (fun _ _ => rfl)
    (fun _ _ _ => Option.some_ne_none _ |>.symm) rfl).mpr (by decide)).1⟩

end Sel4bench.Fdt
