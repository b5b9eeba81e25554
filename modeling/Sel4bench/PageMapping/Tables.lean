import Sel4bench.PageMapping.Slots

/-!
# Tables and pages of a run

The functions of the benchmark process that prepare and map the pages of a run. They prepare the
tables of the upper levels, one table with pages for each group of pages, and then the pages. Where
the pages fit below the level-one table of the first address (`Sel4bench.PageMapping.Fits`), no
call of the kernel fails.

## Main definitions

* `Sel4bench.PageMapping.Fits`, `Sel4bench.PageMapping.Unmapped` — the conditions on the addresses.
* `Sel4bench.PageMapping.Progress` — what has been done in a run.

## Main results

* `Sel4bench.PageMapping.ends_preparePageTable` — the tables for all pages are prepared.
* `Sel4bench.PageMapping.ends_preparePages` — the pages are prepared.
* `Sel4bench.PageMapping.ends_protUnprotNpage` — the pages are mapped, at first or again.
-/

namespace Sel4bench.PageMapping

open Total

variable {A : Arch} {s₀ s : Child} {u k : ℕ} {leaves pages : List ℕ}
  {maps : List (ℕ × ℕ × CapRights)}

/-! ### Addresses -/

variable (A) in
/-- The end of the addresses that the level-one table covers in which an address lies. With two
levels this table covers the whole address space. -/
def levelOneEnd (addr : ℕ) : ℕ :=
  if A.numPtLevels = 2 then 2 ^ A.wordBits else (A.index 1 addr + 1) * A.tableSize 1

variable (A) in
/-- The pages of a run fit: their addresses are covered by the level-one table of the first
address, which is that of a table. -/
structure Fits (addr npage : ℕ) : Prop where
  aligned : A.tableSize 0 ∣ addr
  addr_lt : addr < 2 ^ A.wordBits
  le : addr + npage * pageSize4K ≤ levelOneEnd A addr

theorem Arch.tableSize_pos (A : Arch) (level : ℕ) : 0 < A.tableSize level := by
  exact Nat.mul_pos (by decide) (Nat.pow_pos A.pagePerTable_pos)

theorem Arch.tableSize_zero (A : Arch) : A.tableSize 0 = pageSize4K * A.pagePerTable := by
  rw [Arch.tableSize, zero_add, pow_one]

theorem Arch.tableSize_succ (A : Arch) (level : ℕ) :
    A.tableSize (level + 1) = A.tableSize level * A.pagePerTable := by
  rw [Arch.tableSize, Arch.tableSize, pow_succ _ (level + 1), ← mul_assoc]

theorem levelOneEnd_le {addr : ℕ} (haddr : addr < 2 ^ A.wordBits) :
    levelOneEnd A addr ≤ 2 ^ A.wordBits := by
  rw [levelOneEnd]
  split_ifs with htwo
  · exact le_rfl
  · have hge := A.two_le_numPtLevels
    obtain ⟨c, hc⟩ := A.levelOne_dvd (by omega)
    have hsize : 2 ^ A.wordBits = c * A.tableSize 1 := by
      rw [hc, Arch.tableSize, pageSize4K, mul_comm]
    have hpos := A.tableSize_pos 1
    rw [hsize] at haddr ⊢
    have hlt : A.index 1 addr < c := (Nat.div_lt_iff_lt_mul hpos).mpr haddr
    exact Nat.mul_le_mul_right _ hlt

/-- The addresses of a run have the upper tables of the first address. -/
theorem Fits.index_eq {addr npage : ℕ} (h : Fits A addr npage) (hlevels : 3 ≤ A.numPtLevels)
    {level x : ℕ} (hlevel : 0 < level) (hx : x < npage * pageSize4K) :
    A.index level (addr + x) = A.index level addr := by
  have hone : A.index 1 (addr + x) = A.index 1 addr := by
    have hle := h.le
    rw [levelOneEnd, if_neg (by omega)] at hle
    have hpos := A.tableSize_pos 1
    refine le_antisymm ?_ (Nat.div_le_div_right (Nat.le_add_right _ _))
    have hlt : A.index 1 (addr + x) < A.index 1 addr + 1 :=
      (Nat.div_lt_iff_lt_mul hpos).mpr (by omega)
    omega
  induction level with
  | zero => omega
  | succ level ih =>
    rcases Nat.eq_zero_or_pos level with rfl | hpos
    · exact hone
    · have hsucc : ∀ y, A.index (level + 1) y = A.index level y / A.pagePerTable := by
        intro y
        rw [Arch.index, Arch.index, Arch.tableSize_succ, Nat.div_div_eq_div_mul]
      rw [hsucc, hsucc, ih hpos]

/-- The words of a run do not overflow. -/
theorem Fits.mod_eq {addr npage x : ℕ} (h : Fits A addr npage) (hx : x < npage * pageSize4K) :
    (addr + x) % 2 ^ A.wordBits = addr + x := by
  have := levelOneEnd_le h.addr_lt
  have := h.le
  exact Nat.mod_eq_of_lt (by omega)

/-- A table is prepared for each page, and there are no more. -/
theorem lt_numPageTable {npage j : ℕ} :
    j < numPageTable A npage ↔ j * A.pagePerTable < npage := by
  have hpos := A.pagePerTable_pos
  rw [numPageTable, Nat.lt_iff_add_one_le, Nat.le_div_iff_mul_le hpos, Nat.add_mul, one_mul]
  omega

theorem index_page {addr : ℕ} (h : A.tableSize 0 ∣ addr) (i : ℕ) :
    A.index 0 (addr + i * pageSize4K) = A.index 0 addr + i / A.pagePerTable := by
  obtain ⟨c, rfl⟩ := h
  have hpos := A.tableSize_pos 0
  rw [Arch.index, Arch.index, Nat.mul_add_div hpos, Nat.mul_div_cancel_left _ hpos,
    Arch.tableSize_zero, mul_comm i, Nat.mul_div_mul_left _ _ (by decide)]

theorem index_leaf (addr j : ℕ) :
    A.index 0 (addr + j * A.tableSize 0) = A.index 0 addr + j :=
  Nat.add_mul_div_right _ _ (A.tableSize_pos 0)

/-- A table is that of its first page. -/
theorem leaf_eq_page (j : ℕ) : j * A.tableSize 0 = j * A.pagePerTable * pageSize4K := by
  rw [Arch.tableSize_zero, mul_comm pageSize4K, mul_assoc]

/-! ### The calls of the kernel -/

/-- What has been done in a run. -/
structure Progress (s₀ : Child) (u k : ℕ) (leaves pages : List ℕ)
    (maps : List (ℕ × ℕ × CapRights)) (s : Child) : Prop where
  within : Within s₀ u k s
  logged : Logged u k leaves pages maps s.events

/-- A call that succeeds, as the code asserts. -/
theorem ends_checked {call : ChildM Error} {s' : Child} {β : Type} {f : ChildM β}
    {Q : β → Child → Prop} (hcall : Ends call s fun err t => err = .noError ∧ t = s')
    (h : Ends f s' Q) : Ends (do
      let err ← call
      cAssert (err = .noError)
      f) s Q := by
  refine hcall.bind ?_
  rintro err t ⟨rfl, rfl⟩
  rw [ends_bind]
  exact ends_cAssert.mpr ⟨rfl, h⟩

theorem ends_untypedRetypeRoot (h : Within s₀ u k s) (obj : Obj) :
    Ends (untypedRetypeRoot u obj (u + k + 1)) s fun err s' => err = .noError ∧
      s' = { s.setCap (u + k + 1) obj.cap with
        events := s.events ++ [.retype obj (u + k + 1) none] } := by
  have hfree := h.free (u + k + 1) (by omega)
  simp [untypedRetypeRoot, hfree, h.untyped, Child.setCap]

theorem ends_tableMap {level slot addr target : ℕ}
    (hcap : s.cspace slot = some (.pageTable level false))
    (htarget : targetLevel A s level addr = some target) (hparent : s.hasParent A target addr)
    (hnone : s.tables target (A.index target addr) = none) :
    Ends (tableMap A level slot addr) s fun err s' => err = .noError ∧
      s' = s.tableMapped A target level slot addr := by
  simp [tableMap, hcap, htarget, hparent, hnone]

/-- A table is there already. -/
theorem ends_tableMap_deleteFirst {level slot addr : ℕ} (htyped : A.typed = true)
    (hcap : s.cspace slot = some (.pageTable level false)) (hparent : s.hasParent A level addr)
    (hsome : (s.tables level (A.index level addr)).isSome) :
    Ends (tableMap A level slot addr) s fun err s' => err = .deleteFirst ∧ s' = s := by
  have htarget : targetLevel A s level addr = some level := by rw [targetLevel, if_pos htyped]
  simp [tableMap, hcap, htarget, hparent, hsome]

/-- Mapping a page, for the first time or again. -/
theorem ends_pageMap {slot addr : ℕ} {rights : CapRights}
    (htable : (s.tables 0 (A.index 0 addr)).isSome)
    (hcap : s.cspace slot = some (.page none) ∧ s.pages (addr / pageSize4K) = none ∨
      s.cspace slot = some (.page (some addr))) :
    Ends (pageMap A slot addr rights) s fun err s' => err = .noError ∧
      s' = s.pageMapped slot addr rights := by
  have htable' : s.tables 0 (A.index 0 addr) ≠ none := Option.isSome_iff_ne_none.mp htable
  obtain ⟨hcap, hpage⟩ | hcap := hcap
  · simp [pageMap, htable', hcap, hpage]
  · simp [pageMap, htable', hcap]

/-- The kernel finds the level below the tables that are there. -/
theorem firstMissing_eq {present : ℕ → Bool} {level top : ℕ} (hle : level ≤ top)
    (hmissing : present level = false) (h : ∀ l, level < l → l ≤ top → present l = true) :
    firstMissing present top = some level := by
  induction top with
  | zero =>
    obtain rfl : level = 0 := by omega
    simp [firstMissing, hmissing]
  | succ top ih =>
    by_cases heq : level = top + 1
    · subst heq
      simp [firstMissing, hmissing]
    · rw [firstMissing, if_pos (h (top + 1) (by omega) le_rfl)]
      exact ih (by omega) fun l h1 h2 => h l h1 (by omega)

theorem targetLevel_eq {level addr : ℕ} (hlevel : level + 2 ≤ A.numPtLevels)
    (hnone : s.tables level (A.index level addr) = none)
    (h : ∀ l, level < l → l + 1 < A.numPtLevels → (s.tables l (A.index l addr)).isSome) :
    targetLevel A s level addr = some level := by
  rw [targetLevel]
  split_ifs
  · rfl
  · refine firstMissing_eq (by omega) (by simp [hnone]) fun l h1 h2 => ?_
    exact h l h1 (by omega)

/-! ### The tables -/

variable (A) in
/-- There is nothing at the addresses of the pages. -/
structure Unmapped (addr npage : ℕ) (s : Child) : Prop where
  tables : ∀ i < npage, s.tables 0 (A.index 0 (addr + i * pageSize4K)) = none
  pages : ∀ i < npage, s.pages ((addr + i * pageSize4K) / pageSize4K) = none

theorem Progress.tableMapped {level slot addr : ℕ} (h : Progress s₀ u k leaves pages maps s)
    (h1 : u < slot) (h2 : slot ≤ u + k) (hnone : s.tables level (A.index level addr) = none)
    {leaves' : List ℕ}
    (hlogged : Logged u k leaves' pages maps (s.events ++ [.mapTable level slot addr])) :
    Progress s₀ u k leaves' pages maps (s.tableMapped A level level slot addr) :=
  ⟨h.within.tableMapped h1 h2 hnone, hlogged⟩

theorem Progress.retype_table (h : Progress s₀ u k leaves pages maps s) (level : ℕ) :
    Progress s₀ u (k + 1) leaves pages maps { s.setCap (u + k + 1) (.pageTable level false) with
      events := s.events ++ [.retype (.pageTable level) (u + k + 1) none] } :=
  ⟨(h.within.retyped (.pageTable level)).setEvents _, h.logged.retype_table level⟩

theorem Child.tableMapped_tables_of_ne {target level l slot addr : ℕ} (h : l ≠ target) :
    (s.tableMapped A target level slot addr).tables l = s.tables l :=
  Function.update_of_ne h _ _

theorem Child.tableMapped_tables_self {target level slot addr i : ℕ} :
    (s.tableMapped A target level slot addr).tables target i =
      if i = A.index target addr then some (.child slot) else s.tables target i := by
  simp [Child.tableMapped, Function.update_apply]

/-- `prepare_page_table`, the table of level two. It may be there already. -/
theorem ends_prepareLevelTwo {addr : ℕ} (hfresh : Fresh A addr s₀)
    (h : Progress s₀ u 0 [] [] [] s) (htables : s.tables = s₀.tables)
    (hpages : s.pages = s₀.pages) :
    Ends (prepareLevelTwo A addr u (u + 1)) s fun pt s' => ∃ k, pt = u + k + 1 ∧
      Progress s₀ u k [] [] [] s' ∧ s'.pages = s₀.pages ∧
      (∀ level, level ≠ 2 → s'.tables level = s₀.tables level) ∧
      (A.numPtLevels = 4 → (s'.tables 2 (A.index 2 addr)).isSome) := by
  rw [prepareLevelTwo]
  split_ifs with hfour
  · refine ends_checked (ends_untypedRetypeRoot h.within (.pageTable 2)) ?_
    have h₁ := h.retype_table 2
    set s₁ : Child := { s.setCap (u + 0 + 1) (.pageTable 2 false) with
      events := s.events ++ [.retype (.pageTable 2) (u + 0 + 1) none] } with hs₁
    have hcap : s₁.cspace (u + 0 + 1) = some (.pageTable 2 false) := Child.setCap_self _ _
    have htables₁ : s₁.tables = s₀.tables := htables
    have hparent : s₁.hasParent A 2 addr := .inl hfour.symm
    by_cases hnone : s₁.tables 2 (A.index 2 addr) = none
    · have htarget : targetLevel A s₁ 2 addr = some 2 := by
        refine targetLevel_eq hfour.ge hnone fun l h1 h2 => ?_
        omega
      refine (ends_tableMap hcap htarget hparent hnone).bind ?_
      rintro err s₂ ⟨rfl, rfl⟩
      rw [ends_bind]
      refine ends_cAssert.mpr ⟨.inl rfl, ?_⟩
      rw [ends_pure]
      refine ⟨1, rfl, h₁.tableMapped (by omega) (by omega) hnone
        (h₁.logged.mapTable_upper (by decide) _ _), hpages, fun level hl => ?_, fun _ => ?_⟩
      · rw [Child.tableMapped_tables_of_ne hl, htables₁]
      · rw [Child.tableMapped_tables_self, if_pos rfl]
        rfl
    · have htyped : A.typed = true := by
        by_contra hnot
        exact hnone (htables₁ ▸ hfresh.levelTwo hfour (Bool.eq_false_of_not_eq_true hnot))
      have hsome := Option.isSome_iff_ne_none.mpr hnone
      refine (ends_tableMap_deleteFirst htyped hcap hparent hsome).bind ?_
      rintro err s₂ ⟨rfl, rfl⟩
      rw [ends_bind]
      refine ends_cAssert.mpr ⟨.inr rfl, ?_⟩
      rw [ends_pure]
      exact ⟨1, rfl, h₁, hpages, fun level _ => by rw [htables₁], fun _ => hsome⟩
  · rw [ends_pure]
    exact ⟨0, rfl, h, hpages, fun level _ => by rw [htables], fun hfour' => absurd hfour' hfour⟩

variable (A) in
/-- The tables above those with pages are there. -/
def HasUpper (addr : ℕ) (s : Child) : Prop :=
  ∀ level, 0 < level → level + 1 < A.numPtLevels → (s.tables level (A.index level addr)).isSome

/-- `prepare_page_table`, the table of level one. -/
theorem ends_prepareLevelOne {addr : ℕ} (hfresh : Fresh A addr s₀)
    (h : Progress s₀ u k [] [] [] s) (hpages : s.pages = s₀.pages)
    (htables : ∀ level, level ≠ 2 → s.tables level = s₀.tables level)
    (htwo : A.numPtLevels = 4 → (s.tables 2 (A.index 2 addr)).isSome) :
    Ends (prepareLevelOne A addr u (u + k + 1)) s fun pt s' => ∃ k, pt = u + k + 1 ∧
      Progress s₀ u k [] [] [] s' ∧ s'.pages = s₀.pages ∧ s'.tables 0 = s₀.tables 0 ∧
      HasUpper A addr s' := by
  have hfour := A.numPtLevels_le_four
  rw [prepareLevelOne]
  split_ifs with hthree
  · refine ends_checked (ends_untypedRetypeRoot h.within (.pageTable 1)) ?_
    have h₁ := h.retype_table 1
    set s₁ : Child := { s.setCap (u + k + 1) (.pageTable 1 false) with
      events := s.events ++ [.retype (.pageTable 1) (u + k + 1) none] } with hs₁
    have hcap : s₁.cspace (u + k + 1) = some (.pageTable 1 false) := Child.setCap_self _ _
    have hnone : s₁.tables 1 (A.index 1 addr) = none :=
      (congrFun (htables 1 (by decide)) _).trans (hfresh.levelOne hthree)
    have hupper : ∀ l, 1 < l → l + 1 < A.numPtLevels → (s₁.tables l (A.index l addr)).isSome := by
      intro l h1 h2
      obtain rfl : l = 2 := by omega
      exact htwo (by omega)
    have hparent : s₁.hasParent A 1 addr := by
      by_cases heq : A.numPtLevels = 3
      · exact .inl heq.symm
      · exact .inr (hupper 2 (by decide) (by omega))
    refine ends_checked (ends_tableMap hcap (targetLevel_eq hthree hnone hupper) hparent hnone) ?_
    rw [ends_pure]
    refine ⟨k + 1, rfl, h₁.tableMapped (by omega) (by omega) hnone
      (h₁.logged.mapTable_upper (by decide) _ _), hpages, ?_, ?_⟩
    · rw [Child.tableMapped_tables_of_ne (by decide)]
      exact htables 0 (by decide)
    · intro l h1 h2
      by_cases hl : l = 1
      · subst hl
        rw [Child.tableMapped_tables_self, if_pos rfl]
        rfl
      · rw [Child.tableMapped_tables_of_ne hl]
        exact hupper l (by omega) h2
  · rw [ends_pure]
    refine ⟨k, rfl, h, hpages, htables 0 (by decide), fun l h1 h2 => ?_⟩
    omega

variable (A) in
/-- After `i` iterations of the loop of `prepare_page_table`, which started with `m` slots used. -/
structure Leaves (s₀ : Child) (addr u m npage i : ℕ) (ptAddr : ℕ × ℕ) (s : Child) : Prop where
  ptCslot : ptAddr.1 = u + (m + i) + 1
  nextAddr : ptAddr.2 = (addr + i * A.tableSize 0) % 2 ^ A.wordBits
  progress :
    Progress s₀ u (m + i) ((List.range i).map fun j => addr + j * A.tableSize 0) [] [] s
  pages : s.pages = s₀.pages
  upper : HasUpper A addr s
  present : ∀ j < i, (s.tables 0 (A.index 0 addr + j)).isSome
  missing : ∀ j, i ≤ j → j < numPageTable A npage → s.tables 0 (A.index 0 addr + j) = none

/-- An iteration of the loop of `prepare_page_table`. -/
theorem ends_prepareLeaf {addr npage m i : ℕ} (hfits : Fits A addr npage)
    (hi : i < numPageTable A npage) {ptAddr : ℕ × ℕ} (h : Leaves A s₀ addr u m npage i ptAddr s) :
    Ends (prepareLeaf A u ptAddr) s (Leaves A s₀ addr u m npage (i + 1)) := by
  obtain ⟨ptCslot, addr'⟩ := ptAddr
  obtain ⟨hslot, haddr, hprogress, hpages, hupper, hpresent, hmissing⟩ := h
  have hpage := lt_numPageTable.mp hi
  have hx : i * A.tableSize 0 < npage * pageSize4K := by
    rw [leaf_eq_page]
    exact Nat.mul_lt_mul_of_pos_right hpage (by decide)
  have haddr' : addr' = addr + i * A.tableSize 0 := haddr.trans (hfits.mod_eq hx)
  have hslot' : ptCslot = u + (m + i) + 1 := hslot
  subst haddr' hslot'
  rw [prepareLeaf]
  refine ends_checked (ends_untypedRetypeRoot hprogress.within (.pageTable 0)) ?_
  have h₁ := hprogress.retype_table 0
  set s₁ : Child := { s.setCap (u + (m + i) + 1) (.pageTable 0 false) with
    events := s.events ++ [.retype (.pageTable 0) (u + (m + i) + 1) none] } with hs₁
  have hcap : s₁.cspace (u + (m + i) + 1) = some (.pageTable 0 false) := Child.setCap_self _ _
  have hnone : s₁.tables 0 (A.index 0 (addr + i * A.tableSize 0)) = none := by
    rw [index_leaf]
    exact hmissing i le_rfl hi
  have hupper₁ : ∀ l, 0 < l → l + 1 < A.numPtLevels →
      (s₁.tables l (A.index l (addr + i * A.tableSize 0))).isSome := by
    intro l h1 h2
    rw [hfits.index_eq (by omega) h1 hx]
    exact hupper l h1 h2
  have hparent : s₁.hasParent A 0 (addr + i * A.tableSize 0) := by
    have hge := A.two_le_numPtLevels
    by_cases heq : A.numPtLevels = 2
    · exact .inl heq.symm
    · exact .inr (hupper₁ 1 (by decide) (by omega))
  have htarget := targetLevel_eq A.two_le_numPtLevels hnone hupper₁
  refine ends_checked (ends_tableMap hcap htarget hparent hnone) ?_
  rw [ends_pure]
  refine ⟨rfl, ?_, ?_, hpages, ?_, ?_, ?_⟩
  · simp only [Arch.wordAdd, ← Arch.tableSize_zero, Nat.succ_mul, Nat.add_assoc]
  · have hlogged := h₁.logged.mapTable_leaf (u + (m + i) + 1) (addr + i * A.tableSize 0)
    rw [List.range_succ, List.map_append]
    exact h₁.tableMapped (by omega) (by omega) hnone hlogged
  · intro l h1 h2
    rw [Child.tableMapped_tables_of_ne (by omega)]
    exact hupper l h1 h2
  · intro j hj
    rw [Child.tableMapped_tables_self, index_leaf]
    by_cases heq : j = i
    · rw [if_pos (by omega)]
      rfl
    · rw [if_neg (by omega)]
      exact hpresent j (by omega)
  · intro j h1 h2
    rw [Child.tableMapped_tables_self, index_leaf, if_neg (by omega)]
    exact hmissing j (by omega) h2

theorem ends_preparePageTable {addr npage : ℕ} (hfresh : Fresh A addr s₀)
    (hfits : Fits A addr npage) (hunmapped : Unmapped A addr npage s₀)
    (h : Progress s₀ u 0 [] [] [] s) (htables : s.tables = s₀.tables)
    (hpages : s.pages = s₀.pages) :
    Ends (preparePageTable A addr npage u (u + 1)) s fun pt s' => ∃ k, pt = u + k + 1 ∧
      Progress s₀ u k ((List.range (numPageTable A npage)).map fun j => addr + j * A.tableSize 0)
        [] [] s' ∧ s'.pages = s₀.pages ∧
      ∀ j < numPageTable A npage, (s'.tables 0 (A.index 0 addr + j)).isSome := by
  rw [preparePageTable]
  refine (ends_prepareLevelTwo hfresh h htables hpages).bind ?_
  rintro _ s₂ ⟨k₂, rfl, h₂, hpages₂, htables₂, htwo⟩
  refine (ends_prepareLevelOne hfresh h₂ hpages₂ htables₂ htwo).bind ?_
  rintro _ s₁ ⟨m, rfl, h₁, hpages₁, htables₁, hupper⟩
  have hloop := Ends.foldlM_range (f := fun ptAddr _ => prepareLeaf A u ptAddr)
    (n := numPageTable A npage) (b := (u + m + 1, addr)) (s := s₁)
    (Leaves A s₀ addr u m npage) ?_ ?_
  · refine hloop.bind fun ptAddr s' hleaves => ?_
    obtain ⟨hslot, -, hprogress, hpages', -, hpresent, -⟩ := hleaves
    rw [ends_pure]
    exact ⟨_, hslot, hprogress, hpages', hpresent⟩
  · refine ⟨rfl, ?_, h₁, hpages₁, hupper, by simp, ?_⟩
    · rw [zero_mul, add_zero, Nat.mod_eq_of_lt hfits.addr_lt]
    · intro j _ hj
      rw [htables₁, ← index_leaf, leaf_eq_page]
      exact hunmapped.tables _ (lt_numPageTable.mp hj)
  · intro i hi ptAddr s' hleaves
    exact ends_prepareLeaf hfits hi hleaves

/-! ### The pages -/

/-- After `i` iterations of `prepare_pages`, which started in `s₁` with `m` slots used. -/
structure Pages (s₀ s₁ : Child) (u m : ℕ) (leaves : List ℕ) (i freeSlot : ℕ) (s : Child) :
    Prop where
  nextSlot : freeSlot = u + (m + i) + 1
  progress : Progress s₀ u (m + i) leaves ((List.range i).map fun j => u + m + 1 + j) [] s
  tables : s.tables = s₁.tables
  pages : s.pages = s₀.pages
  caps : ∀ j < i, s.cspace (u + m + 1 + j) = some (.page none)

theorem ends_preparePages {npage m : ℕ} (h : Progress s₀ u m leaves [] [] s)
    (hpages : s.pages = s₀.pages) :
    Ends (preparePages npage u (u + m + 1)) s (Pages s₀ s u m leaves npage) := by
  refine Ends.foldlM_range (Pages s₀ s u m leaves) ?_ ?_
  · exact ⟨rfl, h, rfl, hpages, by simp⟩
  · rintro i - _ s' ⟨rfl, hprogress, htables, hpages', hcaps⟩
    refine ends_checked (ends_untypedRetypeRoot hprogress.within .page) ?_
    rw [ends_pure]
    refine ⟨rfl, ⟨(hprogress.within.retyped .page).setEvents _, ?_⟩, htables, hpages', ?_⟩
    · rw [List.range_succ, List.map_append]
      have hlogged := hprogress.logged.retype_page
      rwa [show u + (m + i) + 1 = u + m + 1 + i by omega] at hlogged ⊢
    · intro j hj
      by_cases heq : j = i
      · rw [heq, show u + m + 1 + i = u + (m + i) + 1 by omega]
        exact Child.setCap_self _ _
      · exact (Child.setCap_of_ne (by omega) _).trans (hcaps j (by omega))

theorem Child.pageMapped_cspace {slot addr : ℕ} {rights : CapRights} (slot' : ℕ) :
    (s.pageMapped slot addr rights).cspace slot' =
      (s.setCap slot (.page (some addr))).cspace slot' :=
  rfl

theorem Child.pageMapped_pages {slot addr : ℕ} {rights : CapRights} (i : ℕ) :
    (s.pageMapped slot addr rights).pages i =
      if i = addr / pageSize4K then some (.child slot) else s.pages i := by
  simp [Child.pageMapped, Function.update_apply]

/-- The page with number `j` of a run can be mapped at its address. -/
def Mappable (p addr j : ℕ) (s : Child) : Prop :=
  s.cspace (p + j) = some (.page none) ∧ s.pages ((addr + j * pageSize4K) / pageSize4K) = none ∨
    s.cspace (p + j) = some (.page (some (addr + j * pageSize4K)))

variable (A) in
/-- After `i` iterations of a loop that maps the pages in the slots from `p` on. -/
structure Mapping (s₀ s₁ : Child) (u k p addr npage : ℕ) (leaves pages : List ℕ)
    (maps : List (ℕ × ℕ × CapRights)) (rights : CapRights) (i : ℕ) (capAddr : ℕ × ℕ)
    (s : Child) : Prop where
  pageCap : capAddr.1 = p + i
  nextAddr : capAddr.2 = (addr + i * pageSize4K) % 2 ^ A.wordBits
  progress : Progress s₀ u k leaves pages
    (maps ++ (List.range i).map fun j => (p + j, addr + j * pageSize4K, rights)) s
  tables : s.tables = s₁.tables
  mappable : ∀ j < npage, Mappable p addr j s

theorem ends_protUnprotNpage {p addr npage : ℕ} (rights : CapRights) (hfits : Fits A addr npage)
    (hunmapped : Unmapped A addr npage s₀) (hu : u < p) (hp : p + npage ≤ u + k + 1)
    (h : Progress s₀ u k leaves pages maps s)
    (htables : ∀ j < numPageTable A npage, (s.tables 0 (A.index 0 addr + j)).isSome)
    (hmappable : ∀ j < npage, Mappable p addr j s) :
    Ends (protUnprotNpage A rights addr p npage) s fun _ s' => s'.tables = s.tables ∧
      Progress s₀ u k leaves pages
        (maps ++ (List.range npage).map fun j => (p + j, addr + j * pageSize4K, rights)) s' ∧
      ∀ j < npage, Mappable p addr j s' := by
  have hloop := Ends.foldlM_range (f := fun capAddr _ => mapPage A rights capAddr) (n := npage)
    (b := (p, addr)) (s := s) (Mapping A s₀ s u k p addr npage leaves pages maps rights) ?_ ?_
  · refine hloop.bind fun capAddr s' hmapping => ?_
    rw [ends_pure]
    exact ⟨hmapping.tables, hmapping.progress, hmapping.mappable⟩
  · refine ⟨rfl, ?_, by simpa using h, rfl, hmappable⟩
    rw [zero_mul, add_zero, Nat.mod_eq_of_lt hfits.addr_lt]
  · rintro i hi ⟨pageCap, addr'⟩ s' ⟨hcap, haddr, hprogress, htables', hmappable'⟩
    have hx : i * pageSize4K < npage * pageSize4K := Nat.mul_lt_mul_of_pos_right hi (by decide)
    have haddr' : addr' = addr + i * pageSize4K := haddr.trans (hfits.mod_eq hx)
    have hcap' : pageCap = p + i := hcap
    subst haddr' hcap'
    have hnumber : ∀ j, (addr + j * pageSize4K) / pageSize4K = addr / pageSize4K + j :=
      fun j => Nat.add_mul_div_right _ _ (by decide)
    have htable : (s'.tables 0 (A.index 0 (addr + i * pageSize4K))).isSome := by
      rw [htables', index_page hfits.aligned]
      refine htables _ (lt_numPageTable.mpr ?_)
      exact (Nat.div_mul_le_self i A.pagePerTable).trans_lt hi
    rw [mapPage]
    refine ends_checked (ends_pageMap htable (hmappable' i hi)) ?_
    rw [ends_pure]
    refine ⟨rfl, ?_, ⟨?_, ?_⟩, htables', ?_⟩
    · simp only [Arch.wordAdd, Nat.succ_mul, Nat.add_assoc]
    · exact hprogress.within.pageMapped (by omega) (by omega) (hunmapped.pages i hi)
    · rw [List.range_succ, List.map_append, ← List.append_assoc]
      exact hprogress.logged.mapPage (p + i) (addr + i * pageSize4K) rights
    · intro j hj
      by_cases heq : j = i
      · subst heq
        rw [Mappable, Child.pageMapped_cspace, Child.setCap_self]
        exact .inr rfl
      · rw [Mappable, Child.pageMapped_cspace, Child.setCap_of_ne (by omega),
          Child.pageMapped_pages, if_neg (by rw [hnumber, hnumber]; omega)]
        exact hmappable' j hj

end Sel4bench.PageMapping
