import Sel4bench.PageMapping.Tables

/-!
# The runs of the page mapping benchmark

A run leaves the process as it was: revoking the untyped capability empties the slots, and the main
program takes back the slot of the capability itself. So all runs use the same slots.

## Main definitions

* `Sel4bench.PageMapping.Safe` — what the events of a run are.

## Main results

* `Sel4bench.PageMapping.testRuns_safe` — all runs of a sequence of tests are safe.
* `Sel4bench.PageMapping.main_safe` — those of the main program are.
-/

namespace Sel4bench.PageMapping

open Total

variable {A : Arch} {s₀ s : Child} {addr : ℕ}

/-- The pages in the slots are mapped at consecutive addresses. -/
def mapsOf (slots : List ℕ) (addr : ℕ) (rights : CapRights) : List (ℕ × ℕ × CapRights) :=
  slots.mapIdx fun i slot => (slot, addr + i * pageSize4K, rights)

variable (A) in
/-- A run for `npage` pages, with the untyped capability in slot `u`. -/
structure Safe (addr u npage : ℕ) (events : List Event) : Prop where
  /-- The process receives the untyped capability in the slot, and only once. -/
  received : events.filterMap Event.receivedSlot = [u]
  /-- The slots that are retyped are empty before. -/
  empty : ∀ obj slot before, .retype obj slot before ∈ events → before = none
  /-- They are different from each other. -/
  distinct : (u :: events.filterMap Event.retypedSlot).Nodup
  length : (events.filterMap Event.pageSlot).length = npage
  /-- The pages are mapped, protected and unprotected in the order in which they were created. -/
  maps : events.filterMap Event.mappedPage =
    mapsOf (events.filterMap Event.pageSlot) addr .allRights ++
      mapsOf (events.filterMap Event.pageSlot) addr .canRead ++
      mapsOf (events.filterMap Event.pageSlot) addr .allRights
  /-- The address of each page is covered by one of the tables that are mapped. -/
  covered : ∀ i < npage, (events.filterMap Event.leafTable).countP
    (fun table => A.index 0 table = A.index 0 (addr + i * pageSize4K)) = 1

theorem mapsOf_range (p n : ℕ) (rights : CapRights) :
    mapsOf ((List.range n).map fun j => p + j) addr rights =
      (List.range n).map fun j => (p + j, addr + j * pageSize4K, rights) := by
  refine List.ext_getElem (by simp [mapsOf]) fun i h1 h2 => ?_
  simp [mapsOf]

/-- A table that is prepared covers the page. -/
theorem countP_leaves {npage i : ℕ} (haddr : A.tableSize 0 ∣ addr) (hi : i < npage) :
    ((List.range (numPageTable A npage)).map fun j => addr + j * A.tableSize 0).countP
      (fun table => A.index 0 table = A.index 0 (addr + i * pageSize4K)) = 1 := by
  have hmem : i / A.pagePerTable ∈ List.range (numPageTable A npage) := by
    rw [List.mem_range, lt_numPageTable]
    exact (Nat.div_mul_le_self i A.pagePerTable).trans_lt hi
  rw [List.countP_map, ← List.count_eq_one_of_mem List.nodup_range hmem, List.count]
  refine List.countP_congr fun j _ => ?_
  simp [index_page haddr, index_leaf]

theorem Logged.safe {u k p npage : ℕ} {events : List Event} (haddr : A.tableSize 0 ∣ addr)
    (h : Logged u k ((List.range (numPageTable A npage)).map fun j => addr + j * A.tableSize 0)
      ((List.range npage).map fun j => p + j)
      (((List.range npage).map fun j => (p + j, addr + j * pageSize4K, CapRights.allRights)) ++
        ((List.range npage).map fun j => (p + j, addr + j * pageSize4K, CapRights.canRead)) ++
        (List.range npage).map fun j => (p + j, addr + j * pageSize4K, CapRights.allRights))
      events) : Safe A addr u npage events where
  received := h.received
  empty := h.empty
  distinct := by
    rw [h.slots, List.nodup_cons]
    refine ⟨fun hmem => ?_, List.nodup_range.map fun i j hij => ?_⟩
    · obtain ⟨j, -, hj⟩ := List.mem_map.mp hmem
      omega
    · have : u + 1 + i = u + 1 + j := hij
      omega
  length := by simp [h.pageSlots]
  maps := by rw [h.pageMaps, h.pageSlots, mapsOf_range, mapsOf_range]
  covered i hi := by
    rw [h.leafTables]
    exact countP_leaves haddr hi

theorem ends_benchProc {u npage : ℕ} (hfresh : Fresh A addr s₀) (hfits : Fits A addr npage)
    (hunmapped : Unmapped A addr npage s₀) (h : Progress s₀ u 0 [] [] [] s)
    (htables : s.tables = s₀.tables) (hpages : s.pages = s₀.pages) :
    Ends (benchProc A addr u npage) s fun _ s' =>
      (∃ k, Within s₀ u k s') ∧ Safe A addr u npage s'.events := by
  rw [benchProc]
  refine (ends_preparePageTable hfresh hfits hunmapped h htables hpages).bind ?_
  rintro _ s₁ ⟨m, rfl, h₁, hpages₁, htables₁⟩
  refine (ends_preparePages h₁ hpages₁).bind ?_
  rintro - s₂ ⟨-, h₂, htables₂, hpages₂, hcaps⟩
  have hmappable : ∀ j < npage, Mappable (u + m + 1) addr j s₂ := by
    intro j hj
    refine .inl ⟨hcaps j hj, ?_⟩
    rw [hpages₂, hunmapped.pages j hj]
  have hloop : ∀ {maps} (rights : CapRights) {t : Child}, t.tables = s₂.tables →
      Progress s₀ u (m + npage) ((List.range (numPageTable A npage)).map fun j =>
        addr + j * A.tableSize 0) ((List.range npage).map fun j => u + m + 1 + j) maps t →
      (∀ j < npage, Mappable (u + m + 1) addr j t) → _ := fun rights t ht hprogress hready =>
    ends_protUnprotNpage rights hfits hunmapped (by omega) (by omega) hprogress
      (by rwa [ht, htables₂]) hready
  refine (hloop .allRights rfl h₂ hmappable).bind ?_
  rintro - s₃ ⟨htables₃, h₃, hmappable₃⟩
  refine (hloop .canRead htables₃ h₃ hmappable₃).bind ?_
  rintro - s₄ ⟨htables₄, h₄, hmappable₄⟩
  refine (hloop .allRights (htables₄.trans htables₃) h₄ hmappable₄).mono ?_
  rintro - s₅ ⟨-, h₅, -⟩
  exact ⟨⟨_, h₅.within⟩, h₅.logged.safe hfits.aligned⟩

/-- A run of a test. The process is as before. -/
theorem ends_testRun {npage : ℕ} (hfresh : Fresh A addr s) (hfits : Fits A addr npage)
    (hunmapped : Unmapped A addr npage s) :
    Ends (testRun A addr npage) s fun _ s' => ∃ events,
      Safe A addr s.cspaceNextFree npage events ∧
      s' = { s with events := events, runs := s.runs ++ [(npage, events)] } := by
  have hnone := hfresh.free _ le_rfl
  simp only [testRun, copyPathToProcess, hnone, ne_eq, not_true_eq_false, if_false, ends_bind,
    ends_get, ends_set, ends_pure, ends_modify]
  set s₁ : Child := { s.setCap s.cspaceNextFree .untyped with
    cspaceNextFree := s.cspaceNextFree + 1, events := [.received s.cspaceNextFree] } with hs₁
  have hwithin : Within s s.cspaceNextFree 0 s₁ := by
    refine ⟨fun slot hslot => Child.setCap_of_ne hslot.ne _, Child.setCap_self _ _, ?_, ?_, rfl,
      fun _ _ => .inl rfl, fun _ => .inl rfl, rfl⟩
    · intro slot h1 h2
      omega
    · intro slot hslot
      exact (Child.setCap_of_ne (by omega) _).trans (hfresh.free slot (by omega))
  have hprogress : Progress s s.cspaceNextFree 0 [] [] [] s₁ := ⟨hwithin, logged_received _⟩
  refine (ends_benchProc hfresh hfits hunmapped hprogress rfl rfl).mono ?_
  rintro - s₂ ⟨⟨k, hwithin₂⟩, hsafe⟩
  refine (ends_vkaCnodeRevoke hfresh hwithin₂).mono ?_
  rintro - s₃ rfl
  exact ⟨s₂.events, hsafe, rfl⟩

/-- A sequence of runs, which starts and ends with the same process. -/
theorem ends_testRuns (hfresh : Fresh A addr s) (npages : List ℕ)
    (hfits : ∀ npage ∈ npages, Fits A addr npage ∧ Unmapped A addr npage s) :
    Ends (npages.forM (testRun A addr)) s fun _ s' => ∃ events runs,
      s' = { s with events := events, runs := s.runs ++ runs } ∧ runs.map Prod.fst = npages ∧
      ∀ run ∈ runs, Safe A addr s.cspaceNextFree run.1 run.2 := by
  refine Ends.forM (fun done s' => ∃ events runs,
    s' = { s with events := events, runs := s.runs ++ runs } ∧ runs.map Prod.fst = done ∧
      ∀ run ∈ runs, Safe A addr s.cspaceNextFree run.1 run.2) ?_ ?_
  · exact ⟨s.events, [], by simp, rfl, by simp⟩
  · rintro done npage todo hsplit _ ⟨events, runs, rfl, hdone, hsafe⟩
    obtain ⟨hfit, hunmapped⟩ := hfits npage (hsplit ▸ by simp)
    set s' : Child := { s with events := events, runs := s.runs ++ runs }
    have hfresh' : Fresh A addr s' := ⟨hfresh.free, hfresh.notDerived, hfresh.tables,
      hfresh.pages, hfresh.levelOne, hfresh.levelTwo⟩
    have hunmapped' : Unmapped A addr npage s' := ⟨hunmapped.tables, hunmapped.pages⟩
    refine (ends_testRun hfresh' hfit hunmapped').mono ?_
    rintro - s'' ⟨events', hrun, rfl⟩
    refine ⟨events', runs ++ [(npage, events')], by simp [s'], by simp [hdone], ?_⟩
    intro run hmem
    rcases List.mem_append.mp hmem with hmem | hmem
    · exact hsafe run hmem
    · rw [List.mem_singleton.mp hmem]
      exact hrun

/-- **Slots never collide and pages are mapped into prepared tables.** For every sequence of page
counts that fit at the address, the runs end without a failing assertion. In each run the untyped
capability is received in the same slot, the slots that are retyped are empty and different, the
loops that map, protect and unprotect go through the pages in the order in which they were created,
at consecutive addresses, and one table that was prepared covers each of these. -/
theorem testRuns_safe (A : Arch) (addr : ℕ) (s₀ : Child) (hfresh : Fresh A addr s₀)
    (hruns : s₀.runs = []) (npages : List ℕ)
    (hfits : ∀ npage ∈ npages, Fits A addr npage ∧ Unmapped A addr npage s₀) :
    ∃ s, npages.forM (testRun A addr) s₀ = some ((), s) ∧ s.runs.map Prod.fst = npages ∧
      ∀ run ∈ s.runs, Safe A addr s₀.cspaceNextFree run.1 run.2 := by
  have hends : Ends (npages.forM (testRun A addr)) s₀ fun _ s => s.runs.map Prod.fst = npages ∧
      ∀ run ∈ s.runs, Safe A addr s₀.cspaceNextFree run.1 run.2 := by
    refine (ends_testRuns hfresh npages hfits).mono ?_
    rintro - s ⟨events, runs, rfl, hmap, hsafe⟩
    refine ⟨hmap ▸ ?_, fun run hmem => hsafe run ?_⟩
    · simp [hruns]
    · simpa [hruns] using hmem
  exact hends.exists_run

/-- A process with ten slots in use and no tables, on x86-64. -/
def exampleArch : Arch where
  numPtLevels := 4
  pagePerTable := 512
  wordBits := 64
  typed := true
  two_le_numPtLevels := by decide
  numPtLevels_le_four := by decide
  pagePerTable_pos := by decide
  levelOne_dvd _ := by decide

/-- The process. -/
def exampleChild : Child where
  cspace slot := if slot < 10 then some .other else none
  cspaceNextFree := 10
  tables _ _ := none
  pages _ := none

theorem exampleChild_fresh (addr : ℕ) : Fresh exampleArch addr exampleChild where
  free slot hslot := if_neg (Nat.not_lt.mpr hslot)
  notDerived slot := by
    by_cases h : slot < 10
    · simp [exampleChild, h, Cap.isDerived]
    · simp [exampleChild, h]
  tables _ _ _ := by simp [exampleChild]
  pages _ _ := by simp [exampleChild]
  levelOne _ := rfl
  levelTwo _ _ := rfl

theorem testRuns_safe_example :
    ∃ s, [1, 512, 2048].forM (testRun exampleArch 0x60000000) exampleChild = some ((), s) ∧
      s.runs.map Prod.fst = [1, 512, 2048] ∧
      ∀ run ∈ s.runs, Safe exampleArch 0x60000000 10 run.1 run.2 := by
  refine testRuns_safe exampleArch 0x60000000 exampleChild (exampleChild_fresh _) rfl _ ?_
  intro npage hmem
  have hle : npage ≤ 2048 := by
    simp only [List.mem_cons, List.not_mem_nil, or_false] at hmem
    omega
  refine ⟨⟨by decide, by decide, ?_⟩, ⟨fun _ _ => rfl, fun _ _ => rfl⟩⟩
  have hend : 0x60000000 + 2048 * pageSize4K ≤ levelOneEnd exampleArch 0x60000000 := by decide
  exact (Nat.add_le_add_left (Nat.mul_le_mul_right _ hle) _).trans hend

theorem mainLoop_eq (runs : ℕ) (params : List ℕ) :
    mainLoop A addr runs params =
      (List.replicate runs params).flatten.forM (testRun A addr) := by
  induction runs with
  | zero => simp [mainLoop]
  | succ runs ih =>
    rw [mainLoop, forM_range_succ, ← mainLoop, ih, List.replicate_succ', List.flatten_append]
    simp

/-- Copying another capability into the process. -/
theorem ends_copyPathToProcess_other (hfresh : Fresh A addr s) :
    Ends (copyPathToProcess .other) s fun _ s' => Fresh A addr s' ∧
      s'.cspaceNextFree = s.cspaceNextFree + 1 ∧ s'.tables = s.tables ∧ s'.pages = s.pages ∧
      s'.runs = s.runs := by
  have hnone := hfresh.free _ le_rfl
  simp only [copyPathToProcess, hnone, ne_eq, not_true_eq_false, if_false, ends_bind, ends_get,
    ends_set, ends_pure]
  refine ⟨⟨fun slot hslot => ?_, fun slot => ?_, hfresh.tables, hfresh.pages, hfresh.levelOne,
    hfresh.levelTwo⟩, trivial, rfl, rfl, rfl⟩
  · have hlt : s.cspaceNextFree < slot := hslot
    exact (Child.setCap_of_ne hlt.ne' _).trans (hfresh.free slot hlt.le)
  · by_cases heq : slot = s.cspaceNextFree
    · subst heq
      simp [Cap.isDerived]
    · exact (congrArg (Option.any Cap.isDerived) (Child.setCap_of_ne heq _)).trans
        (hfresh.notDerived slot)

/-- All runs of the main program are safe, in the slots after that of the endpoint. -/
theorem main_safe (hfresh : Fresh A addr s) (hruns : s.runs = []) (runs : ℕ) (params : List ℕ)
    (hfits : ∀ npage ∈ params, Fits A addr npage ∧ Unmapped A addr npage s) :
    Ends (main A addr runs params) s fun _ s' =>
      s'.runs.map Prod.fst = (List.replicate runs params).flatten ∧
      ∀ run ∈ s'.runs, Safe A addr (s.cspaceNextFree + 1) run.1 run.2 := by
  rw [main]
  refine (ends_copyPathToProcess_other hfresh).bind ?_
  rintro - s₁ ⟨hfresh₁, hnext, htables, hpages, hruns₁⟩
  rw [mainLoop_eq]
  refine (ends_testRuns hfresh₁ _ fun npage hmem => ?_).mono ?_
  · obtain ⟨l, hl, hmem⟩ := List.mem_flatten.mp hmem
    obtain ⟨hfit, hunmapped⟩ := hfits npage (List.eq_of_mem_replicate hl ▸ hmem)
    refine ⟨hfit, fun i hi => ?_, fun i hi => ?_⟩
    · rw [htables, hunmapped.tables i hi]
    · rw [hpages, hunmapped.pages i hi]
  · rintro - s₂ ⟨events, rs, rfl, hmap, hsafe⟩
    rw [← hnext]
    refine ⟨hmap ▸ ?_, fun run hmem => hsafe run ?_⟩
    · simp [hruns₁, hruns]
    · simpa [hruns₁, hruns] using hmem

end Sel4bench.PageMapping
