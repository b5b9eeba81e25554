import Mathlib.Data.BitVec
import Mathlib.Data.List.Basic
import Sel4bench.Lib.Total

/-!
# The child process of the page mapping benchmark

The child process retypes an untyped capability into page tables and pages, in consecutive slots of
its cspace, and maps them into its address space. Between two tests the main program revokes the
untyped capability and copies it into the process again. The process sends its last result after
its last use of a slot, and the main program revokes when it has received that result, so that the
steps of a test are in one order.

The model has the slots of the cspace of the process, the tables and pages that are mapped in its
address space, and the calls of the kernel with their errors. Tables are counted from the bottom:
level zero are the tables with the pages. On x86-64 a call that maps a table says the level of the
table, elsewhere the kernel maps it below the tables that are there.

## Main definitions

* `Sel4bench.PageMapping.Arch`, `Sel4bench.PageMapping.Child`.
* `Sel4bench.PageMapping.preparePageTable`, `Sel4bench.PageMapping.preparePages`,
  `Sel4bench.PageMapping.mapPages`, `Sel4bench.PageMapping.protUnprotNpage`.
* `Sel4bench.PageMapping.benchProc`, `Sel4bench.PageMapping.testRun`.
-/

namespace Sel4bench.PageMapping

open Total

/-- What the benchmark uses of the architecture. -/
structure Arch where
  /-- `NUM_PT_LEVELS`. -/
  numPtLevels : ℕ
  /-- `PAGE_PER_TABLE`. -/
  pagePerTable : ℕ
  /-- `seL4_WordBits`. -/
  wordBits : ℕ
  /-- A call that maps a table says its level. -/
  typed : Bool
  two_le_numPtLevels : 2 ≤ numPtLevels
  numPtLevels_le_four : numPtLevels ≤ 4
  pagePerTable_pos : 0 < pagePerTable
  /-- With three or more levels the address space consists of whole level-one tables. -/
  levelOne_dvd : 3 ≤ numPtLevels → 4096 * pagePerTable ^ 2 ∣ 2 ^ wordBits

/-- `PAGE_SIZE_4K`. -/
def pageSize4K : ℕ := 4096

variable (A : Arch)

/-- The bytes that a table covers. -/
def Arch.tableSize (level : ℕ) : ℕ := pageSize4K * A.pagePerTable ^ (level + 1)

/-- The table of a level that covers an address. -/
def Arch.index (level addr : ℕ) : ℕ := addr / A.tableSize level

/-- The sum of words. -/
def Arch.wordAdd (a b : ℕ) : ℕ := (a + b) % 2 ^ A.wordBits

/-- The kernel objects that the process retypes. -/
inductive Obj
  | pageTable (level : ℕ)
  | page
deriving DecidableEq

/-- The capabilities in the cspace of the process: those that are derived from the untyped
capability of the benchmark, and the others. -/
inductive Cap
  | untyped
  | pageTable (level : ℕ) (mapped : Bool)
  | page (vaddr : Option ℕ)
  | other
deriving DecidableEq

/-- The capability is derived from the untyped capability of the main program. -/
def Cap.isDerived : Cap → Bool
  | .other => false
  | _ => true

/-- The capability to a new object. -/
def Obj.cap : Obj → Cap
  | .pageTable level => .pageTable level false
  | .page => .page none

/-- Whose capability a mapping belongs to. -/
inductive Owner
  | parent
  | child (slot : ℕ)
deriving DecidableEq

/-- `seL4_CapRights_t`. -/
inductive CapRights
  | allRights
  | canRead
deriving DecidableEq

/-- `seL4_Error`. -/
inductive Error
  | noError
  | invalidCapability
  | invalidArgument
  | failedLookup
  | deleteFirst
deriving DecidableEq

/-- What happens in a run: the process receives the untyped capability, retypes it into a slot
that had some contents before, maps a table or maps a page. -/
inductive Event
  | received (slot : ℕ)
  | retype (obj : Obj) (slot : ℕ) (before : Option Cap)
  | mapTable (level slot addr : ℕ)
  | mapPage (slot addr : ℕ) (rights : CapRights)
deriving DecidableEq

/-- The state of the process. -/
structure Child where
  cspace : ℕ → Option Cap
  /-- `cspace_next_free`. -/
  cspaceNextFree : ℕ
  /-- The tables that are mapped, by level and index. -/
  tables : ℕ → ℕ → Option Owner
  /-- The pages that are mapped, by number. -/
  pages : ℕ → Option Owner
  /-- The events of the current run. -/
  events : List Event := []
  /-- The page counts and events of the runs that are over. -/
  runs : List (ℕ × List Event) := []

/-- Code that works on the process. It fails with an assertion. -/
abbrev ChildM := StateT Child Option

/-! ### The kernel -/

/-- Putting a capability into a slot. -/
def Child.setCap (s : Child) (slot : ℕ) (cap : Cap) : Child :=
  { s with cspace := Function.update s.cspace slot (some cap) }

/-- `untyped_retype_root`: a slot that is full is an error. -/
def untypedRetypeRoot (untyped : ℕ) (obj : Obj) (slot : ℕ) : ChildM Error := do
  modify fun s => { s with events := s.events ++ [.retype obj slot (s.cspace slot)] }
  let s ← get
  if s.cspace untyped ≠ some .untyped then return .invalidCapability
  if s.cspace slot ≠ none then return .deleteFirst
  set (s.setCap slot obj.cap)
  return .noError

/-- The highest level from `level` on that has no table. -/
def firstMissing (present : ℕ → Bool) : ℕ → Option ℕ
  | 0 => if present 0 then none else some 0
  | level + 1 => if present (level + 1) then firstMissing present level else some (level + 1)

/-- The level at which the kernel maps a table. -/
def targetLevel (s : Child) (level addr : ℕ) : Option ℕ :=
  if A.typed then some level
  else firstMissing (fun l => (s.tables l (A.index l addr)).isSome) (A.numPtLevels - 2)

/-- The table above is mapped. The topmost table always is. -/
def Child.hasParent (s : Child) (level addr : ℕ) : Prop :=
  level + 2 = A.numPtLevels ∨ (s.tables (level + 1) (A.index (level + 1) addr)).isSome

instance (s : Child) (level addr : ℕ) : Decidable (s.hasParent A level addr) :=
  inferInstanceAs (Decidable (_ ∨ _))

/-- Mapping a table. -/
def Child.tableMapped (s : Child) (target level slot addr : ℕ) : Child :=
  { s.setCap slot (.pageTable level true) with
    tables := Function.update s.tables target
      (Function.update (s.tables target) (A.index target addr) (some (.child slot)))
    events := s.events ++ [.mapTable target slot addr] }

/-- `PT_L2_Map`, `PT_L1_Map` and `seL4_ARCH_PageTable_Map` for tables of their levels. -/
def tableMap (level slot addr : ℕ) : ChildM Error := do
  let s ← get
  if s.cspace slot ≠ some (.pageTable level false) then return .invalidCapability
  match targetLevel A s level addr with
  | none => return .deleteFirst
  | some target =>
    if ¬s.hasParent A target addr then return .failedLookup
    if (s.tables target (A.index target addr)).isSome then return .deleteFirst
    set (s.tableMapped A target level slot addr)
    return .noError

/-- Mapping a page. -/
def Child.pageMapped (s : Child) (slot addr : ℕ) (rights : CapRights) : Child :=
  { s.setCap slot (.page (some addr)) with
    pages := Function.update s.pages (addr / pageSize4K) (some (.child slot))
    events := s.events ++ [.mapPage slot addr rights] }

/-- `seL4_ARCH_Page_Map`: a page that is mapped can be mapped again at its address, with other
rights. -/
def pageMap (slot addr : ℕ) (rights : CapRights) : ChildM Error := do
  let s ← get
  if (s.tables 0 (A.index 0 addr)).isNone then return .failedLookup
  if s.cspace slot = some (.page none) then
    if (s.pages (addr / pageSize4K)).isSome then return .deleteFirst
    set (s.pageMapped slot addr rights)
    return .noError
  if s.cspace slot ≠ some (.page (some addr)) then return .invalidArgument
  set (s.pageMapped slot addr rights)
  return .noError

/-- `sel4utils_copy_path_to_process`: the slot that the capability is copied to. -/
def copyPathToProcess (cap : Cap) : ChildM ℕ := do
  let s ← get
  if s.cspace s.cspaceNextFree ≠ none then return 0
  set { s.setCap s.cspaceNextFree cap with cspaceNextFree := s.cspaceNextFree + 1 }
  return s.cspaceNextFree

/-- The mapping belongs to a capability that is derived from the untyped capability. -/
def Child.isDerived (s : Child) : Owner → Bool
  | .parent => false
  | .child slot => (s.cspace slot).any Cap.isDerived

/-- `vka_cnode_revoke` of the untyped capability: what is derived from it is deleted, and what
it maps is unmapped. -/
def vkaCnodeRevoke : ChildM Unit := modify fun s =>
  { s with
    cspace := fun slot => (s.cspace slot).filter fun cap => !cap.isDerived
    tables := fun level i => (s.tables level i).filter fun owner => !s.isDerived owner
    pages := fun i => (s.pages i).filter fun owner => !s.isDerived owner }

/-! ### The process -/

/-- `NUM_PAGE_TABLE`. -/
def numPageTable (npage : ℕ) : ℕ := (npage + A.pagePerTable - 1) / A.pagePerTable

/-- `prepare_page_table`, the table of level two. -/
def prepareLevelTwo (addr untyped ptCslot : ℕ) : ChildM ℕ := do
  if A.numPtLevels = 4 then
    let err ← untypedRetypeRoot untyped (.pageTable 2) ptCslot
    cAssert (err = .noError)
    let err ← tableMap A 2 ptCslot addr
    cAssert (err = .noError ∨ err = .deleteFirst)
    return ptCslot + 1
  else return ptCslot

/-- `prepare_page_table`, the table of level one. -/
def prepareLevelOne (addr untyped ptCslot : ℕ) : ChildM ℕ := do
  if 3 ≤ A.numPtLevels then
    let err ← untypedRetypeRoot untyped (.pageTable 1) ptCslot
    cAssert (err = .noError)
    let err ← tableMap A 1 ptCslot addr
    cAssert (err = .noError)
    return ptCslot + 1
  else return ptCslot

/-- An iteration of the loop of `prepare_page_table`. -/
def prepareLeaf (untyped : ℕ) (ptAddr : ℕ × ℕ) : ChildM (ℕ × ℕ) := do
  let (ptCslot, addr) := ptAddr
  let err ← untypedRetypeRoot untyped (.pageTable 0) ptCslot
  cAssert (err = .noError)
  let err ← tableMap A 0 ptCslot addr
  cAssert (err = .noError)
  return (ptCslot + 1, A.wordAdd addr (pageSize4K * A.pagePerTable))

/-- `prepare_page_table`: the value of `*free_slot` in the end. -/
def preparePageTable (addr npage untyped freeSlot : ℕ) : ChildM ℕ := do
  let ptCslot ← prepareLevelTwo A addr untyped freeSlot
  let ptCslot ← prepareLevelOne A addr untyped ptCslot
  let (ptCslot, _) ← (List.range (numPageTable A npage)).foldlM
    (fun ptAddr _ => prepareLeaf A untyped ptAddr) (ptCslot, addr)
  return ptCslot

/-- An iteration of `prepare_pages`. -/
def preparePage (untyped freeSlot : ℕ) : ChildM ℕ := do
  let err ← untypedRetypeRoot untyped .page freeSlot
  cAssert (err = .noError)
  return freeSlot + 1

/-- `prepare_pages`: the value of `*free_slot` in the end. -/
def preparePages (npage untyped freeSlot : ℕ) : ChildM ℕ :=
  (List.range npage).foldlM (fun freeSlot _ => preparePage untyped freeSlot) freeSlot

/-- An iteration of a loop that maps pages. -/
def mapPage (rights : CapRights) (capAddr : ℕ × ℕ) : ChildM (ℕ × ℕ) := do
  let (pageCap, addr) := capAddr
  let err ← pageMap A pageCap addr rights
  cAssert (err = .noError)
  return (pageCap + 1, A.wordAdd addr pageSize4K)

/-- `PROT_UNPROT_NPAGE`, and the body of `map_pages`. -/
def protUnprotNpage (right : CapRights) (addr pageCap npage : ℕ) : ChildM Unit := do
  let _ ← (List.range npage).foldlM (fun capAddr _ => mapPage A right capAddr) (pageCap, addr)

/-- `map_pages`. -/
def mapPages (addr pageCap npage : ℕ) : ChildM Unit :=
  protUnprotNpage A .allRights addr pageCap npage

/-- `prot_pages`. -/
def protPages (addr pageCap npage : ℕ) : ChildM Unit :=
  protUnprotNpage A .canRead addr pageCap npage

/-- `unprot_pages`. -/
def unprotPages (addr pageCap npage : ℕ) : ChildM Unit :=
  protUnprotNpage A .allRights addr pageCap npage

/-- `bench_proc`, the operations that it measures. The address is `START_ADDR`. -/
def benchProc (addr untyped npage : ℕ) : ChildM Unit := do
  let freeSlot := untyped + 1
  let freeSlot ← preparePageTable A addr npage untyped freeSlot
  let pagePtrStart := freeSlot
  let _ ← preparePages npage untyped freeSlot
  mapPages A addr pagePtrStart npage
  protPages A addr pagePtrStart npage
  unprotPages A addr pagePtrStart npage

/-! ### The main program -/

/-- The body of the loops of `main`. -/
def testRun (addr npage : ℕ) : ChildM Unit := do
  let untyped ← copyPathToProcess .untyped
  modify fun s => { s with events := [.received untyped] }
  benchProc A addr untyped npage
  vkaCnodeRevoke
  modify fun s => { s with
    cspaceNextFree := s.cspaceNextFree - 1
    runs := s.runs ++ [(npage, s.events)] }

/-- The loops of `main`, for the page counts of `page_mapping_benchmark_params`. -/
def mainLoop (addr runs : ℕ) (params : List ℕ) : ChildM Unit :=
  (List.range runs).forM fun _ => params.forM (testRun A addr)

/-- What `main` does with the process: it copies the endpoint for results, and runs the tests. -/
def main (addr runs : ℕ) (params : List ℕ) : ChildM Unit := do
  let _ ← copyPathToProcess .other
  mainLoop A addr runs params

end Sel4bench.PageMapping
