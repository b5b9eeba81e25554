import Sel4bench.Lib.Trace
import Sel4bench.PageMapping.Child

/-!
# Slots and tables of the page mapping benchmark

Within a run of the benchmark process the untyped capability is in the first free slot, and the
slots after it are retyped one after the other (`Sel4bench.PageMapping.Within`). Revoking the
untyped capability takes everything back that the run has made, so that the next run finds the
process as this one did.

## Main definitions

* `Sel4bench.PageMapping.Within`, `Sel4bench.PageMapping.Fresh` — the process within a run and
  before it.
* `Sel4bench.PageMapping.Logged` — what the events of a run say.

## Main results

* `Sel4bench.PageMapping.ends_vkaCnodeRevoke` — revoking restores the process.
* `Sel4bench.PageMapping.Logged.append` — the events of a run after one more.
-/

namespace Sel4bench.PageMapping

open Total Trace

variable {A : Arch} {s₀ s : Child} {u k : ℕ}

/-! ### The state within a run -/

/-- The mapping of a table or page, compared to that before the run: unchanged, or made by a
capability in the first `k` slots after `u`. -/
def MappedWithin (u k : ℕ) (before now : Option Owner) : Prop :=
  now = before ∨ before = none ∧ ∃ slot, u < slot ∧ slot ≤ u + k ∧ now = some (.child slot)

/-- Within a run that started in `s₀`: the untyped capability is in slot `u`, the next `k` slots
have been retyped, and only their capabilities have been mapped. -/
structure Within (s₀ : Child) (u k : ℕ) (s : Child) : Prop where
  lt : ∀ slot < u, s.cspace slot = s₀.cspace slot
  untyped : s.cspace u = some .untyped
  used : ∀ slot, u < slot → slot ≤ u + k → (s.cspace slot).any Cap.isDerived = true
  free : ∀ slot, u + k < slot → s.cspace slot = none
  nextFree : s.cspaceNextFree = u + 1
  tables : ∀ level i, MappedWithin u k (s₀.tables level i) (s.tables level i)
  pages : ∀ i, MappedWithin u k (s₀.pages i) (s.pages i)
  runs : s.runs = s₀.runs

theorem MappedWithin.mono {before now : Option Owner} (h : MappedWithin u k before now) {k' : ℕ}
    (hk : k ≤ k') : MappedWithin u k' before now := by
  obtain h | ⟨hb, slot, h1, h2, hn⟩ := h
  · exact .inl h
  · exact .inr ⟨hb, slot, h1, by omega, hn⟩

theorem MappedWithin.new {before now : Option Owner} (h : MappedWithin u k before now)
    (hnow : now = none) {slot : ℕ} (h1 : u < slot) (h2 : slot ≤ u + k) :
    MappedWithin u k before (some (.child slot)) := by
  refine .inr ⟨?_, slot, h1, h2, rfl⟩
  obtain h | ⟨hb, -⟩ := h
  · rw [← h, hnow]
  · exact hb

@[simp]
theorem Obj.cap_isDerived (obj : Obj) : obj.cap.isDerived = true := by
  cases obj <;> rfl

/-- The events do not matter for what has been retyped and mapped. -/
theorem Within.setEvents (h : Within s₀ u k s) (events : List Event) :
    Within s₀ u k { s with events := events } :=
  ⟨h.lt, h.untyped, h.used, h.free, h.nextFree, h.tables, h.pages, h.runs⟩

theorem Child.setCap_of_ne {slot slot' : ℕ} (h : slot' ≠ slot) (cap : Cap) :
    (s.setCap slot cap).cspace slot' = s.cspace slot' :=
  Function.update_of_ne h _ _

@[simp]
theorem Child.setCap_self (slot : ℕ) (cap : Cap) : (s.setCap slot cap).cspace slot = some cap :=
  Function.update_self _ _ _

/-- A capability that is derived is put into one of the `k` slots, or into the next one. -/
theorem Within.setCap (h : Within s₀ u k s) {k' slot : ℕ} (h1 : u < slot) (h2 : slot ≤ u + k')
    (hk : k ≤ k') (hk' : u + k' ≤ u + k ∨ slot = u + k' ∧ k' = k + 1) {cap : Cap}
    (hcap : cap.isDerived = true) : Within s₀ u k' (s.setCap slot cap) where
  lt slot' hslot := by
    rw [Child.setCap_of_ne (by omega), h.lt slot' hslot]
  untyped := by
    rw [Child.setCap_of_ne (by omega), h.untyped]
  used slot' h1' h2' := by
    by_cases heq : slot' = slot
    · simp [heq, hcap]
    · rw [Child.setCap_of_ne heq]
      exact h.used slot' h1' (by omega)
  free slot' hslot := by
    rw [Child.setCap_of_ne (by omega), h.free slot' (by omega)]
  nextFree := h.nextFree
  tables level i := (h.tables level i).mono hk
  pages i := (h.pages i).mono hk
  runs := h.runs

theorem Within.retyped (h : Within s₀ u k s) (obj : Obj) :
    Within s₀ u (k + 1) (s.setCap (u + k + 1) obj.cap) :=
  h.setCap (by omega) (by omega) (by omega) (by omega) obj.cap_isDerived

theorem Within.tableMapped (h : Within s₀ u k s) {slot : ℕ} (h1 : u < slot) (h2 : slot ≤ u + k)
    {target level addr : ℕ} (hnone : s.tables target (A.index target addr) = none) :
    Within s₀ u k (s.tableMapped A target level slot addr) := by
  have hcap := h.setCap h1 h2 le_rfl (.inl le_rfl)
    (show (Cap.pageTable level true).isDerived by rfl)
  refine ⟨hcap.lt, hcap.untyped, hcap.used, hcap.free, h.nextFree, ?_, h.pages, h.runs⟩
  intro l i
  by_cases hl : l = target
  · subst hl
    by_cases hi : i = A.index l addr
    · subst hi
      simpa [Child.tableMapped] using (h.tables l _).new hnone h1 h2
    · simpa [Child.tableMapped, Function.update_of_ne hi] using h.tables l i
  · simpa [Child.tableMapped, Function.update_of_ne hl] using h.tables l i

theorem Within.pageMapped (h : Within s₀ u k s) {slot : ℕ} (h1 : u < slot) (h2 : slot ≤ u + k)
    {addr : ℕ} {rights : CapRights}
    (hpage : s₀.pages (addr / pageSize4K) = none) :
    Within s₀ u k (s.pageMapped slot addr rights) := by
  have hcap := h.setCap h1 h2 le_rfl (.inl le_rfl) (show (Cap.page (some addr)).isDerived by rfl)
  refine ⟨hcap.lt, hcap.untyped, hcap.used, hcap.free, h.nextFree, h.tables, ?_, h.runs⟩
  intro i
  by_cases hi : i = addr / pageSize4K
  · subst hi
    exact .inr ⟨hpage, slot, h1, h2, by simp [Child.pageMapped]⟩
  · simpa [Child.pageMapped, Function.update_of_ne hi] using h.pages i

/-! ### Revoking -/

variable (A) in
/-- The process before a run: the slots from `cspace_next_free` on are empty, there is nothing
that is derived from the untyped capability, and the tables that it has to map for an address are
not there. -/
structure Fresh (addr : ℕ) (s : Child) : Prop where
  free : ∀ slot, s.cspaceNextFree ≤ slot → s.cspace slot = none
  notDerived : ∀ slot, (s.cspace slot).any Cap.isDerived = false
  tables : ∀ level i slot, s.tables level i ≠ some (.child slot)
  pages : ∀ i slot, s.pages i ≠ some (.child slot)
  levelOne : 3 ≤ A.numPtLevels → s.tables 1 (A.index 1 addr) = none
  levelTwo : A.numPtLevels = 4 → A.typed = false → s.tables 2 (A.index 2 addr) = none

/-- Revoking takes back what has been mapped in the run. -/
theorem MappedWithin.filter {before now : Option Owner} (h : MappedWithin u k before now)
    (hw : Within s₀ u k s) (hbefore : ∀ slot, before ≠ some (.child slot)) :
    now.filter (fun owner => !s.isDerived owner) = before := by
  obtain rfl | ⟨rfl, slot, h1, h2, rfl⟩ := h
  · rcases now with _ | (_ | slot)
    · rfl
    · rfl
    · exact absurd rfl (hbefore slot)
  · simp [Child.isDerived, hw.used slot h1 h2]

/-- Revoking restores the process. -/
theorem ends_vkaCnodeRevoke {addr : ℕ} (hfresh : Fresh A addr s₀)
    (h : Within s₀ s₀.cspaceNextFree k s) :
    Ends vkaCnodeRevoke s fun _ s' => s' =
      { s₀ with cspaceNextFree := s₀.cspaceNextFree + 1, events := s.events } := by
  rw [vkaCnodeRevoke, ends_modify]
  have hcspace : (fun slot => (s.cspace slot).filter fun cap => !cap.isDerived) = s₀.cspace := by
    funext slot
    rcases lt_trichotomy slot s₀.cspaceNextFree with hlt | rfl | hgt
    · have hnot := hfresh.notDerived slot
      rw [h.lt slot hlt]
      cases hcap : s₀.cspace slot <;> simp_all
    · rw [h.untyped, hfresh.free _ le_rfl]
      rfl
    · rw [hfresh.free slot hgt.le]
      by_cases hk : slot ≤ s₀.cspaceNextFree + k
      · have hused := h.used slot hgt hk
        cases hcap : s.cspace slot <;> simp_all
      · rw [h.free slot (by omega)]
        rfl
  have htables : (fun level i => (s.tables level i).filter fun owner => !s.isDerived owner) =
      s₀.tables := by
    funext level i
    exact (h.tables level i).filter h (hfresh.tables level i)
  have hpages : (fun i => (s.pages i).filter fun owner => !s.isDerived owner) = s₀.pages := by
    funext i
    exact (h.pages i).filter h (hfresh.pages i)
  simp only [hcspace, htables, hpages, h.nextFree, h.runs]

/-! ### The events of a run -/

/-- The slot in which the untyped capability is received. -/
def Event.receivedSlot : Event → Option ℕ
  | .received slot => some slot
  | _ => none

/-- The slot that is retyped. -/
def Event.retypedSlot : Event → Option ℕ
  | .retype _ slot _ => some slot
  | _ => none

/-- The slot that is retyped into a page. -/
def Event.pageSlot : Event → Option ℕ
  | .retype .page slot _ => some slot
  | _ => none

/-- The address at which a table with pages is mapped. -/
def Event.leafTable : Event → Option ℕ
  | .mapTable 0 _ addr => some addr
  | _ => none

/-- The slot of the page that is mapped, the address and the rights. -/
def Event.mappedPage : Event → Option (ℕ × ℕ × CapRights)
  | .mapPage slot addr rights => some (slot, addr, rights)
  | _ => none

/-- What the events of a run say: the first `k` slots after `u` have been retyped in order and were
empty, the tables with pages are mapped at `leaves`, and the pages in the slots `pages` have been
mapped by `maps`. -/
structure Logged (u k : ℕ) (leaves pages : List ℕ) (maps : List (ℕ × ℕ × CapRights))
    (events : List Event) : Prop where
  received : events.filterMap Event.receivedSlot = [u]
  slots : events.filterMap Event.retypedSlot = (List.range k).map fun j => u + 1 + j
  empty : ∀ obj slot before, .retype obj slot before ∈ events → before = none
  leafTables : events.filterMap Event.leafTable = leaves
  pageSlots : events.filterMap Event.pageSlot = pages
  pageMaps : events.filterMap Event.mappedPage = maps

section Logged

variable {leaves pages : List ℕ} {maps : List (ℕ × ℕ × CapRights)} {events : List Event}

theorem logged_received (u : ℕ) : Logged u 0 [] [] [] [.received u] := by
  constructor <;> simp [Event.receivedSlot, Event.retypedSlot, Event.leafTable, Event.pageSlot,
    Event.mappedPage]

/-- One more event, which receives no capability. It may retype the next slot. -/
theorem Logged.append (h : Logged u k leaves pages maps events) (ev : Event) (k' : ℕ)
    (hreceived : ev.receivedSlot = none)
    (hslots : (List.range k').map (fun j => u + 1 + j) =
      (List.range k).map (fun j => u + 1 + j) ++ ev.retypedSlot.toList)
    (hempty : ∀ obj slot before, .retype obj slot before = ev → before = none) :
    Logged u k' (leaves ++ ev.leafTable.toList) (pages ++ ev.pageSlot.toList)
      (maps ++ ev.mappedPage.toList) (events ++ [ev]) where
  received := by
    rw [filterMap_concat, h.received, hreceived, Option.toList_none, List.append_nil]
  slots := by rw [filterMap_concat, h.slots, hslots]
  empty obj slot before hmem := by
    obtain hmem | hmem := List.mem_append.mp hmem
    · exact h.empty obj slot before hmem
    · exact hempty obj slot before (List.mem_singleton.mp hmem)
  leafTables := by rw [filterMap_concat, h.leafTables]
  pageSlots := by rw [filterMap_concat, h.pageSlots]
  pageMaps := by rw [filterMap_concat, h.pageMaps]

/-- The next slot is retyped and was empty. -/
theorem Logged.retype (h : Logged u k leaves pages maps events) (obj : Obj) :
    Logged u (k + 1) leaves (pages ++ (Event.retype obj (u + k + 1) none).pageSlot.toList) maps
      (events ++ [.retype obj (u + k + 1) none]) := by
  have happend := h.append (.retype obj (u + k + 1) none) (k + 1) rfl
    (by simp [Event.retypedSlot, List.range_succ, Nat.add_right_comm])
    fun _ _ _ heq => by cases heq; rfl
  simpa only [Event.leafTable, Event.mappedPage, Option.toList_none, List.append_nil]
    using happend

theorem Logged.retype_table (h : Logged u k leaves pages maps events) (level : ℕ) :
    Logged u (k + 1) leaves pages maps
      (events ++ [.retype (.pageTable level) (u + k + 1) none]) := by
  simpa only [Event.pageSlot, Option.toList_none, List.append_nil] using h.retype (.pageTable level)

theorem Logged.retype_page (h : Logged u k leaves pages maps events) :
    Logged u (k + 1) leaves (pages ++ [u + k + 1]) maps
      (events ++ [.retype .page (u + k + 1) none]) :=
  h.retype .page

/-- An event that retypes nothing. -/
theorem Logged.append_map (h : Logged u k leaves pages maps events) (ev : Event)
    (hreceived : ev.receivedSlot = none) (hretyped : ev.retypedSlot = none)
    (hpage : ev.pageSlot = none) (hev : ∀ obj slot before, .retype obj slot before ≠ ev) :
    Logged u k (leaves ++ ev.leafTable.toList) pages (maps ++ ev.mappedPage.toList)
      (events ++ [ev]) := by
  have happend := h.append ev k hreceived
    (by rw [hretyped, Option.toList_none, List.append_nil])
    fun obj slot before heq => absurd heq (hev obj slot before)
  rwa [hpage, Option.toList_none, List.append_nil] at happend

theorem Logged.mapTable_leaf (h : Logged u k leaves pages maps events) (slot addr : ℕ) :
    Logged u k (leaves ++ [addr]) pages maps (events ++ [.mapTable 0 slot addr]) := by
  simpa only [Event.leafTable, Event.mappedPage, Option.toList_some, Option.toList_none,
    List.append_nil] using h.append_map (.mapTable 0 slot addr) rfl rfl rfl nofun

theorem Logged.mapTable_upper (h : Logged u k leaves pages maps events) {level : ℕ}
    (hlevel : 0 < level) (slot addr : ℕ) :
    Logged u k leaves pages maps (events ++ [.mapTable level slot addr]) := by
  obtain ⟨level, rfl⟩ := Nat.exists_eq_succ_of_ne_zero hlevel.ne'
  simpa only [Event.leafTable, Event.mappedPage, Option.toList_none, List.append_nil]
    using h.append_map (.mapTable (level + 1) slot addr) rfl rfl rfl nofun

theorem Logged.mapPage (h : Logged u k leaves pages maps events) (slot addr : ℕ)
    (rights : CapRights) : Logged u k leaves pages (maps ++ [(slot, addr, rights)])
      (events ++ [.mapPage slot addr rights]) := by
  simpa only [Event.leafTable, Event.mappedPage, Option.toList_some, Option.toList_none,
    List.append_nil] using h.append_map (.mapPage slot addr rights) rfl rfl rfl nofun

end Logged

end Sel4bench.PageMapping
