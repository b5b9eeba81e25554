import Mathlib.Data.List.Basic
import Mathlib.Data.List.GetD
import Mathlib.Data.List.Induction
import Mathlib.Order.Nat

/-!
# Traces

A trace is a list of events that grows at its end. What is read off a trace by selecting or
counting events grows with it.

A trace can be split into segments at marked events (`Trace.segment`): segment `0` is what comes
before the first mark, and segment `k` what follows the `k`-th mark.

## Main definitions

* `Trace.segment`, `Trace.marks`.

## Main results

* `Trace.filterMap_concat`, `Trace.countP_concat`, `Trace.exists_mem_concat` — what is read off a
  trace after one more event.
* `Trace.concat_prefix_of_getLast` — a prefix that is shorter by one grows by the last value.
* `Trace.segment_concat`, `Trace.segment_concat_of_lt`, `Trace.segment_concat_mark` — the segments
  after one more event.
-/

namespace Trace

variable {α β : Type}

/-- The values of the selected events, after one more event. -/
theorem filterMap_concat (f : α → Option β) (l : List α) (x : α) :
    (l ++ [x]).filterMap f = l.filterMap f ++ (f x).toList := by
  rw [List.filterMap_append]
  cases hx : f x with
  | none => rw [List.filterMap_cons_none hx, List.filterMap_nil, Option.toList_none]
  | some y => rw [List.filterMap_cons_some hx, List.filterMap_nil, Option.toList_some]

/-- The number of the selected events, after one more event. -/
theorem countP_concat (f : α → Bool) (l : List α) (x : α) :
    (l ++ [x]).countP f = l.countP f + (f x).toNat := by
  rw [List.countP_append, List.countP_singleton]
  cases f x <;> rfl

/-- Whether there is an event of some form, after one more event. -/
theorem exists_mem_concat {ι : Type} {f : ι → α} {l : List α} {x : α} :
    (∃ i, f i ∈ l ++ [x]) ↔ (∃ i, f i ∈ l) ∨ ∃ i, x = f i := by
  simp only [List.mem_append, List.mem_singleton, exists_or, eq_comm]

/-- The last value of a list extends a prefix that is shorter by one. -/
theorem concat_prefix_of_getLast {l m : List α} {t : α} (h : m <+: l)
    (hlen : l.length = m.length + 1) (hlast : l.getLast? = some t) : m ++ [t] <+: l := by
  obtain ⟨l', rfl⟩ := List.getLast?_eq_some_iff.mp hlast
  rw [List.length_append, List.length_singleton, Nat.add_right_cancel_iff] at hlen
  have heq : m = l' :=
    (List.prefix_of_prefix_length_le h (List.prefix_append l' _)
      (Nat.le_of_eq hlen.symm)).eq_of_length hlen.symm
  subst heq
  exact List.prefix_rfl

/-! ### Segments -/

section Segments

variable (mark : α → Bool) (l : List α) {x : α} {k : ℕ}

/-- The events after mark `k` and before the next one. -/
def segment (k : ℕ) : List α := (l.splitOnP mark).getD k []

/-- The number of marks. -/
def marks : ℕ := l.countP mark

@[simp] theorem segment_nil : segment mark ([] : List α) k = [] := by
  cases k with
  | zero => rfl
  | succ k => rfl

@[simp] theorem marks_nil : marks mark ([] : List α) = 0 := rfl

theorem marks_concat : marks mark (l ++ [x]) = marks mark l + (mark x).toNat :=
  countP_concat mark l x

variable {mark}

/-- A mark opens a segment. -/
theorem splitOnP_concat_mark (hx : mark x = true) :
    (l ++ [x]).splitOnP mark = l.splitOnP mark ++ [[]] :=
  List.splitOnP_append_cons l [] hx

/-- Another event belongs to the last segment. -/
theorem splitOnP_concat (hx : mark x = false) :
    ∃ ls last, l.splitOnP mark = ls ++ [last] ∧
      (l ++ [x]).splitOnP mark = ls ++ [last ++ [x]] := by
  induction l with
  | nil => exact ⟨[], [], rfl, by simp [List.splitOnP_cons_eq_if_modifyHead, hx]⟩
  | cons y l ih =>
    obtain ⟨ls, last, hl, hlx⟩ := ih
    by_cases hy : mark y = true
    · refine ⟨[] :: ls, last, ?_, ?_⟩
      · rw [List.splitOnP_cons_eq_if_modifyHead, if_pos hy, hl, List.cons_append]
      · rw [List.cons_append, List.splitOnP_cons_eq_if_modifyHead, if_pos hy, hlx, List.cons_append]
    · cases ls with
      | nil =>
        refine ⟨[], y :: last, ?_, ?_⟩
        · rw [List.splitOnP_cons_eq_if_modifyHead, if_neg hy, hl]
          rfl
        · rw [List.cons_append, List.splitOnP_cons_eq_if_modifyHead, if_neg hy, hlx]
          rfl
      | cons first ls =>
        refine ⟨(y :: first) :: ls, last, ?_, ?_⟩
        · rw [List.splitOnP_cons_eq_if_modifyHead, if_neg hy, hl]
          rfl
        · rw [List.cons_append, List.splitOnP_cons_eq_if_modifyHead, if_neg hy, hlx]
          rfl

variable (mark)

theorem length_splitOnP : (l.splitOnP mark).length = marks mark l + 1 := by
  induction l using List.reverseRecOn with
  | nil => rfl
  | append_singleton l x ih =>
    rw [marks_concat]
    cases hx : mark x with
    | true => simp [splitOnP_concat_mark l hx, ih]
    | false =>
      obtain ⟨ls, last, hl, hlx⟩ := splitOnP_concat l hx
      rw [hl, List.length_append] at ih
      simp [hlx, ← ih]

variable {mark}

/-- The segments that have ended are kept. -/
theorem segment_concat_of_lt (hk : k < marks mark l) :
    segment mark (l ++ [x]) k = segment mark l k := by
  have hlen := length_splitOnP mark l
  cases hx : mark x with
  | true =>
    rw [segment, splitOnP_concat_mark l hx, List.getD_append _ _ _ _ (by omega), segment]
  | false =>
    obtain ⟨ls, last, hl, hlx⟩ := splitOnP_concat l hx
    rw [hl, List.length_append, List.length_singleton] at hlen
    rw [segment, segment, hlx, hl, List.getD_append _ _ _ _ (by omega),
      List.getD_append _ _ _ _ (by omega)]

/-- An event that is not a mark belongs to the last segment. -/
theorem segment_concat (hx : mark x = false) (hk : k = marks mark l) :
    segment mark (l ++ [x]) k = segment mark l k ++ [x] := by
  have hlen := length_splitOnP mark l
  obtain ⟨ls, last, hl, hlx⟩ := splitOnP_concat l hx
  rw [hl, List.length_append, List.length_singleton] at hlen
  have hk' : k = ls.length := by omega
  subst hk'
  simp [segment, hl, hlx]

/-- A mark keeps the segments and opens a new one. -/
theorem segment_concat_mark_of_le (hx : mark x = true) (hk : k ≤ marks mark l) :
    segment mark (l ++ [x]) k = segment mark l k := by
  have hlen := length_splitOnP mark l
  rw [segment, splitOnP_concat_mark l hx, List.getD_append _ _ _ _ (by omega), segment]

@[inherit_doc segment_concat_mark_of_le]
theorem segment_concat_mark (hx : mark x = true) (hk : k = marks mark l + 1) :
    segment mark (l ++ [x]) k = [] := by
  have hlen := length_splitOnP mark l
  rw [segment, splitOnP_concat_mark l hx, List.getD_append_right _ _ _ _ (by omega)]
  simp [hk, hlen]

/-- There is nothing after the last mark. -/
theorem segment_of_marks_lt (hk : marks mark l < k) : segment mark l k = [] :=
  List.getD_eq_default _ _ (by rw [length_splitOnP]; omega)

/-- A segment only grows. -/
theorem segment_isPrefix (k : ℕ) : segment mark l k <+: segment mark (l ++ [x]) k := by
  rcases Nat.lt_trichotomy k (marks mark l) with hk | hk | hk
  · exact (segment_concat_of_lt l hk).symm ▸ List.prefix_rfl
  · cases hx : mark x with
    | true => exact (segment_concat_mark_of_le l hx hk.le).symm ▸ List.prefix_rfl
    | false =>
      rw [segment_concat l hx hk]
      exact List.prefix_append _ _
  · rw [segment_of_marks_lt l hk]
    exact List.nil_prefix

/-- What is read off a segment, after an event that is not a mark. -/
theorem filterMap_segment_concat (f : α → Option β) (hx : mark x = false)
    (hk : k = marks mark l) :
    (segment mark (l ++ [x]) k).filterMap f = (segment mark l k).filterMap f ++ (f x).toList := by
  rw [segment_concat l hx hk, filterMap_concat]

/-- An event that is not selected changes nothing. -/
theorem filterMap_segment_of_none {f : α → Option β} (hf : f x = none) (k : ℕ) :
    (segment mark (l ++ [x]) k).filterMap f = (segment mark l k).filterMap f := by
  rcases Nat.lt_trichotomy k (marks mark l) with hk | hk | hk
  · rw [segment_concat_of_lt l hk]
  · cases hx : mark x with
    | true => rw [segment_concat_mark_of_le l hx hk.le]
    | false => rw [filterMap_segment_concat l f hx hk, hf, Option.toList_none, List.append_nil]
  · have hle : marks mark (l ++ [x]) ≤ k := by
      rw [marks_concat]
      cases mark x <;> simp <;> omega
    rw [segment_of_marks_lt l hk]
    rcases hle.eq_or_lt with heq | hlt
    · cases hx : mark x with
      | true =>
        rw [marks_concat, hx, Bool.toNat_true] at heq
        rw [segment_concat_mark l hx heq.symm]
      | false =>
        rw [marks_concat, hx, Bool.toNat_false] at heq
        omega
    · rw [segment_of_marks_lt _ hlt]

end Segments

end Trace
