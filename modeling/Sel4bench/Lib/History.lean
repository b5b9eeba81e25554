import Sel4bench.Lib.Machine
import Sel4bench.Lib.Trace

/-!
# What a history records

The clock readings, loads and stores of a party are read off its history by selecting events.

## Main definitions

* `Machine.clockOf`, `Machine.clocks` — the times that were read.
* `Machine.loadOf`, `Machine.storeOf` — the values that are read from a variable and written to it.
-/

namespace Machine

variable {σ : Sig}

/-- The time that is read in the event. -/
def clockOf : Event σ → Option σ.Time
  | .did .clock t => some t
  | _ => none

/-- The times that were read. -/
def clocks (h : List (Event σ)) : List σ.Time := h.filterMap clockOf

theorem clocks_append (h : List (Event σ)) (ev : Event σ) :
    clocks (h ++ [ev]) = clocks h ++ (clockOf ev).toList :=
  Trace.filterMap_concat clockOf h ev

theorem clocks_append_of_none (h : List (Event σ)) {ev : Event σ} (hev : clockOf ev = none) :
    clocks (h ++ [ev]) = clocks h := by
  rw [clocks_append, hev, Option.toList_none, List.append_nil]

/-- The value of `x` that is read in the event. -/
def loadOf (x : σ.Var) : Event σ → Option (σ.Val x)
  | .did (.load y) v => if h : y = x then some (h ▸ v) else none
  | _ => none

@[simp] theorem loadOf_load_self (x : σ.Var) (v : σ.Val x) :
    loadOf x (.did (.load x) v) = some v :=
  dif_pos rfl

/-- The value that the event stores in `x`. -/
def storeOf (x : σ.Var) : Event σ → Option (σ.Val x)
  | .did (.store y v) _ => if h : y = x then some (h ▸ v) else none
  | _ => none

end Machine
