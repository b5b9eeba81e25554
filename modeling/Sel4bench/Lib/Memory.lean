import Sel4bench.Lib.History
import Sel4bench.Lib.Protocol

/-!
# Variables with one writer

The value of a variable that only one party writes is the last one that this party has stored, or
the initial one. So the memory is a function of the histories, and a party knows the values of its
own variables.

## Main definitions

* `Machine.lastStore`, `Machine.stored`.

## Main results

* `Machine.Protocol.Records.mem_next`, `Machine.Protocol.Records.mem_next_store` — the memory after
  an event.
-/

namespace Machine

variable {σ : Sig}

/-- The value that was last stored in `x`. -/
def lastStore (x : σ.Var) (h : List (Event σ)) : Option (σ.Val x) :=
  (h.filterMap (storeOf x)).getLast?

/-- The value of `x` after the history, from the memory `mem`. -/
def stored (mem : ∀ x, σ.Val x) (x : σ.Var) (h : List (Event σ)) : σ.Val x :=
  (lastStore x h).getD (mem x)

@[simp] theorem lastStore_nil (x : σ.Var) : lastStore x ([] : List (Event σ)) = none := rfl

theorem lastStore_append_of_some {x : σ.Var} {ev : Event σ} {v : σ.Val x}
    (hev : storeOf x ev = some v) (h : List (Event σ)) : lastStore x (h ++ [ev]) = some v := by
  simp [lastStore, hev]

@[simp] theorem lastStore_append_store_self (x : σ.Var) (v : σ.Val x) (h : List (Event σ))
    (a : Unit) : lastStore x (h ++ [.did (.store x v) a]) = some v :=
  lastStore_append_of_some (by simp [storeOf]) h

theorem lastStore_append {x : σ.Var} {ev : Event σ} (hev : storeOf x ev = none)
    (h : List (Event σ)) : lastStore x (h ++ [ev]) = lastStore x h := by
  simp [lastStore, hev]

theorem storeOf_store_of_ne {x y : σ.Var} (hxy : y ≠ x) (v : σ.Val y) (a : Unit) :
    storeOf x (.did (.store y v) a) = none :=
  dif_neg hxy

theorem lastStore_append_store_of_ne {x y : σ.Var} (hxy : y ≠ x) (v : σ.Val y)
    (h : List (Event σ)) (a : Unit) :
    lastStore x (h ++ [.did (.store y v) a]) = lastStore x h :=
  lastStore_append (storeOf_store_of_ne hxy v a) h

namespace Protocol.Records

variable {G : Type} {pr : Protocol σ G} {hist : G → List (Event σ)} {g : σ.Party → G}
  {p q : σ.Party} {mem₀ mem : ∀ x, σ.Val x} {y : σ.Var}

/-- The memory after an event that stores nothing in it. Here `q` is the writer of `y`. -/
theorem mem_next (hf : pr.Records hist) {ev : Event σ} (h : mem y = stored mem₀ y (hist (g q)))
    (hev : storeOf y ev = none) : mem y = stored mem₀ y (hist (pr.next g p ev q)) := by
  rw [h]
  by_cases hq : q = p
  · subst hq
    rw [hf.next_self, stored, stored, lastStore_append hev]
  · rw [next_of_ne _ _ hq]

/-- The memory after the writer of `x` has stored a value in it. -/
theorem mem_next_store (hf : pr.Records hist) {x : σ.Var} (v : σ.Val x)
    (h : mem y = stored mem₀ y (hist (g q))) (hx : y = x → q = p) :
    Function.update mem x v y = stored mem₀ y (hist (pr.next g p (.did (.store x v) ()) q)) := by
  by_cases hxy : y = x
  · subst hxy
    rw [Function.update_self, hx rfl, hf.next_self, stored, lastStore_append_store_self,
      Option.getD_some]
  · rw [Function.update_of_ne hxy]
    exact hf.mem_next h (storeOf_store_of_ne (Ne.symm hxy) v ())

end Protocol.Records

end Machine
