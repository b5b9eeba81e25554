import Sel4bench.Vcpu.Stamps
import Mathlib.Logic.Relation

/-!
# The main loop of the monitor

The monitor of the VCPU benchmark serves any number of guests over one endpoint. It receives a
message, saves the reply capability of the sender in a slot, handles a hypercall or a fault, and
replies; when a guest exits, the monitor kills it, clears the slot and does not reply. Between any
two of these steps the guests go on, and a guest may make any hypercall and may fault.

After the reply to a fault it is up to the kernel whether the guest is resumed.

## Main definitions

* `Sel4bench.Vcpu.Message`, `Sel4bench.Vcpu.Exchange`, `Sel4bench.Vcpu.Control`.
* `Sel4bench.Vcpu.Monitor`, `Sel4bench.Vcpu.Monitor.init`, `Sel4bench.Vcpu.Monitor.Step`.
-/

namespace Sel4bench.Vcpu

/-! ### Messages -/

/-- `VCPU_BENCH_MSG_IS_FAULT_BIT`. -/
def faultBit : Word := 32

/-- `VCPU_BENCH_MAX_N_GUESTS`. -/
def maxNGuests : ℕ := 31

/-- The badge of `badged_fault_ep_ipc_copy`. -/
def ipcBadge (id : ℕ) : Word := BitVec.ofNat 64 id

/-- The badge of `badged_fault_ep`. -/
def faultBadge (id : ℕ) : Word := faultBit ||| BitVec.ofNat 64 id

/-- The guest of a badge. -/
def guestId (badge : Word) : ℕ := (badge &&& ~~~faultBit).toNat

/-- The values of `enum hypcalls`. Other labels are handled as `HYPCALL_SYS_NOOP`, for which there
is no case either. -/
def Hypcall.ofLabel (label : Word) : Hypcall :=
  match label.toNat with
  | 16 => .putc
  | 17 => .puts
  | 18 => .getSel4CallEndStamp
  | 19 => .getSel4ReplyStartStamp
  | 20 => .bmReportEndResults
  | 21 => .bmReportDeepResults
  | 22 => .el1Fault
  | 23 => .exitThread
  | _ => .noop

/-- A message on `all_guests_fault_ep`: a hypercall, or the fault message that the kernel sends for
a guest. -/
structure Message where
  badge : Word
  label : Word
  length : ℕ
  mr : ℕ → Word

/-- The badge has the fault bit. -/
def Message.IsFault (m : Message) : Prop := m.badge &&& faultBit ≠ 0

instance (m : Message) : Decidable m.IsFault := by
  unfold Message.IsFault
  infer_instance

/-- The guest exits. -/
def Message.IsExit (m : Message) : Prop := ¬m.IsFault ∧ Hypcall.ofLabel m.label = .exitThread

instance (m : Message) : Decidable m.IsExit := by
  unfold Message.IsExit
  infer_instance

/-- How far a guest is in its exchange with the monitor. A guest whose message has been received is
blocked until it gets a reply. -/
inductive Exchange
  | running
  | calling (m : Message)
  | received (m : Message)
  | handled (m : Message)
  /-- The kernel has not resumed the guest after a fault. -/
  | stopped
  | exited

/-- What happens in the exchange of a guest. The monitor handles a message with its own message
registers, after a number of readings of the cycle counter, and replies with a label and a number of
registers. -/
inductive Incident
  | sent (m : Message)
  | handled (m : Message) (mr : ℕ → Word) (reads : ℕ)
  | replied (label : Word) (length : ℕ) (mr : ℕ → Word)

/-! ### The monitor -/

/-- Where the monitor is in its main loop. -/
inductive Control
  | recv
  /-- Before `seL4_CNode_SaveCaller`. -/
  | save (m : Message)
  | handle (m : Message)
  /-- Before `seL4_CNode_Delete`. -/
  | delete
  | send (label : Word) (length : ℕ)
  /-- `benchmark_finished`. -/
  | finished (status : BitVec 32)
  /-- `main` has returned an error. -/
  | returned
  /-- An assertion has failed, or an access is outside of its array. -/
  | aborted
  /-- A message was sent to an empty slot. -/
  | capFault

/-- The monitor and its guests. -/
structure Monitor where
  exchange : ℕ → Exchange
  control : Control
  /-- The guest whose reply capability is in the TCB of the monitor. -/
  caller : Option ℕ
  /-- The guest whose reply capability is in `reply_cap_cspath`. -/
  replySlot : Option ℕ
  nGuestsExited : ℕ
  /-- The field `exitstatus` of `guests`. -/
  exitstatus : ℕ → BitVec 32
  /-- The message registers of the monitor, the results block and the cycle counter. -/
  world : World
  /-- What has happened, with the guest. -/
  log : List (ℕ × Incident)

namespace Monitor

variable (P : Platform) (n : ℕ)

/-- The state at the head of the loop, after the guests have been started, or after the check of
`VCPU_BENCH_N_GUESTS`. -/
def init (world : World) : Monitor where
  exchange _ := .running
  control := if maxNGuests < n then .returned else .recv
  caller := none
  replySlot := none
  nGuestsExited := 0
  exitstatus _ := 0
  world := world
  log := []

/-- A guest sends a message. -/
def deliver (s : Monitor) (g : ℕ) (m : Message) : Monitor :=
  { s with
    exchange := Function.update s.exchange g (.calling m)
    log := s.log ++ [(g, .sent m)] }

/-- `seL4_Recv`: the message registers of the sender become those of the monitor. The others have
any values. -/
def receive (s : Monitor) (g : ℕ) (m : Message) (others : ℕ → Word) : Monitor :=
  { s with
    exchange := Function.update s.exchange g (.received m)
    control := .save m
    caller := some g
    world := { s.world with vmmMr := transfer m.length m.mr others } }

/-- The message has been handled. -/
def note (s : Monitor) (m : Message) : Monitor :=
  { s with
    exchange := Function.update s.exchange (guestId m.badge) (.handled m)
    log := s.log ++ [(guestId m.badge, .handled m s.world.vmmMr s.world.ccntReads)] }

/-- `vmm_handle_hypcall` for the guest `guests[badge]`: the length of the reply, with the world and
the exit status of this guest. -/
def hypcall (s : Monitor) (m : Message) : Option (ℕ × World) :=
  if m.badge = 0 then none
  else vmmHandleHypcall P (Hypcall.ofLabel m.label)
    { s.world with exitStatus := some (s.exitstatus m.badge.toNat) }

/-- The state after `vmm_handle_hypcall`. -/
def handled (s : Monitor) (m : Message) (world : World) : Monitor :=
  { s.note m with
    world := world
    exitstatus := Function.update s.exitstatus m.badge.toNat
      (world.exitStatus.getD (s.exitstatus m.badge.toNat)) }

/-- The argument of `benchmark_finished`: the exit status of the first guest with one that is not
zero. -/
def finishStatus (exitstatus : ℕ → BitVec 32) : BitVec 32 :=
  (((List.range n).map fun i => exitstatus (i + 1)).find? (· ≠ 0)).getD 0

/-- A step of the monitor or of a guest. -/
inductive Step (s : Monitor) : Monitor → Prop
  | call {g : ℕ} (hg : 1 ≤ g ∧ g ≤ n) (h : s.exchange g = .running) (label : Word) (length : ℕ)
    (mr : ℕ → Word) : Step s (s.deliver g ⟨ipcBadge g, label, length, mr⟩)
  | fault {g : ℕ} (hg : 1 ≤ g ∧ g ≤ n) (h : s.exchange g = .running) (label : Word) (length : ℕ)
    (mr : ℕ → Word) : Step s (s.deliver g ⟨faultBadge g, label, length, mr⟩)
  | recv {g : ℕ} {m : Message} (hc : s.control = .recv) (h : s.exchange g = .calling m)
    (others : ℕ → Word) : Step s (s.receive g m others)
  | save {m : Message} (hc : s.control = .save m) (h : s.replySlot = none) :
    Step s { s with control := .handle m, caller := none, replySlot := s.caller }
  /-- The destination of `seL4_CNode_SaveCaller` is not empty. -/
  | saveFailed {m : Message} {g : ℕ} (hc : s.control = .save m) (h : s.replySlot = some g) :
    Step s { s with control := .returned }
  /-- `vmm_handle_sel4_fault`. -/
  | handleFault {m : Message} (hc : s.control = .handle m) (hm : m.IsFault) :
    Step s { s.note m with control := .send 1 0 }
  | handleHypcall {m : Message} {length : ℕ} {world : World} (hc : s.control = .handle m)
    (hm : ¬m.IsFault) (hx : ¬m.IsExit) (h : s.hypcall P m = some (length, world)) :
    Step s { s.handled m world with control := .send m.label length }
  /-- `sel4utils_clean_up_thread` may already revoke the reply capability. -/
  | handleExit {m : Message} {length : ℕ} {world : World} {slot : Option ℕ}
    (hc : s.control = .handle m) (hx : m.IsExit) (h : s.hypcall P m = some (length, world))
    (hslot : slot = s.replySlot ∨ slot = none) :
    Step s { s.handled m world with
      exchange := Function.update s.exchange m.badge.toNat .exited
      control := .delete
      replySlot := slot }
  | handleAborted {m : Message} (hc : s.control = .handle m) (hm : ¬m.IsFault)
    (h : s.hypcall P m = none) : Step s { s with control := .aborted }
  | delete (hc : s.control = .delete) :
    Step s { s with
      replySlot := none
      nGuestsExited := s.nGuestsExited + 1
      control := if s.nGuestsExited + 1 = n then .finished (finishStatus n s.exitstatus)
        else .recv }
  | send {label : Word} {length g : ℕ} {m : Message} {e : Exchange}
    (hc : s.control = .send label length) (h : s.replySlot = some g)
    (hg : s.exchange g = .handled m) (he : e = .running ∨ m.IsFault ∧ e = .stopped) :
    Step s { s with
      exchange := Function.update s.exchange g e
      replySlot := none
      control := .recv
      log := s.log ++ [(g, .replied label length s.world.vmmMr)] }
  | sendInvalid {label : Word} {length : ℕ} (hc : s.control = .send label length)
    (h : s.replySlot = none) : Step s { s with control := .capFault }

/-- The states that the monitor and `n` guests can reach. -/
def Reachable (world : World) (s : Monitor) : Prop :=
  Relation.ReflTransGen (Step P n) (init n world) s

end Monitor

end Sel4bench.Vcpu
