import Xv6Cos.Kernel.Virtio

/-!
# What the disk driver promises

A record, kept beside a run, of the processes whose request the device has completed, and what
each step of driver and device may do in terms of it.
-/

namespace Xv6Cos.Spec

open Kernel Transition

variable {ι β : Type} [DecidableEq ι] [DecidableEq β]

/-- The processes whose last request the device has completed, after a step. -/
def trackDone (s : DriverState ι β) (done : ι → Bool) : DriverEvent ι β → ι → Bool
  | .requested p _ => Function.update done p false
  | .completed head _ _ => fun p =>
    match s.call p with
    | .inFlight r => decide (r.head = head) || done p
    | _ => done p
  | _ => done

/-- What a step may do. -/
def Obeys (s : DriverState ι β) (done : ι → Bool) (t : DriverState ι β) : DriverEvent ι β → Prop
  /- A request takes three descriptors that are free. -/
  | .requested _ r => r.idx.Nodup ∧ ∀ i ∈ r.idx, i < NUM ∧ s.disk.free i = true ∧
      t.disk.free i = false
  /- The device does what one request in flight asks for. -/
  | .completed head b op => ∃ p r, s.call p = .inFlight r ∧ done p = false ∧ r.head = head ∧
      r.b = b ∧ op = ⟨r.write, r.sector⟩
  /- A used entry clears the flag of the buffer whose request it was. -/
  | .handled head b => (∃ p r, s.call p = .inFlight r ∧ done p = true ∧ r.head = head ∧ r.b = b) ∧
      s.busy b = true ∧ t.busy = Function.update s.busy b false
  /- `virtio_disk_rw` returns after its own request, and frees its descriptors. -/
  | .returned p r => s.call p = .inFlight r ∧ done p = true ∧
      (∀ i ∈ r.idx, s.disk.free i = false) ∧
      ∀ i, t.disk.free i = true ↔ i ∈ r.idx ∨ s.disk.free i = true
  | _ => True

end Xv6Cos.Spec
