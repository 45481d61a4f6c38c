import ExpiringCache.Key
import ExpiringCache.Table

/-!
# Admission by key

Callers that want to work on one key go through the key's slot, one at a time. A slot is made on
demand and counts the references to it: one of the directory while it lists the slot, one of each
caller that waits or is inside, and a second one of the caller that is inside. Coming in and going
out are short steps, each atomic on its own, between which other callers may take theirs:

* `enter`: find or make the key's slot and take a reference to it;
* `lock?`: go inside, which has to wait while another caller is;
* `unlock`: go out again and give up the second reference;
* `retire`: take the slot off the directory if only the directory and this caller refer to it;
* `leave`: give up the last reference.

`acquire?` and `release` are these steps with nobody in between.
-/

namespace ExpiringCache

structure Slot where
  references : Nat
  locked : Bool
deriving DecidableEq

structure Admission where
  /-- The slot that stands for a key, by its number. -/
  directory : Table Key Nat
  /-- The slots that are referred to. -/
  slots : Table Nat Slot
  /-- The number of the next slot. -/
  fresh : Nat
deriving DecidableEq

namespace Admission

def empty : Admission := ⟨.empty, .empty, 0⟩

def reference (a : Admission) (slot : Nat) : Admission :=
  { a with slots := a.slots.modify slot fun s => { s with references := s.references + 1 } }

/-- Gives up a reference; a slot without any is gone. -/
def unreference (a : Admission) (slot : Nat) : Admission :=
  if (a.slots.get? slot).any (·.references ≤ 1) then { a with slots := a.slots.erase slot }
  else { a with slots := a.slots.modify slot fun s => { s with references := s.references - 1 } }

/-- The key's slot, with a reference to it for the caller. -/
def enter (a : Admission) (key : Key) : Admission × Nat :=
  match a.directory.get? key with
  | some slot => (a.reference slot, slot)
  | none =>
    ({ directory := a.directory.put key a.fresh
       slots := a.slots.put a.fresh ⟨2, false⟩
       fresh := a.fresh + 1 }, a.fresh)

/-- Goes inside; `none` while another caller is. -/
def lock? (a : Admission) (slot : Nat) : Option Admission :=
  if (a.slots.get? slot).any (!·.locked) then
    some { a with slots := a.slots.modify slot fun s => ⟨s.references + 1, true⟩ }
  else none

def unlock (a : Admission) (slot : Nat) : Admission :=
  { a with slots := a.slots.modify slot fun s => ⟨s.references - 1, false⟩ }

/-- Takes the key off the directory if this caller and the directory are the last to refer to the
slot. -/
def retire (a : Admission) (key : Key) (slot : Nat) : Admission :=
  if (a.slots.get? slot).any (·.references = 2) then
    match a.directory.get? key with
    | some listed => { a.unreference listed with directory := a.directory.erase key }
    | none => a
  else a

def leave (a : Admission) (slot : Nat) : Admission := a.unreference slot

/-- Goes inside at once, if nobody is. -/
def acquire? (a : Admission) (key : Key) : Option (Admission × Nat) :=
  let entered := a.enter key
  (entered.1.lock? entered.2).map (·, entered.2)

/-- A caller would go inside at once. -/
def admits (a : Admission) (key : Key) : Bool := (a.acquire? key).isSome

def release (a : Admission) (key : Key) (slot : Nat) : Admission :=
  ((a.unlock slot).retire key slot).leave slot

example : ((empty.acquire? "a").map fun r => (r.1.acquire? "a").isNone) = some true := by decide

example : ((empty.acquire? "a").map fun r => (r.1.release "a" r.2).directory) = some .empty := by
  decide

end Admission

end ExpiringCache
