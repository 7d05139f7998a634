import Logex.Primitives
import Logex.Lib.Run
import Logex.Lib.Stateful

/-!
# Query memory

`query_memory.rs` and `query_buffer.rs`: the ledgers that account query-owned allocations, the reservations that hold a charge on
one of them, and the buffers whose charge follows their backing allocation. A reservation is a value that its owner carries; only
the ledgers are shared. Arithmetic on `u128` panics when it leaves its range, and what a vector's allocation returns is asked of the
world. `QuerySystem` is the union of all ledgers with every live owner, and `QueryOp` an operation on it.
-/

namespace Logex

open Lib

/-! ## Ledgers -/

def u128Max : Nat := 2 ^ 128 - 1

/-- `usize::MAX` of a 64-bit target. -/
def usizeMax : Nat := u64Max

inductive QueryMemoryError where
  | capacityExceeded (requested used limit : Nat) (stage : String)
  | invalidRelease (requested reserved : Nat)
  | differentBudget
  | sizeOverflow (stage : String)
deriving DecidableEq, Repr

/-- Why an operation did not return: an accounting error, a value that does not fit `usize`, an allocation that failed, or the
panic of an arithmetic operator. -/
inductive QueryMemoryFailure where
  | memory (error : QueryMemoryError)
  | conversion
  | allocation
  | overflow
  | underflow
deriving DecidableEq, Repr

/-- What accounting does not decide itself: the limit of each budget, and the capacity an allocation of at least some size gets. -/
structure QueryWorld where
  limit : Nat → Nat
  /-- `Vec::try_reserve_exact` and `Vec::try_reserve`, told apart by the number of the request. -/
  allocate : Nat → Nat → Option Nat
  allocate_ge : ∀ request capacity actual, allocate request capacity = some actual → capacity ≤ actual

/-- The `used` field of every budget, and the number of allocations so far. -/
structure QueryMemory where
  used : Nat → Nat := fun _ => 0
  allocations : Nat := 0

/-- An operation on the ledgers. -/
abbrev LedgerM := EStateM QueryMemoryFailure QueryMemory

def usedOf (budget : Nat) : LedgerM Nat := do
  let s ← get
  return s.used budget

def setUsed (budget used : Nat) : LedgerM Unit :=
  modify fun s => { s with used := Function.update s.used budget used }

/-- `*ledger += bytes`. -/
def addUsed (budget bytes : Nat) : LedgerM Unit := do
  let used ← usedOf budget
  failIf (u128Max < used + bytes) .overflow
  setUsed budget (used + bytes)

/-- `*ledger -= bytes`. -/
def subUsed (budget bytes : Nat) : LedgerM Unit := do
  let used ← usedOf budget
  failIf (used < bytes) .underflow
  setUsed budget (used - bytes)

/-! ## Reservations -/

structure QueryMemoryReservation where
  budget : Nat
  bytes : Nat
  stage : String
deriving DecidableEq, Repr

namespace QueryMemoryReservation

variable (reservation : QueryMemoryReservation)

/-- `self.bytes += bytes`. -/
def addBytes (bytes : Nat) : LedgerM QueryMemoryReservation := do
  failIf (u128Max < reservation.bytes + bytes) .overflow
  return { reservation with bytes := reservation.bytes + bytes }

def tryGrow (world : QueryWorld) (reservation : QueryMemoryReservation) (additional : Nat) : LedgerM QueryMemoryReservation :=
  if additional = 0 then return reservation
  else do
    let used ← usedOf reservation.budget
    failIf (u128Max < used + additional ∨ world.limit reservation.budget < used + additional)
      (.memory (.capacityExceeded additional used (world.limit reservation.budget) reservation.stage))
    setUsed reservation.budget (used + additional)
    reservation.addBytes additional

/-- Record memory already allocated by an infallible third-party API. -/
def recordExisting (additional : Nat) : LedgerM QueryMemoryReservation := do
  addUsed reservation.budget additional
  reservation.addBytes additional

def shrink (bytes : Nat) : LedgerM QueryMemoryReservation := do
  failIf (reservation.bytes < bytes) (.memory (.invalidRelease bytes reservation.bytes))
  subUsed reservation.budget bytes
  return { reservation with bytes := reservation.bytes - bytes }

def split (bytes : Nat) : LedgerM (QueryMemoryReservation × QueryMemoryReservation) := do
  failIf (reservation.bytes < bytes) (.memory (.invalidRelease bytes reservation.bytes))
  return ({ reservation with bytes := reservation.bytes - bytes }, { reservation with bytes })

/-- Transfer another charge on the same ledger without releasing capacity or requesting it twice. -/
def absorb (reservation other : QueryMemoryReservation) : LedgerM (QueryMemoryReservation × QueryMemoryReservation) := do
  failIf (reservation.budget ≠ other.budget) (.memory .differentBudget)
  failIf (u128Max < reservation.bytes + other.bytes) (.memory (.sizeOverflow reservation.stage))
  return ({ reservation with bytes := reservation.bytes + other.bytes }, { other with bytes := 0 })

def drop : LedgerM Unit := subUsed reservation.budget reservation.bytes

end QueryMemoryReservation

/-- `QueryMemoryBudget::reserve`; the empty reservation dropped on failure releases nothing. -/
def reserve (world : QueryWorld) (budget bytes : Nat) (stage : String) : LedgerM QueryMemoryReservation :=
  QueryMemoryReservation.tryGrow world { budget, bytes := 0, stage } bytes

/-- `QueryMemoryBudget::array_bytes`, for elements of a size. -/
def arrayBytes (size len : Nat) (stage : String) : Except QueryMemoryFailure Nat :=
  if len * size ≤ usizeMax then .ok (len * size) else .error (.memory (.sizeOverflow stage))

/-- `usize::try_from`. -/
def usizeTryFrom (value : Nat) : Except QueryMemoryFailure Nat :=
  if value ≤ usizeMax then .ok value else .error .conversion

/-- Ask for an allocation. -/
def allocate (world : QueryWorld) (capacity : Nat) : LedgerM Nat := do
  let s ← get
  set { s with allocations := s.allocations + 1 }
  attempt (okOr .allocation (world.allocate s.allocations capacity))

/-- Run an operation; where it fails, the reservation goes out of scope. -/
def orRelease {β : Type} (operation : LedgerM β) (reservation : Option QueryMemoryReservation) : LedgerM β := fun s =>
  match operation s with
  | .ok result s => .ok result s
  | .error failure s => match reservation.elim (pure ()) QueryMemoryReservation.drop s with
    | .ok _ s => .error failure s
    | .error failure s => .error failure s

/-- The outcome of an operation, as a value. -/
def outcome {β : Type} (operation : LedgerM β) : LedgerM (Except QueryMemoryFailure β) := fun s =>
  match operation s with
  | .ok result s => .ok (.ok result) s
  | .error failure s => .ok (.error failure) s

/-! ## Buffers -/

/-- `Vec<T>`: its elements lie within its capacity. -/
structure RustVec (α : Type) where
  values : List α
  capacity : Nat
  length_le : values.length ≤ capacity

namespace RustVec

variable {α : Type}

/-- An operation that keeps no more elements than there were leaves the capacity. -/
def restrict (vec : RustVec α) (values : List α) (h : values.length ≤ vec.values.length) : RustVec α :=
  ⟨values, vec.capacity, h.trans vec.length_le⟩

/-- `extend` and its kin: the vector reallocates where the elements do not fit. -/
def extend (vec : RustVec α) (values : List α) : RustVec α where
  values := vec.values ++ values
  capacity := max vec.capacity (vec.values.length + values.length)
  length_le := by rw [List.length_append]; exact Nat.le_max_right _ _

end RustVec

/-- `QueryBuffer<T>`, with `size_of::<T>()`. -/
structure QueryBuffer (α : Type) where
  size : Nat
  vec : RustVec α
  reservation : Option QueryMemoryReservation

namespace QueryBuffer

variable {α : Type} (world : QueryWorld)

/-- The values of a reservation that a vector outgrew: record the difference, and refuse it above the limit. -/
def reconcileUp (reservation : QueryMemoryReservation) (actual : Nat) : LedgerM QueryMemoryReservation := do
  let reserved ← orRelease (attempt (usizeTryFrom reservation.bytes)) (some reservation)
  let used ← usedOf reservation.budget
  let grown ← orRelease (reservation.recordExisting (actual - reserved)) (some reservation)
  let now ← usedOf grown.budget
  orRelease (failIf (world.limit grown.budget < now)
    (.memory (.capacityExceeded (actual - reserved) used (world.limit grown.budget) grown.stage))) (some grown)
  return grown

/-- A reservation larger than its vector: release the difference. -/
def reconcileDown (reservation : QueryMemoryReservation) (actual : Nat) : LedgerM QueryMemoryReservation := do
  let extra ← orRelease (attempt (usizeTryFrom (reservation.bytes - actual))) (some reservation)
  orRelease (reservation.shrink extra) (some reservation)

/-- Transfer a vector alongside its prior allocation reservation, releasing both on rejection. -/
def fromReserved (size : Nat) (vec : RustVec α) : Option QueryMemoryReservation → LedgerM (QueryBuffer α)
  | none => return { size, vec, reservation := none }
  | some reservation => do
    let actual ← orRelease (attempt (arrayBytes size vec.capacity reservation.stage)) (some reservation)
    let reservation ←
      if reservation.bytes < actual then reconcileUp world reservation actual
      else if actual < reservation.bytes then reconcileDown reservation actual
      else pure reservation
    return { size, vec, reservation := some reservation }

def tryWithCapacity (size capacity : Nat) (memory : Option Nat) (stage : String) : LedgerM (QueryBuffer α) := do
  let bytes ← attempt (arrayBytes size capacity stage)
  let reservation ← match memory with
    | none => pure none
    | some budget => some <$> reserve world budget bytes stage
  let actual ← orRelease (allocate world capacity) reservation
  fromReserved world size ⟨[], actual, Nat.zero_le _⟩ reservation

def unaccounted (size : Nat) (vec : RustVec α) : QueryBuffer α := { size, vec, reservation := none }

/-- The stage that errors of a buffer name. -/
def stage (buffer : QueryBuffer α) : String := (buffer.reservation.map (·.stage)).getD "query buffer"

variable (buffer : QueryBuffer α)

/-- The elements move to a replacement while both allocations are charged; then the old charge is released. -/
def replaceWith (target : Nat) (reservation : QueryMemoryReservation) : LedgerM (QueryBuffer α) := do
  let replacement ← tryWithCapacity world buffer.size target (some reservation.budget) reservation.stage
  reservation.drop
  return { replacement with vec := replacement.vec.extend buffer.vec.values }

def tryReserve (additional : Nat) : LedgerM (QueryBuffer α) := do
  let required := buffer.vec.values.length + additional
  failIf (usizeMax < required) (.memory (.sizeOverflow buffer.stage))
  if required ≤ buffer.vec.capacity then return buffer
  else match buffer.reservation with
    | none => do
      let capacity ← allocate world required
      return { buffer with vec := ⟨buffer.vec.values, max buffer.vec.capacity capacity,
        buffer.vec.length_le.trans (Nat.le_max_left _ _)⟩ }
    | some reservation =>
      let doubled := if buffer.vec.capacity * 2 ≤ usizeMax then buffer.vec.capacity * 2 else required
      buffer.replaceWith world (max doubled required) reservation

/-- Reserve room for some values and append them: `try_push`, `try_extend_from_slice`, and one half of `try_append`. -/
def tryAppendValues (values : List α) : LedgerM (QueryBuffer α) := do
  let buffer ← buffer.tryReserve world values.length
  return { buffer with vec := buffer.vec.extend values }

def tryPush (value : α) : LedgerM (QueryBuffer α) := buffer.tryAppendValues world [value]

/-- The loop of `try_extend`, which keeps what it pushed before a failure. -/
def pushAll (buffer : QueryBuffer α) : List α → LedgerM (QueryBuffer α × Option QueryMemoryFailure)
  | [] => return (buffer, none)
  | value :: rest => do
    match ← outcome (buffer.tryPush world value) with
    | .ok buffer => pushAll buffer rest
    | .error failure => return (buffer, some failure)

/-- `try_extend` with an iterator of the given size hint. -/
def tryExtend (sizeHint : Nat) (values : List α) : LedgerM (QueryBuffer α × Option QueryMemoryFailure) := do
  match ← outcome (buffer.tryReserve world sizeHint) with
  | .ok buffer => buffer.pushAll world values
  | .error failure => return (buffer, some failure)

/-- Move elements without detaching either backing allocation's owner. -/
def tryAppend (buffer other : QueryBuffer α) : LedgerM (QueryBuffer α × QueryBuffer α) := do
  let buffer ← buffer.tryAppendValues world other.vec.values
  return (buffer, { other with vec := other.vec.restrict [] (Nat.zero_le _) })

def tryResize (len : Nat) (value : α) : LedgerM (QueryBuffer α) := do
  let buffer ← buffer.tryReserve world (len - buffer.vec.values.length)
  if len ≤ buffer.vec.values.length then
    return { buffer with vec := buffer.vec.restrict (buffer.vec.values.take len) (List.length_take_le' _ _) }
  else return { buffer with vec := buffer.vec.extend (List.replicate (len - buffer.vec.values.length) value) }

/-! ### Operations without allocation -/

def clear : QueryBuffer α := { buffer with vec := buffer.vec.restrict [] (Nat.zero_le _) }

def truncate (len : Nat) : QueryBuffer α :=
  { buffer with vec := buffer.vec.restrict (buffer.vec.values.take len) (List.length_take_le' _ _) }

def removePrefix (len : Nat) : QueryBuffer α :=
  { buffer with vec := buffer.vec.restrict (buffer.vec.values.drop len) (by rw [List.length_drop]; exact Nat.sub_le _ _) }

/-- `retain`, by what the closure answers at each position. -/
def retain (keep : Nat → Bool) : QueryBuffer α :=
  { buffer with vec := buffer.vec.restrict ((buffer.vec.values.zipIdx.filter fun entry => keep entry.2).map (·.1)) (by
      rw [List.length_map]
      exact (List.length_filter_le _ _).trans (List.length_zipIdx).le) }

def pop : QueryBuffer α :=
  { buffer with vec := buffer.vec.restrict buffer.vec.values.dropLast (by rw [List.length_dropLast]; exact Nat.sub_le _ _) }

end QueryBuffer

/-! ## The system -/

/-- A live owner of a charge. -/
inductive QueryOwner (α : Type) where
  | reservation (reservation : QueryMemoryReservation)
  | buffer (buffer : QueryBuffer α)

/-- The reservation an owner carries. -/
def QueryOwner.reservation? {α : Type} : QueryOwner α → Option QueryMemoryReservation
  | .reservation held => some held
  | .buffer held => held.reservation

/-- What an owner holds of a budget. -/
def QueryOwner.charge {α : Type} (budget : Nat) (owner : QueryOwner α) : Nat :=
  owner.reservation?.elim 0 fun reservation => if reservation.budget = budget then reservation.bytes else 0

structure QuerySystem (α : Type) where
  memory : QueryMemory := {}
  owners : List (QueryOwner α) := []

inductive QueryOutcome where
  | returned
  | failed (failure : QueryMemoryFailure)
  | absent
deriving DecidableEq, Repr

/-- An operation; owners are named by their position. -/
inductive QueryOp (α : Type) where
  | reserve (budget bytes : Nat) (stage : String)
  | tryGrow (owner additional : Nat)
  | recordExisting (owner additional : Nat)
  | shrink (owner bytes : Nat)
  | split (owner bytes : Nat)
  | absorb (owner other : Nat)
  | drop (owner : Nat)
  | tryWithCapacity (size capacity : Nat) (memory : Option Nat) (stage : String)
  | unaccounted (size : Nat) (vec : RustVec α)
  | fromReserved (size : Nat) (vec : RustVec α) (owner : Nat)
  | intoParts (owner : Nat)
  | clear (owner : Nat)
  | truncate (owner len : Nat)
  | removePrefix (owner len : Nat)
  | retain (owner : Nat) (keep : Nat → Bool)
  | pop (owner : Nat)
  | tryReserve (owner additional : Nat)
  | tryPush (owner : Nat) (value : α)
  | tryExtend (owner sizeHint : Nat) (values : List α)
  | tryAppend (owner other : Nat)
  | tryExtendFromSlice (owner : Nat) (values : List α)
  | tryResize (owner len : Nat) (value : α)
  | intoBytes (owner : Nat)

namespace QuerySystem

variable {α : Type} (world : QueryWorld) (system : QuerySystem α)

variable (owner : Nat)

def reservationAt : Option QueryMemoryReservation :=
  match system.owners[owner]? with
  | some (.reservation reservation) => some reservation
  | _ => none

def bufferAt : Option (QueryBuffer α) :=
  match system.owners[owner]? with
  | some (.buffer buffer) => some buffer
  | _ => none

/-- Run an operation on the ledgers, with the owners there are after it returned and after it failed. -/
def perform {β : Type} (operation : LedgerM β) (returned : β → List (QueryOwner α)) (failed : List (QueryOwner α)) :
    QuerySystem α × QueryOutcome :=
  match operation system.memory with
  | .ok result memory => ({ memory, owners := returned result }, .returned)
  | .error failure memory => ({ memory, owners := failed }, .failed failure)

/-- An operation on one free reservation. -/
def onReservation (operation : QueryMemoryReservation → QuerySystem α × QueryOutcome) : QuerySystem α × QueryOutcome :=
  match system.reservationAt owner with
  | some reservation => operation reservation
  | none => (system, .absent)

/-- An operation on one buffer. -/
def onBuffer (operation : QueryBuffer α → QuerySystem α × QueryOutcome) : QuerySystem α × QueryOutcome :=
  match system.bufferAt owner with
  | some buffer => operation buffer
  | none => (system, .absent)

/-- Change one reservation. -/
def changeReservation (change : QueryMemoryReservation → LedgerM QueryMemoryReservation) : QuerySystem α × QueryOutcome :=
  system.onReservation owner fun reservation => system.perform (change reservation)
    (fun changed => system.owners.set owner (.reservation changed)) system.owners

/-- Change one buffer. -/
def changeBuffer (change : QueryBuffer α → LedgerM (QueryBuffer α)) : QuerySystem α × QueryOutcome :=
  system.onBuffer owner fun buffer => system.perform (change buffer)
    (fun changed => system.owners.set owner (.buffer changed)) system.owners

/-- The owner goes out of scope. -/
def dropOwner : QuerySystem α × QueryOutcome :=
  match system.owners[owner]? with
  | some value => system.perform (value.reservation?.elim (pure ()) QueryMemoryReservation.drop)
    (fun _ => system.owners.eraseIdx owner) (system.owners.eraseIdx owner)
  | none => (system, .absent)

def step : QueryOp α → QuerySystem α × QueryOutcome
  | .reserve budget bytes stage => system.perform (Logex.reserve world budget bytes stage)
    (fun reservation => system.owners ++ [.reservation reservation]) system.owners
  | .tryGrow owner additional => system.changeReservation owner (·.tryGrow world additional)
  | .recordExisting owner additional => system.changeReservation owner (·.recordExisting additional)
  | .shrink owner bytes => system.changeReservation owner (·.shrink bytes)
  | .split owner bytes => system.onReservation owner fun reservation => system.perform (reservation.split bytes)
    (fun parts => system.owners.set owner (.reservation parts.1) ++ [.reservation parts.2]) system.owners
  | .absorb owner other =>
    if owner = other then (system, .absent)
    else system.onReservation owner fun reservation => system.onReservation other fun absorbed =>
      system.perform (reservation.absorb absorbed)
        (fun both => (system.owners.set owner (.reservation both.1)).set other (.reservation both.2)) system.owners
  | .drop owner => system.dropOwner owner
  | .tryWithCapacity size capacity memory stage => system.perform (QueryBuffer.tryWithCapacity world size capacity memory stage)
    (fun buffer => system.owners ++ [.buffer buffer]) system.owners
  | .unaccounted size vec => ({ system with owners := system.owners ++ [.buffer (.unaccounted size vec)] }, .returned)
  | .fromReserved size vec owner => system.onReservation owner fun reservation =>
    system.perform (QueryBuffer.fromReserved world size vec (some reservation))
      (fun buffer => system.owners.set owner (.buffer buffer)) (system.owners.eraseIdx owner)
  | .intoParts owner => system.onBuffer owner fun buffer => match buffer.reservation with
    | some reservation => ({ system with owners := system.owners.set owner (.reservation reservation) }, .returned)
    | none => ({ system with owners := system.owners.eraseIdx owner }, .returned)
  | .clear owner => system.changeBuffer owner fun buffer => pure buffer.clear
  | .truncate owner len => system.changeBuffer owner fun buffer => pure (buffer.truncate len)
  | .removePrefix owner len => system.changeBuffer owner fun buffer => pure (buffer.removePrefix len)
  | .retain owner keep => system.changeBuffer owner fun buffer => pure (buffer.retain keep)
  | .pop owner => system.changeBuffer owner fun buffer => pure buffer.pop
  | .tryReserve owner additional => system.changeBuffer owner (·.tryReserve world additional)
  | .tryPush owner value => system.changeBuffer owner (·.tryPush world value)
  | .tryExtend owner sizeHint values => system.onBuffer owner fun buffer =>
    match buffer.tryExtend world sizeHint values system.memory with
    | .ok (buffer, none) memory => ({ memory, owners := system.owners.set owner (.buffer buffer) }, .returned)
    | .ok (buffer, some failure) memory => ({ memory, owners := system.owners.set owner (.buffer buffer) }, .failed failure)
    | .error failure memory => ({ memory, owners := system.owners }, .failed failure)
  | .tryAppend owner other =>
    if owner = other then (system, .absent)
    else system.onBuffer owner fun buffer => system.onBuffer other fun source =>
      system.perform (buffer.tryAppend world source)
        (fun both => (system.owners.set owner (.buffer both.1)).set other (.buffer both.2)) system.owners
  | .tryExtendFromSlice owner values => system.changeBuffer owner (·.tryAppendValues world values)
  | .tryResize owner len value => system.changeBuffer owner (·.tryResize world len value)
  -- Shared bytes keep the whole buffer; an empty one is released at once.
  | .intoBytes owner => system.onBuffer owner fun buffer =>
    if buffer.vec.values = [] then system.dropOwner owner else (system, .returned)

/-- The system after some operations. -/
def run (ops : List (QueryOp α)) : QuerySystem α := runFrom (fun system op => (step world system op).1) {} ops

end QuerySystem

end Logex
