import Logex.Lemmas.QueryMemory

/-!
# Query memory is conserved

Every run of operations on reservations and buffers keeps each ledger equal to the charges of its live owners. The owners count only
as a multiset, so an operation on one of them is its specification with the others as the frame.
-/

namespace Logex

open Lib List
open QuerySystem (dropOwner onBuffer perform)

variable {j : Nat}

namespace LedgerAux

variable {α : Type} {world : QueryWorld} {memory : QueryMemory} {owners rest : List (QueryOwner α)} {owner : QueryOwner α}

/-- What some owners hold of a budget. -/
def held (owners : List (QueryOwner α)) (budget : Nat) : Nat := (owners.map (QueryOwner.charge budget)).sum

/-- The charge of an owner is what it should be; a free reservation may hold anything. -/
def ChargedOwner : QueryOwner α → Prop
  | .reservation _ => True
  | .buffer buffer => buffer.Charged

structure Sound (memory : QueryMemory) (owners : List (QueryOwner α)) : Prop where
  covers : Covers memory (held owners) []
  charged : ∀ owner ∈ owners, ChargedOwner owner

theorem Sound.used_eq (h : Sound memory owners) : memory.used = held owners :=
  funext fun budget => (h.covers budget).1

theorem Sound.perm {os' : List (QueryOwner α)} (h : Sound memory owners) (hp : owners.Perm os') : Sound memory os' := by
  have hh : held os' = held owners := funext fun budget => (hp.map _).sum_eq.symm
  exact ⟨hh ▸ h.covers, fun owner hmem => h.charged owner (hp.mem_iff.mpr hmem)⟩

theorem held_cons (budget : Nat) :
    held (owner :: rest) budget = held rest budget + (owner.reservation?.toList.map (·.charge budget)).sum := by
  rw [held, map_cons, sum_cons, add_comm, QueryOwner.charge]
  cases owner.reservation? with
  | none => rfl
  | some rv => exact congrArg _ (add_zero _).symm

/-- The first owner against the frame of the others. -/
theorem sound_cons : Sound memory (owner :: rest) ↔
    Covers memory (held rest) owner.reservation?.toList ∧ ChargedOwner owner ∧ ∀ o ∈ rest, ChargedOwner o := by
  have hcov : Covers memory (held (owner :: rest)) [] ↔ Covers memory (held rest) owner.reservation?.toList := by
    simp [Covers, held_cons]
  constructor
  · rintro ⟨h, hcharged⟩
    exact ⟨hcov.mp h, forall_mem_cons.mp hcharged⟩
  · rintro ⟨h, hcharged⟩
    exact ⟨hcov.mpr h, forall_mem_cons.mpr hcharged⟩

/-! ### Positions -/

theorem perm_eraseIdx {i : Nat} (h : owners[i]? = some owner) : owners.Perm (owner :: owners.eraseIdx i) := by
  obtain ⟨hi, rfl⟩ := List.getElem?_eq_some_iff.mp h
  exact (List.getElem_cons_eraseIdx_perm hi).symm

theorem perm_set {i : Nat} (h : owners[i]? = some owner) (changed : QueryOwner α) :
    (changed :: owners.eraseIdx i).Perm (owners.set i changed) :=
  (List.set_perm_cons_eraseIdx (List.getElem?_eq_some_iff.mp h).1 _).symm

/-- Two positions changed at once, with the same others around them. -/
theorem exists_perm_set_set {i j : Nat} {fst snd : QueryOwner α} (hne : i ≠ j) (hi : owners[i]? = some fst)
    (hj : owners[j]? = some snd) : ∃ rest, owners.Perm (fst :: snd :: rest) ∧
      ∀ a b, (a :: b :: rest).Perm ((owners.set i a).set j b) := by
  obtain ⟨k, hk⟩ : ∃ k, (owners.eraseIdx i)[k]? = some snd ∧
      ∀ a b, ((owners.set i a).set j b).Perm (a :: (owners.eraseIdx i).set k b) := by
    have hset : ∀ a b, ((owners.set i a).set j b).Perm (a :: ((owners.set j b).eraseIdx i)) := fun a b => by
      rw [List.set_comm _ _ hne]
      refine List.set_perm_cons_eraseIdx ?_ _
      rw [List.length_set]
      exact (List.getElem?_eq_some_iff.mp hi).1
    rcases Nat.lt_or_gt_of_ne hne with hlt | hgt
    · refine ⟨j - 1, ?_, fun a b => ?_⟩
      · rw [List.getElem?_eraseIdx_of_ge (by omega), Nat.sub_add_cancel (by omega)]
        exact hj
      · have := hset a b
        rwa [List.eraseIdx_set_lt hlt] at this
    · refine ⟨j, ?_, fun a b => ?_⟩
      · rw [List.getElem?_eraseIdx_of_lt hgt]
        exact hj
      · have := hset a b
        rwa [List.eraseIdx_set_gt hgt] at this
  refine ⟨(owners.eraseIdx i).eraseIdx k, (perm_eraseIdx hi).trans ((perm_eraseIdx hk.1).cons _), fun a b => ?_⟩
  exact ((perm_set hk.1 b).cons a).trans (hk.2 a b).symm

/-! ### One step -/

section Step

variable {β : Type} {system : QuerySystem α} {op : QueryOp α} {result : QuerySystem α × QueryOutcome}

/-- What a step guarantees. -/
structure Accounted (world : QueryWorld) (system : QuerySystem α) (op : QueryOp α) (result : QuerySystem α × QueryOutcome) :
    Prop where
  sound : Sound result.1.memory result.1.owners
  failure : result.2 ≠ .failed .underflow
  within : (∀ owner additional, op ≠ .recordExisting owner additional) → Within world system.memory result.1.memory
  owners : (∀ size vec owner, op ≠ .fromReserved size vec owner) → (∀ owner sizeHint values, op ≠ .tryExtend owner sizeHint values) →
    ∀ failure, result.2 = .failed failure → result.1.owners = system.owners

theorem accounted_same (h : Sound system.memory system.owners) {outcome : QueryOutcome} (hfailed : outcome ≠ .failed .underflow) :
    Accounted world system op (system, outcome) :=
  ⟨h, hfailed, fun _ => .of_used rfl, fun _ _ _ _ => rfl⟩

/-- A change of owners alone. -/
theorem accounted_owners (h : Sound system.memory owners) : Accounted world system op ({ system with owners }, .returned) :=
  ⟨h, nofun, fun _ => .of_used rfl, nofun⟩

variable {action : LedgerM β} {make : β → QueryOwner α}

/-- An operation on the ledgers that keeps the owners where it fails. -/
theorem accounted_perform {returned : β → List (QueryOwner α)} (hsound : Sound system.memory system.owners)
    (h : wpE action (fun b s' => Sound s' (returned b) ∧
        ((∀ owner add, op ≠ .recordExisting owner add) → Within world system.memory s'))
      (fun failure s' => failure ≠ .underflow ∧ Sound s' system.owners) system.memory) :
    Accounted world system op (system.perform action returned system.owners) := by
  unfold perform
  unfold wpE at h
  cases hop : action system.memory with
  | ok b s' =>
    rw [hop] at h
    exact ⟨h.1, nofun, h.2, nofun⟩
  | error failure s' =>
    rw [hop] at h
    refine ⟨h.2, fun he => h.1 (QueryOutcome.failed.inj he), fun _ => .of_used ?_, fun _ _ _ _ => rfl⟩
    exact h.2.used_eq.trans hsound.used_eq.symm

/-- An operation that makes a new owner. -/
theorem accounted_new (h : Sound system.memory system.owners) (hop : ∀ frame, Covers system.memory frame [] → wpE action
      (fun b s' => Covers s' frame (make b).reservation?.toList ∧ ChargedOwner (make b) ∧ Within world system.memory s')
      (Failed frame []) system.memory) :
    Accounted world system op (system.perform action (fun b => system.owners ++ [make b]) system.owners) := by
  refine accounted_perform h (wpE_mono (hop _ h.covers) ?_ fun _ s' he => ⟨he.1, he.2, h.charged⟩)
  rintro b s' ⟨hcov, hcharged, hwithin⟩
  exact ⟨(sound_cons.mpr ⟨hcov, hcharged, h.charged⟩).perm (perm_append_singleton _ _).symm, fun _ => hwithin⟩

variable {i : Nat}

/-- The owner at a position against the frame of the others. -/
theorem Sound.at (h : Sound memory owners) (hi : owners[i]? = some owner) :
    Covers memory (held (owners.eraseIdx i)) owner.reservation?.toList ∧ ChargedOwner owner ∧
      ∀ o ∈ owners.eraseIdx i, ChargedOwner o := sound_cons.mp (h.perm (perm_eraseIdx hi))

theorem Sound.of_set (hi : owners[i]? = some owner) {changed : QueryOwner α}
    (hcov : Covers memory (held (owners.eraseIdx i)) changed.reservation?.toList) (hcharged : ChargedOwner changed)
    (hothers : ∀ o ∈ owners.eraseIdx i, ChargedOwner o) : Sound memory (owners.set i changed) :=
  (sound_cons.mpr ⟨hcov, hcharged, hothers⟩).perm (perm_set hi changed)

theorem Sound.of_erase (hcov : Covers memory (held (owners.eraseIdx i)) [])
    (hothers : ∀ o ∈ owners.eraseIdx i, ChargedOwner o) : Sound memory (owners.eraseIdx i) := ⟨hcov, hothers⟩

/-- A failure that leaves the charge of the owner leaves all. -/
theorem Sound.of_failed (h : Sound system.memory system.owners) (hi : system.owners[i]? = some owner) {failure : QueryMemoryFailure}
    {s' : QueryMemory} (hfailed : Failed (held (system.owners.eraseIdx i)) owner.reservation?.toList failure s') :
    failure ≠ .underflow ∧ Sound s' system.owners := by
  refine ⟨hfailed.1, ?_⟩
  have hs := (sound_cons.mpr ⟨hfailed.2, (h.at hi).2⟩).perm (perm_eraseIdx hi).symm
  exact hs

/-- An operation that changes the owner at a position. -/
theorem accounted_change (h : Sound system.memory system.owners) (hi : system.owners[i]? = some owner)
    (hop : ∀ frame, Covers system.memory frame owner.reservation?.toList → wpE action
      (fun b s' => Covers s' frame (make b).reservation?.toList ∧ ChargedOwner (make b) ∧
        ((∀ owner add, op ≠ .recordExisting owner add) → Within world system.memory s'))
      (Failed frame owner.reservation?.toList) system.memory) :
    Accounted world system op (system.perform action (fun b => system.owners.set i (make b)) system.owners) := by
  obtain ⟨hcov, -, hothers⟩ := h.at hi
  refine accounted_perform h (wpE_mono (hop _ hcov) ?_ fun _ _ he => h.of_failed hi he)
  rintro b s' ⟨hcov', hcharged', hwithin⟩
  exact ⟨.of_set hi hcov' hcharged' hothers, hwithin⟩

theorem reservationAt_eq_some {rv : QueryMemoryReservation} (h : system.reservationAt i = some rv) :
    system.owners[i]? = some (.reservation rv) := by
  unfold QuerySystem.reservationAt at h
  split at h
  · rename_i hi
    rw [hi, Option.some.inj h]
  · nomatch h

theorem bufferAt_eq_some {buf : QueryBuffer α} (h : system.bufferAt i = some buf) : system.owners[i]? = some (.buffer buf) := by
  unfold QuerySystem.bufferAt at h
  split at h
  · rename_i hi
    rw [hi, Option.some.inj h]
  · nomatch h

section

variable (h : Sound system.memory system.owners)

include h

theorem accounted_onReservation {action : QueryMemoryReservation → QuerySystem α × QueryOutcome}
    (hop : ∀ rv, system.owners[i]? = some (.reservation rv) → Accounted world system op (action rv)) :
    Accounted world system op (system.onReservation i action) := by
  unfold QuerySystem.onReservation
  split
  · rename_i hi
    exact hop _ (reservationAt_eq_some hi)
  · exact accounted_same h nofun

theorem accounted_onBuffer {action : QueryBuffer α → QuerySystem α × QueryOutcome}
    (hop : ∀ buf, system.owners[i]? = some (.buffer buf) → Accounted world system op (action buf)) :
    Accounted world system op (system.onBuffer i action) := by
  unfold onBuffer
  split
  · rename_i hi
    exact hop _ (bufferAt_eq_some hi)
  · exact accounted_same h nofun

/-- A change of one reservation. -/
theorem accounted_changeReservation {ch : QueryMemoryReservation → LedgerM QueryMemoryReservation}
    (hop : ∀ rv frame, Covers system.memory frame [rv] → wpE (ch rv) (fun changed s' => Covers s' frame [changed] ∧
        ((∀ owner add, op ≠ .recordExisting owner add) → Within world system.memory s')) (Failed frame [rv]) system.memory) :
    Accounted world system op (system.changeReservation i ch) := by
  refine accounted_onReservation h fun rv hi => accounted_change h hi fun frame hcov => ?_
  exact wpE_imp (hop rv frame hcov) fun _ _ hs => ⟨hs.1, trivial, hs.2⟩

/-- A change of one buffer. -/
theorem accounted_changeBuffer {ch : QueryBuffer α → LedgerM (QueryBuffer α)}
    (hop : ∀ buf frame, buf.Charged → Covers system.memory frame buf.reservation.toList → wpE (ch buf)
      (fun changed s' => Covers s' frame changed.reservation.toList ∧ changed.Charged ∧ Within world system.memory s')
      (Failed frame buf.reservation.toList) system.memory) : Accounted world system op (system.changeBuffer i ch) := by
  refine accounted_onBuffer h fun buf hi => accounted_change h hi fun frame hcov => ?_
  exact wpE_imp (hop buf frame (h.at hi).2.1 hcov) fun _ _ hs => ⟨hs.1, hs.2.1, fun _ => hs.2.2⟩

/-- An operation without allocation leaves the vector's capacity. -/
theorem accounted_restrict {ch : QueryBuffer α → QueryBuffer α}
    (hres : ∀ buf, (ch buf).reservation = buf.reservation) (hs : ∀ buf, (ch buf).size = buf.size)
    (hcap : ∀ buf, (ch buf).vec.capacity = buf.vec.capacity) :
    Accounted world system op (system.changeBuffer i fun buf => pure (ch buf)) := by
  refine accounted_changeBuffer h fun buf frame hcharged hcov => ⟨?_, fun rv hr => ?_, .of_used rfl⟩
  · rw [hres]
    exact hcov
  · rw [hcap, hs]
    exact hcharged _ ((hres buf).symm.trans hr)

theorem accounted_dropOwner : Accounted world system op (system.dropOwner i) := by
  unfold dropOwner
  split
  · rename_i owner hi
    obtain ⟨hcov, -, hothers⟩ := h.at hi
    have hd : wpE (owner.reservation?.elim (pure ()) QueryMemoryReservation.drop)
        (fun _ s' => Covers s' (held (system.owners.eraseIdx i)) [] ∧ ∀ budget, s'.used budget ≤ system.memory.used budget)
        (fun _ _ => False) system.memory := by
      cases hr : owner.reservation? with
      | none =>
        rw [hr] at hcov
        exact ⟨hcov, fun _ => le_rfl⟩
      | some rv =>
        rw [hr] at hcov
        exact wpE_drop hcov
    unfold perform
    unfold wpE at hd
    split
    · rename_i hop
      rw [hop] at hd
      exact ⟨.of_erase hd.1 hothers, nofun, fun _ => .of_le hd.2, nofun⟩
    · rename_i hop
      rw [hop] at hd
      exact hd.elim
  · exact accounted_same h nofun

end

/-- Two owners with their charges against the frame of the others. -/
theorem sound_cons_cons {snd : QueryOwner α} : Sound memory (owner :: snd :: rest) ↔
    Covers memory (held rest) (owner.reservation?.toList ++ snd.reservation?.toList) ∧ ChargedOwner owner ∧ ChargedOwner snd ∧
      ∀ o ∈ rest, ChargedOwner o := by
  rw [sound_cons, forall_mem_cons]
  refine and_congr (forall_congr' fun budget => ?_) Iff.rfl
  rw [held_cons, map_append, sum_append, add_assoc, add_comm (snd.reservation?.toList.map fun r => r.charge budget).sum]

variable (h : Sound system.memory system.owners)

include h

/-- An operation that changes the owners at two positions. -/
theorem accounted_change_two {fst snd : QueryOwner α} (hne : i ≠ j)
    (hi : system.owners[i]? = some fst) (hj : system.owners[j]? = some snd) {action : LedgerM (β × β)}
    (hop : ∀ frame, Covers system.memory frame (fst.reservation?.toList ++ snd.reservation?.toList) → wpE action
      (fun both s' => Covers s' frame ((make both.1).reservation?.toList ++ (make both.2).reservation?.toList) ∧
        ChargedOwner (make both.1) ∧ ChargedOwner (make both.2) ∧ Within world system.memory s')
      (Failed frame (fst.reservation?.toList ++ snd.reservation?.toList)) system.memory) : Accounted world system op
      (system.perform action (fun both => (system.owners.set i (make both.1)).set j (make both.2)) system.owners) := by
  obtain ⟨rest, hp, hset⟩ := exists_perm_set_set hne hi hj
  obtain ⟨hcov, hf, hsec, hothers⟩ := sound_cons_cons.mp (h.perm hp)
  refine accounted_perform h (wpE_mono (hop _ hcov) ?_ fun _ _ he => ⟨he.1, ?_⟩)
  · rintro both s' ⟨hcov', h1, h2, hwithin⟩
    exact ⟨(sound_cons_cons.mpr ⟨hcov', h1, h2, hothers⟩).perm (hset _ _), fun _ => hwithin⟩
  · exact (sound_cons_cons.mpr ⟨he.2, hf, hsec, hothers⟩).perm hp.symm

theorem accounted_split {bs : Nat} : Accounted world system (.split i bs) (system.step world (.split i bs)) := by
  refine accounted_onReservation h fun rv hi => ?_
  obtain ⟨hcov, -, hothers⟩ := h.at hi
  refine accounted_perform h (wpE_mono (wpE_split hcov) ?_ fun _ _ he => h.of_failed hi he)
  rintro ps _ ⟨hp, rfl⟩
  refine ⟨?_, fun _ => .of_used rfl⟩
  have hs : Sound system.memory (.reservation ps.1 :: .reservation ps.2 :: system.owners.eraseIdx i) :=
    sound_cons_cons.mpr ⟨hp, trivial, trivial, hothers⟩
  refine hs.perm (((List.Perm.swap _ _ _).trans ((perm_set hi _).cons _)).trans ?_)
  exact (perm_append_singleton _ _).symm

theorem accounted_absorb : Accounted world system (.absorb i j) (system.step world (.absorb i j)) := by
  rw [QuerySystem.step]
  split
  · exact accounted_same h nofun
  · rename_i hne
    refine accounted_onReservation h fun rv hi => accounted_onReservation h fun other hj => ?_
    refine accounted_change_two h hne hi hj fun frame hcov => ?_
    exact wpE_imp (wpE_absorb hcov) fun _ _ hs => ⟨hs.1, trivial, trivial, .of_used (congrArg _ hs.2)⟩

theorem accounted_tryAppend : Accounted world system (.tryAppend i j) (system.step world (.tryAppend i j)) := by
  rw [QuerySystem.step]
  split
  · exact accounted_same h nofun
  · rename_i hne
    refine accounted_onBuffer h fun buffer hi => accounted_onBuffer h fun source hj => ?_
    refine accounted_change_two h hne hi hj fun frame hcov => ?_
    unfold QueryBuffer.tryAppend
    refine wpE_seq (wpE_tryAppendValues (Covers.append.mp hcov) (h.at hi).2.1) ?_ fun _ _ he => ⟨he.1, Covers.append.mpr he.2⟩
    rintro grown s' ⟨hg, hcharged, -, hwithin⟩
    exact ⟨Covers.append.mpr hg, hcharged, (h.at hj).2.1, hwithin⟩

theorem accounted_tryWithCapacity {size cap : Nat} {budget : Option Nat} {state : String} :
    Accounted world system (.tryWithCapacity size cap budget state) (system.step world (.tryWithCapacity size cap budget state)) := by
  refine accounted_new h fun frame hcov => ?_
  cases budget with
  | none =>
    refine wpE_imp (wpE_tryWithCapacity_unaccounted hcov) ?_
    rintro buf s' ⟨hn, hcov', hwithin⟩
    refine ⟨?_, fun rv hr => (nomatch hn.symm.trans hr), hwithin⟩
    change Covers s' frame buf.reservation.toList
    rw [hn]
    exact hcov'
  | some budget =>
    refine wpE_imp (wpE_tryWithCapacity_accounted hcov) ?_
    rintro buf s' ⟨rv, hr, -, hcov', hcharged, -, -, -, hwithin⟩
    refine ⟨?_, hcharged, hwithin⟩
    change Covers s' frame buf.reservation.toList
    rw [hr]
    exact hcov'

theorem accounted_fromReserved {size : Nat} {vec : RustVec α} :
    Accounted world system (.fromReserved size vec i) (system.step world (.fromReserved size vec i)) := by
  refine accounted_onReservation h fun rv hi => ?_
  obtain ⟨hcov, -, hothers⟩ := h.at hi
  have hs : wpE (QueryBuffer.fromReserved world size vec (some rv)) _ _ _ := wpE_fromReserved hcov
  unfold wpE at hs
  unfold perform
  split
  · rename_i hop
    rw [hop] at hs
    obtain ⟨rec, rfl, hr⟩ := hs
    refine ⟨.of_set hi hr.covers ?_ hothers, nofun, fun _ => hr.within, nofun⟩
    exact fun held hh => (Option.some.inj hh) ▸ hr.bytes
  · rename_i hop
    rw [hop] at hs
    refine ⟨.of_erase hs.2 hothers, fun he => hs.1 (QueryOutcome.failed.inj he), fun _ => .of_le fun budget => ?_,
      fun hne => absurd rfl (hne _ _ _)⟩
    rw [(hs.2 budget).1, (hcov budget).1]
    exact Nat.add_le_add_left (Nat.zero_le _) _

theorem accounted_intoParts : Accounted world system (.intoParts i) (system.step world (.intoParts i)) := by
  refine accounted_onBuffer h fun buf hi => ?_
  obtain ⟨hcov, -, hothers⟩ := h.at hi
  change Covers system.memory _ buf.reservation.toList at hcov
  split
  · rename_i reservation hr
    rw [hr] at hcov
    exact accounted_owners (.of_set hi hcov trivial hothers)
  · rename_i hr
    rw [hr] at hcov
    exact accounted_owners (.of_erase hcov hothers)

/-- What `try_extend` leaves where it fails part way. -/
theorem accounted_tryExtend {sh : Nat} {vs : List α} :
    Accounted world system (.tryExtend i sh vs) (system.step world (.tryExtend i sh vs)) := by
  refine accounted_onBuffer h fun buf hi => ?_
  obtain ⟨hcov, hcharged, hothers⟩ := h.at hi
  have hs : wpE (buf.tryExtend world sh vs) _ _ _ := wpE_tryExtend hcov hcharged
  unfold wpE at hs
  split
  · rename_i hop
    rw [hop] at hs
    exact ⟨.of_set hi hs.covers hs.charged hothers, nofun, fun _ => hs.within, nofun⟩
  · rename_i hop
    rw [hop] at hs
    exact ⟨.of_set hi hs.covers hs.charged hothers, fun he => hs.failure (congrArg some (QueryOutcome.failed.inj he)),
      fun _ => hs.within, fun _ hne => absurd rfl (hne _ _ _)⟩
  · rename_i hop
    rw [hop] at hs
    exact hs.elim

theorem accounted_intoBytes : Accounted world system (.intoBytes i) (system.step world (.intoBytes i)) := by
  refine accounted_onBuffer h fun buffer _ => ?_
  split
  · exact accounted_dropOwner h
  · exact accounted_same h nofun

/-- Every operation accounts for what it changes. -/
theorem accounted_step (op : QueryOp α) : Accounted world system op (system.step world op) := by
  cases op with
  | reserve budget bs stage =>
    exact accounted_new h fun frame hcov =>
      wpE_imp (wpE_reserve hcov) fun _ _ hs => ⟨hs.1, trivial, hs.2.2⟩
  | tryGrow owner add =>
    exact accounted_changeReservation h fun rv frame hcov =>
      wpE_imp (wpE_tryGrow hcov) fun _ _ hs => ⟨hs.1, fun _ => hs.2.2⟩
  | recordExisting owner add =>
    exact accounted_changeReservation h fun rv frame hcov =>
      wpE_imp (wpE_recordExisting hcov) fun _ _ hs => ⟨hs.1, fun hne => absurd rfl (hne _ _)⟩
  | shrink owner bs =>
    exact accounted_changeReservation h fun rv frame hcov =>
      wpE_imp (wpE_shrink hcov) fun _ _ hs => ⟨hs.1, fun _ => .of_le hs.2.2.2⟩
  | split owner bs => exact accounted_split h
  | absorb owner o => exact accounted_absorb h
  | drop owner => exact accounted_dropOwner h
  | tryWithCapacity size capacity memory stage => exact accounted_tryWithCapacity h
  | unaccounted size vec =>
    refine accounted_owners (.perm (sound_cons.mpr ⟨h.covers, ?_, h.charged⟩) (perm_append_singleton _ _).symm)
    exact nofun
  | fromReserved size vec owner => exact accounted_fromReserved h
  | intoParts owner => exact accounted_intoParts h
  | clear owner | truncate owner len | removePrefix owner len | retain owner keep | pop owner =>
    exact accounted_restrict h (fun _ => rfl) (fun _ => rfl) fun _ => rfl
  | tryReserve owner add =>
    exact accounted_changeBuffer h fun buf frame hcharged hcov =>
      wpE_imp (wpE_tryReserve hcov hcharged) fun _ _ hs => ⟨hs.covers, hs.charged, hs.within⟩
  | tryPush owner v | tryExtendFromSlice owner vs =>
    exact accounted_changeBuffer h fun buf frame hcharged hcov =>
      wpE_imp (wpE_tryAppendValues hcov hcharged) fun _ _ hs => ⟨hs.1, hs.2.1, hs.2.2.2⟩
  | tryExtend owner sh vs => exact accounted_tryExtend h
  | tryAppend owner o => exact accounted_tryAppend h
  | tryResize owner len v =>
    exact accounted_changeBuffer h fun buf frame hcharged hcov => wpE_tryResize hcov hcharged
  | intoBytes owner => exact accounted_intoBytes h

end Step

/-! ### Whole runs -/

theorem sound_run (world : QueryWorld) (ops : List (QueryOp α)) :
    Sound (QuerySystem.run world ops).memory (QuerySystem.run world ops).owners := by
  refine runFrom_inv (fun system : QuerySystem α => Sound system.memory system.owners) ?_ (fun pre op _ h => ?_) ops (prefix_refl _)
  · exact ⟨fun _ => ⟨rfl, Nat.zero_le _⟩, nofun⟩
  · exact (accounted_step h op).sound

theorem dropOwner_zero (world : QueryWorld) (system : QuerySystem α) :
    (system.step world (.drop 0)).1.owners = system.owners.tail := by
  change (system.dropOwner 0).1.owners = _
  unfold dropOwner perform
  cases hown : system.owners with
  | nil => exact hown
  | cons owner rest =>
    dsimp only [getElem?_cons_zero]
    split
    · rfl
    · rfl

/-- Dropping every owner in turn leaves none. -/
theorem owners_drop_all (world : QueryWorld) (ops : List (QueryOp α)) (n : Nat) :
    (QuerySystem.run world (ops ++ List.replicate n (.drop 0))).owners = (QuerySystem.run world ops).owners.drop n := by
  induction n with
  | zero => rw [replicate_zero, append_nil, drop_zero]
  | succ n ih =>
    rw [replicate_succ', ← List.append_assoc, QuerySystem.run, runFrom_concat]
    refine (dropOwner_zero world _).trans ?_
    rw [← QuerySystem.run, ih, tail_drop]

/-- A failed `try_extend` keeps the contents it had and what it pushed after them. -/
theorem contents_tryExtend {system : QuerySystem α} (h : Sound system.memory system.owners) {i sh : Nat} {vs : List α}
    {buf : QueryBuffer α} (hi : system.bufferAt i = some buf) :
    ∃ gro, (system.step world (.tryExtend i sh vs)).1.owners = system.owners.set i (.buffer gro) ∧
      buf.vec.values <+: gro.vec.values := by
  obtain ⟨hcov, hcharged, hothers⟩ := h.at (bufferAt_eq_some hi)
  have hs : wpE (buf.tryExtend world sh vs) _ _ _ := wpE_tryExtend hcov hcharged
  unfold wpE at hs
  rw [QuerySystem.step, onBuffer, hi]
  dsimp only
  split
  · rename_i hop
    rw [hop] at hs
    exact ⟨_, rfl, hs.values⟩
  · rename_i hop
    rw [hop] at hs
    exact ⟨_, rfl, hs.values⟩
  · rename_i hop
    rw [hop] at hs
    exact hs.elim

end LedgerAux

open LedgerAux

/-- Query memory is conserved. After any operations, each budget's `used` is the sum of the charges of its live owners, and an
accounted buffer is charged its backing capacity. No operation underflows a ledger; none but `record_existing` takes one above its
limit; one that fails leaves ledgers and owners as they were, except that `from_reserved` releases the reservation it was given and
`try_extend` keeps the elements it pushed after the contents it had. Once all owners are dropped nothing is used. -/
theorem query_memory_is_conserved {α : Type} (world : QueryWorld) (ops : List (QueryOp α)) (op : QueryOp α) :
    let system := QuerySystem.run world ops
    let next := system.step world op
    (∀ budget, system.memory.used budget = (system.owners.map (QueryOwner.charge budget)).sum) ∧
    next.2 ≠ .failed .underflow ∧
    ((∀ owner additional, op ≠ .recordExisting owner additional) → ∀ budget,
      system.memory.used budget < next.1.memory.used budget → next.1.memory.used budget ≤ world.limit budget) ∧
    ((∀ size vec owner, op ≠ .fromReserved size vec owner) → (∀ owner sizeHint values, op ≠ .tryExtend owner sizeHint values) →
      ∀ failure, next.2 = .failed failure → next.1.owners = system.owners ∧ next.1.memory.used = system.memory.used) ∧
    (∀ buffer reservation, .buffer buffer ∈ system.owners → buffer.reservation = some reservation →
      reservation.bytes = buffer.vec.capacity * buffer.size) ∧
    (∀ owner sizeHint values buffer, op = .tryExtend owner sizeHint values → system.bufferAt owner = some buffer →
      ∃ grown, next.1.owners = system.owners.set owner (.buffer grown) ∧ buffer.vec.values <+: grown.vec.values) ∧
    ∀ budget, (QuerySystem.run world (ops ++ List.replicate system.owners.length (.drop 0))).memory.used budget = 0 := by
  intro system next
  have hs : Sound system.memory system.owners := sound_run world ops
  have hst : Accounted world system op next := accounted_step hs op
  refine ⟨congrFun hs.used_eq, hst.failure, hst.within, fun hres hext failure hfailed => ?_, ?_, ?_, fun budget => ?_⟩
  · have hown := hst.owners hres hext failure hfailed
    exact ⟨hown, by rw [hst.sound.used_eq, hown, hs.used_eq]⟩
  · exact fun buffer reservation hmem => hs.charged _ hmem reservation
  · rintro owner sizeHint values buffer rfl hbuf
    exact contents_tryExtend hs hbuf
  · rw [(sound_run world _).used_eq, owners_drop_all, drop_length]
    rfl

end Logex
