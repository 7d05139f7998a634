import Logex.QueryMemory

/-!
# Lemmas on query memory

`Covers s frame rs` says that the ledgers hold exactly the charges of the reservations `rs` on top of what everyone else holds, the
frame. Each operation is specified against an arbitrary frame: it accounts for what it changes and leaves the rest.
-/

namespace Logex

open Lib List QueryBuffer
open QueryMemoryReservation (addBytes recordExisting shrink tryGrow)

variable {stage : String} {bytes : Nat} {additional : Nat} {β : Type}

/-- What a reservation holds of a budget. -/
def QueryMemoryReservation.charge (budget : Nat) (reservation : QueryMemoryReservation) : Nat :=
  if reservation.budget = budget then reservation.bytes else 0

/-- The ledgers are what the frame holds together with the given reservations, and fit their width. -/
def Covers (s : QueryMemory) (frame : Nat → Nat) (reservations : List QueryMemoryReservation) : Prop :=
  ∀ budget, s.used budget = frame budget + (reservations.map (·.charge budget)).sum ∧ s.used budget ≤ u128Max

namespace Covers

variable {s s' : QueryMemory} {frame : Nat → Nat} {r : QueryMemoryReservation} {rs : List QueryMemoryReservation}

/-- A reservation can be counted to the frame. -/
theorem shift : Covers s frame (r :: rs) ↔ Covers s (fun bud => frame bud + r.charge bud) rs := by
  simp [Covers, Nat.add_assoc]

/-- So can the last of several. -/
theorem append {rs' : List QueryMemoryReservation} :
    Covers s frame (rs ++ rs') ↔ Covers s (fun bud => frame bud + (rs'.map (·.charge bud)).sum) rs := by
  simp only [Covers, map_append, sum_append]
  exact forall_congr' fun bud => by rw [Nat.add_assoc, Nat.add_comm (List.map _ rs').sum]

/-- The same charges make the same ledgers. -/
theorem used_eq (h : Covers s frame rs) (h' : Covers s' frame rs) : s'.used = s.used :=
  funext fun bud => (h' bud).1.trans (h bud).1.symm

theorem of_used (h : Covers s frame rs) (hu : s'.used = s.used) : Covers s' frame rs := by
  unfold Covers
  rw [hu]
  exact h

theorem bytes_le (h : Covers s frame (r :: rs)) : r.bytes ≤ s.used r.budget := by
  rw [(h r.budget).1, map_cons, sum_cons, QueryMemoryReservation.charge, if_pos rfl]
  omega

/-- A ledger and the reservation on it change together. -/
theorem update (h : Covers s frame (r :: rs)) {bytes used : Nat} (hu : used + r.bytes = s.used r.budget + bytes)
    (hmax : used ≤ u128Max) : Covers { s with used := Function.update s.used r.budget used } frame ({ r with bytes } :: rs) := by
  intro bud
  obtain ⟨heq, hle⟩ := h bud
  simp only [map_cons, sum_cons, QueryMemoryReservation.charge] at heq ⊢
  by_cases hb : r.budget = bud
  · subst hb
    rw [if_pos rfl] at heq ⊢
    rw [Function.update_self]
    exact ⟨by omega, hmax⟩
  · rw [if_neg hb] at heq ⊢
    rw [Function.update_of_ne (Ne.symm hb)]
    exact ⟨heq, hle⟩

end Covers

/-- No ledger grew beyond its limit. -/
def Within (world : QueryWorld) (s s' : QueryMemory) : Prop :=
  ∀ budget, s.used budget < s'.used budget → s'.used budget ≤ world.limit budget

namespace Within

variable {world : QueryWorld} {s s' s'' : QueryMemory}

theorem of_le (h : ∀ bud, s'.used bud ≤ s.used bud) : Within world s s' :=
  fun bud hlt => absurd hlt (not_lt.mpr (h bud))

theorem of_used (h : s'.used = s.used) : Within world s s' := of_le fun bud => (congrFun h bud).le

theorem trans (h : Within world s s') (h' : Within world s' s'') : Within world s s'' := by
  intro bud hlt
  rcases lt_or_ge (s'.used bud) (s''.used bud) with hg | hk
  · exact h' bud hg
  · exact hk.trans (h bud (hlt.trans_le hk))

/-- A change of one ledger to a value within the limit. -/
theorem of_update {bud used : Nat} (h : s'.used = Function.update s.used bud used) (hl : used ≤ world.limit bud) :
    Within world s s' := by
  intro o hlt
  rw [h] at hlt ⊢
  by_cases hother : o = bud
  · subst hother
    rwa [Function.update_self]
  · rw [Function.update_of_ne hother] at hlt
    exact absurd hlt (lt_irrefl _)

end Within

/-! ## Reservations -/

section Reservations

variable {world : QueryWorld} {s : QueryMemory} {frame : Nat → Nat} {r : QueryMemoryReservation} {rs : List QueryMemoryReservation}

/-- What an operation guarantees where it fails: it is not for an underflow, and the charges are as given. -/
def Failed (frame : Nat → Nat) (reservations : List QueryMemoryReservation) (failure : QueryMemoryFailure) (s : QueryMemory) : Prop :=
  failure ≠ .underflow ∧ Covers s frame reservations

variable {E : QueryMemoryFailure → QueryMemory → Prop}

theorem wpE_usedOf {Q : Nat → QueryMemory → Prop} {bud : Nat} : wpE (usedOf bud) Q E s ↔ Q (s.used bud) s := Iff.rfl

theorem wpE_setUsed {Q : Unit → QueryMemory → Prop} {bud used : Nat} :
    wpE (setUsed bud used) Q E s ↔ Q () { s with used := Function.update s.used bud used } := Iff.rfl

section

variable (h : Covers s frame (r :: rs))

include h

/-- The charge of a reservation grows within the width of its ledger. -/
theorem wpE_charge (hmax : s.used r.budget + bytes ≤ u128Max) :
    wpE (do setUsed r.budget (s.used r.budget + bytes); r.addBytes bytes)
      (fun r' s' => Covers s' frame (r' :: rs) ∧ r' = { r with bytes := r.bytes + bytes } ∧
        s'.used = Function.update s.used r.budget (s.used r.budget + bytes)) (Failed frame (r :: rs)) s := by
  have hle := h.bytes_le
  rw [wpE_bind, wpE_setUsed, addBytes, wpE_bind, wpE_failIf]
  exact ⟨fun _ => ⟨h.update (by omega) hmax, rfl, rfl⟩, fun hov => absurd hov (by omega)⟩

theorem wpE_tryGrow : wpE (r.tryGrow world additional)
      (fun r' s' => Covers s' frame (r' :: rs) ∧ r' = { r with bytes := r.bytes + additional } ∧ Within world s s')
      (Failed frame (r :: rs)) s := by
  unfold tryGrow
  rw [wpE_ite]
  refine ⟨fun hz => ⟨h, by rw [hz]; rfl, .of_used rfl⟩, fun _ => ?_⟩
  rw [wpE_bind, wpE_usedOf, wpE_bind, wpE_failIf]
  refine ⟨fun hf => ?_, fun _ => ⟨nofun, h⟩⟩
  exact wpE_imp (wpE_charge h (by omega)) fun r' s' hr => ⟨hr.1, hr.2.1, .of_update hr.2.2 (by omega)⟩

theorem wpE_recordExisting : wpE (r.recordExisting additional)
      (fun r' s' => Covers s' frame (r' :: rs) ∧ r' = { r with bytes := r.bytes + additional } ∧
        s'.used = Function.update s.used r.budget (s.used r.budget + additional)) (Failed frame (r :: rs)) s := by
  have ha : r.recordExisting additional = (do
      let used ← usedOf r.budget
      failIf (u128Max < used + additional) .overflow
      setUsed r.budget (used + additional)
      r.addBytes additional) := by
    simp [recordExisting, addUsed]
  rw [ha, wpE_bind, wpE_usedOf, wpE_bind, wpE_failIf]
  refine ⟨fun hf => ?_, fun _ => ⟨nofun, h⟩⟩
  exact wpE_charge h (by omega)

/-- Releasing part of a charge never underflows. -/
theorem wpE_subUsed (hle : bytes ≤ r.bytes) {E : QueryMemoryFailure → QueryMemory → Prop} :
    wpE (subUsed r.budget bytes) (fun _ s' => Covers s' frame ({ r with bytes := r.bytes - bytes } :: rs) ∧
      ∀ bud, s'.used bud ≤ s.used bud) E s := by
  have hby := h.bytes_le
  unfold subUsed
  rw [wpE_bind, wpE_usedOf, wpE_bind, wpE_failIf]
  refine ⟨fun _ => ⟨h.update (by omega) ((Nat.sub_le _ _).trans (h r.budget).2), fun bud => ?_⟩, fun hu => absurd hu (by omega)⟩
  change Function.update s.used r.budget _ bud ≤ _
  by_cases hb : bud = r.budget
  · subst hb
    rw [Function.update_self]
    exact Nat.sub_le _ _
  · rw [Function.update_of_ne hb]

theorem wpE_shrink :
    wpE (r.shrink bytes) (fun r' s' => Covers s' frame (r' :: rs) ∧ bytes ≤ r.bytes ∧ r' = { r with bytes := r.bytes - bytes } ∧
      ∀ bud, s'.used bud ≤ s.used bud) (Failed frame (r :: rs)) s := by
  unfold shrink
  rw [wpE_bind, wpE_failIf]
  refine ⟨fun hle => ?_, fun _ => ⟨nofun, h⟩⟩
  exact wpE_then (wpE_subUsed h (not_lt.mp hle)) fun _ s' hs => ⟨hs.1, not_lt.mp hle, rfl, hs.2⟩

theorem wpE_drop {E : QueryMemoryFailure → QueryMemory → Prop} :
    wpE r.drop (fun _ s' => Covers s' frame rs ∧ ∀ bud, s'.used bud ≤ s.used bud) E s := by
  refine wpE_imp (wpE_subUsed h le_rfl) fun _ s' hs => ⟨fun bud => ?_, hs.2⟩
  have := hs.1 bud
  rwa [map_cons, sum_cons, QueryMemoryReservation.charge, Nat.sub_self, ite_self, Nat.zero_add] at this

theorem wpE_split :
    wpE (r.split bytes) (fun ps s' => Covers s' frame (ps.1 :: ps.2 :: rs) ∧ s' = s) (Failed frame (r :: rs)) s := by
  unfold QueryMemoryReservation.split
  rw [wpE_bind, wpE_failIf]
  refine ⟨fun hle => ⟨fun bud => ?_, rfl⟩, fun _ => ⟨nofun, h⟩⟩
  obtain ⟨heq, hmax⟩ := h bud
  refine ⟨heq.trans ?_, hmax⟩
  simp only [map_cons, sum_cons, QueryMemoryReservation.charge]
  split
  · omega
  · omega

end

theorem wpE_absorb {o : QueryMemoryReservation} (h : Covers s frame (r :: o :: rs)) :
    wpE (r.absorb o) (fun both s' => Covers s' frame (both.1 :: both.2 :: rs) ∧ s' = s) (Failed frame (r :: o :: rs)) s := by
  unfold QueryMemoryReservation.absorb
  rw [wpE_bind, wpE_failIf]
  refine ⟨fun hs => ?_, fun _ => ⟨nofun, h⟩⟩
  rw [wpE_bind, wpE_failIf]
  refine ⟨fun _ => ⟨fun bud => ?_, rfl⟩, fun _ => ⟨nofun, h⟩⟩
  obtain ⟨heq, hmax⟩ := h bud
  refine ⟨heq.trans ?_, hmax⟩
  simp only [map_cons, sum_cons, QueryMemoryReservation.charge, ← not_not.mp hs]
  split
  · omega
  · omega

theorem wpE_reserve (h : Covers s frame rs) {budget bytes : Nat} : wpE (reserve world budget bytes stage)
      (fun r' s' => Covers s' frame (r' :: rs) ∧ r' = { budget, bytes, stage } ∧ Within world s s') (Failed frame rs) s := by
  have hem : Covers s frame ({ budget, bytes := 0, stage } :: rs) := by
    rw [Covers.shift]
    intro b
    obtain ⟨heq, hmax⟩ := h b
    refine ⟨heq.trans ?_, hmax⟩
    simp [QueryMemoryReservation.charge]
  refine wpE_mono (wpE_tryGrow hem) (fun r' s' hr => ⟨hr.1, by rw [hr.2.1]; simp, hr.2.2⟩) fun e s' he => ⟨he.1, fun b => ?_⟩
  have := he.2 b
  rwa [map_cons, sum_cons, QueryMemoryReservation.charge, ite_self, Nat.zero_add] at this

/-- A reservation that goes out of scope with a failure is released. -/
theorem wpE_orRelease {op : LedgerM β} {Q : β → QueryMemory → Prop}
    (h : wpE op Q (Failed frame (r :: rs)) s) : wpE (orRelease op (some r)) Q (Failed frame rs) s := by
  unfold wpE orRelease at *
  cases hop : op s with
  | ok result s' =>
    rw [hop] at h
    exact h
  | error failure s' =>
    rw [hop] at h
    have hd : wpE r.drop _ (fun _ _ => False) s' := wpE_drop h.2
    unfold wpE at hd
    simp only [Option.elim]
    cases hrel : r.drop s' with
    | ok _ s'' =>
      rw [hrel] at hd
      exact ⟨h.1, hd.1⟩
    | error _ s'' =>
      rw [hrel] at hd
      exact hd.elim

end Reservations

/-! ## Buffers -/

/-- The charge of a buffer is its backing capacity in bytes. -/
def QueryBuffer.Charged {α : Type} (buffer : QueryBuffer α) : Prop :=
  ∀ reservation, buffer.reservation = some reservation → reservation.bytes = buffer.vec.capacity * buffer.size

section Buffers

variable {α : Type} {world : QueryWorld} {s : QueryMemory} {frame : Nat → Nat} {r : QueryMemoryReservation}

theorem arrayBytes_eq_ok {size len bytes : Nat} (h : arrayBytes size len stage = .ok bytes) : bytes = len * size := by
  unfold arrayBytes at h
  split at h
  · exact (Except.ok.inj h).symm
  · nomatch h

theorem arrayBytes_eq_error {size len : Nat} {fai : QueryMemoryFailure}
    (h : arrayBytes size len stage = .error fai) : fai ≠ .underflow := by
  unfold arrayBytes at h
  split at h
  · nomatch h
  · rw [← Except.error.inj h]
    exact nofun

theorem usizeTryFrom_eq_ok {v res : Nat} (h : usizeTryFrom v = .ok res) : res = v := by
  unfold usizeTryFrom at h
  split at h
  · exact (Except.ok.inj h).symm
  · nomatch h

theorem usizeTryFrom_eq_error {v : Nat} {fai : QueryMemoryFailure} (h : usizeTryFrom v = .error fai) : fai ≠ .underflow := by
  unfold usizeTryFrom at h
  split at h
  · nomatch h
  · rw [← Except.error.inj h]
    exact nofun

variable {rs : List QueryMemoryReservation} {vs : List α} {buf : QueryBuffer α}

/-- A computation without effect that can fail while a reservation is held. -/
theorem wpE_orRelease_attempt (h : Covers s frame (r :: rs))
    {x : Except QueryMemoryFailure β} (hx : ∀ fai, x = .error fai → fai ≠ .underflow) :
    wpE (orRelease (attempt x) (some r)) (fun b s' => x = .ok b ∧ s' = s) (Failed frame rs) s :=
  wpE_orRelease (wpE_attempt.mpr ⟨fun _ hb => ⟨hb, rfl⟩, fun fai he => ⟨hx fai he, h⟩⟩)

theorem wpE_allocate {cap : Nat} (h : Covers s frame rs) :
    wpE (allocate world cap) (fun act s' => s'.used = s.used ∧ cap ≤ act) (Failed frame rs) s := by
  unfold allocate
  rw [wpE_bind, wpE_get, wpE_bind, wpE_set, wpE_attempt]
  refine ⟨fun act hact => ⟨rfl, world.allocate_ge _ _ _ (okOr_eq_ok.mp hact)⟩, fun failure hfai => ⟨?_, h.of_used rfl⟩⟩
  cases hreq : world.allocate s.allocations cap with
  | none =>
    rw [hreq] at hfai
    rw [← Except.error.inj hfai]
    exact nofun
  | some act =>
    rw [hreq] at hfai
    nomatch hfai

/-- What a reservation is reconciled to. -/
structure Reconciled (world : QueryWorld) (s s' : QueryMemory) (frame : Nat → Nat) (r r' : QueryMemoryReservation) (actual : Nat) :
    Prop where
  covers : Covers s' frame [r']
  bytes : r'.bytes = actual
  budget : r'.budget = r.budget
  within : Within world s s'

theorem wpE_reconcileUp (h : Covers s frame [r]) {act : Nat} (hact : r.bytes < act) :
    wpE (reconcileUp world r act) (fun r' s' => Reconciled world s s' frame r r' act) (Failed frame []) s := by
  unfold reconcileUp
  refine wpE_then (wpE_orRelease_attempt h fun _ he => usizeTryFrom_eq_error he) ?_
  rintro reserved _ ⟨hres, rfl⟩
  obtain rfl := usizeTryFrom_eq_ok hres
  rw [wpE_bind, wpE_usedOf]
  refine wpE_then (wpE_orRelease (wpE_recordExisting h)) ?_
  rintro grown s₁ ⟨hcov, rfl, hu⟩
  rw [wpE_bind, wpE_usedOf]
  refine wpE_then (wpE_orRelease (Q := fun _ s₂ => s₂ = s₁ ∧ ¬world.limit r.budget < s₁.used r.budget) ?_) ?_
  · rw [wpE_failIf]
    exact ⟨fun hl => ⟨rfl, hl⟩, fun _ => ⟨nofun, hcov⟩⟩
  · rintro _ _ ⟨rfl, hl⟩
    rw [hu, Function.update_self] at hl
    refine ⟨hcov, ?_, rfl, .of_update hu (not_lt.mp hl)⟩
    change r.bytes + (act - r.bytes) = act
    omega

theorem wpE_reconcileDown (h : Covers s frame [r]) {act : Nat} (hact : act < r.bytes) :
    wpE (reconcileDown r act) (fun r' s' => Reconciled world s s' frame r r' act) (Failed frame []) s := by
  unfold reconcileDown
  refine wpE_then (wpE_orRelease_attempt h fun _ he => usizeTryFrom_eq_error he) ?_
  rintro extra _ ⟨hex, rfl⟩
  obtain rfl := usizeTryFrom_eq_ok hex
  refine wpE_imp (wpE_orRelease (wpE_shrink h)) ?_
  rintro r' s₁ ⟨hcov, -, rfl, hu⟩
  refine ⟨hcov, ?_, rfl, .of_le hu⟩
  change r.bytes - (r.bytes - act) = act
  omega

theorem wpE_fromReserved (h : Covers s frame [r]) {size : Nat} {vec : RustVec α} : wpE (fromReserved world size vec (some r))
      (fun buf s' => ∃ r', buf = { size, vec, reservation := some r' } ∧ Reconciled world s s' frame r r' (vec.capacity * size))
      (Failed frame []) s := by
  unfold fromReserved
  refine wpE_then (wpE_orRelease_attempt h fun _ he => arrayBytes_eq_error he) ?_
  rintro actual _ ⟨hact, rfl⟩
  obtain rfl := arrayBytes_eq_ok hact
  rw [wpE_ite, wpE_ite]
  refine ⟨fun hup => ?_, fun hnot => ⟨fun hd => ?_, fun hnot' => ?_⟩⟩
  · exact wpE_then (wpE_reconcileUp h hup) fun r' _ hr => ⟨r', rfl, hr⟩
  · exact wpE_then (wpE_reconcileDown h hd) fun r' _ hr => ⟨r', rfl, hr⟩
  · exact ⟨r, rfl, h, by omega, rfl, .of_used rfl⟩

/-- A buffer with a charge on a budget, and room for some elements. -/
theorem wpE_tryWithCapacity_accounted (h : Covers s frame []) {size cap bud : Nat} :
    wpE (tryWithCapacity world size cap (some bud) stage : LedgerM (QueryBuffer α))
      (fun buf s' => ∃ r', buf.reservation = some r' ∧ r'.budget = bud ∧ Covers s' frame [r'] ∧ buf.Charged ∧
        buf.size = size ∧ buf.vec.values = [] ∧ cap ≤ buf.vec.capacity ∧ Within world s s') (Failed frame []) s := by
  unfold tryWithCapacity
  rw [wpE_bind, wpE_attempt]
  refine ⟨fun bytes hb => ?_, fun failure he => ⟨arrayBytes_eq_error he, h⟩⟩
  dsimp only
  rw [← bind_pure_comp, wpE_bind, wpE_bind]
  refine wpE_imp (wpE_reserve h) ?_
  rintro r₁ s₁ ⟨hcov, rfl, hwit⟩
  change wpE (orRelease (allocate world cap) (some _) >>= _) _ _ s₁
  refine wpE_then (wpE_orRelease (wpE_allocate hcov)) ?_
  rintro actual s₂ ⟨hu, hr⟩
  refine wpE_imp (wpE_fromReserved (hcov.of_used hu)) ?_
  rintro buf s₃ ⟨r', rfl, hrec⟩
  refine ⟨r', rfl, hrec.budget, hrec.covers, fun r₂ hr₂ => ?_, rfl, rfl, hr, (hwit.trans (.of_used hu)).trans hrec.within⟩
  rw [← Option.some.inj hr₂]
  exact hrec.bytes

theorem wpE_tryWithCapacity_unaccounted (h : Covers s frame []) {size cap : Nat} :
    wpE (tryWithCapacity world size cap none stage : LedgerM (QueryBuffer α))
      (fun buf s' => buf.reservation = none ∧ Covers s' frame [] ∧ Within world s s') (Failed frame []) s := by
  unfold tryWithCapacity
  rw [wpE_bind, wpE_attempt]
  refine ⟨fun bytes hb => ?_, fun failure he => ⟨arrayBytes_eq_error he, h⟩⟩
  dsimp only
  rw [pure_bind, wpE_bind]
  have hnot : orRelease (allocate world cap) none = allocate world cap := by
    funext t
    unfold orRelease
    cases allocate world cap t with
    | ok _ _ | error _ _ => rfl
  rw [hnot]
  exact wpE_imp (wpE_allocate h) fun _ s' hs => ⟨rfl, h.of_used hs.1, .of_used hs.1⟩

/-- What growing a buffer guarantees: the same contents with room for more, charged exactly. -/
structure GrownBuffer (world : QueryWorld) (s s' : QueryMemory) (frame : Nat → Nat) (buffer grown : QueryBuffer α) (additional : Nat) :
    Prop where
  covers : Covers s' frame grown.reservation.toList
  charged : grown.Charged
  size : grown.size = buffer.size
  values : grown.vec.values = buffer.vec.values
  room : buffer.vec.values.length + additional ≤ grown.vec.capacity
  within : Within world s s'

theorem RustVec.extend_capacity {vec : RustVec α} (h : vec.values.length + vs.length ≤ vec.capacity) :
    (vec.extend vs).capacity = vec.capacity := max_eq_left h

theorem wpE_replaceWith (h : Covers s frame [r]) {tgt additional : Nat} (htgt : buf.vec.values.length + additional ≤ tgt) :
    wpE (buf.replaceWith world tgt r) (fun grown s' => GrownBuffer world s s' frame buf grown additional) (Failed frame [r]) s := by
  unfold replaceWith
  refine wpE_seq (wpE_tryWithCapacity_accounted (Covers.shift.mp h)) ?_ fun _ _ he => ⟨he.1, Covers.shift.mpr he.2⟩
  rintro rep s₁ ⟨r', hr', hbud, hcov, hchg, hs, hv, hr, hwit⟩
  refine wpE_then (wpE_drop (Covers.shift.mpr hcov)) ?_
  rintro _ s₂ ⟨hcov₂, hu⟩
  have hf : rep.vec.values.length + buf.vec.values.length ≤ rep.vec.capacity := by
    rw [hv, length_nil]
    omega
  have hcap := RustVec.extend_capacity hf
  refine ⟨?_, fun r₂ hr₂ => ?_, hs, ?_, ?_, hwit.trans (.of_le hu)⟩
  · change Covers s₂ frame rep.reservation.toList
    rw [hr']
    exact hcov₂
  · change r₂.bytes = (rep.vec.extend buf.vec.values).capacity * rep.size
    rw [hcap]
    exact hchg r₂ hr₂
  · change rep.vec.values ++ buf.vec.values = buf.vec.values
    rw [hv, nil_append]
  · change _ ≤ (rep.vec.extend buf.vec.values).capacity
    omega

theorem wpE_tryReserve (h : Covers s frame buf.reservation.toList) (hchg : buf.Charged) :
    wpE (buf.tryReserve world additional) (fun grown s' => GrownBuffer world s s' frame buf grown additional)
      (Failed frame buf.reservation.toList) s := by
  unfold tryReserve
  rw [wpE_bind, wpE_failIf]
  refine ⟨fun _ => ?_, fun _ => ⟨nofun, h⟩⟩
  rw [wpE_ite]
  refine ⟨fun hro => ⟨h, hchg, rfl, rfl, hro, .of_used rfl⟩, fun _ => ?_⟩
  cases hr : buf.reservation with
  | none =>
    rw [hr] at h
    refine wpE_then (wpE_allocate h) fun capacity s' hs => ?_
    refine ⟨h.of_used hs.1, fun r hr' => (nomatch hr'), rfl, rfl, ?_, .of_used hs.1⟩
    exact hs.2.trans (le_max_right _ _)
  | some r =>
    rw [hr] at h
    exact wpE_replaceWith h (le_max_right _ _)

theorem wpE_tryAppendValues (h : Covers s frame buf.reservation.toList) (hchg : buf.Charged) :
    wpE (buf.tryAppendValues world vs) (fun gro s' => Covers s' frame gro.reservation.toList ∧ gro.Charged ∧
        gro.vec.values = buf.vec.values ++ vs ∧ Within world s s') (Failed frame buf.reservation.toList) s := by
  unfold tryAppendValues
  refine wpE_then (wpE_tryReserve h hchg) fun gro s' hg => ?_
  have hcap : (gro.vec.extend vs).capacity = gro.vec.capacity :=
    RustVec.extend_capacity (by rw [hg.values]; exact hg.room)
  refine ⟨hg.covers, fun r hr => ?_, congrArg (· ++ vs) hg.values, hg.within⟩
  rw [hcap]
  exact hg.charged r hr

theorem wpE_tryResize (h : Covers s frame buf.reservation.toList) (hchg : buf.Charged) {len : Nat} {v : α} :
    wpE (buf.tryResize world len v) (fun gro s' => Covers s' frame gro.reservation.toList ∧ gro.Charged ∧
        Within world s s') (Failed frame buf.reservation.toList) s := by
  unfold tryResize
  refine wpE_then (wpE_tryReserve h hchg) fun gro s' hg => ?_
  rw [wpE_ite]
  refine ⟨fun _ => ⟨hg.covers, hg.charged, hg.within⟩, fun hlen => ⟨hg.covers, fun r hr => ?_, hg.within⟩⟩
  have hcap : (gro.vec.extend (List.replicate (len - gro.vec.values.length) v)).capacity = gro.vec.capacity := by
    refine RustVec.extend_capacity ?_
    rw [length_replicate, hg.values]
    exact hg.room
  rw [hcap]
  exact hg.charged r hr

theorem wpE_outcome {op : LedgerM β} {Q : Except QueryMemoryFailure β → QueryMemory → Prop}
    {E : QueryMemoryFailure → QueryMemory → Prop} (h : wpE op (fun b => Q (.ok b)) (fun e => Q (.error e)) s) :
    wpE (outcome op) Q E s := by
  unfold wpE outcome at *
  cases hop : op s with
  | ok b s' | error e s' =>
    rw [hop] at h
    exact h

/-- What `try_extend` leaves: the old contents at the front, charged exactly. -/
structure Extended (world : QueryWorld) (s : QueryMemory) (frame : Nat → Nat) (buffer : QueryBuffer α)
    (result : QueryBuffer α × Option QueryMemoryFailure) (s' : QueryMemory) : Prop where
  covers : Covers s' frame result.1.reservation.toList
  charged : result.1.Charged
  values : buffer.vec.values <+: result.1.vec.values
  failure : result.2 ≠ some .underflow
  within : Within world s s'

/-- The loop keeps every element pushed before a failure. -/
theorem wpE_pushAll : ∀ {s : QueryMemory} {buf : QueryBuffer α}, Covers s frame buf.reservation.toList → buf.Charged →
      wpE (buf.pushAll world vs) (Extended world s frame buf) (fun _ _ => False) s := by
  induction vs with
  | nil => exact fun h hchg => ⟨h, hchg, prefix_refl _, nofun, .of_used rfl⟩
  | cons value rest ih =>
    intro s buf h hchg
    unfold QueryBuffer.pushAll
    rw [wpE_bind]
    refine wpE_outcome (wpE_mono (wpE_tryAppendValues h hchg) ?_ ?_)
    · rintro grown s₁ ⟨hcov, hg, hv, hwit⟩
      refine wpE_imp (ih hcov hg) fun result s₂ hres => ?_
      have hpre := hres.values
      rw [hv] at hpre
      exact ⟨hres.covers, hres.charged, (prefix_append _ _).trans hpre, hres.failure, hwit.trans hres.within⟩
    · rintro failure s₁ ⟨hne, hcov⟩
      exact ⟨hcov, hchg, prefix_refl _, fun he => hne (Option.some.inj he), .of_used (h.used_eq hcov)⟩

theorem wpE_tryExtend (h : Covers s frame buf.reservation.toList) (hchg : buf.Charged)
    {sh : Nat} : wpE (buf.tryExtend world sh vs) (Extended world s frame buf) (fun _ _ => False) s := by
  unfold tryExtend
  rw [wpE_bind]
  refine wpE_outcome (wpE_mono (wpE_tryReserve h hchg) (fun grown s₁ hg => ?_) ?_)
  · refine wpE_imp (wpE_pushAll hg.covers hg.charged) fun result s₂ hres => ?_
    exact ⟨hres.covers, hres.charged, hg.values ▸ hres.values, hres.failure, hg.within.trans hres.within⟩
  · rintro failure s₁ ⟨hne, hcov⟩
    exact ⟨hcov, hchg, prefix_refl _, fun he => hne (Option.some.inj he), .of_used (h.used_eq hcov)⟩

end Buffers

end Logex
