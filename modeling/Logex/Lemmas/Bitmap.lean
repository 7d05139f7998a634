import Logex.Index.Bitmap

/-!
# Row bitmaps: set operations and decoding

The checks of `decode_bitmap` pass on everything the `roaring` crate serializes, on the general route and on both routes for dense
containers, so that decoding returns the bitmap that was written.
-/

namespace Logex

open Lib List

namespace RoaringBitmap

/-! ## Sets -/

theorem ext_rows {left right : RoaringBitmap} (h : left.rows = right.rows) : left = right := by
  cases left
  cases right
  congr

theorem not_mem_new (row : UInt32) : row ∉ new := not_mem_nil

theorem mem_insert {bm : RoaringBitmap} {row o : UInt32} : o ∈ bm.insert row ↔ o = row ∨ o ∈ bm := by
  change o.toNat ∈ insertRow row.toNat bm.rows ↔ _
  rw [mem_insertRow, UInt32.toNat_inj]
  exact Iff.rfl

theorem mem_union {left right : RoaringBitmap} {row : UInt32} : row ∈ left.union right ↔ row ∈ left ∨ row ∈ right := by
  change row.toNat ∈ right.rows.foldr insertRow left.rows ↔ _
  rw [mem_foldr_insertRow, or_comm]
  exact Iff.rfl

/-! ## Containers -/

/-- The rows of a container. -/
def containerRows (container : Nat × List Nat) : List Nat := container.2.map (container.1 * 65536 + ·)

theorem flatMap_containers (rows : List Nat) : (containers rows).flatMap containerRows = rows := by
  induction rows with
  | nil => rfl
  | cons row rows ih =>
    have hrow : row / 65536 * 65536 + row % 65536 = row := by omega
    rw [containers]
    split
    · next hnil =>
      rw [hnil] at ih
      simp [containerRows, hrow, ← ih]
    · next key values rest hc =>
      rw [hc] at ih
      split
      · next heq =>
        subst heq
        rw [flatMap_cons] at ih ⊢
        simp only [containerRows, map_cons, cons_append] at ih ⊢
        rw [ih, hrow]
      · rw [flatMap_cons, ih]
        simp [containerRows, hrow]

/-- What grouping increasing row IDs gives. -/
structure ContainersOk (stores : List (Nat × List Nat)) : Prop where
  keys : (stores.map Prod.fst).Pairwise (· < ·)
  bounded : ∀ store ∈ stores, store.1 < 65536
  nonempty : ∀ store ∈ stores, store.2 ≠ []
  sorted : ∀ store ∈ stores, store.2.Pairwise (· < ·)
  values : ∀ store ∈ stores, ∀ value ∈ store.2, value < 65536

theorem ContainersOk.tail {store : Nat × List Nat} {stores : List (Nat × List Nat)} (h : ContainersOk (store :: stores)) :
    ContainersOk stores where
  keys := (pairwise_cons.mp h.keys).2
  bounded other hmem := h.bounded other (mem_cons_of_mem _ hmem)
  nonempty other hmem := h.nonempty other (mem_cons_of_mem _ hmem)
  sorted other hmem := h.sorted other (mem_cons_of_mem _ hmem)
  values other hmem := h.values other (mem_cons_of_mem _ hmem)

theorem containersOk_containers {rows : List Nat} (hsrt : rows.Pairwise (· < ·)) (hbou : ∀ row ∈ rows, row < 2 ^ 32) :
    ContainersOk (containers rows) := by
  induction rows with
  | nil => constructor <;> simp [containers]
  | cons row rows ih =>
    obtain ⟨hf, hr⟩ := pairwise_cons.mp hsrt
    have hok := ih hr fun o hot => hbou o (mem_cons_of_mem _ hot)
    have hrow := hbou row mem_cons_self
    -- Every value of a later container belongs to a later row.
    have hl : ∀ store ∈ containers rows, ∀ v ∈ store.2, row < store.1 * 65536 + v := by
      intro store hs v hv
      refine hf _ ?_
      rw [← flatMap_containers rows]
      exact mem_flatMap.mpr ⟨store, hs, mem_map.mpr ⟨v, hv, rfl⟩⟩
    have hkey : ∀ store ∈ containers rows, row / 65536 ≤ store.1 := by
      intro store hs
      obtain ⟨v, hv⟩ := exists_mem_of_ne_nil _ (hok.nonempty store hs)
      have hlt := hl store hs v hv
      have hsm := hok.values store hs v hv
      omega
    rw [containers]
    split
    · constructor <;> simp <;> omega
    · next key vs rest hc =>
      rw [hc] at hok hl hkey
      split
      · next heq =>
        have hva : ∀ v ∈ vs, row % 65536 < v := by
          intro v hv
          have hlt := hl _ mem_cons_self v hv
          omega
        have ht := hok.tail
        constructor
        · exact hok.keys
        · exact forall_mem_cons.mpr ⟨hok.bounded (key, vs) mem_cons_self, ht.bounded⟩
        · exact forall_mem_cons.mpr ⟨cons_ne_nil _ _, ht.nonempty⟩
        · exact forall_mem_cons.mpr ⟨pairwise_cons.mpr ⟨hva, hok.sorted _ mem_cons_self⟩, ht.sorted⟩
        · refine forall_mem_cons.mpr ⟨forall_mem_cons.mpr ⟨Nat.mod_lt _ (by omega), ?_⟩, ht.values⟩
          exact hok.values _ mem_cons_self
      · next hne =>
        constructor
        · rw [map_cons, pairwise_cons]
          refine ⟨fun o hot => ?_, hok.keys⟩
          obtain ⟨store, hs, rfl⟩ := mem_map.mp hot
          have hle := hkey store hs
          rcases mem_cons.mp hs with rfl | hs
          · exact Nat.lt_of_le_of_ne hle hne
          · have hlt := (pairwise_cons.mp hok.keys).1 store.1 (mem_map.mpr ⟨store, hs, rfl⟩)
            have hh := hkey (key, vs) mem_cons_self
            exact lt_of_le_of_lt hh hlt
        · exact forall_mem_cons.mpr ⟨by simp only; omega, hok.bounded⟩
        · exact forall_mem_cons.mpr ⟨cons_ne_nil _ _, hok.nonempty⟩
        · exact forall_mem_cons.mpr ⟨pairwise_singleton _ _, hok.sorted⟩
        · refine forall_mem_cons.mpr ⟨?_, hok.values⟩
          intro v hv
          rw [mem_singleton.mp hv]
          exact Nat.mod_lt _ (by omega)

/-- Increasing numbers below a bound are no more than the bound. -/
theorem length_le_of_pairwise {list : List Nat} {bou : Nat} (hsrt : list.Pairwise (· < ·)) (hlt : ∀ n ∈ list, n < bou) :
    list.length ≤ bou := by
  have hno : list.Nodup := hsrt.imp ne_of_lt
  have hsub : list.toFinset ⊆ Finset.range bou := fun n hn => Finset.mem_range.mpr (hlt n (mem_toFinset.mp hn))
  rw [← toFinset_card_of_nodup hno, ← Finset.card_range bou]
  exact Finset.card_le_card hsub

theorem ContainersOk.length_le {stores : List (Nat × List Nat)} (h : ContainersOk stores) : stores.length ≤ 65536 := by
  have hk := @length_le_of_pairwise _ 65536 h.keys fun key hkey => by
    obtain ⟨store, hs, rfl⟩ := mem_map.mp hkey
    exact h.bounded store hs
  rwa [length_map] at hk

/-! ## Stores -/

theorem length_flatMap_leBytes (n : Nat) (vs : List Nat) : (vs.flatMap (leBytes n)).length = vs.length * n := by
  induction vs with
  | nil => simp
  | cons value vs ih => rw [flatMap_cons, length_append, length_leBytes, ih, length_cons, Nat.succ_mul, Nat.add_comm]

theorem length_storeBytes (vs : List Nat) : (storeBytes vs).length = if vs.length ≤ 4096 then vs.length * 2 else 8192 := by
  unfold storeBytes
  split
  · exact length_flatMap_leBytes 2 vs
  · rw [length_foldl_setBit, length_replicate]

theorem length_storeBytes_le (vs : List Nat) : (storeBytes vs).length ≤ 8192 := by
  rw [length_storeBytes]
  split <;> omega

theorem length_flatMap_storeBytes_le (stores : List (Nat × List Nat)) :
    (stores.flatMap fun store => storeBytes store.2).length ≤ stores.length * 8192 := by
  induction stores with
  | nil => simp
  | cons store stores ih =>
    have hs := length_storeBytes_le store.2
    rw [flatMap_cons, length_append, length_cons]
    omega

/-- A dense store holds its values. -/
theorem fromLsb0Bytes_storeBytes {key : Nat} {vs : List Nat} (hkey : key < 65536) (hsrt : vs.Pairwise (· < ·))
    (hv : ∀ v ∈ vs, v < 65536) (hd : 4096 < vs.length) :
    (fromLsb0Bytes (key * 65536) (storeBytes vs)).rows = containerRows (key, vs) := by
  have hleh : (storeBytes vs).length = 8192 := by rw [length_storeBytes, if_neg (by omega)]
  have hb : (List.range ((storeBytes vs).length * 8)).filter (testBit (storeBytes vs)) = vs := by
    refine (pairwise_lt_range.filter _).eq_of_mem_iff hsrt fun v => ?_
    rw [mem_filter, List.mem_range, hleh, storeBytes, if_neg (by omega), testBit_foldl_setBit, testBit_replicate_zero]
    · exact ⟨fun h => h.2.resolve_right Bool.false_ne_true, fun h => ⟨hv v h, Or.inl h⟩⟩
    · intro i hi
      have hlt := hv i hi
      rw [length_replicate]
      omega
  change List.filter _ (List.map _ ((List.range ((storeBytes vs).length * 8)).filter (testBit (storeBytes vs)))) = _
  rw [hb]
  refine filter_eq_self.mpr fun row hrow => ?_
  obtain ⟨v, hva, rfl⟩ := mem_map.mp hrow
  have hlt := hv v hva
  exact decide_eq_true (by omega)

end RoaringBitmap

/-! ## Decoding what was serialized -/

open RoaringBitmap

/-- Reading the middle of three parts. -/
theorem takeBytes_eq {data pre mid post : Bytes} {p len : Nat} (hd : data = pre ++ (mid ++ post))
    (hpos : pre.length = p) (hleh : mid.length = len) : takeBytes data p len = .ok (mid, p + len) := by
  subst hd hpos hleh
  unfold takeBytes
  rw [rejectIf_bind]
  refine ⟨by simp only [length_append]; omega, ?_⟩
  rw [drop_left, take_left]
  rfl

theorem take_description (store : Nat × List Nat) : (description store).take 2 = leBytes 2 store.1 := take_left' (length_leBytes 2 _)

theorem drop_description (store : Nat × List Nat) : (description store).drop 2 = leBytes 2 (store.2.length - 1) :=
  drop_left' (length_leBytes 2 _)

theorem chunksOfFour_append {chu rest : Bytes} (h : chu.length = 4) : chunksOfFour (chu ++ rest) = chu :: chunksOfFour rest := by
  match chu, h with
  | [_, _, _, _], _ => rfl

@[simp] theorem length_description (store : Nat × List Nat) : (description store).length = 4 := by
  simp [description]

theorem chunksOfFour_flatMap_description (stores : List (Nat × List Nat)) :
    chunksOfFour (stores.flatMap description) = stores.map description := by
  induction stores with
  | nil => rfl
  | cons store stores ih => rw [flatMap_cons, chunksOfFour_append (length_description store), ih, map_cons]

theorem length_flatMap_description (stores : List (Nat × List Nat)) : (stores.flatMap description).length = stores.length * 4 := by
  induction stores with
  | nil => rfl
  | cons store stores ih => rw [flatMap_cons, length_append, length_description, ih, length_cons, Nat.succ_mul, Nat.add_comm]

theorem length_storeOffsets (a : Nat) (stores : List (Nat × List Nat)) : (storeOffsets a stores).length = stores.length := by
  induction stores generalizing a with
  | nil => rfl
  | cons store stores ih => rw [storeOffsets, length_cons, ih, length_cons]

section Store

variable {store : Nat × List Nat} {stores : List (Nat × List Nat)} (h : ContainersOk (store :: stores))

include h

theorem RoaringBitmap.ContainersOk.card_pos : 0 < store.2.length := length_pos_of_ne_nil (h.nonempty store mem_cons_self)

theorem RoaringBitmap.ContainersOk.card_le : store.2.length ≤ 65536 :=
  length_le_of_pairwise (h.sorted store mem_cons_self) (h.values store mem_cons_self)

theorem RoaringBitmap.ContainersOk.key_eq : ofLeBytes ((description store).take 2) = store.1 := by
  rw [take_description, ofLeBytes_leBytes]
  exact h.bounded store mem_cons_self

theorem RoaringBitmap.ContainersOk.card_eq : ofLeBytes ((description store).drop 2) + 1 = store.2.length := by
  have hpos := h.card_pos
  have hle := h.card_le
  rw [drop_description, ofLeBytes_leBytes (by omega)]
  omega

theorem RoaringBitmap.ContainersOk.decodeDense (hd : 4096 < store.2.length) :
    decodeDenseContainer (description store) (storeBytes store.2) =
      .ok (fromLsb0Bytes (store.1 * 65536) (storeBytes store.2)) := by
  have hr := fromLsb0Bytes_storeBytes (h.bounded store mem_cons_self) (h.sorted store mem_cons_self)
    (h.values store mem_cons_self) hd
  unfold decodeDenseContainer
  rw [h.key_eq, h.card_eq, rejectIf_bind, hr]
  refine ⟨?_, rfl⟩
  rw [containerRows, length_map]
  exact fun hne => hne rfl

end Store

theorem decodeDenseContainers_eq {stores : List (Nat × List Nat)} (h : ContainersOk stores) (hd : ∀ store ∈ stores, 4096 < store.2.length) :
    ∃ bm, decodeDenseContainers (stores.map description) (stores.flatMap fun store => storeBytes store.2) = .ok bm ∧
      ∀ row, row ∈ bm.rows ↔ row ∈ stores.flatMap containerRows := by
  induction stores with
  | nil => exact ⟨.new, rfl, fun row => Iff.rfl⟩
  | cons store stores ih =>
    obtain ⟨hf, hr⟩ := forall_mem_cons.mp hd
    obtain ⟨bm, hbm, hmem⟩ := ih h.tail hr
    have hleh : (storeBytes store.2).length = 8192 := by rw [length_storeBytes, if_neg (by omega)]
    refine ⟨(fromLsb0Bytes (store.1 * 65536) (storeBytes store.2)).union bm, ?_, fun row => ?_⟩
    · rw [map_cons, flatMap_cons, decodeDenseContainers, take_left' hleh, drop_left' hleh, h.decodeDense hf, hbm]
      rfl
    · rw [flatMap_cons, mem_append, ← fromLsb0Bytes_storeBytes (h.bounded store mem_cons_self)
        (h.sorted store mem_cons_self) (h.values store mem_cons_self) hf, ← hmem]
      change row ∈ bm.rows.foldr insertRow _ ↔ _
      rw [mem_foldr_insertRow, or_comm]

/-- The loop over descriptions accepts consecutive stores and notices whether all of them are dense. -/
theorem scanContainers_eq {data off : Bytes} {stores : List (Nat × List Nat)} (h : ContainersOk stores) {i : Nat} {scan : ContainerScan}
    {pre : Bytes} (hd : data = pre ++ stores.flatMap fun store => storeBytes store.2) (hpre : pre.length = scan.position)
    (hof : off.drop (i * 4) = (storeOffsets scan.position stores).flatMap (leBytes 4)) (hs : data.length < 2 ^ 32)
    (hprs : ∀ previous, scan.previous = some previous → ∀ store ∈ stores, previous < store.1) :
    ∃ previous, scanContainers data (some off) none (stores.map description) i scan =
      .ok { position := data.length, denseOnly := scan.denseOnly && stores.all fun store => decide (4096 < store.2.length), previous } := by
  induction stores generalizing i scan pre with
  | nil =>
    refine ⟨scan.previous, ?_⟩
    rw [flatMap_nil, append_nil] at hd
    rw [map_nil, scanContainers, hd, hpre, all_nil, Bool.and_true]
  | cons store stores ih =>
    rw [flatMap_cons] at hd
    have hle : scan.position < 2 ^ 32 := by
      rw [hd, length_append] at hs
      omega
    have hleS := length_storeBytes store.2
    have hoff : ofLeBytes ((off.drop (i * 4)).take 4) = scan.position := by
      rw [hof, storeOffsets, flatMap_cons, take_left' (length_leBytes 4 _), ofLeBytes_leBytes hle]
    have hkey : ¬(scan.previous.any fun previous => decide (store.1 ≤ previous)) = true := by
      rw [Option.any_eq_true]
      rintro ⟨previous, hp, hle⟩
      have hlt := hprs previous hp store mem_cons_self
      exact absurd (of_decide_eq_true hle) (by omega)
    have hst : scanContainer data (some off) none scan i (description store) = .ok
        { position := scan.position + (storeBytes store.2).length, denseOnly := scan.denseOnly && decide (4096 < store.2.length),
          previous := some store.1 } := by
      unfold scanContainer
      rw [h.key_eq, h.card_eq, rejectIf_bind, rejectIf_bind]
      refine ⟨hkey, by simp [hoff], ?_⟩
      rw [if_neg (by simp)]
      by_cases hde : store.2.length ≤ 4096
      · rw [if_pos hde, takeBytes_eq hd hpre (by rw [hleS, if_pos hde]), hleS, if_pos hde,
          decide_eq_false (by omega), Bool.and_false]
        rfl
      · rw [if_neg hde, takeBytes_eq hd hpre (by rw [hleS, if_neg hde]), hleS, if_neg hde,
          decide_eq_true (by omega), Bool.and_true]
        rfl
    have hn : off.drop ((i + 1) * 4) = (storeOffsets (scan.position + (storeBytes store.2).length) stores).flatMap (leBytes 4) := by
      rw [Nat.succ_mul, ← drop_drop, hof, storeOffsets, flatMap_cons, drop_left' (length_leBytes 4 _)]
    have hl : ∀ previous, some store.1 = some previous → ∀ o ∈ stores, previous < o.1 := by
      rintro _ ⟨⟩ o hother
      exact (pairwise_cons.mp h.keys).1 o.1 (mem_map.mpr ⟨o, hother, rfl⟩)
    obtain ⟨previous, hr⟩ := @ih h.tail (i + 1)
      { position := scan.position + (storeBytes store.2).length, denseOnly := scan.denseOnly && decide (4096 < store.2.length),
        previous := some store.1 }
      (pre ++ storeBytes store.2) (by rw [hd, List.append_assoc]) (by rw [length_append, hpre]) hn hl
    refine ⟨previous, ?_⟩
    rw [map_cons, scanContainers, bind_eq_ok]
    refine ⟨_, hst, ?_⟩
    rw [hr, all_cons, Bool.and_assoc]

/-- The stores of a bitmap. -/
theorem RoaringBitmap.containersOk (bm : RoaringBitmap) : ContainersOk (containers bm.rows) :=
  containersOk_containers bm.sorted bm.bounded

theorem length_flatMap_storeOffsets (a : Nat) (stores : List (Nat × List Nat)) :
    ((storeOffsets a stores).flatMap (leBytes 4)).length = stores.length * 4 := by
  rw [length_flatMap_leBytes, length_storeOffsets]

theorem RoaringBitmap.length_serializeInto (bm : RoaringBitmap) : bm.serializeInto.length = 8 + 8 * (containers bm.rows).length +
      ((containers bm.rows).flatMap fun store => storeBytes store.2).length := by
  simp only [serializeInto, length_append, length_leBytes, length_flatMap_description, length_flatMap_storeOffsets]
  omega

/-- A payload has a header and fits its length field. -/
theorem RoaringBitmap.serializedSize_bounds (bm : RoaringBitmap) : 8 ≤ bm.serializedSize ∧ bm.serializedSize < 2 ^ 32 := by
  have hc := bm.containersOk.length_le
  have hsto := length_flatMap_storeBytes_le (containers bm.rows)
  rw [serializedSize, bm.length_serializeInto]
  omega

/-- Dense payloads decode to the bitmap they were made from. -/
theorem decodeDenseBitmaps_eq {bm : RoaringBitmap} (hd : ∀ store ∈ containers bm.rows, 4096 < store.2.length) :
    decodeDenseBitmaps ((containers bm.rows).flatMap description) ((containers bm.rows).flatMap fun store => storeBytes store.2) =
      .ok bm := by
  have hok := bm.containersOk
  have hf := flatMap_containers bm.rows
  unfold decodeDenseBitmaps
  rw [chunksOfFour_flatMap_description]
  split
  · next des' hsin =>
    obtain ⟨store, hsto, rfl⟩ := map_eq_singleton_iff.mp hsin
    rw [hsto] at hok hd hf ⊢
    rw [flatMap_cons, flatMap_nil, append_nil] at hf ⊢
    rw [hok.decodeDense (hd store mem_cons_self)]
    refine congrArg _ (ext_rows ?_)
    rw [fromLsb0Bytes_storeBytes (hok.bounded store mem_cons_self) (hok.sorted store mem_cons_self)
      (hok.values store mem_cons_self) (hd store mem_cons_self)]
    exact hf
  · obtain ⟨dec, hdec, hmem⟩ := decodeDenseContainers_eq hok hd
    rw [hdec]
    refine congrArg _ (ext_rows (dec.sorted.eq_of_mem_iff bm.sorted fun row => ?_))
    rw [hmem, hf]

/-- A count field read together with the cookie before it. -/
theorem ofLeBytes_cookie {n : Nat} (hc : n < 2 ^ 32) : ofLeBytes (leBytes 4 12346 ++ leBytes 4 n) = 12346 + 2 ^ 32 * n := by
  have hpow : 256 ^ 4 = 2 ^ 32 := by decide
  rw [ofLeBytes_append, length_leBytes, ofLeBytes_leBytes (by omega), ofLeBytes_leBytes hc, hpow]

section Decode

variable (c : RoaringCodec) (bm : RoaringBitmap)

/-- The parts of a payload. -/
theorem serializeInto_eq {stores : List (Nat × List Nat)} (hsto : containers bm.rows = stores) :
    bm.serializeInto = leBytes 4 12346 ++ (leBytes 4 stores.length ++ (stores.flatMap description ++
      ((storeOffsets (8 + 8 * stores.length) stores).flatMap (leBytes 4) ++ stores.flatMap fun store => storeBytes store.2))) := by
  simp [serializeInto, hsto]

theorem take_serializeInto : bm.serializeInto.take 8 = leBytes 4 12346 ++ leBytes 4 (containers bm.rows).length := by
  rw [serializeInto_eq bm rfl, ← List.append_assoc]
  exact take_left' (by simp)

theorem bitmapHeader_serializeInto : bitmapHeader bm.serializeInto = .ok ((containers bm.rows).length, true, none, 8) := by
  have hc := bm.containersOk.length_le
  have hd := serializeInto_eq bm rfl
  have hcoo : takeBytes bm.serializeInto 0 4 = .ok (leBytes 4 12346, 4) :=
    takeBytes_eq ((nil_append _).trans hd.symm).symm rfl (length_leBytes 4 _)
  have hcoB : takeBytes bm.serializeInto 4 4 = .ok (leBytes 4 (containers bm.rows).length, 8) :=
    takeBytes_eq hd (length_leBytes 4 _) (length_leBytes 4 _)
  refine bind_eq_ok.mpr ⟨_, hcoo, ?_⟩
  dsimp only
  refine bind_eq_ok.mpr ⟨_, hcoB, ?_⟩
  rw [ofLeBytes_leBytes (by omega)]
  rfl

/-- The route for one ordinary container. -/
theorem decodeBitmap_one {store : Nat × List Nat} (hsto : containers bm.rows = [store]) :
    decodeBitmap c bm.serializeInto = .ok bm := by
  have hok := hsto ▸ bm.containersOk
  have hleh : bm.serializeInto.length = 16 + (storeBytes store.2).length := by
    rw [bm.length_serializeInto, hsto]
    simp
  have hs : bm.serializeInto =
      (leBytes 4 12346 ++ leBytes 4 1) ++ (leBytes 2 store.1 ++ (leBytes 2 (store.2.length - 1) ++ (leBytes 4 16 ++ storeBytes store.2))) := by
    rw [serializeInto_eq bm hsto]
    simp [storeOffsets, description]
  have hhdr : bm.serializeInto.take 16 =
      (leBytes 4 12346 ++ leBytes 4 1) ++ (leBytes 2 store.1 ++ (leBytes 2 (store.2.length - 1) ++ leBytes 4 16)) := by
    rw [hs, ← List.append_assoc, ← List.append_assoc, ← List.append_assoc, take_left' (by simp)]
    simp
  have hpay : bm.serializeInto.drop 16 = storeBytes store.2 := by
    rw [hs, ← List.append_assoc, ← List.append_assoc, ← List.append_assoc]
    exact drop_left' (by simp)
  have hdes : ((bm.serializeInto.take 16).drop 8).take 4 = description store := by
    rw [hhdr, drop_left' (by simp), ← List.append_assoc]
    exact take_left' (by simp)
  have hc : ofLeBytes (((bm.serializeInto.take 16).drop 10).take 2) + 1 = store.2.length := by
    rw [hhdr, ← List.append_assoc, drop_left' (by simp), take_left' (by simp), ← drop_description, hok.card_eq]
  have hoff : (bm.serializeInto.take 16).drop 12 = leBytes 4 16 := by
    rw [hhdr, ← List.append_assoc, ← List.append_assoc]
    exact drop_left' (by simp)
  unfold decodeBitmap
  rw [if_pos]
  · dsimp only
    rw [hc, hoff, hdes, hpay, rejectIf_bind, hleh, length_storeBytes]
    refine ⟨by simp, ?_⟩
    split
    · next hd =>
      have hall : ∀ store ∈ containers bm.rows, 4096 < store.2.length := by
        rw [hsto]
        simpa using hd
      have hres := decodeDenseBitmaps_eq hall
      rw [hsto] at hres
      simpa using hres
    · exact c.deserializeFrom_serializeInto bm
  · refine ⟨by omega, ?_⟩
    rw [take_serializeInto, hsto, ofLeBytes_cookie (by simp), length_singleton, Nat.mul_one]

/-- The general route. -/
theorem decodeBitmap_many (hm : (containers bm.rows).length ≠ 1) : decodeBitmap c bm.serializeInto = .ok bm := by
  have hok := bm.containersOk
  have hc := hok.length_le
  have hd := @decodeDenseBitmaps_eq bm
  have hda := serializeInto_eq bm rfl
  have hhdr := bitmapHeader_serializeInto bm
  have ht := take_serializeInto bm
  generalize hsto : containers bm.rows = stores at *
  have hdes := length_flatMap_description stores
  have hof := length_flatMap_storeOffsets (8 + 8 * stores.length) stores
  have hdata2 : bm.serializeInto = (leBytes 4 12346 ++ leBytes 4 stores.length) ++ (stores.flatMap description ++
      ((storeOffsets (8 + 8 * stores.length) stores).flatMap (leBytes 4) ++ stores.flatMap fun store => storeBytes store.2)) := by
    rw [hda, List.append_assoc]
  have hdata3 : bm.serializeInto = ((leBytes 4 12346 ++ leBytes 4 stores.length) ++ stores.flatMap description) ++
      ((storeOffsets (8 + 8 * stores.length) stores).flatMap (leBytes 4) ++ stores.flatMap fun store => storeBytes store.2) := by
    rw [hdata2, List.append_assoc _ (stores.flatMap description)]
  have hdata4 : bm.serializeInto = (((leBytes 4 12346 ++ leBytes 4 stores.length) ++ stores.flatMap description) ++
      (storeOffsets (8 + 8 * stores.length) stores).flatMap (leBytes 4)) ++ stores.flatMap fun store => storeBytes store.2 := by
    rw [hdata3, List.append_assoc _ (List.flatMap _ (storeOffsets _ _))]
  have hpre : ((leBytes 4 12346 ++ leBytes 4 stores.length) ++ stores.flatMap description ++
      (storeOffsets (8 + 8 * stores.length) stores).flatMap (leBytes 4)).length = 8 + stores.length * 4 + stores.length * 4 := by
    simp only [length_append, length_leBytes, hdes, hof]
  have hdr : bm.serializeInto.drop (8 + stores.length * 4 + stores.length * 4) = stores.flatMap fun store => storeBytes store.2 := by
    rw [hdata4]
    exact drop_left' hpre
  have hs : 8 + 8 * stores.length = 8 + stores.length * 4 + stores.length * 4 := by omega
  obtain ⟨previous, hsc⟩ := @scanContainers_eq bm.serializeInto
    ((storeOffsets (8 + 8 * stores.length) stores).flatMap (leBytes 4)) stores hok 0
    { position := 8 + stores.length * 4 + stores.length * 4, denseOnly := decide (stores.length ≠ 0), previous := none } _ hdata4 hpre
    (by rw [Nat.zero_mul, drop_zero, hs]) bm.serializedSize_bounds.2 nofun
  unfold decodeBitmap
  rw [if_neg]
  · refine bind_eq_ok.mpr ⟨_, hhdr, ?_⟩
    refine rejectIf_bind.mpr ⟨by omega, ?_⟩
    refine bind_eq_ok.mpr ⟨_, takeBytes_eq hdata2 (by simp) hdes, ?_⟩
    refine bind_eq_ok.mpr ⟨_, bind_eq_ok.mpr ⟨_, takeBytes_eq hdata3 (by simp [hdes]; omega) hof, rfl⟩, ?_⟩
    rw [chunksOfFour_flatMap_description]
    refine bind_eq_ok.mpr ⟨_, hsc, rejectIf_bind.mpr ⟨fun h => h rfl, ?_⟩⟩
    split
    · next hall =>
      rw [Bool.and_eq_true, all_eq_true] at hall
      rw [hdr]
      exact hd fun store hst => of_decide_eq_true (hall.2 store hst)
    · exact c.deserializeFrom_serializeInto bm
  · rintro ⟨-, hv⟩
    rw [ht, ofLeBytes_cookie (by omega)] at hv
    omega

/-- Whatever `roaring` serializes is decoded to itself. -/
theorem decodeBitmap_serializeInto : decodeBitmap c bm.serializeInto = .ok bm := by
  by_cases hone : (containers bm.rows).length = 1
  · obtain ⟨store, hs⟩ := length_eq_one_iff.mp hone
    exact decodeBitmap_one c bm hs
  · exact decodeBitmap_many c bm hone

end Decode

/-! ## A decoder of the portable format

The laws of `RoaringCodec` are met by reading each store from its description. -/

/-- Two-byte values. -/
def readValues : Bytes → List Nat
  | low :: high :: rest => ofLeBytes [low, high] :: readValues rest
  | _ => []

/-- The rows of consecutive stores. -/
def readStores : List Bytes → Bytes → List Nat
  | [], _ => []
  | description :: descriptions, payload =>
    let key := ofLeBytes (description.take 2)
    let cardinality := ofLeBytes (description.drop 2) + 1
    if cardinality ≤ 4096 then
      (readValues (payload.take (cardinality * 2))).map (key * 65536 + ·) ++ readStores descriptions (payload.drop (cardinality * 2))
    else (fromLsb0Bytes (key * 65536) (payload.take 8192)).rows ++ readStores descriptions (payload.drop 8192)

/-- The bitmap of some row IDs. -/
def RoaringBitmap.ofRows (rows : List Nat) : RoaringBitmap where
  rows := (rows.filter (· < 2 ^ 32)).foldr insertRow []
  sorted := pairwise_foldr_insertRow List.Pairwise.nil
  bounded := by
    intro row hrow
    rcases mem_foldr_insertRow.mp hrow with hrow | hrow
    · exact of_decide_eq_true (List.mem_filter.mp hrow).2
    · exact absurd hrow List.not_mem_nil

/-- Decode a payload without run containers. -/
def portableDecode (data : Bytes) : Except String RoaringBitmap := do
  let (count, _, _, position) ← bitmapHeader data
  return .ofRows (readStores (chunksOfFour ((data.drop position).take (count * 4))) (data.drop (position + count * 8)))

theorem readValues_flatMap {vs : List Nat} (h : ∀ v ∈ vs, v < 65536) : readValues (vs.flatMap (leBytes 2)) = vs := by
  induction vs with
  | nil => rfl
  | cons v vs ih =>
    obtain ⟨hv, hr⟩ := forall_mem_cons.mp h
    change ofLeBytes (leBytes 2 v) :: readValues (vs.flatMap (leBytes 2)) = _
    rw [ofLeBytes_leBytes hv, ih hr]

theorem readStores_eq {stores : List (Nat × List Nat)} (h : ContainersOk stores) :
    readStores (stores.map description) (stores.flatMap fun store => storeBytes store.2) = stores.flatMap containerRows := by
  induction stores with
  | nil => rfl
  | cons store stores ih =>
    have hleh := length_storeBytes store.2
    rw [map_cons, flatMap_cons, flatMap_cons, readStores, h.key_eq, h.card_eq]
    split
    · next hspa =>
      rw [if_pos hspa] at hleh
      rw [take_left' hleh, drop_left' hleh, ih h.tail, storeBytes, if_pos hspa, readValues_flatMap (h.values store mem_cons_self)]
      rfl
    · next hd =>
      rw [if_neg hd] at hleh
      rw [take_left' hleh, drop_left' hleh, ih h.tail, fromLsb0Bytes_storeBytes (h.bounded store mem_cons_self)
        (h.sorted store mem_cons_self) (h.values store mem_cons_self) (by omega)]

theorem RoaringBitmap.ofRows_rows (bm : RoaringBitmap) : RoaringBitmap.ofRows bm.rows = bm := by
  refine ext_rows ((RoaringBitmap.ofRows bm.rows).sorted.eq_of_mem_iff bm.sorted fun row => ?_)
  change row ∈ (bm.rows.filter (· < 2 ^ 32)).foldr insertRow [] ↔ _
  rw [mem_foldr_insertRow, mem_filter]
  constructor
  · rintro (⟨hrow, -⟩ | hrow)
    · exact hrow
    · exact absurd hrow not_mem_nil
  · exact fun hrow => Or.inl ⟨hrow, decide_eq_true (bm.bounded row hrow)⟩

theorem portableDecode_serializeInto (bm : RoaringBitmap) : portableDecode bm.serializeInto = .ok bm := by
  have hda := serializeInto_eq bm rfl
  have hdes := length_flatMap_description (containers bm.rows)
  have hd : bm.serializeInto.drop 8 = (containers bm.rows).flatMap description ++
      ((storeOffsets (8 + 8 * (containers bm.rows).length) (containers bm.rows)).flatMap (leBytes 4) ++
        (containers bm.rows).flatMap fun store => storeBytes store.2) := by
    rw [hda, ← List.append_assoc]
    exact drop_left' (by simp)
  have hpay : bm.serializeInto.drop (8 + (containers bm.rows).length * 8) =
      (containers bm.rows).flatMap fun store => storeBytes store.2 := by
    rw [← drop_drop, hd, ← List.append_assoc]
    refine drop_left' ?_
    rw [length_append, hdes, length_flatMap_storeOffsets]
    omega
  refine bind_eq_ok.mpr ⟨_, bitmapHeader_serializeInto bm, ?_⟩
  dsimp only
  rw [hpay, hd, take_left' hdes, chunksOfFour_flatMap_description, readStores_eq bm.containersOk,
    flatMap_containers, RoaringBitmap.ofRows_rows]
  rfl

/-- A codec of the portable format. -/
def portableCodec : RoaringCodec where
  deserializeFrom := portableDecode
  prepareDeserialize := portableDecode
  deserializeFrom_serializeInto := portableDecode_serializeInto
  prepareDeserialize_serializeInto := portableDecode_serializeInto

end Logex
