import Logex.Stream

/-!
# What a stream state holds

`StreamState.ofBytes` is the state a stream of bytes should leave: the frontier of every chunk but the last, and the last chunk.
A writer holds a prefix of the stream when its committed part is that frontier and its buffer is everything after it; each write
keeps this, and finishing a writer gives the state of the whole stream.
-/

namespace Logex

open Lib List StreamState

namespace StreamAux

theorem chunkBytes_pos : 0 < chunkBytes := by decide

/-! ## Chunks -/

variable {bytes more : Bytes}

/-- A complete chunk is not changed by what follows. -/
theorem chunkAt_append {i : Nat} (h : (i + 1) * chunkBytes ≤ bytes.length) : chunkAt (bytes ++ more) i = chunkAt bytes i := by
  rw [Nat.add_mul, Nat.one_mul] at h
  have hlen : chunkBytes ≤ (bytes.drop (i * chunkBytes)).length := by
    rw [length_drop]
    omega
  unfold chunkAt
  rw [drop_append_of_le_length (by omega), take_append_of_le_length hlen]

variable (core : Blake3)

theorem leaf_append {i : Nat} (h : (i + 1) * chunkBytes ≤ bytes.length) : core.leaf (bytes ++ more) i = core.leaf bytes i := by
  rw [Blake3.leaf, Blake3.leaf, chunkAt_append h]

/-- The frontier of the complete chunks is not changed by what follows. -/
theorem frontier_append {n : Nat} (h : n * chunkBytes ≤ bytes.length) :
    treeFrontier core.parentCv (core.leaf (bytes ++ more)) 0 n = treeFrontier core.parentCv (core.leaf bytes) 0 n := by
  refine treeFrontier_congr fun i _ hi => leaf_append core ?_
  exact le_trans (Nat.mul_le_mul_right chunkBytes (by omega)) h

/-- Chunk `i` of some of the chunks of an input. -/
theorem chunkAt_take_drop {bytes : Bytes} {done chunks i : Nat} (hi : i < chunks) :
    chunkAt ((bytes.drop (done * chunkBytes)).take (chunks * chunkBytes)) i = chunkAt bytes (done + i) := by
  have hle : (i + 1) * chunkBytes ≤ chunks * chunkBytes := Nat.mul_le_mul_right chunkBytes hi
  rw [Nat.add_mul, Nat.one_mul] at hle
  unfold chunkAt
  rw [drop_take, take_take, drop_drop, Nat.min_eq_left (by omega), Nat.add_mul]

/-- The subtree of complete chunks. -/
theorem subtreeCv_chunks {bytes : Bytes} {done chunks : Nat} (hpos : 0 < chunks)
    (hlen : (done + chunks) * chunkBytes ≤ bytes.length) :
    subtreeCv core done ((bytes.drop (done * chunkBytes)).take (chunks * chunkBytes)) =
      tree core.parentCv (core.leaf bytes) done chunks := by
  have hf : ((bytes.drop (done * chunkBytes)).take (chunks * chunkBytes)).length = chunks * chunkBytes := by
    rw [Nat.add_mul] at hlen
    rw [length_take, length_drop]
    omega
  have hc : chunkCount (chunks * chunkBytes) = chunks := by
    unfold chunkCount chunkBytes
    omega
  rw [subtreeCv, hf, hc, ← Nat.add_zero done, ← tree_shift done, Nat.add_zero]
  refine tree_congr hpos fun i _ hi => ?_
  rw [Blake3.leaf, chunkAt_take_drop (by omega)]

/-- The subtree of a last chunk. -/
theorem subtreeCv_last {bytes : Bytes} {done : Nat} (hlen : (bytes.drop (done * chunkBytes)).length ≤ chunkBytes) :
    subtreeCv core done (bytes.drop (done * chunkBytes)) = core.leaf bytes done := by
  have hc : chunkCount (bytes.drop (done * chunkBytes)).length = 1 := by
    unfold chunkCount
    rw [Nat.div_eq_of_lt]
    have := chunkBytes_pos
    omega
  rw [subtreeCv, hc, tree_one, Blake3.leaf, chunkAt, chunkAt, Nat.zero_mul, drop_zero, Nat.add_zero]

end StreamAux

open StreamAux

/-! ## The state of a stream -/

theorem length_drop_completedChunks (bytes : Bytes) :
    (bytes.drop (completedChunks bytes.length * chunkBytes)).length = tailLen bytes.length := by
  rw [length_drop]
  unfold completedChunks tailLen chunkBytes
  split <;> omega

/-- The state a stream of bytes should leave. -/
def StreamState.ofBytes (core : Blake3) (bytes : Bytes) : StreamState where
  totalBytes := bytes.length
  frontier := treeFrontier core.parentCv (core.leaf bytes) 0 (completedChunks bytes.length)
  tail := bytes.drop (completedChunks bytes.length * chunkBytes)
  tail_le := (length_drop_completedChunks bytes).trans_le (tailLen_le _)

variable (core : Blake3)

theorem frontier_ofBytes (bytes : Bytes) : (StreamState.ofBytes core bytes).frontier =
    treeFrontier core.parentCv (core.leaf bytes) 0 (completedChunks bytes.length) := rfl

theorem tail_ofBytes (bytes : Bytes) :
    (StreamState.ofBytes core bytes).tail = bytes.drop (completedChunks bytes.length * chunkBytes) := rfl

theorem StreamState.new_eq_ofBytes : StreamState.new = StreamState.ofBytes core [] := by
  unfold StreamState.new StreamState.ofBytes
  simp [show completedChunks 0 = 0 from rfl, treeFrontier_zero]

/-- The digest of a stream's state is the tree hash of the stream. -/
theorem digest_ofBytes (bytes : Bytes) : (StreamState.ofBytes core bytes).digest core = core.hash bytes := by
  have hc : chunkCount bytes.length = completedChunks bytes.length + 1 := rfl
  have hl := subtreeCv_last core (StreamState.ofBytes core bytes).tail_le
  by_cases h0 : completedChunks bytes.length = 0
  · have hfro : (StreamState.ofBytes core bytes).frontier = [] := by
      rw [frontier_ofBytes, h0, treeFrontier_zero]
    have ht : (StreamState.ofBytes core bytes).tail = bytes := by
      rw [tail_ofBytes, h0, Nat.zero_mul, drop_zero]
    unfold StreamState.digest
    rw [hfro, ht]
  · have hfro : (StreamState.ofBytes core bytes).frontier = _ := treeFrontier_of_ne_zero h0
    have hle := two_pow_log2_le h0
    have hp : 2 ^ (completedChunks bytes.length).log2 + (completedChunks bytes.length - 2 ^ (completedChunks bytes.length).log2) =
        completedChunks bytes.length := by omega
    have hr := @foldr_treeFrontier _ core.parentCv (core.leaf bytes) (2 ^ (completedChunks bytes.length).log2)
      (completedChunks bytes.length - 2 ^ (completedChunks bytes.length).log2)
    rw [hp, ← Nat.sub_add_comm hle] at hr
    unfold StreamState.digest
    rw [hfro, Nat.zero_add]
    dsimp only
    rw [Blake3.hash, hc, if_neg (by omega), Nat.add_sub_cancel]
    dsimp only [StreamState.ofBytes] at hl ⊢
    rw [hl, hr]

/-! ## Encoded states -/

theorem readFrontier_flatMap (vs : List B256) (rest : Bytes) :
    readFrontier vs.length (vs.flatMap FixedBytes.toBytes ++ rest) = vs := by
  induction vs with
  | nil => rfl
  | cons v vs ih =>
    have hlen := FixedBytes.length_toBytes (n := 32) v
    have hv : FixedBytes.ofBytes 32 (FixedBytes.toBytes v) = v :=
      FixedBytes.toBytes_inj.mp (FixedBytes.toBytes_ofBytes hlen)
    rw [length_cons, flatMap_cons, List.append_assoc, readFrontier, take_left' hlen, drop_left' hlen, hv, ih]

theorem length_flatMap_toBytes (vs : List B256) : (vs.flatMap FixedBytes.toBytes).length = vs.length * 32 := by
  induction vs with
  | nil => rfl
  | cons v vs ih =>
    have hlen := FixedBytes.length_toBytes (n := 32) v
    rw [flatMap_cons, length_append, hlen, ih, length_cons]
    omega

variable {bytes : Bytes}

/-- Bytes of the right shape are read field by field. -/
theorem fromBytes_of_shape {st : StreamState} (hmin : streamHeaderBytes ≤ bytes.length)
    (hmax : bytes.length ≤ maxStreamBytes) (hver : bytes.head? = some streamVersion)
    (ht : ofLeBytes ((bytes.drop 1).take 8) = st.totalBytes) (hs : bytes.length =
      streamHeaderBytes + popCount 64 (completedChunks st.totalBytes) * 32 + tailLen st.totalBytes)
    (hfro : readFrontier (popCount 64 (completedChunks st.totalBytes)) (bytes.drop streamHeaderBytes) = st.frontier)
    (hta : bytes.drop (streamHeaderBytes + popCount 64 (completedChunks st.totalBytes) * 32) = st.tail) :
    fromBytes bytes = .ok st := by
  obtain ⟨total, values, tail, tail_le⟩ := st
  dsimp only at ht hs hfro hta
  subst ht hfro hta
  refine rejectIf_bind.mpr ⟨not_not.mpr ⟨hmin, hmax⟩, rejectIf_bind.mpr ⟨not_not.mpr hver, ?_⟩⟩
  rw [dif_pos hs]
  rfl

/-- A saved state is resumed as it was. -/
theorem fromBytes_toBytes (h : bytes.length ≤ u64Max) :
    fromBytes (StreamState.ofBytes core bytes).toBytes = .ok (StreamState.ofBytes core bytes) := by
  have hcom : completedChunks bytes.length < 2 ^ 54 := by
    unfold completedChunks chunkBytes
    unfold u64Max at h
    omega
  generalize hs : StreamState.ofBytes core bytes = st
  have ht : st.totalBytes = bytes.length := by rw [← hs]; rfl
  have hc : st.frontier.length = popCount 64 (completedChunks bytes.length) := by
    rw [← hs]
    exact length_treeFrontier _ (by omega)
  have hsm : st.frontier.length ≤ maxFrontier := by
    rw [← hs]
    exact (length_treeFrontier _ hcom).trans_le (popCount_le _ _)
  have hta : st.tail.length = tailLen bytes.length := by
    rw [← hs]
    exact length_drop_completedChunks bytes
  have htoB : ofLeBytes ((st.toBytes.drop 1).take 8) = bytes.length := by
    have hf : bytes.length < 256 ^ 8 := by
      unfold u64Max at h
      omega
    unfold StreamState.toBytes
    rw [List.append_assoc, cons_append, drop_one, tail_cons, take_left' (length_leBytes 8 _), ht, ofLeBytes_leBytes hf]
  have hd : st.toBytes.drop streamHeaderBytes = st.frontier.flatMap FixedBytes.toBytes ++ st.tail := by
    unfold StreamState.toBytes
    rw [List.append_assoc]
    refine drop_left' ?_
    rfl
  have hleh : st.toBytes.length = streamHeaderBytes + st.frontier.length * 32 + st.tail.length := by
    unfold StreamState.toBytes streamHeaderBytes
    rw [length_append, length_append, length_cons, length_leBytes, length_flatMap_toBytes]
  have hle := tailLen_le bytes.length
  have hfro := readFrontier_flatMap st.frontier st.tail
  have hr : st.toBytes.drop (streamHeaderBytes + st.frontier.length * 32) = st.tail := by
    rw [← drop_drop, hd, drop_left' (length_flatMap_toBytes _)]
  rw [← ht] at hc htoB hta
  rw [hc] at hfro hr hleh hsm
  refine fromBytes_of_shape (by omega) ?_ rfl htoB (by rw [hleh, hta]) hfro hr
  rw [ht] at hta
  unfold maxStreamBytes
  omega

/-! ## Consuming subtrees -/

/-- The next subtree is a power of two of the available chunks that divides the completed ones. -/
theorem subtreeChunks_eq (done : Nat) {ava : Nat} (h : ava ≠ 0) :
    ∃ j, subtreeChunks done ava = 2 ^ j ∧ 2 ^ j ∣ done ∧ 2 ^ j ≤ ava := by
  have hle := two_pow_log2_le h
  unfold subtreeChunks
  split
  · have hdvd : 2 ^ trailingZeros done ∣ done := pow_trailingZerosFrom_dvd 64 done
    rcases le_total (2 ^ ava.log2) (2 ^ trailingZeros done) with hmin | hmin
    · have hexp := (Nat.pow_le_pow_iff_right (by omega)).mp hmin
      exact ⟨_, min_eq_left hmin, Nat.dvd_trans (Nat.pow_dvd_pow 2 hexp) hdvd, hle⟩
    · exact ⟨_, min_eq_right hmin, hdvd, hmin.trans hle⟩
  · next hz =>
    rw [not_not] at hz
    subst hz
    exact ⟨_, rfl, Nat.dvd_zero _, hle⟩

theorem pushSubtree_frontier {done j : Nat} (h : 2 ^ j ∣ done) :
    pushSubtree core (treeFrontier core.parentCv (core.leaf bytes) 0 done) done (2 ^ j)
        (tree core.parentCv (core.leaf bytes) done (2 ^ j)) =
      .ok (treeFrontier core.parentCv (core.leaf bytes) 0 (done + 2 ^ j)) := by
  have hc := @carry_treeFrontier _ core.parentCv (core.leaf bytes) 0 done j h
  rw [zero_add] at hc
  rw [pushSubtree, hc, Option.map_some, reverse_reverse]
  rfl

/-- From a committed prefix, the loop commits every chunk but the last. -/
theorem consumeSubtrees_eq {done : Nat} (h : done = 0 ∨ done * chunkBytes < bytes.length) :
    consumeSubtrees core done (treeFrontier core.parentCv (core.leaf bytes) 0 done) (bytes.drop (done * chunkBytes)) =
      .ok ((StreamState.ofBytes core bytes).frontier, ⟨(StreamState.ofBytes core bytes).tail, (StreamState.ofBytes core bytes).tail_le⟩) := by
  induction hr : bytes.length - done * chunkBytes using Nat.strongRecOn generalizing done with
  | ind rest ih =>
    have hpos := chunkBytes_pos
    rw [consumeSubtrees]
    split
    · next hl =>
      have hd : completedChunks bytes.length = done := by
        rw [length_drop] at hl
        unfold completedChunks chunkBytes at *
        omega
      unfold StreamState.ofBytes
      simp only [hd]
    · next hm =>
      rw [length_drop] at hm ⊢
      have hava : (bytes.length - done * chunkBytes - 1) / chunkBytes ≠ 0 := by
        rw [Nat.ne_zero_iff_zero_lt, Nat.div_pos_iff]
        omega
      obtain ⟨j, hchs, hdvd, hle⟩ := subtreeChunks_eq done hava
      have ht : (done + 2 ^ j) * chunkBytes < bytes.length := by
        have := (Nat.le_div_iff_mul_le hpos).mp hle
        rw [Nat.add_mul]
        omega
      have hg := Nat.mul_pos (Nat.two_pow_pos j) hpos
      dsimp only
      rw [hchs, subtreeCv_chunks core (Nat.two_pow_pos j) (Nat.le_of_lt ht), pushSubtree_frontier core hdvd]
      rw [Nat.add_mul] at ht
      have hn := ih (bytes.length - (done + 2 ^ j) * chunkBytes) (by rw [Nat.add_mul]; omega)
        (.inr (by rw [Nat.add_mul]; omega)) rfl
      rw [Nat.add_mul] at hn
      rw [drop_drop]
      exact hn

/-! ## Writers -/

/-- The writer's parts hold the bytes written so far. -/
structure Buffers (core : Blake3) (bytes : Bytes) (stream : StreamState) (buffer : Bytes) (accounted : Nat) : Prop where
  total : stream.totalBytes = completedChunks stream.totalBytes * chunkBytes + accounted
  total_le : stream.totalBytes ≤ bytes.length
  frontier : stream.frontier = treeFrontier core.parentCv (core.leaf bytes) 0 (completedChunks stream.totalBytes)
  buffer : buffer = bytes.drop (completedChunks stream.totalBytes * chunkBytes)

namespace Buffers

variable {core : Blake3} {bytes buffer : Bytes} {stream : StreamState} {accounted : Nat}

variable (h : Buffers core bytes stream buffer accounted)

include h

theorem length_buffer : completedChunks stream.totalBytes * chunkBytes + buffer.length = bytes.length := by
  have h1 := h.total
  have h2 := h.total_le
  rw [h.buffer, length_drop]
  omega

/-- More bytes go to the buffer. -/
theorem append (v : Bytes) : Buffers core (bytes ++ v) stream (buffer ++ v) accounted := by
  have h1 := h.total
  have h2 := h.total_le
  have hle : completedChunks stream.totalBytes * chunkBytes ≤ bytes.length := by omega
  refine ⟨h1, by rw [length_append]; omega, ?_, ?_⟩
  · rw [h.frontier, frontier_append core hle]
  · rw [h.buffer, drop_append_of_le_length hle]

/-- Committing the buffer fails only when the stream is too long. -/
theorem consumeNonfinal_eq : StreamWriter.consumeNonfinal core stream buffer accounted = if bytes.length ≤ u64Max then
        .ok ({ stream with totalBytes := bytes.length, frontier := (StreamState.ofBytes core bytes).frontier },
          ⟨(StreamState.ofBytes core bytes).tail, (StreamState.ofBytes core bytes).tail_le⟩)
      else
        .error "stream byte count overflows u64" := by
  have h1 := h.total
  have h2 := h.total_le
  have h3 := h.length_buffer
  have hsum : stream.totalBytes + (buffer.length - accounted) = bytes.length := by omega
  unfold StreamWriter.consumeNonfinal checkedAdd
  rw [hsum]
  split
  · have hs : completedChunks stream.totalBytes = 0 ∨ completedChunks stream.totalBytes * chunkBytes < bytes.length := by
      unfold completedChunks chunkBytes at *
      omega
    rw [h.frontier, h.buffer]
    refine bind_eq_ok.mpr ⟨_, rfl, bind_eq_ok.mpr ⟨_, consumeSubtrees_eq core hs, ?_⟩⟩
    rfl
  · rfl

end Buffers

/-- The writer holds the bytes written so far, and flushes at a chunk boundary. -/
structure StreamWriter.Holds (core : Blake3) (bytes : Bytes) (writer : StreamWriter) : Prop where
  buffers : Buffers core bytes writer.stream writer.buffer writer.accounted
  limit : ∃ chunks, writer.limit = chunks * chunkBytes + 1

/-- What writing to a stream may give: a writer that holds everything, or the refusal of a stream that is too long. -/
def WriteOutcome (core : Blake3) (bytes : Bytes) : Except String StreamWriter → Prop
  | .ok writer => writer.Holds core bytes
  | .error e => e = "stream byte count overflows u64" ∧ u64Max < bytes.length

namespace StreamWriter

variable {core : Blake3} {bytes : Bytes} {writer : StreamWriter}

theorem holds_new (core : Blake3) (bytes : Bytes) : (new (StreamState.ofBytes core bytes)).Holds core bytes := by
  refine ⟨⟨?_, le_rfl, rfl, rfl⟩, _, rfl⟩
  have hlen := length_drop_completedChunks bytes
  change bytes.length = completedChunks bytes.length * chunkBytes + (bytes.drop (completedChunks bytes.length * chunkBytes)).length
  rw [hlen]
  unfold tailLen completedChunks chunkBytes
  split <;> omega

/-- A full buffer leaves one byte after it is committed. -/
theorem Holds.flush {stream : StreamState} {buffer : Bytes} {accounted chunks : Nat}
    (h : Buffers core bytes stream buffer accounted) (hf : buffer.length = chunks * chunkBytes + 1) :
    Buffers core bytes { stream with totalBytes := bytes.length, frontier := (StreamState.ofBytes core bytes).frontier }
      ((StreamState.ofBytes core bytes).tail.take 1) 1 := by
  have hlen := h.length_buffer
  have hd : completedChunks bytes.length * chunkBytes + 1 = bytes.length := by
    rw [hf] at hlen
    rw [← hlen]
    unfold completedChunks chunkBytes
    omega
  refine ⟨hd.symm, le_rfl, rfl, ?_⟩
  refine take_of_length_le ?_
  change (bytes.drop (completedChunks bytes.length * chunkBytes)).length ≤ 1
  rw [length_drop]
  omega

theorem putAcrossBoundary_written (v : Bytes) (h : writer.Holds core bytes) :
    WriteOutcome core (bytes ++ v) (putAcrossBoundary core writer v) := by
  induction hlen : v.length using Nat.strongRecOn generalizing writer bytes v with
  | ind len ih =>
    rw [putAcrossBoundary]
    split
    · next hnil =>
      rw [hnil, append_nil]
      exact h
    · next hne =>
      have hr := writer.room
      have hpos := length_pos_iff.mpr hne
      set count := min v.length (writer.limit - writer.buffer.length) with hc
      have hb : bytes ++ v = (bytes ++ v.take count) ++ v.drop count := by
        rw [List.append_assoc, take_append_drop]
      have hh := h.buffers.append (v.take count)
      have hs : (v.drop count).length < len := by
        rw [length_drop]
        omega
      dsimp only
      split
      · next hfu =>
        obtain ⟨chunks, hchs⟩ := h.limit
        rw [hh.consumeNonfinal_eq]
        by_cases hf : (bytes ++ v.take count).length ≤ u64Max
        · rw [if_pos hf, hb]
          exact ih _ hs _ ⟨Holds.flush hh (hfu.trans hchs), 64, rfl⟩ rfl
        · rw [if_neg hf, hb]
          refine ⟨rfl, ?_⟩
          rw [length_append]
          omega
      · rw [hb]
        exact ih _ hs _ ⟨hh, h.limit⟩ rfl

theorem put_written (v : Bytes) (h : writer.Holds core bytes) : WriteOutcome core (bytes ++ v) (put core writer v) := by
  unfold put
  split
  · exact ⟨h.buffers.append v, h.limit⟩
  · exact putAcrossBoundary_written v h

/-- The writes of one append. -/
theorem foldlM_put_written (ws : List Bytes) (h : writer.Holds core bytes) :
    WriteOutcome core (bytes ++ ws.flatten) (ws.foldlM (put core) writer) := by
  induction ws generalizing writer bytes with
  | nil =>
    rw [flatten_nil, append_nil]
    exact h
  | cons v ws ih =>
    have hput := put_written v h
    rw [foldlM_cons, flatten_cons, ← List.append_assoc]
    cases hres : put core writer v with
    | ok writer' =>
      rw [hres] at hput
      exact ih hput
    | error e =>
      rw [hres] at hput
      obtain ⟨rfl, hl⟩ := hput
      refine ⟨rfl, ?_⟩
      rw [length_append]
      omega

/-- A finished writer is the state of the bytes it holds. -/
theorem Holds.finish_eq (h : writer.Holds core bytes) : writer.finish core =
      if bytes.length ≤ u64Max then .ok (StreamState.ofBytes core bytes) else .error "stream byte count overflows u64" := by
  unfold finish
  rw [h.buffers.consumeNonfinal_eq]
  split <;> rfl

end StreamWriter

/-- An append to a stream's state gives the state of the longer stream, or fails when it is too long. -/
theorem append_ofBytes (bytes : Bytes) (ws : List Bytes) : (StreamState.ofBytes core bytes).append core ws =
      if (bytes ++ ws.flatten).length ≤ u64Max then .ok (StreamState.ofBytes core (bytes ++ ws.flatten))
      else .error "stream byte count overflows u64" := by
  have hwri := StreamWriter.foldlM_put_written ws (StreamWriter.holds_new core bytes)
  unfold StreamState.append
  cases hres : ws.foldlM (StreamWriter.put core) (StreamWriter.new (StreamState.ofBytes core bytes)) with
  | ok writer =>
    rw [hres] at hwri
    exact hwri.finish_eq
  | error e =>
    rw [hres] at hwri
    obtain ⟨rfl, hl⟩ := hwri
    rw [if_neg (by omega)]
    rfl

end Logex
