import Logex.Catalog

/-!
# Index files

The container of derived index files (`index_file.rs`), as the logical bytes it reads and writes. A file written here is protected:
its pages carry checksums and its header an identity, which a publication binds. Files without that header are legacy ones.
-/

namespace Logex

open Lib

/-- An open `IndexFile`. Only protected files have an identity. -/
structure IndexFile where
  fileId : Option (FixedBytes 16)
  /-- The logical bytes. -/
  data : Bytes
deriving DecidableEq, Repr

variable (file : IndexFile)

def IndexFile.isProtected : Bool := file.fileId.isSome

def IndexFile.logicalLen : Nat := file.data.length

/-- `seek` to an offset, then `read_exact`. -/
def IndexFile.readAt (offset length : Nat) : Except String Bytes := do
  rejectIf (file.data.length < offset + length) "failed to fill whole buffer"
  return (file.data.drop offset).take length

/-- The check of `open_bound`. -/
def IndexFile.requireBound (expectedFileId : FixedBytes 16) : Except String Unit :=
  rejectIf (file.fileId ≠ some expectedFileId) "index artifact does not match its publication binding"

/-- The header, the logical bytes and one checksum for each page. -/
def physicalLen (logicalLen : Nat) : Except String Nat := okOr "index file length overflow" do
  let checksums ← checkedMul ((logicalLen + 4095) / 4096) 8
  let body ← checkedAdd checksums logicalLen
  checkedAdd body 48

/-- `write_index_file`: `fileId` is the identity it draws, `data` what the callback writes. -/
def writeIndexFile (fileId : FixedBytes 16) (logicalLen : Nat) (data : Bytes) : Except String IndexFile := do
  let _ ← physicalLen logicalLen
  rejectIf (logicalLen < data.length) "index writer exceeded its declared logical length"
  rejectIf (data.length ≠ logicalLen) "index writer produced an incomplete logical file"
  return { fileId := some fileId, data }

/-- A completed write reads back as what was written. -/
theorem writeIndexFile_eq_ok {fileId : FixedBytes 16} {data : Bytes} {file : IndexFile} :
    writeIndexFile fileId data.length data = .ok file ↔
      (∃ len, physicalLen data.length = .ok len) ∧ file = { fileId := some fileId, data } := by
  unfold writeIndexFile
  rw [bind_eq_ok]
  constructor
  · rintro ⟨len, hleh, h⟩
    obtain ⟨-, -, h⟩ := by simpa only [rejectIf_bind] using h
    exact ⟨⟨len, hleh⟩, (Except.ok.inj h).symm⟩
  · rintro ⟨⟨len, hleh⟩, rfl⟩
    refine ⟨len, hleh, ?_⟩
    rw [rejectIf_bind, rejectIf_bind]
    exact ⟨Nat.lt_irrefl _, fun h => h rfl, rfl⟩

theorem physicalLen_of_le {ll : Nat} (h : ll ≤ 2 ^ 62) : ∃ len, physicalLen ll = .ok len := by
  have hmul : (ll + 4095) / 4096 * 8 ≤ u64Max := by
    unfold u64Max
    omega
  have hb : (ll + 4095) / 4096 * 8 + ll ≤ u64Max := by
    unfold u64Max
    omega
  have hall : (ll + 4095) / 4096 * 8 + ll + 48 ≤ u64Max := by
    unfold u64Max
    omega
  refine ⟨(ll + 4095) / 4096 * 8 + ll + 48, ?_⟩
  simp only [physicalLen, checkedMul, checkedAdd, if_pos hmul, if_pos hb, if_pos hall, Option.bind_eq_bind, Option.bind_some, okOr]

/-- A read inside the file. -/
theorem IndexFile.readAt_eq_ok {file : IndexFile} {off len : Nat} {bs : Bytes} :
    file.readAt off len = .ok bs ↔ off + len ≤ file.data.length ∧ bs = (file.data.drop off).take len := by
  unfold IndexFile.readAt
  rw [rejectIf_bind, Nat.not_lt]
  exact and_congr_right fun _ => ⟨fun h => (Except.ok.inj h).symm, fun h => h ▸ rfl⟩

end Logex
