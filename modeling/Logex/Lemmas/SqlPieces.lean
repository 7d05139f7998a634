import Logex.Query.SqlPieces

/-!
# Pieces of a SQL text

The pieces of a text put together again are the text, each piece is what its kind says, and a piece that ends where a longer one
could go on does not stand before a character that would belong to it.
-/

namespace Logex.LegacySql

open Lib List

variable {a b : List Char}

/-! ## Characters -/

variable (c : Char)

theorem toNat_toLower : c.toLower.toNat = if 65 ≤ c.toNat ∧ c.toNat ≤ 90 then c.toNat + 32 else c.toNat := by
  unfold Char.toLower
  split
  next h =>
    have hbds : 65 ≤ c.toNat ∧ c.toNat ≤ 90 := by
      simpa [UInt32.le_iff_toNat_le] using h
    rw [if_pos hbds]
    change (c.val + 32).toNat = c.val.toNat + 32
    have hlt : c.val.toNat ≤ 90 := hbds.2
    exact Nat.mod_eq_of_lt (by change c.val.toNat + 32 < 4294967296; omega)
  next h =>
    rw [if_neg]
    intro hbds
    exact h (by simpa [UInt32.le_iff_toNat_le] using hbds)

theorem toNat_toUpper : c.toUpper.toNat = if 97 ≤ c.toNat ∧ c.toNat ≤ 122 then c.toNat - 32 else c.toNat := by
  unfold Char.toUpper
  split
  next h =>
    have hbds : 97 ≤ c.toNat ∧ c.toNat ≤ 122 := by
      simpa [UInt32.le_iff_toNat_le] using h
    rw [if_pos hbds]
    change (c.val + 4294967264).toNat = c.val.toNat - 32
    have hle : 97 ≤ c.val.toNat ∧ c.val.toNat ≤ 122 := hbds
    rw [UInt32.toNat_add]
    change (c.val.toNat + 4294967264) % 4294967296 = _
    omega
  next h =>
    rw [if_neg]
    intro hbds
    exact h (by simpa [UInt32.le_iff_toNat_le] using hbds)

theorem toLower_toUpper : c.toUpper.toLower = c.toLower := by
  rw [← Char.toNat_inj, toNat_toLower, toNat_toLower, toNat_toUpper]
  split_ifs <;> omega

theorem isIdentifierChar_iff : isIdentifierChar c = true ↔
    (97 ≤ c.toNat ∧ c.toNat ≤ 122) ∨ (65 ≤ c.toNat ∧ c.toNat ≤ 90) ∨ (48 ≤ c.toNat ∧ c.toNat ≤ 57) ∨ c.toNat = 95 := by
  have hu : c = '_' ↔ c.toNat = 95 := by
    rw [← Char.toNat_inj]
    rfl
  simp only [isIdentifierChar, isAsciiAlphanumeric, isAsciiAlphabetic, isAsciiDigit, Bool.or_eq_true, Bool.and_eq_true,
    decide_eq_true_eq, beq_iff_eq, hu, Char.le_def, UInt32.le_iff_toNat_le, or_assoc]
  exact Iff.rfl

theorem isIdentifierChar_toLower : isIdentifierChar c.toLower = isIdentifierChar c := by
  rw [Bool.eq_iff_iff, isIdentifierChar_iff, isIdentifierChar_iff, toNat_toLower]
  split <;> omega

/-- White space belongs to no word and opens nothing. -/
theorem not_identifier_of_isWhitespace {c : Char} (h : isWhitespace c = true) :
    isIdentifierChar c = false ∧ c ≠ '\'' ∧ c ≠ '"' ∧ c ≠ '-' ∧ c ≠ '/' := by
  have hne : ∀ d : Char, isWhitespace d = false → c ≠ d := by
    rintro d hd rfl
    rw [h] at hd
    nomatch hd
  refine ⟨?_, hne _ (by decide), hne _ (by decide), hne _ (by decide), hne _ (by decide)⟩
  rw [Bool.eq_false_iff, Ne, isIdentifierChar_iff]
  simp only [isWhitespace, Bool.or_eq_true, Bool.and_eq_true, decide_eq_true_eq, beq_iff_eq] at h
  omega

section

variable (h : eqIgnoreAsciiCase a b = true)

include h

theorem length_eq_of_eqIgnoreAsciiCase : a.length = b.length := by
  have hmap := congrArg List.length (eq_of_beq h)
  rwa [length_map, length_map] at hmap

/-- Texts that differ in case only have identifier characters in the same places. -/
theorem map_isIdentifierChar : a.map isIdentifierChar = b.map isIdentifierChar := by
  have hl : ∀ cha : List Char, cha.map isIdentifierChar = (cha.map Char.toLower).map isIdentifierChar := by
    intro cha
    rw [map_map]
    exact map_congr_left fun c _ => (isIdentifierChar_toLower c).symm
  rw [hl a, hl b, eq_of_beq h]

theorem all_isIdentifierChar (hb : ∀ c ∈ b, isIdentifierChar c) : ∀ c ∈ a, isIdentifierChar c := by
  intro c hc
  have hmem : isIdentifierChar c ∈ b.map isIdentifierChar := by
    rw [← map_isIdentifierChar h]
    exact mem_map_of_mem hc
  obtain ⟨d, hd, heq⟩ := mem_map.mp hmem
  rw [← heq]
  exact hb d hd

end

theorem LegacyPrefix.word_identifier (kind : LegacyPrefix) : ∀ c ∈ kind.word, isIdentifierChar c := by
  rw [← all_eq_true]
  cases kind <;> decide

/-! ## Enclosed text -/

theorem drop_takeWhile {α : Type} (p : α → Bool) (cha : List α) : cha.drop (cha.takeWhile p).length = cha.dropWhile p := by
  have hd := congrArg (List.drop (cha.takeWhile p).length) (@takeWhile_append_dropWhile _ p cha)
  rw [drop_left] at hd
  exact hd.symm

theorem of_mem_takeWhile {α : Type} {p : α → Bool} {chars : List α} {c : α} (h : c ∈ chars.takeWhile p) : p c = true :=
  all_eq_true.mp all_takeWhile c h

theorem takeWhile_eq_of_quotedText {cha cs : List Char} (h : quotedText cha = some cs) :
    cha = cs ++ '\'' :: cha.drop (cs.length + 1) ∧ '\'' ∉ cs := by
  unfold quotedText at h
  dsimp only at h
  split at h
  next hlt =>
    cases h
    have hs := takeWhile_append_dropWhile (p := fun c => decide (c ≠ '\'')) (l := cha)
    refine ⟨?_, fun hmem => ?_⟩
    · cases hr : cha.dropWhile (· ≠ '\'') with
      | nil =>
        rw [hr, append_nil] at hs
        rw [hs] at hlt
        exact absurd hlt (lt_irrefl _)
      | cons ch rest =>
        have hq : ch = '\'' := by
          have hh := head?_dropWhile_not (fun c => decide (c ≠ '\'')) cha
          rw [hr] at hh
          simpa using hh
        rw [hr, hq] at hs
        have hd : cha.drop ((cha.takeWhile (· ≠ '\'')).length + 1) = rest := by
          rw [← drop_drop, drop_takeWhile, hr]
          rfl
        rw [hd, hs]
    · have hne := of_mem_takeWhile hmem
      simp at hne
  · nomatch h

theorem untilClosing_spec {clo cha cs : List Char} (h : untilClosing clo cha = some cs) : ∃ aft, cha = cs ++ clo ++ aft := by
  induction cha generalizing cs with
  | nil => nomatch h
  | cons ch rest ih =>
    unfold untilClosing at h
    split at h
    next hclo =>
      cases h
      obtain ⟨aft, ha⟩ := hclo
      exact ⟨aft, ha.symm⟩
    · obtain ⟨tail, ht, rfl⟩ := Option.map_eq_some_iff.mp h
      obtain ⟨aft, rfl⟩ := ih ht
      exact ⟨aft, rfl⟩

/-- Text up to the first quote contains none. -/
theorem quote_not_mem_untilClosing {cha cs : List Char} (h : untilClosing ['\''] cha = some cs) : '\'' ∉ cs := by
  induction cha generalizing cs with
  | nil => nomatch h
  | cons ch rest ih =>
    unfold untilClosing at h
    split at h
    · cases h
      exact not_mem_nil
    next hq =>
      obtain ⟨tail, ht, rfl⟩ := Option.map_eq_some_iff.mp h
      rw [mem_cons, not_or]
      refine ⟨fun heq => hq ?_, ih ht⟩
      rw [← heq]
      exact ⟨rest, rfl⟩

theorem quote_not_mem_of_untilClosing {cha : List Char} (h : untilClosing ['\''] cha = none) : '\'' ∉ cha := by
  induction cha with
  | nil => exact not_mem_nil
  | cons ch rest ih =>
    unfold untilClosing at h
    split at h
    · nomatch h
    next hq =>
      rw [mem_cons, not_or]
      refine ⟨fun heq => hq ?_, ih (Option.map_eq_none_iff.mp h)⟩
      rw [← heq]
      exact ⟨rest, rfl⟩

/-! ## Well-formed sequences -/

/-- The character after a piece ends a word there. -/
def EndsWord (next : Option Char) : Prop := ∀ c ∈ next, isIdentifierChar c = false

theorem endsWord_some {c : Char} (h : isIdentifierChar c = false) : EndsWord (some c) := by
  rintro _ ⟨⟩
  exact h

theorem endsWord_none : EndsWord none := nofun

namespace Piece

/-- A piece is what its kind says. -/
def Valid : Piece → Prop
  | word chars => chars ≠ [] ∧ ∀ c ∈ chars, isIdentifierChar c
  | symbol c => isIdentifierChar c = false ∧ c ≠ '\''
  | enclosed .string contents _ => '\'' ∉ contents
  | enclosed _ _ _ => True
  | literal kind spelled contents => eqIgnoreAsciiCase spelled kind.word ∧ '\'' ∉ contents

/-- A piece does not go on in the character after it. -/
def Fits (next : Option Char) : Piece → Prop
  | word _ => EndsWord next
  | symbol _ => True
  | enclosed .lineComment _ _ => ∀ c ∈ next, c = '\n'
  | enclosed _ _ closed => closed = false → next = none
  | literal _ _ _ => True

end Piece

def WellFormed (ps : List Piece) : Prop := Throughout (fun next piece => piece.Valid ∧ piece.Fits next) ps

theorem renderAll_cons (pc : Piece) (rest : List Piece) : renderAll (pc :: rest) = pc.render ++ renderAll rest := flatMap_cons

theorem renderAll_append (fst rest : List Piece) : renderAll (fst ++ rest) = renderAll fst ++ renderAll rest := flatMap_append

variable {P : Option Char → Piece → Prop}

/-- Only the first character of what follows matters to the pieces before it. -/
theorem Throughout.replace {fst rest rest' : List Piece} (h : Throughout P (fst ++ rest))
    (hr : Throughout P rest') (hh : (renderAll rest').head? = (renderAll rest).head?) : Throughout P (fst ++ rest') := by
  induction fst with
  | nil => exact hr
  | cons pc fst ih =>
    obtain ⟨hp, h⟩ := h
    refine ⟨?_, ih h⟩
    change P (renderAll (fst ++ rest')).head? pc
    rw [renderAll_append, head?_append, hh, ← head?_append, ← renderAll_append]
    exact hp

theorem Throughout.right {fst rest : List Piece} (h : Throughout P (fst ++ rest)) : Throughout P rest := by
  induction fst with
  | nil => exact h
  | cons piece fst ih => exact ih h.2

/-! ## The scanner -/

theorem endsWord_dropWhile (cha : List Char) : EndsWord (cha.dropWhile isIdentifierChar).head? := by
  intro c hc
  have hh := head?_dropWhile_not isIdentifierChar cha
  rw [hc] at hh
  simpa using hh

/-- What the scanner takes for a piece at a character. -/
structure StartsWith (chars : List Char) (piece : Piece) : Prop where
  split : ∃ after, chars = piece.render ++ after ∧ piece.Fits after.head?
  valid : piece.Valid
  nonempty : piece.render ≠ []

theorem enclosedPiece_starts (kind : Enclosure) (hk : kind ≠ .lineComment) (rest : List Char) :
    StartsWith (kind.opening ++ rest) (enclosedPiece kind rest) := by
  have hope : kind.opening ≠ [] := by cases kind <;> decide
  unfold enclosedPiece
  cases hclo : untilClosing kind.closing rest with
  | some cs =>
    obtain ⟨after, ha⟩ := untilClosing_spec hclo
    refine ⟨⟨after, ?_, ?_⟩, ?_, ?_⟩
    · rw [ha, Piece.render, if_pos rfl, List.append_assoc, List.append_assoc, List.append_assoc]
    · cases kind with
      | lineComment => exact absurd rfl hk
      | _ => nofun
    · cases kind with
      | string => exact quote_not_mem_untilClosing hclo
      | _ => trivial
    · simp [Piece.render, hope]
  | none =>
    refine ⟨⟨[], ?_, ?_⟩, ?_, ?_⟩
    · rw [Piece.render, if_neg Bool.false_ne_true, append_nil, append_nil]
    · cases kind with
      | lineComment => exact absurd rfl hk
      | _ => exact fun _ => rfl
    · cases kind with
      | string => exact quote_not_mem_of_untilClosing hclo
      | _ => trivial
    · simp [Piece.render, hope]

/-- A legacy literal is its word, the quoted text and nothing of what follows. -/
theorem literalPiece_eq_some {word aft : List Char} {pc : Piece} (h : literalPiece word aft = some pc) :
    ∃ kind contents, pc = .literal kind word contents ∧ eqIgnoreAsciiCase word kind.word = true ∧ '\'' ∉ contents ∧
      ∃ rest, aft = '\'' :: contents ++ '\'' :: rest := by
  have hk : ∀ kind : LegacyPrefix, (if eqIgnoreAsciiCase word kind.word ∧ aft.head? = some '\'' then
      (quotedText (aft.drop 1)).map (Piece.literal kind word ·) else none) = some pc →
      ∃ kind contents, pc = .literal kind word contents ∧ eqIgnoreAsciiCase word kind.word = true ∧ '\'' ∉ contents ∧
        ∃ rest, aft = '\'' :: contents ++ '\'' :: rest := by
    intro kind hp
    split at hp
    next hw =>
      obtain ⟨contents, hc, rfl⟩ := Option.map_eq_some_iff.mp hp
      obtain ⟨hs, hq⟩ := takeWhile_eq_of_quotedText hc
      refine ⟨kind, contents, rfl, hw.1, hq, (aft.drop 1).drop (contents.length + 1), ?_⟩
      cases aft with
      | nil => nomatch hw.2
      | cons ch rest =>
        obtain rfl := Option.some.inj hw.2
        rw [drop_one, tail_cons] at hs ⊢
        rw [cons_append, ← hs]
    · nomatch hp
  unfold literalPiece at h
  rcases hev : (if eqIgnoreAsciiCase word LegacyPrefix.event.word ∧ aft.head? = some '\'' then
      (quotedText (aft.drop 1)).map (Piece.literal .event word ·) else none) with _ | found
  · rw [List.firstM, hev] at h
    rcases hadd : (if eqIgnoreAsciiCase word LegacyPrefix.address.word ∧ aft.head? = some '\'' then
        (quotedText (aft.drop 1)).map (Piece.literal .address word ·) else none) with _ | found
    · rw [List.firstM, hadd] at h
      nomatch h
    · rw [List.firstM, hadd] at h
      exact hk .address (hadd.trans h)
  · rw [List.firstM, hev] at h
    exact hk .event (hev.trans h)

theorem nextPiece_starts (ch : Char) (rest : List Char) : StartsWith (ch :: rest) (nextPiece ch rest) := by
  unfold nextPiece
  split
  next hide =>
    have hw : (ch :: rest).takeWhile isIdentifierChar ≠ [] := by
      rw [takeWhile_cons_of_pos hide]
      exact cons_ne_nil _ _
    have hs := @takeWhile_append_dropWhile _ isIdentifierChar (ch :: rest)
    dsimp only
    rw [drop_takeWhile]
    cases hlit : literalPiece ((ch :: rest).takeWhile isIdentifierChar) ((ch :: rest).dropWhile isIdentifierChar) with
    | none =>
      refine ⟨⟨_, hs.symm, endsWord_dropWhile _⟩, ⟨hw, fun c hc => ?_⟩, hw⟩
      exact of_mem_takeWhile hc
    | some piece =>
      obtain ⟨kind, contents, rfl, hspe, hq, after, ha⟩ := literalPiece_eq_some hlit
      refine ⟨⟨after, ?_, trivial⟩, ⟨hspe, hq⟩, ?_⟩
      · rw [ha] at hs
        refine hs.symm.trans ?_
        simp [Piece.render]
      · simp [Piece.render]
  next hide =>
    split
    next hq =>
      subst hq
      exact enclosedPiece_starts .string nofun rest
    next hq =>
      split
      next hdou =>
        subst hdou
        exact enclosedPiece_starts .identifier nofun rest
      · split
        next hd =>
          obtain ⟨rfl, hn⟩ := hd
          cases rest with
          | nil => nomatch hn
          | cons next rest =>
            cases hn
            refine ⟨⟨rest.dropWhile (· ≠ '\n'), ?_, ?_⟩, trivial, nofun⟩
            · rw [Piece.render, if_pos rfl]
              simp [Enclosure.opening, Enclosure.closing]
            · intro c hc
              have hh := head?_dropWhile_not (fun c => decide (c ≠ '\n')) rest
              rw [hc] at hh
              simpa using hh
        · split
          next hsl =>
            obtain ⟨rfl, hn⟩ := hsl
            cases rest with
            | nil => nomatch hn
            | cons next rest =>
              cases hn
              exact enclosedPiece_starts .blockComment nofun rest
          · exact ⟨⟨rest, rfl, trivial⟩, ⟨Bool.eq_false_of_not_eq_true hide, hq⟩, nofun⟩

/-- Passing over characters that belong to the piece before. -/
theorem piecesFrom_skip (skip : Nat) (cha : List Char) : piecesFrom skip cha = pieces (cha.drop skip) := by
  induction skip generalizing cha with
  | zero => rfl
  | succ skip ih =>
    cases cha with
    | nil => rfl
    | cons ch rest => exact ih rest

/-- The pieces of a text are the piece it starts with and the pieces of what follows it. -/
theorem exists_pieces_cons (ch : Char) (rest : List Char) :
    ∃ pc after, pieces (ch :: rest) = pc :: pieces after ∧ ch :: rest = pc.render ++ after ∧ pc.Valid ∧
      pc.Fits after.head? ∧ pc = nextPiece ch rest ∧ after.length < (ch :: rest).length := by
  obtain ⟨⟨after, hs, hf⟩, hv, hnon⟩ := nextPiece_starts ch rest
  have hpos : 0 < (nextPiece ch rest).render.length := length_pos_iff.mpr hnon
  refine ⟨_, after, ?_, hs, hv, hf, rfl, ?_⟩
  · rw [pieces, piecesFrom, piecesFrom_skip]
    have hd : rest.drop ((nextPiece ch rest).render.length - 1) = after := by
      have hw : (ch :: rest).drop (nextPiece ch rest).render.length = after := by
        rw [hs]
        exact drop_left
      obtain ⟨n, hn⟩ := Nat.exists_eq_succ_of_ne_zero (Nat.ne_of_gt hpos)
      rw [hn] at hw ⊢
      exact hw
    rw [hd]
  · rw [hs, length_append]
    omega

/-- The pieces of a text make up the text and are well formed. -/
theorem pieces_spec (sql : List Char) : renderAll (pieces sql) = sql ∧ WellFormed (pieces sql) := by
  induction hleh : sql.length using Nat.strong_induction_on generalizing sql with
  | _ n ih =>
    cases sql with
    | nil => exact ⟨rfl, trivial⟩
    | cons ch rest =>
      obtain ⟨piece, after, hpie, hs, hv, hf, -, hsho⟩ := exists_pieces_cons ch rest
      obtain ⟨hren, hfor⟩ := ih after.length (hleh ▸ hsho) after rfl
      rw [hpie, renderAll_cons, hren]
      refine ⟨hs.symm, ⟨hv, ?_⟩, hfor⟩
      rwa [hren]

end Logex.LegacySql
