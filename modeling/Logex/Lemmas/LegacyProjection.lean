import Logex.Lemmas.Legacy

/-!
# The omitted projection

When the lexer finds `SELECT` and `FROM` as the first tokens of a text, its pieces begin with them too, with nothing but white space
and line comments before and between, and the pass inserts the projection right after `SELECT`.
-/

namespace Logex.LegacySql

open Lib List

variable {fou : Option Token} {pos len : Nat} {ch : Char}

/-! ## White space and comments -/

theorem tokenizeFrom_skip (pos : Nat) (t rest : List Char) :
    tokenizeFrom pos t.length (t ++ rest) = tokenizeFrom (pos + t.length) 0 rest := by
  induction t generalizing pos with
  | nil => rfl
  | cons c t ih =>
    rw [length_cons, cons_append, tokenizeFrom, ih, add_assoc, add_comm 1]

/-- One step of the lexer. -/
theorem tokenizeFrom_step {pos : Nat} {t aft : List Char} {tk : Option Token}
    (h : lexNext pos ch (t ++ aft) = .ok (tk, t.length + 1)) :
    tokenizeFrom pos 0 (ch :: (t ++ aft)) = (tk.toList ++ ·) <$> tokenizeFrom (pos + 1 + t.length) 0 aft := by
  rw [tokenizeFrom, h]
  change (tokenizeFrom (pos + 1) t.length (t ++ aft) >>= _) = _
  rw [tokenizeFrom_skip]
  rfl

theorem map_nil_append (tok : Except LexError (List Token)) : ((none : Option Token).toList ++ ·) <$> tok = tok := by
  cases tok <;> rfl

/-- The text from the end of a line comment on. -/
theorem leadingTrivia_comment (body aft : List Char) (hb : '\n' ∉ body) (ha : ∀ c ∈ aft.head?, c = '\n') :
    leadingTrivia true (body ++ aft) = body.length + leadingTrivia false aft := by
  induction body with
  | nil =>
    cases aft with
    | nil => rfl
    | cons c aft =>
      obtain rfl := ha c rfl
      rw [nil_append, length_nil, zero_add]
      rfl
  | cons c body ih =>
    rw [mem_cons, not_or] at hb
    have hne : (c != '\n') = true := bne_iff_ne.mpr (Ne.symm hb.1)
    rw [cons_append, leadingTrivia, hne, ih hb.2, length_cons]
    omega

/-- What stands before the first token. -/
structure Trivia (chars : List Char) (lead : List Piece) (after : List Char) : Prop where
  split : chars = renderAll lead ++ after
  pieces_eq : pieces chars = lead ++ pieces after
  trivia : ∀ piece ∈ lead, piece.IsTrivia
  length_eq : (renderAll lead).length = leadingTrivia false chars
  tokens : ∀ pos, ∃ pos', tokenizeFrom pos 0 chars = tokenizeFrom pos' 0 after
  token : ∀ ch rest, after = ch :: rest → isWhitespace ch = false ∧ ¬(ch = '-' ∧ rest.head? = some '-')
  boundary : after ≠ [] → ∀ c ∈ (renderAll lead).getLast?, isIdentifierChar c = false

/-- One more piece before it. -/
theorem Trivia.cons {pc : Piece} {cha aft : List Char} {lead : List Piece} (h : Trivia cha lead aft) (hp : pc.IsTrivia)
    (hpie : pieces (pc.render ++ cha) = pc :: pieces cha)
    (hleh : leadingTrivia false (pc.render ++ cha) = pc.render.length + leadingTrivia false cha)
    (htok : ∀ pos, ∃ pos', tokenizeFrom pos 0 (pc.render ++ cha) = tokenizeFrom pos' 0 cha)
    (hl : lead = [] → aft ≠ [] → ∀ c ∈ pc.render.getLast?, isIdentifierChar c = false) :
    Trivia (pc.render ++ cha) (pc :: lead) aft where
  split := by rw [renderAll_cons, List.append_assoc, ← h.split]
  pieces_eq := by rw [hpie, h.pieces_eq, cons_append]
  trivia := forall_mem_cons.mpr ⟨hp, h.trivia⟩
  length_eq := by rw [renderAll_cons, length_append, h.length_eq, hleh]
  tokens pos := by
    obtain ⟨pos', hs⟩ := htok pos
    obtain ⟨pos'', hr⟩ := h.tokens pos'
    exact ⟨pos'', hs.trans hr⟩
  token := h.token
  boundary hne c hc := by
    rw [renderAll_cons, getLast?_append] at hc
    cases hr : (renderAll lead).getLast? with
    | some d =>
      rw [hr] at hc
      exact h.boundary hne c (hr.trans hc)
    | none =>
      rw [hr] at hc
      -- Trivia has text, so nothing follows the piece.
      have hnil : lead = [] := by
        cases lead with
        | nil => rfl
        | cons o lead =>
          have hem := getLast?_eq_none_iff.mp hr
          have hother := (append_eq_nil_iff.mp (renderAll_cons o lead ▸ hem)).1
          have htri := h.trivia o mem_cons_self
          cases o with
          | word cha | literal kind spelled cs => exact absurd htri id
          | symbol c => nomatch hother
          | enclosed kind cs closed => cases kind <;> nomatch hother
      exact hl hnil hne c hc

theorem exists_trivia (cha : List Char) : ∃ lead after, Trivia cha lead after := by
  induction hleh : cha.length using Nat.strong_induction_on generalizing cha with
  | _ n ih =>
    cases cha with
    | nil => exact ⟨[], [], rfl, rfl, forall_mem_nil _, rfl, fun pos => ⟨pos, rfl⟩, (fun _ _ h => by cases h), (fun _ _ h => by cases h)⟩
    | cons ch rest =>
      rw [length_cons] at hleh
      by_cases hsp : isWhitespace ch = true
      · obtain ⟨hide, hq, hdou, hd, hsl⟩ := not_identifier_of_isWhitespace hsp
        obtain ⟨lead, after, h⟩ := ih rest.length (by omega) rest rfl
        have hn : nextPiece ch rest = .symbol ch := by
          rw [nextPiece, hide, if_neg Bool.false_ne_true, if_neg hq, if_neg hdou, if_neg fun h => hd h.1, if_neg fun h => hsl h.1]
        have htri : (Piece.symbol ch).IsTrivia := hsp
        refine ⟨.symbol ch :: lead, after, h.cons htri ?_ ?_ (fun pos => ⟨pos + 1, ?_⟩) fun _ _ c hc => ?_⟩
        · change pieces (ch :: rest) = _
          rw [pieces, piecesFrom, hn]
          rfl
        · change leadingTrivia false (ch :: rest) = _
          rw [leadingTrivia, if_pos hsp, add_comm]
          rfl
        · change tokenizeFrom pos 0 (ch :: rest) = _
          have hlex : lexNext pos ch ([] ++ rest) = .ok (none, ([] : List Char).length + 1) := by
            rw [lexNext, if_pos hsp]
            rfl
          exact (tokenizeFrom_step hlex).trans (map_nil_append _)
        · cases hc
          exact hide
      · by_cases hcom : ch = '-' ∧ rest.head? = some '-'
        · obtain ⟨rfl, hd⟩ := hcom
          cases rest with
          | nil => cases hd
          | cons next rest =>
            obtain rfl : next = '-' := Option.some.inj hd
            have hs := @takeWhile_append_dropWhile _ (fun c => decide (c ≠ '\n')) rest
            generalize hb : rest.takeWhile (fun c => decide (c ≠ '\n')) = body at hs
            generalize ha : rest.dropWhile (fun c => decide (c ≠ '\n')) = line at hs
            have hnew : '\n' ∉ body := by
              rw [← hb]
              intro hmem
              have hne := of_mem_takeWhile hmem
              simp at hne
            have hl : ∀ c ∈ line.head?, c = '\n' := by
              intro c hc
              have hh := head?_dropWhile_not (fun c => decide (c ≠ '\n')) rest
              rw [ha, hc] at hh
              simpa using hh
            have hsho : line.length < n := by
              have hlen := congrArg List.length hs
              rw [length_append] at hlen
              rw [length_cons] at hleh
              omega
            obtain ⟨lead, after, h⟩ := ih line.length hsho line rfl
            have hren : (Piece.enclosed .lineComment body true).render ++ line = '-' :: '-' :: rest := by
              rw [← hs]
              simp [Piece.render, Enclosure.opening, Enclosure.closing]
            have hn : nextPiece '-' ('-' :: rest) = .enclosed .lineComment body true := by
              rw [← hb]
              rfl
            have hco : (Piece.enclosed .lineComment body true).render.length = body.length + 2 := by
              simp [Piece.render, Enclosure.opening, Enclosure.closing]
            rw [← hren]
            refine ⟨.enclosed .lineComment body true :: lead, after, h.cons trivial ?_ ?_ (fun pos => ?_) fun hle hne => ?_⟩
            · rw [hren, pieces, piecesFrom, hn, hco, piecesFrom_skip, ← hs]
              change _ :: pieces (('-' :: (body ++ line)).drop (body.length + 1)) = _
              rw [drop_succ_cons, drop_left]
            · rw [hren, hco, ← hs]
              change leadingTrivia true ('-' :: (body ++ line)) + 1 = _
              have hdas := leadingTrivia_comment ('-' :: body) line (by
                rw [mem_cons, not_or]
                exact ⟨by decide, hnew⟩) hl
              rw [cons_append] at hdas
              rw [hdas, length_cons]
              omega
            · have ht : ('-' :: body ++ line).takeWhile (fun c => decide (c ≠ '\n')) = '-' :: body := by
                rw [cons_append, takeWhile_cons_of_pos (by decide), hs, hb]
              have hlex : lexNext pos '-' ('-' :: body ++ line) = .ok (none, ('-' :: body).length + 1) := by
                rw [← congrArg List.length ht]
                rfl
              rw [hren, ← hs]
              exact ⟨_, (tokenizeFrom_step hlex).trans (map_nil_append _)⟩
            · -- A comment is followed by the end of its line, which is white space.
              have hsa : line = after := by
                rw [h.split, hle]
                rfl
              cases line with
              | nil => exact absurd hsa.symm hne
              | cons c line =>
                obtain rfl := hl c rfl
                exact absurd (h.token _ _ hsa.symm).1 (by decide)
        · refine ⟨[], ch :: rest, rfl, rfl, forall_mem_nil _, ?_, fun pos => ⟨pos, rfl⟩, ?_, (fun _ _ h => by cases h)⟩
          · rw [leadingTrivia, if_neg hsp, if_neg hcom]
            rfl
          · rintro c tail h
            obtain ⟨rfl, rfl⟩ := List.cons.inj h
            exact ⟨Bool.eq_false_of_not_eq_true hsp, hcom⟩

/-! ## The first words -/

theorem eqIgnoreAsciiCase_of_toUpper {word tgt : List Char} {hi : String} (h : String.ofList (word.map Char.toUpper) = hi)
    (htgt : hi.toList.map Char.toLower = tgt.map Char.toLower) : eqIgnoreAsciiCase word tgt = true := by
  have hmap : word.map Char.toUpper = hi.toList := by
    rw [← h, String.toList_ofList]
  rw [eqIgnoreAsciiCase, beq_iff_eq, ← htgt, ← hmap, map_map]
  exact map_congr_left fun c _ => (toLower_toUpper c).symm

/-- The keywords the pass looks for. -/
theorem keyword_eq {word : List Char} : (keyword word = .select → eqIgnoreAsciiCase word "select".toList = true) ∧
      (keyword word = .from → eqIgnoreAsciiCase word "from".toList = true) := by
  unfold keyword
  split
  next h => exact ⟨fun _ => eqIgnoreAsciiCase_of_toUpper h (by decide), nofun⟩
  next h => exact ⟨nofun, fun _ => eqIgnoreAsciiCase_of_toUpper h (by decide)⟩
  all_goals exact ⟨nofun, nofun⟩

theorem lexPrefixed_eq_ok {word after : List Char} {tk : List Char → Token} {unt : String}
    (h : lexPrefixed pos word after tk unt = .ok (fou, len)) : ∃ cs, fou = some (tk cs) := by
  unfold lexPrefixed at h
  split at h
  next cs _ =>
    obtain ⟨rfl, -⟩ := Prod.mk.inj (Except.ok.inj h)
    exact ⟨cs, rfl⟩
  · nomatch h

/-- A word that is the token `SELECT` or `FROM` is a keyword, and takes its own characters only. -/
theorem lexWord_keyword {chars : List Char} (h : lexWord pos chars = .ok (fou, len)) :
    ∃ token, fou = some token ∧ (token = .select ∨ token = .from →
      keyword (chars.takeWhile isIdentifierChar) = token ∧ len = (chars.takeWhile isIdentifierChar).length) := by
  unfold lexWord at h
  dsimp only at h
  split at h
  · obtain ⟨contents, rfl⟩ := lexPrefixed_eq_ok h
    exact ⟨_, rfl, by rintro (h | h) <;> nomatch h⟩
  · split at h
    · obtain ⟨contents, rfl⟩ := lexPrefixed_eq_ok h
      exact ⟨_, rfl, by rintro (h | h) <;> nomatch h⟩
    · split at h
      · obtain ⟨rfl, -⟩ := Prod.mk.inj (Except.ok.inj h)
        refine ⟨_, rfl, ?_⟩
        split <;> rintro (h | h) <;> nomatch h
      · cases h
        exact ⟨_, rfl, fun _ => ⟨rfl, rfl⟩⟩

theorem of_ite_eq {α : Type} {c Q : Prop} [Decidable c] {a b r : α} (hpos : c → a = r → Q) (hneg : ¬c → b = r → Q)
    (h : (if c then a else b) = r) : Q := by
  by_cases hc : c
  · exact hpos hc ((if_pos hc).symm.trans h)
  · exact hneg hc ((if_neg hc).symm.trans h)

/-- A character that is neither white space nor a comment starts a token; `SELECT` and `FROM` are words. -/
theorem lexNext_token {rest : List Char} (hs : isWhitespace ch = false)
    (hcom : ¬(ch = '-' ∧ rest.head? = some '-')) (h : lexNext pos ch rest = .ok (fou, len)) :
    ∃ tk, fou = some tk ∧ (tk = .select ∨ tk = .from →
      isIdentifierChar ch = true ∧ lexWord pos (ch :: rest) = .ok (fou, len)) := by
  have hother : ∀ tk n, tk ≠ .select ∧ tk ≠ .from → Except.ok (some tk, n) = (.ok (fou, len) : Except LexError _) →
      ∃ tk, fou = some tk ∧ (tk = .select ∨ tk = .from →
        isIdentifierChar ch = true ∧ lexWord pos (ch :: rest) = .ok (fou, len)) := by
    intro tk n hne heq
    obtain ⟨rfl, -⟩ := Prod.mk.inj (Except.ok.inj heq)
    exact ⟨tk, rfl, fun hkey => absurd hkey (not_or.mpr hne)⟩
  rw [lexNext, hs, if_neg Bool.false_ne_true, if_neg hcom] at h
  revert h
  -- The fourteen symbols, none of which is a keyword.
  iterate 14 refine of_ite_eq (fun _ => hother _ _ ⟨nofun, nofun⟩) fun _ => ?_
  refine of_ite_eq (fun _ h => ?_) fun _ => of_ite_eq (fun _ h => ?_) fun _ => of_ite_eq (fun hw h => ?_) nofun
  · split at h
    · exact hother (.stringLit _) _ ⟨nofun, nofun⟩ h
    · nomatch h
  · unfold lexNumber at h
    dsimp only at h
    split at h
    · exact hother (.number _) _ ⟨nofun, nofun⟩ h
    · nomatch h
  · obtain ⟨tk, rfl, -⟩ := lexWord_keyword h
    refine ⟨tk, rfl, fun _ => ⟨?_, h⟩⟩
    rcases hw with ha | rfl
    · rw [isIdentifierChar, isAsciiAlphanumeric, ha]
      rfl
    · decide

/-- The first token, when it is one of the two keywords: the word it is, and what follows. -/
theorem first_word {pos : Nat} {rest : List Char} {fst : Token} {tok : List Token} (hs : isWhitespace ch = false)
    (hcom : ¬(ch = '-' ∧ rest.head? = some '-')) (h : tokenizeFrom pos 0 (ch :: rest) = .ok (fst :: tok))
    (hf : fst = .select ∨ fst = .from) :
    ∃ word after pos', ch :: rest = word ++ after ∧ keyword word = fst ∧ EndsWord after.head? ∧
      pieces (ch :: rest) = .word word :: pieces after ∧ tokenizeFrom pos' 0 after = .ok tok := by
  obtain ⟨⟨fou, len⟩, hlex, h⟩ := bind_eq_ok.mp h
  obtain ⟨later, hl, h⟩ := bind_eq_ok.mp h
  obtain ⟨token, rfl, ht⟩ := lexNext_token hs hcom hlex
  obtain ⟨rfl, rfl⟩ := List.cons.inj (Except.ok.inj h)
  obtain ⟨hide, hw⟩ := ht hf
  obtain ⟨_, ht, hkey⟩ := lexWord_keyword hw
  cases ht
  obtain ⟨hkey, hleh⟩ := hkey hf
  have hsp := @takeWhile_append_dropWhile _ isIdentifierChar (ch :: rest)
  have hen := endsWord_dropWhile (ch :: rest)
  have hd := drop_takeWhile isIdentifierChar (ch :: rest)
  have hc : ∃ tail, (ch :: rest).takeWhile isIdentifierChar = ch :: tail := ⟨_, takeWhile_cons_of_pos hide⟩
  have hn : nextPiece ch rest =
      (literalPiece ((ch :: rest).takeWhile isIdentifierChar) ((ch :: rest).dropWhile isIdentifierChar)).getD
        (.word ((ch :: rest).takeWhile isIdentifierChar)) := by
    rw [nextPiece, if_pos hide]
    dsimp only
    rw [hd]
  generalize (ch :: rest).takeWhile isIdentifierChar = word at *
  generalize (ch :: rest).dropWhile isIdentifierChar = after at *
  obtain ⟨tail, rfl⟩ := hc
  obtain rfl : tail ++ after = rest := (List.cons.inj hsp).2
  have hlit : literalPiece (ch :: tail) after = none := by
    cases hp : literalPiece (ch :: tail) after with
    | none => rfl
    | some piece =>
      obtain ⟨kind, -, -, hspe, -⟩ := literalPiece_eq_some hp
      have hleh := length_eq_of_eqIgnoreAsciiCase hspe
      rcases hf with rfl | rfl
      · rw [length_eq_of_eqIgnoreAsciiCase (keyword_eq.1 hkey)] at hleh
        cases kind <;> exact absurd hleh (by decide)
      · rw [length_eq_of_eqIgnoreAsciiCase (keyword_eq.2 hkey)] at hleh
        cases kind <;> exact absurd hleh (by decide)
  rw [hlit, Option.getD_none] at hn
  refine ⟨ch :: tail, after, pos + 1 + tail.length, rfl, hkey, hen, ?_, ?_⟩
  · rw [pieces, piecesFrom, hn, piecesFrom_skip]
    change _ :: pieces ((tail ++ after).drop tail.length) = _
    rw [drop_left]
  · change _ = Except.ok later
    rw [← hl, hleh, ← tokenizeFrom_skip]
    rfl

/-- Where the leading `SELECT` ends. -/
theorem findLeadingSelectEnd_eq {lead word after : List Char} (hleh : lead.length = leadingTrivia false (lead ++ (word ++ after)))
    (hl : ∀ c ∈ lead.getLast?, isIdentifierChar c = false) (hw : eqIgnoreAsciiCase word "select".toList = true)
    (ha : EndsWord after.head?) : findLeadingSelectEnd (lead ++ (word ++ after)) = some (lead.length + word.length) := by
  have hsix : word.length = 6 := length_eq_of_eqIgnoreAsciiCase hw
  have hf : ((lead ++ (word ++ after)).drop lead.length).take 6 = word := by
    rw [drop_left, ← hsix, take_left]
  have hn : (lead ++ (word ++ after))[lead.length + 6]? = after.head? := by
    rw [getElem?_append_right (Nat.le_add_right _ _), Nat.add_sub_cancel_left, ← hsix,
      getElem?_append_right le_rfl, Nat.sub_self, head?_eq_getElem?]
  have hall : ∀ next : Option Char, EndsWord next → next.all (!isIdentifierChar ·) = true := by
    intro next hen
    cases next with
    | none => rfl
    | some c => simp [hen c rfl]
  rw [findLeadingSelectEnd, ← hleh, hf, take_left, hn, hw, hall _ hl, hall _ ha, hsix]
  rfl

/-- The pass over an omitted projection. -/
theorem missing_projection {sql : List Char} {tokens : List Token} (h : tokenize sql = .ok (.select :: .from :: tokens)) :
    ∃ lead select gap rest, MissingProjection sql lead select gap rest ∧
      rewriteMissingSelectProjection sql = renderAll (lead ++ .word select :: .symbol ' ' :: .symbol '*' :: gap ++ rest) := by
  have hrew : ∀ selectEnd, findLeadingSelectEnd sql = some selectEnd →
      rewriteMissingSelectProjection sql = sql.take selectEnd ++ " *".toList ++ sql.drop selectEnd := by
    intro selectEnd hend
    rw [rewriteMissingSelectProjection, h, hend]
  obtain ⟨lead, after, hl⟩ := exists_trivia sql
  obtain ⟨pos, htok⟩ := hl.tokens 0
  rw [tokenize, htok] at h
  cases after with
  | nil => nomatch h
  | cons ch rest =>
    obtain ⟨hs, hcom⟩ := hl.token ch rest rfl
    obtain ⟨select, after, pos, hsel, hkey, hen, hpie, h⟩ := first_word hs hcom h (.inl rfl)
    obtain ⟨gap, later, hgap⟩ := exists_trivia after
    obtain ⟨pos, htok⟩ := hgap.tokens pos
    rw [htok] at h
    cases later with
    | nil => nomatch h
    | cons next tail =>
      obtain ⟨hs, hcom⟩ := hgap.token next tail rfl
      obtain ⟨word, last, -, -, hf, -, hla, -⟩ := first_word hs hcom h (.inr rfl)
      have hw := keyword_eq.1 hkey
      refine ⟨lead, select, gap, pieces (next :: tail), ⟨?_, hl.trivia, hw, hgap.trivia, word, pieces last, hla, keyword_eq.2 hf⟩, ?_⟩
      · rw [hl.pieces_eq, hpie, hgap.pieces_eq, List.append_assoc, cons_append]
      · have hleh := hl.length_eq
        have hbou := hl.boundary nofun
        rw [hl.split, hsel] at hrew hleh ⊢
        rw [hrew _ (findLeadingSelectEnd_eq hleh hbou hw hen)]
        rw [← List.append_assoc, ← length_append, take_left, drop_left]
        simp only [renderAll_append, renderAll_cons, (pieces_spec _).1, List.append_assoc, cons_append]
        rw [← hgap.split]
        rfl

/-- Without the two keywords at its start, a text is left as it is. -/
theorem rewriteMissingSelectProjection_eq {sql : List Char} (h : ∀ tok, tokenize sql ≠ .ok (.select :: .from :: tok)) :
    rewriteMissingSelectProjection sql = sql := by
  unfold rewriteMissingSelectProjection
  split
  next tok htok => exact absurd htok (h tok)
  · rfl

section Inserted

variable {lead gap : List Piece} {select : List Char} (hsel : eqIgnoreAsciiCase select "select".toList = true)
  (hfor : WellFormed (lead ++ .word select :: gap))

include hfor

/-- The projection goes between words. -/
theorem wellFormed_project : WellFormed (lead ++ .word select :: .symbol ' ' :: .symbol '*' :: gap) := by
  have hv := hfor.right.1.1
  have hspace : (Piece.symbol ' ').Valid := ⟨by decide, by decide⟩
  have hstar : (Piece.symbol '*').Valid := ⟨by decide, by decide⟩
  refine hfor.replace ⟨⟨hv, endsWord_some (by decide)⟩, ⟨hspace, trivial⟩, ⟨hstar, trivial⟩, hfor.right.2⟩ ?_
  change (select ++ _).head? = (select ++ _).head?
  rw [head?_append_of_ne_nil _ hv.1, head?_append_of_ne_nil _ hv.1]

omit hfor in
/-- The pass over `LATEST` does not see it. -/
theorem latestSafe_project (inString : Bool) :
    latestSafe inString (lead ++ .word select :: .symbol ' ' :: .symbol '*' :: gap) = latestSafe inString (lead ++ .word select :: gap) := by
  induction lead generalizing inString with
  | nil =>
    rw [nil_append, nil_append, latestSafe, latestSafe]
    congr 1
    cases quoteOpen inString (Piece.word select).render <;> rfl
  | cons piece lead ih => rw [cons_append, cons_append, latestSafe, latestSafe, ih]

include hsel

/-- Nor do the passes over prefixes, and what stands before it looks the same to them. -/
theorem prefixSafe_project (kind : LegacyPrefix) :
    prefixSafe kind (lead ++ .word select :: .symbol ' ' :: .symbol '*' :: gap) = prefixSafe kind (lead ++ .word select :: gap) := by
  have hsix : select.length = 6 := length_eq_of_eqIgnoreAsciiCase hsel
  induction lead with
  | nil =>
    obtain ⟨⟨hv, hf⟩, -⟩ := hfor
    have hends : endsInPrefix kind select = false := by
      rw [endsInPrefix_congr hsel]
      cases kind <;> decide
    have hselect : ∀ rest : List Char, EndsWord rest.head? → mentionsPrefix kind.word rest (Piece.word select).render = false :=
      fun rest hrest => mentionsPrefix_eq_false (quote_not_mem_word hv.2) hrest fun _ => hends
    have hsymbol : ∀ c : Char, isIdentifierChar c = false → ∀ rest, mentionsPrefix kind.word rest (Piece.symbol c).render = false := by
      intro c hide rest
      change (matchesPrefix kind.word (c :: rest) || false) = false
      rw [matchesPrefix_symbol hide]
      rfl
    rw [nil_append, nil_append, prefixSafe, prefixSafe, prefixSafe, prefixSafe, hselect _ hf,
      hselect (renderAll (.symbol ' ' :: .symbol '*' :: gap)) (endsWord_some (by decide)), hsymbol ' ' (by decide), hsymbol '*' (by decide)]
    rfl
  | cons piece lead ih =>
    obtain ⟨⟨hv, hf⟩, hfor⟩ := hfor
    have hag : Agree (renderAll (lead ++ .word select :: gap)) (renderAll (lead ++ .word select :: .symbol ' ' :: .symbol '*' :: gap)) := by
      have hne : select ≠ [] := by
        rintro rfl
        exact absurd hsix (by decide)
      refine .inl ⟨?_, ?_⟩
      · rw [renderAll_append, renderAll_append, head?_append, head?_append]
        change ((renderAll lead).head?.or (select ++ _).head?) = (renderAll lead).head?.or (select ++ _).head?
        rw [head?_append_of_ne_nil _ hne, head?_append_of_ne_nil _ hne]
      · have hlong : ∀ pieces : List Piece, 1 < (renderAll (lead ++ .word select :: pieces)).length := by
          intro pieces
          rw [renderAll_append, renderAll_cons, length_append, length_append, Piece.render, hsix]
          omega
        exact iff_of_false (hlong _).not_ge (hlong _).not_ge
    rw [cons_append, cons_append, prefixSafe, prefixSafe, mentionsPrefix_agree (apart_of_fits hv hf) hag, ih hfor]
    rfl

end Inserted

/-- The pass over an omitted projection gives the text of pieces that are as well formed and as safe as those of the text. -/
theorem exists_projected (sql : List Char) :
    ∃ projected, Projected sql projected ∧ rewriteMissingSelectProjection sql = renderAll projected ∧ WellFormed projected ∧
      latestSafe false projected = latestSafe false (pieces sql) ∧
      ∀ kind, prefixSafe kind projected = prefixSafe kind (pieces sql) := by
  obtain ⟨hrender, hfor⟩ := pieces_spec sql
  by_cases homits : OmitsProjection sql
  · obtain ⟨tokens, htokens⟩ := homits
    obtain ⟨lead, select, gap, rest, hmissing, hrewrite⟩ := missing_projection htokens
    refine ⟨_, ⟨fun _ => ⟨lead, select, gap, rest, hmissing, rfl⟩, fun hnot => absurd ⟨tokens, htokens⟩ hnot⟩, hrewrite, ?_⟩
    rw [hmissing.pieces_eq, List.append_assoc] at hfor ⊢
    rw [List.append_assoc]
    exact ⟨wellFormed_project hfor, latestSafe_project false, prefixSafe_project hmissing.select hfor⟩
  · refine ⟨pieces sql, ⟨fun h => absurd h homits, fun _ => rfl⟩, ?_, hfor, rfl, fun _ => rfl⟩
    rw [hrender]
    exact rewriteMissingSelectProjection_eq fun tokens htokens => homits ⟨tokens, htokens⟩

end Logex.LegacySql
