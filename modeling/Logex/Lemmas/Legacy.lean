import Logex.Lemmas.SqlPieces

/-!
# The legacy passes over pieces

Each pass, run on the text of a well-formed sequence of pieces, does to it what it is meant to do piece by piece, exactly where it sees
nothing else. A pass that sees something else writes a digit or a quote where a letter belongs; the pass lemmas follow by induction
over the pieces.
-/

namespace Logex.LegacySql

open Lib List
open Piece (render)
open Enclosure (closing opening)

variable {prev : Option Char} {piece : Piece} {c : Char} {t : List Char} {next : Option Char} {chars : List Char}

/-! ## Where a keyword can stand -/

theorem eqIgnoreAsciiCase_false_of_symbol {a b : List Char} (hc : c ∈ a) (hide : isIdentifierChar c = false)
    (hb : ∀ c ∈ b, isIdentifierChar c) : eqIgnoreAsciiCase a b = false := by
  cases hca : eqIgnoreAsciiCase a b with
  | false => rfl
  | true => exact absurd (all_isIdentifierChar hca hb c hc) (by rw [hide]; exact Bool.false_ne_true)

theorem latest_identifier : ∀ c ∈ "latest".toList, isIdentifierChar c := all_eq_true.mp (by decide)

variable {rest : List Char} {headBlock : Nat} {kind : LegacyPrefix} {text rewrite : List Char → Except LegacySyntax (List Char)}
  {inString : Bool}

/-- What follows a text does not go on with its last word. -/
def Apart (t rest : List Char) : Prop := EndsWord rest.head? ∨ EndsWord t.getLast?

theorem Apart.tail (h : Apart (c :: t) rest) : Apart t rest := by
  refine h.imp_right fun hlast d hd => hlast d ?_
  rw [getLast?_cons, Option.mem_def.mp hd]
  rfl

/-- Whether `LATEST` stands at the start of a text does not depend on what follows, if that does not go on with a word. -/
theorem latestAt_append (prev : Option Char) (hne : t ≠ []) (h : Apart t rest) : latestAt prev (t ++ rest) = latestAt prev t := by
  have hcut : ∀ {d after}, isIdentifierChar d = false → d ∈ (t ++ after).take 6 → latestAt prev (t ++ after) = false := by
    intro d after hide hmem
    rw [latestAt, eqIgnoreAsciiCase_false_of_symbol hmem hide latest_identifier, Bool.false_and, Bool.false_and]
  rcases lt_or_ge 6 t.length with hl | hs
  · rw [latestAt, latestAt, take_append_of_le_length hl.le, getElem?_append_left hl]
  · rcases h with hr | hlast
    · cases rest with
      | nil => rw [append_nil]
      | cons d rest =>
        have hide : isIdentifierChar d = false := hr d rfl
        rcases lt_or_eq_of_le hs with hs | hsix
        · have hshort : latestAt prev t = false := by
            rw [latestAt]
            cases hc : eqIgnoreAsciiCase (t.take 6) "latest".toList with
            | false => rfl
            | true =>
              have hlen := length_eq_of_eqIgnoreAsciiCase hc
              rw [length_take] at hlen
              have hlatest : "latest".toList.length = 6 := by decide
              omega
          rw [hshort]
          refine hcut hide ?_
          rw [mem_take_iff_getElem]
          exact ⟨t.length, by rw [length_append, length_cons]; omega, by simp⟩
        · rw [latestAt, latestAt, take_append_of_le_length hsix.ge, getElem?_append_right hsix.le, hsix,
            getElem?_eq_none hsix.le]
          simp [hide]
    · -- The last character of the text is among the six and no letter.
      have hide := hlast _ (getLast?_eq_some_getLast hne)
      have hmem : ∀ after, t.getLast hne ∈ (t ++ after).take 6 := by
        intro after
        rw [take_append, take_of_length_le hs]
        exact mem_append_left _ (getLast_mem hne)
      have hnil := hcut hide (hmem [])
      rw [append_nil] at hnil
      rw [hcut hide (hmem rest), hnil]

theorem latestAt_symbol (prev : Option Char) (hide : isIdentifierChar c = false) (rest : List Char) :
    latestAt prev (c :: rest) = false := by
  have hc : eqIgnoreAsciiCase ((c :: rest).take 6) "latest".toList = false :=
    eqIgnoreAsciiCase_false_of_symbol mem_cons_self hide latest_identifier
  rw [latestAt, hc, Bool.false_and, Bool.false_and]

theorem latestAt_of_endsWord (h : EndsWord prev) (chars : List Char) : latestAt prev chars = latestAt none chars := by
  have hp : prev.all (!isIdentifierChar ·) = true := by
    cases prev with
    | none => rfl
    | some c =>
      change (!isIdentifierChar c) = true
      rw [h c rfl]
      rfl
  rw [latestAt, latestAt, hp]
  rfl

theorem mentionsLatest_of_endsWord (h : EndsWord prev ∨ EndsWord t.head?) :
    mentionsLatest inString prev t = mentionsLatest inString none t := by
  cases t with
  | nil => rfl
  | cons c t =>
    rw [mentionsLatest, mentionsLatest]
    rcases h with h | h
    · rw [latestAt_of_endsWord h]
    · rw [latestAt_symbol prev (h c rfl), latestAt_symbol none (h c rfl)]

theorem quoteOpen_cons (inString : Bool) (c : Char) (t : List Char) :
    quoteOpen inString (c :: t) = quoteOpen (if c = '\'' then !inString else inString) t := rfl

theorem quoteOpen_of_not_mem (h : '\'' ∉ t) : quoteOpen inString t = inString := by
  induction t with
  | nil => rfl
  | cons c t ih =>
    rw [mem_cons, not_or] at h
    rw [quoteOpen_cons, if_neg (Ne.symm h.1), ih h.2]

/-- Between quotes the pass sees nothing. -/
theorem mentionsLatest_inside (h : '\'' ∉ t) : mentionsLatest true prev t = false := by
  induction t generalizing prev with
  | nil => rfl
  | cons c t ih =>
    rw [mem_cons, not_or] at h
    rw [mentionsLatest, if_neg (Ne.symm h.1), ih h.2]
    rfl

/-! ## Replacing `LATEST` -/

theorem decimal_digits (n : Nat) : ∀ c ∈ decimal n, 48 ≤ c.toNat ∧ c.toNat ≤ 57 := by
  intro c hc
  rw [decimal, Nat.toString_eq_repr, Nat.toList_repr] at hc
  have hd := Nat.isDigit_of_mem_toDigits (by decide) (by decide) hc
  simpa [Char.isDigit, UInt32.le_iff_toNat_le] using hd

/-- The head number is a word. -/
theorem decimal_valid (n : Nat) : (Piece.word (decimal n)).Valid := by
  refine ⟨?_, fun c hc => (isIdentifierChar_iff c).mpr (.inr (.inr (.inl (decimal_digits n c hc))))⟩
  rw [decimal, Nat.toString_eq_repr, Nat.toList_repr]
  exact Nat.toDigits_ne_nil

/-- No word that could be `LATEST` starts with a digit. -/
theorem decimal_ne_of_latest (h : eqIgnoreAsciiCase ((c :: t).take 6) "latest".toList = true) (n : Nat) (x y : List Char) :
    decimal n ++ x ≠ c :: y := by
  intro heq
  obtain ⟨d, ds, hd⟩ := exists_cons_of_ne_nil (decimal_valid n).1
  have hdigit := decimal_digits n d (hd ▸ mem_cons_self)
  rw [hd, cons_append] at heq
  obtain ⟨rfl, -⟩ := cons.inj heq
  have hletter : d.toLower = 'l' := by
    have hhead := congrArg head? (eq_of_beq h)
    simpa using hhead
  have hnat : d.toLower.toNat = 108 := by rw [hletter]; rfl
  rw [toNat_toLower, if_neg (by omega)] at hnat
  omega

theorem replaceLatest_skip (prev : Option Char) (inString : Bool) (t rest : List Char) :
    replaceLatestFrom headBlock prev inString t.length (t ++ rest) = replaceLatestFrom headBlock (t.getLast?.or prev) inString 0 rest := by
  induction t generalizing prev with
  | nil => rfl
  | cons c t ih =>
    rw [length_cons, cons_append, replaceLatestFrom, ih, getLast?_cons]
    cases t.getLast? <;> rfl

/-- A stretch of text in which the pass sees nothing is copied. -/
theorem replaceLatest_copy (hap : Apart t rest) (h : mentionsLatest inString prev t = false) :
    replaceLatestFrom headBlock prev inString 0 (t ++ rest) =
      t ++ replaceLatestFrom headBlock (t.getLast?.or prev) (quoteOpen inString t) 0 rest := by
  induction t generalizing prev inString with
  | nil => rfl
  | cons c t ih =>
    have hlast : (c :: t).getLast?.or prev = t.getLast?.or (some c) := by
      rw [getLast?_cons]
      cases t.getLast? <;> rfl
    rw [mentionsLatest] at h
    rw [hlast, quoteOpen_cons, cons_append, replaceLatestFrom]
    by_cases hc : c = '\''
    · rw [if_pos hc] at h
      rw [if_pos hc, if_pos hc, ih hap.tail h, cons_append]
    · rw [if_neg hc, Bool.or_eq_false_iff] at h
      have hat := latestAt_append prev (cons_ne_nil c t) hap
      rw [cons_append] at hat
      have hno : ¬((!inString) = true ∧ latestAt prev (c :: (t ++ rest)) = true) := by
        rw [hat, ← Bool.and_eq_true, h.1]
        exact Bool.false_ne_true
      rw [if_neg hc, if_neg hno, if_neg hc, ih hap.tail h.2, cons_append]

/-- A stretch of text in which it sees `LATEST` is changed. -/
theorem replaceLatest_ne (hap : Apart t rest) (h : mentionsLatest inString prev t = true) (x : List Char) :
    replaceLatestFrom headBlock prev inString 0 (t ++ rest) ≠ t ++ x := by
  induction t generalizing prev inString with
  | nil => nomatch h
  | cons c t ih =>
    rw [mentionsLatest] at h
    rw [cons_append, cons_append, replaceLatestFrom]
    by_cases hc : c = '\''
    · rw [if_pos hc] at h
      rw [if_pos hc]
      intro heq
      exact ih hap.tail h (cons.inj heq).2
    · rw [if_neg hc, Bool.or_eq_true, Bool.and_eq_true] at h
      have hat := latestAt_append prev (cons_ne_nil c t) hap
      rw [cons_append] at hat
      rw [if_neg hc, hat]
      split
      · next hsees =>
        have hword := hsees.2
        rw [latestAt, Bool.and_eq_true, Bool.and_eq_true] at hword
        exact decimal_ne_of_latest hword.1.1 headBlock _ _
      · next hnot =>
        intro heq
        exact ih hap.tail (h.resolve_left hnot) (cons.inj heq).2

/-- The word `LATEST` becomes the head. -/
theorem replaceLatest_latest (hp : EndsWord prev) {word rest : List Char}
    (hw : eqIgnoreAsciiCase word "latest".toList = true) (hr : EndsWord rest.head?) :
    replaceLatestFrom headBlock prev false 0 (word ++ rest) =
      decimal headBlock ++ replaceLatestFrom headBlock (word.getLast?.or prev) false 0 rest := by
  have hlength : word.length = 6 := length_eq_of_eqIgnoreAsciiCase hw
  have hne : word ≠ [] := by
    rintro rfl
    nomatch hlength
  have hat : latestAt prev (word ++ rest) = true := by
    rw [latestAt_append prev hne (.inl hr), latestAt_of_endsWord hp, latestAt, take_of_length_le (le_of_eq hlength), hw,
      getElem?_eq_none (le_of_eq hlength)]
    rfl
  have hide := all_isIdentifierChar hw latest_identifier
  cases word with
  | nil => exact absurd rfl hne
  | cons c word =>
    have hf : word.length = 5 := Nat.succ.inj hlength
    have hq : c ≠ '\'' := by
      rintro rfl
      exact absurd (hide '\'' mem_cons_self) (by decide)
    rw [cons_append] at hat ⊢
    rw [replaceLatestFrom, if_neg hq, hat, if_pos ⟨rfl, rfl⟩, ← hf, replaceLatest_skip, getLast?_cons]
    cases word.getLast? <;> rfl

/-! ## Rewriting prefixed literals -/

/-- Put text before what a pass returns. -/
def before (t : List Char) (out : Except LegacySyntax (List Char)) : Except LegacySyntax (List Char) := (t ++ ·) <$> out

theorem before_before (s t : List Char) (out : Except LegacySyntax (List Char)) :
    before s (before t out) = before (s ++ t) out := by
  cases out with
  | error e => rfl
  | ok text => exact congrArg Except.ok (List.append_assoc s t text).symm

theorem LegacyPrefix.length_word_pos (kind : LegacyPrefix) : 0 < kind.word.length := by cases kind <;> decide

/-- No prefix goes on over a character that is none of a word. -/
theorem matchesPrefix_cut (hide : isIdentifierChar c = false) (hmem : c ∈ t.take kind.word.length) :
    matchesPrefix kind.word t = false := by
  rw [matchesPrefix, eqIgnoreAsciiCase_false_of_symbol hmem hide kind.word_identifier, Bool.and_false, Bool.false_and]

theorem matchesPrefix_symbol (hide : isIdentifierChar c = false) (rest : List Char) :
    matchesPrefix kind.word (c :: rest) = false := by
  refine matchesPrefix_cut hide ?_
  obtain ⟨n, hn⟩ := Nat.exists_eq_succ_of_ne_zero (Nat.ne_of_gt kind.length_word_pos)
  rw [hn]
  exact mem_cons_self

/-- The prefix would go on past the text, where a word ends. -/
theorem matchesPrefix_short (hs : t.length < kind.word.length) (hr : EndsWord rest.head?) :
    matchesPrefix kind.word (t ++ rest) = false := by
  cases rest with
  | nil => rw [matchesPrefix, decide_eq_false (by rw [append_nil]; omega), Bool.false_and, Bool.false_and]
  | cons d rest =>
    refine matchesPrefix_cut (hr d rfl) ?_
    rw [mem_take_iff_getElem]
    exact ⟨t.length, by rw [length_append, length_cons]; omega, by simp⟩

/-- The prefix would be the whole text. -/
theorem matchesPrefix_whole (heq : t.length = kind.word.length) : matchesPrefix kind.word (t ++ rest) =
    (decide (1 < rest.length) && eqIgnoreAsciiCase t kind.word && rest.head? == some '\'') := by
  have htake : (t ++ rest).take kind.word.length = t := by rw [← heq, take_left]
  have hget : (t ++ rest)[kind.word.length]? = rest.head? := by
    rw [getElem?_append_right (le_of_eq heq), heq, Nat.sub_self, head?_eq_getElem?]
  have hlength : kind.word.length + 1 < (t ++ rest).length ↔ 1 < rest.length := by
    rw [length_append]
    omega
  rw [matchesPrefix, htake, hget, decide_eq_decide.mpr hlength]

/-- No prefix with its quote starts within a stretch of text without quotes, unless the text ends in the prefix before a quote. -/
theorem matchesPrefix_append {t rest : List Char} (hq : '\'' ∉ t) (hr : EndsWord rest.head?)
    (hen : rest.head? = some '\'' → endsInPrefix kind t = false) : matchesPrefix kind.word (t ++ rest) = false := by
  rcases lt_trichotomy t.length kind.word.length with hs | heq | hl
  · exact matchesPrefix_short hs hr
  · rw [matchesPrefix_whole heq]
    by_cases hh : rest.head? = some '\''
    · have hen := hen hh
      rw [endsInPrefix, heq, Nat.sub_self, drop_zero] at hen
      rw [hen, Bool.and_false, Bool.false_and]
    · rw [beq_eq_false_iff_ne.mpr hh, Bool.and_false]
  · -- The quote would stand within the text.
    have hget : (t ++ rest)[kind.word.length]? ≠ some '\'' := by
      rw [getElem?_append_left hl]
      intro hmem
      exact hq (mem_of_getElem? hmem)
    rw [matchesPrefix, beq_eq_false_iff_ne.mpr hget, Bool.and_false]

theorem endsInPrefix_cons (h : endsInPrefix kind (c :: t) = false) : endsInPrefix kind t = false := by
  rcases lt_or_ge t.length kind.word.length with hs | hl
  · cases hen : endsInPrefix kind t with
    | false => rfl
    | true =>
      have hlength := length_eq_of_eqIgnoreAsciiCase hen
      rw [length_drop] at hlength
      omega
  · rw [endsInPrefix] at h ⊢
    rwa [length_cons, Nat.succ_sub hl, drop_succ_cons] at h

theorem endsInPrefix_congr {a b : List Char} (h : eqIgnoreAsciiCase a b = true) : endsInPrefix kind a = endsInPrefix kind b := by
  unfold endsInPrefix eqIgnoreAsciiCase
  rw [length_eq_of_eqIgnoreAsciiCase h, map_drop, map_drop, eq_of_beq h]

theorem rewritePrefixed_skip (t rest : List Char) :
    rewritePrefixedFrom kind.word rewrite t.length (t ++ rest) = rewritePrefixedFrom kind.word rewrite 0 rest := by
  induction t with
  | nil => rfl
  | cons c t ih => rw [length_cons, cons_append, rewritePrefixedFrom, ih]

/-- A stretch of text that does not mention the prefix is copied. -/
theorem rewritePrefixed_copy (h : mentionsPrefix kind.word rest t = false) :
    rewritePrefixedFrom kind.word rewrite 0 (t ++ rest) = before t (rewritePrefixedFrom kind.word rewrite 0 rest) := by
  induction t with
  | nil => cases hout : rewritePrefixedFrom kind.word rewrite 0 rest <;> rw [nil_append, hout] <;> rfl
  | cons c t ih =>
    rw [mentionsPrefix, Bool.or_eq_false_iff, cons_append] at h
    rw [cons_append, rewritePrefixedFrom, h.1, if_neg Bool.false_ne_true, ih h.2]
    exact before_before [c] t _

/-- A stretch of text that mentions it is changed, by a quote where the prefix starts. -/
theorem rewritePrefixed_ne (hquote : ∀ contents out, rewrite contents = .ok out → out.head? = some '\'')
    (h : mentionsPrefix kind.word rest t = true) (x : List Char) :
    rewritePrefixedFrom kind.word rewrite 0 (t ++ rest) ≠ .ok (t ++ x) := by
  induction t with
  | nil => nomatch h
  | cons c t ih =>
    rw [mentionsPrefix, Bool.or_eq_true, cons_append] at h
    rw [cons_append, rewritePrefixedFrom]
    intro heq
    split at heq
    · next hsees =>
      obtain ⟨literal, -, heq⟩ := bind_eq_ok.mp heq
      obtain ⟨rewritten, hrew, heq⟩ := bind_eq_ok.mp heq
      obtain ⟨out, -, heq⟩ := bind_eq_ok.mp heq
      have hhead : (rewritten ++ out).head? = some c := congrArg head? (Except.ok.inj heq)
      rw [head?_append, hquote _ _ hrew] at hhead
      cases hhead
      rw [matchesPrefix_symbol (by decide)] at hsees
      exact Bool.false_ne_true hsees
    · next hnot =>
      obtain ⟨out, hout, heq⟩ := bind_eq_ok.mp heq
      refine ih (h.resolve_left hnot) ?_
      exact hout.trans (congrArg Except.ok (cons.inj (Except.ok.inj heq)).2)

theorem endsWord_quote (rest : List Char) : EndsWord ('\'' :: rest).head? := endsWord_some (by decide)

/-- A stretch of text without quotes does not mention the prefix, unless it ends in it before a quote. -/
theorem mentionsPrefix_eq_false (hq : '\'' ∉ t) (hr : EndsWord rest.head?)
    (hen : rest.head? = some '\'' → endsInPrefix kind t = false) : mentionsPrefix kind.word rest t = false := by
  induction t with
  | nil => rfl
  | cons c t ih =>
    rw [mentionsPrefix, matchesPrefix_append hq hr hen, ih (fun h => hq (mem_cons_of_mem c h)) fun hh => endsInPrefix_cons (hen hh)]
    rfl

/-- A string without the prefix at its end does not mention it. -/
theorem mentionsPrefix_string {contents : List Char} (hq : '\'' ∉ contents) (hen : endsInPrefix kind contents = false)
    (rest : List Char) : mentionsPrefix kind.word rest (Piece.string contents).render = false := by
  have happend : ∀ s : List Char, mentionsPrefix kind.word rest (s ++ ['\'']) = mentionsPrefix kind.word ('\'' :: rest) s := by
    intro s
    induction s with
    | nil =>
      change (matchesPrefix kind.word ('\'' :: rest) || false) = false
      rw [matchesPrefix_symbol (by decide)]
      rfl
    | cons c s ih =>
      rw [cons_append, mentionsPrefix, mentionsPrefix, ih, cons_append, List.append_assoc]
      rfl
  have hrender : (Piece.string contents).render = '\'' :: contents ++ ['\''] := by simp [Piece.string, render, opening, closing]
  rw [hrender, happend, mentionsPrefix, cons_append, matchesPrefix_symbol (by decide),
    mentionsPrefix_eq_false hq (endsWord_quote rest) fun _ => hen]
  rfl

theorem quotedText_append {contents : List Char} (hq : '\'' ∉ contents) (rest : List Char) :
    quotedText (contents ++ '\'' :: rest) = some contents := by
  have ht : (contents ++ '\'' :: rest).takeWhile (· ≠ '\'') = contents := by
    rw [takeWhile_append_of_pos]
    · simp
    · intro c hc
      rw [decide_eq_true_eq]
      rintro rfl
      exact hq hc
  unfold quotedText
  rw [ht, if_pos]
  rw [length_append, length_cons]
  omega

/-- A literal with the prefix is rewritten. -/
theorem rewritePrefixed_literal {spe contents : List Char} (hspe : eqIgnoreAsciiCase spe kind.word = true)
    (hq : '\'' ∉ contents) (rest : List Char) :
    rewritePrefixedFrom kind.word rewrite 0 (spe ++ '\'' :: contents ++ '\'' :: rest) =
      rewrite contents >>= fun text => before text (rewritePrefixedFrom kind.word rewrite 0 rest) := by
  have hlength := length_eq_of_eqIgnoreAsciiCase hspe
  have hm : matchesPrefix kind.word (spe ++ '\'' :: contents ++ '\'' :: rest) = true := by
    rw [matchesPrefix, List.append_assoc, ← hlength, take_left, hspe, getElem?_append_right le_rfl, Nat.sub_self]
    simp
  have ht : (spe ++ '\'' :: contents ++ '\'' :: rest).drop (kind.word.length + 1) = contents ++ '\'' :: rest := by
    rw [List.append_assoc, ← hlength, drop_length_add_append]
    rfl
  cases spe with
  | nil =>
    have hpos := kind.length_word_pos
    rw [← hlength] at hpos
    exact absurd hpos (lt_irrefl 0)
  | cons c spe =>
    have hs : rewritePrefixedFrom kind.word rewrite (kind.word.length + contents.length + 1)
        (spe ++ '\'' :: contents ++ '\'' :: rest) = rewritePrefixedFrom kind.word rewrite 0 rest := by
      have hsp : spe ++ '\'' :: contents ++ '\'' :: rest = (spe ++ '\'' :: contents ++ ['\'']) ++ rest := by simp
      have hc : kind.word.length + contents.length + 1 = (spe ++ '\'' :: contents ++ ['\'']).length := by
        rw [← hlength]
        simp
        omega
      rw [hsp, hc, rewritePrefixed_skip]
    rw [cons_append, cons_append] at hm ht ⊢
    rw [rewritePrefixedFrom, hm, if_pos rfl, ht, quotedText_append hq]
    change (rewrite contents >>= fun text => _) = _
    rw [hs]
    cases rewrite contents with
    | error error => rfl
    | ok text => cases rewritePrefixedFrom kind.word rewrite 0 rest <;> rfl

theorem before_eq_ok {s out : List Char} {result : Except LegacySyntax (List Char)} :
    before s result = .ok out ↔ ∃ after, result = .ok after ∧ out = s ++ after := by
  cases result with
  | error e => exact ⟨nofun, fun h => by obtain ⟨_, h, -⟩ := h; cases h⟩
  | ok after => simp [before, Functor.map, Except.map, eq_comm]

/-! ## Passes over pieces -/

theorem endsWord_newline (h : ∀ c ∈ next, c = '\n') : EndsWord next := by
  intro c hc
  rw [h c hc]
  decide

theorem isIdentifierChar_of_word (hw : chars ≠ [] ∧ ∀ c ∈ chars, isIdentifierChar c) (rest : List Char) :
    ¬EndsWord (chars ++ rest).head? := by
  obtain ⟨hne, hide⟩ := hw
  cases chars with
  | nil => exact absurd rfl hne
  | cons c chars =>
    intro hen
    rw [forall_mem_cons] at hide
    exact absurd hide.1 (by rw [hen c rfl]; exact Bool.false_ne_true)

theorem quote_not_mem_word (hw : ∀ c ∈ chars, isIdentifierChar c) : '\'' ∉ chars := fun hmem =>
  absurd (hw _ hmem) (by decide)

/-- What the pass over `LATEST` does to a piece. -/
def Piece.latest (headBlock : Nat) : Piece → Piece
  | word chars => word (if eqIgnoreAsciiCase chars "latest".toList then decimal headBlock else chars)
  | piece => piece

theorem render_ne_nil (h : piece.Valid) : piece.render ≠ [] := by
  cases piece with
  | word chars => exact h.1
  | symbol c => nofun
  | enclosed kind contents clo => cases kind <;> nofun
  | literal kind spelled contents => simp [render]

theorem head?_renderAll_cons (h : piece.Valid) (rest : List Piece) : (renderAll (piece :: rest)).head? = piece.render.head? := by
  rw [renderAll_cons, head?_append_of_ne_nil _ (render_ne_nil h)]

/-- A well-formed piece does not go on in what follows. -/
theorem apart_of_fits (hv : piece.Valid) (hf : piece.Fits rest.head?) : Apart piece.render rest := by
  cases piece with
  | word chars => exact .inl hf
  | symbol c => exact .inr (endsWord_some hv.1)
  | literal kind spelled contents =>
    refine .inr ?_
    rw [render, getLast?_append]
    exact endsWord_some (by decide)
  | enclosed kind contents closed =>
    cases closed with
    | false => cases kind with
      | lineComment => exact .inl (endsWord_newline hf)
      | _ =>
        have hnone : rest.head? = none := hf rfl
        exact .inl (hnone ▸ endsWord_none)
    | true => cases kind with
      | lineComment => exact .inl (endsWord_newline hf)
      | _ =>
        refine .inr ?_
        rw [render, getLast?_append]
        exact endsWord_some (by decide)

theorem isLatest_eq_true (h : piece.isLatest = true) : ∃ chars, piece = .word chars ∧ eqIgnoreAsciiCase chars "latest".toList = true := by
  cases piece with
  | word chars => exact ⟨chars, rfl, h⟩
  | _ => nomatch h

theorem latest_of_isLatest (h : piece.isLatest = false) : piece.latest headBlock = piece := by
  cases piece with
  | word chars =>
    have hnot : eqIgnoreAsciiCase chars "latest".toList = false := h
    rw [Piece.latest, hnot, if_neg Bool.false_ne_true]
  | _ => rfl

variable {ps ps' : List Piece}

/-- The pass over `LATEST`, on the text of well-formed pieces, does what it is meant to exactly where it sees nothing else. -/
theorem replaceLatest_pieces_iff (hfor : WellFormed ps) (hpr : EndsWord prev ∨ EndsWord (renderAll ps).head?) :
    replaceLatestFrom headBlock prev inString 0 (renderAll ps) = renderAll (ps.map (Piece.latest headBlock)) ↔
      latestSafe inString ps = true := by
  induction ps generalizing prev inString with
  | nil => exact iff_of_true rfl rfl
  | cons piece rest ih =>
    obtain ⟨⟨hv, hf⟩, hfor⟩ := hfor
    have hap := apart_of_fits hv hf
    have hne := render_ne_nil hv
    rw [head?_renderAll_cons hv] at hpr
    have hnext : EndsWord (piece.render.getLast?.or prev) ∨ EndsWord (renderAll rest).head? := by
      refine hap.symm.imp_left fun hlast => ?_
      rw [getLast?_eq_some_getLast hne] at hlast ⊢
      exact hlast
    rw [renderAll_cons, map_cons, renderAll_cons, latestSafe, Bool.and_eq_true]
    cases hlat : piece.isLatest with
    | true =>
      obtain ⟨chars, rfl, hword⟩ := isLatest_eq_true hlat
      have hq := quote_not_mem_word hv.2
      have hout : (Piece.latest headBlock (.word chars)).render = decimal headBlock := by
        rw [Piece.latest, hword, if_pos rfl]
        rfl
      have hprev : EndsWord prev := hpr.resolve_right fun hends => by
        have hnot := isIdentifierChar_of_word hv []
        rw [append_nil] at hnot
        exact hnot hends
      have hap : Apart chars (renderAll rest) := hap
      have hnext : EndsWord (chars.getLast?.or prev) ∨ EndsWord (renderAll rest).head? := hnext
      rw [hout, if_pos rfl]
      change replaceLatestFrom headBlock prev inString 0 (chars ++ renderAll rest) = _ ↔
        _ ∧ latestSafe (quoteOpen inString chars) rest = true
      rw [quoteOpen_of_not_mem hq]
      cases inString with
      | false => rw [replaceLatest_latest hprev hword hf, append_cancel_left_eq, ih hfor hnext, and_iff_right Bool.not_false]
      | true =>
        refine iff_of_false (fun heq => ?_) fun h => nomatch h.1
        rw [replaceLatest_copy hap (mentionsLatest_inside hq)] at heq
        obtain ⟨c, word, rfl⟩ := exists_cons_of_ne_nil hv.1
        have hsix : (c :: word).length ≤ 6 := le_of_eq (length_eq_of_eqIgnoreAsciiCase hword)
        rw [← take_of_length_le hsix] at hword
        exact decimal_ne_of_latest hword headBlock _ _ heq.symm
    | false =>
      rw [latest_of_isLatest hlat, if_neg Bool.false_ne_true, Bool.not_eq_true']
      have hsees : mentionsLatest inString prev piece.render = mentionsLatest inString none piece.render :=
        mentionsLatest_of_endsWord hpr
      cases hm : mentionsLatest inString none piece.render with
      | true => exact iff_of_false (replaceLatest_ne hap (hsees.trans hm) _) fun h => nomatch h.1
      | false => rw [replaceLatest_copy hap (hsees.trans hm), append_cancel_left_eq, ih hfor hnext, and_iff_right rfl]

/-- What a pass over prefixed literals does to a piece. -/
def Piece.substitute (kind : LegacyPrefix) (rewrite : List Char → Except LegacySyntax (List Char)) : Piece → Except LegacySyntax Piece
  | literal k spelled contents => if k = kind then .string <$> rewrite contents else .ok (literal k spelled contents)
  | piece => .ok piece

section

variable (hrew : ∀ contents, rewrite contents = (fun t => '\'' :: t ++ ['\'']) <$> text contents)

include hrew

theorem head?_of_rewrite (contents out : List Char) (h : rewrite contents = .ok out) : out.head? = some '\'' := by
  rw [hrew] at h
  cases htext : text contents with
  | error e =>
    rw [htext] at h
    nomatch h
  | ok t =>
    rw [htext] at h
    cases h
    rfl

/-- A pass over prefixed literals, on the text of well-formed pieces whose literals it is to rewrite, does what it is meant to where it
sees no other prefix, and where it succeeds nowhere else. -/
theorem rewritePrefixed_pieces (hv : ∀ piece ∈ ps, piece.Valid)
    (hown : ∀ piece ∈ ps, piece.expected kind = true → ∃ spelled contents, piece = .literal kind spelled contents) :
    (prefixSafe kind ps = true →
      rewritePrefixedFrom kind.word rewrite 0 (renderAll ps) = renderAll <$> ps.mapM (Piece.substitute kind text)) ∧
    ∀ out, rewritePrefixedFrom kind.word rewrite 0 (renderAll ps) = .ok out →
      renderAll <$> ps.mapM (Piece.substitute kind text) = .ok out → prefixSafe kind ps = true := by
  induction ps with
  | nil => exact ⟨fun _ => rfl, fun _ _ _ => rfl⟩
  | cons piece rest ih =>
    rw [forall_mem_cons] at hv hown
    obtain ⟨hsafe, hback⟩ := ih hv.2 hown.2
    -- What the pieces are to become, put together.
    have hmap : renderAll <$> (piece :: rest).mapM (Piece.substitute kind text) = piece.substitute kind text >>= fun piece =>
        before piece.render (renderAll <$> rest.mapM (Piece.substitute kind text)) := by
      rw [mapM_cons]
      cases piece.substitute kind text with
      | error error => rfl
      | ok piece =>
        cases List.mapM (Piece.substitute kind text) rest with
        | error error => rfl
        | ok rest => exact congrArg Except.ok (renderAll_cons piece rest)
    rw [renderAll_cons, hmap, prefixSafe, Bool.and_eq_true, Bool.or_eq_true]
    cases hexp : piece.expected kind with
    | true =>
      obtain ⟨spelled, contents, rfl⟩ := hown.1 hexp
      have hpass : rewritePrefixedFrom kind.word rewrite 0 ((Piece.literal kind spelled contents).render ++ renderAll rest) =
          (Piece.literal kind spelled contents).substitute kind text >>= fun piece =>
            before piece.render (rewritePrefixedFrom kind.word rewrite 0 (renderAll rest)) := by
        have hsplit : (Piece.literal kind spelled contents).render ++ renderAll rest =
            spelled ++ '\'' :: contents ++ '\'' :: renderAll rest := by simp [render]
        rw [hsplit, rewritePrefixed_literal hv.1.1 hv.1.2, hrew, Piece.substitute, if_pos rfl]
        cases text contents with
        | error error | ok t => rfl
      rw [hpass]
      refine ⟨fun h => by rw [hsafe h.2], fun out hout hmeant => ⟨.inl rfl, ?_⟩⟩
      obtain ⟨piece, hp, hout⟩ := bind_eq_ok.mp hout
      rw [hp] at hmeant
      obtain ⟨after, hafter, rfl⟩ := before_eq_ok.mp hout
      obtain ⟨after', hafter', heq⟩ := before_eq_ok.mp hmeant
      rw [append_cancel_left_eq] at heq
      exact hback after hafter (hafter'.trans (congrArg Except.ok heq.symm))
    | false =>
      have hsub : piece.substitute kind text = .ok piece := by
        cases piece with
        | literal k spelled contents =>
          refine if_neg ?_
          rintro rfl
          cases k <;> exact absurd hexp.symm Bool.false_ne_true
        | _ => rfl
      rw [hsub]
      change (_ → _ = before piece.render _) ∧ ∀ out, _ → before piece.render _ = _ → _
      cases hm : mentionsPrefix kind.word (renderAll rest) piece.render with
      | true =>
        refine ⟨fun h => absurd (h.1.resolve_left Bool.false_ne_true) Bool.false_ne_true, fun out hout hmeant => ?_⟩
        obtain ⟨after, -, rfl⟩ := before_eq_ok.mp hmeant
        exact absurd hout (rewritePrefixed_ne (head?_of_rewrite hrew) hm _)
      | false =>
        rw [rewritePrefixed_copy hm]
        refine ⟨fun h => by rw [hsafe h.2], fun out hout hmeant => ⟨.inr rfl, ?_⟩⟩
        obtain ⟨after, hafter, rfl⟩ := before_eq_ok.mp hout
        obtain ⟨after', hafter', heq⟩ := before_eq_ok.mp hmeant
        rw [append_cancel_left_eq] at heq
        exact hback after hafter (hafter'.trans (congrArg Except.ok heq.symm))

end

/-! ## From one pass to the next -/

/-- What a pass makes of a piece without breaking the sequence: the piece itself, another word for a word, a string for a literal. -/
inductive Piece.Becomes : Piece → Piece → Prop where
  | same (piece : Piece) : Becomes piece piece
  | word {chars chars' : List Char} (h : (Piece.word chars').Valid) : Becomes (.word chars) (.word chars')
  | string {kind : LegacyPrefix} {spelled contents text : List Char} (h : (Piece.string text).Valid) :
      Becomes (.literal kind spelled contents) (.string text)

/-- Two texts that the pieces before them cannot tell apart: both start with the same character and have another behind it or not, or
the first goes on with a word. -/
def Agree (rest rest' : List Char) : Prop :=
  (rest'.head? = rest.head? ∧ (rest'.length ≤ 1 ↔ rest.length ≤ 1)) ∨ (¬EndsWord rest.head? ∧ rest' ≠ [])

theorem Agree.head? {rest rest' : List Char} (h : Agree rest rest') (hends : EndsWord rest.head?) : rest'.head? = rest.head? :=
  (h.resolve_right fun hr => hr.1 hends).1

theorem Agree.eq_nil {rest rest' : List Char} (h : Agree rest rest') : rest' = [] ↔ rest = [] := by
  rcases h with h | h
  · rw [← head?_eq_none_iff, h.1, head?_eq_none_iff]
  · refine iff_of_false h.2 ?_
    rintro rfl
    exact h.1 endsWord_none

theorem valid_becomes {piece piece' : Piece} (h : piece.Becomes piece') (hv : piece.Valid) : piece'.Valid := by
  cases h with
  | same => exact hv
  | word h | string h => exact h

/-- What a pass makes of pieces looks the same to the pieces before them. -/
theorem agree_becomes (hfor : WellFormed ps) (h : List.Forall₂ Piece.Becomes ps ps') : Agree (renderAll ps) (renderAll ps') := by
  cases h with
  | nil => exact .inl ⟨rfl, Iff.rfl⟩
  | @cons piece piece' rest rest' hp hr =>
    obtain ⟨⟨hv, -⟩, hfor⟩ := hfor
    have hv' := valid_becomes hp hv
    have hsome : (renderAll (piece' :: rest')) ≠ [] := by
      rw [renderAll_cons]
      exact append_ne_nil_of_left_ne_nil (render_ne_nil hv') _
    cases hp with
    | same =>
      refine .inl ⟨by rw [head?_renderAll_cons hv, head?_renderAll_cons hv], ?_⟩
      have hpos := length_pos_iff.mpr (render_ne_nil hv)
      have hempty : (renderAll rest').length = 0 ↔ (renderAll rest).length = 0 := by
        rw [length_eq_zero_iff, length_eq_zero_iff]
        cases hr with
        | nil => exact Iff.rfl
        | cons hp hr =>
          rw [renderAll_cons, renderAll_cons]
          refine iff_of_false ?_ ?_
          · exact append_ne_nil_of_left_ne_nil (render_ne_nil (valid_becomes hp hfor.1.1)) _
          · exact append_ne_nil_of_left_ne_nil (render_ne_nil hfor.1.1) _
      rw [renderAll_cons, renderAll_cons, length_append, length_append]
      omega
    | word h => exact .inr ⟨by rw [renderAll_cons]; exact isIdentifierChar_of_word hv _, hsome⟩
    | @string kind spelled contents text h =>
      have hide := all_isIdentifierChar hv.1 kind.word_identifier
      have hne : spelled ≠ [] := by
        rintro rfl
        exact absurd (length_eq_of_eqIgnoreAsciiCase hv.1) (ne_of_lt kind.length_word_pos)
      refine .inr ⟨?_, hsome⟩
      rw [renderAll_cons, render, List.append_assoc, List.append_assoc]
      exact isIdentifierChar_of_word ⟨hne, hide⟩ _

theorem fits_becomes {piece piece' : Piece} (h : piece.Becomes piece') {next next' : Option Char} (hne : EndsWord next → next' = next)
    (hf : piece.Fits next) : piece'.Fits next' := by
  cases h with
  | string h => exact nofun
  | word h =>
    have hen : EndsWord next := hf
    rw [hne hen]
    exact hen
  | same =>
    cases piece with
    | word chars =>
      have hen : EndsWord next := hf
      rw [hne hen]
      exact hen
    | symbol c | literal kind spelled contents => trivial
    | enclosed kind contents clo =>
      cases kind with
      | lineComment =>
        rw [hne (endsWord_newline hf)]
        exact hf
      | _ =>
        intro hop
        have hn := hf hop
        rw [hne (hn ▸ endsWord_none), hn]

/-- A pass leaves well-formed pieces well formed. -/
theorem wellFormed_becomes (hfor : WellFormed ps) (h : List.Forall₂ Piece.Becomes ps ps') : WellFormed ps' := by
  induction h with
  | nil => trivial
  | @cons piece piece' rest rest' hp hr ih =>
    obtain ⟨⟨hv, hf⟩, hfor⟩ := hfor
    exact ⟨⟨valid_becomes hp hv, fits_becomes hp (agree_becomes hfor hr).head? hf⟩, ih hfor⟩

/-- Where a prefix stands does not depend on what the passes before made of the text behind it. -/
theorem matchesPrefix_agree {rest' : List Char} (hne : t ≠ []) (hap : Apart t rest) (hag : Agree rest rest') :
    matchesPrefix kind.word (t ++ rest') = matchesPrefix kind.word (t ++ rest) := by
  rcases lt_or_ge kind.word.length t.length with hl | hs
  · -- The prefix and its quote stand in the text itself.
    have hlength : kind.word.length + 1 < (t ++ rest').length ↔ kind.word.length + 1 < (t ++ rest).length := by
      have hnil := hag.eq_nil
      rw [← length_eq_zero_iff, ← length_eq_zero_iff] at hnil
      rw [length_append, length_append]
      omega
    rw [matchesPrefix, matchesPrefix, take_append_of_le_length hl.le, take_append_of_le_length hl.le, getElem?_append_left hl,
      getElem?_append_left hl, decide_eq_decide.mpr hlength]
  · rcases hap with hends | hlast
    · have hhead := hag.head? hends
      rcases lt_or_eq_of_le hs with hs | heq
      · rw [matchesPrefix_short hs hends, matchesPrefix_short hs (hhead ▸ hends)]
      · have hlength : 1 < rest'.length ↔ 1 < rest.length := by
          have hiff := (hag.resolve_right fun hr => hr.1 hends).2
          omega
        rw [matchesPrefix_whole heq, matchesPrefix_whole heq, hhead, decide_eq_decide.mpr hlength]
    · have hmem : ∀ after, t.getLast hne ∈ (t ++ after).take kind.word.length := by
        intro after
        rw [take_append, take_of_length_le hs]
        exact mem_append_left _ (getLast_mem hne)
      have hide := hlast _ (getLast?_eq_some_getLast hne)
      rw [matchesPrefix_cut hide (hmem rest), matchesPrefix_cut hide (hmem rest')]

theorem mentionsPrefix_agree {rest' : List Char} (hap : Apart t rest) (hag : Agree rest rest') :
    mentionsPrefix kind.word rest' t = mentionsPrefix kind.word rest t := by
  induction t with
  | nil => rfl
  | cons c t ih => rw [mentionsPrefix, mentionsPrefix, matchesPrefix_agree (cons_ne_nil c t) hap hag, ih hap.tail]

/-- A piece and what becomes of it are as safe, whatever follows. -/
def AsSafe (kind : LegacyPrefix) (piece piece' : Piece) : Prop :=
  piece.Valid → ∀ rest rest', Apart piece.render rest → Agree rest rest' →
    (piece'.expected kind || !mentionsPrefix kind.word rest' piece'.render) =
      (piece.expected kind || !mentionsPrefix kind.word rest piece.render)

theorem asSafe_refl (kind : LegacyPrefix) (piece : Piece) : AsSafe kind piece piece := by
  intro _ rest rest' hap hag
  rw [mentionsPrefix_agree hap hag]

theorem prefixSafe_becomes (hfor : WellFormed ps)
    (h : List.Forall₂ (fun piece piece' => piece.Becomes piece' ∧ AsSafe kind piece piece') ps ps') :
    prefixSafe kind ps' = prefixSafe kind ps := by
  induction h with
  | nil => rfl
  | @cons piece piece' rest rest' hp hr ih =>
    obtain ⟨⟨hv, hf⟩, hfor⟩ := hfor
    rw [prefixSafe, prefixSafe, hp.2 hv _ _ (apart_of_fits hv hf) (agree_becomes hfor (hr.imp fun _ _ h => h.1)), ih hfor]

/-! ## The texts the passes insert -/

/-- The letters of hashes, of which no prefix can be made. -/
theorem hexText_chars (bs : Bytes) : ∀ c ∈ hexText bs, c ≠ '\'' ∧ c.toLower ≠ 't' ∧ c.toLower ≠ 's' := by
  have hd : ∀ n < 16, hexDigit n ≠ '\'' ∧ (hexDigit n).toLower ≠ 't' ∧ (hexDigit n).toLower ≠ 's' := by decide
  intro c hc
  simp only [hexText, mem_cons] at hc
  rcases hc with rfl | rfl | hc
  · decide
  · decide
  · induction bs with
    | nil => nomatch hc
    | cons byte bs ih =>
      have hb : byte.toNat < 256 := byte.toNat_lt
      simp only [hexEncode, mem_cons] at hc
      rcases hc with rfl | rfl | hc
      · exact hd _ (by omega)
      · exact hd _ (by omega)
      · exact ih hc

/-- Both prefixes have letters of their own. -/
theorem endsInPrefix_of_chars (kind : LegacyPrefix) (h : ∀ c ∈ chars, c.toLower ≠ 't' ∧ c.toLower ≠ 's') :
    endsInPrefix kind chars = false := by
  rw [Bool.eq_false_iff]
  intro hen
  have hl := eq_of_beq hen
  have hlet : ∃ ler ∈ kind.word.map Char.toLower, ler = 't' ∨ ler = 's' := by
    cases kind with
    | event => exact ⟨'t', by decide, .inl rfl⟩
    | address => exact ⟨'s', by decide, .inr rfl⟩
  obtain ⟨ler, hmem, hlet⟩ := hlet
  rw [← hl] at hmem
  obtain ⟨c, hc, rfl⟩ := mem_map.mp hmem
  obtain ⟨ht, hs⟩ := h c (mem_of_mem_drop hc)
  exact hlet.elim ht hs

theorem endsInPrefix_decimal (kind : LegacyPrefix) (n : Nat) : endsInPrefix kind (decimal n) = false := by
  refine endsInPrefix_of_chars kind fun c hc => ?_
  have hd := decimal_digits n c hc
  have hs : c.toLower.toNat ≤ 57 := by
    rw [toNat_toLower, if_neg (by omega)]
    exact hd.2
  refine ⟨fun h => ?_, fun h => ?_⟩
  · rw [h] at hs
    exact absurd hs (by decide)
  · rw [h] at hs
    exact absurd hs (by decide)

theorem endsInPrefix_hexText (kind : LegacyPrefix) (bs : Bytes) : endsInPrefix kind (hexText bs) = false :=
  endsInPrefix_of_chars kind fun c hc => (hexText_chars bs c hc).2

theorem hexText_valid (bs : Bytes) : (Piece.string (hexText bs)).Valid := fun hq => (hexText_chars bs _ hq).1 rfl

/-! ## The passes in turn -/

section

variable (keccak256 : Bytes → B256) (headBlock : Nat)

/-- What the pass over event literals does to a piece. -/
def Piece.hashed : Piece → Piece
  | literal .event _ contents => string (hexText (keccak256 (String.ofList contents).toUTF8.toList).toBytes)
  | piece => piece

/-- The text an event literal stands for. -/
def eventText (contents : List Char) : Except LegacySyntax (List Char) :=
  .ok (hexText (keccak256 (String.ofList contents).toUTF8.toList).toBytes)

theorem substitute_event (piece : Piece) : piece.substitute .event (eventText keccak256) = pure (piece.hashed keccak256) := by
  cases piece with
  | word chars | symbol c | enclosed kind contents clo => rfl
  | literal kind spelled contents => cases kind <;> rfl

/-- The text an address literal stands for. -/
def addressText (contents : List Char) : Except LegacySyntax (List Char) := do
  let address ← okOr ⟨"invalid address literal: " ++ String.ofList contents⟩ (parseAddress contents)
  return hexText (padded address).toBytes

theorem addressLiteral_eq (contents : List Char) :
    addressLiteral contents = (fun t => '\'' :: t ++ ['\'']) <$> addressText contents := by
  unfold addressLiteral addressText
  cases parseAddress contents <;> rfl

/-- One piece through the last three passes. -/
theorem rewrite_eq (piece : Piece) :
    ((piece.latest headBlock).hashed keccak256).substitute .address addressText = piece.rewrite keccak256 headBlock := by
  cases piece with
  | word chars | symbol c | enclosed kind contents clo => rfl
  | literal kind spelled contents =>
    cases kind with
    | event => rfl
    | address =>
      change Piece.string <$> addressText contents = _
      rw [addressText, Piece.rewrite]
      cases parseAddress contents <;> rfl

theorem latest_becomes (piece : Piece) : piece.Becomes (piece.latest headBlock) := by
  cases piece with
  | word chars =>
    cases hlat : eqIgnoreAsciiCase chars "latest".toList with
    | true =>
      rw [Piece.latest, hlat, if_pos rfl]
      exact .word (decimal_valid headBlock)
    | false =>
      rw [Piece.latest, hlat, if_neg Bool.false_ne_true]
      exact .same _
  | _ => exact .same _

theorem hashed_becomes (piece : Piece) : piece.Becomes (piece.hashed keccak256) := by
  cases piece with
  | literal kind spelled contents =>
    cases kind with
    | event => exact .string (hexText_valid _)
    | address => exact .same _
  | _ => exact .same _

/-- Neither `LATEST` nor the head number looks like a prefix. -/
theorem latest_asSafe (kind : LegacyPrefix) (piece : Piece) : AsSafe kind piece (piece.latest headBlock) := by
  cases hlat : piece.isLatest with
  | false =>
    rw [latest_of_isLatest hlat]
    exact asSafe_refl kind piece
  | true =>
    obtain ⟨chars, rfl, hword⟩ := isLatest_eq_true hlat
    intro hv rest rest' hap hag
    have hends : EndsWord rest.head? := hap.resolve_right fun hlast => by
      have hnot := hlast _ (getLast?_eq_some_getLast hv.1)
      rw [hv.2 _ (getLast_mem hv.1)] at hnot
      nomatch hnot
    have hlatest : endsInPrefix kind chars = false := by
      rw [endsInPrefix_congr hword]
      cases kind <;> decide
    have hdecimal := decimal_valid headBlock
    rw [Piece.latest, hword, if_pos rfl]
    change (false || !mentionsPrefix kind.word rest' (decimal headBlock)) = (false || !mentionsPrefix kind.word rest chars)
    rw [mentionsPrefix_eq_false (quote_not_mem_word hv.2) hends fun _ => hlatest,
      mentionsPrefix_eq_false (quote_not_mem_word hdecimal.2) (hag.head? hends ▸ hends) fun _ => endsInPrefix_decimal kind headBlock]

/-- A hash does not look like a prefix. -/
theorem hashed_asSafe (piece : Piece) : AsSafe .address piece (piece.hashed keccak256) := by
  cases piece with
  | literal kind spelled contents =>
    cases kind with
    | event =>
      intro _ rest rest' _ _
      change (false || !mentionsPrefix LegacyPrefix.address.word rest' (Piece.string (hexText _)).render) = true
      rw [mentionsPrefix_string (hexText_valid _) (endsInPrefix_hexText .address _)]
      rfl
    | address => exact asSafe_refl _ _
  | _ => exact asSafe_refl _ _

section Passes

variable (hfor : WellFormed ps)

include hfor

theorem wellFormed_latest : WellFormed (ps.map (Piece.latest headBlock)) :=
  wellFormed_becomes hfor (List.forall₂_map_right_iff.mpr (List.forall₂_same.mpr fun piece _ => latest_becomes headBlock piece))

theorem prefixSafe_latest (kind : LegacyPrefix) : prefixSafe kind (ps.map (Piece.latest headBlock)) = prefixSafe kind ps :=
  prefixSafe_becomes hfor (List.forall₂_map_right_iff.mpr (List.forall₂_same.mpr fun piece _ =>
    ⟨latest_becomes headBlock piece, latest_asSafe headBlock kind piece⟩))

theorem prefixSafe_hashed : prefixSafe .address (ps.map (Piece.hashed keccak256)) = prefixSafe .address ps :=
  prefixSafe_becomes hfor (List.forall₂_map_right_iff.mpr (List.forall₂_same.mpr fun piece _ =>
    ⟨hashed_becomes keccak256 piece, hashed_asSafe keccak256 piece⟩))

theorem wellFormed_hashed : WellFormed (ps.map (Piece.hashed keccak256)) :=
  wellFormed_becomes hfor (List.forall₂_map_right_iff.mpr (List.forall₂_same.mpr fun piece _ => hashed_becomes keccak256 piece))

theorem WellFormed.valid : ∀ piece ∈ ps, piece.Valid := by
  induction ps with
  | nil => simp
  | cons piece rest ih => exact forall_mem_cons.mpr ⟨hfor.1.1, ih hfor.2⟩

/-- The pass over event literals. -/
theorem rewriteEventLiterals_pieces :
    (prefixSafe .event ps = true → rewriteEventLiterals keccak256 (renderAll ps) = .ok (renderAll (ps.map (Piece.hashed keccak256)))) ∧
    ∀ out, rewriteEventLiterals keccak256 (renderAll ps) = .ok out →
      (out = renderAll (ps.map (Piece.hashed keccak256)) ↔ prefixSafe .event ps = true) := by
  have hmap : renderAll <$> ps.mapM (Piece.substitute .event (eventText keccak256)) =
      .ok (renderAll (ps.map (Piece.hashed keccak256))) := by
    rw [funext (substitute_event keccak256), mapM_pure]
    rfl
  have hown : ∀ piece ∈ ps, piece.expected .event = true → ∃ spelled contents, piece = .literal .event spelled contents := by
    intro piece _ hexp
    cases piece with
    | literal kind spelled contents => cases kind with
      | event => exact ⟨spelled, contents, rfl⟩
      | address => nomatch hexp
    | _ => nomatch hexp
  obtain ⟨hsafe, hback⟩ := @rewritePrefixed_pieces .event (eventText keccak256) (eventLiteral keccak256) ps (fun _ => rfl)
    hfor.valid hown
  rw [hmap] at hsafe hback
  refine ⟨hsafe, fun out hout => ⟨fun h => hback out hout (h ▸ rfl), fun h => ?_⟩⟩
  exact Except.ok.inj (hout.symm.trans (hsafe h))

/-- The pass over address literals, after the events. -/
theorem rewriteAddressLiterals_pieces :
    (prefixSafe .address ps = true → rewriteAddressLiterals (renderAll (ps.map (Piece.hashed keccak256))) =
      renderAll <$> (ps.map (Piece.hashed keccak256)).mapM (Piece.substitute .address addressText)) ∧
    ∀ out, rewriteAddressLiterals (renderAll (ps.map (Piece.hashed keccak256))) = .ok out →
      (renderAll <$> (ps.map (Piece.hashed keccak256)).mapM (Piece.substitute .address addressText) = .ok out ↔
        prefixSafe .address ps = true) := by
  have hown : ∀ piece ∈ ps.map (Piece.hashed keccak256), piece.expected .address = true →
      ∃ spelled contents, piece = .literal .address spelled contents := by
    intro piece hmem hexp
    obtain ⟨piece, -, rfl⟩ := mem_map.mp hmem
    cases piece with
    | literal kind spelled contents => cases kind with
      | event => nomatch hexp
      | address => exact ⟨spelled, contents, rfl⟩
    | _ => nomatch hexp
  obtain ⟨hsafe, hback⟩ := @rewritePrefixed_pieces .address addressText addressLiteral _ addressLiteral_eq
    (wellFormed_hashed keccak256 hfor).valid hown
  rw [prefixSafe_hashed keccak256 hfor] at hsafe hback
  exact ⟨hsafe, fun out hout => ⟨hback out hout, fun h => (hsafe h).symm.trans hout⟩⟩

end Passes

/-- What the pieces are to become, pass by pass. -/
theorem mapM_rewrite_eq (ps : List Piece) :
    ((ps.map (Piece.latest headBlock)).map (Piece.hashed keccak256)).mapM (Piece.substitute .address addressText) =
      ps.mapM (Piece.rewrite keccak256 headBlock) := by
  rw [map_map, mapM_map]
  exact congrArg (ps.mapM ·) (funext fun piece => rewrite_eq keccak256 headBlock piece)

end

end Logex.LegacySql
