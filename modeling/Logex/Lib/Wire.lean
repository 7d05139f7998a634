import Logex.Lib.Except

/-!
# Little-endian fields and byte cursors

Fixed-width little-endian integers and a reader that consumes a list of bytes from the front. `Parses p bytes a` says that the
reader `p` turns exactly `bytes` into `a` and leaves whatever follows alone; the rules below compose it along a do block, so that
a decoder is shown to invert its encoder field by field.
-/

namespace Logex.Lib

variable {bytes rest : List UInt8} {n : Nat} {xs : List UInt8}

/-! ## Integers -/

/-- The `n` least significant bytes of a number, lowest first: `to_le_bytes`. -/
def leBytes : Nat → Nat → List UInt8
  | 0, _ => []
  | n + 1, x => UInt8.ofNat x :: leBytes n (x / 256)

/-- The number little-endian bytes spell: `from_le_bytes`. -/
def ofLeBytes : List UInt8 → Nat
  | [] => 0
  | b :: bytes => b.toNat + 256 * ofLeBytes bytes

@[simp] theorem length_leBytes (n x : Nat) : (leBytes n x).length = n := by
  induction n generalizing x with
  | zero => rfl
  | succ n ih => simp [leBytes, ih]

/-- A number that fits its field is read back as it was written. -/
theorem ofLeBytes_leBytes {n x : Nat} (h : x < 256 ^ n) : ofLeBytes (leBytes n x) = x := by
  induction n generalizing x with
  | zero => simp at h; simp [leBytes, ofLeBytes, h]
  | succ n ih =>
    have hq : x / 256 < 256 ^ n := by
      rw [Nat.pow_succ] at h
      omega
    have hb : (UInt8.ofNat x).toNat = x % 256 := by simp
    rw [leBytes, ofLeBytes, ih hq, hb]
    omega

theorem ofLeBytes_lt (bytes : List UInt8) : ofLeBytes bytes < 256 ^ bytes.length := by
  induction bytes with
  | nil => exact Nat.one_pos
  | cons b bytes ih =>
    have := b.toNat_lt
    rw [ofLeBytes, List.length_cons, Nat.pow_succ]
    omega

/-- The bytes of a field are those of the number they spell. -/
theorem leBytes_ofLeBytes {bytes : List UInt8} (h : bytes.length = n) : leBytes n (ofLeBytes bytes) = bytes := by
  induction bytes generalizing n with
  | nil =>
    subst h
    rfl
  | cons b bytes ih =>
    subst h
    have hb := b.toNat_lt
    have hf : UInt8.ofNat (b.toNat + 256 * ofLeBytes bytes) = b := by
      refine UInt8.toNat_inj.mp ?_
      rw [UInt8.toNat_ofNat']
      omega
    have hr : (b.toNat + 256 * ofLeBytes bytes) / 256 = ofLeBytes bytes := by omega
    rw [List.length_cons, ofLeBytes, leBytes, hf, hr, ih rfl]

theorem ofLeBytes_append (fst rest : List UInt8) :
    ofLeBytes (fst ++ rest) = ofLeBytes fst + 256 ^ fst.length * ofLeBytes rest := by
  induction fst with
  | nil => simp [ofLeBytes]
  | cons byte fst ih =>
    rw [List.cons_append, ofLeBytes, ih, ofLeBytes, List.length_cons, Nat.pow_succ', Nat.mul_add, Nat.mul_assoc, Nat.add_assoc]

/-! ## Readers -/

variable {ε α β : Type}

/-- A reader of a byte cursor that may fail. -/
abbrev Parser (ε α : Type) := StateT (List UInt8) (Except ε) α

/-- The next `n` bytes. -/
def Parser.take (e : ε) (n : Nat) : Parser ε (List UInt8) := fun bytes =>
  if n ≤ bytes.length then .ok (bytes.take n, bytes.drop n) else .error e

/-- The next `n` bytes as a little-endian integer. -/
def Parser.uint (e : ε) (n : Nat) : Parser ε Nat := do
  let bytes ← Parser.take e n
  return ofLeBytes bytes

/-- Fail unless at least `n` bytes remain. -/
def Parser.need (e : ε) (n : Nat) : Parser ε Unit := fun bytes =>
  if n ≤ bytes.length then .ok ((), bytes) else .error e

/-- Run a reader `n` times, threading a value through. -/
def Parser.iterate (p : α → Parser ε α) : Nat → α → Parser ε α
  | 0, a => pure a
  | n + 1, a => do
    let a ← p a
    Parser.iterate p n a

/-- The reader turns exactly these bytes into this value. -/
def Parses (p : Parser ε α) (bytes : List UInt8) (a : α) : Prop :=
  ∀ rest, p (bytes ++ rest) = .ok (a, rest)

/-- A reader that consumes its whole input. -/
theorem Parses.run {p : Parser ε α} {bytes : List UInt8} {a : α} (h : Parses p bytes a) : p bytes = .ok (a, []) := by
  have h' := h []
  rwa [List.append_nil] at h'

theorem Parses.pure (a : α) : Parses (Pure.pure a : Parser ε α) [] a := by
  intro rest
  rfl

theorem Parses.bind {p : Parser ε α} {f : α → Parser ε β} {xs ys : List UInt8} {a : α} {b : β}
    (hp : Parses p xs a) (hf : Parses (f a) ys b) : Parses (p >>= f) (xs ++ ys) b := by
  intro rest
  have h1 : p (xs ++ (ys ++ rest)) = .ok (a, ys ++ rest) := hp (ys ++ rest)
  have h2 : f a (ys ++ rest) = .ok (b, rest) := hf rest
  rw [List.append_assoc]
  simp only [Bind.bind, StateT.bind, h1, Except.bind, h2]

/-- A check that passes reads nothing. -/
theorem Parses.lift {x : Except ε α} {f : α → Parser ε β} {a : α} {b : β}
    (hx : x = .ok a) (hf : Parses (f a) xs b) : Parses ((liftM x : Parser ε α) >>= f) xs b := by
  subst hx
  exact hf

theorem Parses.reject {c : Prop} [Decidable c] {e : ε} {f : Unit → Parser ε β} {b : β}
    (hc : ¬c) (hf : Parses (f ()) xs b) : Parses ((liftM (rejectIf c e) : Parser ε Unit) >>= f) xs b :=
  Parses.lift (rejectIf_eq_ok.mpr hc) hf

theorem Parses.take (e : ε) (bytes : List UInt8) : Parses (Parser.take e bytes.length) bytes bytes := by
  intro rest
  simp [Parser.take]

theorem Parses.take_of_length {e : ε} {bytes : List UInt8} (h : bytes.length = n) : Parses (Parser.take e n) bytes bytes := by
  subst h
  exact Parses.take e bytes

theorem Parses.uint (e : ε) {n x : Nat} (h : x < 256 ^ n) : Parses (Parser.uint e n) (leBytes n x) x := by
  have hb := Parses.bind (f := fun bytes => (Pure.pure (ofLeBytes bytes) : Parser ε Nat))
    (Parses.take_of_length (e := e) (length_leBytes n x)) (Parses.pure _)
  rw [List.append_nil, ofLeBytes_leBytes h] at hb
  exact hb

/-- A demand for bytes is met by what the rest of the reader consumes. -/
theorem Parses.need {e : ε} {f : Unit → Parser ε β} {b : β} (hn : n ≤ xs.length)
    (hf : Parses (f ()) xs b) : Parses (Parser.need e n >>= f) xs b := by
  intro rest
  have hle : n ≤ (xs ++ rest).length := by
    rw [List.length_append]
    omega
  have h1 : Parser.need e n (xs ++ rest) = .ok ((), xs ++ rest) := if_pos hle
  simp only [Bind.bind, StateT.bind, h1, Except.bind]
  exact hf rest

/-- A repeated reader consumes the encodings of its items in order, the accumulated value following the fold. -/
theorem Parses.iterate {ι : Type} {p : α → Parser ε α} (enc : ι → List UInt8) {next : α → ι → α} (Inv : α → List ι → Prop)
    (step : ∀ a item ite, Inv a (item :: ite) → Parses (p a) (enc item) (next a item) ∧ Inv (next a item) ite) :
    ∀ (ite : List ι) (a : α), Inv a ite →
      Parses (Parser.iterate p ite.length a) (ite.flatMap enc) (ite.foldl next a) := by
  intro ite
  induction ite with
  | nil =>
    intro a _
    exact Parses.pure a
  | cons item ite ih =>
    intro a ha
    obtain ⟨hp, hInv⟩ := step a item ite ha
    exact Parses.bind hp (ih _ hInv)

/-! ## What a reader that succeeded has read

Each reader is inverted by an equivalence, so that one rewriting of a do block shows both what it accepts and that nothing else is
accepted. -/

theorem Parser.bind_eq_ok {p : Parser ε α} {f : α → Parser ε β} {b : β} :
    (p >>= f) bytes = .ok (b, rest) ↔ ∃ a mid, p bytes = .ok (a, mid) ∧ f a mid = .ok (b, rest) := by
  show (p bytes >>= fun read => f read.1 read.2) = .ok (b, rest) ↔ _
  rw [Lib.bind_eq_ok, Prod.exists]

theorem Parser.pure_eq_ok {a b : α} : (Pure.pure a : Parser ε α) bytes = .ok (b, rest) ↔ b = a ∧ rest = bytes := by
  show Except.ok (a, bytes) = .ok (b, rest) ↔ _
  rw [Except.ok.injEq, Prod.mk.injEq, eq_comm, @eq_comm _ bytes]

theorem Parser.lift_eq_ok {x : Except ε α} {a : α} : (liftM x : Parser ε α) bytes = .ok (a, rest) ↔ x = .ok a ∧ rest = bytes := by
  cases x with
  | ok a' =>
    show Except.ok (a', bytes) = .ok (a, rest) ↔ _
    rw [Except.ok.injEq, Prod.mk.injEq, Except.ok.injEq, @eq_comm _ bytes]
  | error e => exact ⟨nofun, fun h => (nomatch h.1)⟩

theorem Parser.take_eq_ok {e : ε} {bytes rest tak : List UInt8} :
    Parser.take e n bytes = .ok (tak, rest) ↔ tak.length = n ∧ bytes = tak ++ rest := by
  unfold Parser.take
  constructor
  · intro h
    split at h
    · next hle =>
      cases h
      exact ⟨List.length_take_of_le hle, (List.take_append_drop n bytes).symm⟩
    · nomatch h
  · rintro ⟨rfl, rfl⟩
    rw [if_pos (by simp), List.take_left, List.drop_left]

theorem Parser.uint_eq_ok {e : ε} {n x : Nat} :
    Parser.uint e n bytes = .ok (x, rest) ↔ x < 256 ^ n ∧ bytes = leBytes n x ++ rest := by
  unfold Parser.uint
  simp only [Parser.bind_eq_ok, Parser.pure_eq_ok, Parser.take_eq_ok]
  constructor
  · rintro ⟨taken, mid, ⟨rfl, rfl⟩, rfl, rfl⟩
    exact ⟨ofLeBytes_lt taken, by rw [leBytes_ofLeBytes rfl]⟩
  · rintro ⟨hlt, rfl⟩
    exact ⟨leBytes n x, rest, ⟨length_leBytes n x, rfl⟩, (ofLeBytes_leBytes hlt).symm, rfl⟩

theorem Parser.bind_of_ok {p : Parser ε α} {f : α → Parser ε β} {a : α} (h : p bytes = .ok (a, rest)) :
    (p >>= f) bytes = f a rest := by
  show (p bytes >>= fun read => f read.1 read.2) = f a rest
  rw [h]
  rfl

/-- A check that fails ends the reading. -/
theorem Parser.reject_of {c : Prop} [Decidable c] {e : ε} {f : Unit → Parser ε β} {bytes : List UInt8} (hc : c) :
    ((liftM (rejectIf c e) : Parser ε Unit) >>= f) bytes = .error e := by
  rw [rejectIf, if_pos hc]
  rfl

theorem Parser.need_eq_ok {e : ε} {u : Unit} : Parser.need e n bytes = .ok (u, rest) ↔ n ≤ bytes.length ∧ rest = bytes := by
  unfold Parser.need
  split
  · next hle =>
    rw [Except.ok.injEq, Prod.mk.injEq, @eq_comm _ bytes]
    exact ⟨fun h => ⟨hle, h.2⟩, fun h => ⟨rfl, h.2⟩⟩
  · next hgt => exact ⟨nofun, fun h => absurd h.1 hgt⟩

/-- What every turn of a repeated reader keeps holds at its end, with the number of turns. -/
theorem Parser.iterate_keeps {p : α → Parser ε α} {Inv : Nat → α → Prop}
    (step : ∀ k a bytes b rest, Inv k a → p a bytes = .ok (b, rest) → Inv (k + 1) b) :
    ∀ {k : Nat} {a b : α} {bytes rest : List UInt8}, Inv k a → Parser.iterate p n a bytes = .ok (b, rest) → Inv (k + n) b := by
  induction n with
  | zero =>
    intro k a b bytes rest ha h
    obtain ⟨rfl, -⟩ := Parser.pure_eq_ok.mp h
    exact ha
  | succ n ih =>
    intro k a b bytes rest ha h
    obtain ⟨mid, tail, hmid, h⟩ := Parser.bind_eq_ok.mp h
    have hr := ih (step k a bytes mid tail ha hmid) h
    rwa [Nat.add_right_comm] at hr

end Logex.Lib
