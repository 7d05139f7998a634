import Logex.Lemmas.BundleLimits
import Logex.Lemmas.PageSizes

/-!
# What the capacity check charges

The loop of `capacity_from_extents` walks over the pages a later publication writes: the pages of the accepted rows are at most as
many as the streams have extents left, and the charges of their data pages add up to at most the extents left to the data.
-/

namespace Logex.Page

open Lib List

variable {page rows : List LogRow} {compressBound : Nat → Nat}

/-! ## Pages -/

/-- Extra fuel does not matter. -/
theorem pagesFrom_eq (fuel : Nat) (rows : List LogRow) (h : rows.length ≤ fuel) : pagesFrom fuel rows = pagesOf rows := by
  have hf : ∀ (fuel fuel' : Nat) (rows : List LogRow), rows.length ≤ fuel → rows.length ≤ fuel' →
      pagesFrom fuel rows = pagesFrom fuel' rows := by
    intro fuel
    induction fuel with
    | zero =>
      intro fuel' rows h h'
      obtain rfl := eq_nil_of_length_eq_zero (Nat.le_zero.mp h)
      cases fuel' <;> rfl
    | succ fuel ih =>
      intro fuel' rows h h'
      cases rows with
      | nil => cases fuel' <;> rfl
      | cons row rows =>
        cases fuel' with
        | zero => exact absurd h' (Nat.not_succ_le_zero _)
        | succ fuel' =>
          have hd : ((row :: rows).drop maxPageRows).length ≤ rows.length := by
            rw [length_drop, length_cons]
            have hp : maxPageRows = 16384 := rfl
            omega
          rw [length_cons] at h h'
          simp only [pagesFrom]
          rw [ih fuel' _ (by omega) (by omega)]
  exact hf fuel rows.length rows h le_rfl

@[simp] theorem pagesOf_nil : pagesOf [] = [] := rfl

/-- A list of rows starts with its first page. -/
theorem pagesOf_eq_cons (h : rows ≠ []) : pagesOf rows = rows.take maxPageRows :: pagesOf (rows.drop maxPageRows) := by
  cases rows with
  | nil => exact absurd rfl h
  | cons row rows =>
    have hd : ((row :: rows).drop maxPageRows).length ≤ rows.length := by
      rw [length_drop, length_cons]
      have hp : maxPageRows = 16384 := rfl
      omega
    change (row :: rows).take maxPageRows :: pagesFrom rows.length ((row :: rows).drop maxPageRows) = _
    rw [pagesFrom_eq _ _ hd]

/-- A list that ends within one page is that page. -/
theorem pagesOf_singleton (h : rows ≠ []) (hleh : rows.length ≤ maxPageRows) : pagesOf rows = [rows] := by
  rw [pagesOf_eq_cons h, take_of_length_le hleh, drop_of_length_le hleh, pagesOf_nil]

/-- A page has at most the rows of one page. -/
theorem length_le_of_mem_pagesOf (h : page ∈ pagesOf rows) : page.length ≤ maxPageRows := by
  have hf : ∀ (fuel : Nat) (rows : List LogRow), page ∈ pagesFrom fuel rows → page.length ≤ maxPageRows := by
    intro fuel
    induction fuel with
    | zero =>
      intro rows h
      exact absurd h not_mem_nil
    | succ fuel ih =>
      intro rows h
      cases rows with
      | nil => exact absurd h not_mem_nil
      | cons row rows =>
        rcases mem_cons.mp h with rfl | hr
        · exact length_take_le _ _
        · exact ih _ hr
  exact hf _ _ h

/-- The rows of a list are no more than its pages can hold. -/
theorem length_le_pagesOf (rows : List LogRow) : rows.length ≤ (pagesOf rows).length * maxPageRows := by
  have hf : ∀ (fuel : Nat) (rows : List LogRow), rows.length ≤ fuel → rows.length ≤ (pagesFrom fuel rows).length * maxPageRows := by
    intro fuel
    induction fuel with
    | zero =>
      intro rows h
      exact le_trans h (Nat.zero_le _)
    | succ fuel ih =>
      intro rows h
      cases rows with
      | nil => exact Nat.zero_le _
      | cons row rows =>
        have hp : maxPageRows = 16384 := rfl
        have hd := ih ((row :: rows).drop maxPageRows) (by rw [length_drop]; omega)
        rw [length_drop] at hd
        rw [pagesFrom, @length_cons (List LogRow), Nat.succ_mul]
        omega
  exact hf _ rows le_rfl

/-! ## One page -/

theorem fitsExtents_iff {des bou : Nat} :
    fitsExtents des bou = true ↔ bou ≤ des * maxExtentBytes ∧ bou ≤ u32Max := decide_eq_true_iff

theorem okOr_checkedAdd {ε : Type} {e : ε} {a b n : Nat} (h : okOr e (checkedAdd a b) = .ok n) : n = a + b :=
  (checkedAdd_eq_some.mp (okOr_eq_ok.mp h)).1

theorem checkedPageBytes_eq {bs : Nat} (h : checkedPageBytes page = .ok bs) : bs = pageBytes page := by
  have hf : ∀ (page : List LogRow) (a bs : Nat),
      page.foldlM (fun bs row => okOr "variable page length overflow" (checkedAdd bs row.data.length)) a = .ok bs →
      bs = a + (page.map fun row => row.data.length).sum := by
    intro page
    induction page with
    | nil =>
      intro a bs h
      exact (Except.ok.inj h).symm
    | cons row page ih =>
      intro a bs h
      obtain ⟨next, hn, h⟩ := bind_eq_ok.mp h
      rw [ih next bs h, okOr_checkedAdd hn, map_cons, sum_cons, add_assoc]
  exact hf page _ bs h

theorem checkedBound_eq {rb bou : Nat} (h : checkedBound compressBound rb = .ok bou) : bou = compressBound rb + 1 :=
  okOr_checkedAdd h

theorem pageBytes_concat (done : List LogRow) (row : LogRow) :
    pageBytes (done ++ [row]) = pageBytes done + row.data.length + 8 := by
  simp only [pageBytes, length_append, length_singleton, map_append, map_cons, map_nil, sum_append, sum_singleton]
  omega

/-- A charge is a page that fits: the bound of the rows taken, which is within what is left. -/
def Charged (compressBound : Nat → Nat) (dataExtents : Nat) (taken : List LogRow) (bound : Nat) : Prop :=
  taken ≠ [] → bound = pageBound compressBound taken ∧ fitsExtents dataExtents bound = true

/-- The row-wise check takes rows from the front as long as their page fits. -/
theorem fitRows_spec {des : Nat} (rows : List LogRow) : ∀ (done : List LogRow) (bou : Nat) (res : Nat × Nat),
    Charged compressBound des done bou → fitRows compressBound des rows (pageBytes done) done.length bou = .ok res →
    ∃ tak, tak <+: rows ∧ res.1 = (done ++ tak).length ∧ Charged compressBound des (done ++ tak) res.2 ∧
      (tak = [] → ∀ row ∈ rows.head?, fitsExtents des (pageBound compressBound (done ++ [row])) = false) := by
  induction rows with
  | nil =>
    intro done bou res hchg h
    cases h
    refine ⟨[], prefix_rfl, by rw [append_nil], by rwa [append_nil], ?_⟩
    intro _ row hrow
    exact absurd hrow (Option.not_mem_none row)
  | cons row rows ih =>
    intro done bou res hchg h
    obtain ⟨next, hn, h⟩ := bind_eq_ok.mp h
    obtain ⟨nb, hneB, h⟩ := bind_eq_ok.mp h
    obtain ⟨payload, hpay, hn⟩ := Option.bind_eq_some_iff.mp (okOr_eq_ok.mp hn)
    obtain ⟨rfl, -⟩ := checkedAdd_eq_some.mp hpay
    obtain ⟨rfl, -⟩ := checkedAdd_eq_some.mp hn
    have hb : nb = pageBound compressBound (done ++ [row]) := by
      rw [checkedBound_eq hneB, pageBound, pageBytes_concat]
    subst hb
    split at h
    · next hf =>
      have hleh : done.length + 1 = (done ++ [row]).length := by rw [length_append, length_singleton]
      rw [← pageBytes_concat, hleh] at h
      obtain ⟨tak, hfr, hc, ht, -⟩ := ih (done ++ [row]) _ res (fun _ => ⟨rfl, hf⟩) h
      rw [List.append_assoc, singleton_append] at hc ht
      refine ⟨row :: tak, cons_prefix_cons.mpr ⟨rfl, hfr⟩, hc, ht, ?_⟩
      intro hnil
      nomatch hnil
    · next hf =>
      cases h
      refine ⟨[], nil_prefix, by rw [append_nil], by rwa [append_nil], ?_⟩
      intro _ first hfi
      obtain rfl : row = first := Option.some.inj hfi
      exact eq_false_of_ne_true hf

/-- What the check of one page returns: the rows taken from its front with their charge. None are taken only where the first row
does not fit by itself. -/
theorem fitPage_spec {des : Nat} {res : Nat × Nat} (h : fitPage compressBound des page = .ok res) :
    res.1 ≤ page.length ∧ Charged compressBound des (page.take res.1) res.2 ∧
      (res.1 = 0 → ∀ row ∈ page.head?, fitsExtents des (pageBound compressBound [row]) = false) := by
  obtain ⟨rb, hraw, h⟩ := bind_eq_ok.mp h
  obtain ⟨fb, hf, h⟩ := bind_eq_ok.mp h
  obtain rfl := checkedPageBytes_eq hraw
  obtain rfl := checkedBound_eq hf
  split at h
  · next hfi =>
    cases h
    refine ⟨le_rfl, ?_, ?_⟩
    · intro _
      rw [take_length]
      exact ⟨rfl, hfi⟩
    · intro hz row hrow
      rw [eq_nil_of_length_eq_zero hz] at hrow
      exact absurd hrow (Option.not_mem_none row)
  · obtain ⟨taken, ht, hc, hchg, hn⟩ := fitRows_spec page [] 0 res (fun hne => absurd rfl hne) h
    have hta : page.take res.1 = taken := hc ▸ (prefix_iff_eq_take.mp ht).symm
    refine ⟨hc ▸ ht.length_le, hta ▸ hchg, ?_⟩
    intro hz
    exact hn (eq_nil_of_length_eq_zero (hc ▸ hz))

/-! ## The loop -/

/-- The accepted rows split into pages that the remaining extents can hold. -/
structure Admitted (compressBound : Nat → Nat) (pages dataExtents : Nat) (rows : List LogRow) : Prop where
  count : (pagesOf rows).length ≤ pages
  extents : ((pagesOf rows).map fun page => extentsFor (pageBound compressBound page)).sum ≤ dataExtents
  bound : ∀ page ∈ pagesOf rows, pageBound compressBound page ≤ u32Max

theorem admitted_nil (pages des : Nat) : Admitted compressBound pages des [] :=
  ⟨Nat.zero_le _, Nat.zero_le _, nofun⟩

/-- One more page in front of accepted rows. -/
theorem Admitted.cons {pag des bou : Nat} {page rest : List LogRow} (hp : page.length = maxPageRows)
    (hchg : Charged compressBound des page bou) (h : Admitted compressBound pag (des - extentsFor bou) rest) : Admitted compressBound (pag + 1) des (page ++ rest) := by
  have hne : page ≠ [] := by
    rintro rfl
    exact absurd hp (by decide)
  obtain ⟨rfl, hf⟩ := hchg hne
  obtain ⟨hext, hu32⟩ := fitsExtents_iff.mp hf
  have hpa : pagesOf (page ++ rest) = page :: pagesOf rest := by
    rw [pagesOf_eq_cons (append_ne_nil_of_left_ne_nil hne rest), take_left' hp, drop_left' hp]
  have hle := extentsFor_le hext
  refine ⟨?_, ?_, ?_⟩
  · rw [hpa, length_cons]
    exact Nat.succ_le_succ h.count
  · rw [hpa, map_cons, sum_cons]
    have := h.extents
    omega
  · intro o hot
    rw [hpa] at hot
    rcases mem_cons.mp hot with rfl | hr
    · exact hu32
    · exact h.bound o hr

/-- A last page that is not full. -/
theorem admitted_last {pages des bound : Nat} (hpa : page.length ≤ maxPageRows)
    (hchg : Charged compressBound des page bound) : Admitted compressBound (pages + 1) des page := by
  by_cases hnil : page = []
  · subst hnil
    exact admitted_nil _ _
  obtain ⟨rfl, hf⟩ := hchg hnil
  obtain ⟨hext, hu32⟩ := fitsExtents_iff.mp hf
  have hp := pagesOf_singleton hnil hpa
  refine ⟨?_, ?_, ?_⟩
  · rw [hp]
    exact Nat.succ_le_succ (Nat.zero_le _)
  · rw [hp, map_singleton, sum_singleton]
    exact extentsFor_le hext
  · intro other hot
    rw [hp, mem_singleton] at hot
    exact hot ▸ hu32

/-- The rows the loop accepts are admitted by what was left when it started. -/
theorem capacityLoop_admits (pag : Nat) : ∀ (des : Nat) (rows : List LogRow) (k : Nat),
    capacityLoop compressBound pag des rows = .ok k → k ≤ rows.length ∧ Admitted compressBound pag des (rows.take k) := by
  induction pag with
  | zero =>
    intro des rows k h
    cases h
    exact ⟨Nat.zero_le _, admitted_nil _ _⟩
  | succ pag ih =>
    intro des rows k h
    rw [capacityLoop] at h
    split at h
    · cases h
      exact ⟨Nat.zero_le _, admitted_nil _ _⟩
    · obtain ⟨⟨n, bound⟩, hfit, h⟩ := bind_eq_ok.mp h
      obtain ⟨hc, hchg, -⟩ := fitPage_spec hfit
      dsimp only at hc hchg h
      have hp : n ≤ maxPageRows ∧ n ≤ rows.length := by
        rw [length_take] at hc
        omega
      rw [take_take, min_eq_left hp.1] at hchg
      have hleh : (rows.take n).length = n := length_take_of_le hp.2
      split at h
      · cases h
        exact ⟨hp.2, admitted_last (by omega) hchg⟩
      · next hf =>
        obtain ⟨accepted, hacc, h⟩ := bind_eq_ok.mp h
        cases h
        obtain ⟨hle, hr⟩ := ih _ _ _ hacc
        rw [length_drop] at hle
        refine ⟨by omega, ?_⟩
        rw [take_add]
        exact Admitted.cons (by omega) hchg hr

/-- The loop accepts nothing only where an extent is missing or the first row does not fit by itself. -/
theorem capacityLoop_zero {pag des : Nat} (h : capacityLoop compressBound pag des rows = .ok 0) :
    pag = 0 ∨ des = 0 ∨ ∀ row ∈ rows.head?, fitsExtents des (pageBound compressBound [row]) = false := by
  cases pag with
  | zero => exact .inl rfl
  | succ pag =>
    right
    rw [capacityLoop] at h
    split at h
    · next hs =>
      rcases hs with rfl | hext
      · exact .inr fun row hrow => absurd hrow (Option.not_mem_none row)
      · exact .inl hext
    · obtain ⟨⟨n, bound⟩, hfit, h⟩ := bind_eq_ok.mp h
      obtain ⟨-, -, hn⟩ := fitPage_spec hfit
      dsimp only at hn h
      have hz : n = 0 := by
        split at h
        · exact Except.ok.inj h
        · obtain ⟨acc, -, h⟩ := bind_eq_ok.mp h
          have hsum : n + acc = 0 := Except.ok.inj h
          omega
      refine .inr fun row hrow => hn hz row ?_
      cases rows with
      | nil => exact absurd hrow (Option.not_mem_none row)
      | cons first rest => exact hrow

/-! ## The smallest stream -/

theorem pageExtents_min_le (cap : RemainingExtents) {id : Fin dataStreams} (hid : id.val ≠ Column.data.dataStream) :
    (pageExtents cap).min?.getD 0 ≤ cap id := by
  have hmem : (cap id).val ∈ pageExtents cap :=
    mem_map.mpr ⟨id, mem_filter.mpr ⟨mem_finRange id, decide_eq_true hid⟩, rfl⟩
  cases hmin : (pageExtents cap).min? with
  | none => exact Nat.zero_le _
  | some least => exact (min?_eq_some_iff.mp hmin).2 _ hmem

theorem exists_of_pageExtents_min (cap : RemainingExtents) (h : (pageExtents cap).min?.getD 0 = 0) : ∃ id, cap id = 0 := by
  cases hmin : (pageExtents cap).min? with
  | none =>
    have hnil : pageExtents cap = [] := min?_eq_none_iff.mp hmin
    have hleh := congrArg List.length hnil
    rw [pageExtents, length_map] at hleh
    exact absurd hleh (by decide)
  | some least =>
    rw [hmin] at h
    obtain rfl : least = 0 := h
    obtain ⟨id, -, hid⟩ := mem_map.mp (min?_eq_some_iff.mp hmin).1
    exact ⟨id, Fin.ext hid⟩

end Logex.Page
