import Logex.Lib.Run
import Logex.Theorems.BundleSnapshots

/-!
# Interrupted publications

A publication only appends, so one that stops half way leaves bytes after the last published table. No writer opens the bundle
until a restart trims them, and the trimmed bundle is the one its completed publications alone would have left.
-/

namespace Logex

open Lib List BundleAux

namespace BundleAux

variable {c : BundleCodec} {file : Bytes} {rd : BundleReader} {pubs : List Publication} {bd : PublishedBundle}

theorem verifyAll_ok (h : rd.Faithful c file) : ∃ rd', rd.verifyAll c file = .ok rd' := by
  have hf : BundleReader.Faithful c file { rd with window := {} } := ⟨h.inside, h.ok, h.holds, Nat.zero_le _, rfl⟩
  unfold BundleReader.verifyAll
  generalize { rd with window := {} } = rd, finRange streamCount = ids at hf
  -- Reading a stream leaves a reader of the same streams behind.
  induction ids generalizing rd with
  | nil => exact ⟨rd, rfl⟩
  | cons id ids ih =>
    cases hs : rd.streams id with
    | none =>
      rw [foldlM_cons, hs]
      exact ih _ hf
    | some s =>
      obtain ⟨next, hr, hn, _⟩ := hf.readStream hs
      rw [foldlM_cons, hs, hr]
      exact ih _ hn

/-- Bytes after the last snapshot keep writers out, and restoring cuts them off unless a check outside the bundle fails. -/
theorem Sound.torn (h : Sound c pubs bd) (hne : bd.references ≠ []) (tail : Bytes) :
    (∃ rd, BundleReader.openAt c (bd.file ++ tail) (bd.references.getLast hne) = .ok rd ∧
      ∀ rec, (∀ bd', PublishedBundle.restore c rec ⟨bd.file ++ tail, bd.references⟩ = .ok bd' → bd' = bd) ∧
        (∀ current, rec.inspect rd = .ok (some rec.rowCount) → rec.manifestIsCurrent = .ok current → rec.persistManifest = .ok () →
          PublishedBundle.restore c rec ⟨bd.file ++ tail, bd.references⟩ = .ok bd)) ∧
    (tail ≠ [] → ∀ p,
      PublishedBundle.publish c ⟨bd.file ++ tail, bd.references⟩ p = .error "unpublished bundle tail; recover before appending") := by
  have hl := getLast?_eq_some_getLast hne
  obtain ⟨m, hp⟩ := h.latest hl
  have hst := hp.chain.inside.stop.trans (congrArg _ (h.last _ hl))
  have hp := hp.append tail
  obtain ⟨rd, hop, hw, hr, rfl, _⟩ := hp.chain.openAt ((h.magic hne).trans (prefix_append _ _))
  rw [← hr] at hp
  obtain ⟨rd', hv⟩ := verifyAll_ok ⟨hp.chain.inside, hp.chain.ok, hp.holds, by rw [hw]; exact ⟨Nat.zero_le _, rfl⟩⟩
  refine ⟨⟨rd, hop, fun rec => ⟨fun bd' hok => ?_, fun current hi hm hpm => ?_⟩⟩, fun ht p => ?_⟩
  · -- A run of the function that ends has passed every check and kept the bytes up to the last table.
    rw [PublishedBundle.restore, hl] at hok
    obtain ⟨_, href, hok⟩ := bind_eq_ok.mp hok
    cases href
    obtain ⟨_, hread, hok⟩ := bind_eq_ok.mp hok
    cases hop.symm.trans hread
    obtain ⟨canonical, -, hok⟩ := bind_eq_ok.mp hok
    obtain ⟨stop, hstop, hok⟩ := bind_eq_ok.mp hok
    cases hst.symm.trans hstop
    obtain ⟨current, -, hok⟩ := bind_eq_ok.mp hok
    split at hok
    · next hcur =>
      cases hok
      have ht : tail = [] := by simpa using hcur.1
      simp [ht]
    · obtain ⟨-, -, hok⟩ := bind_eq_ok.mp hok
      obtain ⟨rows, -, hok⟩ := bind_eq_ok.mp hok
      obtain ⟨-, hok⟩ := rejectIf_bind.mp hok
      obtain ⟨-, -, hok⟩ := bind_eq_ok.mp hok
      cases hok
      simp
  · simp only [PublishedBundle.restore, hl, okOr, hop, hst, hi, hm, hpm, hv, bind, Except.bind]
    split
    · next hcur =>
      have ht : tail = [] := by simpa using hcur.1
      simp [ht, pure, Except.pure]
    · simp [rejectIf, pure, Except.pure]
  · simp [PublishedBundle.publish, PublishedBundle.writer, hl, hop, WriteState.appendInspected, hr, hst, rejectIf, ht, bind, Except.bind]

/-- The bundle is that of its completed publications, with bytes after it. -/
def Torn (codec : BundleCodec) (state : PublishedBundle × List Publication) : Prop :=
  ∃ clean tail, publishAll codec state.2 = .ok clean ∧ Sound codec state.2 clean ∧
    state.1 = ⟨clean.file ++ tail, clean.references⟩ ∧ (clean.references = [] → tail = [])

theorem Torn.step {state : PublishedBundle × List Publication} (h : Torn c state) (event : BundleEvent) : Torn c (event.step c state) := by
  obtain ⟨bundle, done⟩ := state
  have hsame := h
  obtain ⟨clean, tail, hrun, hso, rfl, hnil⟩ := h
  cases event with
  | publish p =>
    by_cases ht : tail = []
    · subst ht
      simp only [append_nil, BundleEvent.step] at hsame ⊢
      cases hp : clean.publish c p with
      | error e => exact hsame
      | ok bundle =>
        refine ⟨bundle, [], ?_, hso.publish hp, by simp [Except.toOption], fun _ => rfl⟩
        rw [publishAll] at hrun
        simp [publishAll, Except.toOption, hrun, hp, bind, Except.bind, pure, Except.pure]
    · -- The writer finds the tail and stops before it writes.
      simpa [BundleEvent.step, (hso.torn (mt hnil ht) tail).2 ht, Except.toOption] using hsame
  | interrupt more =>
    by_cases hr : clean.references = []
    · simpa [BundleEvent.step, hr] using hsame
    · exact ⟨clean, tail ++ more, by simpa [BundleEvent.step, hr] using ⟨hrun, hso⟩⟩
  | restore rec =>
    by_cases hr : clean.references = []
    · simpa [BundleEvent.step, PublishedBundle.restore, hr, okOr, bind, Except.bind, Except.toOption] using hsame
    · obtain ⟨⟨rd, -, hres⟩, -⟩ := hso.torn hr tail
      simp only [BundleEvent.step]
      cases hx : PublishedBundle.restore c rec ⟨clean.file ++ tail, clean.references⟩ with
      | error e => exact hsame
      | ok bundle =>
        obtain rfl := (hres rec).1 bundle hx
        exact ⟨bundle, [], hrun, hso, by simp [Except.toOption], fun _ => rfl⟩

end BundleAux

end Logex
