import ConstraintRules.Proofs.ActivationClosure
import ConstraintRules.Proofs.Building
import ConstraintRules.Pass.LateStorage

/-! Late storage is exact: an active occurrence keeps its mark just if the closure
of its rule may look the instance up. -/

namespace ConstraintRules

open Activation

namespace Program

/-- The active instance has to be in the store while the body runs. -/
def NeedsStorage (p : Program) (o : Occurrence) : Prop :=
  p.mayBeStored o.constraint = true ∧ o.removed = false ∧ p.BodyObserves o.rule o.constraint

variable {p : Program} {s : Session}

theorem KnownTo.mustBeStored_iff (hs : p.KnownTo s) (o : Occurrence) :
    p.mustBeStored s o = true ↔ p.NeedsStorage o := by
  simp only [mustBeStored, Bool.and_eq_true, Bool.not_eq_true', hs.bodySees,
    NeedsStorage, and_assoc]

theorem KnownTo.delay_eq (hs : p.KnownTo s) (o : Occurrence) :
    ∃ stored, p.delay s o = { o with stored } ∧
    (stored = true ↔ o.stored = true ∧ (o.isActive = true → p.NeedsStorage o)) := by
  have hmust := hs.mustBeStored_iff o
  by_cases hw : p.canWait s o = true
  · refine ⟨false, by rw [delay, if_pos hw], ?_⟩
    simp only [canWait, Bool.and_eq_true, Bool.not_eq_true', Bool.eq_false_iff, ne_eq, hmust] at hw
    simp only [Bool.false_eq_true, false_iff]
    exact fun h => hw.2 (h.2 hw.1.1)
  · refine ⟨o.stored, by rw [delay, if_neg hw], ?_⟩
    simp only [canWait, Bool.and_eq_true, Bool.not_eq_true', Bool.eq_false_iff, ne_eq, hmust] at hw
    refine ⟨fun h => ⟨h, fun ha => ?_⟩, fun h => h.1⟩
    by_contra hn
    exact hw ⟨⟨ha, h⟩, hn⟩

theorem delayStorage_eq (h : p.WellFormed) : ∃ s, p.KnownTo s ∧
    ∃ stats, p.delayStorage =
      .done stats { p with occurrences := p.occurrences.map (p.delay s) } := by
  obtain ⟨s, hs, hknown⟩ := observationSession?_known h
  refine ⟨s.rememberAll p.bodies, hknown.rememberAll p.bodies, ?_⟩
  rw [delayStorage, hs]
  exact ⟨_, rfl⟩

/-- Late storage keeps the mark of an active occurrence exactly where storage is needed, and
changes nothing else. -/
theorem delayStorage_exact (steps : List BuildStep) :
    ∃ stats q, (build steps).delayStorage = .done stats q ∧
    ∀ o ∈ (build steps).occurrences, ∃ stored, q.occurrence? o.id = some { o with stored } ∧
      (o.isActive = true → (stored = true ↔ (build steps).NeedsStorage o)) ∧
      (o.isActive = false → stored = true) := by
  have h := build_wellFormed steps
  obtain ⟨s, hs, stats, hdone⟩ := delayStorage_eq h
  refine ⟨stats, _, hdone, fun o ho => ?_⟩
  obtain ⟨stored, hdelay, hiff⟩ := hs.delay_eq o
  have hkept : o.stored = true := by
    rw [← (build_unannotated steps).occurrences o ho]
    rfl
  refine ⟨stored, ?_, fun ha => ?_, fun ha => ?_⟩
  · have hget := h.occurrence?_id ho
    simp only [occurrence?] at hget ⊢
    rw [List.getElem?_map, hget, Option.map_some, hdelay]
  · rw [hiff]
    exact ⟨fun hn => hn.2 ha, fun hn => ⟨hkept, fun _ => hn⟩⟩
  · exact hiff.mpr ⟨hkept, fun hc => by simp [ha] at hc⟩

end Program

end ConstraintRules
