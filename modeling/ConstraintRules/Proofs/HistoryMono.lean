import ConstraintRules.Proofs.HistoryExact

/-! History leaves a program every mark that it leaves one whose stores, single
partners and settings are weaker. -/

namespace ConstraintRules

namespace Program

variable {p q p' q' : Program} {elision elision' : Bool}

theorem RepeatsJoined.of_elision (he : elision' = true → elision = true) {o : Occurrence}
    (h : p.RepeatsJoined elision o) : p.RepeatsJoined elision' o := by
  rcases h with ⟨hb, ⟨hre, hfalse⟩ | hfires⟩ | hsees
  · refine Or.inl ⟨hb, Or.inl ⟨hre, ?_⟩⟩
    rw [Bool.eq_false_iff]
    intro htrue
    rw [he htrue] at hfalse
    cases hfalse
  · exact Or.inl ⟨hb, Or.inr hfires⟩
  · exact Or.inr hsees

theorem MayRepeat.of_elision (he : elision' = true → elision = true) {r : Rule} {o : Occurrence}
    (h : p.MayRepeat elision r o) : p.MayRepeat elision' r o :=
  h.imp_right fun hmany => ⟨hmany.1, hmany.2.of_elision he⟩

namespace Conserves

section Continues

variable (h : p.Conserves q) (hp : p.WellFormed) (hq : q.Ready)
  (he : elision' = true → elision = true)

include h hp hq he

theorem continues {id : RuleId} {r r' : Rule} (hr : p.rule? id = some r)
    (hr' : q.rule? id = some r') (hc : p.Continues elision r) : q.Continues elision' r' := by
  obtain ⟨hkeep, o, ho, hrule, _, hrep⟩ := hc
  obtain ⟨hmem, ha⟩ := mem_active.mp ho
  obtain ⟨i, hi⟩ := mem_occurrences_iff.mp hmem
  obtain ⟨stored, check, lookups, hv⟩ := h.grows.occurrence? hi
  have hv_mem := mem_occurrences_iff.mpr ⟨i, hv⟩
  have hhead : r'.head = r.head := by
    obtain ⟨needs, hints, hr''⟩ := h.grows.rule? hr
    rw [hr'] at hr''
    cases hr''
    rfl
  have hid : r'.id = r.id := (hq.wellFormed.id_of_rule? hr').trans (hp.id_of_rule? hr).symm
  refine ⟨h.grows.keepsHistory hp hq.wellFormed hr hr' hkeep, _, mem_active.mpr ⟨hv_mem, ha⟩, ?_,
    hq.checked _ hv_mem, h.mayRepeat hi hv hhead (hrep.of_elision he)⟩
  exact hrule.trans hid.symm

end Continues

section Remarked

variable (h : p.Conserves q) (hp : p.Ready) (hq : q.Ready) (he : elision' = true → elision = true)
  (hpp : p.Remarked elision (p.Continues elision) p')
  (hqq : q.Remarked elision' (q.Continues elision') q')

include h hp hq he hpp hqq

theorem needsHistory {id : RuleId} {r₁ r₂ : Rule} (hr₁ : p'.rule? id = some r₁)
    (hr₂ : q'.rule? id = some r₂) (htrue : r₁.needsHistory = true) : r₂.needsHistory = true := by
  obtain ⟨_, hr⟩ := hpp.rechecked.symm.rule? hr₁
  obtain ⟨_, hr'⟩ := hqq.rechecked.symm.rule? hr₂
  obtain ⟨needs, hneeds, hn⟩ := hpp.rule? id _ hr
  obtain ⟨needs', hneeds', hn'⟩ := hqq.rule? id _ hr'
  rw [hr₁] at hneeds
  rw [hr₂] at hneeds'
  have hsame := congrArg Rule.needsHistory (Option.some.inj hneeds)
  have hsame' := congrArg Rule.needsHistory (Option.some.inj hneeds')
  have hcont := (hn.mp (hsame.symm.trans htrue)).2
  refine hsame'.trans (hn'.mpr ⟨hq.kept _ (mem_rules_iff.mpr ⟨id, hr'⟩), ?_⟩)
  exact h.continues hp.wellFormed hq he hr hr' hcont

theorem checkHistory {id : OccurrenceId} {u₁ v₁ : Occurrence} (hu₁ : p'.occurrence? id = some u₁)
    (hv₁ : q'.occurrence? id = some v₁) (htrue : u₁.checkHistory = true) :
    v₁.checkHistory = true := by
  obtain ⟨_, hu⟩ := hpp.rechecked.symm.occurrence? hu₁
  obtain ⟨_, hv⟩ := hqq.rechecked.symm.occurrence? hv₁
  have heq := h.eq_of_occurrence? hu hv
  have hactive := congrArg Occurrence.isActive heq
  have hrule := congrArg Occurrence.rule heq
  have hhead := congrArg Occurrence.head heq
  obtain ⟨r, hr, _⟩ := hp.wellFormed.placed _ (mem_occurrences_iff.mpr ⟨id, hu⟩)
  obtain ⟨needs, hints, hr'⟩ := h.grows.rule? hr
  have hvr : q.rule? v₁.rule = some { r with needsHistory := needs, hints := hints } := by
    rw [show v₁.rule = u₁.rule from hrule]
    exact hr'
  have hneeds := hp.kept r (mem_rules_iff.mpr ⟨_, hr⟩)
  have hchecked := hq.checked _ (mem_occurrences_iff.mpr ⟨id, hv⟩)
  by_cases ha : u₁.isActive = true
  · obtain ⟨check, hc, hiff⟩ := hpp.active id _ r hu hr ha
    obtain ⟨check', hc', hiff'⟩ := hqq.active id _ _ hv hvr (hactive.trans ha)
    rw [hu₁] at hc
    rw [hv₁] at hc'
    have hsame := congrArg Occurrence.checkHistory (Option.some.inj hc)
    have hsame' := congrArg Occurrence.checkHistory (Option.some.inj hc')
    obtain ⟨hkeep, hrep⟩ := (hiff.mp (hsame.symm.trans htrue)).2 hneeds
    refine hsame'.trans
      (hiff'.mpr ⟨hchecked, fun _ => ⟨?_, h.mayRepeat hu hv rfl (hrep.of_elision he)⟩⟩)
    exact h.grows.keepsHistory hp.wellFormed hq.wellFormed hr hr' hkeep
  · -- a passive occurrence keeps its check as long as the rule keeps its history
    have ha : u₁.isActive = false := by simpa using ha
    obtain ⟨check, hc, hiff⟩ := hpp.passive id _ r hu hr ha
    obtain ⟨check', hc', hiff'⟩ := hqq.passive id _ _ hv hvr (hactive.trans ha)
    rw [hu₁] at hc
    rw [hv₁] at hc'
    have hsame := congrArg Occurrence.checkHistory (Option.some.inj hc)
    have hsame' := congrArg Occurrence.checkHistory (Option.some.inj hc')
    refine hsame'.trans (hiff'.mpr ⟨hchecked, fun _ hpos => ?_⟩)
    have hcont := (hiff.mp (hsame.symm.trans htrue)).2 hneeds (hhead.symm.trans hpos)
    exact h.continues hp.wellFormed hq he hr hr' hcont

end Remarked

end Conserves

end Program

end ConstraintRules
