import ConstraintRules.Proofs.HistoryExact
import ConstraintRules.Proofs.IndexingExact

/-! What is bound inside a negative head. The plan also counts the variables of
the negative heads before it as known. -/

namespace ConstraintRules

namespace Program

variable {p : Program}

/-- The variable has a value when `u` is searched: it stands in the positive head, or before `u`
in the same negative head. -/
def InScope (p : Program) (u : Occurrence) (v : VarId) : Prop :=
  ∃ w ∈ p.occurrences, w.rule = u.rule ∧
    (w.head = .positive ∨ (w.head = u.head ∧ w.index < u.index)) ∧ v ∈ w.args

/-- The variable stands in a negative head before the one of `u`. -/
def Leaked (p : Program) (u : Occurrence) (v : VarId) : Prop :=
  ∃ w ∈ p.occurrences, w.rule = u.rule ∧ w.head ≠ .positive ∧ w.head.rank < u.head.rank ∧ v ∈ w.args

/-- The argument at a position of `u` is one of the variables, or an equality that is
asked of `u` ties it to one. -/
def TiedTo (p : Program) (vars : VarId → Prop) (u : Occurrence) (i : Nat) : Prop :=
  ∃ v, u.args[i]? = some v ∧
    (vars v ∨ ∃ w, vars w ∧ (p.Asks u (.equal v w) ∨ p.Asks u (.equal w v)))

instance (p : Program) (u : Occurrence) (v : VarId) : Decidable (p.InScope u v) :=
  inferInstanceAs (Decidable (∃ w ∈ p.occurrences, w.rule = u.rule ∧
    (w.head = .positive ∨ (w.head = u.head ∧ w.index < u.index)) ∧ v ∈ w.args))

theorem rank_pos_iff {part : HeadPart} : 0 < part.rank ↔ part ≠ .positive := by
  cases part <;> simp [HeadPart.rank]

section Partner

variable {o u : Occurrence} (h : p.WellFormed) (ho : o ∈ p.active) (hu : p.Partner o u)
  (hn : u.head ≠ .positive)

include h ho hu hn

/-- When a negative head is searched from an active occurrence, what is in scope is known, and
so is what the negative heads before it leak. -/
theorem known_iff {v : VarId} : p.Known o u v ↔ p.InScope u v ∨ p.Leaked u v := by
  obtain ⟨hmem, ha⟩ := mem_active.mp ho
  have hpos := head_of_isActive ha
  have hpartner : ∀ w ∈ p.occurrences, w.rule = u.rule → w ≠ o →
      p.Partner o w := fun w hw hrule hne =>
    ⟨hw, hrule.trans hu.rule_eq, fun hid => hne (h.eq_of_id_eq hw hmem hid)⟩
  constructor
  · rintro (hv | ⟨w, hw, hlt | ⟨hhead, hlt⟩, hv⟩)
    · exact Or.inl ⟨o, hmem, hu.rule_eq.symm, Or.inl hpos, hv⟩
    · have hrule : w.rule = u.rule := hw.rule_eq.trans hu.rule_eq.symm
      by_cases hwpos : w.head = .positive
      · exact Or.inl ⟨w, hw.mem, hrule, Or.inl hwpos, hv⟩
      · exact Or.inr ⟨w, hw.mem, hrule, hwpos, hlt, hv⟩
    · exact Or.inl ⟨w, hw.mem, hw.rule_eq.trans hu.rule_eq.symm, Or.inr ⟨hhead, hlt⟩, hv⟩
  · rintro (⟨w, hw, hrule, hhead, hv⟩ | ⟨w, hw, hrule, hneg, hlt, hv⟩)
    · by_cases hwo : w = o
      · exact Or.inl (hwo ▸ hv)
      · refine Or.inr ⟨w, hpartner w hw hrule hwo, ?_, hv⟩
        rcases hhead with hwpos | hsame
        · left
          rw [hwpos]
          exact rank_pos_iff.mpr hn
        · exact Or.inr hsame
    · have hwo : w ≠ o := fun he => hneg (he ▸ hpos)
      exact Or.inr ⟨w, hpartner w hw hrule hwo, Or.inl hlt, hv⟩

theorem boundAt_iff {i : Nat} :
    p.BoundAt o u i ↔ p.TiedTo (p.InScope u) u i ∨ p.TiedTo (p.Leaked u) u i := by
  simp only [BoundAt, TiedTo, known_iff h ho hu hn]
  constructor
  · rintro ⟨v, hv, (hin | hleak) | ⟨w, hin | hleak, heq⟩⟩
    · exact Or.inl ⟨v, hv, Or.inl hin⟩
    · exact Or.inr ⟨v, hv, Or.inl hleak⟩
    · exact Or.inl ⟨v, hv, Or.inr ⟨w, hin, heq⟩⟩
    · exact Or.inr ⟨v, hv, Or.inr ⟨w, hleak, heq⟩⟩
  · rintro (⟨v, hv, hin | ⟨w, hin, heq⟩⟩ | ⟨v, hv, hleak | ⟨w, hleak, heq⟩⟩)
    · exact ⟨v, hv, Or.inl (Or.inl hin)⟩
    · exact ⟨v, hv, Or.inr ⟨w, Or.inl hin, heq⟩⟩
    · exact ⟨v, hv, Or.inl (Or.inr hleak)⟩
    · exact ⟨v, hv, Or.inr ⟨w, Or.inr hleak, heq⟩⟩

end Partner

/-- Every position of the key of a lookup in a negative head is tied to a variable in scope, or
to one that a negative head before it has leaked. -/
theorem assignLookups_negative_keys (steps : List BuildStep) (arrayIndexing : Bool) : ∃ stats q,
    (build steps).assignLookups arrayIndexing = .done stats q ∧
    ∀ o ∈ (build steps).active, ∃ lookups, q.occurrence? o.id = some { o with lookups } ∧
      ∀ l ∈ lookups, ∃ u, (build steps).Partner o u ∧ l.partner = u.id ∧
        (u.head ≠ .positive → ∀ i ∈ l.path.key,
        (build steps).TiedTo ((build steps).InScope u) u i ∨
          (build steps).TiedTo ((build steps).Leaked u) u i) := by
  have hp := build_wellFormed steps
  obtain ⟨stats, q, hdone, h⟩ := build_assigned steps arrayIndexing
  refine ⟨stats, q, hdone, fun o ho => ?_⟩
  obtain ⟨lookups, us, hlookups, hus, _, hall⟩ := h.seeks hp ho
  refine ⟨lookups, hlookups, fun l hl => ?_⟩
  obtain ⟨u, hu, hpartner, k, hk, hchosen⟩ := exists_mem_of_forall₂ hall hl
  have hu := (hus u).mp hu
  exact ⟨u, hu, hpartner, fun hn i hi => (boundAt_iff hp ho hu hn).mp (hchosen.bound_of_mem_key hi)⟩

/-- Two negative heads that share a variable which does not stand in the positive head. -/
def apart : Program :=
  build [.ensure "p" 1, .ensure "q" 2, .ensure "r" 1,
    .rule "apart" [.kept ⟨0⟩ ["X"], .negated ⟨1⟩ ["X", "Y"], .negated ⟨2⟩ ["Y"]]]

/-- The second negative head is looked up under a key whose variable has no value by then. -/
theorem apart_key_not_in_scope : ∃ stats q o l u, apart.assignLookups false = .done stats q ∧
    q.occurrence? ⟨0⟩ = some o ∧ l ∈ o.lookups ∧ apart.occurrence? l.partner = some u ∧
      u.head = .negative 1 ∧
    0 ∈ l.path.key ∧ ¬apart.TiedTo (apart.InScope u) u 0 := by
  have hguards : ∀ r ∈ apart.rules, r.guard = [] ∧ ∀ n ∈ r.negatives, n.guard = [] := by decide
  have hasks : ∀ u g, ¬apart.Asks u g := by
    rintro u g ⟨r, hr, hg | ⟨n, head, _, hhead, hg⟩⟩
    · rw [(hguards r (mem_rules_iff.mpr ⟨_, hr⟩)).1] at hg
      cases hg
    · rw [(hguards r (mem_rules_iff.mpr ⟨_, hr⟩)).2 head (List.mem_of_getElem? hhead)] at hg
      cases hg
  refine ⟨_, _, _, { partner := ⟨2⟩, path := .hash [0], category := ⟨0⟩, direct := none }, _, rfl,
    rfl, by decide, rfl, rfl,
    by decide, ?_⟩
  rintro ⟨v, hv, hscope | ⟨w, _, heq | heq⟩⟩
  · obtain rfl : v = ⟨1⟩ := (Option.some.inj hv).symm
    exact absurd hscope (by decide)
  · exact hasks _ _ heq
  · exact hasks _ _ heq

end Program

end ConstraintRules
