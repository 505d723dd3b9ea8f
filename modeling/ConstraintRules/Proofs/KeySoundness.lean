import ConstraintRules.Proofs.IndexingExact
import Mathlib.Data.List.Perm.Subperm

/-! What a key is good for. Its arguments are known before the search, and a
singleton category finds one instance at most. -/

namespace ConstraintRules

def Rule.Satisfies {V : Type} (r : Rule) (value : VarId → V) : Prop :=
  ∀ a b, GuardConjunct.equal a b ∈ r.guard → value a = value b

def AgreeOn {V : Type} (positions : List Nat) (t t' : List V) : Prop :=
  ∀ i ∈ positions, t[i]? = t'[i]?

/-- Tuples of arguments that respect the declaration of a constraint: none is stored twice, and the
positions of the dependency, if there is one, determine the others. -/
structure Constraint.Admits {V : Type} (k : Constraint) (store : List (List V)) : Prop where
  length_eq : ∀ t ∈ store, t.length = k.arity
  nodup : store.Nodup
  determined : ∀ key, k.dependency = some key → ∀ t ∈ store, ∀ t' ∈ store, AgreeOn key t t' → t = t'

def Constraint.Distinguishes (k : Constraint) (key : List Nat) : Prop :=
  ∀ (V : Type) (store : List (List V)), k.Admits store →
    ∀ (i j : Nat) t t', store[i]? = some t → store[j]? = some t' →
    AgreeOn key t t' → i = j

theorem Constraint.Admits.eq_of_getElem? {V : Type} {k : Constraint} {store : List (List V)}
    (h : k.Admits store) {i j : Nat} {t : List V} (hi : store[i]? = some t)
    (hj : store[j]? = some t) : i = j := by
  obtain ⟨hlt, _⟩ := List.getElem?_eq_some_iff.mp hi
  exact (List.getElem?_inj hlt h.nodup).mp (hi.trans hj.symm)

theorem mem_of_length_eq {key : List Nat} {n : Nat} (hasc : key.Pairwise (· < ·))
    (hlt : ∀ i ∈ key, i < n) (hlen : key.length = n) {i : Nat} (hi : i < n) : i ∈ key := by
  have hnodup : key.Nodup := hasc.imp Nat.ne_of_lt
  have hsub : key ⊆ List.range n := fun i hi => List.mem_range.mpr (hlt i hi)
  have hperm := (List.subperm_of_subset hnodup hsub).perm_of_length_le (by simp [hlen])
  exact hperm.mem_iff.mpr (List.mem_range.mpr hi)

theorem Constraint.Chooses.distinguishes {k : Constraint} {bound : Nat → Prop} {path : AccessPath}
    (h : k.Chooses bound path) (hbound : ∀ i, bound i → i < k.arity)
    (hsingle : path.isSingleton k.arity = true) :
    k.Distinguishes path.key := by
  intro V store hstore i j t t' hi hj hagree
  have ht := List.mem_of_getElem? hi
  have ht' := List.mem_of_getElem? hj
  have heq : t = t' := by
    cases h with
    | neverStored | scan | hash => cases hsingle
    | dependencyHash _ _ _ hkey _ => exact hstore.determined _ hkey t ht t' ht' hagree
    | setHash _ _ _ _ hasc hkey =>
      -- the key has all positions
      apply List.ext_getElem?
      intro n
      by_cases hn : n < k.arity
      · exact hagree n
          (mem_of_length_eq hasc (fun i hi => hbound i ((hkey i).mp hi)) (beq_iff_eq.mp hsingle) hn)
      · rw [List.getElem?_eq_none (by rw [hstore.length_eq t ht]; omega),
          List.getElem?_eq_none (by rw [hstore.length_eq t' ht']; omega)]
  subst heq
  exact hstore.eq_of_getElem? hi hj

theorem Categories.readSingleton_eq {cs : Categories} {id : CategoryId} {path : AccessPath}
    (h : cs.paths[id.index]? = some path) (arity : Nat) :
    cs.readSingleton id arity = .ok (path.isSingleton arity, cs.freeze id) := by
  rw [getElem?_paths] at h
  obtain ⟨c, hc, rfl⟩ := Option.map_eq_some_iff.mp h
  simp [readSingleton, get, hc, Except.map]

namespace Program

variable {p : Program}

/-- The arguments of `u` at the positions of the key have the values of variables that are bound
before `u` is searched from `o`, whenever the equalities of the guard hold. -/
def KeyKnown (p : Program) (o u : Occurrence) (key : List Nat) : Prop :=
  ∃ r, p.rule? o.rule = some r ∧ ∀ i ∈ key, ∃ v w, u.args[i]? = some v ∧ p.Known o u w ∧
    ∀ (V : Type) (value : VarId → V), r.Satisfies value → value v = value w

theorem keyKnown_of_bound {o u : Occurrence} {r : Rule} (hr : p.rule? o.rule = some r)
    (hu : p.Partner o u) (hhead : u.head = .positive) {key : List Nat}
    (hkey : ∀ i ∈ key, p.BoundAt o u i) : p.KeyKnown o u key := by
  have hasks : ∀ g, p.Asks u g → g ∈ r.guard := by
    rintro g ⟨r', hr', hg⟩
    rw [hu.rule_eq, hr] at hr'
    cases hr'
    rcases hg with hg | ⟨n, _, hneg, _⟩
    · exact hg
    · rw [hhead] at hneg
      cases hneg
  refine ⟨r, hr, fun i hi => ?_⟩
  obtain ⟨v, hv, hknown | ⟨w, hw, heq | heq⟩⟩ := hkey i hi
  · exact ⟨v, v, hv, hknown, fun _ _ _ => rfl⟩
  · exact ⟨v, w, hv, hw, fun _ _ hval => hval v w (hasks _ heq)⟩
  · exact ⟨v, w, hv, hw, fun _ _ hval => (hval w v (hasks _ heq)).symm⟩

/-- The key of a lookup in a positive head is known before the search. A category said to find
one instance at most does so in every store that is admitted. -/
theorem assignLookups_keys_sound (steps : List BuildStep) (arrayIndexing : Bool) : ∃ stats q,
    (build steps).assignLookups arrayIndexing = .done stats q ∧
    ∀ o ∈ (build steps).active, ∃ lookups, q.occurrence? o.id = some { o with lookups } ∧
      ∀ l ∈ lookups, ∃ u k, (build steps).Partner o u ∧ l.partner = u.id ∧
        q.constraint? u.constraint = some k ∧
        (u.head = .positive → (build steps).KeyKnown o u l.path.key) ∧
        ∃ single cs, k.categories.readSingleton l.category u.arity = .ok (single, cs) ∧
          (single = true → k.Distinguishes l.path.key) := by
  have hp := build_wellFormed steps
  obtain ⟨stats, q, hdone, h⟩ := build_assigned steps arrayIndexing
  refine ⟨stats, q, hdone, fun o ho => ?_⟩
  obtain ⟨r, _, hr, _⟩ := hp.rule_mem (List.mem_of_mem_filter ho)
  obtain ⟨lookups, us, hlookups, hus, _, hall⟩ := h.seeks hp ho
  refine ⟨lookups, hlookups, fun l hl => ?_⟩
  obtain ⟨u, hu, hpartner, k, hk, hchosen⟩ := exists_mem_of_forall₂ hall hl
  have hu := (hus u).mp hu
  obtain ⟨cs, hk', _⟩ := h.reindexed.constraint? hk
  have hpath : cs.paths[l.category.index]? = some l.path := by
    have hq : q.WellFormed := hp.of_bare_eq h.reindexed.bare_eq
    obtain ⟨_, huq, _⟩ := h.lookups u hu.mem
    have hresolves := h.indexed _ (List.mem_of_getElem? hlookups) l hl
    exact hresolves.path_eq hq (List.mem_of_getElem? huq) hpartner hk'
  have harity := hp.arity_eq hu.mem hk
  refine ⟨u, { k with categories := cs }, hu, hpartner, hk', fun hhead => ?_, _, _,
    Categories.readSingleton_eq hpath u.arity, fun hsingle V store hstore => ?_⟩
  · exact keyKnown_of_bound hr hu hhead fun i hi => hchosen.bound_of_mem_key hi
  · refine hchosen.distinguishes (fun i hi => ?_) (harity ▸ hsingle) V store
      ⟨hstore.length_eq, hstore.nodup, hstore.determined⟩
    obtain ⟨v, hv, _⟩ := hi
    exact harity ▸ (List.getElem?_eq_some_iff.mp hv).1

end Program

end ConstraintRules
