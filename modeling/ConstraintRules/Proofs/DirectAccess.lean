import ConstraintRules.Proofs.ArrayIndexing
import ConstraintRules.Proofs.JoinLabels
import ConstraintRules.Proofs.KeySoundness

/-! Direct access to an array, where just one equality of the guard links the two
occurrences of a binary head. -/

namespace ConstraintRules

theorem filterMap_eq_singleton_iff {α β : Type} {f : α → Option β} {xs : List α} {y : β}
    (hxs : xs.Nodup) :
    xs.filterMap f = [y] ↔ ∃ x ∈ xs, f x = some y ∧ ∀ x' ∈ xs, f x' ≠ none → x' = x := by
  constructor
  · intro h
    obtain ⟨before, x, after, rfl, hbefore, hx, hafter⟩ := List.filterMap_eq_cons_iff.mp h
    refine ⟨x, by simp, hx, fun x' hx' hsome => ?_⟩
    rcases List.mem_append.mp hx' with hin | hin
    · exact absurd (hbefore x' hin) hsome
    · rcases List.mem_cons.mp hin with rfl | hin
      · rfl
      · exact absurd (List.filterMap_eq_nil_iff.mp hafter x' hin) hsome
  · rintro ⟨x, hx, hy, honly⟩
    obtain ⟨before, after, rfl⟩ := List.append_of_mem hx
    obtain ⟨_, hafter, hdisjoint⟩ := List.nodup_append'.mp hxs
    have hno : ∀ x' ∈ before ++ x :: after, x' ≠ x → f x' = none := fun x' hx' hne => by
      by_contra hsome
      exact hne (honly x' hx' hsome)
    have hbefore : before.filterMap f = [] := List.filterMap_eq_nil_iff.mpr fun x' hx' =>
      hno x' (List.mem_append_left _ hx') fun he => hdisjoint hx' (he ▸ List.mem_cons_self)
    have hafter : after.filterMap f = [] := List.filterMap_eq_nil_iff.mpr fun x' hx' =>
      hno x' (List.mem_append_right _ (List.mem_cons_of_mem _ hx')) fun he =>
        (List.nodup_cons.mp hafter).1 (he ▸ hx')
    rw [List.filterMap_append, hbefore, List.filterMap_cons_some hy, hafter, List.nil_append]

theorem ArgType.bind_domainSize?_eq_some_iff {types : List ArgType} {k d : Nat} :
    (types[k]?.bind ArgType.domainSize?) = some d ↔
      (types[k]? = some .bool ∧ d = 2) ∨ types[k]? = some (.enum d) := by
  cases types[k]? with
  | none => simp
  | some t => cases t <;> simp [ArgType.domainSize?, eq_comm]

theorem HeadLink.sideOf?_eq_some_iff {l : HeadLink} (hl : l.left.head ≠ l.right.head) {active : Nat}
    {side : Side} :
    l.sideOf? active = some side ↔ (l.arg side).head = active := by
  unfold sideOf?
  cases side <;> grind [arg]

namespace Search

theorem findSome?_zipIdx_iff {head : List (List VarId)} {v : VarId} {n : Nat} {a : HeadArg} :
    ((head.zipIdx n).findSome? fun ai => (ai.1.idxOf? v).map fun argument =>
      HeadArg.mk ai.2 argument) = some a ↔
      ∃ i args, a.head = n + i ∧ head[i]? = some args ∧ args.idxOf? v = some a.argument ∧
        ∀ j < i, ∀ args', head[j]? = some args' → v ∉ args' := by
  -- the numbering of the rest of the head starts one later
  induction head generalizing n with
  | nil => simp
  | cons args rest ih =>
    rw [List.zipIdx_cons, List.findSome?_cons]
    cases hv : args.idxOf? v with
    | some k =>
      have hmem : v ∈ args := by
        rw [← List.isSome_idxOf?, hv]
        rfl
      constructor
      · intro h
        cases h
        exact ⟨0, args, rfl, rfl, hv, by simp⟩
      · rintro ⟨i, args', hhead, hargs, hidx, hfirst⟩
        cases i with
        | zero =>
          cases hargs
          cases hv.symm.trans hidx
          exact congrArg (fun h => some (HeadArg.mk h a.argument)) hhead.symm
        | succ i => exact absurd hmem (hfirst 0 (Nat.succ_pos i) args rfl)
    | none =>
      have hmem : v ∉ args := List.idxOf?_eq_none_iff.mp hv
      simp only [Option.map_none, ih]
      constructor
      · rintro ⟨i, args', hhead, hargs, hidx, hfirst⟩
        refine ⟨i + 1, args', by omega, hargs, hidx, fun j hj args'' hargs'' => ?_⟩
        cases j with
        | zero =>
          cases hargs''
          exact hmem
        | succ j => exact hfirst j (by omega) args'' hargs''
      · rintro ⟨i, args', hhead, hargs, hidx, hfirst⟩
        cases i with
        | zero =>
          cases hargs
          cases hv.symm.trans hidx
        | succ i => exact ⟨i, args', by omega, hargs, hidx, fun j hj => hfirst (j + 1) (by omega)⟩

theorem locate?_eq_some_iff {head : List (List VarId)} {v : VarId} {a : HeadArg} :
    locate? head v = some a ↔
    ∃ args, head[a.head]? = some args ∧ args.idxOf? v = some a.argument ∧
      ∀ j < a.head, ∀ args', head[j]? = some args' → v ∉ args' := by
  rw [locate?, findSome?_zipIdx_iff]
  simp

theorem link?_eq_some_iff {head : List (List VarId)} {g : GuardConjunct} {n : Nat} {l : HeadLink} :
    link? head (g, n) = some l ↔ l.guard = n ∧ l.left.head ≠ l.right.head ∧
      ∃ a b, g = .equal a b ∧ locate? head a = some l.left ∧ locate? head b = some l.right := by
  cases g with
  | test vs => simp [link?]
  | equal a b =>
    simp only [link?, Option.bind_eq_bind, Option.bind_eq_some_iff]
    constructor
    · rintro ⟨left, hleft, right, hright, hl⟩
      by_cases he : left.head = right.head
      · simp [he] at hl
      · rw [if_neg he] at hl
        cases hl
        exact ⟨rfl, he, a, b, rfl, hleft, hright⟩
    · rintro ⟨rfl, hne, _, _, he, hleft, hright⟩
      cases he
      exact ⟨_, hleft, _, hright, if_neg hne⟩

theorem soleLink?_eq_some_iff {head : List (List VarId)} {guard : List GuardConjunct}
    {l : HeadLink} :
    soleLink? head guard = some l ↔
      (∃ g, guard[l.guard]? = some g ∧ link? head (g, l.guard) = some l) ∧
      ∀ m g, guard[m]? = some g → link? head (g, m) ≠ none → m = l.guard := by
  have hnodup : guard.zipIdx.Nodup := by
    refine (zipIdx_pairwise guard).imp fun hlt he => ?_
    rw [he] at hlt
    exact Nat.lt_irrefl _ hlt
  have hsole : soleLink? head guard = some l ↔ guard.zipIdx.filterMap (link? head) = [l] := by
    unfold soleLink?
    split
    · rename_i hlinks
      simp [hlinks]
    · rename_i hlinks
      exact iff_of_false (by simp) (hlinks l)
  rw [hsole, filterMap_eq_singleton_iff hnodup]
  simp only [Prod.exists, Prod.forall, List.mem_zipIdx_iff_getElem?]
  constructor
  · rintro ⟨g, n, hg, hl, honly⟩
    obtain ⟨rfl, _⟩ := link?_eq_some_iff.mp hl
    exact ⟨⟨g, hg, hl⟩, fun m g' hg' hl' => congrArg Prod.snd (honly g' m hg' hl')⟩
  · rintro ⟨⟨g, hg, hl⟩, honly⟩
    refine ⟨g, l.guard, hg, hl, fun g' m hg' hl' => ?_⟩
    obtain rfl := honly m g' hg' hl'
    rw [Option.some.inj (hg.symm.trans hg')]

theorem direct?_eq_some_iff {l : HeadLink} {active partner k d : Nat} {path : AccessPath}
    {types : List ArgType} (hl : l.left.head ≠ l.right.head) :
    direct? l active partner path types = some ⟨k, d⟩ ↔
      ((l.left.head = active ∧ l.right = ⟨partner, k⟩) ∨
        (l.right.head = active ∧ l.left = ⟨partner, k⟩)) ∧
        (path = .hash [k] ∨ path = .setHash [k]) ∧
        ((types[k]? = some .bool ∧ d = 2) ∨ types[k]? = some (.enum d)) := by
  have harg : ∀ arg : HeadArg,
      (if arg.head = partner ∧ (path = .hash [arg.argument] ∨ path = .setHash [arg.argument]) then
        types[arg.argument]?.bind fun type => type.domainSize?.bind fun size =>
          some (DirectAccess.mk arg.argument size)
      else none) = some ⟨k, d⟩ ↔ arg = ⟨partner, k⟩ ∧ (path = .hash [k] ∨ path = .setHash [k]) ∧
        types[k]?.bind ArgType.domainSize? = some d := by
    rintro ⟨head, argument⟩
    simp only [Option.ite_none_right_eq_some, Option.bind_eq_some_iff, HeadArg.mk.injEq,
      Option.some.injEq, DirectAccess.mk.injEq]
    constructor
    · rintro ⟨⟨rfl, hpath⟩, type, htype, size, hsize, rfl, rfl⟩
      exact ⟨⟨rfl, rfl⟩, hpath, type, htype, hsize⟩
    · rintro ⟨⟨rfl, rfl⟩, hpath, type, htype, hsize⟩
      exact ⟨⟨rfl, hpath⟩, type, htype, d, hsize, rfl, rfl⟩
  rw [← ArgType.bind_domainSize?_eq_some_iff]
  simp only [direct?, Option.bind_eq_bind, Option.bind_eq_some_iff,
    HeadLink.sideOf?_eq_some_iff hl, harg]
  constructor
  · rintro ⟨side, hactive, hpartner, hrest⟩
    cases side with
    | left => exact ⟨Or.inl ⟨hactive, hpartner⟩, hrest⟩
    | right => exact ⟨Or.inr ⟨hactive, hpartner⟩, hrest⟩
  · rintro ⟨⟨hactive, hpartner⟩ | ⟨hactive, hpartner⟩, hrest⟩
    · exact ⟨.left, hactive, hpartner, hrest⟩
    · exact ⟨.right, hactive, hpartner, hrest⟩

end Search

namespace Program

variable {p : Program} {r : Rule}

/-- The variable stands at a position of an occurrence of the positive head, the first position
of the first occurrence that has it. -/
structure Located (p : Program) (r : Rule) (v : VarId) (u : Occurrence) (i : Nat) : Prop where
  inHead : p.InHead r .positive u
  getElem?_eq : u.args[i]? = some v
  first : ∀ j < i, u.args[j]? ≠ some v
  earliest : ∀ w, p.InHead r .positive w → w.index < u.index → v ∉ w.args

/-- The conjunct is an equality whose variables are located in different occurrences. -/
def Links (p : Program) (r : Rule) (g : GuardConjunct) (u : Occurrence) (i : Nat) (w : Occurrence)
    (j : Nat) : Prop :=
  u ≠ w ∧ ∃ a b, g = .equal a b ∧ p.Located r a u i ∧ p.Located r b w j

theorem Links.inHead {g : GuardConjunct} {u w : Occurrence} {i j : Nat} (h : p.Links r g u i w j) :
    p.InHead r .positive u ∧ p.InHead r .positive w := by
  obtain ⟨_, _, _, _, hu, hw⟩ := h
  exact ⟨hu.inHead, hw.inHead⟩

/-- The conjunct at place `n` of the guard links `o` to position `k` of `u`, and no
other conjunct is a link. -/
structure SoleLink (p : Program) (r : Rule) (n : Nat) (o u : Occurrence) (k : Nat) : Prop where
  links : ∃ g i, r.guard[n]? = some g ∧ (p.Links r g o i u k ∨ p.Links r g u k o i)
  sole : ∀ m g, r.guard[m]? = some g → (∃ u i w j, p.Links r g u i w j) → m = n

/-- The conditions for direct access from `o` to argument `k` of `u`, which has `d` values. -/
structure AccessedDirectly (p : Program) (o u : Occurrence) (path : AccessPath) (k d : Nat) :
    Prop where
  positive : u.head = .positive
  linked : ∃ r, p.rule? o.rule = some r ∧ r.head.length = 2 ∧ ∃ n, p.SoleLink r n o u k
  keyed : path = .hash [k] ∨ path = .setHash [k]
  typed : ∃ c, p.constraint? u.constraint = some c ∧
    ((c.argTypes[k]? = some .bool ∧ d = 2) ∨ c.argTypes[k]? = some (.enum d))

theorem accessedDirectly_iff {o u : Occurrence} {c : Constraint} (hr : p.rule? o.rule = some r)
    (hc : p.constraint? u.constraint = some c) {path : AccessPath} {k d : Nat} :
    p.AccessedDirectly o u path k d ↔
      u.head = .positive ∧ r.head.length = 2 ∧ (∃ n, p.SoleLink r n o u k) ∧
        (path = .hash [k] ∨ path = .setHash [k]) ∧
        ((c.argTypes[k]? = some .bool ∧ d = 2) ∨ c.argTypes[k]? = some (.enum d)) := by
  constructor
  · rintro ⟨hpositive, ⟨r', hr', hbinary, hlink⟩, hkeyed, c', hc', htyped⟩
    cases hr.symm.trans hr'
    cases hc.symm.trans hc'
    exact ⟨hpositive, hbinary, hlink, hkeyed, htyped⟩
  · rintro ⟨hpositive, hbinary, hlink, hkeyed, htyped⟩
    exact ⟨hpositive, ⟨r, hr, hbinary, hlink⟩, hkeyed, c, hc, htyped⟩

/-- Wherever the equalities of the guard hold, the argument of `u` has the
value of a variable of `o`. -/
def Determines (p : Program) (o u : Occurrence) (k : Nat) : Prop :=
  ∃ r v w, p.rule? o.rule = some r ∧ u.args[k]? = some v ∧ w ∈ o.args ∧
    ∀ (V : Type) (value : VarId → V), r.Satisfies value → value v = value w

theorem AccessedDirectly.determines {o u : Occurrence} {path : AccessPath} {k d : Nat}
    (h : p.AccessedDirectly o u path k d) : p.Determines o u k := by
  obtain ⟨r, hr, _, n, ⟨g, i, hg, hlinks⟩, _⟩ := h.linked
  have hguard := List.mem_of_getElem? hg
  rcases hlinks with ⟨_, a, b, rfl, ha, hb⟩ | ⟨_, a, b, rfl, ha, hb⟩
  · exact ⟨r, b, a, hr, hb.getElem?_eq, List.mem_of_getElem? ha.getElem?_eq,
      fun _ _ hval => (hval a b hguard).symm⟩
  · exact ⟨r, a, b, hr, ha.getElem?_eq, List.mem_of_getElem? hb.getElem?_eq,
      fun _ _ hval => hval a b hguard⟩

section Head

variable {os : List Occurrence} (hos : p.ListsHead r os)

include hos

theorem locate?_iff {v : VarId} {a : HeadArg} : Search.locate? (os.map Occurrence.args) v = some a ↔
    ∃ u, u.index = a.head ∧ p.Located r v u a.argument := by
  rw [Search.locate?_eq_some_iff]
  constructor
  · rintro ⟨args, hargs, hidx, hfirst⟩
    obtain ⟨u, hin, hindex, rfl⟩ := hos.exists_of_getElem?_args hargs
    obtain ⟨hlt, heq, hbefore⟩ := List.idxOf?_eq_some_iff.mp hidx
    refine ⟨u, hindex, hin, List.getElem?_eq_some_iff.mpr ⟨hlt, heq⟩, fun j hj hget => ?_,
      fun w hw hwu => ?_⟩
    · obtain ⟨_, hv⟩ := List.getElem?_eq_some_iff.mp hget
      exact hbefore j hj hv
    · exact hfirst w.index (hindex ▸ hwu) w.args (hos.getElem?_args hw)
  · rintro ⟨u, hindex, h⟩
    obtain ⟨hlt, heq⟩ := List.getElem?_eq_some_iff.mp h.getElem?_eq
    refine ⟨u.args, hindex ▸ hos.getElem?_args h.inHead, ?_, fun j hj args hargs => ?_⟩
    · exact List.idxOf?_eq_some_iff.mpr
        ⟨hlt, heq, fun j hj he => h.first j hj (List.getElem?_eq_some_iff.mpr ⟨_, he⟩)⟩
    · obtain ⟨w, hw, hwj, rfl⟩ := hos.exists_of_getElem?_args hargs
      exact h.earliest w hw (by omega)

theorem link?_iff {g : GuardConjunct} {n : Nat} {l : HeadLink} :
    Search.link? (os.map Occurrence.args) (g, n) = some l ↔
      l.guard = n ∧ ∃ u w, u.index = l.left.head ∧
      w.index = l.right.head ∧ p.Links r g u l.left.argument w l.right.argument := by
  rw [Search.link?_eq_some_iff]
  simp only [locate?_iff hos]
  constructor
  · rintro ⟨hn, hne, a, b, rfl, ⟨u, hu, ha⟩, w, hw, hb⟩
    refine ⟨hn, u, w, hu, hw, fun he => hne ?_, a, b, rfl, ha, hb⟩
    rw [← hu, ← hw, he]
  · rintro ⟨hn, u, w, hu, hw, hne, a, b, rfl, ha, hb⟩
    refine ⟨hn, fun he => hne (hos.eq_of_index_eq ha.inHead hb.inHead ?_), a, b, rfl,
      ⟨u, hu, ha⟩, w, hw, hb⟩
    rw [hu, hw, he]

theorem link?_of_links {g : GuardConjunct} {u w : Occurrence} {i j : Nat} (h : p.Links r g u i w j)
    (n : Nat) :
    Search.link? (os.map Occurrence.args) (g, n) = some ⟨n, ⟨u.index, i⟩, ⟨w.index, j⟩⟩ :=
  (link?_iff hos).mpr ⟨rfl, u, w, rfl, rfl, h⟩

theorem link?_ne_none_iff {g : GuardConjunct} {n : Nat} :
    Search.link? (os.map Occurrence.args) (g, n) ≠ none ↔ ∃ u i w j, p.Links r g u i w j := by
  constructor
  · intro hsome
    obtain ⟨l, hl⟩ := Option.ne_none_iff_exists'.mp hsome
    obtain ⟨_, u, w, _, _, hlinks⟩ := (link?_iff hos).mp hl
    exact ⟨u, _, w, _, hlinks⟩
  · rintro ⟨u, i, w, j, hlinks⟩
    simp [link?_of_links hos hlinks]

theorem direct?_soleLink?_iff {o u : Occurrence} (ho : p.InHead r .positive o)
    (hu : p.InHead r .positive u) {path : AccessPath} {types : List ArgType} {k d : Nat} :
    (∃ l, Search.soleLink? (os.map Occurrence.args) r.guard = some l ∧
        Search.direct? l o.index u.index path types = some ⟨k, d⟩) ↔
      (∃ n, p.SoleLink r n o u k) ∧ (path = .hash [k] ∨ path = .setHash [k]) ∧
        ((types[k]? = some .bool ∧ d = 2) ∨ types[k]? = some (.enum d)) := by
  simp only [Search.soleLink?_eq_some_iff, link?_ne_none_iff hos]
  constructor
  · rintro ⟨l, ⟨⟨g, hg, hlink⟩, hsole⟩, hdirect⟩
    have hne := (Search.link?_eq_some_iff.mp hlink).2.1
    obtain ⟨_, x, y, hx, hy, hlinks⟩ := (link?_iff hos).mp hlink
    obtain ⟨hxin, hyin⟩ := hlinks.inHead
    obtain ⟨hsides, hpath, htype⟩ := (Search.direct?_eq_some_iff hne).mp hdirect
    refine ⟨⟨l.guard, ⟨g, ?_⟩, hsole⟩, hpath, htype⟩
    rcases hsides with ⟨hactive, hpartner⟩ | ⟨hactive, hpartner⟩
    · rw [hpartner] at hy hlinks
      obtain rfl := hos.eq_of_index_eq hxin ho (hx.trans hactive)
      obtain rfl := hos.eq_of_index_eq hyin hu hy
      exact ⟨_, hg, Or.inl hlinks⟩
    · rw [hpartner] at hx hlinks
      obtain rfl := hos.eq_of_index_eq hyin ho (hy.trans hactive)
      obtain rfl := hos.eq_of_index_eq hxin hu hx
      exact ⟨_, hg, Or.inr hlinks⟩
  · rintro ⟨⟨n, ⟨g, i, hg, hlinks⟩, hsole⟩, hpath, htype⟩
    rcases hlinks with hlinks | hlinks
    · have hlink := link?_of_links hos hlinks n
      have hne := (Search.link?_eq_some_iff.mp hlink).2.1
      exact ⟨_, ⟨⟨g, hg, hlink⟩, hsole⟩,
        (Search.direct?_eq_some_iff hne).mpr ⟨Or.inl ⟨rfl, rfl⟩, hpath, htype⟩⟩
    · have hlink := link?_of_links hos hlinks n
      have hne := (Search.link?_eq_some_iff.mp hlink).2.1
      exact ⟨_, ⟨⟨g, hg, hlink⟩, hsole⟩,
        (Search.direct?_eq_some_iff hne).mpr ⟨Or.inr ⟨rfl, rfl⟩, hpath, htype⟩⟩

end Head

/-- Every search of a plan decides direct access for itself, by its own path. -/
theorem searches?_direct {link : Option HeadLink} {o : Occurrence} {bound : List VarId}
    {us : List Occurrence} {plan : List Search} (h : p.searches? r link o bound us = some plan) :
    List.Forall₂ (fun u s => s.partner = u.id ∧ ∃ c, p.constraint? u.constraint = some c ∧
      s.direct = link.bind fun l =>
        if u.head = .positive then Search.direct? l o.index u.index s.path c.argTypes else none)
      us plan := by
  induction us generalizing bound plan with
  | nil =>
    cases h
    exact .nil
  | cons u us ih =>
    simp only [searches?, Option.bind_eq_bind, Option.bind_eq_some_iff, Option.some.injEq] at h
    obtain ⟨guard, _, c, hc, rest, hrest, rfl⟩ := h
    exact .cons ⟨rfl, c, hc, rfl⟩ (ih hrest)

theorem WellFormed.planOf_direct (h : p.WellFormed) {o : Occurrence} (ho : o ∈ p.active) : ∃ us,
    (∀ u, u ∈ us ↔ p.Partner o u) ∧ us.Pairwise Occurrence.Precedes ∧
      List.Forall₂ (fun u s => s.partner = u.id ∧ ∀ k d, s.direct = some ⟨k, d⟩ ↔
        p.AccessedDirectly o u s.path k d)
        us (p.planOf true o) := by
  obtain ⟨hmem, hactive⟩ := List.mem_filter.mp ho
  obtain ⟨r, hr, hrule, hid⟩ := h.rule_mem hmem
  obtain ⟨os, hos, hlength, hlists⟩ := h.head_listed hr
  obtain ⟨ids, us, hids, hresolve, hus, hord⟩ := h.partners_ordered hmem
  have ho : p.InHead r .positive o :=
    ⟨hmem, hid.symm, by simpa using (Bool.and_eq_true_iff.mp hactive).2⟩
  have hplan := (h.occurrencePlan?_plans true hmem).1
  simp only [occurrencePlan?, hrule, hos, hids, hresolve, Option.bind_eq_bind, Option.bind_some,
    Bool.true_and, decide_eq_true_eq] at hplan
  have hall := (List.forall₂_and_left us _).mpr ⟨fun u hu => (hus u).mp hu, searches?_direct hplan⟩
  refine ⟨us, hus, hord, hall.imp fun u s hsearch => ?_⟩
  obtain ⟨hpartner, hs, c, hc, hdirect⟩ := hsearch
  refine ⟨hs, fun k d => ?_⟩
  rw [hdirect, accessedDirectly_iff hrule hc, ← hlength]
  by_cases hpositive : u.head = .positive
  · by_cases hbinary : os.length = 2
    · have hu : p.InHead r .positive u := ⟨hpartner.mem, hpartner.rule_eq.trans hid.symm, hpositive⟩
      rw [← direct?_soleLink?_iff hlists ho hu]
      simp [hbinary, hpositive, Option.bind_eq_some_iff]
    · simp [hbinary]
  · simp [hpositive]

-- the equality names the partner of the first occurrence first, and each side gets
-- the position of the other
example : ((build [.declare { name := "flag", arity := 2, argTypes := some [.bool, .int] },
      .declare { name := "mode", arity := 2, argTypes := some [.other, .enum 3] },
      .rule "same" [.kept ⟨0⟩ ["X", "U"], .removed ⟨1⟩ ["V", "Y"],
      .guardEqual "Y" "X"]]).searchPlan? true).map
    (List.map Search.direct) = some [some ⟨1, 3⟩, some ⟨0, 2⟩] := by
  decide

theorem build_indirect (steps : List BuildStep) : (build steps).indirect = build steps := by
  have hsame : ∀ o ∈ (build steps).occurrences, o.indirect = o := fun o ho => by
    rw [← (build_unannotated steps).occurrences o ho]
    rfl
  rw [indirect, List.map_congr_left hsame, List.map_id']

/-- Indexing gives direct access just where the only link of a binary head leads to the key and
its type has a known size. Without arrays nothing else is different. -/
theorem assignLookups_direct_exact (steps : List BuildStep) : ∃ stats q,
    (build steps).assignLookups true = .done stats q ∧
    (∀ o ∈ (build steps).active, ∃ lookups us, q.occurrence? o.id = some { o with lookups } ∧
      (∀ u, u ∈ us ↔ (build steps).Partner o u) ∧ us.Pairwise Occurrence.Precedes ∧
      List.Forall₂ (fun u l => l.partner = u.id ∧
        ∀ k d, (l.direct = some ⟨k, d⟩ ↔ (build steps).AccessedDirectly o u l.path k d) ∧
          (l.direct = some ⟨k, d⟩ → (build steps).Determines o u k)) us lookups) ∧
    (build steps).assignLookups false = .done { stats with directAccess := 0 } q.indirect ∧
    ∀ o ∈ q.indirect.occurrences, ∀ l ∈ o.lookups, l.direct = none := by
  have hp := build_wellFormed steps
  obtain ⟨stats, q, hdone, h⟩ := build_assigned steps true
  refine ⟨stats, q, hdone, fun o ho => ?_, ?_, fun o ho l hl => ?_⟩
  · obtain ⟨lookups, hlookups, hmap⟩ := h.lookups_of_active ho
    obtain ⟨us, hus, hord, hall⟩ := hp.planOf_direct ho
    refine ⟨lookups, us, hlookups, hus, hord, forall₂_of_map_eq hall hmap fun u s l hs hls => ?_⟩
    obtain ⟨hpartner, hpath⟩ := Lookup.eq_of_request_eq hls
    have hdirect : l.direct = s.direct := congrArg (fun r => r.2.2) hls
    refine ⟨hpartner.trans hs.1, fun k d => ?_⟩
    have hiff : l.direct = some ⟨k, d⟩ ↔ (build steps).AccessedDirectly o u l.path k d := by
      rw [hdirect, hpath]
      exact hs.2 k d
    exact ⟨hiff, fun hsome => (hiff.mp hsome).determines⟩
  · have hoff := assignLookups_indirect hdone
    rwa [build_indirect] at hoff
  · obtain ⟨o', _, rfl⟩ := List.mem_map.mp ho
    obtain ⟨l', _, rfl⟩ := List.mem_map.mp hl
    rfl

end Program

end ConstraintRules
