import ConstraintRules.Access.Categories

/-! Lookup categories keep their numbers. Entering a search only extends the list
of their paths and fails in a frozen category only. -/

namespace ConstraintRules

theorem map_modify_eq {α β : Type} {g : α → β} {xs : List α} {i : Nat} {f : α → α}
    (hf : ∀ x, xs[i]? = some x → g (f x) = g x) : (xs.modify i f).map g = xs.map g := by
  apply List.ext_getElem?
  intro j
  simp only [List.getElem?_map, List.getElem?_modify]
  by_cases hj : i = j
  · subst hj
    cases hx : xs[i]? with
    | none => rfl
    | some x => simp [hf x hx]
  · simp [hj]

namespace Categories

variable {cs : Categories}

def paths (cs : Categories) : List AccessPath := cs.list.map Category.path

def Unfrozen (cs : Categories) : Prop := ∀ c ∈ cs.list, c.frozen = false

/-- The master, if there is one, stands among the categories. -/
def Seated (cs : Categories) : Prop := ∀ id, cs.masterId = some id → id.index < cs.paths.length

theorem Seated.of_isPrefix {ds : Categories} (h : cs.Seated) (hmaster : ds.masterId = cs.masterId)
    (hpaths : cs.paths <+: ds.paths) : ds.Seated := by
  intro id hid
  exact Nat.lt_of_lt_of_le (h id (hmaster ▸ hid)) hpaths.length_le

theorem getElem?_paths (cs : Categories) (id : CategoryId) :
    cs.paths[id.index]? = (cs.get? id).map Category.path := by
  simp [paths, get?]

theorem getElem?_paths_of_find? {path : AccessPath} {id : CategoryId}
    (h : cs.find? path = some id) :
    cs.paths[id.index]? = some path := by
  obtain ⟨i, hi, rfl⟩ := Option.map_eq_some_iff.mp h
  obtain ⟨hlt, hpath, _⟩ := List.findIdx?_eq_some_iff_getElem.mp hi
  simpa [paths, hlt] using hpath

theorem get?_modify (cs : Categories) (id i : CategoryId) (f : Category → Category) :
    (cs.modify id f).get? i = (cs.get? i).map fun c => if i = id then f c else c := by
  have hid : id.index = i.index ↔ i = id := by
    cases i
    cases id
    simp [eq_comm]
  simp only [get?, modify, List.getElem?_modify, hid]
  rfl

theorem paths_modify (cs : Categories) (id : CategoryId) (f : Category → Category)
    (hf : ∀ c, cs.get? id = some c → (f c).path = c.path) : (cs.modify id f).paths = cs.paths :=
  map_modify_eq hf

theorem Unfrozen.modify (h : cs.Unfrozen) (id : CategoryId) (f : Category → Category)
    (hf : ∀ c, cs.get? id = some c → (f c).frozen = c.frozen) : (cs.modify id f).Unfrozen := by
  intro c hc
  obtain ⟨i, hi⟩ := List.mem_iff_getElem?.mp hc
  simp only [Categories.modify, List.getElem?_modify] at hi
  obtain ⟨d, hd, rfl⟩ := Option.map_eq_some_iff.mp hi
  have hfrozen := h d (List.mem_of_getElem? hd)
  by_cases hid : id.index = i
  · subst hid
    simp [hf d hd, hfrozen]
  · simp [hid, hfrozen]

theorem paths_push (cs : Categories) (path : AccessPath) :
    (cs.push path).2.paths = cs.paths ++ [path] := by
  simp [paths, push]

theorem Unfrozen.push (h : cs.Unfrozen) (path : AccessPath) : (cs.push path).2.Unfrozen := by
  intro c hc
  rcases List.mem_append.mp hc with hc | hc
  · exact h c hc
  · rw [List.mem_singleton.mp hc]

theorem ensure_spec (cs : Categories) (path : AccessPath) :
    cs.paths <+: (cs.ensure path).2.paths ∧
      (cs.ensure path).2.paths[(cs.ensure path).1.index]? = some path ∧
      (cs.Unfrozen → (cs.ensure path).2.Unfrozen) := by
  rw [ensure]
  cases hf : cs.find? path with
  | some id => exact ⟨List.prefix_rfl, getElem?_paths_of_find? hf, fun h => h⟩
  | none =>
    refine ⟨?_, ?_, fun h => h.push path⟩
    · rw [paths_push]
      exact List.prefix_append _ _
    · have hlen : (cs.push path).1.index = cs.paths.length := by simp [push, size, paths]
      rw [paths_push, hlen, List.getElem?_concat_length]

theorem masterId_ensure (cs : Categories) (path : AccessPath) :
    (cs.ensure path).2.masterId = cs.masterId := by
  rw [ensure]
  cases cs.find? path <;> rfl

theorem enroll_cases {id : CategoryId} {path : AccessPath} (hid : cs.paths[id.index]? = some path)
    (o : OccurrenceId) :
    (∃ cs', cs.enroll id o = .ok cs' ∧ cs'.paths = cs.paths ∧ cs'.masterId = cs.masterId ∧
      (cs.Unfrozen → cs'.Unfrozen)) ∨ (cs.enroll id o = .error (.frozen path) ∧ ¬cs.Unfrozen) := by
  rw [getElem?_paths] at hid
  obtain ⟨c, hc, rfl⟩ := Option.map_eq_some_iff.mp hid
  by_cases hfrozen : c.frozen = true
  · right
    refine ⟨by simp [enroll, get, hc, Category.enroll, hfrozen], fun hunfrozen => ?_⟩
    have hfalse := hunfrozen c (List.mem_of_getElem? hc)
    rw [hfrozen] at hfalse
    cases hfalse
  · left
    have hok : ∃ c', c.enroll o = .ok c' ∧ c'.path = c.path ∧ c'.frozen = c.frozen := by
      by_cases hm : o ∈ c.members
      · exact ⟨c, by simp [Category.enroll, hfrozen, hm], rfl, rfl⟩
      · exact ⟨{ c with members := c.members ++ [o] },
          by simp [Category.enroll, hfrozen, hm], rfl, rfl⟩
    obtain ⟨c', hok, hpath, hfrozen'⟩ := hok
    have hsame : ∀ d, cs.get? id = some d → d = c := fun d hd => Option.some.inj (hd.symm.trans hc)
    refine ⟨cs.modify id fun _ => c', by simp [enroll, get, hc, hok], ?_, rfl, fun hunfrozen => ?_⟩
    · exact paths_modify cs id _ fun d hd => (hsame d hd) ▸ hpath
    · exact hunfrozen.modify id _ fun d hd => (hsame d hd) ▸ hfrozen'

/-- Entering a search fails in a frozen category only. Otherwise it keeps all numbers and
answers with one for the path of the search. -/
theorem enter_cases (cs : Categories) (path : AccessPath) (o : OccurrenceId) :
    (∃ id cs', cs.enter path o = .ok (id, cs') ∧ cs.paths <+: cs'.paths ∧
      cs'.paths[id.index]? = some path ∧
      cs'.masterId = cs.masterId ∧ (cs.Unfrozen → cs'.Unfrozen)) ∨
      (cs.enter path o = .error (.frozen path) ∧ ¬cs.Unfrozen) := by
  obtain ⟨hgrown, hid, hunfrozen⟩ := cs.ensure_spec path
  rcases enroll_cases hid o with ⟨cs', henroll, hpaths, hmaster, hcs'⟩ | ⟨henroll, hfrozen⟩
  · refine Or.inl ⟨(cs.ensure path).1, cs', ?_, ?_, ?_, ?_, fun h => hcs' (hunfrozen h)⟩
    · simp only [enter, henroll, Except.map]
    · rw [hpaths]
      exact hgrown
    · rw [hpaths]
      exact hid
    · rw [hmaster, masterId_ensure]
  · refine Or.inr ⟨?_, fun h => hfrozen (hunfrozen h)⟩
    simp only [enter, henroll, Except.map]

theorem moveMaster_spec (cs : Categories) (id : CategoryId) :
    (cs.moveMaster id).paths = cs.paths ∧ (cs.Unfrozen → (cs.moveMaster id).Unfrozen) := by
  have hpromote : ∀ ds : Categories, ds.paths = cs.paths → (cs.Unfrozen → ds.Unfrozen) →
      (ds.modify id fun c => { c with master := true }).paths = cs.paths ∧
      (cs.Unfrozen → (ds.modify id fun c => { c with master := true }).Unfrozen) := by
    intro ds hpaths hunfrozen
    refine ⟨?_, fun h => (hunfrozen h).modify id _ fun _ _ => rfl⟩
    rw [← hpaths]
    exact paths_modify ds id _ fun _ _ => rfl
  rw [moveMaster]
  split
  · exact hpromote _ (paths_modify cs _ _ fun _ _ => rfl) fun h => h.modify _ _ fun _ _ => rfl
  · exact hpromote cs rfl fun h => h

theorem nominate_spec (cs : Categories) (mayBeStored : Bool) :
    cs.paths <+: (cs.nominate mayBeStored).2.paths ∧
      (cs.Unfrozen → (cs.nominate mayBeStored).2.Unfrozen) ∧
      (cs.nominate mayBeStored).1.index < (cs.nominate mayBeStored).2.paths.length := by
  have hensure : ∀ path, cs.paths <+: (cs.ensure path).2.paths ∧
      (cs.Unfrozen → (cs.ensure path).2.Unfrozen) ∧
      (cs.ensure path).1.index < (cs.ensure path).2.paths.length := by
    intro path
    obtain ⟨hgrown, hid, hunfrozen⟩ := cs.ensure_spec path
    exact ⟨hgrown, hunfrozen, (List.getElem?_eq_some_iff.mp hid).1⟩
  rw [nominate]
  cases hscan : cs.find? .scan with
  | some id =>
    exact ⟨List.prefix_rfl, fun h => h,
      (List.getElem?_eq_some_iff.mp (getElem?_paths_of_find? hscan)).1⟩
  | none =>
    cases mayBeStored with
    | false => exact hensure .neverStored
    | true =>
      cases hkeyed : cs.firstKeyed? with
      | none => exact hensure .scan
      | some id =>
        obtain ⟨i, hi, rfl⟩ := Option.map_eq_some_iff.mp hkeyed
        obtain ⟨hlt, _⟩ := List.findIdx?_eq_some_iff_getElem.mp hi
        exact ⟨List.prefix_rfl, fun h => h, by simpa [paths] using hlt⟩

theorem electMaster_spec (cs : Categories) (mayBeStored : Bool) :
    cs.paths <+: (cs.electMaster mayBeStored).2.paths ∧
      (cs.Unfrozen → (cs.electMaster mayBeStored).2.Unfrozen) ∧
        (cs.electMaster mayBeStored).2.Seated := by
  obtain ⟨hgrown, hkept, hlt⟩ := cs.nominate_spec mayBeStored
  obtain ⟨hpaths, hunfrozen⟩ :=
    (cs.nominate mayBeStored).2.moveMaster_spec (cs.nominate mayBeStored).1
  simp only [electMaster]
  refine ⟨hpaths ▸ hgrown, fun h => hunfrozen (hkept h), fun id hid => ?_⟩
  rw [hpaths, ← Option.some.inj hid]
  exact hlt

theorem paths_freeze (cs : Categories) (id : CategoryId) : (cs.freeze id).paths = cs.paths :=
  paths_modify cs id _ fun _ _ => rfl

end Categories

end ConstraintRules
