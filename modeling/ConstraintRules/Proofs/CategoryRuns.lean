import ConstraintRules.Proofs.IndexingAgain
import Mathlib.Data.List.Induction

/-! Runs of requests on the categories of a constraint. From its first read on, a
category admits no new members. -/

namespace ConstraintRules

/-- How a category goes on: with the same path, with members that are only appended, each once,
and none of them once it is frozen. -/
structure Category.GoesOn (c d : Category) : Prop where
  path_eq : d.path = c.path
  members_prefix : c.members <+: d.members
  nodup_members : c.members.Nodup → d.members.Nodup
  frozen : c.frozen = true → d.frozen = true ∧ d.members = c.members

namespace Category

variable {c d e : Category}

theorem goesOn_of_eq (hpath : d.path = c.path) (hmembers : d.members = c.members)
    (hfrozen : c.frozen = true → d.frozen = true) : c.GoesOn d :=
  ⟨hpath, hmembers ▸ List.prefix_rfl, fun h => hmembers ▸ h, fun h => ⟨hfrozen h, hmembers⟩⟩

theorem GoesOn.refl (c : Category) : c.GoesOn c := goesOn_of_eq rfl rfl fun h => h

theorem GoesOn.trans (h : c.GoesOn d) (h' : d.GoesOn e) : c.GoesOn e where
  path_eq := h'.path_eq.trans h.path_eq
  members_prefix := h.members_prefix.trans h'.members_prefix
  nodup_members hc := h'.nodup_members (h.nodup_members hc)
  frozen hc := by
    obtain ⟨hd, hmembers⟩ := h.frozen hc
    obtain ⟨he, hmembers'⟩ := h'.frozen hd
    exact ⟨he, hmembers'.trans hmembers⟩

theorem withMember_goesOn (h : c.frozen = false) (o : OccurrenceId) :
    c.GoesOn (c.withMember o) where
  path_eq := rfl
  members_prefix := by
    rw [withMember, Activation.insertNew]
    split
    · exact List.prefix_rfl
    · exact List.prefix_append _ _
  nodup_members := Activation.nodup_insertNew
  frozen hfrozen := by
    rw [h] at hfrozen
    cases hfrozen

end Category

namespace Categories

inductive Request where
  | add (path : AccessPath)
  | ensure (path : AccessPath)
  | enroll (id : CategoryId) (o : OccurrenceId)
  | readMembers (id : CategoryId)
  | readSingleton (id : CategoryId) (arity : Nat)
  | promote (id : CategoryId)
  | elect (mayBeStored : Bool)

inductive Reply where
  | named (id : CategoryId)
  | done
  | members (os : List OccurrenceId)
  | singleton (b : Bool)

def Request.reads? : Request → Option CategoryId
  | readMembers id | readSingleton id _ => some id
  | add _ | ensure _ | enroll _ _ | promote _ | elect _ => none

/-- What an operation that can fail leaves behind. -/
def settle (cs : Categories) :
    Except LookupError (Reply × Categories) → Except LookupError Reply × Categories
  | .ok (reply, ds) => (.ok reply, ds)
  | .error e => (.error e, cs)

def perform (cs : Categories) : Request → Except LookupError Reply × Categories
  | .add path => cs.settle ((cs.add path).map fun added => (.named added.1, added.2))
  | .ensure path => (.ok (.named (cs.ensure path).1), (cs.ensure path).2)
  | .enroll id o => cs.settle ((cs.enroll id o).map fun ds => (.done, ds))
  | .readMembers id => cs.settle ((cs.readMembers id).map fun read => (.members read.1, read.2))
  | .readSingleton id arity =>
    cs.settle ((cs.readSingleton id arity).map fun read => (.singleton read.1, read.2))
  | .promote id => cs.settle ((cs.promote id).map fun ds => (.done, ds))
  | .elect mayBeStored =>
    (.ok (.named (cs.electMaster mayBeStored).1), (cs.electMaster mayBeStored).2)

def run (cs : Categories) (rs : List Request) : Categories :=
  rs.foldl (fun cs r => (cs.perform r).2) cs

/-- The category that a request reads, if it is there. -/
def reading? (cs : Categories) (r : Request) : Option CategoryId :=
  r.reads?.filter fun id => (cs.get? id).isSome

/-- At most one category has been added, for a new path. -/
def Grown (cs ds : Categories) : Prop := ds = cs ∨ ∃ path, path ∉ cs.paths ∧ ds = (cs.push path).2

/-- What a request can do, together with the category that it reads. -/
inductive Effect (cs : Categories) : Option CategoryId → Categories → Prop where
  | grow {ds : Categories} : cs.Grown ds → Effect cs none ds
  | enroll {id : CategoryId} {c : Category} (o : OccurrenceId) :
    cs.get? id = some c → c.frozen = false → Effect cs none (cs.modify id fun _ => c.withMember o)
  | freeze (id : CategoryId) : Effect cs (some id) (cs.freeze id)
  | promote {ds : Categories} {id : CategoryId} :
    cs.Grown ds → id.index < ds.paths.length → Effect cs none (ds.moveMaster id)

variable {cs ds : Categories} {id : CategoryId} {c d : Category} {r : Request}

theorem grown_ensure (cs : Categories) (path : AccessPath) : cs.Grown (cs.ensure path).2 := by
  rw [ensure]
  cases hf : cs.find? path with
  | some id => exact Or.inl rfl
  | none => exact Or.inr ⟨path, not_mem_paths_of_find? hf, rfl⟩

theorem reading?_of_reads? (h : r.reads? = some id) :
    cs.reading? r = (cs.get? id).map fun _ => id := by
  rw [reading?, h]
  cases hc : cs.get? id <;> simp [hc]

theorem perform_of_reads? (h : r.reads? = some id) :
    (cs.perform r).2 = if (cs.get? id).isSome then cs.freeze id else cs := by
  cases r with
  | readMembers _ | readSingleton _ _ =>
    cases h
    cases hc : cs.get? id
      <;> simp [perform, readMembers, readSingleton, get, hc, settle, Except.map]
  | add _ | ensure _ | enroll _ _ | promote _ | elect _ => cases h

theorem effect_of_reads? (h : r.reads? = some id) : cs.Effect (cs.reading? r) (cs.perform r).2 := by
  rw [reading?_of_reads? h, perform_of_reads? h]
  cases cs.get? id with
  | none => exact .grow (Or.inl rfl)
  | some c => exact .freeze id

theorem perform_effect (cs : Categories) (r : Request) :
    cs.Effect (cs.reading? r) (cs.perform r).2 := by
  have hsame : cs.Effect none cs := .grow (Or.inl rfl)
  cases r with
  | add path =>
    change cs.Effect none _
    rw [perform, add]
    cases hf : cs.find? path with
    | some id => exact hsame
    | none => exact .grow (Or.inr ⟨path, not_mem_paths_of_find? hf, rfl⟩)
  | ensure path => exact .grow (cs.grown_ensure path)
  | enroll id o =>
    change cs.Effect none _
    rw [perform, enroll, get]
    cases hc : cs.get? id with
    | none => exact hsame
    | some c =>
      cases hfrozen : c.frozen with
      | true =>
        simp only [Category.enroll, hfrozen, if_true]
        exact hsame
      | false =>
        simp only [Category.enroll_eq_ok hfrozen]
        exact .enroll o hc hfrozen
  | readMembers id => exact effect_of_reads? rfl
  | readSingleton id arity => exact effect_of_reads? rfl
  | promote id =>
    change cs.Effect none _
    rw [perform, promote, get]
    cases hc : cs.get? id with
    | none => exact hsame
    | some c =>
      refine .promote (Or.inl rfl) ?_
      rw [paths, List.length_map]
      exact (List.getElem?_eq_some_iff.mp hc).1
  | elect mayBeStored =>
    obtain ⟨_, _, hlt⟩ := cs.nominate_spec mayBeStored
    have hgrown : cs.Grown (cs.nominate mayBeStored).2 := by
      rw [nominate_eq]
      exact cs.grown_ensure _
    exact .promote hgrown hlt

theorem get?_push (cs : Categories) (path : AccessPath) (id : CategoryId) :
    (cs.push path).2.get? id =
      if id.index = cs.paths.length then some { path } else cs.get? id := by
  rw [get?, get?, push, paths, List.length_map]
  rcases Nat.lt_trichotomy id.index cs.list.length with hlt | heq | hgt
  · rw [List.getElem?_append_left hlt, if_neg (Nat.ne_of_lt hlt)]
  · rw [if_pos heq, heq, List.getElem?_concat_length]
  · rw [if_neg (Nat.ne_of_gt hgt), List.getElem?_eq_none (Nat.le_of_lt hgt),
      List.getElem?_eq_none (by simp; omega)]

theorem get?_moveMaster_map (cs : Categories) (id i : CategoryId) : (cs.moveMaster id).get? i =
    (cs.get? i).map fun c =>
      { c with master := decide (i = id) || (c.master && decide (cs.masterId ≠ some i)) } := by
  -- without a former master there is nothing to demote
  obtain ⟨demoted, hmove, hdemoted⟩ : ∃ demoted : Categories,
      (cs.moveMaster id).get? i = (demoted.modify id fun c => { c with master := true }).get? i ∧
      demoted.get? i = (cs.get? i).map fun c =>
        { c with master := c.master && decide (cs.masterId ≠ some i) } := by
    cases hm : cs.masterId with
    | none => exact ⟨cs, by rw [moveMaster, hm]; rfl, by simp⟩
    | some old =>
      refine ⟨cs.modify old fun c => { c with master := false }, by rw [moveMaster, hm]; rfl, ?_⟩
      rw [get?_modify]
      refine Option.map_congr fun c _ => ?_
      by_cases hi : i = old
      · simp [hi]
      · simp [hi, Ne.symm hi]
  rw [hmove, get?_modify, hdemoted, Option.map_map]
  refine Option.map_congr fun c _ => ?_
  by_cases hi : i = id <;> simp [hi]

def GoesOn (cs ds : Categories) : Prop :=
  ∀ id c, cs.get? id = some c → ∃ d, ds.get? id = some d ∧ c.GoesOn d

theorem GoesOn.refl (cs : Categories) : cs.GoesOn cs := fun _ c hc => ⟨c, hc, .refl c⟩

theorem GoesOn.trans {es : Categories} (h : cs.GoesOn ds) (h' : ds.GoesOn es) : cs.GoesOn es := by
  intro id c hc
  obtain ⟨d, hd, hcd⟩ := h id c hc
  obtain ⟨e, he, hde⟩ := h' id d hd
  exact ⟨e, he, hcd.trans hde⟩

theorem goesOn_push (cs : Categories) (path : AccessPath) : cs.GoesOn (cs.push path).2 := by
  intro id c hc
  have hlt := (List.getElem?_eq_some_iff.mp hc).1
  refine ⟨c, ?_, .refl c⟩
  rw [get?_push, if_neg (by simp [paths]; omega), hc]

theorem goesOn_modify {f : Category → Category} (hf : ∀ c, cs.get? id = some c → c.GoesOn (f c)) :
    cs.GoesOn (cs.modify id f) := by
  intro i c hc
  refine ⟨_, by rw [get?_modify, hc, Option.map_some], ?_⟩
  by_cases hi : i = id
  · rw [if_pos hi]
    exact hf c (hi ▸ hc)
  · rw [if_neg hi]
    exact .refl c

theorem goesOn_moveMaster (cs : Categories) (id : CategoryId) : cs.GoesOn (cs.moveMaster id) := by
  intro i c hc
  have hd := cs.get?_moveMaster_map id i
  rw [hc, Option.map_some] at hd
  exact ⟨_, hd, Category.goesOn_of_eq rfl rfl fun h => h⟩

theorem Grown.goesOn (h : cs.Grown ds) : cs.GoesOn ds := by
  rcases h with rfl | ⟨path, _, rfl⟩
  · exact GoesOn.refl _
  · exact goesOn_push cs path

theorem Effect.goesOn {read : Option CategoryId} (h : cs.Effect read ds) : cs.GoesOn ds := by
  cases h with
  | grow hgrown => exact hgrown.goesOn
  | enroll o hc hfrozen =>
    refine goesOn_modify fun d hd => ?_
    cases hc.symm.trans hd
    exact Category.withMember_goesOn hfrozen o
  | freeze id => exact goesOn_modify fun c _ => Category.goesOn_of_eq rfl rfl fun _ => rfl
  | promote hgrown _ => exact hgrown.goesOn.trans (goesOn_moveMaster _ _)

/-- Paths are distinct, members stand in their category once, and the master that is named is in
range and the only category that is marked. -/
structure Orderly (cs : Categories) : Prop where
  nodup_paths : cs.paths.Nodup
  nodup_members : ∀ id c, cs.get? id = some c → c.members.Nodup
  seated : cs.Seated
  master_iff : ∀ id c, cs.get? id = some c → (c.master = true ↔ cs.masterId = some id)

namespace Orderly

variable (h : cs.Orderly)

include h

theorem push {path : AccessPath} (hnew : path ∉ cs.paths) : (cs.push path).2.Orderly where
  nodup_paths := by
    rw [paths_push]
    exact h.nodup_paths.append (List.nodup_singleton _) (by simpa using hnew)
  nodup_members id c hc := by
    rw [get?_push] at hc
    split at hc
    · cases hc
      exact List.nodup_nil
    · exact h.nodup_members id c hc
  seated := h.seated.of_isPrefix rfl (paths_push cs path ▸ List.prefix_append _ _)
  master_iff id c hc := by
    rw [get?_push] at hc
    split at hc
    · rename_i hid
      cases hc
      constructor
      · exact fun htrue => Bool.noConfusion htrue
      · intro hmaster
        have hlt := h.seated id hmaster
        omega
    · exact h.master_iff id c hc

theorem grown (hgrown : cs.Grown ds) : ds.Orderly := by
  rcases hgrown with rfl | ⟨path, hnew, rfl⟩
  · exact h
  · exact h.push hnew

theorem modify {f : Category → Category}
    (hf : ∀ c, cs.get? id = some c → c.GoesOn (f c) ∧ (f c).master = c.master) :
    (cs.modify id f).Orderly := by
  have hpaths : (cs.modify id f).paths = cs.paths :=
    paths_modify cs id f fun c hc => (hf c hc).1.path_eq
  have hget : ∀ i d, (cs.modify id f).get? i = some d →
      ∃ c, cs.get? i = some c ∧ c.GoesOn d ∧ d.master = c.master := by
    intro i d hd
    rw [get?_modify] at hd
    obtain ⟨c, hc, rfl⟩ := Option.map_eq_some_iff.mp hd
    refine ⟨c, hc, ?_⟩
    by_cases hi : i = id
    · rw [if_pos hi]
      exact hf c (hi ▸ hc)
    · rw [if_neg hi]
      exact ⟨.refl c, rfl⟩
  have hseated : (cs.modify id f).Seated := h.seated.of_isPrefix rfl (hpaths ▸ List.prefix_rfl)
  refine ⟨hpaths ▸ h.nodup_paths, fun i d hd => ?_, hseated, fun i d hd => ?_⟩
  · obtain ⟨c, hc, hgoes, _⟩ := hget i d hd
    exact hgoes.nodup_members (h.nodup_members i c hc)
  · obtain ⟨c, hc, _, hmaster⟩ := hget i d hd
    rw [hmaster]
    exact h.master_iff i c hc

theorem moveMaster (hid : id.index < cs.paths.length) : (cs.moveMaster id).Orderly := by
  have hpaths := (cs.moveMaster_spec id).1
  refine ⟨hpaths ▸ h.nodup_paths, fun i d hd => ?_, fun i hi => ?_, fun i d hd => ?_⟩
  · rw [get?_moveMaster_map] at hd
    obtain ⟨c, hc, rfl⟩ := Option.map_eq_some_iff.mp hd
    exact h.nodup_members i c hc
  · cases hi
    rw [hpaths]
    exact hid
  · rw [get?_moveMaster_map] at hd
    obtain ⟨c, hc, rfl⟩ := Option.map_eq_some_iff.mp hd
    have hmaster := h.master_iff i c hc
    change _ ↔ some id = some i
    by_cases hi : i = id
    · simp [hi]
    · simp [hi, Ne.symm hi, hmaster]

theorem effect {read : Option CategoryId} (heffect : cs.Effect read ds) : ds.Orderly := by
  cases heffect with
  | grow hgrown => exact h.grown hgrown
  | enroll o hc hfrozen =>
    refine h.modify fun d hd => ?_
    cases hc.symm.trans hd
    exact ⟨Category.withMember_goesOn hfrozen o, rfl⟩
  | freeze id => exact h.modify fun c _ => ⟨Category.goesOn_of_eq rfl rfl fun _ => rfl, rfl⟩
  | promote hgrown hlt => exact (h.grown hgrown).moveMaster hlt

end Orderly

theorem Effect.frozen_iff {read : Option CategoryId} (h : cs.Effect read ds)
    (hd : ds.get? id = some d) :
    d.frozen = true ↔ (∃ c, cs.get? id = some c ∧ c.frozen = true) ∨ read = some id := by
  -- an election adds a category and then moves the mark, so that the case of growing serves twice
  have hgrown : ∀ {ds d}, cs.Grown ds → ds.get? id = some d →
      (d.frozen = true ↔ (∃ c, cs.get? id = some c ∧ c.frozen = true) ∨ none = some id) := by
    rintro ds d (rfl | ⟨path, _, rfl⟩) hd
    · simp [hd]
    · rw [get?_push] at hd
      split at hd
      · rename_i hid
        cases hd
        have hnone : cs.get? id = none := List.getElem?_eq_none (by simp [hid, paths])
        simp [hnone]
      · simp [hd]
  cases h with
  | grow h => exact hgrown h hd
  | @enroll i c o hc hfrozen =>
    rw [get?_modify] at hd
    obtain ⟨e, he, rfl⟩ := Option.map_eq_some_iff.mp hd
    by_cases hi : id = i
    · subst hi
      cases hc.symm.trans he
      simp [hc, Category.withMember, hfrozen]
    · simp [he, hi]
  | freeze i =>
    rw [Categories.freeze, get?_modify] at hd
    obtain ⟨e, he, rfl⟩ := Option.map_eq_some_iff.mp hd
    by_cases hi : id = i
    · simp [hi]
    · simp [he, hi, Ne.symm hi]
  | promote h _ =>
    rw [get?_moveMaster_map] at hd
    obtain ⟨e, he, rfl⟩ := Option.map_eq_some_iff.mp hd
    exact hgrown (d := e) h he

theorem run_append (cs : Categories) (rs later : List Request) :
    cs.run (rs ++ later) = (cs.run rs).run later :=
  List.foldl_append

theorem run_concat (cs : Categories) (rs : List Request) (r : Request) :
    cs.run (rs ++ [r]) = ((cs.run rs).perform r).2 :=
  cs.run_append rs [r]

theorem run_goesOn (cs : Categories) (rs : List Request) : cs.GoesOn (cs.run rs) := by
  induction rs generalizing cs with
  | nil => exact GoesOn.refl cs
  | cons r rs ih => exact (cs.perform_effect r).goesOn.trans (ih _)

theorem Orderly.run (h : cs.Orderly) (rs : List Request) : (cs.run rs).Orderly := by
  induction rs generalizing cs with
  | nil => exact h
  | cons r rs ih => exact ih (h.effect (cs.perform_effect r))

theorem orderly_empty : empty.Orderly := by
  constructor <;> simp [empty, paths, get?, Seated]

/-- Some request of a run from the start has read the category. -/
def WasRead (rs : List Request) (id : CategoryId) : Prop :=
  ∃ before r after, rs = before ++ r :: after ∧ (empty.run before).reading? r = some id

theorem wasRead_concat {rs : List Request} : WasRead (rs ++ [r]) id ↔
    WasRead rs id ∨ (empty.run rs).reading? r = some id := by
  constructor
  · rintro ⟨before, q, after, hrs, hread⟩
    rcases concat_eq_append_cons_iff.mp hrs with ⟨rfl, rfl, _⟩ | ⟨rest, hrest, _⟩
    · exact Or.inr hread
    · exact Or.inl ⟨before, q, rest, hrest, hread⟩
  · rintro (⟨before, q, after, rfl, hread⟩ | hread)
    · exact ⟨before, q, after ++ [r], by simp, hread⟩
    · exact ⟨rs, r, [], rfl, hread⟩

theorem WasRead.exists_get? {rs : List Request} (h : WasRead rs id) :
    ∃ c, (empty.run rs).get? id = some c := by
  obtain ⟨before, r, after, rfl, hread⟩ := h
  obtain ⟨hid, hsome⟩ := Option.filter_eq_some_iff.mp hread
  obtain ⟨c, hc⟩ := Option.isSome_iff_exists.mp hsome
  obtain ⟨d, hd, _⟩ := (empty.run before).run_goesOn (r :: after) id c hc
  exact ⟨d, by rw [run_append, hd]⟩

/-- The frozen categories are those that have been read. -/
theorem frozen_iff_wasRead (rs : List Request) (hc : (empty.run rs).get? id = some c) :
    c.frozen = true ↔ WasRead rs id := by
  -- from the last request on, since whether a request reads a category depends on those before it
  induction rs using List.reverseRecOn generalizing c with
  | nil => cases hc
  | append_singleton rs r ih =>
    rw [run_concat] at hc
    rw [((empty.run rs).perform_effect r).frozen_iff hc, wasRead_concat]
    refine or_congr ⟨?_, fun hread => ?_⟩ Iff.rfl
    · rintro ⟨b, hb, hfrozen⟩
      exact (ih hb).mp hfrozen
    · obtain ⟨b, hb⟩ := hread.exists_get?
      exact ⟨b, hb, (ih hb).mpr hread⟩

/-- The causes for which a request is refused. -/
def Refuses (cs : Categories) : Request → LookupError → Prop
  | .add path, e => path ∈ cs.paths ∧ e = .duplicateCategory path
  | .enroll id _, e => (cs.get? id = none ∧ e = .unknownCategory id) ∨
    ∃ c, cs.get? id = some c ∧ c.frozen = true ∧ e = .frozen c.path
  | .readMembers id, e | .readSingleton id _, e | .promote id, e =>
    cs.get? id = none ∧ e = .unknownCategory id
  | .ensure _, _ | .elect _, _ => False

theorem perform_error_iff {e : LookupError} : (cs.perform r).1 = .error e ↔ cs.Refuses r e := by
  cases r with
  | add path =>
    cases hf : cs.find? path with
    | none => simp [perform, add, hf, Except.map, settle, Refuses, not_mem_paths_of_find? hf]
    | some id =>
      have hmem := List.mem_of_getElem? (getElem?_paths_of_find? hf)
      simp [perform, add, hf, Except.map, settle, Refuses, hmem, @eq_comm _ _ e]
  | enroll id o =>
    cases hc : cs.get? id with
    | none => simp [perform, enroll, get, hc, Except.map, settle, Refuses, @eq_comm _ _ e]
    | some c =>
      cases hfrozen : c.frozen with
      | true =>
        simp [perform, enroll, get, hc, Category.enroll, hfrozen, Except.map, settle, Refuses,
          @eq_comm _ _ e]
      | false =>
        simp [perform, enroll, get, hc, Category.enroll_eq_ok hfrozen, hfrozen, Except.map,
          settle, Refuses]
  | readMembers id | readSingleton id arity | promote id =>
    cases hc : cs.get? id <;>
      simp [perform, readMembers, readSingleton, promote, get, hc, Except.map, settle, Refuses,
        @eq_comm _ _ e]
  | ensure path | elect mayBeStored => simp [perform, Refuses]

theorem settle_error {result : Except LookupError (Reply × Categories)} {e : LookupError}
    (h : (cs.settle result).1 = .error e) : (cs.settle result).2 = cs := by
  cases result with
  | ok _ => cases h
  | error _ => rfl

theorem perform_error {e : LookupError} (h : (cs.perform r).1 = .error e) :
    (cs.perform r).2 = cs := by
  cases r with
  | ensure _ | elect _ => cases h
  | add _ | enroll _ _ | readMembers _ | readSingleton _ _ | promote _ => exact settle_error h

theorem perform_enroll_frozen_iff (hc : cs.get? id = some c) (o : OccurrenceId) :
    (cs.perform (.enroll id o)).1 = .error (.frozen c.path) ↔ c.frozen = true := by
  rw [perform_error_iff]
  simp [Refuses, hc]

theorem find?_eq_some_iff (h : cs.paths.Nodup) {path : AccessPath} :
    cs.find? path = some id ↔ ∃ c, cs.get? id = some c ∧ c.path = path := by
  constructor
  · exact get?_of_find?
  · rintro ⟨c, hc, rfl⟩
    have hid : cs.paths[id.index]? = some c.path := by rw [getElem?_paths, hc, Option.map_some]
    obtain ⟨i, hi⟩ := find?_of_mem_paths (List.mem_of_getElem? hid)
    rw [hi, eq_of_getElem?_paths h (getElem?_paths_of_find? hi) hid]

/-- Whatever is asked of its categories, a constraint keeps their numbers, paths and members. A
category admits members until it is first read, and a refusal changes nothing. -/
theorem run_empty_orderly (rs : List Request) :
    let cs := empty.run rs
    cs.Orderly ∧
    (∀ path id, cs.find? path = some id ↔ ∃ c, cs.get? id = some c ∧ c.path = path) ∧
    (∀ id c, cs.get? id = some c → ∀ later, ∃ d, (cs.run later).get? id = some d ∧ d.path = c.path ∧
      c.members <+: d.members ∧ (WasRead rs id → d.members = c.members ∧
        ∀ o, ((cs.run later).perform (.enroll id o)).1 = .error (.frozen c.path))) ∧
    (∀ id c o, cs.get? id = some c →
      ((cs.perform (.enroll id o)).1 = .error (.frozen c.path) ↔ WasRead rs id)) ∧
    ∀ r e, ((cs.perform r).1 = .error e ↔ cs.Refuses r e) ∧
      (cs.Refuses r e → (cs.perform r).2 = cs) := by
  intro cs
  have hcs : cs.Orderly := orderly_empty.run rs
  have hrefused : ∀ id c o, cs.get? id = some c →
      ((cs.perform (.enroll id o)).1 = .error (.frozen c.path) ↔ WasRead rs id) := fun id c o hc =>
    (perform_enroll_frozen_iff hc o).trans (frozen_iff_wasRead rs hc)
  refine ⟨hcs, fun path id => find?_eq_some_iff hcs.nodup_paths, fun id c hc later => ?_, hrefused,
    fun r e => ⟨perform_error_iff, fun h => perform_error (perform_error_iff.mpr h)⟩⟩
  obtain ⟨d, hd, hgoes⟩ := cs.run_goesOn later id c hc
  refine ⟨d, hd, hgoes.path_eq, hgoes.members_prefix, fun hread => ?_⟩
  obtain ⟨hfrozen, hmembers⟩ := hgoes.frozen ((frozen_iff_wasRead rs hc).mpr hread)
  exact ⟨hmembers, fun o => hgoes.path_eq ▸ (perform_enroll_frozen_iff hd o).mpr hfrozen⟩

end Categories

end ConstraintRules
