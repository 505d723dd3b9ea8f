import ConstraintRules.Join.Clique
import Mathlib.Data.Finset.Card

/-! The search for maximal cliques. Candidates and excluded places are those
joined to all of the clique; each branch finds its own completions. -/

namespace ConstraintRules.Clique

variable {adj : Nat → Nat → Bool} {clique candidates excluded todo : List Nat} {v : Nat}
  {s : Finset Nat}

/-- Two or more places that are pairwise adjacent, and to all of which
no other place is adjacent. -/
structure IsMaximal (adj : Nat → Nat → Bool) (s : Finset Nat) : Prop where
  two_le_card : 2 ≤ s.card
  adjacent : ∀ a ∈ s, ∀ b ∈ s, a ≠ b → adj a b = true
  maximal : ∀ c ∉ s, ∃ a ∈ s, adj c a = false

theorem IsMaximal.exists_adjacent (h : IsMaximal adj s) (hv : v ∈ s) : ∃ w ∈ s, adj v w = true := by
  obtain ⟨w, hw, hne⟩ := Finset.exists_mem_ne h.two_le_card v
  exact ⟨w, hw, h.adjacent v hv w hw hne.symm⟩

/-- The sets with a property are listed, each once. -/
structure Lists (found : List (List Nat)) (wanted : Finset Nat → Prop) : Prop where
  nodup : (found.map List.toFinset).Nodup
  mem_iff : ∀ s, s ∈ found.map List.toFinset ↔ wanted s

namespace Lists

variable {found found' : List (List Nat)} {wanted wanted' : Finset Nat → Prop}

theorem congr (h : Lists found wanted) (hiff : ∀ s, wanted s ↔ wanted' s) : Lists found wanted' :=
  ⟨h.nodup, fun s => (h.mem_iff s).trans (hiff s)⟩

theorem nil (h : ∀ s, ¬wanted s) : Lists [] wanted :=
  ⟨List.nodup_nil, fun s => by simp [h s]⟩

theorem append (h : Lists found wanted) (h' : Lists found' wanted')
    (hdisjoint : ∀ s, wanted s → ¬wanted' s) :
    Lists (found ++ found') fun s => wanted s ∨ wanted' s := by
  refine ⟨?_, fun s => ?_⟩
  · rw [List.map_append]
    refine h.nodup.append h'.nodup fun s hs hs' => ?_
    exact hdisjoint s ((h.mem_iff s).mp hs) ((h'.mem_iff s).mp hs')
  · rw [List.map_append, List.mem_append, h.mem_iff, h'.mem_iff]

theorem perm (h : Lists found wanted) (hperm : found'.Perm found) : Lists found' wanted :=
  ⟨(hperm.map _).nodup_iff.mpr h.nodup, fun s => (hperm.map _).mem_iff.trans (h.mem_iff s)⟩

theorem of_map {f : List Nat → List Nat} (h : Lists found wanted)
    (hf : ∀ clique ∈ found, (f clique).toFinset = clique.toFinset) :
    Lists (found.map f) wanted := by
  have hmap : (found.map f).map List.toFinset = found.map List.toFinset := by
    rw [List.map_map]
    exact List.map_congr_left hf
  exact ⟨hmap ▸ h.nodup, fun s => hmap ▸ h.mem_iff s⟩

end Lists

structure Undirected (adj : Nat → Nat → Bool) : Prop where
  symm : ∀ a b, adj a b = adj b a
  irrefl : ∀ a, adj a a = false

/-- The candidates and the excluded places are those that are joined to all of the clique, among
the places that are joined at all. -/
structure Frontier (adj : Nat → Nat → Bool) (clique candidates excluded : List Nat) : Prop where
  nodup_clique : clique.Nodup
  adjacent : ∀ a ∈ clique, ∀ b ∈ clique, a ≠ b → adj a b = true
  nodup_candidates : candidates.Nodup
  mem_iff : ∀ v, v ∈ candidates ∨ v ∈ excluded ↔
    (∃ w, adj v w = true) ∧ ∀ a ∈ clique, adj a v = true

/-- A maximal clique that consists of all of `clique` and of candidates. -/
structure Completes (adj : Nat → Nat → Bool) (clique candidates : List Nat) (s : Finset Nat) :
    Prop where
  isMaximal : IsMaximal adj s
  subset : ∀ a ∈ clique, a ∈ s
  mem : ∀ v ∈ s, v ∈ clique ∨ v ∈ candidates

namespace Frontier

variable (h : Frontier adj clique candidates excluded)

include h

theorem not_mem_clique (hadj : Undirected adj) (hv : v ∈ candidates ∨ v ∈ excluded) :
    v ∉ clique := by
  intro hmem
  have hloop := ((h.mem_iff v).mp hv).2 v hmem
  rw [hadj.irrefl] at hloop
  cases hloop

theorem mem_erase (w : Nat) : w ∈ candidates.erase v ↔ w ≠ v ∧ w ∈ candidates :=
  h.nodup_candidates.mem_erase_iff

theorem take (hadj : Undirected adj) (hv : v ∈ candidates) :
    Frontier adj (v :: clique) ((candidates.erase v).filter (adj v)) (excluded.filter (adj v)) := by
  have hjoined := ((h.mem_iff v).mp (Or.inl hv)).2
  refine ⟨List.nodup_cons.mpr ⟨h.not_mem_clique hadj (Or.inl hv), h.nodup_clique⟩, ?_,
    (h.nodup_candidates.erase v).filter _, fun w => ?_⟩
  · intro a ha b hb hab
    rcases List.mem_cons.mp ha with hav | ha
    · rcases List.mem_cons.mp hb with hbv | hb
      · exact absurd (hav.trans hbv.symm) hab
      · rw [hav, hadj.symm]
        exact hjoined b hb
    · rcases List.mem_cons.mp hb with hbv | hb
      · rw [hbv]
        exact hjoined a ha
      · exact h.adjacent a ha b hb hab
  · have hne : adj v w = true → w ≠ v := by
      rintro hvw rfl
      rw [hadj.irrefl] at hvw
      cases hvw
    have hw := h.mem_iff w
    simp only [List.mem_filter, h.mem_erase, List.forall_mem_cons]
    tauto

theorem exclude (hv : v ∈ candidates) :
    Frontier adj clique (candidates.erase v) (v :: excluded) := by
  refine ⟨h.nodup_clique, h.adjacent, h.nodup_candidates.erase v, fun w => ?_⟩
  rw [← h.mem_iff, h.mem_erase, List.mem_cons]
  by_cases hw : w = v
  · simp [hw, hv]
  · simp [hw]

theorem completes_take_iff (hv : v ∈ candidates) :
    Completes adj (v :: clique) ((candidates.erase v).filter (adj v)) s ↔
      Completes adj clique candidates s ∧ v ∈ s := by
  constructor
  · intro hs
    refine ⟨⟨hs.isMaximal, fun a ha => hs.subset a (List.mem_cons_of_mem _ ha), fun w hw => ?_⟩,
      hs.subset v List.mem_cons_self⟩
    rcases hs.mem w hw with hw | hw
    · rcases List.mem_cons.mp hw with rfl | hw
      · exact Or.inr hv
      · exact Or.inl hw
    · exact Or.inr (List.mem_of_mem_erase (List.mem_of_mem_filter hw))
  · rintro ⟨hs, hvs⟩
    refine ⟨hs.isMaximal, List.forall_mem_cons.mpr ⟨hvs, hs.subset⟩, fun w hw => ?_⟩
    by_cases hwv : w = v
    · exact Or.inl (List.mem_cons.mpr (Or.inl hwv))
    · refine (hs.mem w hw).imp (List.mem_cons_of_mem _) fun hmem => ?_
      exact List.mem_filter.mpr ⟨(h.mem_erase w).mpr ⟨hwv, hmem⟩,
        hs.isMaximal.adjacent v hvs w hw (Ne.symm hwv)⟩

theorem completes_erase_iff (hadj : Undirected adj) (hv : v ∈ candidates) :
    Completes adj clique (candidates.erase v) s ↔ Completes adj clique candidates s ∧ v ∉ s := by
  constructor
  · intro hs
    refine ⟨⟨hs.isMaximal, hs.subset, fun w hw => (hs.mem w hw).imp_right List.mem_of_mem_erase⟩,
      fun hvs => ?_⟩
    rcases hs.mem v hvs with hmem | hmem
    · exact h.not_mem_clique hadj (Or.inl hv) hmem
    · exact ((h.mem_erase v).mp hmem).1 rfl
  · rintro ⟨hs, hvs⟩
    refine ⟨hs.isMaximal, hs.subset, fun w hw => (hs.mem w hw).imp_right fun hmem => ?_⟩
    exact (h.mem_erase w).mpr ⟨fun he => hvs (he ▸ hw), hmem⟩

/-- A maximal clique has a candidate that is not a neighbour of the pivot: otherwise
the pivot would enlarge it. -/
theorem exists_not_adjacent (hadj : Undirected adj) {p : Nat} (hp : p ∈ candidates ∨ p ∈ excluded)
    (hs : Completes adj clique candidates s) : ∃ v ∈ candidates, adj p v = false ∧ v ∈ s := by
  have hclique := ((h.mem_iff p).mp hp).2
  by_cases hps : p ∈ s
  · rcases hs.mem p hps with hmem | hmem
    · exact absurd hmem (h.not_mem_clique hadj hp)
    · exact ⟨p, hmem, hadj.irrefl p, hps⟩
  · obtain ⟨v, hv, hpv⟩ := hs.isMaximal.maximal p hps
    rcases hs.mem v hv with hmem | hmem
    · rw [hadj.symm, hclique v hmem] at hpv
      cases hpv
    · exact ⟨v, hmem, hpv, hv⟩

end Frontier

theorem Frontier.completes_start_iff (h : Frontier adj [] candidates []) :
    Completes adj [] candidates s ↔ IsMaximal adj s := by
  refine ⟨fun hs => hs.isMaximal, fun hs => ⟨hs, by simp, fun v hv => ?_⟩⟩
  obtain ⟨w, _, hvw⟩ := hs.exists_adjacent hv
  exact Or.inr ((or_iff_left List.not_mem_nil).mp ((h.mem_iff v).mpr ⟨⟨w, hvw⟩, by simp⟩))

theorem Frontier.completes_nil_iff (h : Frontier adj clique [] excluded) (hadj : Undirected adj) :
    Completes adj clique [] s ↔ (excluded = [] ∧ 2 ≤ clique.length) ∧ s = clique.toFinset := by
  have hcard := List.toFinset_card_of_nodup h.nodup_clique
  constructor
  · intro hs
    obtain rfl : s = clique.toFinset := by
      ext v
      rw [List.mem_toFinset]
      exact ⟨fun hv => by simpa using hs.mem v hv, hs.subset v⟩
    refine ⟨⟨List.eq_nil_iff_forall_not_mem.mpr fun x hx => ?_, hcard ▸ hs.isMaximal.two_le_card⟩,
      rfl⟩
    -- an excluded place would enlarge the clique
    have hnot := h.not_mem_clique hadj (Or.inr hx)
    obtain ⟨a, ha, hxa⟩ := hs.isMaximal.maximal x (by simpa using hnot)
    rw [hadj.symm, ((h.mem_iff x).mp (Or.inr hx)).2 a (by simpa using ha)] at hxa
    cases hxa
  · rintro ⟨⟨rfl, hlength⟩, rfl⟩
    refine ⟨⟨hcard ▸ hlength, by simpa using h.adjacent, fun c _ => ?_⟩, by simp, by simp⟩
    by_contra hnone
    have hall : ∀ a ∈ clique, adj c a = true := by simpa using hnone
    obtain ⟨a, ha⟩ := List.exists_mem_of_length_pos (Nat.lt_of_lt_of_le Nat.zero_lt_two hlength)
    have hmem := (h.mem_iff c).mpr ⟨⟨a, hall a ha⟩, fun a ha => (hadj.symm a c).trans (hall a ha)⟩
    simp at hmem

theorem foldl_choice_mem (better : Nat → Nat → Prop) [DecidableRel better] (xs : List Nat)
    (first : Nat) :
    xs.foldl (fun best u => if better best u then u else best) first ∈ first :: xs := by
  induction xs generalizing first with
  | nil => simp
  | cons x xs ih =>
    rw [List.foldl_cons]
    by_cases hbetter : better first x
    · rw [if_pos hbetter]
      exact List.mem_cons_of_mem _ (ih x)
    · rw [if_neg hbetter]
      exact List.cons_subset_cons first (List.subset_cons_self x xs) (ih first)

theorem pivot_mem (adj : Nat → Nat → Bool) (excluded : List Nat) (hv : v ∈ candidates) :
    pivot adj candidates excluded v ∈ candidates ∨ pivot adj candidates excluded v ∈ excluded := by
  have hmem :=
    foldl_choice_mem (fun best u => candidates.countP (adj best) < candidates.countP (adj u))
    (candidates ++ excluded) v
  rw [List.mem_cons, List.mem_append] at hmem
  rcases hmem with he | hmem
  · left
    rw [pivot, he]
    exact hv
  · exact hmem

theorem Frontier.extend_nil_lists (h : Frontier adj clique [] excluded) (hadj : Undirected adj) :
    Lists (extend adj clique [] excluded) (Completes adj clique []) := by
  rw [extend]
  by_cases hleaf : excluded = [] ∧ 2 ≤ clique.length
  · rw [if_pos (by simpa using hleaf)]
    refine ⟨List.nodup_singleton _, fun s => ?_⟩
    rw [h.completes_nil_iff hadj, List.map_singleton, List.mem_singleton]
    exact ⟨fun hs => ⟨hleaf, hs⟩, fun hs => hs.2⟩
  · rw [if_neg (by simpa using hleaf)]
    exact Lists.nil fun s hs => hleaf ((h.completes_nil_iff hadj).mp hs).1

/-- The branches over the places that are not neighbours of the pivot leave nothing out. -/
theorem Frontier.extend_cons_lists {c : Nat} {cs : List Nat}
    (h : Frontier adj clique (c :: cs) excluded)
    (hadj : Undirected adj)
    (hbranch : Lists (branch adj clique (c :: cs) excluded
      ((c :: cs).filter fun v => !adj (pivot adj (c :: cs) excluded c) v))
      fun s => Completes adj clique (c :: cs) s ∧
        ∃ v ∈ (c :: cs).filter fun v => !adj (pivot adj (c :: cs) excluded c) v, v ∈ s) :
    Lists (extend adj clique (c :: cs) excluded) (Completes adj clique (c :: cs)) := by
  rw [extend]
  refine hbranch.congr fun s => ⟨fun hs => hs.1, fun hs => ⟨hs, ?_⟩⟩
  obtain ⟨v, hv, hpv, hvs⟩ :=
    h.exists_not_adjacent hadj (pivot_mem adj excluded List.mem_cons_self) hs
  exact ⟨v, List.mem_filter.mpr ⟨hv, by simp [hpv]⟩, hvs⟩

/-- The branch over a place has the cliques with it, and the later branches have those without. -/
theorem Frontier.branch_cons_lists (h : Frontier adj clique candidates excluded)
    (hadj : Undirected adj)
    (hv : v ∈ candidates)
    (htake : Lists
      (extend adj (v :: clique) ((candidates.erase v).filter (adj v)) (excluded.filter (adj v)))
      (Completes adj (v :: clique) ((candidates.erase v).filter (adj v))))
    (hrest : Lists (branch adj clique (candidates.erase v) (v :: excluded) todo)
      fun s => Completes adj clique (candidates.erase v) s ∧ ∃ w ∈ todo, w ∈ s) :
    Lists (branch adj clique candidates excluded (v :: todo))
      fun s => Completes adj clique candidates s ∧ ∃ w ∈ v :: todo, w ∈ s := by
  rw [branch, if_pos hv]
  refine (htake.append hrest fun s hs hs' => ?_).congr fun s => ?_
  · exact ((h.completes_erase_iff hadj hv).mp hs'.1).2 (hs.subset v List.mem_cons_self)
  · rw [h.completes_take_iff hv, h.completes_erase_iff hadj hv, List.exists_mem_cons_iff]
    tauto

theorem extend_lists (hadj : Undirected adj) (h : Frontier adj clique candidates excluded) :
    Lists (extend adj clique candidates excluded) (Completes adj clique candidates) := by
  -- by induction along the calls; a run of branches has those cliques in which a place stands
  -- that is still to be tried
  refine extend.induct adj
    (fun clique candidates excluded => Frontier adj clique candidates excluded →
      Lists (extend adj clique candidates excluded) (Completes adj clique candidates))
    (fun clique candidates excluded todo => Frontier adj clique candidates excluded → todo.Nodup →
      todo ⊆ candidates →
      Lists (branch adj clique candidates excluded todo) fun s =>
        Completes adj clique candidates s ∧ ∃ v ∈ todo, v ∈ s)
    ?_ ?_ ?_ ?_ ?_ ?_ clique candidates excluded h
  · exact fun clique excluded _ h => h.extend_nil_lists hadj
  · exact fun clique excluded _ h => h.extend_nil_lists hadj
  · intro clique excluded c cs p ih h
    exact h.extend_cons_lists hadj (ih h (h.nodup_candidates.filter _) (List.filter_subset_self _))
  · intro clique candidates excluded _ _ _
    rw [branch]
    exact Lists.nil (by simp)
  · intro clique candidates excluded v todo hv ihtake ihrest h hnodup hsub
    obtain ⟨hnot, hnodup⟩ := List.nodup_cons.mp hnodup
    refine h.branch_cons_lists hadj hv (ihtake (h.take hadj hv))
      (ihrest (h.exclude hv) hnodup fun w hw => ?_)
    exact (h.mem_erase w).mpr ⟨fun he => hnot (he ▸ hw), hsub (List.mem_cons_of_mem v hw)⟩
  · intro clique candidates excluded v todo hv _ _ _ hsub
    exact absurd (hsub List.mem_cons_self) hv

end ConstraintRules.Clique
