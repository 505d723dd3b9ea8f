import ConstraintRules.Proofs.Ledger
import Mathlib.Data.Finset.Card

/-! Runs of a session. Every reply is the one that the ledger gives, whatever was
asked before. -/

namespace ConstraintRules.Activation

inductive Probe where
  | reachable (x : Node)
  | holds (q : Query)
  | edgeCount

inductive Answer where
  | nodes (xs : List Node)
  | truth (b : Bool)
  | count (n : Nat)

inductive Operation where
  | tell (fact : Fact)
  | assume (c : ConstraintId)
  | release
  | probe (p : Probe)
  /-- Asks several probes while a constraint observes itself. -/
  | assuming (c : ConstraintId) (ps : List Probe)

/-- Asking, under an assumption or not, as opposed to telling and assuming. -/
def Operation.IsQuestion : Operation → Prop
  | probe _ | assuming _ _ => True
  | tell _ | assume _ | release => False

inductive Reply where
  | told (new : Bool)
  | accepted
  | refused (e : AssumptionError)
  | answered (as : List Answer)

namespace Session

def probe (s : Session) : Probe → Answer × Session
  | .reachable x => (.nodes (s.reachable x).1, (s.reachable x).2)
  | .holds q => (.truth (s.ask q).1, (s.ask q).2)
  | .edgeCount => (.count s.edgeCount, s)

def probeAll (s : Session) : List Probe → List Answer × Session
  | [] => ([], s)
  | p :: ps =>
    let (a, s) := s.probe p
    let (as, s) := s.probeAll ps
    (a :: as, s)

def perform (s : Session) : Operation → Reply × Session
  | .tell fact => (.told (s.tell fact).1, (s.tell fact).2)
  | .assume c =>
    match s.assume c with
    | .ok t => (.accepted, t)
    | .error e => (.refused e, s)
  | .release =>
    match s.release with
    | .ok t => (.accepted, t)
    | .error e => (.refused e, s)
  | .probe p => (.answered [(s.probe p).1], (s.probe p).2)
  | .assuming c ps =>
    match s.assuming c fun s => s.probeAll ps with
    | .ok (as, t) => (.answered as, t)
    | .error e => (.refused e, s)

def run (s : Session) : List Operation → List Reply × Session
  | [] => ([], s)
  | op :: ops =>
    let (r, s) := s.perform op
    let (rs, s) := s.run ops
    (r :: rs, s)

end Session

def Node.Precedes (x y : Node) : Prop := x.le y = true ∧ x ≠ y

namespace Ledger

/-- The answer that a ledger gives to a probe. The nodes of a closure are
listed in ascending order. -/
def Answers (l : Ledger) : Probe → Answer → Prop
  | .reachable x, .nodes ys => (∀ y, y ∈ ys ↔ l.Leads x y) ∧ ys.Pairwise Node.Precedes
  | .holds q, .truth b => b = true ↔ l.Holds q
  | .edgeCount, .count n => n = l.edges.toFinset.card
  | _, _ => False

def Replies (l : Ledger) : Operation → Reply → Prop
  | .tell fact, .told new => new = true ↔ l.News fact
  | .assume _, .accepted => l.assumed = none
  | .assume c, .refused e => l.assumed ≠ none ∧ e = .nested c
  | .release, .accepted => l.assumed ≠ none
  | .release, .refused e => l.assumed = none ∧ e = .unpaired
  | .probe p, .answered as => List.Forall₂ l.Answers [p] as
  | .assuming c ps, .answered as =>
    l.assumed = none ∧ List.Forall₂ { l with assumed := some c }.Answers ps as
  | .assuming c _, .refused e => l.assumed ≠ none ∧ e = .nested c
  | _, _ => False

/-- The ledger after an operation. Questions leave no trace in it. -/
def after (l : Ledger) : Operation → Ledger
  | .tell fact => l.tell fact
  | .assume c => { l with assumed := l.assumed <|> some c }
  | .release => { l with assumed := none }
  | .probe _ | .assuming _ _ => l

def afterAll (l : Ledger) (ops : List Operation) : Ledger := ops.foldl after l

/-- The replies of a run, one by one, are those of the ledger at their time. -/
def Explains (l : Ledger) : List Operation → List Reply → Prop
  | [], rs => rs = []
  | _ :: _, [] => False
  | op :: ops, r :: rs => l.Replies op r ∧ (l.after op).Explains ops rs

/-- The same facts, told in whatever order and however often, and the same assumption. -/
def Agrees (l l' : Ledger) : Prop :=
  (∀ fact, fact ∈ l.told ↔ fact ∈ l'.told) ∧ l.assumed = l'.assumed

end Ledger

namespace Node

theorem le_trans {x y z : Node} (hxy : x.le y = true) (hyz : y.le z = true) : x.le z = true := by
  simp only [le, decide_eq_true_eq] at *
  omega

theorem le_total (x y : Node) : (x.le y || y.le x) = true := by
  simp only [le, Bool.or_eq_true, decide_eq_true_eq]
  omega

theorem rank_injective {x y : Node} (h : x.rank = y.rank) : x = y := by
  cases x with
  | constraint c =>
    cases y with
    | constraint d => exact congrArg (fun i => constraint ⟨i⟩) (congrArg Prod.snd h)
    | body _ | trigger | foreign => simp [rank] at h
  | body r =>
    cases y with
    | body r' => exact congrArg (fun i => body ⟨i⟩) (congrArg Prod.snd h)
    | constraint _ | trigger | foreign => simp [rank] at h
  | trigger => cases y <;> simp [rank] at h ⊢
  | foreign => cases y <;> simp [rank] at h ⊢

theorem le_antisymm {x y : Node} (hxy : x.le y = true) (hyx : y.le x = true) : x = y := by
  simp only [le, decide_eq_true_eq] at *
  exact rank_injective (Prod.ext (by omega) (by omega))

end Node

namespace Ledger

variable {l l' : Ledger}

theorem leads_congr (h : l.Agrees l') {x y : Node} : l.Leads x y ↔ l'.Leads x y :=
  ⟨Leads.mono fun fact => (h.1 fact).mp, Leads.mono fun fact => (h.1 fact).mpr⟩

theorem mem_edges_congr (h : l.Agrees l') {e : Node × Node} : e ∈ l.edges ↔ e ∈ l'.edges := by
  simp only [edges, List.mem_flatMap, h.1]

theorem Answers.congr (h : l.Agrees l') {p : Probe} {a : Answer} (ha : l.Answers p a) :
    l'.Answers p a := by
  unfold Answers at ha ⊢
  split at ha
  · exact ⟨fun y => (ha.1 y).trans (leads_congr h), ha.2⟩
  · exact ha.trans (holds_congr h.1 h.2 _)
  · have he : l.edges.toFinset = l'.edges.toFinset := by
      ext e
      simp only [List.mem_toFinset, mem_edges_congr h]
    rw [ha, he]
  · exact ha.elim

theorem Answers.unique {p : Probe} {a b : Answer} (ha : l.Answers p a) (hb : l.Answers p b) :
    a = b := by
  unfold Answers at ha hb
  split at ha
  · rename_i x xs
    cases b with
    | nodes ys =>
      have hxs : xs.Nodup := ha.2.imp fun h => h.2
      have hys : ys.Nodup := hb.2.imp fun h => h.2
      have hperm : xs.Perm ys :=
        (List.perm_ext_iff_of_nodup hxs hys).mpr fun y => (ha.1 y).trans (hb.1 y).symm
      have heq : xs = ys :=
        hperm.eq_of_pairwise (fun _ _ _ _ h h' => Node.le_antisymm h.1 h'.1) ha.2 hb.2
      rw [heq]
    | truth _ => exact hb.elim
    | count _ => exact hb.elim
  · rename_i q t
    cases b with
    | truth u => rw [Bool.eq_iff_iff.mpr (ha.trans hb.symm)]
    | nodes _ => exact hb.elim
    | count _ => exact hb.elim
  · rename_i n
    cases b with
    | count m => rw [ha, show m = _ from hb]
    | nodes _ => exact hb.elim
    | truth _ => exact hb.elim
  · exact ha.elim

end Ledger

namespace Session

variable {s : Session} {l : Ledger}

theorem reachable_pairwise (s : Session) (x : Node) : (s.reachable x).1.Pairwise Node.Precedes := by
  have hle : (s.reachable x).1.Pairwise fun a b => a.le b = true :=
    @List.pairwise_mergeSort _ Node.le (fun _ _ _ => Node.le_trans) Node.le_total _
  have hnodup : (s.reachable x).1.Nodup := by
    refine (List.mergeSort_perm _ _).nodup_iff.mpr ?_
    rw [reach_eq]
    exact Reach.nodup_reach _ x
  exact hle.and hnodup

theorem probe_answers (h : s.facts.Reflects l) (p : Probe) : l.Answers p (s.probe p).1 := by
  cases p with
  | reachable x =>
    refine ⟨fun y => ?_, s.reachable_pairwise x⟩
    have hreach : (s.remember x).reach x = s.facts.reach x := reach_eq _ x
    simp only [reachable, List.mem_mergeSort, hreach, h.mem_reach]
  | holds q =>
    have hask : (s.ask q).1 = s.facts.holds q := holds_eq _ q
    simp only [Ledger.Answers, probe, hask, h.holds_iff]
  | edgeCount =>
    have he : s.facts.edges.toFinset = l.edges.toFinset := by
      ext e
      simp only [List.mem_toFinset, h.mem_edges]
    simp only [Ledger.Answers, probe, edgeCount, ← he, List.toFinset_card_of_nodup h.nodup_edges]

theorem probe_facts (s : Session) (p : Probe) : (s.probe p).2.facts = s.facts := by
  cases p <;> rfl

theorem probeAll_answers (h : s.facts.Reflects l) (ps : List Probe) :
    List.Forall₂ l.Answers ps (s.probeAll ps).1 := by
  induction ps generalizing s with
  | nil => exact .nil
  | cons p ps ih =>
    have hs : (s.probe p).2.facts.Reflects l := by
      rw [probe_facts]
      exact h
    exact .cons (probe_answers h p) (ih hs)

theorem probeAll_facts (s : Session) (ps : List Probe) : (s.probeAll ps).2.facts = s.facts := by
  induction ps generalizing s with
  | nil => rfl
  | cons p ps ih => exact (ih _).trans (s.probe_facts p)

/-- Asking under an assumption gives the assumption up again, so the facts are as before. -/
theorem assuming_probeAll (h : s.facts.assumption = none) (c : ConstraintId) (ps : List Probe) :
    ∃ t : Session, s.assuming c (fun s => s.probeAll ps) =
      .ok (((s.setAssumption (some c)).probeAll ps).1, t) ∧ t.facts = s.facts := by
  have hfacts := probeAll_facts (s.setAssumption (some c)) ps
  have hsome : ((s.setAssumption (some c)).probeAll ps).2.facts.assumption = some c := by
    rw [hfacts]
    rfl
  refine ⟨((s.setAssumption (some c)).probeAll ps).2.setAssumption none, ?_, ?_⟩
  · simp only [assuming, assume, h, release, hsome, bind, Except.bind, pure, Except.pure]
  · change { ((s.setAssumption (some c)).probeAll ps).2.facts with assumption := none } = s.facts
    rw [hfacts, ← h]
    rfl

/-- One operation: the reply is that of the ledger, and the store goes on to reflect it. -/
theorem perform_spec (h : s.facts.Reflects l) (op : Operation) :
    l.Replies op (s.perform op).1 ∧ (s.perform op).2.facts.Reflects (l.after op) := by
  have hassumed := h.assumption_eq
  cases op with
  | tell fact =>
    refine ⟨?_, ?_⟩
    · simp only [Ledger.Replies, perform, s.tell_fst, h.tell_fst]
    · simpa only [perform, s.tell_facts, Ledger.after] using h.tell fact
  | assume c =>
    cases ha : s.facts.assumption with
    | none =>
      rw [ha] at hassumed
      simp only [perform, assume, ha, Ledger.Replies, Ledger.after, ← hassumed]
      exact ⟨trivial, h.assume (some c)⟩
    | some d =>
      rw [ha] at hassumed
      have hl : l.after (.assume c) = l := by
        obtain ⟨told, assumed⟩ := l
        cases hassumed
        rfl
      simp only [perform, assume, ha, Ledger.Replies, hl]
      exact ⟨⟨by simp [← hassumed], trivial⟩, h⟩
  | release =>
    cases ha : s.facts.assumption with
    | none =>
      rw [ha] at hassumed
      have hl : l.after .release = l := by rw [Ledger.after, hassumed]
      simp only [perform, release, ha, Ledger.Replies, hl]
      exact ⟨⟨hassumed.symm, trivial⟩, h⟩
    | some d =>
      rw [ha] at hassumed
      simp only [perform, release, ha, Ledger.Replies, Ledger.after]
      exact ⟨by simp [← hassumed], h.assume none⟩
  | probe p =>
    refine ⟨.cons (probe_answers h p) .nil, ?_⟩
    simpa only [perform, s.probe_facts, Ledger.after] using h
  | assuming c ps =>
    cases ha : s.facts.assumption with
    | none =>
      obtain ⟨t, ht, hfacts⟩ := assuming_probeAll ha c ps
      rw [ha] at hassumed
      simp only [perform, ht, Ledger.Replies, Ledger.after, hfacts]
      exact ⟨⟨hassumed.symm, probeAll_answers (h.assume (some c)) ps⟩, h⟩
    | some d =>
      rw [ha] at hassumed
      have herr : s.assuming c (fun s => s.probeAll ps) = .error (.nested c) := by
        simp only [assuming, assume, ha, bind, Except.bind]
      simp only [perform, herr, Ledger.Replies, Ledger.after]
      exact ⟨⟨by simp [← hassumed], trivial⟩, h⟩

theorem run_explains (h : s.facts.Reflects l) (ops : List Operation) :
    l.Explains ops (s.run ops).1 ∧ (s.run ops).2.facts.Reflects (l.afterAll ops) := by
  induction ops generalizing s l with
  | nil => exact ⟨rfl, h⟩
  | cons op ops ih =>
    obtain ⟨hreply, hafter⟩ := perform_spec h op
    obtain ⟨hrest, hend⟩ := ih hafter
    exact ⟨⟨hreply, hrest⟩, hend⟩

/-- Whatever a session is told, assumes and is asked, each reply is what the facts so far
entail, in whatever order they came. -/
theorem run_empty_entailed (ops : List Operation) :
    Ledger.Explains {} ops (empty.run ops).1 ∧
      ∀ ops' : List Operation, (Ledger.afterAll {} ops).Agrees (Ledger.afterAll {} ops') →
        ∀ p : Probe, ((empty.run ops).2.probe p).1 = ((empty.run ops').2.probe p).1 := by
  obtain ⟨hreplies, hend⟩ := run_explains (s := empty) Facts.Reflects.empty ops
  refine ⟨hreplies, fun ops' hagree p => ?_⟩
  obtain ⟨_, hend'⟩ := run_explains (s := empty) Facts.Reflects.empty ops'
  exact ((probe_answers hend p).congr hagree).unique (probe_answers hend' p)

/-- A closure asked for between two facts is no longer the answer once the second is told, in
whichever order and however often the facts come. -/
theorem run_empty_entailed_reordered :
    let call : Fact := .related .activates (.body ⟨0⟩) (.constraint ⟨1⟩)
    let fire : Fact := .related .activates (.constraint ⟨1⟩) (.body ⟨2⟩)
    let closure : Probe := .reachable (.body ⟨0⟩)
    (Ledger.afterAll {} [.tell call, .probe closure, .tell fire]).Agrees
        (Ledger.afterAll {} [.tell fire, .tell call, .tell fire]) ∧
      ((empty.run [.tell call, .probe closure, .tell fire]).2.probe closure).1 =
        ((empty.run [.tell fire, .tell call, .tell fire]).2.probe closure).1 := by
  intro call fire closure
  have hagree : (Ledger.afterAll {} [.tell call, .probe closure, .tell fire]).Agrees
      (Ledger.afterAll {} [.tell fire, .tell call, .tell fire]) := by
    refine ⟨fun fact => ?_, rfl⟩
    simp only [Ledger.afterAll, Ledger.after, Ledger.tell, List.foldl_cons, List.foldl_nil]
    grind
  exact ⟨hagree, (run_empty_entailed _).2 _ hagree closure⟩

/-- No question is refused, whatever was asked before, and a body sees a constraint if it is
seen under the assumption that the constraint observes itself. -/
def NeverRefuses (s : Session) : Prop :=
  ∀ asked : List Operation, (∀ op ∈ asked, op.IsQuestion) →
    (∀ reply ∈ (s.run asked).1, ∃ answers, reply = .answered answers) ∧
    ∀ (c : ConstraintId) (r : RuleId),
      ((s.run asked).2.perform
      (.assuming c [.holds (.related .observes (.constraint c) (.body r))])).1 =
        .answered [.truth (s.bodySees c r)]

theorem perform_question (h : s.facts.assumption = none) {op : Operation} (hop : op.IsQuestion) :
    (∃ answers, (s.perform op).1 = .answered answers) ∧ (s.perform op).2.facts = s.facts := by
  cases op with
  | probe p => exact ⟨⟨_, rfl⟩, s.probe_facts p⟩
  | assuming c ps =>
    obtain ⟨t, ht, hfacts⟩ := assuming_probeAll h c ps
    simp only [perform, ht]
    exact ⟨⟨_, rfl⟩, hfacts⟩
  | tell _ | assume _ | release => exact hop.elim

theorem run_questions (h : s.facts.assumption = none) {ops : List Operation}
    (hops : ∀ op ∈ ops, op.IsQuestion) :
    (∀ reply ∈ (s.run ops).1, ∃ answers, reply = .answered answers) ∧
      (s.run ops).2.facts = s.facts := by
  induction ops generalizing s with
  | nil => exact ⟨fun _ hreply => (List.not_mem_nil hreply).elim, rfl⟩
  | cons op ops ih =>
    obtain ⟨hanswered, hfacts⟩ := perform_question h (hops op List.mem_cons_self)
    obtain ⟨hrest, hend⟩ :=
      ih (by rw [hfacts, h]) fun op' hop' => hops op' (List.mem_cons_of_mem _ hop')
    refine ⟨fun reply hreply => ?_, hend.trans hfacts⟩
    rcases List.mem_cons.mp hreply with rfl | hreply
    · exact hanswered
    · exact hrest reply hreply

theorem neverRefuses (h : s.facts.assumption = none) : s.NeverRefuses := by
  intro asked hasked
  obtain ⟨hanswered, hfacts⟩ := run_questions h hasked
  refine ⟨hanswered, fun c r => ?_⟩
  obtain ⟨t, ht, _⟩ :=
    assuming_probeAll (hfacts ▸ h) c [.holds (.related .observes (.constraint c) (.body r))]
  have hsees : (((s.run asked).2.setAssumption (some c)).probeAll
      [.holds (.related .observes (.constraint c) (.body r))]).1 = [.truth (s.bodySees c r)] := by
    simp only [probeAll, probe, ask, bodySees, holds_eq, remember, setAssumption, hfacts]
  simp only [perform, ht, hsees]

end Session

end ConstraintRules.Activation
