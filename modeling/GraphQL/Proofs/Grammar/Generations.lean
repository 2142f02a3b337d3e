import GraphQL.Proofs.Grammar.Lending

/-! Generations of the trees of a pool. A tree starts a new one whenever it comes back, and every
tree that is made starts in the first. So the generation of a tree is how often it came back, and a
name that was given on a loan is told by its generation from those that the same tree gives later,
but not from those of other trees. -/
namespace GraphQL

namespace SyntaxTree

variable {tree : SyntaxTree} {id : NodeId}

theorem exists_node_iff : (∃ node, tree.node id = .ok node) ↔ tree.Holds id := by
  refine ⟨?_, Holds.exists_node⟩
  rintro ⟨node, hNode⟩
  obtain ⟨hGeneration, hFound⟩ := node_eq_ok.1 hNode
  exact ⟨hGeneration, (Array.getElem?_eq_some_iff.1 hFound).1⟩

/-- A name of another generation is refused. -/
theorem node_of_generation (h : id.generation ≠ tree.generation) :
    tree.node id = .error (tree.stale id) := by
  unfold node
  split
  · rw [if_neg h]
  · rfl

end SyntaxTree

/-- The tree of a loan, as long as the pool did not take it back. -/
def LoanState.tree? : LoanState → Option Lent
  | .held lent | .reading lent _ | .returning lent _ | .detached lent => some lent
  | .returned _ => none

theorem LoanState.serial?_eq (state : LoanState) : state.serial? = state.tree?.map Lent.serial := by
  cases state <;> rfl

/-- A tree starts no generation as long as its loan goes on. -/
theorem LoanState.Moves.exists_tree {before after : LoanState} (h : before.Moves after)
    (hFit : before.Fit) : ∃ lent other, before.tree? = some lent ∧ after.tree? = some other ∧
      other.serial = lent.serial ∧ other.tree.generation = lent.tree.generation := by
  have hRead (source : Source) {tree : SyntaxTree} (hClear : tree.Clear) :
      (source.parseInto tree).2.generation = tree.generation := by
    have hEmpty : tree.isEmpty = true := by simp [SyntaxTree.isEmpty, hClear.size]
    unfold Source.parseInto
    rw [if_pos hEmpty]
    cases source.outline with
    | error error => rfl
    | ok phrase => exact SyntaxTree.graft_generation tree 0 phrase
  cases h with
  | @read lent source id tree hInto =>
      refine ⟨lent, _, rfl, rfl, rfl, ?_⟩
      have hSame := hRead source hFit
      rwa [hInto] at hSame
  | @unread lent source error tree hInto =>
      refine ⟨lent, _, rfl, rfl, rfl, ?_⟩
      have hSame := hRead source hFit
      rwa [hInto] at hSame
  | @append lent parent id label tree hAppend =>
      refine ⟨lent, _, rfl, rfl, rfl, ?_⟩
      obtain ⟨node, -, hAfter⟩ := except_bind_eq_ok.1 hAppend
      cases hAfter
      rfl
  | @drop lent => exact ⟨lent, lent, rfl, rfl, rfl, rfl⟩
  | @detach lent => exact ⟨lent, lent, rfl, rfl, rfl, rfl⟩

namespace Lending

/-- The trees that somebody has, on loan or for good. -/
def handed (lending : Lending) : List Lent := lending.loans.filterMap LoanState.tree?

/-- All trees that the pool did not drop, the idle ones first. -/
def trees (lending : Lending) : List Lent := lending.idle ++ lending.handed

/-- The serial of the tree that comes back in a step, if one does. -/
def returned? (lending : Lending) : LendingStep → Option Nat
  | .giveBack loan =>
    match lending.loans[loan]? with
    | some (.returning lent _) => some lent.serial
    | _ => none
  | _ => none

/-- The serials of the trees that come back during a run, each as often as it comes back. -/
def returns (lending : Lending) : List LendingStep → List Nat
  | [] => []
  | step :: rest =>
    (lending.returned? step).toList ++
      match lending.perform step with
      | some after => after.returns rest
      | none => []

variable {lending after : Lending} {step : LendingStep} {steps : List LendingStep}

theorem map_serial_trees (lending : Lending) : lending.trees.map Lent.serial = lending.serials := by
  have hLoans (loans : List LoanState) : (loans.filterMap LoanState.tree?).map Lent.serial =
      loans.filterMap LoanState.serial? := by
    rw [List.map_filterMap]
    exact List.filterMap_congr fun state _ => state.serial?_eq.symm
  rw [trees, handed, serials, List.map_append, hLoans]

/-- A tree that comes back is idle then, in its next generation, or dropped. -/
theorem trees_giveBack {loan : Nat} {lent : Lent} {error : Option SyntaxError}
    (hLoan : lending.loans[loan]? = some (.returning lent error)) :
    ∃ others, lending.trees.Perm (lent :: others) ∧
      ((lending.keep lent).become loan (.returned error)).trees =
        if lending.idle.length < lending.limit then
          { lent with tree := lent.tree.reset } :: others
        else others := by
  obtain ⟨earlier, later, hLoans, hSet⟩ := exists_set_eq hLoan
  refine ⟨lending.idle ++ (earlier ++ later).filterMap LoanState.tree?, ?_, ?_⟩
  · rw [trees, handed, hLoans, List.filterMap_append, List.filterMap_append, List.filterMap_cons]
    rw [← List.append_assoc, ← List.append_assoc]
    exact List.perm_middle
  · simp only [trees, handed, become, loans_keep, hSet, List.filterMap_append,
      List.filterMap_cons, LoanState.tree?]
    rw [keep]
    split <;> rfl

/-- A tree that is given back is the one of its loan. -/
theorem returned?_of_loan {loan : Nat} {lent : Lent} {error : Option SyntaxError}
    (hLoan : lending.loans[loan]? = some (.returning lent error)) :
    lending.returned? (.giveBack loan) = some lent.serial := by
  rw [returned?, hLoan]

/-- No tree comes back as long as its loan goes on. -/
theorem returned?_of_moves {loan : Nat} {before state : LoanState}
    (hStep : step.loan? = some loan) (hLoan : lending.loans[loan]? = some before)
    (hMoves : before.Moves state) : lending.returned? step = none := by
  cases step with
  | giveBack own =>
      cases hStep
      rw [returned?, hLoan]
      cases hMoves <;> rfl
  | _ => rfl

theorem returns_cons (h : lending.perform step = some after) (steps : List LendingStep) :
    lending.returns (step :: steps) = (lending.returned? step).toList ++ after.returns steps := by
  rw [returns, h]

/-- A loan that is over at the end of a run had its tree come back in it. -/
theorem mem_returns {loan serial : Nat} {state : LoanState} {error : Option SyntaxError}
    (hRun : lending.run steps = some after) (hState : lending.loans[loan]? = some state)
    (hSerial : state.serial? = some serial) (hOver : after.loans[loan]? = some (.returned error)) :
    serial ∈ lending.returns steps := by
  induction steps generalizing lending state with
  | nil =>
      cases hRun
      cases hState.symm.trans hOver
      cases hSerial
  | cons step rest ih =>
      obtain ⟨middle, hStep, hRest⟩ := Option.bind_eq_some_iff.1 hRun
      rw [returns_cons hStep, List.mem_append]
      by_cases hOwn : step.loan? = some loan
      · cases performs_of_perform hStep with
        | acquire => cases hOwn
        | parse source => cases hOwn
        | @move _ own before new hFor hLoan hMoves =>
            cases hFor.symm.trans hOwn
            cases hState.symm.trans hLoan
            have hNew : (lending.become loan new).loans[loan]? = some new :=
              List.getElem?_set_self (List.getElem?_eq_some_iff.1 hLoan).1
            exact .inr (ih hRest hNew (hMoves.serial?_eq.trans hSerial))
        | @giveBack own lent error hLoan =>
            cases hOwn
            cases hState.symm.trans hLoan
            cases hSerial
            left
            rw [returned?_of_loan hLoan]
            exact List.mem_singleton_self lent.serial
      · exact .inr (ih hRest (loans_of_perform hStep hState hOwn) hSerial)

/-- Whether the generation of each tree is how often it came back, as far as generations reach. -/
structure Dated (lending : Lending) (log : List Nat) : Prop where
  generation : ∀ lent ∈ lending.trees, lent.tree.generation = UInt32.ofNat (log.count lent.serial)
  made : ∀ serial ∈ log, serial < lending.made

theorem dated_new (limit : Nat) : Dated { limit } [] where
  generation _ hLent := nomatch hLent
  made _ hSerial := nomatch hSerial

namespace Dated

variable {log : List Nat} (h : lending.Dated log)
include h

/-- The tree that is lent next never came back if it is new. -/
theorem generation_next :
    lending.next.tree.generation = UInt32.ofNat (log.count lending.next.serial) := by
  rw [next]
  cases hIdle : lending.idle with
  | nil =>
      have hNever : lending.made ∉ log := fun hMade => Nat.lt_irrefl _ (h.made _ hMade)
      simp [List.count_eq_zero_of_not_mem hNever]
  | cons lent rest => exact h.generation lent (by simp [trees, hIdle])

theorem lend {state : LoanState} (hTree : state.tree? = some lending.next) :
    (lending.lend state).Dated log := by
  constructor
  case generation =>
    intro lent hLent
    simp only [trees, handed, Lending.lend, List.filterMap_append, List.mem_append,
      List.filterMap_cons, hTree, List.filterMap_nil, List.mem_singleton] at hLent
    rcases hLent with hIdle | hHanded | rfl
    · exact h.generation lent (List.mem_append_left _ (List.mem_of_mem_tail hIdle))
    · exact h.generation lent (List.mem_append_right _ hHanded)
    · exact h.generation_next
  case made =>
    intro serial hSerial
    have hMade := h.made serial hSerial
    simp only [Lending.lend]
    split <;> omega

theorem become {loan : Nat} {before state : LoanState}
    (hLoan : lending.loans[loan]? = some before) (hMoves : before.Moves state)
    (hFit : before.Fit) : (lending.become loan state).Dated log := by
  obtain ⟨old, new, hOld, hNew, hSerial, hGeneration⟩ := hMoves.exists_tree hFit
  constructor
  case generation =>
    intro lent hLent
    rcases List.mem_append.1 hLent with hIdle | hHanded
    · exact h.generation lent (List.mem_append_left _ hIdle)
    · obtain ⟨other, hOther, hTree⟩ := List.mem_filterMap.1 hHanded
      rcases List.mem_or_eq_of_mem_set hOther with hLoans | rfl
      · exact h.generation lent (List.mem_append_right _ (List.mem_filterMap.2 ⟨_, hLoans, hTree⟩))
      · cases hNew.symm.trans hTree
        have hMem : old ∈ lending.handed :=
          List.mem_filterMap.2 ⟨before, List.mem_of_getElem? hLoan, hOld⟩
        rw [hGeneration, hSerial]
        exact h.generation old (List.mem_append_right _ hMem)
  case made => exact h.made

/-- The tree that comes back starts its next generation, and all others are in theirs still. -/
theorem giveBack (hOrder : lending.InOrder) {loan : Nat} {lent : Lent}
    {error : Option SyntaxError} (hLoan : lending.loans[loan]? = some (.returning lent error)) :
    ((lending.keep lent).become loan (.returned error)).Dated (log ++ [lent.serial]) := by
  obtain ⟨others, hPerm, hTrees⟩ := trees_giveBack hLoan
  have hSerials : lending.serials.Perm (lent.serial :: others.map Lent.serial) :=
    map_serial_trees lending ▸ hPerm.map Lent.serial
  have hApart : lent.serial ∉ others.map Lent.serial :=
    (List.nodup_cons.1 (hSerials.nodup_iff.1 hOrder.once)).1
  have hBack : lent.tree.reset.generation =
      UInt32.ofNat ((log ++ [lent.serial]).count lent.serial) := by
    have hSingle : [lent.serial].count lent.serial = 1 := List.count_singleton_self
    rw [List.count_append, hSingle, UInt32.ofNat_add]
    exact congrArg (· + 1) (h.generation lent (hPerm.mem_iff.2 List.mem_cons_self))
  have hOthers : ∀ other ∈ others, other.tree.generation =
      UInt32.ofNat ((log ++ [lent.serial]).count other.serial) := by
    intro other hOther
    have hNe : lent.serial ≠ other.serial :=
      fun hSame => hApart (hSame ▸ List.mem_map_of_mem hOther)
    have hNone : [lent.serial].count other.serial = 0 :=
      List.count_eq_zero_of_not_mem (by simpa using hNe.symm)
    rw [List.count_append, hNone]
    exact h.generation other (hPerm.mem_iff.2 (List.mem_cons_of_mem _ hOther))
  constructor
  case generation =>
    rw [hTrees]
    split
    · exact List.forall_mem_cons.2 ⟨hBack, hOthers⟩
    · exact hOthers
  case made =>
    have hMade : ((lending.keep lent).become loan (.returned error)).made = lending.made := by
      simp only [Lending.become, keep]
      split <;> rfl
    intro serial hSerial
    rw [hMade]
    rcases List.mem_append.1 hSerial with hOld | hNew
    · exact h.made serial hOld
    · rw [List.mem_singleton.1 hNew]
      exact hOrder.made lent.serial (hSerials.mem_iff.2 List.mem_cons_self)

/-- A step dates the tree that comes back, and no other. -/
theorem perform (hOrder : lending.InOrder) (hStep : lending.perform step = some after) :
    after.Dated (log ++ (lending.returned? step).toList) := by
  cases performs_of_perform hStep with
  | acquire =>
      have hNone : lending.returned? .acquire = none := rfl
      rw [hNone, Option.toList_none, List.append_nil]
      exact h.lend rfl
  | parse source =>
      have hNone : lending.returned? (.parse source) = none := rfl
      rw [hNone, Option.toList_none, List.append_nil]
      exact h.lend rfl
  | move hFor hLoan hMoves =>
      rw [returned?_of_moves hFor hLoan hMoves, Option.toList_none, List.append_nil]
      exact h.become hLoan hMoves (hOrder.fit _ (List.mem_of_getElem? hLoan))
  | giveBack hLoan =>
      rw [returned?_of_loan hLoan]
      exact h.giveBack hOrder hLoan

end Dated

/-- Generations are how often trees came back, by induction over the run. -/
theorem Dated.run {log : List Nat} (h : lending.Dated log) (hOrder : lending.InOrder)
    (hRun : lending.run steps = some after) : after.Dated (log ++ lending.returns steps) := by
  induction steps generalizing lending log with
  | nil =>
      cases hRun
      rwa [returns, List.append_nil]
  | cons step rest ih =>
      obtain ⟨middle, hStep, hRest⟩ := Option.bind_eq_some_iff.1 hRun
      rw [returns_cons hStep, ← List.append_assoc]
      exact ih (h.perform hOrder hStep) (hOrder.perform hStep) hRest

/-- Generations run around once they are used up. -/
theorem generation_eq_iff {first second : Nat} :
    UInt32.ofNat first = UInt32.ofNat second ↔ first % UInt32.size = second % UInt32.size := by
  rw [← UInt32.toNat_inj, UInt32.toNat_ofNat', UInt32.toNat_ofNat']

/-- What a name that was given on a loan of `lent` is for a tree that is had after `lent` came back.
The first log is of the trees that came back until the name was given, and the other of those that
came back since then. -/
structure Survives (id : NodeId) (lent held : Lent) (log since : List Nat) : Prop where
  /-- It stands for a node there if both trees came back equally often, as far as generations
  reach. -/
  found : (∃ node, held.tree.node id = .ok node) ↔ id.index < held.tree.size ∧
    log.count lent.serial % UInt32.size = (log ++ since).count held.serial % UInt32.size
  /-- The tree that gave the name refuses it by its generation until generations run out. -/
  own : held.serial = lent.serial → since.count lent.serial < UInt32.size →
    id.generation ≠ held.tree.generation ∧ held.tree.node id = .error (held.tree.stale id)

/-- A name lives on where a tree came back as often as the one that gave it, and nowhere else. -/
theorem survives_of_run {limit loan other : Nat} {before between past : List LendingStep}
    {issued released later : Lending} {lent held : Lent} {state : LoanState}
    {error : Option SyntaxError} {id : NodeId}
    (hBefore : ({ limit } : Lending).run before = some issued)
    (hLent : issued.loans[loan]? = some (.held lent))
    (hGiven : id.generation = lent.tree.generation)
    (hBetween : issued.run between = some released)
    (hReleased : released.loans[loan]? = some (.returned error))
    (hPast : released.run past = some later)
    (hState : later.loans[other]? = some state) (hHeld : state.tree? = some held) :
    Survives id lent held (({ limit } : Lending).returns before)
      (issued.returns between ++ released.returns past) := by
  have hOrder := (inOrder_new limit).run hBefore
  have hDated := (dated_new limit).run (inOrder_new limit) hBefore
  have hLater := (hDated.run hOrder hBetween).run (hOrder.run hBetween) hPast
  have hSince := mem_returns hBetween hLent rfl hReleased
  rw [List.nil_append, List.append_assoc] at hLater
  rw [List.nil_append] at hDated
  generalize ({ limit } : Lending).returns before = log at hDated hLater
  generalize issued.returns between = first at hLater hSince
  generalize released.returns past = rest at hLater
  have hThen : id.generation = UInt32.ofNat (log.count lent.serial) :=
    hGiven.trans (hDated.generation lent (List.mem_append_right _
      (List.mem_filterMap.2 ⟨_, List.mem_of_getElem? hLent, rfl⟩)))
  have hNow := hLater.generation held (List.mem_append_right _
    (List.mem_filterMap.2 ⟨_, List.mem_of_getElem? hState, hHeld⟩))
  constructor
  case found =>
    rw [SyntaxTree.exists_node_iff, SyntaxTree.Holds, and_comm, hThen, hNow, generation_eq_iff]
  case own =>
    intro hSame hFew
    have hOnce : 0 < (first ++ rest).count lent.serial :=
      List.count_pos_iff.2 (List.mem_append_left _ hSince)
    have hApart : id.generation ≠ held.tree.generation := by
      have hSize : UInt32.size = 4294967296 := rfl
      rw [hThen, hNow, hSame, Ne, generation_eq_iff, List.count_append]
      rw [hSize] at hFew ⊢
      omega
    exact ⟨hApart, SyntaxTree.node_of_generation hApart⟩

/-- A tree comes back and is lent again, next to a new one. -/
theorem survives_of_run_two : ∃ issued released later lent same new,
    ({} : Lending).run [.acquire, .append 0 ⟨0, 0⟩ .field {}] = some issued ∧
    issued.loans[0]? = some (.held lent) ∧ lent.tree.Holds ⟨1, 0⟩ ∧
    issued.run [.drop 0, .giveBack 0] = some released ∧
    released.loans[0]? = some (.returned none) ∧
    released.run [.acquire, .acquire, .append 2 ⟨0, 0⟩ .field {}] = some later ∧
    later.handed = [same, new] ∧
    Survives ⟨1, 0⟩ lent same [] [0] ∧ Survives ⟨1, 0⟩ lent new [] [0] := by
  have hSurvives (other : Nat) := @survives_of_run 64 0 other [.acquire, .append 0 ⟨0, 0⟩ .field {}]
    [.drop 0, .giveBack 0] [.acquire, .acquire, .append 2 ⟨0, 0⟩ .field {}]
  exact ⟨_, _, _, _, _, _, rfl, rfl, ⟨rfl, by decide⟩, rfl, rfl, rfl, rfl,
    hSurvives 1 rfl rfl rfl rfl rfl rfl rfl rfl, hSurvives 2 rfl rfl rfl rfl rfl rfl rfl rfl⟩

/-- A tree that is made after another came back holds nodes under the same names. -/
theorem name_outlives_loan : ¬ ∀ (limit loan other : Nat) (before between past : List LendingStep)
    (issued released later : Lending) (lent held : Lent) (error : Option SyntaxError) (id : NodeId),
    ({ limit } : Lending).run before = some issued → issued.loans[loan]? = some (.held lent) →
    lent.tree.Holds id → issued.run between = some released →
    released.loans[loan]? = some (.returned error) → released.run past = some later →
    released.loans.length ≤ other → later.loans[other]? = some (.held held) →
    held.tree.node id = .error (held.tree.stale id) := by
  intro hRefused
  have hNode := hRefused 0 0 1 [.acquire, .append 0 ⟨0, 0⟩ .field {}] [.drop 0, .giveBack 0]
    [.acquire, .append 1 ⟨0, 0⟩ .field {}] _ _ _ _ _ _ ⟨1, 0⟩ rfl rfl ⟨rfl, by decide⟩ rfl rfl rfl
    (by decide) rfl
  cases hNode

end Lending

end GraphQL
