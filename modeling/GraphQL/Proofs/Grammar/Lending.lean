import GraphQL.Grammar.Lending
import GraphQL.Proofs.Syntax.Reuse

/-! Pools that many draw on. A step moves a tree from one place to another or changes it where it
is, and a tree is in one place at a time: idle, on one loan, or detached for good. Steps of others
in between change nothing for a loan. -/
namespace GraphQL

/-- A place in a list splits it, and a change there leaves both sides. -/
theorem exists_set_eq {α : Type} {xs : List α} {i : Nat} {a : α} (h : xs[i]? = some a) :
    ∃ before after, xs = before ++ a :: after ∧ ∀ b, xs.set i b = before ++ b :: after := by
  obtain ⟨hLt, rfl⟩ := List.getElem?_eq_some_iff.1 h
  refine ⟨xs.take i, xs.drop (i + 1), ?_, fun b => ?_⟩
  · rw [← List.drop_eq_getElem_cons hLt, List.take_append_drop]
  · rw [List.set_eq_take_append_cons_drop, if_pos hLt]

/-- The serial of the tree that a loan is of, as long as the pool did not take it back. -/
def LoanState.serial? : LoanState → Option Nat
  | .held lent | .reading lent _ | .returning lent _ | .detached lent => some lent.serial
  | .returned _ => none

/-- The loan that a step is for, if there is one before the step. -/
def LendingStep.loan? : LendingStep → Option Nat
  | .acquire | .parse _ => none
  | .read loan | .append loan _ _ _ | .drop loan | .giveBack loan | .detach loan => some loan

/-- How a step changes what became of a loan, where the pool has no part in it. -/
inductive LoanState.Moves : LoanState → LoanState → Prop where
  | read {lent : Lent} {source : Source} {id : NodeId} {tree : SyntaxTree}
      (hRead : source.parseInto lent.tree = (.ok id, tree)) :
      Moves (.reading lent source) (.held { lent with tree })
  | unread {lent : Lent} {source : Source} {error : SyntaxError} {tree : SyntaxTree}
      (hRead : source.parseInto lent.tree = (.error error, tree)) :
      Moves (.reading lent source) (.returning { lent with tree } error)
  | append {lent : Lent} {parent id : NodeId} {label : Label} {tree : SyntaxTree}
      (hAppend : lent.tree.append parent label = .ok (id, tree)) :
      Moves (.held lent) (.held { lent with tree })
  | drop {lent : Lent} : Moves (.held lent) (.returning lent none)
  | detach {lent : Lent} : Moves (.held lent) (.detached lent)

namespace Lending

/-- All that a step can do. -/
inductive Performs (lending : Lending) : LendingStep → Lending → Prop where
  | acquire : Performs lending .acquire (lending.lend (.held lending.next))
  | parse (source : Source) :
      Performs lending (.parse source) (lending.lend (.reading lending.next source))
  | move {step : LendingStep} {loan : Nat} {before after : LoanState}
      (hStep : step.loan? = some loan) (hLoan : lending.loans[loan]? = some before)
      (hMoves : before.Moves after) : Performs lending step (lending.become loan after)
  | giveBack {loan : Nat} {lent : Lent} {error : Option SyntaxError}
      (hLoan : lending.loans[loan]? = some (.returning lent error)) :
      Performs lending (.giveBack loan) ((lending.keep lent).become loan (.returned error))

/-- What a step did, by its kind. -/
theorem performs_of_perform {lending after : Lending} {step : LendingStep}
    (h : lending.perform step = some after) : lending.Performs step after := by
  cases step with
  | acquire =>
      cases h
      exact .acquire
  | parse source =>
      cases h
      exact .parse source
  | read loan =>
      simp only [perform] at h
      split at h
      · next lent source hLoan =>
          split at h
          · next id tree hRead =>
              cases h
              exact .move rfl hLoan (.read hRead)
          · next error tree hRead =>
              cases h
              exact .move rfl hLoan (.unread hRead)
      · cases h
  | append loan parent type location =>
      simp only [perform] at h
      split at h
      · next lent hLoan =>
          obtain ⟨⟨id, tree⟩, hAppend, hAfter⟩ := Option.bind_eq_some_iff.1 h
          cases hAfter
          exact .move rfl hLoan (.append (except_toOption_eq_some.1 hAppend))
      · cases h
  | drop loan =>
      simp only [perform] at h
      split at h
      · next lent hLoan =>
          cases h
          exact .move rfl hLoan .drop
      · cases h
  | giveBack loan =>
      simp only [perform] at h
      split at h
      · next lent error hLoan =>
          cases h
          exact .giveBack hLoan
      · cases h
  | detach loan =>
      simp only [perform] at h
      split at h
      · next lent hLoan =>
          cases h
          exact .move rfl hLoan .detach
      · cases h

/-- The serials of all trees that the pool did not drop, those of idle trees first. -/
def serials (lending : Lending) : List Nat :=
  lending.idle.map Lent.serial ++ lending.loans.filterMap LoanState.serial?

variable {lending : Lending}

/-- A loan is of an idle tree if there is one, and else of one that is made for it. -/
theorem serials_lend {state : LoanState} (h : state.serial? = some lending.next.serial) :
    (lending.lend state).serials.Perm
      (if lending.idle.isEmpty then lending.made :: lending.serials else lending.serials) := by
  have hAll : (lending.lend state).serials = lending.idle.tail.map Lent.serial ++
      lending.loans.filterMap LoanState.serial? ++ [lending.next.serial] := by
    simp [serials, lend, List.filterMap_append, h]
  rw [hAll, serials, next]
  apply (List.perm_append_singleton _ _).trans
  cases lending.idle with
  | nil => exact .refl _
  | cons lent rest => exact .refl _

/-- What becomes of a loan moves no tree to another place. -/
theorem serials_become {loan : Nat} {before after : LoanState}
    (hLoan : lending.loans[loan]? = some before) (hSerial : after.serial? = before.serial?) :
    (lending.become loan after).serials = lending.serials := by
  obtain ⟨earlier, later, hLoans, hSet⟩ := exists_set_eq hLoan
  simp only [serials, become, hSet]
  rw [hLoans, List.filterMap_append, List.filterMap_append, List.filterMap_cons,
    List.filterMap_cons, hSerial]

/-- A tree that comes back is idle then, or dropped. -/
theorem serials_giveBack {loan : Nat} {lent : Lent} {error : Option SyntaxError}
    (hLoan : lending.loans[loan]? = some (.returning lent error)) :
    ∃ others, lending.serials.Perm (lent.serial :: others) ∧
      ((lending.keep lent).become loan (.returned error)).serials =
        if lending.idle.length < lending.limit then lent.serial :: others else others := by
  obtain ⟨earlier, later, hLoans, hSet⟩ := exists_set_eq hLoan
  refine ⟨lending.idle.map Lent.serial ++ (earlier ++ later).filterMap LoanState.serial?, ?_, ?_⟩
  · rw [serials, hLoans, List.filterMap_append, List.filterMap_append, List.filterMap_cons]
    rw [← List.append_assoc, ← List.append_assoc]
    exact List.perm_middle
  · have hKept : (lending.keep lent).loans = lending.loans := by
      rw [keep]
      split <;> rfl
    simp only [serials, become, hKept, hSet, List.filterMap_append, List.filterMap_cons,
      LoanState.serial?]
    rw [keep]
    split <;> rfl

end Lending

/-- Whether the tree of a loan is as it should be: as good as new while nothing was read into it. -/
def LoanState.Fit : LoanState → Prop
  | .held lent | .returning lent _ => lent.tree.Rooted
  | .reading lent _ => lent.tree.Clear
  | .returned _ | .detached _ => True

/-- Where the pool has no part a loan keeps its tree. -/
theorem LoanState.Moves.serial?_eq {before after : LoanState} (h : before.Moves after) :
    after.serial? = before.serial? := by
  cases h <;> rfl

theorem LoanState.Moves.fit {before after : LoanState} (h : before.Moves after)
    (hFit : before.Fit) : after.Fit := by
  cases h with
  | @read lent source id tree hRead =>
      have hRooted := SyntaxTree.Rooted.parseInto hFit.rooted source
      rwa [hRead] at hRooted
  | @unread lent source error tree hRead =>
      have hRooted := SyntaxTree.Rooted.parseInto hFit.rooted source
      rwa [hRead] at hRooted
  | append hAppend => exact SyntaxTree.Rooted.append hFit hAppend
  | drop => exact hFit
  | detach => trivial

namespace Lending

/-- Whether a pool and its loans are in order: each tree is in one place only, and those that are
idle hold nothing. -/
structure InOrder (lending : Lending) : Prop where
  retained : lending.idle.length ≤ lending.limit
  once : lending.serials.Nodup
  made : ∀ serial ∈ lending.serials, serial < lending.made
  clear : ∀ lent ∈ lending.idle, lent.tree.Clear
  fit : ∀ state ∈ lending.loans, state.Fit

variable {lending after : Lending}

theorem inOrder_new (limit : Nat) : InOrder { limit } where
  retained := Nat.zero_le _
  once := .nil
  made _ hSerial := nomatch hSerial
  clear _ hLent := nomatch hLent
  fit _ hState := nomatch hState

namespace InOrder

variable (h : lending.InOrder)
include h

/-- The tree that is lent next holds nothing. -/
theorem clear_next : lending.next.tree.Clear := by
  rw [next]
  cases hIdle : lending.idle with
  | nil => exact SyntaxTree.clear_new
  | cons lent rest => exact h.clear lent (hIdle ▸ List.mem_cons_self)

theorem lend {state : LoanState} (hSerial : state.serial? = some lending.next.serial)
    (hFit : state.Fit) : (lending.lend state).InOrder := by
  have hPerm := serials_lend hSerial
  constructor
  case retained =>
    have hRetained := h.retained
    simp only [Lending.lend, List.length_tail]
    omega
  case once =>
    rw [hPerm.nodup_iff]
    split
    · exact List.nodup_cons.2 ⟨fun hMade => Nat.lt_irrefl _ (h.made _ hMade), h.once⟩
    · exact h.once
  case made =>
    intro serial hOld
    rw [hPerm.mem_iff] at hOld
    simp only [Lending.lend]
    split
    · next hEmpty =>
        rw [if_pos hEmpty] at hOld
        rcases List.mem_cons.1 hOld with rfl | hOld
        · exact Nat.lt_succ_self _
        · exact Nat.lt_succ_of_lt (h.made serial hOld)
    · next hSome =>
        rw [if_neg hSome] at hOld
        exact h.made serial hOld
  case clear => exact fun lent hLent => h.clear lent (List.mem_of_mem_tail hLent)
  case fit =>
    intro other hOther
    rcases List.mem_append.1 hOther with hOld | hNew
    · exact h.fit other hOld
    · exact List.mem_singleton.1 hNew ▸ hFit

/-- What becomes of a loan keeps the pool in order, as long as its tree stays with it. -/
theorem become {loan : Nat} {before state : LoanState}
    (hLoan : lending.loans[loan]? = some before) (hSerial : state.serial? = before.serial?)
    (hFit : state.Fit) : (lending.become loan state).InOrder := by
  have hSame := serials_become hLoan hSerial
  constructor
  case retained => exact h.retained
  case once => exact hSame ▸ h.once
  case made => exact hSame ▸ h.made
  case clear => exact h.clear
  case fit =>
    intro other hOther
    rcases List.mem_or_eq_of_mem_set hOther with hOld | rfl
    · exact h.fit other hOld
    · exact hFit

/-- A tree that comes back is cleared, so the pool stays in order. -/
theorem giveBack {loan : Nat} {lent : Lent} {error : Option SyntaxError}
    (hLoan : lending.loans[loan]? = some (.returning lent error)) :
    ((lending.keep lent).become loan (.returned error)).InOrder := by
  obtain ⟨others, hPerm, hSerials⟩ := serials_giveBack hLoan
  have hOnce := hPerm.nodup_iff.1 h.once
  have hMade : ∀ serial ∈ lent.serial :: others, serial < lending.made :=
    fun serial hSerial => h.made serial (hPerm.mem_iff.2 hSerial)
  have hRooted : lent.tree.Rooted := h.fit _ (List.mem_of_getElem? hLoan)
  have hKept : (lending.keep lent).made = lending.made ∧
      (lending.keep lent).loans = lending.loans := by
    rw [keep]
    split <;> exact ⟨rfl, rfl⟩
  constructor
  case retained =>
    have hRetained := h.retained
    simp only [Lending.become, keep]
    split
    · next hRoom => exact hRoom
    · exact hRetained
  case once =>
    rw [hSerials]
    split
    · exact hOnce
    · exact hOnce.of_cons
  case made =>
    rw [hSerials]
    simp only [Lending.become, hKept.1]
    split
    · exact hMade
    · exact fun serial hSerial => hMade serial (List.mem_cons_of_mem _ hSerial)
  case clear =>
    intro other hOther
    simp only [Lending.become, keep] at hOther
    split at hOther
    · rcases List.mem_cons.1 hOther with rfl | hOld
      · exact SyntaxTree.clear_reset hRooted.nonempty
      · exact h.clear other hOld
    · exact h.clear other hOther
  case fit =>
    intro other hOther
    simp only [Lending.become, hKept.2] at hOther
    rcases List.mem_or_eq_of_mem_set hOther with hOld | rfl
    · exact h.fit other hOld
    · trivial

/-- Every step keeps the pool in order. -/
theorem perform {step : LendingStep} (hStep : lending.perform step = some after) :
    after.InOrder := by
  cases performs_of_perform hStep with
  | acquire => exact h.lend rfl h.clear_next.rooted
  | parse source => exact h.lend rfl h.clear_next
  | move _ hLoan hMoves =>
      exact h.become hLoan hMoves.serial?_eq (hMoves.fit (h.fit _ (List.mem_of_getElem? hLoan)))
  | giveBack hLoan => exact h.giveBack hLoan

end InOrder

/-- A pool stays in order over a run, by induction on its steps. -/
theorem InOrder.run (h : lending.InOrder) {steps : List LendingStep}
    (hRun : lending.run steps = some after) : after.InOrder := by
  induction steps generalizing lending with
  | nil =>
      cases hRun
      exact h
  | cons step rest ih =>
      obtain ⟨middle, hStep, hRest⟩ := Option.bind_eq_some_iff.1 hRun
      exact ih (h.perform hStep) hRest

theorem loans_keep (lending : Lending) (lent : Lent) :
    (lending.keep lent).loans = lending.loans := by
  rw [keep]
  split <;> rfl

/-- A loan is left alone by all steps but those for itself. -/
theorem loans_of_perform {step : LendingStep} (hStep : lending.perform step = some after)
    {loan : Nat} {state : LoanState} (hState : lending.loans[loan]? = some state)
    (hOther : step.loan? ≠ some loan) : after.loans[loan]? = some state := by
  have hLt := (List.getElem?_eq_some_iff.1 hState).1
  cases performs_of_perform hStep with
  | acquire => exact (List.getElem?_append_left hLt).trans hState
  | parse source => exact (List.getElem?_append_left hLt).trans hState
  | @move _ own before new hOwn hLoan hMoves =>
      have hNe : own ≠ loan := fun hSame => hOther (hSame ▸ hOwn)
      exact (List.getElem?_set_ne hNe).trans hState
  | @giveBack own lent error hLoan =>
      have hNe : own ≠ loan := fun hSame => hOther (hSame ▸ rfl)
      rw [become, loans_keep]
      exact (List.getElem?_set_ne hNe).trans hState

/-- A loan whose tree was detached stays so. -/
theorem detached_of_perform {step : LendingStep} (hStep : lending.perform step = some after)
    {loan : Nat} {lent : Lent} (hState : lending.loans[loan]? = some (.detached lent)) :
    after.loans[loan]? = some (.detached lent) := by
  by_cases hOwn : step.loan? = some loan
  · cases performs_of_perform hStep with
    | acquire => cases hOwn
    | parse source => cases hOwn
    | move hFor hLoan hMoves =>
        cases hFor.symm.trans hOwn
        cases hState.symm.trans hLoan
        cases hMoves
    | giveBack hLoan =>
        cases hOwn
        cases hState.symm.trans hLoan
  · exact loans_of_perform hStep hState hOwn

/-- A tree that was taken out of the pool stays out, whatever others do. -/
theorem detached_of_run {steps : List LendingStep} (hRun : lending.run steps = some after)
    {loan : Nat} {lent : Lent} (hState : lending.loans[loan]? = some (.detached lent)) :
    after.loans[loan]? = some (.detached lent) := by
  induction steps generalizing lending with
  | nil =>
      cases hRun
      exact hState
  | cons step rest ih =>
      obtain ⟨middle, hStep, hRest⟩ := Option.bind_eq_some_iff.1 hRun
      exact ih hRest (detached_of_perform hStep hState)

theorem limit_of_run {steps : List LendingStep} (hRun : lending.run steps = some after) :
    after.limit = lending.limit := by
  induction steps generalizing lending with
  | nil =>
      cases hRun
      rfl
  | cons step rest ih =>
      obtain ⟨middle, hStep, hRest⟩ := Option.bind_eq_some_iff.1 hRun
      rw [ih hRest]
      cases performs_of_perform hStep with
      | acquire => rfl
      | parse source => rfl
      | move _ _ _ => rfl
      | giveBack hLoan =>
          simp only [become, keep]
          split <;> rfl

/-- The trees on loan are among those of the loans. -/
theorem sublist_serials (loans : List LoanState) :
    ((loans.filterMap LoanState.lent?).map Lent.serial).Sublist
      (loans.filterMap LoanState.serial?) := by
  induction loans with
  | nil => exact .refl _
  | cons state rest ih =>
      cases state with
      | held lent => exact ih.cons_cons lent.serial
      | reading lent source => exact ih.cons_cons lent.serial
      | returning lent error => exact ih.cons_cons lent.serial
      | returned error => exact ih
      | detached lent => exact ih.cons lent.serial

/-- A tree is not idle or on loan once it is detached. -/
theorem InOrder.not_mem_of_detached (h : lending.InOrder) {loan : Nat} {lent : Lent}
    (hState : lending.loans[loan]? = some (.detached lent)) :
    lent.serial ∉ (lending.idle ++ lending.loaned).map Lent.serial := by
  obtain ⟨earlier, later, hLoans, -⟩ := exists_set_eq hState
  have hOnce := h.once
  rw [serials, hLoans, List.filterMap_append, List.filterMap_cons, ← List.append_assoc] at hOnce
  have hGone := (List.nodup_cons.1 (List.perm_middle.nodup_iff.1 hOnce)).1
  rw [loaned, hLoans, List.map_append, List.filterMap_append, List.map_append,
    List.filterMap_cons]
  intro hMem
  apply hGone
  rcases List.mem_append.1 hMem with hIdle | hLoaned
  · exact List.mem_append_left _ (List.mem_append_left _ hIdle)
  · rcases List.mem_append.1 hLoaned with hEarlier | hLater
    · exact List.mem_append_left _
        (List.mem_append_right _ ((sublist_serials earlier).subset hEarlier))
    · exact List.mem_append_right _ ((sublist_serials later).subset hLater)

/-- Lending is what the pool does when it is asked for a tree. -/
theorem pool_lend (lending : Lending) (state : LoanState) :
    lending.pool.acquire = (lending.next.tree, (lending.lend state).pool) := by
  cases hIdle : lending.idle <;>
    simp [pool, TreePool.acquire, next, lend, hIdle]

/-- Taking a tree back is what the pool does when one is released. -/
theorem pool_keep (lending : Lending) (lent : Lent) :
    (lending.keep lent).pool = lending.pool.release lent.tree := by
  simp only [keep, pool, TreePool.release, List.length_map]
  split <;> rfl

/-- What reading a text does on a loan. What is read is what a new tree gets. -/
def Reads (lending : Lending) (loan : Nat) (lent : Lent) (source : Source) : Prop :=
  match source.parse with
  | .ok fresh => ∃ id tree, source.parseInto lent.tree = (.ok id, tree) ∧
    lending.perform (.read loan) = some (lending.become loan (.held { lent with tree })) ∧
    tree.SameBelow fresh
  | .error error => ∃ tree, source.parseInto lent.tree = (.error error, tree) ∧
    lending.perform (.read loan) =
      some (lending.become loan (.returning { lent with tree } error))

/-- What a call that reads a text into a tree of the pool does if nobody else acts meanwhile. One
that fails gives its tree back, which leaves as many idle trees as there were, and one at least if
any is kept. -/
def Calls (lending : Lending) (source : Source) : Prop :=
  match source.parse with
  | .ok fresh => ∃ tree after,
    lending.run [.parse source, .read lending.loans.length] = some after ∧
    after.loans = lending.loans ++ [.held ⟨lending.next.serial, tree⟩] ∧
    lending.pool.parse source = (.ok tree, after.pool) ∧ tree.SameBelow fresh
  | .error error => ∃ after,
    lending.run [.parse source, .read lending.loans.length, .giveBack lending.loans.length] =
      some after ∧
    after.loans = lending.loans ++ [.returned error] ∧
    lending.pool.parse source = (.error error, after.pool) ∧
    after.pool.retained = max lending.pool.retained (min 1 lending.limit)

/-- Whoever reads into a tree of a pool in order gets what a new tree gets. -/
theorem InOrder.reads (h : lending.InOrder) {loan : Nat} {lent : Lent} {source : Source}
    (hLoan : lending.loans[loan]? = some (.reading lent source)) :
    lending.Reads loan lent source := by
  have hClear : lent.tree.Clear := h.fit _ (List.mem_of_getElem? hLoan)
  have hAfresh := hClear.rooted.readsAfresh source
  rw [SyntaxTree.ReadsAfresh] at hAfresh
  rw [Reads]
  cases hParse : source.parse with
  | ok fresh =>
      rw [hParse] at hAfresh
      obtain ⟨id, tree, -, hInto, -, hSame⟩ := hAfresh
      refine ⟨id, tree, hInto, ?_, hSame⟩
      simp only [Lending.perform, hLoan, hInto]
  | error error =>
      rw [hParse] at hAfresh
      obtain ⟨tree, -, hInto, -⟩ := hAfresh
      refine ⟨tree, hInto, ?_⟩
      simp only [Lending.perform, hLoan, hInto]

theorem getElem?_loans_lend (lending : Lending) (state : LoanState) :
    (lending.lend state).loans[lending.loans.length]? = some state := by
  simp [lend]

theorem become_lend (lending : Lending) (state other : LoanState) :
    (lending.lend state).become lending.loans.length other = lending.lend other := by
  simp [lend, become]

/-- A tree that is lent and comes back before any other leaves one tree at least, if any is kept. -/
theorem InOrder.length_idle (h : lending.InOrder) (state : LoanState) (lent : Lent) :
    ((lending.lend state).keep lent).idle.length =
      max lending.idle.length (min 1 lending.limit) := by
  have hRetained := h.retained
  have hLength : (lending.lend state).idle.length = lending.idle.length - 1 := List.length_tail
  have hLimit : (lending.lend state).limit = lending.limit := rfl
  rw [keep]
  split
  · rw [List.length_cons]
    omega
  · omega

theorem run_cons {step : LendingStep} {rest : List LendingStep}
    (h : lending.perform step = some after) : lending.run (step :: rest) = after.run rest := by
  rw [run, h]
  rfl

/-- A call that nobody comes between does what the pool says of it. -/
theorem InOrder.calls (h : lending.InOrder) (source : Source) : lending.Calls source := by
  have hSerial : (LoanState.reading lending.next source).serial? = some lending.next.serial := rfl
  have hReads := (h.lend hSerial h.clear_next).reads (lending.getElem?_loans_lend _)
  simp only [Reads, become_lend] at hReads
  rw [Calls]
  cases hParse : source.parse with
  | ok fresh =>
      rw [hParse] at hReads
      obtain ⟨id, tree, hInto, hRead, hSame⟩ := hReads
      refine ⟨tree, _, (run_cons rfl).trans (run_cons hRead), rfl, ?_, hSame⟩
      rw [TreePool.parse, lending.pool_lend (.held ⟨lending.next.serial, tree⟩)]
      simp only [hInto]
  | error error =>
      rw [hParse] at hReads
      obtain ⟨tree, hInto, hRead⟩ := hReads
      let failed := lending.lend (.returning { lending.next with tree } error)
      have hBack : failed.perform (.giveBack lending.loans.length) =
          some ((failed.keep { lending.next with tree }).become lending.loans.length
            (.returned error)) := by
        simp only [Lending.perform, failed, getElem?_loans_lend]
      refine ⟨_, (run_cons rfl).trans ((run_cons hRead).trans (run_cons hBack)), ?_, ?_, ?_⟩
      · rw [Lending.become, loans_keep]
        exact congrArg Lending.loans (lending.become_lend _ (.returned error))
      · rw [TreePool.parse, lending.pool_lend (.returning { lending.next with tree } error)]
        simp only [hInto]
        exact congrArg (Prod.mk _) (failed.pool_keep { lending.next with tree }).symm
      · rw [TreePool.retained, pool, List.length_map, TreePool.retained, pool, List.length_map]
        exact h.length_idle _ _

/-- How a pool and those who draw on it stand at any time. -/
structure Accounted (lending : Lending) : Prop where
  retained : lending.pool.retained ≤ lending.limit
  /-- No tree is on two loans, or on loan and idle. -/
  once : ((lending.idle ++ lending.loaned).map Lent.serial).Nodup
  idle : ∀ lent ∈ lending.idle, lent.tree.Clear
  acquired : lending.pool.acquire.1.Clear
  /-- A step for one loan changes no other. -/
  apart : ∀ step after, lending.perform step = some after → ∀ (loan : Nat) (state : LoanState),
    lending.loans[loan]? = some state → step.loan? ≠ some loan → after.loans[loan]? = some state
  /-- A tree that was detached is never idle or on loan again. -/
  gone : ∀ steps after, lending.run steps = some after → ∀ (loan : Nat) (lent : Lent),
    lending.loans[loan]? = some (.detached lent) →
      lent.serial ∉ (after.idle ++ after.loaned).map Lent.serial
  /-- Others may have taken any steps since the tree was acquired. -/
  reads : ∀ (loan : Nat) (lent : Lent) (source : Source),
    lending.loans[loan]? = some (.reading lent source) → lending.Reads loan lent source
  calls : ∀ source : Source, lending.Calls source

/-- Whatever steps the holders take, in any order, the pool stays in order and keeps them apart. -/
theorem accounted_of_run {limit : Nat} {steps : List LendingStep}
    (h : ({ limit } : Lending).run steps = some lending) :
    lending.limit = limit ∧ lending.Accounted := by
  have hOrder := (inOrder_new limit).run h
  refine ⟨limit_of_run h, ?_⟩
  constructor
  case retained =>
    rw [TreePool.retained, pool, List.length_map]
    exact hOrder.retained
  case once =>
    rw [List.map_append]
    exact hOrder.once.sublist ((List.Sublist.refl _).append (sublist_serials lending.loans))
  case idle => exact hOrder.clear
  case acquired =>
    rw [lending.pool_lend (.held lending.next)]
    exact hOrder.clear_next
  case apart => exact fun step after hStep loan state => loans_of_perform hStep
  case gone =>
    intro steps after hRun loan lent hDetached
    exact (hOrder.run hRun).not_mem_of_detached (detached_of_run hRun hDetached)
  case reads => exact fun loan lent source => hOrder.reads
  case calls => exact hOrder.calls

/-- While a text that is no document is read and its tree comes back, another holder puts a node in
a tree and detaches it. -/
theorem accounted_of_run_two : ∃ lending,
    ({ limit := 1 } : Lending).run [.acquire, .parse { text := "query" },
      .append 0 ⟨0, 0⟩ .document {}, .read 1, .detach 0, .giveBack 1, .parse { text := "{a}" },
      .read 2, .drop 2] = some lending ∧
    lending.loans.length = 3 ∧ lending.limit = 1 ∧ lending.Accounted := by
  generalize hSteps : ([_, _, _, _, _, _, _, _, _] : List LendingStep) = steps
  have hLoans : (({ limit := 1 } : Lending).run steps).any
      (fun lending => lending.loans.length == 3) = true := by
    rw [← hSteps]
    decide +kernel
  cases hRun : ({ limit := 1 } : Lending).run steps with
  | none =>
      rw [hRun] at hLoans
      cases hLoans
  | some lending =>
      rw [hRun] at hLoans
      exact ⟨lending, rfl, by simpa using hLoans, accounted_of_run hRun⟩

end Lending

end GraphQL
