import Mathlib.Data.List.Forall2
import Mathlib.Data.List.Induction

/-! Lists of entries under names, read as maps: a name stands for what its first entry has. -/
namespace GraphQL

variable {α β γ : Type} [BEq α]

/-- What is found under a name is an entry of that name. -/
theorem mem_of_lookup [LawfulBEq α] {entries : List (α × β)} {name : α} {value : β}
    (h : entries.lookup name = some value) : (name, value) ∈ entries := by
  obtain ⟨before, after, rfl, -⟩ := List.lookup_eq_some_iff.1 h
  simp

/-- Where no name is repeated, each entry is the first of its name. -/
theorem lookup_of_mem [LawfulBEq α] {entries : List (α × β)}
    (hNames : (entries.map Prod.fst).Nodup) {name : α} {value : β} (h : (name, value) ∈ entries) :
    entries.lookup name = some value := by
  induction entries with
  | nil => cases h
  | cons entry rest ih =>
      obtain ⟨hNew, hRest⟩ := List.nodup_cons.1 hNames
      rcases List.mem_cons.1 h with rfl | hMem
      · exact List.lookup_cons_self
      · have hName : name ∈ rest.map Prod.fst := List.mem_map_of_mem hMem
        have hOther : (name == entry.1) = false := by
          apply beq_false_of_ne
          intro hSame
          exact hNew (hSame ▸ hName)
        rw [List.lookup_cons, hOther]
        exact ih hRest hMem

/-- What a name stands for when the values are changed under their names. -/
theorem lookup_map (change : β → γ) (entries : List (α × β)) (name : α) :
    (entries.map fun entry => (entry.1, change entry.2)).lookup name =
      (entries.lookup name).map change := by
  induction entries with
  | nil => rfl
  | cons entry rest ih =>
      rw [List.map_cons, List.lookup_cons, List.lookup_cons, ih]
      cases name == entry.1 <;> rfl

section Replaced

variable {replace : β → Option γ} (entries : List (α × β))
  (h : ∀ entry ∈ entries, (replace entry.2).isSome = true)
include h

/-- What a name stands for when each value is replaced. If some had no replacement, a later entry
of the name could come first. -/
theorem lookup_filterMap (name : α) :
    (entries.filterMap fun entry =>
      (replace entry.2).map fun value => (entry.1, value)).lookup name =
        (entries.lookup name).bind replace := by
  induction entries with
  | nil => rfl
  | cons entry rest ih =>
      obtain ⟨hFirst, hRest⟩ := List.forall_mem_cons.1 h
      obtain ⟨value, hValue⟩ := Option.isSome_iff_exists.1 hFirst
      rw [List.filterMap_cons, hValue, Option.map_some, List.lookup_cons, List.lookup_cons,
        ih hRest]
      cases name == entry.1 with
      | true => exact hValue.symm
      | false => rfl

omit [BEq α] in
/-- Where no entry is dropped the names stay, in order. -/
theorem names_filterMap :
    (entries.filterMap fun entry =>
      (replace entry.2).map fun value => (entry.1, value)).map Prod.fst =
        entries.map Prod.fst := by
  induction entries with
  | nil => rfl
  | cons entry rest ih =>
      obtain ⟨hFirst, hRest⟩ := List.forall_mem_cons.1 h
      obtain ⟨value, hValue⟩ := Option.isSome_iff_exists.1 hFirst
      rw [List.filterMap_cons, hValue, Option.map_some, List.map_cons, List.map_cons, ih hRest]

end Replaced

/-- What is entered under names one for one is found under the same names. -/
theorem lookup_related {R : β → γ → Prop} {entries : List (α × β)} {results : List (α × γ)}
    (h : List.Forall₂ (fun entry result => result.1 = entry.1 ∧ R entry.2 result.2)
      entries results)
    (name : α) : (entries.lookup name = none → results.lookup name = none) ∧
      ∀ value, entries.lookup name = some value →
        ∃ result, results.lookup name = some result ∧ R value result := by
  induction h with
  | nil =>
      constructor
      · intro _
        rfl
      · intro value hValue
        cases hValue
  | @cons entry result entries results hHead _ ih =>
      rw [List.lookup_cons, List.lookup_cons, hHead.1]
      cases name == entry.1 with
      | true =>
          constructor
          · intro hNone
            cases hNone
          · intro value hValue
            cases hValue
            exact ⟨result.2, rfl, hHead.2⟩
      | false => exact ih

/-- Whether `entries` are the first entries of all names, in the order in which the names come. -/
structure Firsts (all entries : List (α × β)) : Prop where
  names : entries.map Prod.fst = (all.map Prod.fst).eraseDups
  first : ∀ entry ∈ entries, all.lookup entry.1 = some entry.2

theorem Firsts.nil : Firsts ([] : List (α × β)) [] := ⟨rfl, nofun⟩

section Lawful

variable [LawfulBEq α]

/-- A name that comes once more is left out. -/
theorem eraseDups_concat (names : List α) (name : α) :
    (names ++ [name]).eraseDups =
      if name ∈ names then names.eraseDups else names.eraseDups ++ [name] := by
  rw [List.eraseDups_append]
  by_cases hName : name ∈ names
  · simp [List.removeAll, hName]
  · simp [List.removeAll, hName, List.eraseDups_cons]

/-- Each name is left once. -/
theorem nodup_eraseDups (names : List α) : names.eraseDups.Nodup := by
  induction names using List.reverseRecOn with
  | nil => exact List.nodup_nil
  | append_singleton names name ih =>
      rw [eraseDups_concat]
      split
      · exact ih
      · next hNew =>
          refine List.nodup_append.2 ⟨ih, List.pairwise_singleton _ _, ?_⟩
          rintro other hOther last hLast rfl
          rw [List.mem_singleton.1 hLast] at hOther
          exact hNew (List.mem_eraseDups.1 hOther)

/-- A name is found exactly if some entry has it. -/
theorem isSome_lookup {entries : List (α × β)} {name : α} :
    (entries.lookup name).isSome = true ↔ name ∈ entries.map Prod.fst := by
  rw [List.lookup_isSome_iff, List.mem_map]
  exact exists_congr fun entry => and_congr_right fun _ => beq_iff_eq.trans eq_comm

/-- Only the first entry of a name is kept. -/
theorem Firsts.nodup {all entries : List (α × β)} (h : Firsts all entries) :
    (entries.map Prod.fst).Nodup := by
  rw [h.names]
  exact nodup_eraseDups _

/-- A name stands for what it stands for among all entries. -/
theorem Firsts.lookup_eq {all entries : List (α × β)} (h : Firsts all entries) (name : α) :
    entries.lookup name = all.lookup name := by
  cases hFound : entries.lookup name with
  | some value => exact (h.first (name, value) (mem_of_lookup hFound)).symm
  | none =>
      have hNew : name ∉ all.map Prod.fst := by
        rw [← List.mem_eraseDups, ← h.names, ← isSome_lookup, hFound]
        exact Bool.false_ne_true
      exact (Option.not_isSome_iff_eq_none.1 (mt isSome_lookup.1 hNew)).symm

/-- Entering a value unless its name was entered before keeps the first entries. -/
theorem Firsts.enter {all entries : List (α × β)} (h : Firsts all entries) (name : α) (value : β) :
    Firsts (all ++ [(name, value)])
      (if (entries.lookup name).isSome then entries else entries ++ [(name, value)]) := by
  have hNames : (entries.lookup name).isSome = true ↔ name ∈ all.map Prod.fst := by
    rw [isSome_lookup, h.names, List.mem_eraseDups]
  have hKept : ∀ entry ∈ entries, (all ++ [(name, value)]).lookup entry.1 = some entry.2 := by
    intro entry hEntry
    rw [List.lookup_append, h.first entry hEntry, Option.some_or]
  by_cases hFound : (entries.lookup name).isSome = true
  · rw [if_pos hFound]
    refine ⟨?_, hKept⟩
    rw [List.map_append, List.map_singleton, eraseDups_concat, if_pos (hNames.1 hFound), h.names]
  · rw [if_neg hFound]
    have hNew : name ∉ all.map Prod.fst := mt hNames.2 hFound
    refine ⟨?_, List.forall_mem_append.2 ⟨hKept, List.forall_mem_singleton.2 ?_⟩⟩
    · rw [List.map_append, List.map_append, List.map_singleton, eraseDups_concat, if_neg hNew,
        h.names]
    · have hNone : all.lookup name = none :=
        Option.not_isSome_iff_eq_none.1 (mt isSome_lookup.1 hNew)
      rw [List.lookup_append, hNone, Option.none_or, List.lookup_cons_self]

end Lawful

end GraphQL
