import Mathlib.Data.List.Nodup

/-!
A ledger of entries, the latest first, each for a key and with a value. If no
value was ever given twice, the values in force for different keys differ.
-/

namespace Ledger
variable {α κ ν : Type} [DecidableEq κ]

def latest (ledger : List α) (key : α → κ) (k : κ) : Option α := ledger.find? fun a => key a = k

section Rules
variable (ledger : List α) (key : α → κ) (value : α → ν)

theorem latest_cons (a : α) (k : κ) :
    latest (a :: ledger) key k = if key a = k then some a else latest ledger key k := by
  unfold latest
  rw [List.find?_cons]
  by_cases same : key a = k
  · simp [same]
  · simp [same]

theorem latest_mem (k : κ) (a : α) (found : latest ledger key k = some a) : a ∈ ledger ∧ key a = k :=
  ⟨List.mem_of_find?_eq_some found, by simpa using List.find?_some found⟩

theorem value_unique (once : (ledger.map value).Nodup) (a b : α) (left : a ∈ ledger)
    (right : b ∈ ledger) (same : value a = value b) : a = b :=
  List.inj_on_of_nodup_map once left right same

theorem latest_all (once : ledger.Nodup) :
    (∀ a ∈ ledger, latest ledger key (key a) = some a) ↔ (ledger.map key).Nodup := by
  induction ledger with
  | nil => simp
  | cons b ledger ih =>
      obtain ⟨new, rest⟩ := List.nodup_cons.mp once
      rw [List.map_cons, List.nodup_cons, ← ih rest]
      constructor
      · intro all
        have different : ∀ a ∈ ledger, key b ≠ key a := by
          intro a member same
          have found := all a (List.mem_cons_of_mem b member)
          rw [latest_cons, if_pos same] at found
          exact new (Option.some.inj found ▸ member)
        refine ⟨fun given => ?_, fun a member => ?_⟩
        · obtain ⟨a, member, same⟩ := List.mem_map.mp given
          exact different a member same.symm
        · have found := all a (List.mem_cons_of_mem b member)
          rwa [latest_cons, if_neg (different a member)] at found
      · rintro ⟨fresh, all⟩ a member
        rw [latest_cons]
        rcases List.mem_cons.mp member with rfl | earlier
        · exact if_pos rfl
        · have different : key b ≠ key a := fun same => fresh (List.mem_map.mpr ⟨a, earlier, same.symm⟩)
          rw [if_neg different]
          exact all a earlier

theorem latest_apart (once : (ledger.map value).Nodup) (k k' : κ) (a b : α)
    (first : latest ledger key k = some a) (second : latest ledger key k' = some b)
    (different : k ≠ k') : value a ≠ value b := by
  intro same
  have left := latest_mem ledger key k a first
  have right := latest_mem ledger key k' b second
  have equal := value_unique ledger value once a b left.1 right.1 same
  apply different
  rw [← left.2, ← right.2, equal]

end Rules
end Ledger
